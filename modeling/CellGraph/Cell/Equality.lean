import CellGraph.Knowledge

/-!
# Equality of cells

Two cells are equal if they are written alike. Equality is found without writing where it can be: a
cell is equal to itself, and two cells whose digests are known are equal if those are. Otherwise
values are compared, and links by what is written for them: two inline children by comparing them,
two children named by digest by comparing the digests.

* `Value.agree`: comparing values, given how to compare links;
* `Cell.equal`, `Link.equal`: equality of cells and of links;
* `Cell.equalOption`: equality of optional cells.
-/

namespace CellGraph

/-- Compare the first, and the second only if that agrees. -/
def Calc.both (first second : Calc Bool) : Calc Bool := do
  if ← first then second else return false

/-- A comparison with a link. -/
abbrev Link.Test := Link → Calc Bool

namespace Link.Test

/-- Compare two lists of one length place by place, up to the first difference. -/
def all : List Link.Test → List Link → Calc Bool
  | test :: tests, link :: links => Calc.both (test link) (all tests links)
  | _, _ => pure true

/-- Compare two lists of entries of one length place by place, up to the first difference. -/
def allEntries : List (Link.Test × Link.Test) → List (Link × Link) → Calc Bool
  | (key, value) :: tests, entry :: entries =>
    Calc.both (Calc.both (key entry.1) (value entry.2)) (allEntries tests entries)
  | _, _ => pure true

/-- Compare two optional links: both absent, or both there and equal. -/
def option : Option Link.Test → Option Link → Calc Bool
  | none, none => pure true
  | some test, some link => test link
  | _, _ => pure false

end Link.Test

/-- Compare two records, the fields that are not links first. -/
def StakeRecord.agree (tests : StakeRecord Link.Test) (record : StakeRecord Link) : Calc Bool :=
  if tests.controller = record.controller ∧ tests.peerShares = record.peerShares ∧
      tests.delegatedShares = record.delegatedShares ∧ tests.balance = record.balance ∧
      tests.timestamp = record.timestamp then
    Calc.both (Link.Test.option tests.stakes record.stakes)
      (Link.Test.option tests.metadata record.metadata)
  else pure false

/-- Compare two values, the links of the first one being replaced by comparisons with them. -/
def Value.agree : Value Link.Test → Value Link → Calc Bool
  | .integer m, .integer n => pure (m = n)
  | .address a, .address b => pure (a = b)
  | .text s, .text t => pure (s = t)
  | .blob a, .blob b => pure (a = b)
  | .keyword s, .keyword t => pure (s = t)
  | .vector tests, .vector items =>
    if tests.length = items.length then Link.Test.all tests items else pure false
  | .map tests, .map entries =>
    if tests.length = entries.length then Link.Test.allEntries tests entries else pure false
  | .peer tests, .peer record => tests.agree record
  | _, _ => pure false

namespace Cell

/-- Compare a cell with another one, given how its value compares with a value. -/
def equalBy (cell : Cell) (tests : Value Link.Test) (other : Cell) : Calc Bool := do
  if cell.same other then return true
  else
    let known ← get
    match known.hash? cell, known.hash? other with
    | some a, some b => return a = b
    | _, _ => tests.agree other.value

end Cell

namespace Link

/-- Compare a direct link with another link, given how its target compares with a cell. -/
def equalDirect (label : Label) (target : Cell) (equal : Cell → Calc Bool) (other : Link) :
    Calc Bool := do
  if label = other.label then return true
  else
    let small ← target.embeds
    match other with
    | .direct _ otherTarget =>
      let otherSmall ← otherTarget.embeds
      if small ∧ otherSmall then equal otherTarget
      else if small ∨ otherSmall then return false
      else
        let digest ← target.hash
        return digest = (← otherTarget.hash)
    | .soft _ digest => if small then return false else return (← target.hash) = digest

/-- Compare a soft link with another link. -/
def equalSoft (label : Label) (digest : Digest) (other : Link) : Calc Bool := do
  if label = other.label then return true
  else
    match other with
    | .direct _ target => if ← target.embeds then return false else return digest = (← target.hash)
    | .soft _ otherDigest => return digest = otherDigest

end Link

/-- Whether two cells are equal. -/
def Cell.equal : Cell → Cell → Calc Bool := Cell.fold Cell.equalBy Link.equalDirect Link.equalSoft

/-- Whether two links are equal. -/
def Link.equal : Link → Link → Calc Bool
  | .direct label target => Link.equalDirect label target target.equal
  | .soft label digest => Link.equalSoft label digest

/-- Whether two optional cells are equal: both absent, or both there and equal. -/
def Cell.equalOption : Option Cell → Option Cell → Calc Bool
  | none, none => pure true
  | some a, some b => a.equal b
  | _, _ => pure false

/-- The digest of an optional cell. -/
def Cell.hashOption : Option Cell → Calc Digest
  | none => pure Digest.absent
  | some cell => cell.hash

/-- Cells are compared by their labels, then by known digests, then by value and links. -/
theorem Cell.equal_mk (label : Label) (value : Value Link) :
    Cell.equal (.mk label value) = Cell.equalBy (.mk label value) (value.mapLinks Link.equal) := by
  have h : Link.fold Cell.equalBy Link.equalDirect Link.equalSoft = Link.equal := by
    funext link
    cases link <;> simp [Link.equal, Cell.equal]
  rw [Cell.equal, Cell.fold_mk, h]

end CellGraph
