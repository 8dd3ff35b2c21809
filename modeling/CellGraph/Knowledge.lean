import CellGraph.Cell.Size
import CellGraph.Status
import Std.Data.TreeMap
import Std.Data.TreeSet

/-!
# What is known about a graph

Cells never change, but more and more becomes known about them: how durable the target of a link is,
which cell a soft link leads to, whose digest and whose encoding have been worked out. All of it is
filed under labels, and it only grows.

* `Knowledge`: what is known, and the next unused label;
* `Knowledge.status`, `Knowledge.advance`, `Knowledge.resident`, `Knowledge.keep`: links;
* `Calc`, `Attempt`: computations that add to what is known, the second kind may fail;
* `Cell.make`, `Cell.link`, `Digest.link`: making cells and links;
* `Cell.encoding`, `Cell.hash`: working out encodings and digests, and noting them;
* `Knowledge.estimate`: the size of an encoding, as far as it is known.
-/

namespace CellGraph

/-- What is known about the cells and links of a graph. -/
structure Knowledge where
  /-- No cell and no link has this label or a greater one. -/
  next : Label := 0
  /-- The status of a link; `unknown` where there is no entry. -/
  statuses : Std.TreeMap Label Status := {}
  /-- The cells that soft links have come to hold. -/
  kept : Std.TreeMap Label Cell := {}
  /-- The cells whose digest has been worked out. -/
  hashed : Std.TreeSet Label := {}
  /-- The cells whose encoding has been worked out. -/
  encoded : Std.TreeSet Label := {}

namespace Knowledge

/-- The status of a link. -/
def status (known : Knowledge) (link : Link) : Status := known.statuses.getD link.label .unknown

/-- Raise the status of a link to at least `status`. -/
def advance (known : Knowledge) (link : Link) (status : Status) : Knowledge :=
  { known with statuses := known.statuses.insert link.label ((known.status link).max status) }

/-- The target of a link, if it is held in memory. -/
def resident (known : Knowledge) : Link → Option Cell
  | .direct _ target => some target
  | .soft label _ => known.kept[label]?

/-- Let a soft link hold a cell, unless it holds one already. -/
def keep (known : Knowledge) (link : Link) (cell : Cell) : Knowledge :=
  { known with kept := known.kept.insertIfNew link.label cell }

/-- Note that a cell's digest has been worked out. -/
def noteHashed (known : Knowledge) (cell : Cell) : Knowledge :=
  { known with hashed := known.hashed.insert cell.label }

/-- Note that one cell's encoding has been worked out. -/
def noteEncoded (known : Knowledge) (cell : Cell) : Knowledge :=
  { known with encoded := known.encoded.insert cell.label }

/-- Whether a cell's digest has been worked out. -/
def isHashed (known : Knowledge) (cell : Cell) : Bool := known.hashed.contains cell.label

/-- Whether a cell's encoding has been worked out. -/
def isEncoded (known : Knowledge) (cell : Cell) : Bool := known.encoded.contains cell.label

theorem status_advance (known : Knowledge) (link other : Link) (status : Status) :
    (known.advance link status).status other =
      if link.label = other.label then (known.status other).max status else known.status other := by
  by_cases h : link.label = other.label
  · simp [advance, Knowledge.status, h]
  · simp [advance, Knowledge.status, h, Std.TreeMap.getD_insert]

theorem resident_advance (known : Knowledge) (link : Link) (status : Status) :
    (known.advance link status).resident = known.resident := by
  funext other
  cases other <;> rfl

/-- A direct link holds its target. -/
theorem resident_of_target {known : Knowledge} {link : Link} {target : Cell}
    (h : link.target? = some target) : known.resident link = some target := by
  cases link with
  | direct => exact h
  | soft => cases h

end Knowledge

/-! ### What writing a cell makes known -/

/--
The encoding of a cell, with what is known once it has been written: the encodings of the cell and
of every cell that it holds, and the digests of those that are not written inline. Cells that were
written before are not visited again.
-/
def Cell.encodeNoting : Cell → Bytes × (Knowledge → Knowledge) :=
  Cell.fold
    (fun cell (value : Value (Bytes × (Knowledge → Knowledge))) =>
      ((value.mapLinks Prod.fst).write, fun known =>
        if known.isEncoded cell then known
        else (value.links.foldl (fun known link => link.2 known) known).noteEncoded cell))
    (fun _ target written =>
      (writtenChild written.1, fun known =>
        if written.1.length ≤ maxEmbedded then written.2 known
        else (written.2 known).noteHashed target))
    (fun _ digest => (digest.written, id))

theorem Cell.encodeNoting_fst (cell : Cell) : cell.encodeNoting.1 = cell.encode :=
  Cell.fold_fst_eq_encode (fun _ _ => rfl) (fun _ _ _ => rfl) (fun _ _ => rfl) cell

/-- Computations that add to what is known. -/
abbrev Calc := StateM Knowledge

/-- Computations that add to what is known, also when they fail. -/
abbrev Attempt := ExceptT Fault Calc

/-- Fail because data is not valid. -/
def Attempt.invalid {α : Type} (cause : DataFault) : Attempt α := throw (.invalidData cause)

/-- Fail because an argument is refused. -/
def Attempt.refuse {α : Type} (cause : ArgumentFault) : Attempt α := throw (.invalidArgument cause)

/-- A label that has not been used. -/
def freshLabel : Calc Label :=
  modifyGet fun known => (known.next, { known with next := known.next + 1 })

/-- Make a cell of a value. -/
def Cell.make (value : Value Link) : Calc Cell := return .mk (← freshLabel) value

/-- Make a direct link to a cell. -/
def Cell.link (target : Cell) : Calc Link := return .direct (← freshLabel) target

/-- Make a soft link to the cell of this digest. -/
def Digest.link (digest : Digest) : Calc Link := return .soft (← freshLabel) digest

/-- Work out the encoding of a cell. -/
def Cell.noteWritten (cell : Cell) : Calc Unit :=
  modify fun known => if known.isEncoded cell then known else cell.encodeNoting.2 known

/-- Work out the digest of a cell. -/
def Cell.noteDigest (cell : Cell) : Calc Unit := do
  unless (← get).isHashed cell do
    cell.noteWritten
    modify (·.noteHashed cell)

/-- Work out the digest of a link's target. -/
def Link.noteDigest : Link → Calc Unit
  | .direct _ target => target.noteDigest
  | .soft _ _ => pure ()

/-- The encoding of a cell, from now on known. -/
def Cell.encoding (cell : Cell) : Calc Bytes :=
  modifyGet fun known =>
    if known.isEncoded cell then (cell.encode, known)
    else
      let (bytes, note) := cell.encodeNoting
      (bytes, note known)

theorem Cell.fst_encoding (cell : Cell) (known : Knowledge) :
    (cell.encoding known).1 = cell.encode := by
  simp only [Cell.encoding, modifyGet, MonadStateOf.modifyGet, StateT.modifyGet]
  split
  · rfl
  · exact cell.encodeNoting_fst

/-- The digest of a cell, from now on known. -/
def Cell.hash (cell : Cell) : Calc Digest := do
  let bytes ← cell.encoding
  modify (·.noteHashed cell)
  return Digest.of bytes

theorem Cell.fst_hash (cell : Cell) (known : Knowledge) :
    (cell.hash known).1 = cell.digest :=
  congrArg Digest.of (cell.fst_encoding known)

/-- The digest of a link's target, from now on known. -/
def Link.hash (link : Link) : Calc Digest := do
  link.noteDigest
  return link.digest

/-- Whether a cell is written inline in its parents; its encoding is known from now on. -/
def Cell.embeds (cell : Cell) : Calc Bool := do
  cell.noteWritten
  return cell.isSmall

/-- The digest of a cell, if it has been worked out. -/
def Knowledge.hash? (known : Knowledge) (cell : Cell) : Option Digest :=
  if known.isHashed cell then some cell.digest else none

/-- The digest of a link's target, if it is known without writing anything. -/
def Knowledge.linkHash? (known : Knowledge) : Link → Option Digest
  | .direct _ target => known.hash? target
  | .soft _ digest => some digest

/-- The size of a cell's encoding, if that has been worked out, and a bound on it otherwise. -/
def Knowledge.estimate (known : Knowledge) (cell : Cell) : Nat :=
  if known.isEncoded cell then cell.encodedSize else cell.sizeBound

/-- The target of a link, which must be held in memory. -/
def Link.load (link : Link) : Attempt Cell := do
  match (← get).resident link with
  | some cell => return cell
  | none => throw (Fault.missingData link.digest)

/-- The target of an optional link, which must be held in memory. -/
def Link.loadOption : Option Link → Attempt (Option Cell)
  | none => return none
  | some link => return some (← link.load)

/-- The number of links below a cell. -/
def Cell.linkCount (cell : Cell) : Nat := cell.links.length

/-- The link of this index. -/
def Cell.linkAt (cell : Cell) (index : Nat) : Except Fault Link :=
  match cell.links[index]? with
  | some link => .ok link
  | none => .error (.invalidArgument (.linkIndex index cell.value.kind))

/-- Make a keyword of 1 to 64 bytes. -/
def Cell.makeKeyword (name : String) : Attempt Cell :=
  let size := (Bytes.ofText name).length
  if size = 0 ∨ maxKeyword < size then .refuse (.keywordLength size) else Cell.make (.keyword name)

/-- Make a vector of cells. -/
def Cell.makeVector (items : List Cell) : Calc Cell := do Cell.make (.vector (← items.mapM Cell.link))

end CellGraph
