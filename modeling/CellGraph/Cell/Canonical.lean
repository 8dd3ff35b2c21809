import CellGraph.Knowledge
import CellGraph.Stake.Validity

/-!
# Canonical form

A cell must be held in the form in which it is written: a keyword has 1 to 64 bytes, the entries of
a map ascend strictly by the digests of their keys, and the maps of a stake record are absent when
empty. A valid cell is canonical and, if it is a stake record, keeps that record's invariants.

* `Value.isCanonical`, `Value.validate`: the checks, as far as cells are held in memory;
* `Cell.checkCanonical`, `Cell.validate`: the checks with what is known.
-/

namespace CellGraph

/-- Whether each digest is below the next one. -/
def ascending : List Digest → Bool
  | a :: b :: rest => a < b && ascending (b :: rest)
  | _ => true

namespace Value

/-- Whether a value is held in the form in which it must be written. -/
def isCanonical (resident : Link → Option Cell) : Value Link → Bool
  | keyword name => 0 < (Bytes.ofText name).length && (Bytes.ofText name).length ≤ maxKeyword
  | map entries => ascending (entries.map fun entry => entry.1.digest)
  | peer record =>
    !StakeRecord.leadsToEmptyMap resident record.stakes &&
      !StakeRecord.leadsToEmptyMap resident record.metadata
  | _ => true

/-- Check that a value is canonical and keeps the invariants of its kind. -/
def validate (resident : Link → Option Cell) (value : Value Link) : Except DataFault Unit :=
  if !value.isCanonical resident then .error (.notCanonical value.kind)
  else
    match value with
    | peer record => record.validate resident
    | _ => .ok ()

end Value

/-- Note the digests that comparing the keys of a map makes known: those of two keys or more. -/
def Value.noteCompared : Value Link → Calc Unit
  | .map (first :: second :: rest) => (first :: second :: rest).forM fun entry => entry.1.noteDigest
  | _ => pure ()

/-- Whether a cell is held in the form in which it must be written. -/
def Cell.checkCanonical (cell : Cell) : Calc Bool := do
  cell.value.noteCompared
  return cell.value.isCanonical (← get).resident

/-- Check a cell's own invariants. Children that are not held in memory are not looked at. -/
def Cell.validate (cell : Cell) : Attempt Unit := do
  cell.value.noteCompared
  match cell.value.validate (← get).resident with
  | .ok () => return
  | .error cause => Attempt.invalid cause

end CellGraph
