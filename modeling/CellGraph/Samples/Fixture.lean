import CellGraph.Stake.Update

/-!
# Sample graphs and records

* `Sample.nestedGraph`: a chain of cells, each too large to be inline in the next;
* `Sample.delegators`, `Sample.delegatedPeer`: a stake record with equal delegators.
-/

namespace CellGraph.Sample

/-- A text of one character many times over, too large to be written inline. -/
def largeText (c : Char) : Calc Cell := Cell.make (.text (String.ofList (List.replicate 300 c)))

/--
The level of a graph above the cell `below`: a large leaf of its own, some padding, and the cell.
-/
def level (number : Nat) (below : Cell) : Calc Cell := do
  let leaf ← Cell.make (.text (toString number ++ String.ofList (List.replicate 300 'n')))
  let padding ← Cell.make (.blob (List.replicate 100 (UInt8.ofNat number)))
  Cell.makeVector [leaf, padding, below]

/-- The levels `first`, `first + 1` and so on above a cell, `count` of them. -/
def levels : Nat → Nat → Cell → Calc Cell
  | _, 0, cell => pure cell
  | first, count + 1, cell => do levels (first + 1) count (← level first cell)

/-- A graph of this depth: a large text, and one level on top of the other above it. -/
def nestedGraph (depth : Nat) : Calc Cell := do levels 0 depth (← largeText '0')

/-- The addresses from 100 upwards. -/
def delegators (count : Nat) : List Address :=
  (List.range count).map fun i => ⟨UInt64.ofNat (100 + i)⟩

/-- The record of the peer of address 1, to which each delegator delegates the same shares. -/
def delegatedPeer (count : Nat) (peerShares shares : Int64) : Attempt (StakeRecord Link) := do
  let record : StakeRecord Link ← StakeRecord.create ⟨1⟩ peerShares
  (delegators count).foldlM (fun record delegator => record.setDelegation delegator shares) record

end CellGraph.Sample
