import CellGraph.Knowledge

/-!
# Following soft links

A link that does not hold its target can be given it by whoever has the cell. What is given must
have the link's digest. A target too large to be written inline is kept; a smaller one is not, so
that the link goes on being written as its digest.

* `Link.accept`: taking a cell for a link;
* `Link.resolve`: the target, held already or asked for.
-/

namespace CellGraph.Link

/-- Take what was found for a link that does not hold its target. -/
def accept (link : Link) : Option Cell → Attempt Cell
  | none => throw (Fault.missingData link.digest)
  | some cell => do
    let digest ← cell.hash
    if digest ≠ link.digest then Attempt.invalid (.wrongContent digest link.digest)
    else
      unless ← cell.embeds do modify (·.keep link cell)
      modify (·.advance link .verified)
      return cell

/-- The target of a link. It is asked for only if the link does not hold it. -/
def resolve (link : Link) (ask : Digest → Attempt (Option Cell)) : Attempt Cell := do
  match (← get).resident link with
  | some cell => return cell
  | none => link.accept (← ask link.digest)

end CellGraph.Link
