import CellGraph.Cell.Map
import CellGraph.Stake.Valuation

/-!
# Questions to a stake record

What each delegator holds, and the fields of a record. A question that needs a map fails if the map,
or the value asked for, is not held in memory.

* `Address.digest`: the digest of an address cell;
* `StakeRecord.sharesOf`, `StakeRecord.valueOf`: a delegator's shares and what they are worth;
* `StakeRecord.hostname`, `StakeRecord.field?`: the published host name, and fields by name.
-/

namespace CellGraph

/-- The digest of the cell that holds an address. -/
def Address.digest (a : Address) : Digest := Digest.of (Value.write (.address a))

/-- The address as it is shown. -/
def Address.text (a : Address) : String := "#" ++ toString a.number

namespace StakeRecord

/-- The shares of a delegator, zero if it has none. -/
def sharesOf (record : StakeRecord Link) (delegator : Address) : Attempt Int64 := do
  match ← Link.loadOption record.stakes with
  | none => return 0
  | some stakes =>
    match ← stakes.findDigest? delegator.digest with
    | none => return 0
    | some shares =>
      match shares.value with
      | .integer n => return n
      | _ => Attempt.invalid (.delegatorStakeNotInteger delegator.number)

/-- What a delegator's shares are worth. -/
def valueOf (record : StakeRecord Link) (delegator : Address) : Attempt Int64 := do
  if record.delegatedShares ≤ 0 then return 0
  else
    let shares ← record.sharesOf delegator
    match mulDiv record.delegatedValue shares record.delegatedShares with
    | some value => return value
    | none => Attempt.invalid (.sharesExceedDelegated delegator.number)

/-- The text that the metadata binds to the keyword `url`. -/
def hostname (record : StakeRecord Link) : Attempt (Option String) := do
  match ← Link.loadOption record.metadata with
  | none => return none
  | some metadata =>
    match ← metadata.find? (← Cell.makeKeyword "url") with
    | some cell =>
      match cell.value with
      | .text s => return some s
      | _ => return none
    | none => return none

/-- The field of this name, as a cell. -/
def field? (record : StakeRecord Link) (name : String) : Attempt (Option Cell) := do
  if name = "controller" then return some (← Cell.make (.address record.controller))
  else if name = "stake" then return some (← Cell.make (.integer record.peerShares))
  else if name = "stakes" then Link.loadOption record.stakes
  else if name = "delegated-stake" then return some (← Cell.make (.integer record.delegatedShares))
  else if name = "metadata" then Link.loadOption record.metadata
  else if name = "timestamp" then return some (← Cell.make (.integer record.timestamp))
  else if name = "balance" then return some (← Cell.make (.integer record.balance))
  else return none

end StakeRecord

end CellGraph
