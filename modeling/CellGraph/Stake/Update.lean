import CellGraph.Stake.Holdings
import CellGraph.Stake.Validity

/-!
# Updates of stake records

An update makes a new record and leaves the old one as it was; the two share the links that did not
change. Share counts are set, not added to; the balance moves by as many units as the shares do. An
update fails if its argument is negative, if the balance would need more than 64 bits, or if
metadata is not a map.

* `StakeRecord.create`: the record of a new peer;
* `StakeRecord.setDelegation`, `StakeRecord.setPeerShares`: changes of shares, and the parts of the
  first in `StakeRecord.setDelegation_eq`;
* `StakeRecord.addReward`, `StakeRecord.setMetadata`, `StakeRecord.setTimestamp`: other changes;
* `StakeUpdate`, `StakeUpdate.apply`: updates as data.
-/

namespace CellGraph

namespace StakeRecord

/-- The record of a new peer with some shares of its own. -/
def create (controller : Address) (shares : Int64) : Except Fault (StakeRecord Link) :=
  if shares < 0 then .error (.invalidArgument .negativePeerStake)
  else
    .ok {
      controller
      peerShares := shares
      stakes := none
      delegatedShares := 0
      metadata := none
      timestamp := -1
      balance := shares }

/-- A record, once its invariants have been checked. -/
def checked (record : StakeRecord Link) : Attempt (StakeRecord Link) := do
  match record.validate (← get).resident with
  | .ok () => return record
  | .error cause => Attempt.invalid cause

/-- A number that must fit in 64 bits. -/
def within (n : Int) (otherwise : ArgumentFault) : Attempt Int64 :=
  match narrow? n with
  | some n => return n
  | none => .refuse otherwise

/-- A link to a map, or none if the map is empty. -/
def linkNonEmpty (map : Cell) : Attempt (Option Link) := do
  if (← map.size) = 0 then return none else return some (← map.link)

/-- The record in which a delegator has this many shares. With none it is no delegator any more. -/
def setDelegation (record : StakeRecord Link) (delegator : Address) (shares : Int64) :
    Attempt (StakeRecord Link) := do
  if shares < 0 then Attempt.refuse .negativeDelegatedStake
  let old ← record.sharesOf delegator
  if old = shares then return record
  else
    let change ← within (shares.toInt - old.toInt) .delegatedStakeOverflow
    let delegatedShares ←
      within (record.delegatedShares.toInt + change.toInt) .delegatedStakeOverflow
    let balance ← within (record.balance.toInt + change.toInt) .delegatedStakeOverflow
    let key ← Cell.make (.address delegator)
    let stakes ← match ← Link.loadOption record.stakes with
      | some stakes => pure stakes
      | none => Cell.make (.map [])
    let stakes ←
      if shares = 0 then stakes.erase key
      else do stakes.insert key (← Cell.make (.integer shares))
    checked { record with stakes := ← linkNonEmpty stakes, delegatedShares, balance }

/-- The record with another map of delegators, and with the sums that belong to it. -/
def setStakes (record : StakeRecord Link) (map : Cell) (delegatedShares balance : Int64) :
    Attempt (StakeRecord Link) := do
  checked { record with stakes := ← linkNonEmpty map, delegatedShares, balance }

/-- The record with one entry of a map of delegators set, or erased if there are no shares. -/
def setShares (record : StakeRecord Link) (map key : Cell)
    (shares delegatedShares balance : Int64) : Attempt (StakeRecord Link) := do
  if shares = 0 then record.setStakes (← map.erase key) delegatedShares balance
  else
    record.setStakes (← map.insert key (← Cell.make (.integer shares))) delegatedShares balance

/-- The sums are found first; then the map that the record has is changed, or a new one. -/
theorem setDelegation_eq (record : StakeRecord Link) (delegator : Address) (shares : Int64) :
    record.setDelegation delegator shares = (do
      if shares < 0 then Attempt.refuse .negativeDelegatedStake
      let old ← record.sharesOf delegator
      if old = shares then return record
      else
        let change ← within (shares.toInt - old.toInt) .delegatedStakeOverflow
        let delegatedShares ←
          within (record.delegatedShares.toInt + change.toInt) .delegatedStakeOverflow
        let balance ← within (record.balance.toInt + change.toInt) .delegatedStakeOverflow
        let key ← Cell.make (.address delegator)
        match ← Link.loadOption record.stakes with
        | some map => record.setShares map key shares delegatedShares balance
        | none => record.setShares (← Cell.make (.map [])) key shares delegatedShares balance) :=
  rfl

/-- The record in which the peer itself has this many shares. -/
def setPeerShares (record : StakeRecord Link) (shares : Int64) : Attempt (StakeRecord Link) := do
  if shares < 0 then Attempt.refuse .negativePeerStake
  if shares = record.peerShares then return record
  else
    let change := shares - record.peerShares
    let balance ← within (record.balance.toInt + change.toInt) .peerStakeOverflow
    checked { record with peerShares := shares, balance }

/-- The record with a reward added to the balance. -/
def addReward (record : StakeRecord Link) (amount : Int64) : Attempt (StakeRecord Link) := do
  if amount < 0 then Attempt.refuse .negativeReward
  let balance ← within (record.balance.toInt + amount.toInt) .balanceOverflow
  checked { record with balance }

/-- The record with other metadata. An empty map is kept as absent. -/
def setMetadata (record : StakeRecord Link) (metadata : Option Cell) :
    Attempt (StakeRecord Link) := do
  match metadata with
  | none => checked { record with metadata := none }
  | some map =>
    match map.size with
    | .error _ => Attempt.refuse .metadataNotMap
    | .ok _ => checked { record with metadata := ← linkNonEmpty map }

/-- The record with another timestamp. -/
def setTimestamp (record : StakeRecord Link) (timestamp : Int64) : StakeRecord Link :=
  { record with timestamp }

end StakeRecord

/-- An update of a stake record. -/
inductive StakeUpdate
  | delegate (delegator : Address) (shares : Int64)
  | peerShares (shares : Int64)
  | reward (amount : Int64)
  | metadata (map : Option Cell)
  | timestamp (timestamp : Int64)
  /-- Publish a host name, or withdraw the one that was published. -/
  | host (name : Option String)

/-- The metadata that publishes a host name. -/
def hostMetadata (name : String) : Attempt Cell := do
  let key ← Cell.makeKeyword "url"
  Cell.makeMap [(key, ← Cell.make (.text name))]

/-- Apply an update. -/
def StakeUpdate.apply (record : StakeRecord Link) : StakeUpdate → Attempt (StakeRecord Link)
  | delegate delegator shares => record.setDelegation delegator shares
  | peerShares shares => record.setPeerShares shares
  | reward amount => record.addReward amount
  | metadata map => record.setMetadata map
  | timestamp t => pure (record.setTimestamp t)
  | host none => record.setMetadata none
  | host (some name) => do record.setMetadata (some (← hostMetadata name))

end CellGraph
