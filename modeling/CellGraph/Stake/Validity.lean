import CellGraph.Cell.Encoding
import CellGraph.Fault

/-!
# Valid stake records

The invariants of a stake record: no share count and no balance is negative, delegated shares come
with a map of delegators that adds up to them, and the maps are not empty. The maps are looked at as
far as they are held in memory; which cell a link leads to is a parameter.

* `StakeRecord.sumOfStakes`: the scan of the delegators' shares;
* `StakeRecord.validate`: all invariants, in the order in which they are reported.
-/

namespace CellGraph.StakeRecord

variable (resident : Link → Option Cell)

/-- Whether a value is a map without entries. -/
def isEmptyMap {ρ : Type} : Value ρ → Bool
  | .map entries => entries.isEmpty
  | _ => false

/-- Whether an optional link leads to an empty map that is held in memory. -/
def leadsToEmptyMap (link : Option Link) : Bool :=
  (link.bind resident).any fun cell => isEmptyMap cell.value

/-- Whether a value is an address. -/
def isAddress {ρ : Type} : Value ρ → Bool
  | .address _ => true
  | _ => false

/--
The sum of the shares in a map of delegators, added to `sum`. There is none if the shares of a
delegator are not held in memory; the entries after it are not looked at.
-/
def sumOfStakes : Int → List (Link × Link) → Except DataFault (Option Int)
  | sum, [] => .ok (some sum)
  | sum, (key, shares) :: rest =>
    if (resident key).any fun cell => !isAddress cell.value then .error .delegatorNotAddress
    else
      match resident shares with
      | none => .ok none
      | some cell =>
        match cell.value with
        | .integer n =>
          if 0 < n.toInt then sumOfStakes (sum + n.toInt) rest else .error .nonPositiveStake
        | _ => .error .stakeNotInteger

/-- Check a map of delegators against the sum of delegated shares. -/
def validateStakes (delegated : Int) (stakes : Cell) : Except DataFault Unit :=
  match stakes.value with
  | .map [] => .error .emptyStakes
  | .map entries =>
    match sumOfStakes resident 0 entries with
    | .error cause => .error cause
    | .ok none => .ok ()
    | .ok (some sum) => if sum = delegated then .ok () else .error (.stakeSum sum delegated)
  | _ => .error .stakesNotMap

/-- Check the metadata of a record. -/
def validateMetadata (metadata : Cell) : Except DataFault Unit :=
  match metadata.value with
  | .map [] => .error .emptyMetadata
  | .map _ => .ok ()
  | _ => .error .metadataNotMap

/-- Check a child map, if it is there and held in memory. -/
def whenResident (check : Cell → Except DataFault Unit) (link : Option Link) :
    Except DataFault Unit :=
  match link.bind resident with
  | some cell => check cell
  | none => .ok ()

/-- Check the invariants of a record. -/
def validate (record : StakeRecord Link) : Except DataFault Unit := do
  if record.balance < 0 then throw .negativeBalance
  if record.delegatedShares < 0 then throw .negativeDelegatedStake
  if record.peerShares < 0 then throw .negativePeerStake
  if record.stakes.isNone ∧ record.delegatedShares ≠ 0 then throw .sharesWithoutDelegators
  whenResident resident (validateStakes resident record.delegatedShares.toInt) record.stakes
  whenResident resident validateMetadata record.metadata

end CellGraph.StakeRecord
