import CellGraph.Digest
import CellGraph.Tag
import CellGraph.Text.Utf8

/-!
# Faults

What can go wrong with cells. A fault is of one of four classes: bytes that are no canonical
encoding, a cell that exists somewhere but not here, a value that breaks an invariant of its kind,
and an argument outside an operation's domain.

* `FormatFault`, `DataFault`, `ArgumentFault`: the causes of each class, and their words;
* `Fault`, `Fault.message`: a fault and its text;
* `FaultClass`, `Fault.faultClass`: the classification.
-/

namespace CellGraph

/-- Why bytes are not the canonical encoding of a cell. -/
inductive FormatFault
  /-- The input ends where a byte is needed. -/
  | unexpectedEnd
  /-- The input has fewer bytes left than are needed. -/
  | tooShort (wanted remaining : Nat)
  /-- A signed number is written with a group too many. -/
  | nonMinimalInteger
  /-- A signed number needs more than 64 bits. -/
  | integerOverflow
  /-- An unsigned number is written with a group too many. -/
  | nonMinimalCount
  /-- An unsigned number needs more than 64 bits. -/
  | countOverflow
  /-- More items are announced than fit in the rest of the input. -/
  | lengthBeyondInput (length : Nat)
  /-- A text is not UTF-8. -/
  | notUtf8 (fault : Utf8.Fault)
  /-- A keyword is empty or too long. -/
  | keywordLength (length : Nat)
  /-- An absent child stands where a cell is needed. -/
  | absenceAlone
  /-- A digest stands where a cell is needed. -/
  | linkAlone
  /-- No kind of cell has this tag. -/
  | unknownTag (tag : UInt8)
  /-- A child is absent that must be there. -/
  | absentChild
  /-- A child is written inline that is too large for it. -/
  | oversizedChild (size : Nat)
  /-- The digests of a map's keys do not ascend. -/
  | keysOutOfOrder
  /-- A stake record does not begin with an address. -/
  | controllerNotAddress
  /-- An empty map is written where it has to be absent. -/
  | emptyChildMap (field : String)
  /-- A balance needs more than 63 bits. -/
  | balanceOutOfRange
  /-- Bytes follow the encoding. -/
  | trailingBytes (count : Nat)
  /-- The start lies beyond the end of the buffer. -/
  | offsetBeyondEnd
  /-- A cause that a caller gives in its own words. -/
  | reported (reason : String)
  deriving DecidableEq, Repr

/-- Why a value is not valid. -/
inductive DataFault
  /-- The value is not held in the form in which it must be written. -/
  | notCanonical (kind : Kind)
  /-- The balance is negative. -/
  | negativeBalance
  /-- The sum of delegated shares is negative. -/
  | negativeDelegatedStake
  /-- The peer's own shares are negative. -/
  | negativePeerStake
  /-- Shares are delegated, but there is no map of delegators. -/
  | sharesWithoutDelegators
  /-- The delegators are not a map. -/
  | stakesNotMap
  /-- The map of delegators is empty. -/
  | emptyStakes
  /-- A delegator is not an address. -/
  | delegatorNotAddress
  /-- A delegator's shares are not positive. -/
  | nonPositiveStake
  /-- A delegator's shares are not an integer. -/
  | stakeNotInteger
  /-- The delegators' shares do not add up to the sum on record. -/
  | stakeSum (sum delegated : Int)
  /-- The metadata map is empty. -/
  | emptyMetadata
  /-- The metadata are not a map. -/
  | metadataNotMap
  /-- The shares of the delegator asked for are not an integer. -/
  | delegatorStakeNotInteger (delegator : UInt64)
  /-- The shares of the delegator asked for are worth more than 64 bits can hold. -/
  | sharesExceedDelegated (delegator : UInt64)
  /-- A cell was found for a link that has another digest. -/
  | wrongContent (actual expected : Digest)
  /-- A cause that a caller gives in its own words. -/
  | reported (reason : String)
  deriving DecidableEq, Repr

/-- Why an argument is refused. -/
inductive ArgumentFault
  /-- A keyword would be empty or too long. -/
  | keywordLength (length : Nat)
  /-- A cell has no link of this index. -/
  | linkIndex (index : Nat) (kind : Kind)
  /-- The operation needs a map. -/
  | expectedMap (kind : Kind)
  /-- The peer's own shares would be negative. -/
  | negativePeerStake
  /-- A delegator's shares would be negative. -/
  | negativeDelegatedStake
  /-- A reward would be negative. -/
  | negativeReward
  /-- A change of delegated shares needs more than 64 bits. -/
  | delegatedStakeOverflow
  /-- A change of the peer's own shares needs more than 64 bits. -/
  | peerStakeOverflow
  /-- A reward makes the balance need more than 64 bits. -/
  | balanceOverflow
  /-- Metadata must be a map. -/
  | metadataNotMap
  /-- A cause that a caller gives in its own words. -/
  | reported (reason : String)
  deriving DecidableEq, Repr

/-- The words of a format fault. -/
def FormatFault.message : FormatFault → String
  | unexpectedEnd => "unexpected end of encoding"
  | tooShort wanted remaining =>
    "need " ++ toString wanted ++ " bytes, " ++ toString remaining ++ " remaining"
  | nonMinimalInteger => "non-minimal VLQ integer"
  | integerOverflow => "VLQ integer overflow"
  | nonMinimalCount => "non-minimal VLQ count"
  | countOverflow => "VLQ count overflow"
  | lengthBeyondInput length => "length " ++ toString length ++ " exceeds remaining input"
  | notUtf8 fault => "invalid UTF-8: " ++ fault.message
  | keywordLength length => "bad keyword length " ++ toString length
  | absenceAlone => "absence token is not a cell"
  | linkAlone => "ref outside a child position"
  | unknownTag tag => "unknown tag 0x" ++ Hex.encode [tag]
  | absentChild => "absence token in required child position"
  | oversizedChild size =>
    "embedded child of " ++ toString size ++ " bytes exceeds " ++ toString maxEmbedded
  | keysOutOfOrder => "map keys duplicated or out of canonical order"
  | controllerNotAddress => "peer controller must be an address"
  | emptyChildMap field => "empty " ++ field ++ " map must be encoded as absent"
  | balanceOutOfRange => "peer balance out of range"
  | trailingBytes count => toString count ++ " trailing bytes after encoding"
  | offsetBeyondEnd => "offset beyond end of buffer"
  | reported reason => reason

/-- The words of a data fault. -/
def DataFault.message : DataFault → String
  | notCanonical kind => kind.name ++ " is not in canonical form"
  | negativeBalance => "negative balance"
  | negativeDelegatedStake => "negative delegated stake"
  | negativePeerStake => "negative peer stake"
  | sharesWithoutDelegators => "delegated stake without any delegators"
  | stakesNotMap => "stakes is not a map"
  | emptyStakes => "empty stakes map"
  | delegatorNotAddress => "stakes key is not an address"
  | nonPositiveStake => "non-positive stake entry"
  | stakeNotInteger => "stake entry is not an integer"
  | stakeSum sum delegated =>
    "stakes sum to " ++ toString sum ++ ", delegated stake is " ++ toString delegated
  | emptyMetadata => "empty metadata map"
  | metadataNotMap => "metadata is not a map"
  | delegatorStakeNotInteger delegator =>
    "stake for #" ++ toString delegator ++ " is not an integer"
  | sharesExceedDelegated delegator =>
    "shares of #" ++ toString delegator ++ " exceed delegated stake"
  | wrongContent actual expected =>
    "fetched cell hashes to " ++ actual.short ++ ", expected " ++ expected.short
  | reported reason => reason

/-- The words of an argument fault. -/
def ArgumentFault.message : ArgumentFault → String
  | keywordLength length =>
    "keyword length " ++ toString length ++ " outside 1..=" ++ toString maxKeyword
  | linkIndex index kind => "ref index " ++ toString index ++ " out of range for " ++ kind.name
  | expectedMap kind => "expected map, got " ++ kind.name
  | negativePeerStake => "negative peer stake"
  | negativeDelegatedStake => "negative delegated stake"
  | negativeReward => "negative reward"
  | delegatedStakeOverflow => "delegated stake overflow"
  | peerStakeOverflow => "peer stake overflow"
  | balanceOverflow => "balance overflow"
  | metadataNotMap => "metadata must be a map"
  | reported reason => reason

/-- What went wrong with a cell. -/
inductive Fault
  /-- The bytes are not a canonical encoding. -/
  | badFormat (cause : FormatFault)
  /-- The cell of this digest exists somewhere, but is not held here. -/
  | missingData (digest : Digest)
  /-- A value breaks an invariant of its kind. -/
  | invalidData (cause : DataFault)
  /-- An argument is outside the operation's domain. -/
  | invalidArgument (cause : ArgumentFault)
  deriving DecidableEq, Repr

/-- The four classes of faults, for callers that do not look at causes. -/
inductive FaultClass
  | format
  | missingData
  | invalidData
  | argument
  deriving DecidableEq, Repr

namespace Fault

/-- The text of a fault. -/
def message : Fault → String
  | badFormat cause => "bad format: " ++ cause.message
  | missingData digest => "missing data: " ++ digest.short
  | invalidData cause => "invalid data: " ++ cause.message
  | invalidArgument cause => "invalid argument: " ++ cause.message

/-- The class of a fault. -/
def faultClass : Fault → FaultClass
  | badFormat _ => .format
  | missingData _ => .missingData
  | invalidData _ => .invalidData
  | invalidArgument _ => .argument

/-- Whether a caller may try again once it has acquired a missing cell. -/
def isMissingData (fault : Fault) : Bool := fault.faultClass = .missingData

end Fault

/-- The name of a class. -/
def FaultClass.name : FaultClass → String
  | format => "Format"
  | missingData => "MissingData"
  | invalidData => "InvalidData"
  | argument => "Argument"

end CellGraph
