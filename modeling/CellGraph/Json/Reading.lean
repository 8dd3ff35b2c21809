import CellGraph.Cell.Basic
import CellGraph.Json.Syntax
import CellGraph.Settings
import CellGraph.Status

/-!
# Values from JSON

Settings, digests, statuses and addresses as JSON texts. Fields of an object may come in any order;
one that is missing has its default, one that is repeated is refused, and one that is not known is
skipped. An array gives the fields of a record in order.

* `Json.toSettings?`, `Json.toDigest?`, `Json.toStatus?`, `Json.toAddress?`: values of a tree;
* `Settings.parse?`, `Digest.parse?`, `Status.parse?`, `Address.parse?`: values of a text.
-/

namespace CellGraph

namespace Json

/-- The greatest nesting that is read. -/
def maxDepth : Nat := 127

/-- A string. -/
def text? : Json → Option String
  | .string text => text
  | _ => none

/-- A truth value. -/
def bool? : Json → Option Bool
  | .bool b => some b
  | _ => none

/-- The value of a field; none if it is repeated, and `some none` if it is missing. -/
def field? (name : String) (fields : List (Option String × Json)) : Option (Option Json) :=
  match fields.filter fun field => field.1 = some name with
  | [] => some none
  | [field] => some (some field.2)
  | _ => none

/-- The value of a field that must be there once. -/
def required? (name : String) (fields : List (Option String × Json)) : Option Json := do
  (← field? name fields)

/-- The value of a field, or the default if it is missing. -/
def fieldOr {α : Type} (read : Json → Option α) (default : α) (name : String)
    (fields : List (Option String × Json)) : Option α := do
  match ← field? name fields with
  | some value => read value
  | none => return default

/-- The value at an index of an array, or the default if the array is shorter. -/
def itemOr {α : Type} (read : Json → Option α) (default : α) (index : Nat) (items : List Json) :
    Option α :=
  match items[index]? with
  | some value => read value
  | none => some default

/-- A store to open: its type, and for a file its path. -/
def toBackend? (json : Json) : Option Backend := do
  if !json.strict || maxDepth ≤ json.depth then failure
  match json with
  | .object fields =>
    match (← (← required? "type" fields).text?) with
    | "memory" => return .memory
    | "sqlite" => return .file (← (← required? "path" fields).text?)
    | _ => failure
  | .array [.string (some "memory")] => return .memory
  | .array [.string (some "sqlite"), .string (some path)] => return .file path
  | _ => failure

/-- Settings, with defaults for what is missing. -/
def toSettings? : Json → Option Settings
  | .object fields => do
    if fields.any fun field => field.1.isNone then failure
    return {
      validateOnLookup := ← fieldOr bool? false "validate_on_lookup" fields
      verifyDigests := ← fieldOr bool? true "verify_hashes" fields
      backend := ← fieldOr toBackend? .memory "backend" fields }
  | .array items => do
    if 3 < items.length then failure
    return {
      validateOnLookup := ← itemOr bool? false 0 items
      verifyDigests := ← itemOr bool? true 1 items
      backend := ← itemOr toBackend? .memory 2 items }
  | _ => none

/-- A number from 0 to 255. -/
def toByte? : Json → Option UInt8
  | .number n => do
    let value ← n.toNat?
    if value < 256 then return UInt8.ofNat value else none
  | _ => none

/-- A digest: an array of its 32 bytes. -/
def toDigest? : Json → Option Digest
  | .array items => do Digest.ofBytes? (← items.mapM toByte?)
  | _ => none

/-- A status: its name, alone or as the only field of an object, with null. -/
def toStatus? : Json → Option Status
  | .string (some name) => Status.ofName? name
  | .object [(some name, .null)] => Status.ofName? name
  | _ => none

/-- An address: its number. -/
def toAddress? : Json → Option Address
  | .number n => n.toNat?.map fun n => ⟨UInt64.ofNat n⟩
  | _ => none

end Json

/-- Reads settings. -/
def Settings.parse? (text : String) : Option Settings := Json.parse? text >>= Json.toSettings?

/-- Reads a digest. -/
def Digest.parse? (text : String) : Option Digest := Json.parse? text >>= Json.toDigest?

/-- Reads a status. -/
def Status.parse? (text : String) : Option Status := Json.parse? text >>= Json.toStatus?

/-- Reads an address. -/
def Address.parse? (text : String) : Option Address := Json.parse? text >>= Json.toAddress?

end CellGraph
