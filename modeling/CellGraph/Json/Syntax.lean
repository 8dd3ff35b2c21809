import CellGraph.Json.Number

/-!
# JSON texts

A reader for JSON that keeps what later checks need: how a number was written, and whether a string
is a text at all (an escape may name half of a surrogate pair).

* `Json`: the syntax tree;
* `Json.depth`, `Json.strict`: nesting, and trees all of whose strings and numbers have a value;
* `Json.parse?`: reading a whole text.
-/

namespace CellGraph

/-- A JSON value. -/
inductive Json
  | null
  | bool (b : Bool)
  | number (n : Number)
  /-- A string; none if an escape names a surrogate without its partner. -/
  | string (text : Option String)
  | array (items : List Json)
  | object (fields : List (Option String × Json))
  deriving Repr

namespace Json

mutual

/-- How many arrays and objects are nested in a value. -/
def depth : Json → Nat
  | array items => depthList items + 1
  | object fields => depthFields fields + 1
  | _ => 0

/-- The greatest depth of the items. -/
def depthList : List Json → Nat
  | [] => 0
  | item :: rest => Nat.max item.depth (depthList rest)

/-- The greatest depth of the fields' values. -/
def depthFields : List (Option String × Json) → Nat
  | [] => 0
  | (_, value) :: rest => Nat.max value.depth (depthFields rest)

end

mutual

/-- Whether every string is a text and every number is finite. -/
def strict : Json → Bool
  | number n => n.isFinite
  | string text => text.isSome
  | array items => strictList items
  | object fields => strictFields fields
  | _ => true

/-- Whether all items are strict. -/
def strictList : List Json → Bool
  | [] => true
  | item :: rest => item.strict && strictList rest

/-- Whether all keys are texts and all values strict. -/
def strictFields : List (Option String × Json) → Bool
  | [] => true
  | (key, value) :: rest => key.isSome && value.strict && strictFields rest

end

/-! ### Reading -/

/-- Whether a character may stand between tokens. -/
def isBlank (c : Char) : Bool := c = ' ' || c = '\n' || c = '\t' || c = '\r'

/-- Skip what may stand between tokens. -/
def skipBlanks (cs : List Char) : List Char := cs.dropWhile isBlank

/-- Skip a word that must come next. -/
def skipWord : List Char → List Char → Option (List Char)
  | [], cs => some cs
  | w :: word, c :: cs => if w = c then skipWord word cs else none
  | _ :: _, [] => none

/-- The value of a hexadecimal digit. -/
def hexValue? (c : Char) : Option Nat :=
  let n := c.toNat
  if 48 ≤ n ∧ n ≤ 57 then some (n - 48)
  else if 97 ≤ n ∧ n ≤ 102 then some (n - 87)
  else if 65 ≤ n ∧ n ≤ 70 then some (n - 55)
  else none

/-- Four hexadecimal digits. -/
def hexUnit : List Char → Option (Nat × List Char)
  | a :: b :: c :: d :: rest => do
    let high := (← hexValue? a) * 16 + (← hexValue? b)
    let low := (← hexValue? c) * 16 + (← hexValue? d)
    return (high * 256 + low, rest)
  | _ => none

/-- The second half of a surrogate pair, if it comes next. -/
def lowSurrogate (cs : List Char) : Option (Nat × List Char) := do
  let (n, rest) ← hexUnit (← skipWord ['\\', 'u'] cs)
  if 0xDC00 ≤ n ∧ n < 0xE000 then return (n, rest) else none

/-- The character of a one-letter escape. -/
def escaped? (c : Char) : Option Char :=
  match c with
  | '"' => some '"'
  | '\\' => some '\\'
  | '/' => some '/'
  | 'b' => some (Char.ofNat 8)
  | 'f' => some (Char.ofNat 12)
  | 'n' => some '\n'
  | 'r' => some '\r'
  | 't' => some '\t'
  | _ => none

/-- The rest of a string after its opening quote; `text` is what was read so far, reversed. -/
def string? : Nat → Option (List Char) → List Char → Option (Option String × List Char)
  | 0, _, _ => none
  | _, _, [] => none
  | fuel + 1, text, c :: rest =>
    if c = '"' then some (text.map fun cs => String.ofList cs.reverse, rest)
    else if c = '\\' then
      match rest with
      | 'u' :: rest => do
        let (n, rest) ← hexUnit rest
        if 0xD800 ≤ n ∧ n < 0xDC00 then
          match lowSurrogate rest with
          | some (low, rest) =>
            let c := Char.ofNat (0x10000 + (n - 0xD800) * 0x400 + (low - 0xDC00))
            string? fuel (text.map (c :: ·)) rest
          | none => string? fuel none rest
        else if 0xDC00 ≤ n ∧ n < 0xE000 then string? fuel none rest
        else string? fuel (text.map (Char.ofNat n :: ·)) rest
      | c :: rest => do string? fuel (text.map ((← escaped? c) :: ·)) rest
      | [] => none
    else if c.toNat < 32 then none
    else string? fuel (text.map (c :: ·)) rest

/-- A run of digits, which must not be empty. -/
def digits? (cs : List Char) : Option (List Nat × List Char) :=
  let ds := cs.takeWhile Char.isDigit
  if ds.isEmpty then none
  else some (ds.map fun d => d.toNat - '0'.toNat, cs.dropWhile Char.isDigit)

/-- The digits before the point. A zero stands alone. -/
def wholePart? (cs : List Char) : Option (List Nat × List Char) :=
  match cs with
  | '0' :: rest => some ([0], rest)
  | _ => digits? cs

/-- The digits after the point, if there is one. -/
def fractionPart? (cs : List Char) : Option (List Nat × List Char) :=
  match cs with
  | '.' :: rest => digits? rest
  | _ => some ([], cs)

/-- The exponent, if there is one. -/
def exponentPart? (cs : List Char) : Option (Option Int × List Char) :=
  let signed (rest : List Char) : Option (Option Int × List Char) :=
    match rest with
    | '-' :: rest => (digits? rest).map fun (ds, rest) => (some (-(natOfDigits ds : Int)), rest)
    | '+' :: rest => (digits? rest).map fun (ds, rest) => (some (natOfDigits ds : Int), rest)
    | _ => (digits? rest).map fun (ds, rest) => (some (natOfDigits ds : Int), rest)
  match cs with
  | 'e' :: rest => signed rest
  | 'E' :: rest => signed rest
  | _ => some (none, cs)

/-- A number. -/
def number? (cs : List Char) : Option (Number × List Char) := do
  let (negative, cs) := match cs with
    | '-' :: rest => (true, rest)
    | _ => (false, cs)
  let (whole, cs) ← wholePart? cs
  let (fraction, cs) ← fractionPart? cs
  let (exponent, cs) ← exponentPart? cs
  return ({ negative, whole, fraction, exponent }, cs)

mutual

/-- A value; blanks may come before it. -/
def value? : Nat → List Char → Option (Json × List Char)
  | 0, _ => none
  | fuel + 1, cs =>
    match skipBlanks cs with
    | 'n' :: rest => (skipWord ['u', 'l', 'l'] rest).map (Json.null, ·)
    | 't' :: rest => (skipWord ['r', 'u', 'e'] rest).map (Json.bool true, ·)
    | 'f' :: rest => (skipWord ['a', 'l', 's', 'e'] rest).map (Json.bool false, ·)
    | '"' :: rest => (string? (rest.length + 1) (some []) rest).map fun (s, rest) => (.string s, rest)
    | '[' :: rest =>
      match skipBlanks rest with
      | ']' :: rest => some (.array [], rest)
      | rest => (items? fuel rest).map fun (items, rest) => (.array items, rest)
    | '\x7b' :: rest =>
      match skipBlanks rest with
      | '\x7d' :: rest => some (.object [], rest)
      | rest => (fields? fuel rest).map fun (fields, rest) => (.object fields, rest)
    | cs => (number? cs).map fun (n, rest) => (.number n, rest)

/-- The items of an array, up to its closing bracket. -/
def items? : Nat → List Char → Option (List Json × List Char)
  | 0, _ => none
  | fuel + 1, cs => do
    let (item, rest) ← value? fuel cs
    match skipBlanks rest with
    | ',' :: rest => (items? fuel rest).map fun (items, rest) => (item :: items, rest)
    | ']' :: rest => some ([item], rest)
    | _ => none

/-- The fields of an object, up to its closing brace. -/
def fields? : Nat → List Char → Option (List (Option String × Json) × List Char)
  | 0, _ => none
  | fuel + 1, cs =>
    match skipBlanks cs with
    | '"' :: rest => do
      let (key, rest) ← string? (rest.length + 1) (some []) rest
      let rest ← skipWord [':'] (skipBlanks rest)
      let (value, rest) ← value? fuel rest
      match skipBlanks rest with
      | ',' :: rest => (fields? fuel rest).map fun (fields, rest) => ((key, value) :: fields, rest)
      | '\x7d' :: rest => some ([(key, value)], rest)
      | _ => none
    | _ => none

end

/-- Reads a text that is one JSON value, blanks around it allowed. -/
def parse? (text : String) : Option Json := do
  let cs := text.toList
  let (value, rest) ← value? (2 * cs.length + 2) cs
  if (skipBlanks rest).isEmpty then return value else none

end Json

end CellGraph
