/-!
# Bytes and their hexadecimal text

A byte string is a list of bytes. Its hexadecimal text has two lower-case digits a byte; reading
accepts digits of either case and names the first character that is no digit.

* `Bytes`, `ofText`: byte strings, and the UTF-8 bytes of a text;
* `Hex.encode`, `Hex.decode`: writing and reading hexadecimal text;
* `Hex.Fault`, `Hex.Fault.message`: why a text is refused, and in which words.
-/

namespace CellGraph

/-- A byte string. -/
abbrev Bytes := List UInt8

/-- The UTF-8 bytes of a text. -/
def Bytes.ofText (text : String) : Bytes := text.toUTF8.data.toList

namespace Hex

/-- The lower-case digit of a value below sixteen. -/
def digit (n : UInt8) : Char :=
  if n < 10 then Char.ofNat (n.toNat + 48) else Char.ofNat (n.toNat + 87)

/-- The value of a digit's ASCII byte, in either case. -/
def value? (b : UInt8) : Option UInt8 :=
  if 48 ≤ b ∧ b ≤ 57 then some (b - 48)
  else if 97 ≤ b ∧ b ≤ 102 then some (b - 87)
  else if 65 ≤ b ∧ b ≤ 70 then some (b - 55)
  else none

/-- Two digits a byte, the high one first. -/
def digits (bytes : Bytes) : List Char :=
  bytes.flatMap fun b => [digit (b / 16), digit (b % 16)]

/-- The hexadecimal text of a byte string. -/
def encode (bytes : Bytes) : String := String.ofList (digits bytes)

/-- Why a text is not the hexadecimal text of a byte string of the wanted length. -/
inductive Fault
  /-- The text has an odd number of bytes. -/
  | oddLength
  /-- The byte at this position is not a digit. -/
  | invalidCharacter (byte : UInt8) (position : Nat)
  /-- The text is well formed, but of the wrong length. -/
  | wrongLength
  deriving DecidableEq, Repr

/-- The hexadecimal digits of a value, without leading zeros. -/
def shortDigits (n : UInt8) : List Char :=
  if n < 16 then [digit n] else [digit (n / 16), digit (n % 16)]

/-- The single quote. -/
def quoteMark : Char := Char.ofNat 39

/--
A byte shown as the character of that number, in single quotes. Controls, the blank of fixed width
and the soft hyphen are shown by number; the quote and the backslash follow a backslash.
-/
def quoted (b : UInt8) : String :=
  let inner : List Char :=
    if b = 0 then ['\\', '0']
    else if b = 9 then ['\\', 't']
    else if b = 10 then ['\\', 'n']
    else if b = 13 then ['\\', 'r']
    else if b = 39 ∨ b = 92 then ['\\', Char.ofNat b.toNat]
    else if b < 32 ∨ (127 ≤ b ∧ b ≤ 160) ∨ b = 173 then
      ['\\', 'u', '\x7b'] ++ shortDigits b ++ ['\x7d']
    else [Char.ofNat b.toNat]
  String.ofList ([quoteMark] ++ inner ++ [quoteMark])

/-- The words of a refusal. -/
def Fault.message : Fault → String
  | .oddLength => "Odd number of digits"
  | .invalidCharacter byte position =>
    "Invalid character " ++ quoted byte ++ " at position " ++ toString position
  | .wrongLength => "Invalid string length"

/-- Reads digits pairwise; `position` is that of the first one. -/
def readPairs (position : Nat) : Bytes → Except Fault Bytes
  | high :: low :: rest =>
    match value? high, value? low with
    | none, _ => .error (.invalidCharacter high position)
    | some _, none => .error (.invalidCharacter low (position + 1))
    | some h, some l => (readPairs (position + 2) rest).map (fun bytes => (h * 16 + l) :: bytes)
  | _ => .ok []

/-- Reads a hexadecimal text. An odd length is noticed before any wrong character. -/
def decode (text : String) : Except Fault Bytes :=
  let bytes := Bytes.ofText text
  if bytes.length % 2 = 1 then .error .oddLength else readPairs 0 bytes

end Hex

end CellGraph
