import CellGraph.Bytes.Hex

/-!
# Reading UTF-8

Texts are stored as their UTF-8 bytes. Reading gives the text back, or says where the first
ill-formed sequence starts and how many of its bytes could still have begun a character.

* `Utf8.Fault`, `Utf8.Fault.message`: the fault and its words;
* `Utf8.firstFault`: one pass over the bytes;
* `Utf8.decode`: reading, with `decode_ofText` and `eq_ofText_of_decode`.
-/

namespace CellGraph.Utf8

/-- Why a byte string is not the UTF-8 form of a text. -/
inductive Fault
  /-- The sequence that starts here is ill formed after `size` bytes. -/
  | invalid (size start : Nat)
  /-- The input ends inside the sequence that starts here. -/
  | incomplete (start : Nat)
  deriving DecidableEq, Repr

/-- The words of a fault. -/
def Fault.message : Fault → String
  | .invalid size start =>
    "invalid utf-8 sequence of " ++ toString size ++ " bytes from index " ++ toString start
  | .incomplete start => "incomplete utf-8 byte sequence from index " ++ toString start

/-- What a leading byte asks for: how many bytes follow, and the range of the first of them. -/
def lead? (b : UInt8) : Option (Nat × UInt8 × UInt8) :=
  if b < 0x80 then some (0, 0x80, 0xBF)
  else if b < 0xC2 then none
  else if b < 0xE0 then some (1, 0x80, 0xBF)
  else if b = 0xE0 then some (2, 0xA0, 0xBF)
  else if b = 0xED then some (2, 0x80, 0x9F)
  else if b < 0xF0 then some (2, 0x80, 0xBF)
  else if b = 0xF0 then some (3, 0x90, 0xBF)
  else if b < 0xF4 then some (3, 0x80, 0xBF)
  else if b = 0xF4 then some (3, 0x80, 0x8F)
  else none

/--
The first fault. The current sequence began at `start`, has `seen` bytes so far and still needs
`owed`, the next of them between `low` and `high`.
-/
def firstFault (start seen owed : Nat) (low high : UInt8) : Bytes → Option Fault
  | [] => if owed = 0 then none else some (.incomplete start)
  | b :: rest =>
    if owed = 0 then
      match lead? b with
      | none => some (.invalid 1 start)
      | some (0, _, _) => firstFault (start + 1) 0 0 0x80 0xBF rest
      | some (more + 1, low, high) => firstFault start 1 (more + 1) low high rest
    else if low ≤ b ∧ b ≤ high then
      if owed = 1 then firstFault (start + seen + 1) 0 0 0x80 0xBF rest
      else firstFault start (seen + 1) (owed - 1) 0x80 0xBF rest
    else some (.invalid seen start)

/-- Reads the UTF-8 form of a text. -/
def decode (bytes : Bytes) : Except Fault String :=
  match String.fromUTF8? ⟨bytes.toArray⟩ with
  | some text => .ok text
  | none => .error ((firstFault 0 0 0 0x80 0xBF bytes).getD (.invalid 1 0))

/-- Reading gives back every text that was written. -/
@[simp] theorem decode_ofText (text : String) : decode (Bytes.ofText text) = .ok text := by
  have h : String.fromUTF8? text.toByteArray = some text := by
    simp [String.fromUTF8?, String.fromUTF8, text.isValidUTF8]
  have e : (⟨text.toByteArray.data⟩ : ByteArray) = text.toByteArray := rfl
  simp [decode, Bytes.ofText, String.toUTF8, e, h]

/-- Only the written form of a text is read as that text. -/
theorem eq_ofText_of_decode {bytes : Bytes} {text : String} (h : decode bytes = .ok text) :
    bytes = Bytes.ofText text := by
  unfold decode at h
  split at h
  · rename_i s hs
    cases h
    simp only [String.fromUTF8?] at hs
    split at hs
    · cases hs
      simp [Bytes.ofText, String.fromUTF8, String.toUTF8]
    · cases hs
  · cases h

end CellGraph.Utf8
