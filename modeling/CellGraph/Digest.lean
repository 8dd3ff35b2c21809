import CellGraph.Digest.Blake3

/-!
# Digests

A cell is named by the digest of its encoding: 32 bytes, compared like byte strings.

* `Digest`, `Digest.ofBytes?`, `Digest.of`: the type, reading raw bytes, and hashing;
* `Digest.hex`, `Digest.short`, `Digest.ofHex`: the full text, the sixteen digits shown in messages,
  and reading the full text;
* `Digest.compare`: the order of digests.
-/

namespace CellGraph

/-- A digest: 32 bytes. -/
structure Digest where
  bytes : Bytes
  length_bytes : bytes.length = 32 := by simp
  deriving Repr

namespace Digest

@[ext] theorem ext {a b : Digest} (h : a.bytes = b.bytes) : a = b := by
  cases a; cases b; cases h; rfl

instance : DecidableEq Digest := fun a b =>
  decidable_of_iff (a.bytes == b.bytes) (by rw [beq_iff_eq, Digest.ext_iff])

instance : LT Digest := ⟨fun a b => a.bytes < b.bytes⟩

instance : DecidableLT Digest := fun a b => inferInstanceAs (Decidable (a.bytes < b.bytes))

instance : Inhabited Digest := ⟨{ bytes := List.replicate 32 0 }⟩

/-- The digest of a byte string. -/
def of (data : Bytes) : Digest := { bytes := Blake3.hash data }

/-- The digest whose bytes are all zero. -/
def zero : Digest := { bytes := List.replicate 32 0 }

/-- The digest with these bytes, if there are 32 of them. -/
def ofBytes? (bytes : Bytes) : Option Digest :=
  if h : bytes.length = 32 then some ⟨bytes, h⟩ else none

/-- The 64 hexadecimal digits. -/
def hex (d : Digest) : String := Hex.encode d.bytes

/-- The first sixteen hexadecimal digits. -/
def short (d : Digest) : String := Hex.encode (d.bytes.take 8)

/-- Reads 64 hexadecimal digits. -/
def ofHex (text : String) : Except Hex.Fault Digest :=
  match Hex.decode text with
  | .error e => .error e
  | .ok bytes =>
    match ofBytes? bytes with
    | some d => .ok d
    | none => .error .wrongLength

/-- The order of digests: by the first byte that differs. -/
def compare (a b : Digest) : Ordering := compareOfLessAndEq a b

theorem ofBytes?_bytes (d : Digest) : ofBytes? d.bytes = some d := by
  simp [ofBytes?, d.length_bytes]

end Digest

end CellGraph
