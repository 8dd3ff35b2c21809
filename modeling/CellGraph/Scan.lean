import CellGraph.Fault

/-!
# Scanning bytes

A scan reads values off the front of an input, one after the other. It stops at the first fault and
keeps the place that it has reached, so a caller can see how far a failed scan came.

* `Cursor`, `Scan`: the place in the input, and scans;
* `Scan.peek`, `Scan.byte`, `Scan.slice`, `Scan.digest`: the elementary scans.
-/

namespace CellGraph

/-- A place in an input: the bytes that are left, and how many lie before them. -/
structure Cursor where
  rest : Bytes
  position : Nat
  deriving DecidableEq, Repr

/-- A scan: it moves the cursor forward, and gives a value or a fault. -/
abbrev Scan := ExceptT Fault (StateM Cursor)

namespace Scan

variable {α : Type}

/-- Run a scan from a cursor: its outcome and where it ended. -/
def runAt (scan : Scan α) (cursor : Cursor) : Except Fault α × Cursor := scan cursor

/-- Stop with a format fault. -/
def fail (cause : FormatFault) : Scan α := throw (.badFormat cause)

/-- The next byte, left in place. -/
def peek : Scan UInt8 := fun cursor =>
  match cursor.rest with
  | [] => (.error (.badFormat .unexpectedEnd), cursor)
  | b :: _ => (.ok b, cursor)

/-- The next byte. -/
def byte : Scan UInt8 := fun cursor =>
  match cursor.rest with
  | [] => (.error (.badFormat .unexpectedEnd), cursor)
  | b :: rest => (.ok b, ⟨rest, cursor.position + 1⟩)

/-- The next `n` bytes. -/
def slice (n : Nat) : Scan Bytes := fun cursor =>
  if n ≤ cursor.rest.length then
    (.ok (cursor.rest.take n), ⟨cursor.rest.drop n, cursor.position + n⟩)
  else (.error (.badFormat (.tooShort n cursor.rest.length)), cursor)

/-- The next 32 bytes, as a digest. -/
def digest : Scan Digest := fun cursor =>
  if h : 32 ≤ cursor.rest.length then
    (.ok ⟨cursor.rest.take 32, by simp [h]⟩, ⟨cursor.rest.drop 32, cursor.position + 32⟩)
  else (.error (.badFormat (.tooShort 32 cursor.rest.length)), cursor)

/-- How many bytes are left. -/
def remaining : Scan Nat := fun cursor => (.ok cursor.rest.length, cursor)

/-- How many bytes lie before the cursor. -/
def position : Scan Nat := fun cursor => (.ok cursor.position, cursor)

/-- A text of `n` bytes. -/
def text (n : Nat) : Scan String := do
  match Utf8.decode (← slice n) with
  | .ok text => pure text
  | .error fault => fail (.notUtf8 fault)

end Scan

end CellGraph
