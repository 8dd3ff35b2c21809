import CellGraph.Quantity

/-!
# Readers over a buffer

A reader is a buffer and a position in it, which may lie beyond its end. Every scan can be run on a
reader; two operations cut a range out of the buffer and are refused if the range is not inside it.

* `Reader`, `Reader.run`: the reader, and running a scan on it;
* `Refusal`: a fault of the input, or a range outside the buffer;
* `Reader.slice`, `Reader.since`: the two operations on ranges.
-/

namespace CellGraph

/-- A buffer and a position. -/
structure Reader where
  buffer : Bytes
  position : Nat
  deriving DecidableEq, Repr

/-- Why a reader gives no answer. -/
inductive Refusal
  /-- The input is at fault. -/
  | fault (fault : Fault)
  /-- The range asked for does not lie in the buffer. -/
  | outsideBuffer
  deriving DecidableEq, Repr

namespace Reader

variable {α : Type}

/-- The bytes after the position. -/
def rest (reader : Reader) : Bytes := reader.buffer.drop reader.position

/-- Run a scan from the position; the position follows it, also when it fails. -/
def run (reader : Reader) (scan : Scan α) : Except Refusal α × Reader :=
  let (outcome, cursor) := scan.runAt ⟨reader.rest, reader.position⟩
  (outcome.mapError .fault, { reader with position := cursor.position })

/-- The next `n` bytes. From beyond the end of the buffer not even an empty range can be cut. -/
def slice (reader : Reader) (n : Nat) : Except Refusal Bytes × Reader :=
  if n ≤ reader.rest.length ∧ reader.buffer.length < reader.position then
    (.error .outsideBuffer, reader)
  else reader.run (Scan.slice n)

/-- The bytes from `start` to the position. -/
def since (reader : Reader) (start : Nat) : Except Refusal Bytes :=
  if start ≤ reader.position ∧ reader.position ≤ reader.buffer.length then
    .ok ((reader.buffer.take reader.position).drop start)
  else .error .outsideBuffer

end Reader

end CellGraph
