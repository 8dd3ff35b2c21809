import CellGraph.Cell.Encoding

/-!
# Sizes of encodings

The size of an encoding decides whether a cell is written inline in its parents. It is worked out
from the sizes of the parts, without writing them.

* `Value.writtenSize`, `Cell.encodedSize`: sizes, with `Cell.length_encode`;
* `Cell.isSmall`, `Link.inline?`: cells that are written inline;
* `Cell.sizeBound`: a bound on the size of an encoding, from the cell's own value alone.
-/

namespace CellGraph

open Quantity

/-- The number of bytes of a text. -/
theorem Bytes.length_ofText (text : String) : (Bytes.ofText text).length = text.utf8ByteSize := rfl

/-- A digest is written in 33 bytes. -/
@[simp] theorem Digest.length_written (d : Digest) : d.written.length = 33 := by
  simp [Digest.written, d.length_bytes]

/-! ### Exact sizes -/

/-- The size of the written form of a child whose encoding has this size. -/
def childSize (size : Nat) : Nat := if size ≤ maxEmbedded then size else 33

namespace Value

/-- The size of the written form of an address. -/
def addressSize (a : Address) : Nat := 1 + Count.length a.number.toNat

/-- The size of a value's written form, from the sizes of its written children. -/
def writtenSize : Value Nat → Nat
  | integer n => 1 + Signed.length n
  | address a => addressSize a
  | text s => 1 + Count.length s.utf8ByteSize + s.utf8ByteSize
  | blob bytes => 1 + Count.length bytes.length + bytes.length
  | keyword name => 2 + name.utf8ByteSize
  | vector items => 1 + Count.length items.length + items.foldr (· + ·) 0
  | map entries =>
    1 + Count.length entries.length + entries.foldr (fun entry size => entry.1 + entry.2 + size) 0
  | peer record =>
    1 + addressSize record.controller + Signed.length record.peerShares +
      record.stakes.getD 1 + Signed.length record.delegatedShares +
      record.metadata.getD 1 + Signed.length record.timestamp +
      Count.length record.balance.toUInt64.toNat

theorem length_writeOptional (child : Option Bytes) :
    (writeOptional child).length = (child.map fun bytes : Bytes => bytes.length).getD 1 := by
  cases child <;> rfl

theorem length_writeAddress (a : Address) : (writeAddress a).length = addressSize a := by
  simp [writeAddress, addressSize, Nat.add_comm]

theorem length_write (value : Value Bytes) :
    value.write.length = (value.mapLinks fun child : Bytes => child.length).writtenSize := by
  cases value with
  | vector items =>
    have h : items.flatten.length =
        (items.map fun child : Bytes => child.length).foldr (· + ·) 0 := List.length_flatten
    simp only [write, writeBody, Bytes.concat_eq, mapLinks, writtenSize, List.length_cons,
      List.length_append, List.length_map, Count.length_encode, h]
    omega
  | map entries =>
    have h : (entries.flatMap fun e => e.1 ++ e.2).length =
        (entries.map fun e => (e.1.length, e.2.length)).foldr
          (fun entry size => entry.1 + entry.2 + size) 0 := by
      induction entries with
      | nil => rfl
      | cons entry rest ih => simp [ih, Nat.add_assoc]
    simp only [write, writeBody, mapLinks, writtenSize, List.length_cons, List.length_append,
      List.length_map, Count.length_encode, h]
    omega
  | peer record =>
    simp only [write, writeBody, mapLinks, StakeRecord.mapLinks, writtenSize, List.length_cons,
      List.length_append, length_writeOptional, length_writeAddress, Count.length_encode,
      Signed.length_encode]
    omega
  | _ =>
    simp only [write, writeBody, mapLinks, writtenSize, addressSize, List.length_cons,
      List.length_append, Bytes.length_ofText, Count.length_encode, Signed.length_encode]
    omega

end Value

/-- The size of a cell's encoding. -/
def Cell.encodedSize : Cell → Nat :=
  Cell.fold (fun _ value => value.writtenSize) (fun _ _ size => childSize size) (fun _ _ => 33)

theorem length_writtenChild (encoding : Bytes) :
    (writtenChild encoding).length = childSize encoding.length := by
  unfold writtenChild childSize
  split <;> simp

/-- The size is that of what is written. -/
theorem Cell.length_encode (cell : Cell) : cell.encode.length = cell.encodedSize := by
  induction cell using Cell.induct with
  | step label value ih =>
    rw [Cell.encode_mk, Value.length_write, Value.mapLinks_mapLinks, Cell.encodedSize, Cell.fold_mk]
    refine congrArg Value.writtenSize (Value.mapLinks_congr fun link hl => ?_)
    cases link with
    | direct label target =>
      rw [Link.fold_direct, Link.written, length_writtenChild, ih _ hl target rfl, Cell.encodedSize]
    | soft label digest => rw [Link.fold_soft, Link.written, Digest.length_written]

/-! ### Inline children -/

/-- Whether a cell is written inline in its parents. -/
def Cell.isSmall (cell : Cell) : Bool := cell.encodedSize ≤ maxEmbedded

/-- The target of a link, if it is written inline. -/
def Link.inline? : Link → Option Cell
  | .direct _ target => if target.isSmall then some target else none
  | .soft _ _ => none

theorem Cell.isSmall_iff (cell : Cell) : cell.isSmall ↔ cell.encode.length ≤ maxEmbedded := by
  simp [Cell.isSmall, Cell.length_encode]

/-! ### Bounds known without looking at children -/

/-- The most bytes that a child takes in its parent's encoding. -/
def maxChild : Nat := Nat.max maxEmbedded 33

/-- A bound on the size of a value's encoding, from its own size and the number of its children. -/
def Value.sizeBound {ρ : Type} : Value ρ → Nat
  | integer _ => 1 + maxGroups
  | address _ => 1 + maxGroups
  | text s => 1 + maxGroups + s.utf8ByteSize
  | blob bytes => 1 + maxGroups + bytes.length
  | keyword name => 2 + name.utf8ByteSize
  | vector items => 1 + maxGroups + items.length * maxChild
  | map entries => 1 + maxGroups + entries.length * 2 * maxChild
  | peer _ => 1 + (1 + maxGroups) + 3 * maxGroups + 2 * maxChild + maxGroups

/-- A bound on the size of a cell's encoding. -/
def Cell.sizeBound (cell : Cell) : Nat := cell.value.sizeBound

end CellGraph
