import CellGraph.Cell.Basic
import CellGraph.Quantity

/-!
# The canonical encoding

A cell is written as its tag and its value. A child whose encoding has at most `maxEmbedded` bytes
is written inline, any larger one as a tag and its digest. A soft link is always written as its
digest: what it comes to hold later is larger than `maxEmbedded`. So the encoding of a cell depends
on the cell alone, and its digest names it.

* `Value.write`: the written form of a value whose children are already written;
* `Cell.encode`, `Link.written`: encodings of cells and links, with `Cell.encode_mk`;
* `Cell.fold_fst_eq_encode`: a fold that does more than writing, and writes as `Cell.encode` does;
* `Cell.digest`, `Link.digest`: the digests they are named by.
-/

namespace CellGraph

open Quantity

/-- Byte strings one after the other. -/
def Bytes.concat : List Bytes → Bytes
  | [] => []
  | [last] => last
  | first :: rest => first ++ concat rest

@[simp] theorem Bytes.concat_eq (parts : List Bytes) : Bytes.concat parts = parts.flatten := by
  fun_induction Bytes.concat parts with
  | case1 => rfl
  | case2 last => simp
  | case3 first rest _ ih => simp [ih]

namespace Value

/-- The written form of an optional child. -/
def writeOptional : Option Bytes → Bytes
  | none => [Tag.absent]
  | some child => child

/-- The written form of an address. -/
def writeAddress (a : Address) : Bytes := Kind.address.tag :: Count.encode a.number.toNat

/-- What follows the tag in the written form of a value, its children being written already. -/
def writeBody : Value Bytes → Bytes
  | integer n => Signed.encode n
  | address a => Count.encode a.number.toNat
  | text s => Count.encode (Bytes.ofText s).length ++ Bytes.ofText s
  | blob bytes => Count.encode bytes.length ++ bytes
  | keyword name => UInt8.ofNat (Bytes.ofText name).length :: Bytes.ofText name
  | vector items => Count.encode items.length ++ Bytes.concat items
  | map entries => Count.encode entries.length ++ entries.flatMap fun e => e.1 ++ e.2
  | peer record =>
    writeAddress record.controller ++ Signed.encode record.peerShares ++
      writeOptional record.stakes ++ Signed.encode record.delegatedShares ++
      writeOptional record.metadata ++ Signed.encode record.timestamp ++
      Count.encode record.balance.toUInt64.toNat

/-- The written form of a value whose children are already written. -/
def write (value : Value Bytes) : Bytes := value.kind.tag :: value.writeBody

end Value

/-- The written form of a child that is named by its digest. -/
def Digest.written (d : Digest) : Bytes := Tag.link :: d.bytes

/-- The written form of a child with this encoding: inline if it is short enough. -/
def writtenChild (encoding : Bytes) : Bytes :=
  if encoding.length ≤ maxEmbedded then encoding else (Digest.of encoding).written

/-- The canonical encoding of a cell. -/
def Cell.encode : Cell → Bytes :=
  Cell.fold (fun _ value => value.write) (fun _ _ encoding => writtenChild encoding)
    (fun _ digest => digest.written)

/-- The written form of a link in its parent's encoding. -/
def Link.written : Link → Bytes
  | .direct _ target => writtenChild target.encode
  | .soft _ digest => digest.written

/-- The digest that names a cell. -/
def Cell.digest (cell : Cell) : Digest := Digest.of cell.encode

/-- The digest of a link's target. -/
def Link.digest : Link → Digest
  | .direct _ target => target.digest
  | .soft _ digest => digest

/-- The digest that stands for an absent cell. -/
def Digest.absent : Digest := Digest.of [Tag.absent]

/-- The encoding of a cell is that of its value with the links written. -/
theorem Cell.encode_mk (label : Label) (value : Value Link) :
    Cell.encode (.mk label value) = (value.mapLinks Link.written).write := by
  have h : Link.fold (fun _ value => value.write) (fun _ _ encoding => writtenChild encoding)
      (fun _ digest => digest.written) = Link.written := by
    funext link
    cases link <;> simp [Link.written, Cell.encode]
  rw [Cell.encode, Cell.fold_mk, h]

/-- What else a fold may do on its way: if it writes each part as it is written, it writes cells. -/
theorem Cell.fold_fst_eq_encode {γ : Type} {node : Cell → Value (Bytes × γ) → Bytes × γ}
    {direct : Label → Cell → Bytes × γ → Bytes × γ} {soft : Label → Digest → Bytes × γ}
    (hnode : ∀ cell value, (node cell value).1 = (value.mapLinks Prod.fst).write)
    (hdirect : ∀ label target below, (direct label target below).1 = writtenChild below.1)
    (hsoft : ∀ label digest, (soft label digest).1 = digest.written) (cell : Cell) :
    (Cell.fold node direct soft cell).1 = cell.encode := by
  induction cell using Cell.induct with
  | step label value ih =>
    rw [Cell.encode_mk, Cell.fold_mk, hnode, Value.mapLinks_mapLinks]
    refine congrArg Value.write (Value.mapLinks_congr fun link hl => ?_)
    cases link with
    | direct label target => rw [Link.fold_direct, hdirect, ih _ hl target rfl, Link.written]
    | soft label digest => rw [Link.fold_soft, hsoft, Link.written]

end CellGraph
