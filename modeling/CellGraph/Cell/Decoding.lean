import CellGraph.Cell.Canonical

/-!
# Reading cells

Reading accepts canonical encodings only, so the bytes that were read are the encoding of the cell
they give. Every cell is checked as soon as it has been read. The cell and the link whose written
forms begin at a position get the label `base` plus that position.

* `Cell.scanChild`, `Cell.scanOptional`: children;
* `Cell.scanValue`, `Cell.scan`: values and cells;
* `Cell.read`, `Cell.decode`: one cell in a buffer, and a buffer that holds exactly one.
-/

namespace CellGraph

open Quantity

/-- `n` items in a row. -/
def Scan.many {α : Type} (item : Scan α) : Nat → Scan (List α)
  | 0 => pure []
  | n + 1 => do
    let first ← item
    return first :: (← many item n)

namespace Cell

variable (base : Label)

/-- A child that must be there. -/
def scanChild (cell : Scan Cell) : Scan Link := do
  let start ← Scan.position
  let tag ← Scan.peek
  if tag = Tag.absent then Scan.fail .absentChild
  else if tag = Tag.link then
    discard Scan.byte
    return .soft (base + start) (← Scan.digest)
  else
    let target ← cell
    let size := (← Scan.position) - start
    if maxEmbedded < size then Scan.fail (.oversizedChild size)
    else return .direct (base + start) target

/-- A child that may be absent. -/
def scanOptional (child : Scan Link) : Scan (Option Link) := do
  if (← Scan.peek) = Tag.absent then
    discard Scan.byte
    return none
  else return some (← child)

/-- A child map that may be absent. An empty map has to be written as absent. -/
def scanMapField (child : Scan Link) (field : String) : Scan (Option Link) := do
  let link ← scanOptional child
  if StakeRecord.leadsToEmptyMap Link.target? link then Scan.fail (.emptyChildMap field)
  else return link

/-- The entries of a map, their keys' digests ascending from `previous`. -/
def scanEntries (child : Scan Link) : Option Digest → Nat → Scan (List (Link × Link))
  | _, 0 => pure []
  | previous, n + 1 => do
    let key ← child
    let value ← child
    let digest := key.digest
    if previous.all (· < digest) then
      return (key, value) :: (← scanEntries child (some digest) n)
    else Scan.fail .keysOutOfOrder

/-- The fields of a stake record. -/
def scanRecord (child : Scan Link) : Scan (StakeRecord Link) := do
  if (← Scan.byte) ≠ Kind.address.tag then Scan.fail .controllerNotAddress
  let controller ← Count.scan
  let peerShares ← Signed.scan
  let stakes ← scanMapField child "stakes"
  let delegatedShares ← Signed.scan
  let metadata ← scanMapField child "metadata"
  let timestamp ← Signed.scan
  let balance ← Count.scan
  if 0x8000000000000000 ≤ balance then Scan.fail .balanceOutOfRange
  return {
    controller := ⟨UInt64.ofNat controller⟩
    peerShares, stakes, delegatedShares, metadata, timestamp
    balance := Int64.ofNat balance }

/-- A keyword's name, after its length in one byte. -/
def scanKeyword : Scan String := do
  let size := (← Scan.byte).toNat
  if size = 0 ∨ maxKeyword < size then Scan.fail (.keywordLength size) else Scan.text size

/-- The value of a cell of this kind, after its tag. -/
def scanValue (child : Scan Link) : Kind → Scan (Value Link)
  | .integer => return .integer (← Signed.scan)
  | .address => return .address ⟨UInt64.ofNat (← Count.scan)⟩
  | .text => do return .text (← Scan.text (← Count.scanLength 1))
  | .blob => do return .blob (← Scan.slice (← Count.scanLength 1))
  | .keyword => return .keyword (← scanKeyword)
  | .vector => do return .vector (← Scan.many child (← Count.scanLength 1))
  | .map => do return .map (← scanEntries child none (← Count.scanLength 2))
  | .peer => return .peer (← scanRecord child)

/-- The kind of the next cell. -/
def scanKind : Scan Kind := do
  let tag ← Scan.byte
  match Kind.ofTag? tag with
  | some kind => return kind
  | none =>
    if tag = Tag.absent then Scan.fail .absenceAlone
    else if tag = Tag.link then Scan.fail .linkAlone
    else Scan.fail (.unknownTag tag)

/-- A cell with at most `depth` levels of cells written inline in it. -/
def scan : Nat → Scan Cell
  | 0 => Scan.fail .unexpectedEnd
  | depth + 1 => do
    let start ← Scan.position
    let kind ← scanKind
    let value ← scanValue (scanChild base (scan depth)) kind
    match value.validate Link.target? with
    | .ok () => return .mk (base + start) value
    | .error cause => throw (.invalidData cause)

/-- Note what reading a cell makes known about it and about every cell inline in it. -/
def noteRead : Cell → Calc Unit :=
  Cell.fold
    (fun cell (value : Value (Calc Unit)) => do
      value.links.forM id
      cell.value.noteCompared
      modify (·.noteEncoded cell))
    (fun _ _ note => note)
    (fun _ _ => pure ())

/--
Read the cell that starts at `offset`, and the number of its bytes. What follows is not looked at.
-/
def read (bytes : Bytes) (offset : Nat) : Attempt (Cell × Nat) := do
  if bytes.length < offset then throw (Fault.badFormat .offsetBeyondEnd)
  let base := (← get).next
  match (scan base (bytes.length + 1)).runAt ⟨bytes.drop offset, offset⟩ with
  | (.ok cell, cursor) =>
    modify fun known => { known with next := base + cursor.position }
    cell.noteRead
    return (cell, cursor.position - offset)
  | (.error fault, _) => throw fault

/-- Read a buffer that holds the encoding of a cell and nothing else. -/
def decode (bytes : Bytes) : Attempt Cell := do
  let (cell, used) ← read bytes 0
  if used = bytes.length then return cell
  else throw (Fault.badFormat (.trailingBytes (bytes.length - used)))

end Cell

end CellGraph
