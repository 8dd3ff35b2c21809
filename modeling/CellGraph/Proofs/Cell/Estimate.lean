import CellGraph.Proofs.Cell.Equality
import CellGraph.Proofs.Query.Replication
import CellGraph.Proofs.Reader.WrittenForms
import Mathlib.Algebra.Order.BigOperators.Group.List

/-!
# Estimates are bounds

The size of an encoding is estimated before anything below the cell has been looked at: no quantity
takes more than `maxGroups` bytes, and no child more than `maxChild`, whichever way it is written.
So the estimate is never too low, and it is exact from the moment at which the cell is written.

* `Value.length_write_le`: the written form of a value whose children take no more than they may;
* `Cell.length_encoding_le_estimate`: what is written is no longer than it was estimated;
* `Cell.isEncoded_encoding`, `Cell.isEncoded_decode`: what is written or read is known from then on;
* `Chronicle.Reached.estimates`: the estimates of a cell, before it is written and after.
-/

namespace CellGraph

open Quantity

/-! ### Children -/

theorem childSize_le (size : Nat) : childSize size ≤ maxChild := by
  unfold childSize maxChild
  split
  · next h => exact h.trans (Nat.le_max_left ..)
  · exact Nat.le_max_right ..

theorem Digest.length_written_le (d : Digest) : d.written.length ≤ maxChild := by
  rw [d.length_written]
  exact Nat.le_max_right ..

theorem Link.length_written_le (link : Link) : link.written.length ≤ maxChild := by
  cases link with
  | direct label target =>
    rw [written, length_writtenChild]
    exact childSize_le _
  | soft label digest => exact digest.length_written_le

/-! ### Values -/

namespace Value

variable {ρ σ : Type}

/-- A bound takes no notice of the links. -/
@[simp] theorem sizeBound_mapLinks (f : ρ → σ) (value : Value ρ) :
    (value.mapLinks f).sizeBound = value.sizeBound := by
  cases value <;> simp [mapLinks, sizeBound]

theorem addressSize_le (a : Address) : addressSize a ≤ 1 + maxGroups := by
  have := Count.length_le a.number.toNat
  unfold addressSize maxGroups
  omega

theorem sum_entries_le {entries : List (Nat × Nat)} {bound : Nat}
    (h : ∀ entry ∈ entries, entry.1 ≤ bound ∧ entry.2 ≤ bound) :
    entries.foldr (fun entry size => entry.1 + entry.2 + size) 0 ≤ entries.length * 2 * bound := by
  induction entries with
  | nil => simp
  | cons entry rest ih =>
    have hrest := ih fun e he => h e (List.mem_cons_of_mem _ he)
    obtain ⟨hkey, hvalue⟩ := h entry (List.mem_cons_self ..)
    simp only [List.foldr_cons, List.length_cons, Nat.add_mul, Nat.one_mul, Nat.two_mul] at hrest ⊢
    omega

theorem optional_le {size : Option Nat} (h : ∀ n ∈ size, n ≤ maxChild) :
    size.getD 1 ≤ maxChild := by
  cases size with
  | none => exact (by decide : 1 ≤ maxChild)
  | some n => exact h n rfl

/-- A value is written in no more than its bound, if no child takes more than it may. -/
theorem writtenSize_le {value : Value Nat} (h : ∀ size ∈ value.links, size ≤ maxChild) :
    value.writtenSize ≤ value.sizeBound := by
  cases value with
  | integer n =>
    have := Signed.length_le n
    simp only [writtenSize, sizeBound, maxGroups]
    omega
  | address a => exact addressSize_le a
  | text s =>
    have := Count.length_le s.utf8ByteSize
    simp only [writtenSize, sizeBound, maxGroups]
    omega
  | blob bytes =>
    have := Count.length_le bytes.length
    simp only [writtenSize, sizeBound, maxGroups]
    omega
  | keyword name => exact le_rfl
  | vector items =>
    have hcount := Count.length_le items.length
    have hitems : items.foldr (· + ·) 0 ≤ items.length * maxChild :=
      List.sum_le_card_nsmul items maxChild h
    simp only [writtenSize, sizeBound, maxGroups]
    omega
  | map entries =>
    have hcount := Count.length_le entries.length
    have hentries : entries.foldr (fun entry size => entry.1 + entry.2 + size) 0 ≤
        entries.length * 2 * maxChild := by
      apply sum_entries_le
      intro entry he
      exact ⟨h entry.1 (List.mem_flatMap.2 ⟨entry, he, by simp⟩),
        h entry.2 (List.mem_flatMap.2 ⟨entry, he, by simp⟩)⟩
    simp only [writtenSize, sizeBound, maxGroups]
    omega
  | peer record =>
    have hcontroller := addressSize_le record.controller
    have hpeer := Signed.length_le record.peerShares
    have hdelegated := Signed.length_le record.delegatedShares
    have htimestamp := Signed.length_le record.timestamp
    have hbalance := Count.length_le record.balance.toUInt64.toNat
    have hstakes : record.stakes.getD 1 ≤ maxChild :=
      optional_le fun n hn => h n (List.mem_append_left _ (Option.mem_toList.2 hn))
    have hmetadata : record.metadata.getD 1 ≤ maxChild :=
      optional_le fun n hn => h n (List.mem_append_right _ (Option.mem_toList.2 hn))
    simp only [writtenSize, sizeBound, maxGroups] at hcontroller ⊢
    omega

/-- The written form of a value whose children take no more than they may. -/
theorem length_write_le {value : Value Bytes} (h : ∀ child ∈ value.links, child.length ≤ maxChild) :
    value.write.length ≤ value.sizeBound := by
  have hsizes : ∀ size ∈ (value.mapLinks fun child : Bytes => child.length).links,
      size ≤ maxChild := by
    simpa using h
  rw [length_write, ← sizeBound_mapLinks fun child : Bytes => child.length]
  exact writtenSize_le hsizes

end Value

/-! ### Cells -/

namespace Cell

/-- An encoding is no longer than the bound. -/
theorem encodedSize_le (cell : Cell) : cell.encodedSize ≤ cell.sizeBound := by
  obtain ⟨label, value⟩ := cell
  rw [← length_encode, encode_mk, sizeBound, Cell.value, ← Value.sizeBound_mapLinks Link.written]
  refine Value.length_write_le fun child hchild => ?_
  rw [Value.links_mapLinks] at hchild
  obtain ⟨link, -, rfl⟩ := List.mem_map.1 hchild
  exact link.length_written_le

/-- What is written is no longer than it was estimated. -/
theorem length_encoding_le_estimate (cell : Cell) (known : Knowledge) :
    (cell.encoding.run known).1.length ≤ known.estimate cell := by
  rw [show (cell.encoding.run known).1 = cell.encode from cell.fst_encoding known, length_encode,
    Knowledge.estimate]
  split
  · exact le_rfl
  · exact cell.encodedSize_le

/-- The estimate is exact once the encoding is known. -/
theorem estimate_of_isEncoded {cell : Cell} {known : Knowledge} (h : known.isEncoded cell) :
    known.estimate cell = cell.encode.length := by
  rw [Knowledge.estimate, if_pos h, length_encode]

theorem isEncoded_noteEncoded (cell : Cell) (known : Knowledge) :
    (known.noteEncoded cell).isEncoded cell := by
  simp [Knowledge.isEncoded, Knowledge.noteEncoded]

theorem isEncoded_encodeNoting (cell : Cell) (known : Knowledge) :
    (cell.encodeNoting.2 known).isEncoded cell := by
  obtain ⟨label, value⟩ := cell
  rw [encodeNoting, fold_mk]
  dsimp only
  split
  · assumption
  · exact isEncoded_noteEncoded _ _

/-- A cell that is written is known to be. -/
theorem isEncoded_encoding (cell : Cell) (known : Knowledge) :
    (cell.encoding.run known).2.isEncoded cell := by
  by_cases h : known.isEncoded cell
  · show (if known.isEncoded cell then _ else _ : Bytes × Knowledge).2.isEncoded cell
    rw [if_pos h]
    exact h
  · show (if known.isEncoded cell then _ else _ : Bytes × Knowledge).2.isEncoded cell
    rw [if_neg h]
    exact cell.isEncoded_encodeNoting known

/-- A cell that is read is known to be written as it was found. -/
theorem isEncoded_decode {bytes : Bytes} {known : Knowledge} {cell : Cell}
    (h : ((decode bytes).run.run known).1 = .ok cell) :
    ((decode bytes).run.run known).2.isEncoded cell ∧ cell.encode = bytes := by
  obtain ⟨hfrom, hknown⟩ := readFrom_of_decode h
  refine ⟨?_, hfrom.encode⟩
  rw [hknown]
  obtain ⟨label, value⟩ := cell
  rw [noteRead, fold_mk]
  exact isEncoded_noteEncoded _ _

end Cell

namespace Chronicle

variable {ι : Type} [DecidableEq ι] {chronicle : Chronicle ι}

/--
No cell that can come about is written in more bytes than it was estimated, whatever its links have
come to hold and whatever has been worked out. From the moment at which it is written, the estimate
is exact, and so it is at once for a cell that is read from these bytes.
-/
theorem Reached.estimates (h : chronicle.Reached) {cell : Cell}
    (hcell : cell ∈ chronicle.session.cells) (known : Knowledge) {bytes : Bytes}
    (hbytes : bytes = (cell.value.mapLinks chronicle.session.known.writtenFor).write) :
    (cell.encoding.run known).1 = bytes ∧ bytes.length ≤ known.estimate cell ∧
      (cell.encoding.run known).2.isEncoded cell ∧
      (∀ later : Knowledge, later.isEncoded cell → later.estimate cell = bytes.length) ∧
      ∃ copy later, (Cell.decode bytes).run.run known = (.ok copy, later) ∧
        later.estimate copy = bytes.length := by
  have hencode : bytes = cell.encode := by
    rw [hbytes, funext h.inv.usable.coherent.writtenFor_eq]
    cases cell with
    | mk label value => exact (Cell.encode_mk label value).symm
  have hencoding : (cell.encoding.run known).1 = bytes := (cell.fst_encoding known).trans hencode.symm
  refine ⟨hencoding, ?_, cell.isEncoded_encoding known, fun later hlater => ?_, ?_⟩
  · rw [← hencoding]
    exact cell.length_encoding_le_estimate known
  · rw [hencode]
    exact Cell.estimate_of_isEncoded hlater
  · obtain ⟨copy, later, hdecode, -⟩ :=
      Cell.decode_encode_append (h.inv.usable.cell hcell) known []
    rw [List.append_nil, if_pos rfl, ← hencode] at hdecode
    obtain ⟨hknown, hcopy⟩ := Cell.isEncoded_decode (congrArg Prod.fst hdecode)
    rw [hdecode] at hknown
    exact ⟨copy, later, hdecode, hcopy ▸ Cell.estimate_of_isEncoded hknown⟩

set_option maxRecDepth 20000 in
/-- A record whose metadata have been found: far below its estimate at first, exact afterwards. -/
theorem recordCell_estimates :
    recordCell ∈ loadedRecord.session.cells ∧
      recordCell.links.all (fun link => (loadedRecord.session.known.resident link).isSome) ∧
      ({} : Knowledge).estimate recordCell = 332 ∧
      (recordCell.value.mapLinks loadedRecord.session.known.writtenFor).write.length = 42 ∧
      (recordCell.encoding.run {}).2.estimate recordCell = 42 := by
  obtain ⟨-, -, hknown, hexact, -⟩ :=
    reached_loadedRecord.estimates recordCell_mem_cells {} rfl
  have hlength :
      (recordCell.value.mapLinks loadedRecord.session.known.writtenFor).write.length = 42 := by
    decide +kernel
  exact ⟨recordCell_mem_cells, by decide +kernel, by decide +kernel, hlength,
    (hexact _ hknown).trans hlength⟩

end Chronicle

end CellGraph
