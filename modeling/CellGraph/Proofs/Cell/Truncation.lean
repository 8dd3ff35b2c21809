import CellGraph.Proofs.Query.Replication

/-!
# Encodings that are cut short

A buffer that ends before the encoding in it does is refused for its format, wherever it ends: in a
tag, a number, a length, a digest, a text or a cell inside another one. The part of the encoding that
is there is read as it would be read in full, so every check that is made on the way passes, and the
first one that fails is for want of bytes.

* `Scan.Truncates`: what a scan gives if its input is cut short;
* `Cell.truncates_scan`: the scan for cells is cut short for its format only;
* `Cell.decode_truncated`, `Cell.encode_eq_of_prefix`: proper prefixes of encodings are refused, so
  none is an encoding;
* `Chronicle.Reached.refuses_truncated`: both, for all cells that can come about.
-/

namespace CellGraph

open Quantity

/-! ### Scans whose input is cut short -/

/-- Both stand at the same place, and the first has only the beginning of what the other has left. -/
def Cursor.Cuts (short full : Cursor) : Prop :=
  short.rest <+: full.rest ∧ short.position = full.position

/-- As many bytes as the shorter input has are the same in both. -/
theorem Cursor.Cuts.split {short full : Cursor} (h : short.Cuts full) {n : Nat}
    (hroom : n ≤ short.rest.length) :
    n ≤ full.rest.length ∧ short.rest.take n = full.rest.take n ∧
      Cuts ⟨short.rest.drop n, short.position + n⟩ ⟨full.rest.drop n, full.position + n⟩ := by
  obtain ⟨⟨more, hmore⟩, hposition⟩ := h
  refine ⟨?_, ?_, ⟨more, ?_⟩, by rw [hposition]⟩
  · rw [← hmore, List.length_append]
    exact Nat.le_add_right_of_le hroom
  · rw [← hmore, List.take_append_of_le_length hroom]
  · rw [← hmore, List.drop_append_of_le_length hroom]

/--
Where the first scan succeeds, the second one gives the same on the beginning of the same input, or
the format is at fault. The second one may be told to go less deep.
-/
def Scan.Truncates {α : Type} (scan cut : Scan α) : Prop :=
  ∀ ⦃full after : Cursor⦄ ⦃a : α⦄, scan.runAt full = (.ok a, after) →
    ∀ ⦃short : Cursor⦄, short.Cuts full →
      (∃ stopped : Cursor, stopped.Cuts after ∧ cut.runAt short = (.ok a, stopped)) ∨
        ∃ cause, (cut.runAt short).1 = .error (.badFormat cause)

namespace Scan

variable {α β : Type}

namespace Truncates

theorem pure (a : α) : (Pure.pure a : Scan α).Truncates (Pure.pure a) := by
  rintro full after _ ⟨⟩ short hcuts
  exact .inl ⟨short, hcuts, rfl⟩

/-- Where the scan fails on the whole input, nothing is to be shown. -/
theorem fail (cause : FormatFault) (cut : Scan α) : (Scan.fail cause).Truncates cut := by
  rintro full after a ⟨⟩

theorem throw (fault : Fault) (cut : Scan α) :
    (MonadExcept.throw fault : Scan α).Truncates cut := by
  rintro full after a ⟨⟩

/-- A scan that is told to read nothing stops for its format. -/
theorem to_fail (scan : Scan α) (cause : FormatFault) : scan.Truncates (Scan.fail cause) :=
  fun _ _ _ _ _ _ => .inr ⟨cause, rfl⟩

theorem bind {scan cut : Scan α} {next cutNext : α → Scan β} (hscan : scan.Truncates cut)
    (hnext : ∀ a, (next a).Truncates (cutNext a)) :
    (scan >>= next).Truncates (cut >>= cutNext) := by
  intro full after b hrun short hcuts
  obtain ⟨a, between, hfirst, hsecond⟩ := runAt_bind_ok.1 hrun
  rw [runAt_bind]
  rcases hscan hfirst hcuts with ⟨stopped, hstopped, hcut⟩ | ⟨cause, hcause⟩
  · rw [hcut]
    exact hnext a hsecond hstopped
  · rcases hcut : cut.runAt short with ⟨fault | a, stopped⟩ <;> rw [hcut] at hcause <;>
      cases hcause
    exact .inr ⟨cause, rfl⟩

theorem ite {condition : Prop} [Decidable condition] {first second cutFirst cutSecond : Scan α}
    (hfirst : first.Truncates cutFirst) (hsecond : second.Truncates cutSecond) :
    (if condition then first else second).Truncates (if condition then cutFirst else cutSecond) := by
  split
  · exact hfirst
  · exact hsecond

/-- A condition that is checked on the way was met by the whole input. -/
theorem guard_bind {condition : Prop} [Decidable condition] {cause : FormatFault}
    {next cutNext : Unit → Scan α} (h : (next ()).Truncates (cutNext ())) :
    (if condition then Scan.fail cause >>= next else next ()).Truncates
      (if condition then Scan.fail cause >>= cutNext else cutNext ()) :=
  ite (.bind (fail cause _) fun _ => h) h

end Truncates

theorem truncates_peek : peek.Truncates peek := by
  rintro ⟨_ | ⟨b, rest⟩, position⟩ after a ⟨⟩ ⟨short, stands⟩ hcuts
  cases short with
  | nil => exact .inr ⟨_, rfl⟩
  | cons c more =>
    obtain rfl : c = b := (List.cons_prefix_cons.1 hcuts.1).1
    exact .inl ⟨_, hcuts, rfl⟩

theorem truncates_byte : byte.Truncates byte := by
  rintro ⟨_ | ⟨b, rest⟩, position⟩ after a ⟨⟩ ⟨short, stands⟩ ⟨hbegins, hstands⟩
  cases short with
  | nil => exact .inr ⟨_, rfl⟩
  | cons c more =>
    obtain ⟨rfl, hmore⟩ := List.cons_prefix_cons.1 hbegins
    exact .inl ⟨_, ⟨hmore, congrArg (· + 1) hstands⟩, rfl⟩

theorem truncates_discard_byte : (discard byte).Truncates (discard byte) :=
  truncates_byte.bind fun _ => .pure PUnit.unit

theorem truncates_position : Scan.position.Truncates Scan.position := by
  rintro full after _ ⟨⟩ short hcuts
  exact .inl ⟨short, hcuts, congrArg (fun n => (Except.ok n, short)) hcuts.2⟩

theorem truncates_slice (n : Nat) : (slice n).Truncates (slice n) := by
  intro full after bytes hrun short hcuts
  by_cases hroom : n ≤ short.rest.length
  · obtain ⟨hfull, htake, hdrop⟩ := hcuts.split hroom
    simp only [runAt, slice, if_pos hfull, Prod.mk.injEq, Except.ok.injEq] at hrun
    obtain ⟨rfl, rfl⟩ := hrun
    exact .inl ⟨_, hdrop, by simp only [runAt, slice, if_pos hroom, htake]⟩
  · exact .inr ⟨.tooShort n short.rest.length, by simp only [runAt, slice, if_neg hroom]⟩

theorem truncates_digest : Scan.digest.Truncates Scan.digest := by
  intro full after digest hrun short hcuts
  by_cases hroom : 32 ≤ short.rest.length
  · obtain ⟨hfull, htake, hdrop⟩ := hcuts.split hroom
    simp only [runAt, Scan.digest, dif_pos hfull, Prod.mk.injEq, Except.ok.injEq] at hrun
    obtain ⟨rfl, rfl⟩ := hrun
    exact .inl ⟨_, hdrop, by simp only [runAt, Scan.digest, dif_pos hroom, htake]⟩
  · exact .inr ⟨.tooShort 32 short.rest.length, by simp only [runAt, Scan.digest, dif_neg hroom]⟩

theorem truncates_text (n : Nat) : (Scan.text n).Truncates (Scan.text n) := by
  refine (truncates_slice n).bind fun bytes => ?_
  cases Utf8.decode bytes with
  | ok text => exact .pure text
  | error fault => exact .fail _ _

/-- Items in a row are cut short within one of them. -/
theorem truncates_many {item cut : Scan α} (h : item.Truncates cut) (n : Nat) :
    (many item n).Truncates (many cut n) := by
  induction n with
  | zero => exact .pure []
  | succ n ih => exact h.bind fun first => ih.bind fun rest => .pure (first :: rest)

end Scan

/-! ### Numbers -/

namespace Quantity

theorem truncates_extend (fits : Int → Bool) (overflow : FormatFault) (fuel : Nat) (value : Int)
    (b : UInt8) : (extend fits overflow fuel value b).Truncates (extend fits overflow fuel value b) := by
  induction fuel generalizing value b with
  | zero => exact .fail overflow _
  | succ fuel ih =>
    exact .ite (.ite (Scan.truncates_byte.bind fun next => ih _ next) (.pure _)) (.fail overflow _)

theorem Signed.truncates_scan : Signed.scan.Truncates Signed.scan := by
  refine Scan.truncates_byte.bind fun first => .ite ?_ (.pure _)
  refine Scan.truncates_byte.bind fun second => .ite (.fail _ _) ?_
  exact (truncates_extend _ _ _ _ second).bind fun n => .pure _

theorem Count.truncates_scan : Count.scan.Truncates Count.scan := by
  refine Scan.truncates_byte.bind fun first => .ite (.fail _ _) (.ite ?_ (.pure _))
  refine Scan.truncates_byte.bind fun second => ?_
  exact (truncates_extend _ _ _ _ second).bind fun n => .pure _

/-- A length may no longer fit in what is left of the input: then the format is at fault for it. -/
theorem Count.truncates_scanLength (itemSize : Nat) :
    (Count.scanLength itemSize).Truncates (Count.scanLength itemSize) := by
  refine Count.truncates_scan.bind fun n => ?_
  intro full after found hrun short hcuts
  obtain ⟨left, between, hleft, hrun⟩ := Scan.runAt_bind_ok.1 hrun
  rw [Scan.runAt_remaining] at hleft
  cases hleft
  rw [Scan.runAt_bind, Scan.runAt_remaining]
  dsimp only
  split at hrun
  · cases hrun
  · cases hrun
    by_cases hbeyond : n > short.rest.length / Nat.max itemSize 1
    · rw [if_pos hbeyond]
      exact .inr ⟨_, rfl⟩
    · rw [if_neg hbeyond]
      exact .inl ⟨short, hcuts, rfl⟩

end Quantity

/-! ### Cells -/

namespace Cell

variable {base : Label}

/-- A child's digest is cut short for want of bytes, and a child that is inline as a cell is. -/
theorem truncates_scanChild {cell cut : Scan Cell} (h : cell.Truncates cut) :
    (scanChild base cell).Truncates (scanChild base cut) := by
  refine Scan.truncates_position.bind fun start => Scan.truncates_peek.bind fun tag => ?_
  refine .ite (.fail _ _) (.ite ?_ ?_)
  · exact Scan.truncates_discard_byte.bind fun _ => Scan.truncates_digest.bind fun digest => .pure _
  · refine h.bind fun target => Scan.truncates_position.bind fun stop => ?_
    exact .ite (.fail _ _) (.pure _)

theorem truncates_scanOptional {child cut : Scan Link} (h : child.Truncates cut) :
    (scanOptional child).Truncates (scanOptional cut) := by
  refine Scan.truncates_peek.bind fun tag => .ite ?_ ?_
  · exact Scan.truncates_discard_byte.bind fun _ => .pure none
  · exact h.bind fun link => .pure (some link)

theorem truncates_scanMapField {child cut : Scan Link} (h : child.Truncates cut) (field : String) :
    (scanMapField child field).Truncates (scanMapField cut field) :=
  (truncates_scanOptional h).bind fun link => .ite (.fail _ _) (.pure link)

theorem truncates_scanEntries {child cut : Scan Link} (h : child.Truncates cut) (n : Nat)
    (previous : Option Digest) :
    (scanEntries child previous n).Truncates (scanEntries cut previous n) := by
  induction n generalizing previous with
  | zero => exact .pure []
  | succ n ih =>
    refine h.bind fun key => h.bind fun value => .ite ?_ (.fail _ _)
    exact (ih (some key.digest)).bind fun rest => .pure ((key, value) :: rest)

theorem truncates_scanKeyword : scanKeyword.Truncates scanKeyword :=
  Scan.truncates_byte.bind fun size => .ite (.fail _ _) (Scan.truncates_text size.toNat)

theorem truncates_scanRecord {child cut : Scan Link} (h : child.Truncates cut) :
    (scanRecord child).Truncates (scanRecord cut) := by
  refine Scan.truncates_byte.bind fun tag => .guard_bind ?_
  refine Count.truncates_scan.bind fun controller => ?_
  refine Signed.truncates_scan.bind fun peerShares => ?_
  refine (truncates_scanMapField h "stakes").bind fun stakes => ?_
  refine Signed.truncates_scan.bind fun delegatedShares => ?_
  refine (truncates_scanMapField h "metadata").bind fun metadata => ?_
  refine Signed.truncates_scan.bind fun timestamp => ?_
  exact Count.truncates_scan.bind fun balance => .guard_bind (.pure _)

theorem truncates_scanValue {child cut : Scan Link} (h : child.Truncates cut) (kind : Kind) :
    (scanValue child kind).Truncates (scanValue cut kind) := by
  cases kind with
  | integer => exact Signed.truncates_scan.bind fun n => .pure _
  | address => exact Count.truncates_scan.bind fun n => .pure _
  | text =>
    exact (Count.truncates_scanLength 1).bind fun n => (Scan.truncates_text n).bind fun s => .pure _
  | blob =>
    exact (Count.truncates_scanLength 1).bind fun n => (Scan.truncates_slice n).bind fun b => .pure _
  | keyword => exact truncates_scanKeyword.bind fun name => .pure _
  | vector =>
    exact (Count.truncates_scanLength 1).bind fun n =>
      (Scan.truncates_many h n).bind fun items => .pure _
  | map =>
    exact (Count.truncates_scanLength 2).bind fun n =>
      (truncates_scanEntries h n none).bind fun entries => .pure _
  | peer => exact (truncates_scanRecord h).bind fun record => .pure _

theorem truncates_scanKind : scanKind.Truncates scanKind := by
  refine Scan.truncates_byte.bind fun tag => ?_
  cases Kind.ofTag? tag with
  | some kind => exact .pure kind
  | none => exact .ite (.fail _ _) (.ite (.fail _ _) (.fail _ _))

/--
A cell that is cut short is read up to where the input ends, and no further. In particular no value
inside it is refused on the way, for on the whole input it was not. This does not depend on how deep
the scans may go.
-/
theorem truncates_scan (base : Label) (depth cutDepth : Nat) :
    (scan base depth).Truncates (scan base cutDepth) := by
  induction depth generalizing cutDepth with
  | zero => exact .fail _ _
  | succ depth ih =>
    cases cutDepth with
    | zero => exact .to_fail _ _
    | succ cutDepth =>
      rw [scan, scan]
      refine Scan.truncates_position.bind fun start => truncates_scanKind.bind fun kind => ?_
      refine (truncates_scanValue (truncates_scanChild (ih cutDepth)) kind).bind fun value => ?_
      cases value.validate Link.target? with
      | ok _ => exact .pure _
      | error cause => exact .throw _ _

variable {cell : Cell}

/-- A proper prefix of an encoding is refused for its format, and nothing has been learnt from it. -/
theorem decode_truncated (hsound : cell.Sound) {bytes : Bytes} (hbegins : bytes <+: cell.encode)
    (hne : bytes ≠ cell.encode) (known : Knowledge) :
    ∃ cause, (decode bytes).run.run known = (.error (.badFormat cause), known) := by
  obtain ⟨cell', hreads, -⟩ := reads_scan known.next hsound (Nat.le_refl _) 0
  have hcuts : Cursor.Cuts ⟨bytes.drop 0, 0⟩ ⟨cell.encode ++ [], 0⟩ :=
    ⟨by rwa [List.drop_zero, List.append_nil], rfl⟩
  rcases truncates_scan known.next _ (bytes.length + 1) (hreads []) hcuts with
    ⟨stopped, hstopped, hrun⟩ | ⟨cause, hcause⟩
  · -- If the cut bytes gave the cell, they would be as many as those of the encoding.
    obtain ⟨taken, hrest, hposition, -⟩ := takes_scan _ hrun
    have hnil : stopped.rest = [] := List.prefix_nil.1 hstopped.1
    rw [List.drop_zero, hnil, List.append_nil] at hrest
    have hend : 0 + taken.length = 0 + cell.encode.length := hposition.symm.trans hstopped.2
    have hlength : bytes.length = cell.encode.length := (congrArg List.length hrest).trans (by omega)
    exact absurd (hbegins.eq_of_length hlength) hne
  · refine ⟨cause, ?_⟩
    rw [decode_eq, read_eq (Nat.zero_le _)]
    rcases hrun : (scan known.next (bytes.length + 1)).runAt ⟨bytes.drop 0, 0⟩ with ⟨fault | a, at'⟩ <;>
      rw [hrun] at hcause <;> cases hcause
    rfl

/-- No encoding is a proper prefix of another. -/
theorem encode_eq_of_prefix {other : Cell} (hsound : cell.Sound) (hother : other.Sound)
    (hbegins : cell.encode <+: other.encode) : cell.encode = other.encode := by
  by_contra hne
  obtain ⟨cause, hrefused⟩ := decode_truncated hother hbegins hne {}
  obtain ⟨cell', known', hdecode, -⟩ := decode_encode_append hsound {} []
  rw [List.append_nil, hrefused, if_pos rfl] at hdecode
  cases hdecode

end Cell

namespace Chronicle

variable {ι κ : Type} [DecidableEq ι] [DecidableEq κ] {chronicle : Chronicle ι}

/--
The encoding of a cell that can come about is refused if it is cut short anywhere, even before its
first byte: the format is at fault, whatever the reader knows, and nothing else has happened. So no
encoding is the beginning of another one.
-/
theorem Reached.refuses_truncated (h : chronicle.Reached) {cell : Cell}
    (hcell : cell ∈ chronicle.session.cells) :
    (∀ bytes, bytes <+: cell.encode → bytes ≠ cell.encode → ∀ known, ∃ cause,
      (Cell.decode bytes).run.run known = (.error (.badFormat cause), known)) ∧
    ∀ reached : Chronicle κ, reached.Reached → ∀ other ∈ reached.session.cells,
      cell.encode <+: other.encode → cell.encode = other.encode := by
  have hsound := h.inv.usable.cell hcell
  refine ⟨fun bytes hbegins hne known => Cell.decode_truncated hsound hbegins hne known, ?_⟩
  intro reached hreached other hother hbegins
  exact Cell.encode_eq_of_prefix hsound (hreached.inv.usable.cell hother) hbegins

/-- A record without its last byte is refused, and so is the record without all of them. -/
theorem recordCell_truncated :
    recordCell ∈ loadedRecord.session.cells ∧
      (∃ cause, (Cell.decode recordCell.encode.dropLast).run.run loadedRecord.session.known =
        (.error (.badFormat cause), loadedRecord.session.known)) ∧
      ∃ cause, (Cell.decode []).run.run loadedRecord.session.known =
        (.error (.badFormat cause), loadedRecord.session.known) := by
  obtain ⟨hrefuses, -⟩ :=
    reached_loadedRecord.refuses_truncated (κ := Unit) recordCell_mem_cells
  have hne : recordCell.encode ≠ [] := by
    rw [Cell.encode_eq]
    exact List.cons_ne_nil _ _
  refine ⟨recordCell_mem_cells, hrefuses _ (List.dropLast_prefix _) (fun heq => ?_) _,
    hrefuses [] List.nil_prefix hne.symm _⟩
  have hlength := congrArg List.length heq
  rw [List.length_dropLast] at hlength
  have := List.length_pos_iff.2 hne
  omega

end Chronicle

end CellGraph
