import CellGraph.Cell.Decoding
import CellGraph.Proofs.Cell.Reread
import CellGraph.Proofs.Reader.Quantity

/-!
# Round trips

The encoding of a sound cell is accepted wherever it stands, whatever follows it, and gives the cell
as it is read again.

* `Scan.Rereads`: scans that give a link as it is read again;
* `Cell.reads_scan`: the encoding of a sound cell is read.
-/

namespace CellGraph

open Quantity

/-! ### Reading less -/

theorem Link.shows_reread :
    Shows Link.target? Link.target? (Link.Reread Link.inline?) := by
  intro link link' h cell' hcell'
  obtain ⟨cell, hinline, halike⟩ := h.target hcell'
  exact ⟨cell, Link.target?_of_inline hinline, halike⟩

/-! ### Reading a count and a tag -/

namespace Scan

variable {α β : Type} {position : Nat}

/-- A count is followed by as many items as it says, so it does not exceed the rest of the input. -/
theorem reads_scanLength {itemSize n : Nat} {next : Nat → Scan β} {bytes : Bytes} {b : β}
    (hn : n < 2 ^ 64) (hroom : n * Nat.max itemSize 1 ≤ bytes.length)
    (hnext : (next n).Reads (position + (Count.encode n).length) bytes b) :
    (Count.scanLength itemSize >>= next).Reads position (Count.encode n ++ bytes) b := by
  have hpositive : 0 < Nat.max itemSize 1 := Nat.le_max_right itemSize 1
  intro rest
  have hle : ¬n > (bytes ++ rest).length / Nat.max itemSize 1 := by
    rw [gt_iff_lt, Nat.not_lt, Nat.le_div_iff_mul_le hpositive, List.length_append]
    omega
  have hscan : (Count.scanLength itemSize).runAt ⟨Count.encode n ++ bytes ++ rest, position⟩ =
      (.ok n, ⟨bytes ++ rest, position + (Count.encode n).length⟩) := by
    rw [Count.scanLength, runAt_bind, List.append_assoc,
      Count.reads_encode hn position (bytes ++ rest)]
    dsimp only
    rw [runAt_bind, runAt_remaining]
    dsimp only
    rw [if_neg hle, runAt_pure]
  rw [runAt_bind, hscan]
  dsimp only
  rw [hnext rest, List.length_append, Nat.add_assoc]

namespace Reads

/-- The byte that is looked at is the first one taken. -/
theorem peek {next : UInt8 → Scan β} {b : UInt8} {bytes : Bytes} {a : β}
    (h : (next b).Reads position (b :: bytes) a) :
    (Scan.peek >>= next).Reads position (b :: bytes) a :=
  fun rest => h rest

theorem here {next : Nat → Scan β} {bytes : Bytes} {a : β}
    (h : (next position).Reads position bytes a) :
    (Scan.position >>= next).Reads position bytes a :=
  fun rest => h rest

theorem guard_bind {condition : Prop} [Decidable condition] {cause : FormatFault}
    {next : Unit → Scan α} {bytes : Bytes} {a : α} (hc : ¬condition)
    (h : (next ()).Reads position bytes a) :
    (if condition then Scan.fail cause >>= next else next ()).Reads position bytes a := by
  rw [if_neg hc]
  exact h

end Reads

end Scan

/-! ### Children -/

/-- Every child takes at least one byte. -/
theorem Link.length_le_written (links : List Link) :
    links.length ≤ (links.map Link.written).flatten.length := by
  induction links with
  | nil => exact Nat.le_refl _
  | cons link rest ih =>
    have := List.length_pos_iff.2 link.written_ne_nil
    simp only [List.map_cons, List.flatten_cons, List.length_append, List.length_cons]
    omega

/-- Every entry takes at least two bytes. -/
theorem Link.length_le_writtenEntries (entries : List (Link × Link)) :
    entries.length * 2 ≤
      (entries.flatMap fun entry => entry.1.written ++ entry.2.written).length := by
  induction entries with
  | nil => exact Nat.le_refl _
  | cons entry rest ih =>
    have hkey := List.length_pos_iff.2 entry.1.written_ne_nil
    have hvalue := List.length_pos_iff.2 entry.2.written_ne_nil
    simp only [List.flatMap_cons, List.length_append, List.length_cons]
    omega

/-- On the written form of a link, the scan gives the link as it is read again. -/
def Scan.Rereads (child : Scan Link) (link : Link) : Prop :=
  ∀ position, ∃ link', child.Reads position link.written link' ∧ link.Reread Link.inline? link'

theorem Kind.tag_ne (kind : Kind) : kind.tag ≠ Tag.absent ∧ kind.tag ≠ Tag.link := by
  cases kind <;> decide

namespace Cell

variable {base : Label}

/-- A link is read again if its target is, in case that is written inline. -/
theorem rereads_scanChild {scan : Scan Cell} {link : Link}
    (h : ∀ t, link.inline? = some t → ∀ position, ∃ t', scan.Reads position t.encode t' ∧
      t.Reread Link.inline? t') :
    (scanChild base scan).Rereads link := by
  intro position
  cases hinline : link.inline? with
  | none =>
    refine ⟨.soft (base + position) link.digest, ?_, .soft hinline⟩
    rw [Link.written_of_not_inline hinline]
    refine Scan.Reads.here (Scan.Reads.peek ?_)
    rw [if_neg (by decide), if_pos rfl]
    have htag : (discard Scan.byte).Reads position [Tag.link] () := fun _ => rfl
    exact htag.bind ((Scan.reads_digest link.digest _).map _)
  | some t =>
    obtain ⟨hwritten, hsmall⟩ := Link.written_of_inline hinline
    obtain ⟨t', hreads, ht⟩ := h t hinline position
    refine ⟨.direct (base + position) t', ?_, .of_target hinline ht⟩
    obtain ⟨habsent, hlink⟩ := Kind.tag_ne t.value.kind
    rw [hwritten]
    -- The scan of the target goes on with what `scanChild` checks of its size.
    have hscan : (do
        let target ← scan
        let size := (← Scan.position) - position
        if maxEmbedded < size then Scan.fail (.oversizedChild size)
        else return Link.direct (base + position) target).Reads position t.encode
          (.direct (base + position) t') := by
      refine hreads.bind_last (Scan.Reads.here ?_)
      rw [Nat.add_sub_cancel_left, if_neg (by omega)]
      exact Scan.Reads.pure _ _
    rw [Cell.encode_eq] at hscan ⊢
    refine Scan.Reads.here (Scan.Reads.peek ?_)
    rw [if_neg habsent, if_neg hlink]
    exact hscan

theorem reads_many {child : Scan Link} {items : List Link} (h : ∀ link ∈ items, child.Rereads link)
    (position : Nat) :
    ∃ pairs : List (Link × Link), pairs.map Prod.fst = items ∧
      (∀ pair ∈ pairs, Link.Reread Link.inline? pair.1 pair.2) ∧
      (Scan.many child items.length).Reads position (items.map Link.written).flatten
        (pairs.map Prod.snd) := by
  induction items generalizing position with
  | nil => exact ⟨[], rfl, by simp, Scan.Reads.pure _ _⟩
  | cons first rest ih =>
    obtain ⟨first', hfirst, hreread⟩ := h first (List.mem_cons_self ..) position
    obtain ⟨pairs, hpairs, hrest, hreads⟩ :=
      ih (fun link hlink => h link (List.mem_cons_of_mem _ hlink)) (position + first.written.length)
    refine ⟨(first, first') :: pairs, by rw [List.map_cons, hpairs], ?_, ?_⟩
    · rintro pair hp
      rcases List.mem_cons.1 hp with rfl | hp
      · exact hreread
      · exact hrest pair hp
    · rw [List.map_cons, List.flatten_cons]
      exact hfirst.bind (hreads.map _)

theorem reads_scanOptional {child : Scan Link} {link : Option Link}
    (h : ∀ l ∈ link, child.Rereads l) (position : Nat) :
    ∃ pair : Option (Link × Link), pair.map Prod.fst = link ∧
      (∀ p ∈ pair, Link.Reread Link.inline? p.1 p.2) ∧
      (scanOptional child).Reads position (Value.writeOptional (link.map Link.written))
        (pair.map Prod.snd) := by
  cases link with
  | none => exact ⟨none, rfl, by simp, fun _ => rfl⟩
  | some link =>
    obtain ⟨link', hreads, hreread⟩ := h link rfl position
    refine ⟨some (link, link'), rfl, by simpa using hreread, ?_⟩
    obtain ⟨tag, rest, hbytes, htag⟩ :
        ∃ tag rest, link.written = tag :: rest ∧ tag ≠ Tag.absent := by
      cases hinline : link.inline? with
      | none => exact ⟨Tag.link, _, Link.written_of_not_inline hinline, by decide⟩
      | some t =>
        rw [(Link.written_of_inline hinline).1, Cell.encode_eq]
        exact ⟨_, _, rfl, (Kind.tag_ne _).1⟩
    show (scanOptional child).Reads position link.written (some link')
    have hmap := hreads.map some
    rw [hbytes] at hmap ⊢
    refine Scan.Reads.peek ?_
    rw [if_neg htag]
    exact hmap

/-- A map that is not empty, as far as it is held, is read again as it was written. -/
theorem reads_scanMapField {child : Scan Link} {link : Option Link} (field : String)
    (h : ∀ l ∈ link, child.Rereads l)
    (hempty : StakeRecord.leadsToEmptyMap Link.target? link = false) (position : Nat) :
    ∃ pair : Option (Link × Link), pair.map Prod.fst = link ∧
      (∀ p ∈ pair, Link.Reread Link.inline? p.1 p.2) ∧
      (scanMapField child field).Reads position (Value.writeOptional (link.map Link.written))
        (pair.map Prod.snd) := by
  obtain ⟨pair, rfl, hreread, hreads⟩ := reads_scanOptional h position
  refine ⟨pair, rfl, hreread, ?_⟩
  have hempty' : ¬StakeRecord.leadsToEmptyMap Link.target? (pair.map Prod.snd) = true := by
    intro hfound
    have := StakeRecord.leadsToEmptyMap_of_shows Link.shows_reread hreread hfound
    rw [hempty] at this
    cases this
  refine hreads.bind_last ?_
  rw [if_neg hempty']
  exact Scan.Reads.pure _ _

/-- The entries of a map are read again if the digests of their keys ascend. -/
theorem reads_scanEntries {child : Scan Link} {entries : List (Link × Link)}
    (h : ∀ entry ∈ entries, child.Rereads entry.1 ∧ child.Rereads entry.2)
    (previous : Option Digest)
    (hascending : ascending (previous.toList ++ entries.map fun entry => entry.1.digest))
    (position : Nat) :
    ∃ pairs : List ((Link × Link) × (Link × Link)),
      (pairs.map fun pair => (pair.1.1, pair.2.1)) = entries ∧
      (∀ pair ∈ pairs, Link.Reread Link.inline? pair.1.1 pair.1.2 ∧
        Link.Reread Link.inline? pair.2.1 pair.2.2) ∧
      (scanEntries child previous entries.length).Reads position
        (entries.flatMap fun entry => entry.1.written ++ entry.2.written)
        (pairs.map fun pair => (pair.1.2, pair.2.2)) := by
  induction entries generalizing position previous with
  | nil => exact ⟨[], rfl, by simp, Scan.Reads.pure _ _⟩
  | cons entry rest ih =>
    obtain ⟨key, value⟩ := entry
    obtain ⟨hkey, hvalue⟩ := h _ (List.mem_cons_self ..)
    obtain ⟨key', hkeyReads, hkeyReread⟩ := hkey position
    obtain ⟨value', hvalueReads, hvalueReread⟩ := hvalue (position + key.written.length)
    -- The digest of the key that was read is that of the key that was written.
    have hnext : previous.all (· < key'.digest) ∧
        ascending ((some key.digest).toList ++ rest.map fun entry => entry.1.digest) := by
      rw [← hkeyReread.digest_eq]
      cases previous with
      | none => exact ⟨rfl, hascending⟩
      | some digest => simpa [ascending] using hascending
    obtain ⟨pairs, hpairs, hrest, hreads⟩ :=
      ih (fun entry he => h entry (List.mem_cons_of_mem _ he)) _ hnext.2
        (position + key.written.length + value.written.length)
    refine ⟨((key, key'), (value, value')) :: pairs, by rw [List.map_cons, hpairs], ?_, ?_⟩
    · rintro pair hp
      rcases List.mem_cons.1 hp with rfl | hp
      · exact ⟨hkeyReread, hvalueReread⟩
      · exact hrest pair hp
    · rw [List.flatMap_cons, List.append_assoc]
      refine hkeyReads.bind (hvalueReads.bind ?_)
      rw [if_pos hnext.1, ← hkeyReread.digest_eq]
      exact hreads.map _

theorem toNat_toUInt64_lt {n : Int64} (h : ¬n < 0) : n.toUInt64.toNat < 2 ^ 63 := by
  have hint : 0 ≤ n.toInt := by simpa [Int64.lt_iff_toInt_lt] using h
  have hcond : n.toInt = _ := BitVec.toInt_eq_toNat_cond n.toBitVec
  have hnat : n.toUInt64.toNat = n.toBitVec.toNat := rfl
  rw [hnat]
  split at hcond <;> omega

/-- The fields of a valid record are read again. -/
theorem reads_scanRecord {child : Scan Link} {record : StakeRecord Link}
    (h : ∀ link ∈ record.links, child.Rereads link)
    (hvalid : record.validate Link.target? = .ok ()) (position : Nat) :
    ∃ pairs : StakeRecord (Link × Link), pairs.mapLinks Prod.fst = record ∧
      (∀ pair ∈ pairs.links, Link.Reread Link.inline? pair.1 pair.2) ∧
      (scanRecord child).Reads position ((Value.peer record).mapLinks Link.written).writeBody
        (pairs.mapLinks Prod.snd) := by
  have hbalance : ¬record.balance < 0 := ((StakeRecord.validate_eq_ok_iff record).1 hvalid).1
  obtain ⟨hstakes, hmetadata⟩ := StakeRecord.not_leadsToEmptyMap_of_validate hvalid
  obtain ⟨stakes, hstakesEq, hstakesReread, hstakesReads⟩ := reads_scanMapField "stakes"
    (fun l hl => h l (by simp [StakeRecord.links, Option.mem_def.1 hl])) hstakes
    (position + [Kind.address.tag].length + (Count.encode record.controller.number.toNat).length +
      (Signed.encode record.peerShares).length)
  obtain ⟨metadata, hmetadataEq, hmetadataReread, hmetadataReads⟩ :=
    reads_scanMapField "metadata"
      (fun l hl => h l (by simp [StakeRecord.links, Option.mem_def.1 hl])) hmetadata
      (position + [Kind.address.tag].length + (Count.encode record.controller.number.toNat).length +
        (Signed.encode record.peerShares).length +
        (Value.writeOptional (record.stakes.map Link.written)).length +
        (Signed.encode record.delegatedShares).length)
  refine ⟨⟨record.controller, record.peerShares, stakes, record.delegatedShares, metadata,
    record.timestamp, record.balance⟩, ?_, ?_, ?_⟩
  · rw [StakeRecord.mapLinks, hstakesEq, hmetadataEq]
  · intro pair hp
    rcases List.mem_append.1 hp with hp | hp
    · exact hstakesReread pair (by simpa using hp)
    · exact hmetadataReread pair (by simpa using hp)
  · simp only [Value.mapLinks, StakeRecord.mapLinks, Value.writeBody, Value.writeAddress,
      List.append_assoc, List.cons_append]
    have hnumber := record.controller.number.toNat_lt
    have hbits := record.balance.toUInt64.toNat_lt
    rw [← List.singleton_append]
    refine (Scan.reads_byte Kind.address.tag position).bind ?_
    refine Scan.Reads.guard_bind (fun hne => hne rfl) ?_
    refine (Count.reads_encode hnumber _).bind ?_
    refine (Signed.reads_encode record.peerShares _).bind ?_
    refine hstakesReads.bind ?_
    refine (Signed.reads_encode record.delegatedShares _).bind ?_
    refine hmetadataReads.bind ?_
    refine (Signed.reads_encode record.timestamp _).bind ?_
    refine (Count.reads_encode hbits _).bind_last (Scan.Reads.guard_bind ?_ ?_)
    · exact Nat.not_le.2 (toNat_toUInt64_lt hbalance)
    · rw [UInt64.ofNat_toNat, show Int64.ofNat record.balance.toUInt64.toNat = record.balance from
        Int64.ofNat_bitVecToNat record.balance.toBitVec]
      exact Scan.Reads.pure _ _

/-- The value of a cell is read again. -/
theorem reads_scanValue {child : Scan Link} {value : Value Link}
    (h : ∀ link ∈ value.links, child.Rereads link) (hsound : value.Sound) (position : Nat) :
    ∃ pairs : Value (Link × Link), pairs.mapLinks Prod.fst = value ∧
      (∀ pair ∈ pairs.links, Link.Reread Link.inline? pair.1 pair.2) ∧
      (scanValue child value.kind).Reads position (value.mapLinks Link.written).writeBody
        (pairs.mapLinks Prod.snd) := by
  obtain ⟨hvalid, hfits⟩ := hsound
  obtain ⟨hcanonical, hrecord⟩ := (Value.validate_eq_ok_iff value).1 hvalid
  cases value with
  | integer n =>
    exact ⟨.integer n, rfl, by simp [Value.links], (Signed.reads_encode n position).map _⟩
  | address a =>
    refine ⟨.address a, rfl, by simp [Value.links], ?_⟩
    have hreads := (Count.reads_encode a.number.toNat_lt position).map fun n =>
      (Value.address ⟨UInt64.ofNat n⟩ : Value Link)
    rwa [UInt64.ofNat_toNat] at hreads
  | text s =>
    refine ⟨.text s, rfl, by simp [Value.links], ?_⟩
    exact Scan.reads_scanLength hfits (by simp) ((Scan.reads_text s _).map _)
  | blob bytes =>
    refine ⟨.blob bytes, rfl, by simp [Value.links], ?_⟩
    exact Scan.reads_scanLength hfits (by simp) ((Scan.reads_slice bytes _).map _)
  | keyword name =>
    refine ⟨.keyword name, rfl, by simp [Value.links], ?_⟩
    simp only [Value.isCanonical, Bool.and_eq_true, decide_eq_true_eq] at hcanonical
    obtain ⟨hpositive, hle⟩ := hcanonical
    have hsize : (UInt8.ofNat (Bytes.ofText name).length).toNat = (Bytes.ofText name).length :=
      UInt8.toNat_ofNat_of_lt' (Nat.lt_of_le_of_lt hle (by decide))
    refine Scan.Reads.map (f := Value.keyword) ?_
    refine Scan.reads_byte_bind ?_
    dsimp only
    rw [hsize, if_neg (by omega)]
    exact Scan.reads_text name _
  | vector items =>
    obtain ⟨pairs, hpairs, hreread, hreads⟩ :=
      reads_many h (position + (Count.encode items.length).length)
    refine ⟨.vector pairs, congrArg Value.vector hpairs, hreread, ?_⟩
    simp only [Value.mapLinks, Value.writeBody, Bytes.concat_eq, List.length_map]
    refine Scan.reads_scanLength hfits ?_ (hreads.map _)
    simpa using Link.length_le_written items
  | map entries =>
    have hentries : ∀ entry ∈ entries, child.Rereads entry.1 ∧ child.Rereads entry.2 :=
      fun entry he => ⟨h entry.1 (List.mem_flatMap.2 ⟨entry, he, by simp⟩),
        h entry.2 (List.mem_flatMap.2 ⟨entry, he, by simp⟩)⟩
    obtain ⟨pairs, hpairs, hreread, hreads⟩ := reads_scanEntries hentries none hcanonical
      (position + (Count.encode entries.length).length)
    refine ⟨.map pairs, congrArg Value.map hpairs, ?_, ?_⟩
    · intro pair hp
      obtain ⟨both, hboth, hp⟩ := List.mem_flatMap.1 hp
      rcases List.mem_cons.1 hp with rfl | hp
      · exact (hreread both hboth).1
      · rw [List.mem_singleton.1 hp]
        exact (hreread both hboth).2
    · simp only [Value.mapLinks, Value.writeBody, List.length_map, List.flatMap_map]
      exact Scan.reads_scanLength hfits (Link.length_le_writtenEntries entries) (hreads.map _)
  | peer record =>
    obtain ⟨pairs, hpairs, hreread, hreads⟩ := reads_scanRecord h (hrecord record rfl) position
    exact ⟨.peer pairs, congrArg Value.peer hpairs, hreread, hreads.map _⟩

theorem reads_scanKind (kind : Kind) (position : Nat) :
    scanKind.Reads position [kind.tag] kind := by
  refine (Scan.reads_byte kind.tag position).bind_last ?_
  rw [Kind.ofTag?_tag]
  exact Scan.Reads.pure _ _

/-- The encoding of a sound cell is read, at any place and whatever follows. -/
theorem reads_scan (base : Label) {cell : Cell} (hsound : cell.Sound) {depth : Nat}
    (hdepth : cell.encode.length ≤ depth) (position : Nat) :
    ∃ cell', (scan base depth).Reads position cell.encode cell' ∧
      cell.Reread Link.inline? cell' := by
  induction depth generalizing cell position with
  | zero =>
    rw [Cell.encode_eq, List.length_cons] at hdepth
    omega
  | succ depth ih =>
    -- A child's encoding is shorter by the tag at least, so the depth suffices for it.
    have hchild : ∀ link ∈ cell.links, (scanChild base (scan base depth)).Rereads link := by
      intro link hlink
      refine rereads_scanChild fun t ht position => ih (hsound.target hlink ?_) ?_ position
      · exact Link.target?_of_inline ht
      · have := Cell.encode_length_lt hlink ht
        omega
    obtain ⟨pairs, hpairs, hreread, hreads⟩ := reads_scanValue hchild hsound.value (position + 1)
    refine ⟨.mk (base + position) (pairs.mapLinks Prod.snd), ?_, pairs, hpairs.symm, rfl, hreread⟩
    -- The value that was read holds less than the one that was written, and passes the same checks.
    have hvalid : (pairs.mapLinks Prod.snd).validate Link.target? = .ok () :=
      Value.validate_of_alike Link.shows_reread (fun _ _ => Link.Reread.digest_eq)
        ⟨pairs, hpairs.symm, rfl, hreread⟩ hsound.value.valid
    rw [Cell.encode_eq, scan]
    refine Scan.Reads.here ?_
    show Scan.Reads _ position
      ([cell.value.kind.tag] ++ (cell.value.mapLinks Link.written).writeBody) _
    refine (reads_scanKind _ position).bind (hreads.bind_last ?_)
    rw [hvalid]
    exact Scan.Reads.pure _ _

end Cell

end CellGraph
