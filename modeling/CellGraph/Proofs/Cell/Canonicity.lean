import CellGraph.Cell.Decoding
import CellGraph.Proofs.Cell.Sound
import CellGraph.Proofs.Computation.Run
import CellGraph.Proofs.Reader.Quantity

/-!
# Canonical uniqueness

What is read is the encoding of the cell that it gives: the decoder accepts no other form of a
value. So a cell has one encoding, and the bytes that were read may be kept as the encoding of the
cell.

* `Laid`: where links have been read, and what has been checked of them;
* `Cell.takes_scan`: what a scan of a cell takes;
* `Cell.encode_of_decode`: a decoded buffer is the encoding of the cell it gives.
-/

namespace CellGraph

open Quantity

/-! ### Links in the order of their labels -/

/--
Links that were read from `size` bytes at a position: their labels ascend, and every cell held by
one of them is written inline, has its label and is sound.
-/
structure Laid (base : Label) (position size : Nat) (links : List Link) : Prop where
  ascends : links.Pairwise fun a b => a.label < b.label
  within : ∀ link ∈ links, base + position ≤ link.label ∧ link.label < base + position + size
  inline : ∀ link ∈ links, ∀ t, link.target? = some t → link.inline? = some t
  label : ∀ link ∈ links, ∀ t, link.target? = some t → t.label = link.label
  sound : ∀ link ∈ links, ∀ t, link.target? = some t → t.value.Sound

namespace Laid

variable {base : Label} {position size more : Nat} {links others : List Link}

theorem nil : Laid base position size [] :=
  ⟨.nil, by simp, by simp, by simp, by simp⟩

theorem append (h : Laid base position size links) (h' : Laid base (position + size) more others) :
    Laid base position (size + more) (links ++ others) := by
  constructor
  · refine List.pairwise_append.2 ⟨h.ascends, h'.ascends, fun link hlink other hother => ?_⟩
    have hbelow := h.within link hlink
    have habove := h'.within other hother
    grind
  · intro link hlink
    rcases List.mem_append.1 hlink with hlink | hlink
    · have := h.within link hlink
      grind
    · have := h'.within link hlink
      grind
  · intro link hlink
    rcases List.mem_append.1 hlink with hlink | hlink
    · exact h.inline link hlink
    · exact h'.inline link hlink
  · intro link hlink
    rcases List.mem_append.1 hlink with hlink | hlink
    · exact h.label link hlink
    · exact h'.label link hlink
  · intro link hlink
    rcases List.mem_append.1 hlink with hlink | hlink
    · exact h.sound link hlink
    · exact h'.sound link hlink

theorem label_inj (h : Laid base position size links) {a b : Link} (ha : a ∈ links)
    (hb : b ∈ links) (heq : a.label = b.label) : a = b := by
  have hnodup : (links.map Link.label).Nodup :=
    List.pairwise_map.2 (h.ascends.imp fun hlt => Nat.ne_of_lt hlt)
  exact List.inj_on_of_nodup_map hnodup ha hb heq

/-- Bytes before and after that hold no links. -/
theorem widen {position' size' : Nat} (h : Laid base position' size' links)
    (hlow : position ≤ position') (hhigh : position' + size' ≤ position + size) :
    Laid base position size links := by
  refine ⟨h.ascends, fun link hlink => ?_, h.inline, h.label, h.sound⟩
  have := h.within link hlink
  grind

end Laid

/-- What is known of a link that was read from these bytes. -/
structure Link.ReadFrom (base : Label) (position : Nat) (bytes : Bytes) (link : Link) : Prop where
  written : link.written = bytes
  laid : Laid base position bytes.length link.everyLink

/-- What is known of a value that was read from these bytes, which follow its tag. -/
structure Value.ReadFrom (base : Label) (position : Nat) (bytes : Bytes) (value : Value Link) :
    Prop where
  written : (value.mapLinks Link.written).writeBody = bytes
  fits : value.Fits
  laid : Laid base position bytes.length (value.links.flatMap Link.everyLink)

/-- What is known of a cell that was read from these bytes. -/
structure Cell.ReadFrom (base : Label) (position : Nat) (bytes : Bytes) (cell : Cell) : Prop where
  encode : cell.encode = bytes
  sound : cell.value.Sound
  label : cell.label = base + position
  laid : Laid base (position + 1) (bytes.length - 1) cell.everyLink

/-! ### Children -/

theorem Laid.soft {base position size : Nat} {label : Label} {digest : Digest}
    (hlow : base + position ≤ label) (hhigh : label < base + position + size) :
    Laid base position size [Link.soft label digest] := by
  refine ⟨List.pairwise_singleton .., fun link hlink => ?_, fun link hlink t ht => ?_,
    fun link hlink t ht => ?_, fun link hlink t ht => ?_⟩ <;> cases List.mem_singleton.1 hlink
  · exact ⟨hlow, hhigh⟩
  · cases ht
  · cases ht
  · cases ht

theorem Laid.direct {base : Label} {position : Nat} {bytes : Bytes} {target : Cell}
    (h : Cell.ReadFrom base position bytes target) (hsmall : bytes.length ≤ maxEmbedded)
    (hne : bytes ≠ []) :
    Laid base position bytes.length (.direct (base + position) target :: target.everyLink) := by
  have hlength := List.length_pos_iff.2 hne
  have hinline : target.isSmall := (Cell.isSmall_iff target).2 (h.encode ▸ hsmall)
  constructor
  · refine List.pairwise_cons.2 ⟨fun link hlink => ?_, h.laid.ascends⟩
    have := h.laid.within link hlink
    grind [Link.label]
  · intro link hlink
    rcases List.mem_cons.1 hlink with rfl | hlink
    · grind [Link.label]
    · have := h.laid.within link hlink
      grind
  · intro link hlink t ht
    rcases List.mem_cons.1 hlink with rfl | hlink
    · cases ht
      exact if_pos hinline
    · exact h.laid.inline link hlink t ht
  · intro link hlink t ht
    rcases List.mem_cons.1 hlink with rfl | hlink
    · cases ht
      exact h.label
    · exact h.laid.label link hlink t ht
  · intro link hlink t ht
    rcases List.mem_cons.1 hlink with rfl | hlink
    · cases ht
      exact h.sound
    · exact h.laid.sound link hlink t ht

theorem Link.ReadFrom.soft (base : Label) (position : Nat) (digest : Digest) :
    ReadFrom base position (Tag.link :: digest.bytes) (.soft (base + position) digest) := by
  have hlength := digest.length_bytes
  exact ⟨rfl, Laid.soft (Nat.le_refl _) (by grind)⟩

theorem Link.ReadFrom.direct {base : Label} {position : Nat} {bytes : Bytes} {target : Cell}
    (h : Cell.ReadFrom base position bytes target) (hsmall : bytes.length ≤ maxEmbedded)
    (hne : bytes ≠ []) : ReadFrom base position bytes (.direct (base + position) target) := by
  refine ⟨?_, Laid.direct h hsmall hne⟩
  rw [Link.written, h.encode, writtenChild, if_pos hsmall]

namespace Cell

variable {base : Label}

/-- Reading a child takes its written form. -/
theorem takes_scanChild {scan : Scan Cell} (h : scan.Takes (Cell.ReadFrom base)) :
    (scanChild base scan).Takes (Link.ReadFrom base) := by
  unfold scanChild
  refine (Scan.takes_position.bind (S := fun start position bytes link =>
    start = position → Link.ReadFrom base position bytes link)
      fun start => Scan.Takes.peek fun tag => ?_).mono ?_
  · refine Scan.Takes.guard fun habsent => ?_
    by_cases hlink : tag = Tag.link
    · rw [if_pos hlink]
      refine (Scan.takes_discard_byte.bind (S := fun _ _ bytes link =>
        ∃ d : Digest, bytes = d.bytes ∧ link = .soft (base + start) d) fun _ =>
          Scan.takes_digest.map fun _ _ d hd => ⟨d, hd, rfl⟩).mono ?_
      rintro position bytes link ⟨_, first, second, rfl, hone, d, rfl, rfl⟩
      obtain ⟨b, rfl⟩ := List.length_eq_one_iff.1 hone
      refine ⟨by simp, fun hhead hstart => ?_⟩
      cases hhead
      subst hstart
      exact hlink ▸ Link.ReadFrom.soft base start d
    · rw [if_neg hlink]
      refine (h.bind (S := fun target position bytes link =>
        bytes = [] ∧ position - start ≤ maxEmbedded ∧ link = .direct (base + start) target)
          fun target => (Scan.takes_position.bind fun stop => Scan.Takes.guard
            (R := fun _ bytes link =>
              bytes = [] ∧ stop - start ≤ maxEmbedded ∧ link = .direct (base + start) target)
              fun hsmall => Scan.Takes.pure fun _ => ⟨rfl, by omega, rfl⟩).mono ?_).mono ?_
      · rintro position bytes link ⟨stop, first, second, rfl, ⟨rfl, rfl⟩, rfl, hsmall, rfl⟩
        exact ⟨rfl, hsmall, rfl⟩
      · rintro position bytes link ⟨target, first, second, rfl, htarget, rfl, hsmall, rfl⟩
        rw [List.append_nil]
        have hne : first ≠ [] := by
          rw [← htarget.encode, Cell.encode_eq]
          exact List.cons_ne_nil _ _
        refine ⟨hne, fun _ hstart => ?_⟩
        subst hstart
        rw [Nat.add_sub_cancel_left] at hsmall
        exact Link.ReadFrom.direct htarget hsmall hne
  · rintro position bytes link ⟨_, first, second, rfl, ⟨rfl, rfl⟩, h⟩
    simpa using h rfl

/-- Reading an optional child takes its written form. -/
theorem takes_scanOptional {child : Scan Link} (h : child.Takes (Link.ReadFrom base)) :
    (scanOptional child).Takes fun position bytes link =>
      Value.writeOptional (link.map Link.written) = bytes ∧
        Laid base position bytes.length (link.toList.flatMap Link.everyLink) := by
  unfold scanOptional
  refine Scan.Takes.peek fun tag => ?_
  by_cases habsent : tag = Tag.absent
  · rw [if_pos habsent]
    refine Scan.takes_discard_byte.map fun position bytes _ hone => ?_
    obtain ⟨b, rfl⟩ := List.length_eq_one_iff.1 hone
    refine ⟨by simp, fun hhead => ⟨?_, Laid.nil⟩⟩
    cases hhead
    rw [habsent]
    rfl
  · rw [if_neg habsent]
    refine h.map fun position bytes link hlink => ?_
    refine ⟨hlink.written ▸ link.written_ne_nil, fun _ => ⟨hlink.written, ?_⟩⟩
    simpa using hlink.laid

/-- Reading children in a row takes their written forms. -/
theorem takes_many {child : Scan Link} (h : child.Takes (Link.ReadFrom base)) (n : Nat) :
    (Scan.many child n).Takes fun position bytes items =>
      items.length = n ∧ (items.map Link.written).flatten = bytes ∧
        Laid base position bytes.length (items.flatMap Link.everyLink) := by
  induction n with
  | zero => exact Scan.Takes.pure fun _ => ⟨rfl, rfl, Laid.nil⟩
  | succ n ih =>
    refine (h.bind fun first => ih.map (S := fun position bytes items => ∃ rest,
      items = first :: rest ∧ rest.length = n ∧ (rest.map Link.written).flatten = bytes ∧
        Laid base position bytes.length (rest.flatMap Link.everyLink))
      fun _ _ rest hrest => ⟨rest, rfl, hrest⟩).mono ?_
    rintro position _ _ ⟨first, bytes, more, rfl, hfirst, rest, rfl, rfl, rfl, hlaid⟩
    refine ⟨rfl, by simp [hfirst.written], ?_⟩
    rw [List.length_append, List.flatMap_cons]
    exact hfirst.laid.append hlaid

theorem takes_scanMapField {child : Scan Link} (h : child.Takes (Link.ReadFrom base))
    (field : String) :
    (scanMapField child field).Takes fun position bytes link =>
      Value.writeOptional (link.map Link.written) = bytes ∧
        Laid base position bytes.length (link.toList.flatMap Link.everyLink) := by
  unfold scanMapField
  refine ((takes_scanOptional h).bind (S := fun link _ bytes found => found = link ∧ bytes = [])
    fun link => Scan.Takes.guard fun _ => Scan.Takes.pure fun _ => ⟨rfl, rfl⟩).mono ?_
  rintro position _ link ⟨_, bytes, _, rfl, hlink, rfl, rfl⟩
  simpa using hlink

/-- Reading the entries of a map takes their written forms. -/
theorem takes_scanEntries {child : Scan Link} (h : child.Takes (Link.ReadFrom base)) (n : Nat)
    (previous : Option Digest) :
    (scanEntries child previous n).Takes fun position bytes entries =>
      entries.length = n ∧
        (entries.flatMap fun entry => entry.1.written ++ entry.2.written) = bytes ∧
        Laid base position bytes.length
          ((entries.flatMap fun entry => [entry.1, entry.2]).flatMap Link.everyLink) := by
  induction n generalizing previous with
  | zero => exact Scan.Takes.pure fun _ => ⟨rfl, rfl, Laid.nil⟩
  | succ n ih =>
    refine (h.bind fun key => h.bind fun value => Scan.Takes.ite
      ((ih (some key.digest)).map (S := fun position bytes entries => ∃ rest,
        entries = (key, value) :: rest ∧ rest.length = n ∧
        (rest.flatMap fun entry => entry.1.written ++ entry.2.written) = bytes ∧
        Laid base position bytes.length
          ((rest.flatMap fun entry => [entry.1, entry.2]).flatMap Link.everyLink))
        fun _ _ rest hrest => ⟨rest, rfl, hrest⟩) (Scan.Takes.fail _)).mono ?_
    rintro position _ _ ⟨key, first, _, rfl, hkey, value, second, more, rfl, hvalue, rest, rfl, rfl,
      rfl, hlaid⟩
    refine ⟨rfl, by simp [hkey.written, hvalue.written], ?_⟩
    simp only [List.length_append, List.flatMap_cons, List.cons_append,
      List.nil_append]
    exact hkey.laid.append (hvalue.laid.append hlaid)

/-- Reading a keyword's name takes its length and the name. -/
theorem takes_scanKeyword :
    scanKeyword.Takes fun _ bytes name =>
      UInt8.ofNat (Bytes.ofText name).length :: Bytes.ofText name = bytes := by
  unfold scanKeyword
  refine (Scan.takes_byte.bind fun size => Scan.Takes.guard fun _ =>
    Scan.takes_text size.toNat).mono ?_
  rintro position _ name ⟨size, _, _, rfl, rfl, rfl, hsize⟩
  rw [hsize, UInt8.ofNat_toNat]
  rfl

theorem takes_scanLength (itemSize : Nat) :
    (Count.scanLength itemSize).Takes fun _ bytes n => bytes = Count.encode n ∧ n < 2 ^ 64 := by
  unfold Count.scanLength
  refine (Count.takes_scan.bind (S := fun n _ bytes found => found = n ∧ bytes = []) fun n =>
    (Scan.takes_remaining.bind (S := fun _ _ bytes found => found = n ∧ bytes = []) fun left =>
      Scan.Takes.guard fun _ => Scan.Takes.pure fun _ => ⟨rfl, rfl⟩).mono ?_).mono ?_
  · rintro position _ found ⟨_, _, _, rfl, rfl, rfl, rfl⟩
    exact ⟨rfl, rfl⟩
  · rintro position _ n ⟨_, bytes, _, rfl, hn, rfl, rfl⟩
    simpa using hn

/-- Reading the fields of a stake record takes their written forms. -/
theorem takes_scanRecord {child : Scan Link} (h : child.Takes (Link.ReadFrom base)) :
    (scanRecord child).Takes fun position bytes record =>
      Value.ReadFrom base position bytes (.peer record) := by
  unfold scanRecord
  refine (Scan.takes_byte.bind fun tag => Scan.Takes.guard_bind fun htag =>
    Count.takes_scan.bind fun controller => Signed.takes_scan.bind fun peerShares =>
    (takes_scanMapField h "stakes").bind fun stakes => Signed.takes_scan.bind fun delegatedShares =>
    (takes_scanMapField h "metadata").bind fun metadata => Signed.takes_scan.bind fun timestamp =>
    Count.takes_scan.bind (S := fun balance _ bytes (record : StakeRecord Link) =>
      bytes = [] ∧ balance < 2 ^ 63 ∧ tag = Kind.address.tag ∧
        record = ⟨⟨UInt64.ofNat controller⟩, peerShares, stakes, delegatedShares, metadata,
          timestamp, Int64.ofNat balance⟩) fun balance =>
      Scan.Takes.guard_bind fun hbalance => Scan.Takes.pure fun _ =>
        ⟨rfl, by omega, by simpa using htag, rfl⟩).mono ?_
  rintro position _ record ⟨tag, _, _, rfl, rfl, controller, first, _, rfl, ⟨hfirst, hcontroller⟩,
    peerShares, _, _, rfl, rfl, stakes, stakesBytes, _, rfl, hstakes, delegatedShares, _, _,
    rfl, rfl, metadata, metadataBytes, _, rfl, hmetadata, timestamp, _, _, rfl, rfl, balance,
    last, _, rfl, ⟨hlast, -⟩, rfl, hbalance, rfl, rfl⟩
  constructor
  · -- The two counts were checked on the way, so that none of their bits was lost.
    have hnumber : (UInt64.ofNat controller).toNat = controller :=
      UInt64.toNat_ofNat_of_lt' hcontroller
    have hbits : (Int64.ofNat balance).toUInt64.toNat = balance := by
      rw [Int64.toUInt64_ofNat', UInt64.toNat_ofNat_of_lt' (hbalance.trans (by decide))]
    simp only [Value.mapLinks, StakeRecord.mapLinks, Value.writeBody, Value.writeAddress, hnumber,
      hbits, hfirst, hlast, hstakes.1, hmetadata.1, List.append_assoc, List.cons_append,
      List.nil_append, List.append_nil]
  · trivial
  · -- The maps lie between the numbers: the first one ends before the second one begins.
    have hstakes' := hstakes.2
    have hmetadata' := hmetadata.2
    rw [Value.links, StakeRecord.links, List.flatMap_append]
    simp only [List.length_append, List.length_singleton, List.length_nil] at *
    generalize (Signed.encode peerShares).length = a at *
    generalize (Signed.encode delegatedShares).length = b at *
    generalize (Signed.encode timestamp).length = c at *
    have h₁ : Laid base position (1 + first.length + a + stakesBytes.length + b)
        (stakes.toList.flatMap Link.everyLink) := hstakes'.widen (by omega) (by omega)
    have h₂ : Laid base (position + (1 + first.length + a + stakesBytes.length + b))
        (metadataBytes.length + c + last.length) (metadata.toList.flatMap Link.everyLink) :=
      hmetadata'.widen (by omega) (by omega)
    exact (h₁.append h₂).widen (Nat.le_refl _) (by omega)

/-- Reading the value of a cell of some kind takes the written form of that value. -/
theorem takes_scanValue {child : Scan Link} (h : child.Takes (Link.ReadFrom base)) (kind : Kind) :
    (scanValue child kind).Takes fun position bytes value =>
      value.kind = kind ∧ Value.ReadFrom base position bytes value := by
  cases kind with
  | integer =>
    refine Signed.takes_scan.map fun _ _ n hn => ⟨rfl, ?_, trivial, Laid.nil⟩
    exact hn.symm
  | address =>
    refine Count.takes_scan.map fun _ _ n hn => ⟨rfl, ?_, trivial, Laid.nil⟩
    rw [hn.1, Value.mapLinks, Value.writeBody, UInt64.toNat_ofNat_of_lt' hn.2]
  | text =>
    refine ((takes_scanLength 1).bind fun n => (Scan.takes_text n).map (S := fun _ bytes value =>
      bytes.length = n ∧ ∃ s, bytes = Bytes.ofText s ∧ value = .text s)
      fun _ _ s hs => ⟨hs.2, s, hs.1, rfl⟩).mono ?_
    rintro position _ _ ⟨_, first, _, rfl, hfirst, rfl, s, rfl, rfl⟩
    exact ⟨rfl, by rw [hfirst.1]; rfl, hfirst.2, Laid.nil⟩
  | blob =>
    refine ((takes_scanLength 1).bind fun n => (Scan.takes_slice n).map (S := fun _ bytes value =>
      bytes.length = n ∧ value = .blob bytes) fun _ _ bytes hs => ⟨hs.2, hs.1 ▸ rfl⟩).mono ?_
    rintro position _ _ ⟨_, first, bytes, rfl, hfirst, rfl, rfl⟩
    exact ⟨rfl, by rw [hfirst.1]; rfl, hfirst.2, Laid.nil⟩
  | keyword => exact takes_scanKeyword.map fun _ _ name hname =>
      ⟨rfl, hname, trivial, Laid.nil⟩
  | vector =>
    refine ((takes_scanLength 1).bind fun n => (takes_many h n).map
      (S := fun position bytes value => ∃ items, value = .vector items ∧ items.length = n ∧
        (items.map Link.written).flatten = bytes ∧
        Laid base position bytes.length (items.flatMap Link.everyLink))
      fun _ _ items hitems => ⟨items, rfl, hitems⟩).mono ?_
    rintro position _ _ ⟨_, first, _, rfl, hfirst, items, rfl, rfl, rfl, hlaid⟩
    refine ⟨rfl, ?_, hfirst.2, hlaid.widen (by omega) (by rw [List.length_append]; omega)⟩
    rw [hfirst.1, Value.mapLinks, Value.writeBody, List.length_map, Bytes.concat_eq]
  | map =>
    refine ((takes_scanLength 2).bind fun n => (takes_scanEntries h n none).map
      (S := fun position bytes value => ∃ entries, value = .map entries ∧ entries.length = n ∧
        (entries.flatMap fun entry => entry.1.written ++ entry.2.written) = bytes ∧
        Laid base position bytes.length ((Value.map entries).links.flatMap Link.everyLink))
      fun _ _ entries hentries => ⟨entries, rfl, hentries⟩).mono ?_
    rintro position _ _ ⟨_, first, _, rfl, hfirst, entries, rfl, rfl, rfl, hlaid⟩
    refine ⟨rfl, ?_, hfirst.2, hlaid.widen (by omega) (by rw [List.length_append]; omega)⟩
    rw [hfirst.1, Value.mapLinks, Value.writeBody, List.length_map, List.flatMap_map]
  | peer => exact (takes_scanRecord h).map fun _ _ record hrecord => ⟨rfl, hrecord⟩

theorem takes_scanKind : scanKind.Takes fun _ bytes kind => bytes = [kind.tag] := by
  unfold scanKind
  refine (Scan.takes_byte.bind (S := fun tag _ bytes kind => bytes = [] ∧ tag = kind.tag)
    fun tag => ?_).mono ?_
  · cases h : Kind.ofTag? tag with
    | some kind => exact Scan.Takes.pure fun _ => ⟨rfl, Kind.tag_of_ofTag? h⟩
    | none => exact Scan.Takes.guard fun _ => Scan.Takes.guard fun _ => Scan.Takes.fail _
  · rintro position _ kind ⟨tag, _, _, rfl, rfl, rfl, rfl⟩
    rfl

/-- Reading a cell takes its encoding. -/
theorem takes_scan (depth : Nat) : (scan base depth).Takes (Cell.ReadFrom base) := by
  induction depth with
  | zero => exact Scan.Takes.fail _
  | succ depth ih =>
    rw [scan]
    refine (Scan.takes_position.bind fun start => takes_scanKind.bind fun kind =>
      (takes_scanValue (takes_scanChild ih) kind).bind (S := fun value _ bytes cell =>
        bytes = [] ∧ value.validate Link.target? = .ok () ∧ cell = .mk (base + start) value)
        fun value => ?_).mono ?_
    · cases h : value.validate Link.target? with
      | ok _ => exact Scan.Takes.pure fun _ => ⟨rfl, rfl, rfl⟩
      | error cause => exact Scan.Takes.throw _
    · rintro position _ cell ⟨start, _, _, rfl, ⟨rfl, rfl⟩, _, _, bytes, rfl, rfl, value, _, _, rfl,
        ⟨rfl, hvalue⟩, rfl, hvalid, rfl⟩
      refine ⟨?_, ⟨hvalid, hvalue.fits⟩, rfl, ?_⟩
      · rw [Cell.encode_eq, Cell.value, hvalue.written]
        simp
      · rw [Cell.everyLink_mk]
        simpa using hvalue.laid

/-! ### Buffers -/

/-- Reading runs the scan of a cell, and notes what it makes known. -/
theorem read_eq {bytes : Bytes} {offset : Nat} (h : offset ≤ bytes.length) (known : Knowledge) :
    (read bytes offset).run.run known =
      match (scan known.next (bytes.length + 1)).runAt ⟨bytes.drop offset, offset⟩ with
      | (.ok cell, after) => (.ok (cell, after.position - offset),
          (cell.noteRead.run { known with next := known.next + after.position }).2)
      | (.error fault, _) => (.error fault, known) := by
  have hle : ¬bytes.length < offset := by omega
  unfold read
  rw [if_neg hle, run_run_bind, run_run_get]
  dsimp only
  rcases (scan known.next (bytes.length + 1)).runAt ⟨bytes.drop offset, offset⟩
    with ⟨_ | cell, after⟩
  · exact run_run_throw ..
  · simp only [run_run_bind, run_run_modify, run_run_liftM, run_run_pure]

theorem decode_eq (bytes : Bytes) (known : Knowledge) :
    (decode bytes).run.run known =
      match (read bytes 0).run.run known with
      | (.ok (cell, used), known') =>
        (if used = bytes.length then .ok cell
          else .error (.badFormat (.trailingBytes (bytes.length - used))), known')
      | (.error fault, known') => (.error fault, known') := by
  rw [decode, run_run_bind]
  rcases (read bytes 0).run.run known with ⟨_ | ⟨cell, used⟩, known'⟩
  · rfl
  · by_cases h : used = bytes.length
    · simp only [if_pos h, run_run_pure]
    · simp only [if_neg h, run_run_throw]

/-- What has been read is a cell's encoding, right after the offset. -/
theorem readFrom_of_read {bytes : Bytes} {offset used : Nat} {known : Knowledge} {cell : Cell}
    (hle : offset ≤ bytes.length) (h : ((read bytes offset).run.run known).1 = .ok (cell, used)) :
    ∃ part rest, bytes.drop offset = part ++ rest ∧ used = part.length ∧
      Cell.ReadFrom known.next offset part cell ∧
      ((read bytes offset).run.run known).2 =
        (cell.noteRead.run { known with next := known.next + (offset + used) }).2 := by
  rw [read_eq hle] at h ⊢
  rcases hscan : (scan known.next (bytes.length + 1)).runAt ⟨bytes.drop offset, offset⟩ with
    ⟨fault | found, after⟩ <;> rw [hscan] at h <;> cases h
  obtain ⟨part, hrest, hposition, hpart⟩ := takes_scan _ hscan
  have hused : after.position - offset = part.length := by
    rw [hposition]
    exact Nat.add_sub_cancel_left ..
  refine ⟨part, after.rest, hrest, hused, hpart, ?_⟩
  dsimp only at hposition ⊢
  rw [hused, hposition]

/-- A failed reading makes nothing known. -/
theorem read_error {bytes : Bytes} {offset : Nat} {known : Knowledge} {fault : Fault}
    (hle : offset ≤ bytes.length) (h : ((read bytes offset).run.run known).1 = .error fault) :
    ((read bytes offset).run.run known).2 = known := by
  rw [read_eq hle] at h ⊢
  rcases hscan : (scan known.next (bytes.length + 1)).runAt ⟨bytes.drop offset, offset⟩ with
    ⟨_ | found, after⟩
  · rfl
  · rw [hscan] at h
    cases h

/-- What has been decoded is the encoding of the cell that it gives. -/
theorem readFrom_of_decode {bytes : Bytes} {known : Knowledge} {cell : Cell}
    (h : ((decode bytes).run.run known).1 = .ok cell) :
    Cell.ReadFrom known.next 0 bytes cell ∧
      ((decode bytes).run.run known).2 =
        (cell.noteRead.run { known with next := known.next + bytes.length }).2 := by
  rw [decode_eq] at h ⊢
  rcases hread : (read bytes 0).run.run known with ⟨fault | ⟨found, used⟩, known'⟩ <;>
    rw [hread] at h <;> dsimp only at h
  · cases h
  · by_cases hused : used = bytes.length
    · rw [if_pos hused] at h
      cases h
      obtain ⟨part, rest, hrest, hpart, hfrom, hknown⟩ :=
        readFrom_of_read (Nat.zero_le _) (congrArg Prod.fst hread)
      rw [List.drop_zero] at hrest
      -- The cell took all bytes, so nothing is left after it.
      have hnil : rest = [] := by
        have hlength := congrArg List.length hrest
        rw [List.length_append, ← hpart, hused] at hlength
        exact List.length_eq_zero_iff.1 (by omega)
      rw [hnil, List.append_nil] at hrest
      rw [hread, hused, Nat.zero_add] at hknown
      exact ⟨hrest ▸ hfrom, hknown⟩
    · rw [if_neg hused] at h
      cases h

/--
The decoder accepts canonical encodings only. A decoded buffer is what the cell's value is written
as, every cell inline in it takes at most `maxEmbedded` bytes of it, and no other buffer gives a
cell whose value has the same written form.
-/
theorem decode_canonical {bytes : Bytes} {known : Knowledge} {cell : Cell}
    (h : ((decode bytes).run.run known).1 = .ok cell) :
    cell.encode = bytes ∧
      (∀ link ∈ cell.everyLink, ∀ t, link.target? = some t →
        t.encode <:+: bytes ∧ t.encode.length ≤ maxEmbedded) ∧
      ∀ (other : Bytes) (known' : Knowledge) (cell' : Cell),
        ((decode other).run.run known').1 = .ok cell' →
        cell'.value.mapLinks Link.written = cell.value.mapLinks Link.written → other = bytes := by
  obtain ⟨hfrom, -⟩ := readFrom_of_decode h
  refine ⟨hfrom.encode, fun link hlink t ht => ?_, fun other known' cell' h' hvalue => ?_⟩
  · have hinline := hfrom.laid.inline link hlink t ht
    exact ⟨hfrom.encode ▸ encode_infix hfrom.laid.inline link hlink t ht,
      (Link.written_of_inline hinline).2⟩
  · obtain ⟨hfrom', -⟩ := readFrom_of_decode h'
    rw [← hfrom.encode, ← hfrom'.encode, encode_eq, encode_eq, hvalue,
      ← Value.kind_mapLinks Link.written, hvalue, Value.kind_mapLinks]

/-- A vector that holds an integer inline. -/
theorem decode_canonical_vector :
    ((decode [0x80, 1, 0x10, 5]).run.run {}).1 =
        .ok (.mk 0 (.vector [.direct 2 (.mk 2 (.integer 5))])) ∧
      Cell.encode (.mk 0 (.vector [.direct 2 (.mk 2 (.integer 5))])) = [0x80, 1, 0x10, 5] :=
  have h : ((decode [0x80, 1, 0x10, 5]).run.run {}).1 =
      .ok (.mk 0 (.vector [.direct 2 (.mk 2 (.integer 5))])) := by rfl
  ⟨h, (decode_canonical h).1⟩

end Cell

end CellGraph
