import CellGraph.Proofs.Cell.ReadBack

/-!
# Unique parsing

An encoding says where each of its parts begins and ends, so the children that are written in it can
be told from it. Two cells with one encoding have values that differ in their links only, and links
in the same place are written alike: both inline, with targets that have one encoding again, or both
as one digest.

* `Value.Alike.of_mapLinks_eq`: values that become equal once their links are replaced;
* `Cell.alike_of_encode_eq`: two cells with one encoding;
* `Link.twins`: two links that are written alike.
-/

namespace CellGraph

variable {ρ σ τ : Type}

/-! ### Values with equal results -/

theorem exists_pairs_of_map_eq {f : ρ → τ} {g : σ → τ} {first : List ρ} {second : List σ}
    (h : first.map f = second.map g) :
    ∃ pairs : List (ρ × σ), pairs.map Prod.fst = first ∧ pairs.map Prod.snd = second ∧
      ∀ pair ∈ pairs, f pair.1 = g pair.2 := by
  induction first generalizing second with
  | nil => exact ⟨[], rfl, (List.map_eq_nil_iff.1 h.symm).symm, nofun⟩
  | cons x first ih =>
    obtain ⟨y, rest, rfl, hy, hrest⟩ := List.map_eq_cons_iff.1 h.symm
    obtain ⟨pairs, rfl, rfl, hpairs⟩ := ih hrest.symm
    refine ⟨(x, y) :: pairs, rfl, rfl, fun pair hpair => ?_⟩
    rcases List.mem_cons.1 hpair with rfl | hpair
    · exact hy.symm
    · exact hpairs pair hpair

theorem exists_pair_of_map_eq {f : ρ → τ} {g : σ → τ} {first : Option ρ} {second : Option σ}
    (h : first.map f = second.map g) :
    ∃ pair : Option (ρ × σ), pair.map Prod.fst = first ∧ pair.map Prod.snd = second ∧
      ∀ p ∈ pair, f p.1 = g p.2 := by
  cases first with
  | none => exact ⟨none, rfl, (Option.map_eq_none_iff.1 h.symm).symm, nofun⟩
  | some x =>
    obtain ⟨y, rfl, hy⟩ := Option.map_eq_some_iff.1 h.symm
    refine ⟨some (x, y), rfl, rfl, fun p hp => ?_⟩
    cases hp
    exact hy.symm

/-- Values that become equal once their links are replaced differ in their links only. -/
theorem Value.Alike.of_mapLinks_eq {f : ρ → τ} {g : σ → τ} {a : Value ρ} {b : Value σ}
    (h : a.mapLinks f = b.mapLinks g) : a.Alike (fun x y => f x = g y) b := by
  cases a with
  | vector items =>
    cases b <;> simp only [mapLinks, reduceCtorEq, vector.injEq] at h
    obtain ⟨pairs, rfl, rfl, hpairs⟩ := exists_pairs_of_map_eq h
    exact ⟨.vector pairs, rfl, rfl, hpairs⟩
  | map entries =>
    cases b <;> simp only [mapLinks, reduceCtorEq, map.injEq] at h
    obtain ⟨pairs, rfl, rfl, hpairs⟩ := exists_pairs_of_map_eq h
    -- A pair of entries, as an entry of pairs.
    refine ⟨.map (pairs.map fun pair => ((pair.1.1, pair.2.1), (pair.1.2, pair.2.2))), ?_, ?_, ?_⟩
    · simp [mapLinks, Function.comp_def]
    · simp [mapLinks, Function.comp_def]
    · intro both hboth
      simp only [links, List.flatMap_map, List.mem_flatMap] at hboth
      obtain ⟨pair, hpair, hboth⟩ := hboth
      have heq := Prod.ext_iff.1 (hpairs pair hpair)
      rcases List.mem_cons.1 hboth with rfl | hboth
      · exact heq.1
      · rw [List.mem_singleton.1 hboth]
        exact heq.2
  | peer record =>
    cases b <;> simp only [mapLinks, reduceCtorEq, peer.injEq] at h
    next other =>
    simp only [StakeRecord.mapLinks, StakeRecord.mk.injEq] at h
    obtain ⟨hcontroller, hpeer, hstakes, hdelegated, hmetadata, htimestamp, hbalance⟩ := h
    obtain ⟨stakes, hstakesFst, hstakesSnd, hstakesPair⟩ := exists_pair_of_map_eq hstakes
    obtain ⟨metadata, hmetadataFst, hmetadataSnd, hmetadataPair⟩ := exists_pair_of_map_eq hmetadata
    refine ⟨.peer ⟨record.controller, record.peerShares, stakes, record.delegatedShares, metadata,
      record.timestamp, record.balance⟩, ?_, ?_, ?_⟩
    · rw [mapLinks, StakeRecord.mapLinks, hstakesFst, hmetadataFst]
    · rw [mapLinks, StakeRecord.mapLinks, hstakesSnd, hmetadataSnd, hcontroller, hpeer, hdelegated,
        htimestamp, hbalance]
    · intro both hboth
      rcases List.mem_append.1 hboth with hboth | hboth
      · exact hstakesPair both (by simpa using hboth)
      · exact hmetadataPair both (by simpa using hboth)
  | integer n =>
    cases b <;> simp only [mapLinks, reduceCtorEq, integer.injEq] at h
    exact ⟨.integer n, rfl, by rw [h]; rfl, List.forall_mem_nil _⟩
  | address a =>
    cases b <;> simp only [mapLinks, reduceCtorEq, address.injEq] at h
    exact ⟨.address a, rfl, by rw [h]; rfl, List.forall_mem_nil _⟩
  | text s =>
    cases b <;> simp only [mapLinks, reduceCtorEq, text.injEq] at h
    exact ⟨.text s, rfl, by rw [h]; rfl, List.forall_mem_nil _⟩
  | blob bytes =>
    cases b <;> simp only [mapLinks, reduceCtorEq, blob.injEq] at h
    exact ⟨.blob bytes, rfl, by rw [h]; rfl, List.forall_mem_nil _⟩
  | keyword name =>
    cases b <;> simp only [mapLinks, reduceCtorEq, keyword.injEq] at h
    exact ⟨.keyword name, rfl, by rw [h]; rfl, List.forall_mem_nil _⟩

theorem Value.mapLinks_id (value : Value ρ) : value.mapLinks (fun link => link) = value := by
  cases value <;> simp [mapLinks, StakeRecord.mapLinks]

theorem Value.Alike.mono_links {R S : ρ → σ → Prop} {a : Value ρ} {b : Value σ} (h : a.Alike R b)
    (hRS : ∀ x ∈ a.links, ∀ y ∈ b.links, R x y → S x y) : a.Alike S b := by
  obtain ⟨pairs, rfl, rfl, hpairs⟩ := h
  refine ⟨pairs, rfl, rfl, fun pair hpair => hRS _ ?_ _ ?_ (hpairs pair hpair)⟩ <;>
  · rw [links_mapLinks]
    exact List.mem_map_of_mem hpair

/-! ### One encoding -/

/-- Two sound cells with one encoding are written with the same children in the same places. -/
theorem Cell.mapLinks_eq_of_encode_eq {a b : Cell} (ha : a.Sound) (hb : b.Sound)
    (h : a.encode = b.encode) :
    a.value.mapLinks Link.written = b.value.mapLinks Link.written := by
  obtain ⟨c, _, hread, hreread, -⟩ := exists_read ha {} [] []
  obtain ⟨d, _, hread', hreread', -⟩ := exists_read hb {} [] []
  -- Both are read again as one cell, which is written with the children of each.
  rw [h, hread'] at hread
  cases hread
  have hwritten : ∀ {x y : Link}, x.Reread Link.inline? y → x.written = y.written :=
    fun hlink => hlink.written_eq.symm
  exact (Value.Alike.mapLinks_eq hreread fun _ _ => hwritten).trans
    (Value.Alike.mapLinks_eq hreread' fun _ _ => hwritten).symm

/-- Two sound cells with one encoding differ in their links only, and these are written alike. -/
theorem Cell.alike_of_encode_eq {a b : Cell} (ha : a.Sound) (hb : b.Sound)
    (h : a.encode = b.encode) :
    a.value.Alike (fun link link' => link.written = link'.written) b.value :=
  .of_mapLinks_eq (mapLinks_eq_of_encode_eq ha hb h)

/-- What is written for a link is no more than a digest, or the encoding of a small cell. -/
theorem Link.written_eq (link : Link) :
    link.written = match link.inline? with
      | some target => target.encode
      | none => link.digest.written := by
  cases h : link.inline? with
  | some target => exact (written_of_inline h).1
  | none => exact written_of_not_inline h

theorem Digest.written_injective : Function.Injective Digest.written :=
  fun _ _ h => Digest.ext (List.cons.inj h).2

theorem Cell.encode_ne_written (cell : Cell) (digest : Digest) : cell.encode ≠ digest.written := by
  intro h
  rw [encode_eq] at h
  exact (Kind.tag_ne _).2 (List.cons.inj h).1

/-- No cell is written like an absent one. -/
theorem Cell.encode_ne_absent (cell : Cell) : cell.encode ≠ [Tag.absent] := by
  intro h
  rw [encode_eq] at h
  exact (Kind.tag_ne _).1 (List.cons.inj h).1

/-- Two links are written alike if both are inline, with one encoding, or name one digest. -/
inductive Link.Twins (a b : Link) : Prop
  | inline {s t : Cell} (ha : a.inline? = some s) (hb : b.inline? = some t)
    (h : s.encode = t.encode)
  | digest (ha : a.inline? = none) (hb : b.inline? = none) (h : a.digest = b.digest)

theorem Link.twins {a b : Link} (h : a.written = b.written) : a.Twins b := by
  rw [written_eq a, written_eq b] at h
  cases ha : a.inline? with
  | some s =>
    cases hb : b.inline? with
    | some t => exact .inline ha hb (by rwa [ha, hb] at h)
    | none =>
      rw [ha, hb] at h
      exact absurd h (s.encode_ne_written _)
  | none =>
    cases hb : b.inline? with
    | some t =>
      rw [ha, hb] at h
      exact absurd h.symm (t.encode_ne_written _)
    | none => exact .digest ha hb (Digest.written_injective (by rwa [ha, hb] at h))

/-- Links that are written alike have one digest. -/
theorem Link.Twins.digest_eq {a b : Link} (h : a.Twins b) : a.digest = b.digest := by
  cases h with
  | digest ha hb h => exact h
  | @inline s t ha hb h =>
    have hdigest : ∀ {link : Link} {target : Cell}, link.inline? = some target →
        link.digest = target.digest := by
      intro link target hinline
      cases link with
      | soft => cases hinline
      | direct label held =>
        cases target?_of_inline hinline
        rfl
    rw [hdigest ha, hdigest hb]
    exact congrArg Digest.of h

end CellGraph
