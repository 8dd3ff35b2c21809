import CellGraph.Proofs.Cell.UniqueParsing
import CellGraph.Proofs.Session.Labelled
import CellGraph.Proofs.Walk.Closure

/-!
# Equality is one encoding

However two cells are compared, by their labels, by digests that are known already, or by their
values and links, they are found to be equal if and only if they have one encoding. What has been
worked out before, and what soft links hold, makes no difference.

* `Cell.agrees_of_encode_eq`: cells with one encoding are found to be equal;
* `Session.Reached.encode_eq_of_equal`: cells that are found to be equal have one encoding;
* `Session.equality`: both, with digests and for links, and that equality is an equivalence.
-/

namespace CellGraph

/-! ### Cells with one encoding -/

/-- Two links that name one digest are equal. -/
theorem Link.agrees_of_digest {link link' : Link} (h : link.inline? = none)
    (h' : link'.inline? = none) (hdigest : link.digest = link'.digest) :
    Calc.Agrees (link.equal link') := by
  cases link with
  | soft label digest =>
    obtain rfl : digest = link'.digest := hdigest
    exact agrees_soft h'
  | direct label target =>
    have hlarge : target.isSmall = false := by simpa [inline?] using h
    intro known
    rw [equal, equalDirect]
    by_cases hlabel : label = link'.label
    · rw [if_pos hlabel]
      rfl
    · rw [if_neg hlabel]
      cases link' with
      | soft other digest =>
        simp only [Cell.embeds, run_bind, run_pure, hlarge, Bool.false_eq_true, if_false]
        exact decide_eq_true ((target.fst_hash _).trans hdigest)
      | direct other held =>
        have hheld : held.isSmall = false := by simpa [inline?] using h'
        simp only [Cell.embeds, run_bind, run_pure, hlarge, hheld, Bool.false_eq_true, and_self,
          or_self, if_false]
        exact decide_eq_true (((target.fst_hash _).trans hdigest).trans (held.fst_hash _).symm)

/-- Two links that are written alike are equal, if the cells inline in them are. -/
theorem Link.agrees_of_twins {link link' : Link} (h : link.Twins link')
    (hinline : ∀ s t, link.inline? = some s → link'.inline? = some t → s.encode = t.encode →
      Calc.Agrees (s.equal t)) : Calc.Agrees (link.equal link') := by
  cases h with
  | digest ha hb h => exact agrees_of_digest ha hb h
  | @inline s t ha hb h =>
    have hsmall : s.isSmall = true := (Cell.isSmall_iff s).2 (written_of_inline ha).2
    cases link with
    | soft => cases ha
    | direct label target =>
      cases target?_of_inline ha
      exact agrees_direct hb hsmall (hinline s t ha hb h)

/-- Sound cells with one encoding are found to be equal, whatever is known. -/
theorem Cell.agrees_of_encode_eq {a b : Cell} (ha : a.Sound) (hb : b.Sound)
    (h : a.encode = b.encode) : Calc.Agrees (a.equal b) := by
  induction a using Cell.induct generalizing b with
  | step label value ih =>
    refine agrees_of_alike ?_ h
    refine (alike_of_encode_eq hb ha h.symm).mono_links fun link hlink link' hlink' hwritten => ?_
    refine Link.agrees_of_twins (Link.twins hwritten.symm) fun s t hs ht hencode => ?_
    have hs' := Link.target?_of_inline hs
    exact ih link' hlink' s hs' (ha.target hlink' hs')
      (hb.target hlink (Link.target?_of_inline ht)) hencode

/-! ### Cells that are found to be equal -/

theorem Calc.of_both {first second : Calc Bool} {known : Knowledge}
    (h : ((Calc.both first second).run known).1 = true) :
    (first.run known).1 = true ∧ ∃ known', (second.run known').1 = true := by
  rw [Calc.both, run_bind] at h
  cases hfirst : (first.run known).1 with
  | true =>
    rw [hfirst, if_pos rfl] at h
    exact ⟨rfl, _, h⟩
  | false =>
    rw [hfirst, if_neg Bool.false_ne_true] at h
    cases h

/--
Links with different labels are found to be equal by what they lead to, if that is written inline,
and by their digests otherwise.
-/
theorem Link.of_equal {link other : Link} {known : Knowledge} (hlabel : link.label ≠ other.label)
    (h : ((link.equal other).run known).1 = true) :
    (∃ s t, link.inline? = some s ∧ other.inline? = some t ∧
        ∃ known', ((s.equal t).run known').1 = true) ∨
      link.inline? = none ∧ other.inline? = none ∧ link.digest = other.digest := by
  have hinline : ∀ {label : Label} {t : Cell}, t.isSmall = true →
      (direct label t).inline? = some t := fun h => if_pos h
  have hnone : ∀ {label : Label} {t : Cell}, t.isSmall = false →
      (direct label t).inline? = none := fun h => if_neg (h ▸ Bool.false_ne_true)
  cases link with
  | direct label s =>
    have hne : ¬label = other.label := hlabel
    rw [equal, equalDirect, if_neg hne] at h
    cases other with
    | direct label' t =>
      cases hs : s.isSmall <;> cases ht : t.isSmall <;>
        simp only [Cell.embeds, run_bind, run_pure, hs, ht, Bool.false_eq_true, and_self, and_true,
          and_false, or_true, or_false, if_true, if_false] at h
      · have hdigest := (s.fst_hash _).symm.trans ((of_decide_eq_true h).trans (t.fst_hash _))
        exact .inr ⟨hnone hs, hnone ht, hdigest⟩
      · exact .inl ⟨s, t, hinline hs, hinline ht, _, h⟩
    | soft label' digest =>
      cases hs : s.isSmall <;>
        simp only [Cell.embeds, run_bind, run_pure, hs, Bool.false_eq_true, if_true, if_false] at h
      exact .inr ⟨hnone hs, rfl, (s.fst_hash _).symm.trans (of_decide_eq_true h)⟩
  | soft label digest =>
    have hne : ¬label = other.label := hlabel
    cases other with
    | direct label' t =>
      cases ht : t.isSmall <;>
        simp only [equal, equalSoft, if_neg hne, Cell.embeds, run_bind, run_pure, ht,
          Bool.false_eq_true, if_true, if_false] at h
      exact .inr ⟨rfl, hnone ht, (of_decide_eq_true h).trans (t.fst_hash _)⟩
    | soft label' digest' =>
      rw [equal, equalSoft, if_neg hne] at h
      exact .inr ⟨rfl, rfl, of_decide_eq_true h⟩

/-- Links that are found to be equal are written alike. -/
def Link.Tells (link other : Link) : Prop :=
  ∀ known : Knowledge, ((link.equal other).run known).1 = true → link.written = other.written

namespace Link.Test

variable {known : Knowledge}

theorem written_of_all {items others : List Link} (hlength : items.length = others.length)
    (htells : ∀ link ∈ items, ∀ other ∈ others, link.Tells other)
    (h : ((all (items.map Link.equal) others).run known).1 = true) :
    items.map Link.written = others.map Link.written := by
  induction items generalizing others known with
  | nil =>
    rw [List.length_eq_zero_iff.1 hlength.symm]
  | cons link items ih =>
    obtain ⟨other, others, rfl⟩ := List.exists_cons_of_length_eq_add_one hlength.symm
    obtain ⟨hlink, known', hrest⟩ := Calc.of_both h
    have hrest' := ih (Nat.succ.inj hlength) (fun l hl o ho =>
      htells l (List.mem_cons_of_mem _ hl) o (List.mem_cons_of_mem _ ho)) hrest
    rw [List.map_cons, List.map_cons, hrest',
      htells link (List.mem_cons_self ..) other (List.mem_cons_self ..) known hlink]

theorem written_of_allEntries {entries others : List (Link × Link)}
    (hlength : entries.length = others.length)
    (htells : ∀ entry ∈ entries, ∀ other ∈ others,
      entry.1.Tells other.1 ∧ entry.2.Tells other.2)
    (h : ((allEntries (entries.map fun entry => (entry.1.equal, entry.2.equal)) others).run
      known).1 = true) :
    entries.map (fun entry => (entry.1.written, entry.2.written)) =
      others.map fun entry => (entry.1.written, entry.2.written) := by
  induction entries generalizing others known with
  | nil =>
    rw [List.length_eq_zero_iff.1 hlength.symm]
  | cons entry entries ih =>
    obtain ⟨other, others, rfl⟩ := List.exists_cons_of_length_eq_add_one hlength.symm
    obtain ⟨hentry, known', hrest⟩ := Calc.of_both h
    obtain ⟨hkey, known'', hvalue⟩ := Calc.of_both hentry
    have hrest' := ih (Nat.succ.inj hlength) (fun e he o ho =>
      htells e (List.mem_cons_of_mem _ he) o (List.mem_cons_of_mem _ ho)) hrest
    obtain ⟨htellsKey, htellsValue⟩ :=
      htells entry (List.mem_cons_self ..) other (List.mem_cons_self ..)
    rw [List.map_cons, List.map_cons, hrest', htellsKey known hkey, htellsValue known'' hvalue]

theorem written_of_option {link other : Option Link}
    (htells : ∀ l ∈ link, ∀ o ∈ other, l.Tells o)
    (h : ((option (link.map Link.equal) other).run known).1 = true) :
    link.map Link.written = other.map Link.written := by
  cases link with
  | none =>
    cases other with
    | none => rfl
    | some other => cases h
  | some link =>
    cases other with
    | none => cases h
    | some other => exact congrArg some (htells link rfl other rfl known h)

end Link.Test

/-- Values that are found to agree are written with the same children in the same places. -/
theorem Value.written_of_agree {value other : Value Link} {known : Knowledge}
    (htells : ∀ link ∈ value.links, ∀ link' ∈ other.links, link.Tells link')
    (h : (((value.mapLinks Link.equal).agree other).run known).1 = true) :
    value.mapLinks Link.written = other.mapLinks Link.written := by
  cases value with
  | vector items =>
    cases other with
    | vector others =>
      simp only [mapLinks, agree, List.length_map] at h ⊢
      split at h
      · next hlength => exact congrArg vector (Link.Test.written_of_all hlength htells h)
      · cases h
    | _ => cases h
  | map entries =>
    cases other with
    | map others =>
      simp only [mapLinks, agree, List.length_map] at h ⊢
      split at h
      · next hlength =>
        refine congrArg map (Link.Test.written_of_allEntries hlength (fun e he o ho => ⟨?_, ?_⟩) h)
        · exact htells _ (List.mem_flatMap.2 ⟨e, he, by simp⟩) _
            (List.mem_flatMap.2 ⟨o, ho, by simp⟩)
        · exact htells _ (List.mem_flatMap.2 ⟨e, he, by simp⟩) _
            (List.mem_flatMap.2 ⟨o, ho, by simp⟩)
      · cases h
    | _ => cases h
  | peer record =>
    cases other with
    | peer record' =>
      simp only [mapLinks, agree, StakeRecord.agree, StakeRecord.mapLinks] at h ⊢
      split at h
      · next hfields =>
        obtain ⟨hcontroller, hpeer, hdelegated, hbalance, htimestamp⟩ := hfields
        obtain ⟨hstakes, known', hmetadata⟩ := Calc.of_both h
        have hstakes' := Link.Test.written_of_option (fun l hl o ho =>
          htells l (by simp_all [links, StakeRecord.links]) o
            (by simp_all [links, StakeRecord.links])) hstakes
        have hmetadata' := Link.Test.written_of_option (fun l hl o ho =>
          htells l (by simp_all [links, StakeRecord.links]) o
            (by simp_all [links, StakeRecord.links])) hmetadata
        rw [hcontroller, hpeer, hdelegated, hbalance, htimestamp, hstakes', hmetadata']
      · cases h
    | _ => cases h
  | _ =>
    -- Without links, the values themselves are compared.
    cases other <;> first
      | cases h
      | rw [of_decide_eq_true h]

/-! ### Sessions -/

/--
What is written for a link when this much is known: the encoding of its target if that is held in
memory and small, and its digest otherwise.
-/
def Knowledge.writtenFor (known : Knowledge) (link : Link) : Bytes :=
  match known.embedded link with
  | some target => target.encode
  | none => link.digest.written

/-- Two optional cells are found to be equal when this much is known. -/
def Knowledge.Equates (known : Knowledge) (a b : Option Cell) : Prop :=
  ((Cell.equalOption a b).run known).1 = true

/-- Two links are found to be equal when this much is known. -/
def Knowledge.EquatesLinks (known : Knowledge) (link link' : Link) : Prop :=
  ((link.equal link').run known).1 = true

/-- What is written for a link does not depend on what soft links have come to hold. -/
theorem Coherent.writtenFor_eq {good : Cell → Prop} {held : Set Link} {known : Knowledge}
    (h : Coherent good held known) (link : Link) : known.writtenFor link = link.written := by
  rw [Knowledge.writtenFor, h.embedded_eq]
  exact (Link.written_eq link).symm

namespace Session

variable {ι : Type} {session : Session ι}

/-- The optional cells of a session: none, or one of its cells. -/
def optionalCells (session : Session ι) : Set (Option Cell) :=
  {cell | ∀ c ∈ cell, c ∈ session.cells}

theorem encode_mem_encodings {cell : Cell} (h : cell ∈ session.cells) :
    cell.encode ∈ session.encodings :=
  .inl ⟨cell, h, rfl⟩

theorem target_mem_cells {link : Link} (h : link ∈ session.links) {target : Cell}
    (ht : link.target? = some target) : target ∈ session.cells :=
  .inr (.inl ⟨link, h, ht⟩)

variable [DecidableEq ι]

/-- Links that are found to be equal are written alike, if this holds of the first one's target. -/
theorem Reached.tells (h : session.Reached) {link link' : Link} (hlink : link ∈ session.links)
    (hlink' : link' ∈ session.links)
    (htarget : ∀ s, link.target? = some s → ∀ t ∈ session.cells, ∀ known : Knowledge,
      ((s.equal t).run known).1 = true → s.encode = t.encode) : link.Tells link' := by
  intro known heq
  by_cases hlabel : link.label = link'.label
  · exact congrArg Link.written (h.inv.coherent.label_inj link hlink link' hlink' hlabel)
  · rcases Link.of_equal hlabel heq with ⟨s, t, hs, ht, known', hequal⟩ | ⟨hnone, hnone', hdigest⟩
    · rw [(Link.written_of_inline hs).1, (Link.written_of_inline ht).1]
      exact htarget s (Link.target?_of_inline hs) t
        (target_mem_cells hlink' (Link.target?_of_inline ht)) known' hequal
    · rw [Link.written_of_not_inline hnone, Link.written_of_not_inline hnone', hdigest]

/-- Cells that are found to be equal have one encoding. -/
theorem Reached.encode_eq_of_equal (h : session.Reached)
    (hinj : Set.InjOn Digest.of session.encodings) {a b : Cell} (ha : a ∈ session.cells)
    (hb : b ∈ session.cells) {known : Knowledge} (heq : ((a.equal b).run known).1 = true) :
    a.encode = b.encode := by
  induction a using Cell.induct generalizing b known with
  | step label value ih =>
    rw [Cell.equal_mk, Cell.equalBy] at heq
    by_cases hsame : (Cell.mk label value).same b
    · exact congrArg Cell.encode (h.cell_eq ha hb (of_decide_eq_true hsame))
    · rw [if_neg hsame, run_bind, run_get] at heq
      dsimp only at heq
      split at heq
      · next d e hd he =>
        -- Both digests are known, so they have been compared.
        simp only [Knowledge.hash?, Option.ite_none_right_eq_some, Option.some.injEq] at hd he
        have hdigest : d = e := of_decide_eq_true heq
        rw [← hd.2, ← he.2] at hdigest
        exact hinj (encode_mem_encodings ha) (encode_mem_encodings hb) hdigest
      · have hmem : ∀ {c : Cell}, c ∈ session.cells → ∀ link ∈ c.links, link ∈ session.links :=
          fun hc link hlink =>
            (h.inv.toSound.valid hc).links link (Cell.mem_everyLink_of_mem hlink)
        have hvalue := Value.written_of_agree (fun link hlink link' hlink' =>
          h.tells (hmem ha link hlink) (hmem hb link' hlink') fun s hs t ht known =>
            ih link hlink s hs (target_mem_cells (hmem ha link hlink) hs) ht) heq
        obtain ⟨other, value'⟩ := b
        rw [Cell.encode_mk, Cell.encode_mk]
        exact congrArg Value.write hvalue

/-- Cells are found to be equal if and only if they have one encoding. -/
theorem Reached.equates_iff (h : session.Reached) (hinj : Set.InjOn Digest.of session.encodings)
    {a b : Option Cell} (ha : a ∈ session.optionalCells) (hb : b ∈ session.optionalCells)
    (known : Knowledge) : known.Equates a b ↔ a.map Cell.encode = b.map Cell.encode := by
  cases a with
  | none =>
    cases b with
    | none => exact iff_of_true rfl rfl
    | some b => exact iff_of_false nofun nofun
  | some a =>
    cases b with
    | none => exact iff_of_false nofun nofun
    | some b =>
      have ha := ha a rfl
      have hb := hb b rfl
      constructor
      · exact fun heq => congrArg some (h.encode_eq_of_equal hinj ha hb heq)
      · intro heq
        have hsound := h.inv.toSound
        exact Cell.agrees_of_encode_eq (hsound.cell ha) (hsound.cell hb) (Option.some.inj heq) known

/-- Links are found to be equal if and only if they are written alike. -/
theorem Reached.equatesLinks_iff (h : session.Reached)
    (hinj : Set.InjOn Digest.of session.encodings) {link link' : Link}
    (hlink : link ∈ session.links) (hlink' : link' ∈ session.links) (known : Knowledge) :
    known.EquatesLinks link link' ↔ link.written = link'.written := by
  have hcell : ∀ {l : Link} {t : Cell}, l ∈ session.links → l.inline? = some t →
      t ∈ session.cells :=
    fun hl ht => target_mem_cells hl (Link.target?_of_inline ht)
  constructor
  · refine h.tells hlink hlink' (fun s hs t ht known' => ?_) known
    exact h.encode_eq_of_equal hinj (target_mem_cells hlink hs) ht
  · intro heq
    refine Link.agrees_of_twins (Link.twins heq) (fun s t hs ht hencode => ?_) known
    have hsound := h.inv.toSound
    exact Cell.agrees_of_encode_eq (hsound.cell (hcell hlink hs)) (hsound.cell (hcell hlink' ht))
      hencode

omit [DecidableEq ι] in
/-- An absent cell is hashed as what is written in its place. -/
theorem fst_hashOption (cell : Option Cell) (known : Knowledge) :
    ((Cell.hashOption cell).run known).1 =
      Digest.of ((cell.map Cell.encode).getD [Tag.absent]) := by
  cases cell with
  | none => rfl
  | some cell => exact cell.fst_hash known

omit [DecidableEq ι] in
/-- Optional cells have one digest if and only if both are absent or they have one encoding. -/
theorem hashOption_eq_iff (hinj : Set.InjOn Digest.of (insert [Tag.absent] session.encodings))
    {a b : Option Cell} (ha : a ∈ session.optionalCells) (hb : b ∈ session.optionalCells)
    (known known' : Knowledge) :
    ((Cell.hashOption a).run known).1 = ((Cell.hashOption b).run known').1 ↔
      a.map Cell.encode = b.map Cell.encode := by
  have hmem : ∀ {c : Option Cell}, c ∈ session.optionalCells →
      (c.map Cell.encode).getD [Tag.absent] ∈ insert [Tag.absent] session.encodings := by
    intro c hc
    cases c with
    | none => exact .inl rfl
    | some c => exact .inr (encode_mem_encodings (hc c rfl))
  rw [fst_hashOption, fst_hashOption]
  constructor
  · intro heq
    have hbytes := hinj (hmem ha) (hmem hb) heq
    cases a with
    | none =>
      cases b with
      | none => rfl
      | some b => exact absurd hbytes.symm b.encode_ne_absent
    | some a =>
      cases b with
      | none => exact absurd hbytes a.encode_ne_absent
      | some b => exact congrArg some hbytes
  · intro heq
    rw [heq]

/--
Two optional cells of a session are found to be equal, whatever has been worked out before, if and
only if both are absent or both are there with one encoding, and if and only if they have one
digest. Two links are found to be equal if and only if the same is written for them. Equality is an
equivalence.
-/
theorem equality (h : session.Reached)
    (hinj : Set.InjOn Digest.of (insert [Tag.absent] session.encodings)) :
    (∀ a ∈ session.optionalCells, ∀ b ∈ session.optionalCells, ∀ known known' known'' : Knowledge,
      (known.Equates a b ↔ a.map Cell.encode = b.map Cell.encode) ∧
      (known.Equates a b ↔
        ((Cell.hashOption a).run known').1 = ((Cell.hashOption b).run known'').1)) ∧
    (∀ link ∈ session.links, ∀ link' ∈ session.links, ∀ known : Knowledge,
      known.EquatesLinks link link' ↔
        session.known.writtenFor link = session.known.writtenFor link') ∧
    ∀ known : Knowledge, (Equivalence fun a b : session.optionalCells => known.Equates a b) ∧
      Equivalence fun a b : session.links => known.EquatesLinks a b := by
  have hsub := hinj.mono (Set.subset_insert _ _)
  have hcells := fun {a b : Option Cell} ha hb => h.equates_iff hsub (a := a) (b := b) ha hb
  have hlinks : ∀ {a b : Link}, a ∈ session.links → b ∈ session.links → ∀ known : Knowledge,
      known.EquatesLinks a b ↔ a.written = b.written := h.equatesLinks_iff hsub
  refine ⟨fun a ha b hb known known' known'' => ⟨hcells ha hb known, ?_⟩,
    fun link hlink link' hlink' known => ?_, fun known => ⟨⟨?_, ?_, ?_⟩, ⟨?_, ?_, ?_⟩⟩⟩
  · rw [hcells ha hb known, hashOption_eq_iff hinj ha hb]
  · rw [hlinks hlink hlink' known, h.inv.coherent.writtenFor_eq, h.inv.coherent.writtenFor_eq]
  · exact fun a => (hcells a.2 a.2 known).2 rfl
  · exact fun {a b} heq => (hcells b.2 a.2 known).2 ((hcells a.2 b.2 known).1 heq).symm
  · exact fun {a b c} hab hbc => (hcells a.2 c.2 known).2
      (((hcells a.2 b.2 known).1 hab).trans ((hcells b.2 c.2 known).1 hbc))
  · exact fun a => (hlinks a.2 a.2 known).2 rfl
  · exact fun {a b} heq => (hlinks b.2 a.2 known).2 ((hlinks a.2 b.2 known).1 heq).symm
  · exact fun {a b c} hab hbc => (hlinks a.2 c.2 known).2
      (((hlinks a.2 b.2 known).1 hab).trans ((hlinks b.2 c.2 known).1 hbc))

/-! ### A vector that holds a blob, and one that names it -/

/-- A vector that names the blob by its digest. -/
def namingVector : Cell := .mk 4 (.vector [.soft 2 largeBlob.digest])

/-- A vector that holds the blob. -/
def holdingVector : Cell := .mk 3 (.vector [.direct 1 largeBlob])

/-- A user without a store who has made both, and has then given the blob to the soft link. -/
def twoForms : Session Empty :=
  (((((Session.perform { stores := nofun } (.cells (.blob (List.replicate 200 1)))).perform
    (.cells (.link largeBlob))).perform (.cells (.soft largeBlob.digest))).perform
      (.cells (.vectorOf [.direct 1 largeBlob]))).perform
        (.cells (.vectorOf [.soft 2 largeBlob.digest]))).perform
          (.cells (.resolve (.soft 2 largeBlob.digest) (some largeBlob)))

set_option maxRecDepth 20000 in
theorem reached_twoForms : twoForms.Reached := by
  have hempty : ∀ index : Empty, index ∈ [] := nofun
  simpa only [twoForms, List.foldl] using
    (Reached.start (fun index : Empty => nomatch index) nofun).requests hempty
      [.cells (.blob (List.replicate 200 1)), .cells (.link largeBlob),
        .cells (.soft largeBlob.digest), .cells (.vectorOf [.direct 1 largeBlob]),
        .cells (.vectorOf [.soft 2 largeBlob.digest]),
        .cells (.resolve (.soft 2 largeBlob.digest) (some largeBlob))]
      (by decide +kernel)
      ⟨List.forall_mem_nil _, mem_items_of_places [0] rfl, List.forall_mem_nil _,
        mem_items_of_places [1] rfl, mem_items_of_places [2] rfl, mem_items_of_places [2, 0] rfl,
        trivial⟩

set_option maxRecDepth 20000 in
/-- The two vectors are equal, whatever is known, and so are the two links; the blob is neither. -/
theorem twoForms_equal :
    (twoForms.known.resident (.soft 2 largeBlob.digest)).isSome ∧
      ∀ known : Knowledge, known.Equates (some holdingVector) (some namingVector) ∧
        known.EquatesLinks (.soft 2 largeBlob.digest) (.direct 1 largeBlob) ∧
        ¬known.Equates (some namingVector) (some largeBlob) ∧
        ¬known.Equates (some namingVector) none := by
  have hempty : ∀ index : Empty, index ∈ [] := nofun
  have hencodings : ∀ a ∈ [Tag.absent] :: twoForms.everyEncoding [],
      ∀ b ∈ [Tag.absent] :: twoForms.everyEncoding [], Digest.of a = Digest.of b → a = b := by
    decide +kernel
  have hinj : Set.InjOn Digest.of (insert [Tag.absent] twoForms.encodings) := by
    have hmem : ∀ {bytes}, bytes ∈ insert [Tag.absent] twoForms.encodings →
        bytes ∈ [Tag.absent] :: twoForms.everyEncoding [] :=
      fun hbytes => List.mem_cons.2 (hbytes.imp_right (mem_everyEncoding hempty))
    exact fun a ha b hb => hencodings a (hmem ha) b (hmem hb)
  obtain ⟨hcells, hlinks, -⟩ := equality reached_twoForms hinj
  have hitems : twoForms.items = [.cell largeBlob, .link (.direct 1 largeBlob),
      .link (.soft 2 largeBlob.digest), .cell holdingVector, .cell namingVector,
      .cell largeBlob] := rfl
  have hcell : ∀ {c : Cell}, .cell c ∈ twoForms.items → some c ∈ twoForms.optionalCells := by
    rintro c hc _ ⟨⟩
    exact .inl hc
  have hlink : ∀ {l : Link}, .link l ∈ twoForms.items → l ∈ twoForms.links :=
    fun {l} hl => .inl ⟨_, hl, l.self_mem_everyLink⟩
  have hblob : some largeBlob ∈ twoForms.optionalCells := hcell (by simp [hitems])
  have hholding : some holdingVector ∈ twoForms.optionalCells := hcell (by simp [hitems])
  have hnaming : some namingVector ∈ twoForms.optionalCells := hcell (by simp [hitems])
  refine ⟨by decide +kernel, fun known => ⟨?_, ?_, ?_, ?_⟩⟩
  · exact (hcells _ hholding _ hnaming known {} {}).1.2 (by decide +kernel)
  · refine (hlinks _ (hlink (by simp [hitems])) _ (hlink (by simp [hitems])) known).2 ?_
    decide +kernel
  · exact fun heq => absurd ((hcells _ hnaming _ hblob known {} {}).1.1 heq) (by decide +kernel)
  · exact fun heq => absurd ((hcells _ hnaming none nofun known {} {}).1.1 heq) nofun

end Session

end CellGraph
