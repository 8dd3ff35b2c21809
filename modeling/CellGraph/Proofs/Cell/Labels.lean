import CellGraph.Proofs.Store.Read

/-!
# Labels of cells

Cells and links get their labels from one supply, and a cell that is read has the label of the link
it was read for. So every cell in use has a label of its own, as every link has: a cell can be told
by its label, and what is noted under a label is about one cell.

A cell is counted among the links as the direct link to it that has its label. No computation makes
that link; it only keeps the label from being given again.

* `Cell.mark`, `Cell.Marked`: cells whose labels are in use;
* `Labelled`, `Craft.labelled`: the law of computations on cells;
* `Site.law`: the law of computations on a store;
* `Session.Reached.cell_eq`: two cells of a session with one label are one cell.
-/

namespace CellGraph

open StoreAction

variable {held held' : Set Link} {known known' : Knowledge}

/-- The direct link to a cell that would have its label. -/
def Cell.mark (cell : Cell) : Link := .direct cell.label cell

/-- A valid cell whose links are in use, as its label is. -/
structure Cell.Marked (held : Set Link) (cell : Cell) : Prop
    extends cell.Within Cell.Valid held where
  mark : cell.mark ∈ held

theorem Cell.Marked.mono {cell : Cell} (h : cell.Marked held) (hsub : held ⊆ held') :
    cell.Marked held' :=
  ⟨h.toWithin.mono hsub, hsub h.mark⟩

/-- What is known fits the links in use, and the labels of the cells they lead to are in use. -/
structure Labelled (held : Set Link) (known : Knowledge) : Prop
    extends Coherent Cell.Valid held known where
  marked : ∀ link ∈ held, ∀ t, link.target? = some t → t.mark ∈ held
  keptMarked : ∀ (label : Label) (cell : Cell), known.kept[label]? = some cell → cell.mark ∈ held

namespace Labelled

theorem start : Labelled ∅ {} where
  label_lt := nofun
  label_inj := nofun
  target := nofun
  kept _ _ h := by simp at h
  digest := nofun
  status _ _ := rfl
  marked := nofun
  keptMarked _ _ h := by simp at h

theorem notes (h : Labelled held known) (hnotes : known.Notes known') : Labelled held known' := by
  refine ⟨h.toCoherent.notes hnotes, h.marked, fun label cell hcell => ?_⟩
  rw [hnotes.kept] at hcell
  exact h.keptMarked label cell hcell

theorem advance (h : Labelled held known) {link : Link} (hlink : link ∈ held) (status : Status) :
    Labelled held (known.advance link status) :=
  ⟨h.toCoherent.advance hlink status, h.marked, h.keptMarked⟩

theorem keep (h : Labelled held known) {link : Link} {cell : Cell} (hlink : link ∈ held)
    (hcell : cell.Marked held) (hlarge : cell.isSmall = false)
    (hdigest : cell.digest = link.digest) : Labelled held (known.keep link cell) := by
  refine ⟨h.toCoherent.keep hlink hcell.toWithin hlarge hdigest, h.marked,
    fun label found hfound => ?_⟩
  rw [Knowledge.kept_keep] at hfound
  split at hfound
  · cases hfound
    exact hcell.mark
  · exact h.keptMarked label found hfound

/-- Labels are used up. -/
theorem next (h : Labelled held known) {next : Label} (hnext : known.next ≤ next) :
    Labelled held { known with next } := by
  have hcoherent := h.toCoherent.extend ∅ hnext (by simp) (by simp) (by simp)
  rw [Set.union_empty] at hcoherent
  exact ⟨hcoherent, h.marked, h.keptMarked⟩

theorem target_marked (h : Labelled held known) {link : Link} (hlink : link ∈ held) {t : Cell}
    (ht : link.target? = some t) : t.Marked held :=
  ⟨h.target link hlink t ht, h.marked link hlink t ht⟩

theorem resident_marked (h : Labelled held known) {link : Link} (hlink : link ∈ held) {cell : Cell}
    (hcell : known.resident link = some cell) : cell.Marked held := by
  cases link with
  | direct label target => exact h.target_marked hlink hcell
  | soft label digest => exact ⟨(h.kept label cell hcell).2.2, h.keptMarked label cell hcell⟩

/-- One link comes into use, with the next label. The label of its target is in use by then. -/
theorem new (h : Labelled held known) {link : Link} (hlabel : link.label = known.next)
    (hwithin : ∀ t, link.target? = some t → t.Within Cell.Valid held)
    (hmark : ∀ t, link.target? = some t → t.mark ∈ held ∪ {link}) :
    Labelled (held ∪ {link}) { known with next := known.next + 1 } := by
  refine ⟨(Knowledge.coherent_new h.toCoherent hlabel hwithin).1, ?_, fun label cell hcell => ?_⟩
  · rintro other (hother | rfl) t ht
    · exact .inl (h.marked other hother t ht)
    · exact hmark t ht
  · exact .inl (h.keptMarked label cell hcell)

/-- The links of a cell that has been read come into use, and so do the labels of its cells. -/
theorem readFrom (h : Labelled held known) {bytes : Bytes} {cell : Cell}
    (hread : Cell.ReadFrom known.next 0 bytes cell) :
    ∃ held', held ⊆ held' ∧ Labelled held' { known with next := known.next + bytes.length } ∧
      cell.Marked held' := by
  have hbytes : 0 < bytes.length := by
    rw [← hread.encode, Cell.encode_eq]
    exact Nat.succ_pos _
  have hlabel : cell.mark.label = known.next := hread.label
  have hin : ∀ link ∈ cell.everyLink,
      known.next < link.label ∧ link.label < known.next + bytes.length := by
    intro link hlink
    have := hread.laid.within link hlink
    grind
  have hvalid : ∀ link ∈ cell.everyLink, ∀ t, link.target? = some t → t.Valid :=
    fun link hlink t ht => (hread.laid.sound link hlink t ht).valid
  -- The label of the cell itself comes right before those of its links.
  refine ⟨held ∪ {link | link = cell.mark ∨ link ∈ cell.everyLink}, Set.subset_union_left,
    ⟨h.toCoherent.extend _ (Nat.le_add_right ..) ?_ ?_ ?_, ?_, ?_⟩, ?_⟩
  · rintro link (rfl | hlink)
    · grind
    · exact ⟨Nat.le_of_lt (hin link hlink).1, (hin link hlink).2⟩
  · rintro a (rfl | ha) b (rfl | hb) heq
    · rfl
    · exact absurd (hlabel ▸ heq) (Nat.ne_of_lt (hin b hb).1)
    · exact absurd (hlabel ▸ heq) (Nat.ne_of_gt (hin a ha).1)
    · exact hread.laid.label_inj ha hb heq
  · rintro link (rfl | hlink) t ht
    · cases ht
      exact ⟨hread.sound.valid, fun other hother => .inr (.inr hother)⟩
    · exact ⟨hvalid link hlink t ht,
        fun other hother => .inr (.inr (Cell.mem_everyLink_trans hlink ht hother))⟩
  · rintro link (hlink | rfl | hlink) t ht
    · exact .inl (h.marked link hlink t ht)
    · cases ht
      exact .inr (.inl rfl)
    · refine .inr (.inr ?_)
      have hmark : t.mark = link := by
        cases link with
        | soft => cases ht
        | direct label target =>
          cases ht
          rw [Cell.mark, hread.laid.label _ hlink t rfl]
          rfl
      rw [hmark]
      exact hlink
  · exact fun label kept hkept => .inl (h.keptMarked label kept hkept)
  · exact ⟨⟨hread.sound.valid, fun link hlink => .inr (.inr hlink)⟩, .inr (.inl rfl)⟩

/-! ### Computations on cells -/

/-- The law of computations on cells: all labels in use stay distinct. -/
def law : Law Knowledge where
  inv := Labelled
  le _ _ _ _ := True
  refl _ _ := trivial
  trans _ _ := trivial

theorem keeps_notes {α : Type} {step : Calc α} (h : Calc.OnlyNotes step) :
    law.Keeps held (fun _ => True) (liftM step : Attempt α)
      fun a _ _ => ∃ known, a = (step.run known).1 := by
  intro known hinv _
  refine ⟨held, subset_rfl, hinv.notes (h known), trivial, ?_⟩
  rintro a ⟨⟩
  exact ⟨known, rfl⟩

theorem keeps_make (value : Value Link) (hvalid : ∀ label, Cell.Valid (.mk label value))
    (hlinks : ∀ link ∈ value.links, link ∈ held) :
    law.Keeps held (fun _ => True) (liftM (Cell.make value) : Attempt Cell)
      fun cell held' _ => cell.Marked held' := by
  intro known hinv _
  have hwithin : (Cell.mk known.next value).Within Cell.Valid held :=
    hinv.toCoherent.within (hvalid _) hlinks
  refine ⟨held ∪ {(Cell.mk known.next value).mark}, Set.subset_union_left, hinv.new rfl ?_ ?_,
    trivial, ?_⟩
  · rintro t ⟨⟩
    exact hwithin
  · rintro t ⟨⟩
    exact .inr rfl
  · rintro _ ⟨⟩
    exact ⟨hwithin.mono Set.subset_union_left, .inr rfl⟩

theorem keeps_link {target : Cell} (htarget : target.Marked held) :
    law.Keeps held (fun _ => True) (liftM target.link : Attempt Link)
      fun link held' _ => link ∈ held' := by
  intro known hinv _
  refine ⟨held ∪ {.direct known.next target}, Set.subset_union_left, hinv.new rfl ?_ ?_, trivial,
    ?_⟩
  · rintro t ⟨⟩
    exact htarget.toWithin
  · rintro t ⟨⟩
    exact .inl htarget.mark
  · rintro _ ⟨⟩
    exact .inr rfl

theorem keeps_soft (digest : Digest) :
    law.Keeps held (fun _ => True) (liftM digest.link : Attempt Link)
      fun link held' _ => link ∈ held' := by
  intro known hinv _
  refine ⟨held ∪ {.soft known.next digest}, Set.subset_union_left, hinv.new rfl nofun nofun,
    trivial, ?_⟩
  rintro _ ⟨⟩
  exact .inr rfl

theorem keeps_load {link : Link} (hlink : link ∈ held) :
    law.Keeps held (fun _ => True) link.load fun cell held' _ => cell.Marked held' := by
  refine .get_bind fun known hinv _ => ?_
  cases hresident : known.resident link with
  | none => exact .throw _
  | some cell => exact .pure fun _ _ _ => hinv.resident_marked hlink hresident

/-- A link takes a cell only if it has the right digest. -/
theorem keeps_accept {link : Link} (hlink : link ∈ held) {found : Option Cell}
    (hfound : ∀ cell ∈ found, cell.Marked held) :
    law.Keeps held (fun _ => True) (link.accept found) fun cell held' _ => cell.Marked held' := by
  cases found with
  | none => exact .throw _
  | some cell =>
    have hcell := hfound cell rfl
    by_cases hdigest : cell.digest = link.digest
    · intro known hinv _
      obtain ⟨noted, hnotes, hrun⟩ := Link.run_accept hdigest known
      rw [hrun]
      refine ⟨held, subset_rfl, ?_, trivial, ?_⟩
      · cases hsmall : cell.isSmall with
        | true => exact (hinv.notes hnotes).advance hlink _
        | false => exact ((hinv.notes hnotes).keep hlink hcell hsmall hdigest).advance hlink _
      · rintro _ ⟨⟩
        exact hcell
    · refine (keeps_notes cell.onlyNotes_hash).bind fun digest held₁ hsub => .assume ?_
      rintro ⟨known, rfl⟩
      rw [show (cell.hash.run known).1 = cell.digest from cell.fst_hash known, if_pos hdigest]
      exact .throw _

theorem keeps_resolve {link : Link} (hlink : link ∈ held) {found : Option Cell}
    (hfound : ∀ cell ∈ found, cell.Marked held) :
    law.Keeps held (fun _ => True) (link.resolve fun _ => return found)
      fun cell held' _ => cell.Marked held' := by
  refine .get_bind fun known hinv _ => ?_
  cases hresident : known.resident link with
  | some cell => exact .pure fun _ _ _ => hinv.resident_marked hlink hresident
  | none => exact (keeps_accept hlink hfound).of_always

theorem keeps_decode (bytes : Bytes) :
    law.Keeps held (fun _ => True) (Cell.decode bytes) fun cell held' _ => cell.Marked held' := by
  intro known hinv _
  cases hdecode : ((Cell.decode bytes).run.run known).1 with
  | ok cell =>
    obtain ⟨hfrom, hknown⟩ := Cell.readFrom_of_decode hdecode
    obtain ⟨held', hsub, hlabelled, hcell⟩ := hinv.readFrom hfrom
    rw [hknown]
    refine ⟨held', hsub, hlabelled.notes (cell.onlyNotes_noteRead _), trivial, ?_⟩
    rintro _ ⟨⟩
    exact hcell
  | error fault =>
    obtain ⟨next, hnext, hnotes⟩ := Cell.notes_of_decode_error hdecode
    exact ⟨held, subset_rfl, (hinv.next hnext).notes hnotes, trivial, nofun⟩

end Labelled

/-- The craft in which all labels in use are distinct. -/
def Craft.labelled : Craft where
  law := Labelled.law
  Owns held cell := cell.Marked held
  within h := h.toWithin
  mono := Cell.Marked.mono
  notes := Labelled.keeps_notes
  make := Labelled.keeps_make
  link := Labelled.keeps_link
  soft := Labelled.keeps_soft
  load := Labelled.keeps_load
  decode := Labelled.keeps_decode

theorem Craft.labelled_resolves : Craft.labelled.Resolves :=
  fun hlink hfound => Labelled.keeps_resolve hlink hfound

end CellGraph
