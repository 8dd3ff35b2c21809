import CellGraph.Proofs.Cell.Labels
import CellGraph.Proofs.Computation.StoreCraft

/-!
# Cells are told by their labels

A store makes new cells when it reads encodings, and gives them labels from the same supply. So in a
session, whatever has been asked of cells and of stores, two cells with one label are one cell.

* `Site.Labelled`, `Site.labelLaw`: the law of computations on a store;
* `Site.labelled`: the steps that keep it, and with them reading, writing and walks;
* `Session.Labelled`, `Session.Reached.labelled`: sessions;
* `Session.Reached.cell_eq`: two cells of a session with one label are one cell.
-/

namespace CellGraph

open StoreAction

/-- All labels in use are distinct, and what a store remembers is in use. -/
structure Site.Labelled (held : Set Link) (site : Site) : Prop where
  known : CellGraph.Labelled held site.known
  remembers : ∀ cell, site.store.Remembers cell → cell.Marked held

namespace Site

variable {held : Set Link}

/-- The law of computations on a store: all labels in use stay distinct. -/
def labelLaw : Law Site where
  inv := Site.Labelled
  le _ _ _ _ := True
  refl _ _ := trivial
  trans _ _ := trivial

theorem labelLaw_extends : labelLaw.Extends Labelled.law where
  known hinv := hinv.known
  learn hinv hsub hknown _ :=
    ⟨⟨hknown, fun cell hcell => (hinv.remembers cell hcell).mono hsub⟩, trivial⟩

/-- The craft of cells and links whose labels are distinct. -/
def labelled : StoreCraft where
  law := labelLaw
  Owns held cell := cell.Marked held
  May _ := True
  mono h := h.mono
  links h link hlink := h.links link (Cell.mem_everyLink_of_mem hlink)
  resident hinv hlink hcell := hinv.known.resident_marked hlink hcell
  remembers hinv := hinv.remembers _
  notes h := (labelLaw_extends.keeps_ofCalc (Labelled.keeps_notes h)).mono_right
    fun _ _ _ _ => trivial
  decode bytes := labelLaw_extends.keeps_outcome (Labelled.keeps_decode bytes)
  accept hlink hfound := labelLaw_extends.keeps_ofAttempt (Labelled.keeps_accept hlink hfound)
  link hcell := labelLaw_extends.keeps_ofCalc (Labelled.keeps_link hcell)
  advance hlink status _ hinv _ :=
    ⟨_, subset_rfl, ⟨hinv.known.advance hlink status, hinv.remembers⟩, trivial, fun _ _ => trivial⟩
  report _ _ hinv _ :=
    ⟨_, subset_rfl, ⟨hinv.known, hinv.remembers⟩, trivial, fun _ _ => trivial⟩
  write hinv hcell _ := by
    refine ⟨⟨hinv.known, fun other hother => ?_⟩, trivial⟩
    rcases Store.remembers_insert hother with hother | rfl
    · exact hinv.remembers other hother
    · exact hcell

/-- What a request to a store gives of items in use is in use. -/
theorem keeps_run {operation : StoreOperation}
    (h : ∀ item ∈ operation.arguments, Craft.labelled.Has held item) :
    labelLaw.Keeps held (fun _ => True) operation.run
      fun items held' _ => ∀ item ∈ items, Craft.labelled.Has held' item := by
  cases operation with
  | make goal c =>
    have hcell : c.Marked held := h (.cell c) (List.mem_singleton_self _)
    refine (labelled.keeps_make trivial hcell).bind fun link held' _ => .assume fun hlink => .pure
      fun _ _ _ item hitem => ?_
    cases List.mem_singleton.1 hitem
    exact hlink
  | walk goal l =>
    have hlink : l ∈ held := h (.link l) (List.mem_singleton_self _)
    exact (labelled.keeps_walk trivial hlink).bind fun _ _ _ => .pure fun _ _ _ => nofun
  | get key => exact .found labelled.Owns id (labelled.keeps_get key)
  | lookup key => exact .found labelled.Owns id (labelled.keeps_lookup key)
  | resolve l =>
    have hlink : l ∈ held := h (.link l) (List.mem_singleton_self _)
    refine (labelled.keeps_resolve hlink).bind fun cell held' _ => .assume fun hcell => .pure
      fun _ _ _ item hitem => ?_
    cases List.mem_singleton.1 hitem
    exact hcell

end Site

/-! ### Sessions -/

namespace Session

variable {ι : Type} {session : Session ι}

/-- All labels in use are distinct, and all that there is in the session is in use. -/
structure Labelled (held : Set Link) (session : Session ι) : Prop where
  known : CellGraph.Labelled held session.known
  items : ∀ item ∈ session.items, Craft.labelled.Has held item
  remembers : ∀ index cell, (session.stores index).Remembers cell → cell.Marked held

/-- The links of a session are in use. -/
theorem Labelled.mem {held : Set Link} (h : session.Labelled held) {link : Link}
    (hlink : link ∈ session.links) : link ∈ held := by
  rcases hlink with ⟨item, hitem, hlink⟩ | ⟨label, cell, hcell, hlink⟩ | ⟨index, cell, hcell, hlink⟩
  · exact (h.items item hitem).within.everyLink h.known.toCoherent link hlink
  · exact (h.known.kept label cell hcell).2.2.links link hlink
  · exact (h.remembers index cell hcell).links link hlink

/-- The cells of a session are in use. -/
theorem Labelled.marked {held : Set Link} (h : session.Labelled held) {cell : Cell}
    (hcell : cell ∈ session.cells) : cell.Marked held := by
  rcases hcell with hcell | ⟨link, hlink, hcell⟩ | ⟨label, hcell⟩ | ⟨index, hcell⟩
  · exact h.items _ hcell
  · exact h.known.target_marked (h.mem hlink) hcell
  · exact ⟨(h.known.kept label cell hcell).2.2, h.known.keptMarked label cell hcell⟩
  · exact h.remembers index cell hcell

theorem labelled_start {stores : ι → Store}
    (hempty : ∀ index, stores index = .emptyMemory ∨ stores index = .emptyTable) :
    Labelled ∅ { stores } := by
  refine ⟨.start, nofun, fun index cell hcell => ?_⟩
  rcases hempty index with h | h
  · have hcell' : Store.emptyMemory.Remembers cell := h ▸ hcell
    obtain ⟨_, _, hfind⟩ := hcell'
    cases hfind
  · have hcell' : Store.emptyTable.Remembers cell := h ▸ hcell
    exact hcell'.elim

variable [DecidableEq ι]

/-- A request keeps all labels distinct. -/
theorem Labelled.perform {held : Set Link} (h : session.Labelled held) (request : Request ι)
    (harguments : ∀ item ∈ request.arguments, item ∈ session.items) :
    ∃ held', held ⊆ held' ∧ (session.perform request).Labelled held' := by
  have hhas : ∀ item ∈ request.arguments, Craft.labelled.Has held item :=
    fun item hitem => h.items item (harguments item hitem)
  have hold : ∀ {held' item}, held ⊆ held' → item ∈ session.items →
      Craft.labelled.Has held' item :=
    fun hsub hitem => Craft.Has.mono (h.items _ hitem) hsub
  cases request with
  | cells operation =>
    obtain ⟨held', hsub, hknown, -, hpost⟩ :=
      Operation.keeps_run (fun _ _ _ => Craft.labelled_resolves) hhas session.known h.known trivial
    refine ⟨held', hsub, hknown, fun item hitem => ?_,
      fun index cell hcell => (h.remembers index cell hcell).mono hsub⟩
    rcases mem_items hitem with hitem | ⟨found, hfound, hitem⟩
    · exact hold hsub hitem
    · exact hpost found hfound item hitem
  | store index operation =>
    obtain ⟨held', hsub, hsite, -, hpost⟩ := Site.keeps_run hhas (session.site index)
      ⟨h.known, h.remembers index⟩ trivial
    refine ⟨held', hsub, hsite.known, fun item hitem => ?_, fun other cell hcell => ?_⟩
    · rcases mem_items hitem with hitem | ⟨found, hfound, hitem⟩
      · exact hold hsub hitem
      · exact hpost found hfound item hitem
    · rw [stores_performStore] at hcell
      split at hcell
      · exact hsite.remembers cell hcell
      · exact (h.remembers other cell hcell).mono hsub

theorem Reached.labelled (h : session.Reached) : ∃ held, session.Labelled held := by
  induction h with
  | start stores empty => exact ⟨∅, labelled_start empty⟩
  | step request reached arguments fits ih =>
    obtain ⟨held, hheld⟩ := ih
    obtain ⟨held', -, hheld'⟩ := hheld.perform request arguments
    exact ⟨held', hheld'⟩

/-- Two cells of a session with one label are one cell. -/
theorem Reached.cell_eq (h : session.Reached) {a b : Cell} (ha : a ∈ session.cells)
    (hb : b ∈ session.cells) (heq : a.label = b.label) : a = b := by
  obtain ⟨held, hheld⟩ := h.labelled
  have hmark := hheld.known.label_inj _ (hheld.marked ha).mark _ (hheld.marked hb).mark heq
  exact (Link.direct.inj hmark).2

end Session

end CellGraph
