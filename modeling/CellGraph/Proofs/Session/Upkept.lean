import CellGraph.Proofs.Session.Chronicle
import CellGraph.Proofs.Walk.Reload
import CellGraph.Proofs.Walk.Schedule

/-!
# Sessions whose only store is kept up by walks

A user with one store makes cells as above, brings some of them up to a status, looks cells up, and
follows soft links. As long as no cell is given to a soft link by hand, the store is tended, and all
that the user gets can be told from its entries.

* `Origin.Orderly.find`: a lookup, whatever the policy;
* `Session.Upkept`: sessions whose only store is tended;
* `Session.Upkept.performCells`, `Session.Upkept.afterCall`: what keeps them so;
* `Session.Upkept.make`, `Session.Upkept.find`, `Session.Upkept.follow`: the calls.
-/

namespace CellGraph

open StoreAction

namespace Origin

variable {origin : Origin} {held : Set Link} {site : Site}

theorem keeps_read (settings : Settings) (key : Digest) :
    origin.law.Keeps held (fun _ => True) (settings.read key)
      fun found held' _ => ∀ cell ∈ found, cell.Within origin.Covers held' := by
  rw [Settings.read]
  split
  · exact StoreOperation.keeps_lookup key
  · exact (keeps_get key).mono_right fun _ _ _ h cell hcell => (h cell hcell).1

/-- A lookup under a policy. -/
theorem keeps_find (settings : Settings) (key : Digest) :
    origin.law.Keeps held (fun _ => True) (settings.lookup key)
      fun found held' _ => ∀ cell ∈ found, cell.Within origin.Covers held' :=
  settings.keeps_lookup (fun held cell => cell.Within origin.Covers held) (fun h => h.mono)
    (keeps_read settings key) fun {held' cell} hcell => .get_bind fun site _ _ =>
      (tallies_countWithin (hopLimit site) held' cell subset_rfl hcell).of_always

end Origin

/-- What a store gives under a policy is the cell of the entry. -/
theorem Settings.run_read (settings : Settings) {site : Site} (hsound : site.store.Sound)
    (key : Digest) :
    ∃ found noted, (settings.read key).run.run site = (.ok found, { site with known := noted }) ∧
      found.map Cell.encode = (site.store.find? key).map Prod.fst := by
  obtain ⟨_, noted, -, -, hget⟩ := StoreAction.run_get key site
  cases hentry : site.store.find? key with
  | none =>
    rw [hsound.legible.read_of_none hentry] at hget
    refine ⟨none, noted, ?_, rfl⟩
    rw [read]
    split
    · rw [StoreAction.lookup, run_run_bind, hget]
      rfl
    · exact hget
  | some entry =>
    obtain ⟨encoding, status⟩ := entry
    rw [read]
    split
    · obtain ⟨cell, _, noted', -, -, -, hencode, hrun⟩ := run_lookup hsound hentry
      exact ⟨some cell, noted', hrun, congrArg some hencode⟩
    · obtain ⟨cell, hread, hencode⟩ := hsound.exists_read hentry site.known
      rw [hread] at hget
      exact ⟨some cell, noted, hget, congrArg some hencode⟩

namespace Origin.Orderly

variable {origin : Origin} {held : Set Link} {known : Knowledge} {store : Store}

/-- A check of a cell that has an entry succeeds, for nothing is missing below entries. -/
theorem exists_check (h : origin.Orderly held { known, store })
    (hinj : Set.InjOn Digest.of origin.encodings) {cell : Cell}
    (hcell : cell.Within origin.Covers held) {key : Digest} {status : Status}
    (hentry : store.find? key = some (cell.encode, status)) :
    ∃ count later, (checkComplete cell).run.run { known, store } = (.ok count, later) := by
  obtain ⟨hfind, hnamed⟩ := h.whole key (by
    rw [show store.find? key = _ from hentry]
    rfl)
  obtain ⟨rfl, -⟩ := Prod.mk.inj (Option.some.inj (hentry.symm.trans hfind))
  obtain ⟨-, _, later, -, hcheck⟩ :=
    h.inv.exists_whole hinj h.whole (h.covers_now.symm ▸ hcell) hnamed
  exact ⟨_, later, hcheck⟩

/-- A lookup gives the cell of the entry, if there is one, whatever the policy. -/
theorem find (h : origin.Orderly held { known, store })
    (hinj : Set.InjOn Digest.of origin.encodings) (settings : Settings) (key : Digest) :
    ∃ held' found, held ⊆ held' ∧
      origin.Orderly held' ((settings.lookup key).run.run { known, store }).2 ∧
      Site.Asked { known, store } ((settings.lookup key).run.run { known, store }).2 ∧
      ((settings.lookup key).run.run { known, store }).1 = .ok found ∧
      (∀ cell ∈ found, cell.Within origin.Covers held') ∧
      found.map Cell.encode = (store.find? key).map Prod.fst := by
  have hkeeps : h.now.law.Keeps held (fun _ => True) (settings.lookup key) _ :=
    keeps_find settings key
  rw [h.covers_now] at hkeeps
  obtain ⟨held', hsub, horderly, hasked, hpost⟩ := h.ask (.find settings key) hkeeps
  obtain ⟨found, noted, hread, hencode⟩ := settings.run_read h.store key
  have houtcome : ((settings.lookup key).run.run { known, store }).1 = .ok found := by
    rw [Settings.lookup_eq, run_run_bind, hread]
    dsimp only
    split
    · cases found with
      | none => rfl
      | some cell =>
        have hreads : h.now.law.Keeps held (fun _ => True) (settings.read key) _ :=
          keeps_read settings key
        rw [h.covers_now] at hreads
        obtain ⟨held₁, -, h₁, -, hfound⟩ := h.ask (.read settings key) hreads
        rw [hread] at h₁ hfound
        obtain ⟨⟨encoding, status⟩, hentry, rfl⟩ := Option.map_eq_some_iff.1 hencode.symm
        obtain ⟨count, later, hcheck⟩ := h₁.exists_check hinj (hfound _ rfl cell rfl) hentry
        simp only [Functor.discard, LawfulFunctor.map_const, Function.comp_apply, map_eq_pure_bind]
        rw [run_run_bind, run_run_bind, hcheck]
        rfl
    · rfl
  exact ⟨held', found, hsub, horderly, hasked, houtcome, hpost found houtcome, hencode⟩

end Origin.Orderly

namespace Session

variable {session : Session Unit}

/-! ### One store that is tended -/

/-- The cells and the store of a session are sound, and the store is tended. -/
structure Upkept (session : Session Unit) : Prop where
  sound : session.Sound
  tended : (session.site ()).Tended session.links

namespace Upkept

theorem orderly (h : session.Upkept) :
    (session.origin h.sound).Orderly session.links (session.site ()) :=
  { h.tended with
    coherent := h.sound.coherent_covers
    store := h.sound.store ()
    remembers := fun _ hcell => h.sound.covers (.inr (.inr (.inr ⟨(), hcell⟩)))
    encodings := fun key _ status hentry => .inr ⟨(), key, status, hentry⟩ }

theorem start {store : Store} (hempty : store = .emptyMemory ∨ store = .emptyTable) :
    Upkept { stores := fun _ => store } := by
  have hentry : ∀ key, store.find? key = none := by
    rcases hempty with rfl | rfl <;> exact fun _ => rfl
  refine ⟨(inv_start fun _ => hempty).toSound, fun link hlink => ?_,
    fun key encoding status h => ?_, Store.whole_of_empty hempty, fun label cell hcell => ?_⟩
  · rw [(usable_start fun _ => hempty).1] at hlink
    exact hlink.elim
  · cases (hentry key).symm.trans h
  · simp [site] at hcell

/-- A request about cells keeps a store tended, unless a soft link is given a cell by hand. -/
theorem performCells (h : session.Upkept) {operation : Operation}
    (harguments : ∀ item ∈ operation.arguments, item ∈ session.items)
    (hfits : (session.perform (.cells operation)).Fits)
    (hown : ∀ link found, operation ≠ .resolve link found) :
    (session.perform (.cells operation)).Upkept := by
  obtain ⟨held, hmoves, hlinks, husable⟩ := h.sound.usable.performCells harguments hfits
  have hsteady : Craft.steady.law.Keeps session.links (fun _ => True) operation.run _ :=
    Operation.keeps_run (fun link found heq => absurd heq (hown link found))
      fun item hitem => Craft.has_steady.2 (h.sound.items item (harguments item hitem))
  obtain ⟨-, -, -, ⟨-, hkept⟩, -⟩ := hsteady session.known h.sound.coherent trivial
  have hasked : (session.site ()).Asked ((session.perform (.cells operation)).site ()) :=
    ⟨rfl, rfl, hmoves.learns, fun label cell hcell => .inl (hkept ▸ hcell)⟩
  refine ⟨⟨husable.coherent, husable.items, h.sound.store, husable.remembers, hfits⟩,
    h.tended.ask hasked fun link hlink hnot => ?_⟩
  exact h.sound.coherent.status _ (hmoves.fresh link (hlinks hlink) hnot)

/--
A call that runs a computation, after which the store is tended, and makes items of what this gives.
-/
theorem afterCall (h : session.Upkept) {α : Type} {call : StoreCall} {action : StoreAction α}
    {items : α → List Item} (hcall : call.run = do return items (← action)) {held : Set Link}
    (hsub : session.links ⊆ held)
    (horderly : (session.origin h.sound).Orderly held (action.run.run (session.site ())).2)
    (hitems : ∀ a, (action.run.run (session.site ())).1 = .ok a →
      ∀ item ∈ items a, item.Within held) :
    ((session.call () call).Fits → (session.call () call).Upkept) ∧
      call.run.run.run (session.site ()) =
        ((action.run.run (session.site ())).1.map items,
          (action.run.run (session.site ())).2) := by
  have hrun : call.run.run.run (session.site ()) =
      ((action.run.run (session.site ())).1.map items, (action.run.run (session.site ())).2) := by
    rw [hcall]
    exact Prod.ext (fst_run_map ..) (snd_run_map ..)
  refine ⟨fun hfits => ?_, hrun⟩
  have hstore : ∀ index, (session.call () call).stores index =
      (action.run.run (session.site ())).2.store := by
    rintro ⟨⟩
    exact (Function.update_self () _ session.stores).trans (congrArg (·.2.store) hrun)
  have hknown : (session.call () call).known = (action.run.run (session.site ())).2.known :=
    congrArg (·.2.known) hrun
  have hend : (session.call () call).links ⊆ held ∧ (session.call () call).Sound := by
    refine sound_of_held _ (hknown ▸ horderly.coherent) (fun _ hgood => hgood.sound.valid)
      (fun item hitem => ?_) (fun index => ?_) (fun index cell hcell => ?_) hfits
    · rcases mem_items hitem with hitem | ⟨found, hfound, hitem⟩
      · exact (h.sound.items item hitem).mono hsub
      · have hmap := (congrArg Prod.fst hrun).symm.trans hfound
        cases houtcome : (action.run.run (session.site ())).1 with
        | error fault =>
          rw [houtcome] at hmap
          cases hmap
        | ok a =>
          rw [houtcome] at hmap
          cases hmap
          exact hitems a houtcome item hitem
    · rw [hstore]
      exact horderly.store
    · rw [hstore] at hcell
      exact StoreOperation.within_of_covers (horderly.remembers cell hcell)
  exact ⟨hend.2, (horderly.toTended.restrict hend.1).of_eq hknown (hstore ())⟩

/-! ### Calls -/

/-- What comes of a call to make something: a link to the cell, or a digest that is missing. -/
inductive Made (cell : Cell) : Except StoreFault (List Item) → Option Digest → Prop
  | link (label : Label) : Made cell (.ok [.link (.direct label cell)]) none
  | missing (digest : Digest) : Made cell (.error (.cell (.missingData digest))) (some digest)

/-- A cell is brought up to a status, by any plan of it, or something is found to be missing. -/
theorem make (h : session.Upkept) (hinj : Set.InjOn Digest.of session.encodings) {goal : Status}
    (hstored : .stored ≤ goal) {cell plan : Cell} (hcell : .cell cell ∈ session.items)
    (hparallel : cell.Parallel (View.Has (session.stores ()).find?) plan) :
    ((session.call () (.make goal cell)).Fits → (session.call () (.make goal cell)).Upkept) ∧
      ∃ tasks missing,
        Made cell ((StoreCall.make goal cell).run.run.run (session.site ())).1 missing ∧
        Agenda.Ends goal ((session.site ()).agenda [.cell plan])
          (((StoreCall.make goal cell).run.run.run (session.site ())).2.agenda tasks) missing := by
  have hmem : cell ∈ session.cells := .inl hcell
  obtain ⟨held, hsub, horderly, -, hend⟩ := h.orderly.make hinj hstored (h.sound.covers hmem)
    (.inl ⟨cell, hmem, rfl⟩) hparallel
  obtain ⟨hupkept, hrun⟩ := h.afterCall (show (StoreCall.make goal cell).run = _ from rfl) hsub
    horderly fun link hlink item hitem => by
      rw [hlink] at hend
      cases List.mem_singleton.1 hitem
      exact hend.1.2
  refine ⟨hupkept, ?_⟩
  rw [hrun]
  cases houtcome : ((StoreAction.make goal cell).run.run (session.site ())).1 with
  | ok link =>
    rw [houtcome] at hend
    obtain ⟨⟨⟨label, rfl⟩, -⟩, hends⟩ := hend
    exact ⟨[], none, .link label, hends⟩
  | error fault =>
    rw [houtcome] at hend
    obtain ⟨digest, tasks, rfl, hends⟩ := hend
    exact ⟨tasks, some digest, .missing digest, hends⟩

/-- A cell is looked up. -/
theorem find (h : session.Upkept) (hinj : Set.InjOn Digest.of session.encodings)
    (settings : Settings) (key : Digest) :
    ((session.call () (.find settings key)).Fits →
        (session.call () (.find settings key)).Upkept) ∧
      (session.site ()).Asked
        ((StoreCall.find settings key).run.run.run (session.site ())).2 ∧
      ∃ found : Option Cell,
        ((StoreCall.find settings key).run.run.run (session.site ())).1 =
          .ok (found.toList.map .cell) ∧
        (∀ cell ∈ found, cell.Sound) ∧
        found.map Cell.encode = ((session.stores ()).find? key).map Prod.fst := by
  obtain ⟨held, found, hsub, horderly, hasked, houtcome, hwithin, hencode⟩ :=
    h.orderly.find hinj settings key
  obtain ⟨hupkept, hrun⟩ := h.afterCall (show (StoreCall.find settings key).run = _ from rfl) hsub
    horderly fun found' hfound' item hitem => by
      cases houtcome.symm.trans hfound'
      obtain ⟨cell, hcell, rfl⟩ := List.mem_map.1 hitem
      exact StoreOperation.within_of_covers (hwithin cell (Option.mem_toList.1 hcell))
  refine ⟨hupkept, by rw [hrun]; exact hasked, found, ?_,
    fun cell hcell => Origin.sound_of_within horderly.coherent (hwithin cell hcell), hencode⟩
  rw [hrun]
  exact congrArg (Except.map _) houtcome

/-- A soft link is followed to its entry. -/
theorem follow (h : session.Upkept) {label : Label} {digest : Digest}
    (hlink : .link (.soft label digest) ∈ session.items) :
    ((session.call () (.resolve (.soft label digest))).Fits →
        (session.call () (.resolve (.soft label digest))).Upkept) ∧
      (session.site ()).Asked
        ((StoreCall.resolve (.soft label digest)).run.run.run (session.site ())).2 ∧
      match (session.stores ()).find? digest with
      | some (encoding, _) => ∃ cell : Cell, cell.Sound ∧ cell.encode = encoding ∧
          ((StoreCall.resolve (.soft label digest)).run.run.run (session.site ())).1 =
            .ok [.cell cell]
      | none => ((StoreCall.resolve (.soft label digest)).run.run.run (session.site ())).1 =
          .error (.cell (.missingData digest)) := by
  obtain ⟨held, hsub, horderly, hasked, hend⟩ := h.orderly.follow (h.sound.items _ hlink)
  obtain ⟨hupkept, hrun⟩ := h.afterCall
    (show (StoreCall.resolve (.soft label digest)).run = _ from rfl) hsub horderly
    fun cell hcell item hitem => by
      rw [hcell] at hend
      cases List.mem_singleton.1 hitem
      exact StoreOperation.within_of_covers hend.1.1
  rw [hrun]
  refine ⟨hupkept, hasked, ?_⟩
  cases houtcome : ((StoreAction.resolve (.soft label digest)).run.run (session.site ())).1 with
  | ok cell =>
    rw [houtcome] at hend
    obtain ⟨⟨hwithin, -⟩, status, hentry⟩ := hend
    rw [show (session.stores ()).find? digest = _ from hentry]
    exact ⟨cell, Origin.sound_of_within horderly.coherent hwithin, rfl, rfl⟩
  | error fault =>
    rw [houtcome] at hend
    obtain ⟨rfl, hentry⟩ := hend
    rw [show (session.stores ()).find? digest = _ from hentry]
    rfl

end Upkept

end Session

end CellGraph
