import CellGraph.Proofs.Computation.StoreCraft
import CellGraph.Proofs.Store.Completeness
import CellGraph.Proofs.Store.Deposits
import CellGraph.Store.Handle

/-!
# What computations write

Whatever a computation on a store does, also if it fails: the cells in use stay sound, what is known
only grows, and the store changes by writes of sound cells, each of which is in the journal. A walk
writes with the status that is its goal, and everything else writes nothing.

* `Site.Writes`: some writes, and nothing else, have been made to a store;
* `Deposits.law`, `Deposits.craft`: the law that all computations keep, with the statuses that they
  may write, and the steps that keep it;
* `StoreCraft.keeps_checkComplete`, `StoreCraft.keeps_find`: checks, and lookups under a policy.
-/

namespace CellGraph

open StoreAction

/-- A cell whose value is sound, all of whose links are in use. -/
abbrev Cell.Usable (held : Set Link) (cell : Cell) : Prop := cell.Within (·.value.Sound) held

/-- A usable cell is sound at every depth. -/
theorem Cell.sound_of_usable {held : Set Link} {known : Knowledge}
    (hcoherent : Coherent (·.value.Sound) held known) {cell : Cell} (h : cell.Usable held) :
    cell.Sound :=
  ⟨h.good, fun link hlink t ht => (hcoherent.target link (h.links link hlink) t ht).good⟩

namespace Site

/-- These writes, and nothing else, have been made to the store. -/
structure Writes (site : Site) (writes : List (Cell × Status)) (site' : Site) : Prop where
  store : site'.store = site.store.after writes
  journal : site'.journal = site.store.trail writes ++ site.journal

theorem Writes.trans {site site' site'' : Site} {first rest : List (Cell × Status)}
    (h : site.Writes first site') (h' : site'.Writes rest site'') :
    site.Writes (first ++ rest) site'' := by
  refine ⟨?_, ?_⟩
  · rw [h'.store, h.store, Store.after_append]
  · rw [h'.journal, h.journal, h.store, Store.trail_append, List.append_assoc]

/-- Sound cells have been written, each with a status that is allowed. -/
def Deposits (allowed : Status → Prop) (site site' : Site) : Prop :=
  ∃ writes, site.Writes writes site' ∧ ∀ write ∈ writes, write.1.Sound ∧ allowed write.2

variable {allowed : Status → Prop}

theorem Deposits.of_eq {site site' : Site} (hstore : site'.store = site.store)
    (hjournal : site'.journal = site.journal) : site.Deposits allowed site' :=
  ⟨[], ⟨hstore, hjournal⟩, nofun⟩

end Site

namespace Deposits

variable {allowed : Status → Prop}

/--
The law of computations on a store that write with certain statuses: cells in use are sound, and so
are those that the store remembers.
-/
def law (allowed : Status → Prop) : Law Site where
  inv held site := Coherent (·.value.Sound) held site.known ∧
    ∀ cell, site.store.Remembers cell → cell.Usable held
  le _ site _ site' := site.known.Grows site'.known ∧ site.Deposits allowed site'
  refl _ site := ⟨.refl _, .of_eq rfl rfl⟩
  trans := by
    rintro _ _ _ _ _ _ ⟨hgrows, first, hfirst, hallowed⟩ ⟨hgrows', rest, hrest, hallowed'⟩
    refine ⟨hgrows.trans hgrows', first ++ rest, hfirst.trans hrest, fun write hwrite => ?_⟩
    exact (List.mem_append.1 hwrite).elim (hallowed write) (hallowed' write)

theorem law_extends : (law allowed).Extends (Knowledge.law (·.value.Sound)) where
  known hinv := hinv.1
  learn hinv hsub hcoherent hmoves :=
    ⟨⟨hcoherent, fun cell hcell => (hinv.2 cell hcell).mono hsub⟩, hmoves.learns.toGrows,
      .of_eq rfl rfl⟩

/-- The craft of usable cells, written with certain statuses. -/
def craft (allowed : Status → Prop) : StoreCraft where
  law := law allowed
  Owns held cell := cell.Usable held
  May := allowed
  mono h := h.mono
  links h link hlink := h.links link (Cell.mem_everyLink_of_mem hlink)
  resident hinv hlink hcell := hinv.1.resident hlink hcell
  remembers hinv := hinv.2 _
  notes h := (law_extends.keeps_ofCalc (Knowledge.keeps_notes h)).mono_right
    fun _ _ _ _ => trivial
  decode _ := (law_extends.keeps_outcome
    (Knowledge.keeps_decode fun _ hsound _ => hsound)).mono_right
    fun _ _ _ h cell hcell => (h cell hcell).1
  accept hlink hfound := (law_extends.keeps_ofAttempt
    (Knowledge.keeps_accept hlink hfound)).mono_right fun _ _ _ h => h.1
  link hcell := (law_extends.keeps_ofCalc (Knowledge.keeps_link hcell)).mono_right
    fun _ _ _ h => h.1
  advance hlink status _ hinv _ :=
    ⟨_, subset_rfl, ⟨hinv.1.advance hlink status, hinv.2⟩, ⟨.advance _ _ _, .of_eq rfl rfl⟩,
      fun _ _ => trivial⟩
  report _ _ hinv _ :=
    ⟨_, subset_rfl, hinv, ⟨.refl _, .of_eq rfl rfl⟩, fun _ _ => trivial⟩
  write hinv hcell hmay := by
    refine ⟨⟨hinv.1, fun other hother => ?_⟩, .refl _, [(_, _)], ⟨rfl, rfl⟩, ?_⟩
    · rcases Store.remembers_insert hother with hother | rfl
      · exact hinv.2 other hother
      · exact hcell
    · rintro _ hwrite
      cases List.mem_singleton.1 hwrite
      exact ⟨Cell.sound_of_usable hinv.1 hcell, hmay⟩

end Deposits

/-! ### Checks and lookups under a policy -/

namespace StoreCraft

variable (craft : StoreCraft)

/-- A count of the cells below a cell reads, and lets soft links hold what it has read. -/
theorem keeps_countWithin (hops : Nat) :
    ∀ {held : Set Link} {cell : Cell}, craft.Owns held cell →
      craft.law.Keeps held (fun _ => True) (cell.countWithin hops) fun _ _ _ => True := by
  induction hops with
  | zero => exact fun _ => .throw _
  | succ hops ih =>
    intro held cell hcell
    -- The induction is on the cell: targets that it holds are counted with it, and those of soft
    -- links by what is left of the hops.
    show craft.law.Keeps held _ (Cell.countLinks (Cell.countWithin hops) cell) _
    induction cell using Cell.induct generalizing held with
    | step label value ihCell =>
      rw [Cell.countLinks_mk]
      refine .foldlM (fun link hlink total held₁ hsub₁ => ?_) 1
      have hlink₁ := hsub₁ (craft.links hcell link hlink)
      have hcount : craft.law.Keeps held₁ (fun _ => True)
          (link.countBelow (Cell.countWithin hops)) fun _ _ _ => True := by
        cases link with
        | direct label target =>
          exact .from_state fun site hinv _ =>
            (ihCell _ hlink target rfl (craft.resident hinv hlink₁ rfl)).of_always
        | soft label digest =>
          exact (craft.keeps_resolve hlink₁).bind fun target held₂ _ => .assume ih
      exact hcount.bind fun _ _ _ => .pure fun _ _ _ => trivial

theorem keeps_countBelow (hops : Nat) {held : Set Link} {link : Link} (hlink : link ∈ held) :
    craft.law.Keeps held (fun _ => True) (link.countBelow (Cell.countWithin hops))
      fun _ _ _ => True := by
  cases link with
  | direct label target =>
    exact .from_state fun site hinv _ =>
      (craft.keeps_countWithin (hops + 1) (craft.resident hinv hlink rfl)).of_always
  | soft label digest =>
    exact (craft.keeps_resolve hlink).bind fun target held₂ _ =>
      .assume (craft.keeps_countWithin hops)

theorem keeps_checkComplete {held : Set Link} {cell : Cell} (hcell : craft.Owns held cell) :
    craft.law.Keeps held (fun _ => True) (checkComplete cell) fun _ _ _ => True :=
  .get_bind fun site _ _ => (craft.keeps_countWithin (hopLimit site) hcell).of_always

end StoreCraft

/-- The first part of a lookup under a policy: what the store has. -/
def Settings.read (settings : Settings) (key : Digest) : StoreAction (Option Cell) :=
  if settings.verifyDigests then StoreAction.lookup key else StoreAction.get key

/-- What the store has may be checked further. -/
theorem Settings.lookup_eq (settings : Settings) (key : Digest) :
    settings.lookup key = do
      let found ← settings.read key
      if settings.validateOnLookup then
        if let some cell := found then
          discard (StoreAction.checkComplete cell)
      return found := by
  unfold Settings.lookup Settings.read
  cases settings.verifyDigests <;> rfl

/-- A lookup under a policy gives what is read, and looks further at most. -/
theorem Settings.keeps_lookup (settings : Settings) {law : Law Site}
    (owns : Set Link → Cell → Prop) {held : Set Link} {key : Digest}
    (hmono : ∀ {held held' cell}, owns held cell → held ⊆ held' → owns held' cell)
    (hread : law.Keeps held (fun _ => True) (settings.read key)
      fun found held' _ => ∀ cell ∈ found, owns held' cell)
    (hcheck : ∀ {held cell}, owns held cell →
      law.Keeps held (fun _ => True) (checkComplete cell) fun _ _ _ => True) :
    law.Keeps held (fun _ => True) (settings.lookup key)
      fun found held' _ => ∀ cell ∈ found, owns held' cell := by
  rw [Settings.lookup_eq]
  refine hread.bind fun found held₁ _ => .assume fun hfound => ?_
  have hreturn : ∀ held₂, held₁ ⊆ held₂ → law.Keeps held₂ (fun _ => True)
      (pure found : StoreAction (Option Cell)) fun found held' _ => ∀ cell ∈ found,
        owns held' cell :=
    fun held₂ hsub => .pure fun _ _ _ cell hcell => hmono (hfound cell hcell) hsub
  split
  · cases found with
    | none => exact hreturn held₁ subset_rfl
    | some cell =>
      have hdiscard : law.Keeps held₁ (fun _ => True) (discard (checkComplete cell))
          fun _ _ _ => True := by
        simp only [Functor.discard, LawfulFunctor.map_const, Function.comp_apply, map_eq_pure_bind]
        exact (hcheck (hfound cell rfl)).bind fun _ _ _ => .pure fun _ _ _ => trivial
      exact hdiscard.bind fun _ held₂ hsub => (hreturn held₂ hsub).of_always
  · exact hreturn held₁ subset_rfl

namespace StoreCraft

variable (craft : StoreCraft) {held : Set Link}

theorem keeps_read (settings : Settings) (key : Digest) :
    craft.law.Keeps held (fun _ => True) (settings.read key)
      fun found held' _ => ∀ cell ∈ found, craft.Owns held' cell := by
  unfold Settings.read
  split
  · exact craft.keeps_lookup key
  · exact craft.keeps_get key

/-- A lookup under a policy reads. -/
theorem keeps_find (settings : Settings) (key : Digest) :
    craft.law.Keeps held (fun _ => True) (settings.lookup key)
      fun found held' _ => ∀ cell ∈ found, craft.Owns held' cell :=
  settings.keeps_lookup craft.Owns craft.mono (craft.keeps_read settings key)
    craft.keeps_checkComplete

end StoreCraft

end CellGraph
