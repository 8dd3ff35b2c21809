import CellGraph.Proofs.Session.Requests

/-!
# What holds in every session

Whatever a user asks for, cells and stores stay sound, and what has been brought up to a status in a
store stays settled there.

* `Session.Usable`, `Session.Sound`: cells and links of a session, and its stores;
* `Session.Inv`: the invariant of sessions;
* `Session.Inv.performCells`, `Session.Inv.performStore`: one request;
* `Session.Reached.inv`: every session that can come about.
-/

namespace CellGraph.Session

variable {ι : Type} {session session' : Session ι}

/-- The digests of some names are settled in a store of a session. -/
abbrev Settles (session : Session ι) (index : ι) (rank : Nat) (names : List Digest)
    (status : Status) : Prop :=
  Settled session.links session.known (session.stores index) rank names status

/-! ### All that is there in a session -/

/-- A session has grown. -/
structure Grows (session session' : Session ι) : Prop where
  known : session.known.Grows session'.known
  store : ∀ index, (session.stores index).Grows (session'.stores index)
  items : ∀ item ∈ session.items, item ∈ session'.items

theorem Grows.links (h : session.Grows session') : session.links ⊆ session'.links := by
  rintro link (⟨item, hitem, hlink⟩ | ⟨label, cell, hcell, hlink⟩ | ⟨index, cell, hcell, hlink⟩)
  · exact .inl ⟨item, h.items item hitem, hlink⟩
  · exact .inr (.inl ⟨label, cell, h.known.kept label cell hcell, hlink⟩)
  · exact .inr (.inr ⟨index, cell, (h.store index).remembers cell hcell, hlink⟩)

theorem Grows.cells (h : session.Grows session') : session.cells ⊆ session'.cells := by
  rintro cell (hcell | ⟨link, hlink, hcell⟩ | ⟨label, hcell⟩ | ⟨index, hcell⟩)
  · exact .inl (h.items _ hcell)
  · exact .inr (.inl ⟨link, h.links hlink, hcell⟩)
  · exact .inr (.inr (.inl ⟨label, h.known.kept label cell hcell⟩))
  · exact .inr (.inr (.inr ⟨index, (h.store index).remembers cell hcell⟩))

theorem Grows.encodings (h : session.Grows session') : session.encodings ⊆ session'.encodings := by
  rintro bytes (⟨cell, hcell, hbytes⟩ | ⟨index, key, status, hentry⟩)
  · exact .inl ⟨cell, h.cells hcell, hbytes⟩
  · obtain ⟨status', -, hentry'⟩ := (h.store index).entry key bytes status hentry
    exact .inr ⟨index, key, status', hentry'⟩

theorem everyLink_of_mem_links {link other : Link} (h : link ∈ session.links)
    (hother : other ∈ link.everyLink) : other ∈ session.links := by
  have hcell : ∀ {cell : Cell}, link ∈ cell.everyLink → other ∈ cell.everyLink := by
    intro cell hlink
    rcases Link.mem_everyLink.1 hother with rfl | ⟨t, ht, hother⟩
    · exact hlink
    · exact Cell.mem_everyLink_trans hlink ht hother
  have hlink : ∀ {first : Link}, link ∈ first.everyLink → other ∈ first.everyLink := by
    intro first hlink
    rcases Link.mem_everyLink.1 hlink with rfl | ⟨t, ht, hlink⟩
    · exact hother
    · exact Link.mem_everyLink.2 (.inr ⟨t, ht, hcell hlink⟩)
  rcases h with ⟨item, hitem, hbelow⟩ | ⟨label, cell, hkept, hbelow⟩ | ⟨index, cell, hheld, hbelow⟩
  · refine .inl ⟨item, hitem, ?_⟩
    cases item with
    | cell c => exact hcell hbelow
    | link l => exact hlink hbelow
    | record r =>
      obtain ⟨first, hfirst, hbelow⟩ := List.mem_flatMap.1 hbelow
      exact List.mem_flatMap.2 ⟨first, hfirst, hlink hbelow⟩
  · exact .inr (.inl ⟨label, cell, hkept, hcell hbelow⟩)
  · exact .inr (.inr ⟨index, cell, hheld, hcell hbelow⟩)

/-- The cells and the links of a session are valid. -/
structure Usable (session : Session ι) : Prop where
  coherent : Coherent Cell.Valid session.links session.known
  items : ∀ item ∈ session.items, item.Within session.links
  remembers : ∀ index cell, (session.stores index).Remembers cell →
    cell.Within Cell.Valid session.links
  fits : session.Fits

/-- If all that there is is among the links in use, the session is usable. -/
theorem usable_of_held (session : Session ι) {good : Cell → Prop} {held : Set Link}
    (hcoherent : Coherent good held session.known) (hgood : ∀ cell, good cell → cell.Valid)
    (hitems : ∀ item ∈ session.items, item.Within held)
    (hremembers : ∀ index cell, (session.stores index).Remembers cell →
      cell.Within Cell.Valid held)
    (hfits : session.Fits) : session.links ⊆ held ∧ session.Usable := by
  have hsub : session.links ⊆ held := by
    rintro link (⟨item, hitem, hlink⟩ | ⟨label, cell, hcell, hlink⟩ | ⟨index, cell, hcell, hlink⟩)
    · exact (hitems item hitem).everyLink hcoherent link hlink
    · exact (hcoherent.kept label cell hcell).2.2.links link hlink
    · exact (hremembers index cell hcell).links link hlink
  -- What is below a link of the session is in the session too, so its own links will do.
  refine ⟨hsub, ?_, fun item hitem => ?_, fun index cell hcell => ?_, hfits⟩
  · refine hcoherent.restrict hsub (fun link hlink other => everyLink_of_mem_links hlink)
      (fun link hlink t ht => hgood t (hcoherent.target link (hsub hlink) t ht).good)
      fun label cell hcell => ⟨hgood cell (hcoherent.kept label cell hcell).2.2.good, ?_⟩
    exact fun link hlink => .inr (.inl ⟨label, cell, hcell, hlink⟩)
  · have hlinks : ∀ link ∈ item.everyLink, link ∈ session.links := fun link hlink =>
      .inl ⟨item, hitem, hlink⟩
    have hwithin := hitems item hitem
    cases item with
    | cell c => exact ⟨Cell.Within.good hwithin, hlinks⟩
    | link l => exact hlinks l l.self_mem_everyLink
    | record r => exact ⟨StakeRecord.Within.valid hwithin, fun link hlink =>
        hlinks link (List.mem_flatMap.2 ⟨link, hlink, link.self_mem_everyLink⟩)⟩
  · exact ⟨(hremembers index cell hcell).good,
      fun link hlink => .inr (.inr ⟨index, cell, hcell, hlink⟩)⟩

/-- The cells of a usable session are sound. -/
theorem Usable.valid (h : session.Usable) {cell : Cell} (hcell : cell ∈ session.cells) :
    cell.Within Cell.Valid session.links := by
  rcases hcell with hcell | ⟨link, hlink, hcell⟩ | ⟨label, hcell⟩ | ⟨index, hcell⟩
  · exact h.items _ hcell
  · exact h.coherent.target link hlink cell hcell
  · exact (h.coherent.kept label cell hcell).2.2
  · exact h.remembers index cell hcell

theorem Usable.value (h : session.Usable) {cell : Cell} (hcell : cell ∈ session.cells) :
    cell.value.Sound :=
  ⟨(h.valid hcell).good, h.fits cell hcell⟩

theorem Usable.cell (h : session.Usable) {cell : Cell} (hcell : cell ∈ session.cells) :
    cell.Sound :=
  ⟨h.value hcell, fun link hlink _ ht =>
    h.value (.inr (.inl ⟨link, (h.valid hcell).links link hlink, ht⟩))⟩

/-- The cells and the links of a session are valid, and its stores are sound. -/
structure Sound (session : Session ι) : Prop where
  coherent : Coherent Cell.Valid session.links session.known
  items : ∀ item ∈ session.items, item.Within session.links
  store : ∀ index, (session.stores index).Sound
  remembers : ∀ index cell, (session.stores index).Remembers cell →
    cell.Within Cell.Valid session.links
  fits : session.Fits

theorem Sound.usable (h : session.Sound) : session.Usable :=
  ⟨h.coherent, h.items, h.remembers, h.fits⟩

/-- If all that there is is among the links in use, the session is sound. -/
theorem sound_of_held (session : Session ι) {good : Cell → Prop} {held : Set Link}
    (hcoherent : Coherent good held session.known) (hgood : ∀ cell, good cell → cell.Valid)
    (hitems : ∀ item ∈ session.items, item.Within held)
    (hstore : ∀ index, (session.stores index).Sound)
    (hremembers : ∀ index cell, (session.stores index).Remembers cell →
      cell.Within Cell.Valid held)
    (hfits : session.Fits) : session.links ⊆ held ∧ session.Sound := by
  obtain ⟨hsub, h⟩ := usable_of_held session hcoherent hgood hitems hremembers hfits
  exact ⟨hsub, h.coherent, h.items, hstore, h.remembers, h.fits⟩

/-- The cells of a sound session are sound. -/
theorem Sound.valid (h : session.Sound) {cell : Cell} (hcell : cell ∈ session.cells) :
    cell.Within Cell.Valid session.links :=
  h.usable.valid hcell

theorem Sound.value (h : session.Sound) {cell : Cell} (hcell : cell ∈ session.cells) :
    cell.value.Sound :=
  h.usable.value hcell

theorem Sound.cell (h : session.Sound) {cell : Cell} (hcell : cell ∈ session.cells) : cell.Sound :=
  h.usable.cell hcell

/-! ### The invariant -/

/--
Statuses of stored links come from the stores that raised them, and a store vouches for the links
that it has raised. If digests tell all encodings apart, a link is settled in each store with the
status that this store has given it, and so is every entry.
-/
structure Inv (session : Session ι) : Prop extends session.Sound where
  raised_le : ∀ index label, session.raised index label ≤ session.known.statusAt label
  raised_by : ∀ label, .stored ≤ session.known.statusAt label →
    ∃ index, session.raised index label = session.known.statusAt label
  vouched : ∀ index, ∀ link ∈ session.links, .stored ≤ session.raised index link.label →
    (session.stores index).Vouches (session.raised index link.label) link
  settled : Set.InjOn Digest.of session.encodings → ∀ index, ∀ link ∈ session.links,
    .stored ≤ session.raised index link.label →
    session.Settles index link.rank link.named (session.raised index link.label)
  closed : Set.InjOn Digest.of session.encodings → ∀ index key encoding status,
    (session.stores index).find? key = some (encoding, status) →
    session.Settles index encoding.length encoding.named status

/-- A link that came into use since has a new label, to which no store had given a status. -/
theorem Inv.mem_links_of_raised (h : session.Inv)
    (hfresh : ∀ link ∈ session'.links, link ∉ session.links → session.known.next ≤ link.label)
    {index : ι} {link : Link} (hlink : link ∈ session'.links)
    (hstored : .stored ≤ session.raised index link.label) : link ∈ session.links := by
  by_contra hnot
  have hunknown := h.coherent.status _ (hfresh link hlink hnot)
  exact absurd (hunknown ▸ hstored.trans (h.raised_le index link.label)) (by decide)

/-- A store that has vouched for a link still does while the session grows. -/
theorem Inv.vouched_grows (h : session.Inv) (hgrows : session.Grows session')
    (hfresh : ∀ link ∈ session'.links, link ∉ session.links → session.known.next ≤ link.label)
    {index : ι} {link : Link} (hlink : link ∈ session'.links)
    (hstored : .stored ≤ session.raised index link.label) :
    (session'.stores index).Vouches (session.raised index link.label) link :=
  (h.vouched index link (h.mem_links_of_raised hfresh hlink hstored) hstored).mono
    (hgrows.store index) le_rfl

/-- What a store has settled stays settled while the session grows. -/
theorem Inv.settled_grows (h : session.Inv) (hgrows : session.Grows session')
    (hfresh : ∀ link ∈ session'.links, link ∉ session.links → session.known.next ≤ link.label)
    (hinj : Set.InjOn Digest.of session'.encodings) {index : ι} {link : Link}
    (hlink : link ∈ session'.links) (hstored : .stored ≤ session.raised index link.label) :
    session'.Settles index link.rank link.named (session.raised index link.label) :=
  (h.settled (hinj.mono hgrows.encodings) index link (h.mem_links_of_raised hfresh hlink hstored)
    hstored).mono hgrows.links hgrows.known (hgrows.store index) le_rfl le_rfl

theorem Inv.closed_grows (h : session.Inv) (hgrows : session.Grows session')
    (hinj : Set.InjOn Digest.of session'.encodings) {index : ι} {key : Digest} {encoding : Bytes}
    {status : Status} (hentry : (session.stores index).find? key = some (encoding, status)) :
    session'.Settles index encoding.length encoding.named status :=
  (h.closed (hinj.mono hgrows.encodings) index key encoding status hentry).mono hgrows.links
    hgrows.known (hgrows.store index) le_rfl le_rfl

/-- At the start there is nothing. -/
theorem usable_start {stores : ι → Store}
    (hempty : ∀ index, stores index = .emptyMemory ∨ stores index = .emptyTable) :
    ({ stores : Session ι }).links = ∅ ∧ Usable { stores } := by
  have hremembers : ∀ index cell, ¬(stores index).Remembers cell := by
    rintro index cell hcell
    rcases hempty index with h | h <;> rw [h] at hcell
    · obtain ⟨_, _, hcell⟩ := hcell
      cases hcell
    · exact hcell
  have hcoherent : Coherent Cell.Valid ∅ {} :=
    ⟨nofun, nofun, nofun, fun _ _ h => by simp at h, nofun, fun _ _ => rfl⟩
  have hlinks : ({ stores : Session ι }).links = ∅ := by
    refine Set.eq_empty_of_forall_notMem ?_
    rintro link (⟨item, hitem, -⟩ | ⟨label, cell, hcell, -⟩ | ⟨index, cell, hcell, -⟩)
    · cases hitem
    · simp at hcell
    · exact hremembers index cell hcell
  have hfits : Fits { stores } := by
    rintro cell (hcell | ⟨link, hlink, -⟩ | ⟨label, hcell⟩ | ⟨index, hcell⟩)
    · cases hcell
    · rw [hlinks] at hlink
      exact hlink.elim
    · simp at hcell
    · exact (hremembers index cell hcell).elim
  exact ⟨hlinks, (usable_of_held _ hcoherent (fun _ h => h) (fun item hitem => by cases hitem)
    (fun index cell hcell => (hremembers index cell hcell).elim) hfits).2⟩

theorem inv_start {stores : ι → Store}
    (hempty : ∀ index, stores index = .emptyMemory ∨ stores index = .emptyTable) :
    Inv { stores } := by
  have hstore : ∀ index, (stores index).Sound := fun index => Store.sound_empty (hempty index)
  have hentry : ∀ index key, (stores index).find? key = none := by
    intro index key
    rcases hempty index with h | h <;> rw [h] <;> rfl
  obtain ⟨-, h⟩ := usable_start hempty
  have hunknown : ¬(Status.stored ≤ .unknown) := by decide
  refine ⟨⟨h.coherent, h.items, hstore, h.remembers, h.fits⟩, fun _ _ => le_rfl,
    fun label hstored => absurd hstored hunknown, fun _ _ _ hstored => absurd hstored hunknown,
    fun _ _ _ _ hstored => absurd hstored hunknown, fun _ index key _ _ h => ?_⟩
  · rw [hentry] at h
    cases h

/-! ### One request -/

theorem mem_items {ε : Type} {items : List Item} {outcome : Except ε (List Item)} {item : Item}
    (h : item ∈ items ++ outcome.toOption.getD []) :
    item ∈ items ∨ ∃ found, outcome = .ok found ∧ item ∈ found := by
  rcases List.mem_append.1 h with h | h
  · exact .inl h
  · cases outcome with
    | error fault => cases h
    | ok found => exact .inr ⟨found, rfl, h⟩

variable [DecidableEq ι]

/-- A request that concerns no store leaves everything valid. -/
theorem Usable.performCells (h : session.Usable) {operation : Operation}
    (harguments : ∀ item ∈ operation.arguments, item ∈ session.items)
    (hfits : (session.perform (.cells operation)).Fits) :
    ∃ held, Knowledge.Moves session.links session.known held
        (session.perform (.cells operation)).known ∧
      (session.perform (.cells operation)).links ⊆ held ∧
      (session.perform (.cells operation)).Usable := by
  obtain ⟨held, hsub, hcoherent, hmoves, hpost⟩ :=
    Operation.keeps_run_valid (fun item hitem => h.items item (harguments item hitem)) session.known
      h.coherent trivial
  have hitems : ∀ item ∈ (session.perform (.cells operation)).items, item.Within held := by
    intro item hitem
    rcases mem_items hitem with hitem | ⟨found, hfound, hitem⟩
    · exact (h.items item hitem).mono hsub
    · exact hpost found hfound item hitem
  exact ⟨held, hmoves, usable_of_held (session.perform (.cells operation)) hcoherent
    (fun _ h => h) hitems (fun index cell hcell => (h.remembers index cell hcell).mono hsub) hfits⟩

/-- A request that concerns no store. -/
theorem Inv.performCells (h : session.Inv) {operation : Operation}
    (harguments : ∀ item ∈ operation.arguments, item ∈ session.items)
    (hfits : (session.perform (.cells operation)).Fits) :
    (session.perform (.cells operation)).Inv := by
  obtain ⟨held, hmoves, hlinks, husable⟩ := h.toSound.usable.performCells harguments hfits
  have hgrows : session.Grows (session.perform (.cells operation)) :=
    ⟨hmoves.learns.toGrows, fun _ => .refl _, fun item hitem => mem_items_perform hitem _⟩
  have hfresh : ∀ link ∈ (session.perform (.cells operation)).links, link ∉ session.links →
      session.known.next ≤ link.label :=
    fun link hlink hnot => hmoves.fresh link (hlinks hlink) hnot
  refine ⟨⟨husable.coherent, husable.items, h.store, husable.remembers, hfits⟩,
    fun index label => ?_, fun label hstored => ?_,
    fun index link hlink hstored => h.vouched_grows hgrows hfresh hlink hstored,
    fun hinj index link hlink hstored => h.settled_grows hgrows hfresh hinj hlink hstored,
    fun hinj index key encoding status hentry => h.closed_grows hgrows hinj hentry⟩
  · exact (h.raised_le index label).trans (hgrows.known.status label)
  · have heq := hmoves.learns.stored label hstored
    obtain ⟨index, hindex⟩ := h.raised_by label (heq ▸ hstored)
    exact ⟨index, hindex.trans heq.symm⟩

/-! ### A request to a store -/

/-- The session as it is before a request to a store. -/
def origin (session : Session ι) (h : session.Sound) : Origin where
  held := session.links
  known := session.known
  encodings := session.encodings
  unused := h.coherent.status

/-- The site on which a request to a store starts. -/
def site (session : Session ι) (index : ι) : Site :=
  ⟨session.known, session.stores index, [], []⟩

/-- The site with which a request to a store ends. -/
def siteAfter (session : Session ι) (index : ι) (operation : StoreOperation) : Site :=
  (operation.run.run.run (session.site index)).2

omit [DecidableEq ι] in
theorem Sound.covers (h : session.Sound) {cell : Cell} (hcell : cell ∈ session.cells) :
    cell.Within (session.origin h).Covers session.links :=
  ⟨⟨h.value hcell, fun _ => .inl ⟨cell, hcell, rfl⟩⟩, (h.valid hcell).links⟩

omit [DecidableEq ι] in
theorem Sound.coherent_covers (h : session.Sound) :
    Coherent (session.origin h).Covers session.links session.known :=
  h.coherent.restrict subset_rfl (fun _ hlink _ => everyLink_of_mem_links hlink)
    (fun link hlink _ ht => (h.covers (.inr (.inl ⟨link, hlink, ht⟩))).good)
    fun label _ hcell => h.covers (.inr (.inr (.inl ⟨label, hcell⟩)))

omit [DecidableEq ι] in
/-- A request to a store starts in a state of its invariant. -/
theorem Inv.atOrigin (h : session.Inv) (index : ι) :
    (session.origin h.toSound).Inv session.links (session.site index) where
  coherent := h.coherent_covers
  subset := subset_rfl
  known := .refl _
  fresh := fun _ hlink hnot => absurd hlink hnot
  store := h.store index
  remembers := fun _ hcell => h.covers (.inr (.inr (.inr ⟨index, hcell⟩)))
  encodings := fun key _ status hentry => .inr ⟨index, key, status, hentry⟩
  vouched := fun _ _ _ hne => absurd rfl hne
  raised := fun _ _ _ _ hne => absurd rfl hne
  closed := fun hinj => h.closed hinj index

variable {index : ι} {operation : StoreOperation}

theorem stores_performStore (other : ι) :
    (session.perform (.store index operation)).stores other =
      if other = index then (session.siteAfter index operation).store
      else session.stores other :=
  Function.update_apply ..

/-- A store has given a link the status that it has, if it had another one before. -/
theorem raised_performStore (other : ι) (label : Label) :
    (session.perform (.store index operation)).raised other label =
      if other = index ∧
          (session.siteAfter index operation).known.statusAt label ≠ session.known.statusAt label
      then (session.siteAfter index operation).known.statusAt label
      else session.raised other label := by
  show Function.update session.raised index _ other label = _
  rw [Function.update_apply]
  by_cases heq : other = index
  · subst heq
    rw [if_pos rfl]
    by_cases hsame : (session.siteAfter other operation).known.statusAt label =
        session.known.statusAt label
    · exact (if_pos hsame).trans (if_neg fun h => h.2 hsame).symm
    · exact (if_neg hsame).trans (if_pos ⟨rfl, hsame⟩).symm
  · rw [if_neg heq, if_neg fun h => heq h.1]

theorem Grows.performStore (h : (session.site index).Moves (session.siteAfter index operation)) :
    session.Grows (session.perform (.store index operation)) := by
  refine ⟨h.known, fun other => ?_, fun item hitem => mem_items_perform hitem _⟩
  rw [stores_performStore]
  split
  · next heq => exact heq ▸ h.store
  · exact .refl _

/-- The statuses of stored links still come from the stores that raised them. -/
theorem Inv.raised_by_performStore (h : session.Inv) {label : Label}
    (hstored : .stored ≤ (session.siteAfter index operation).known.statusAt label) :
    ∃ other, (session.perform (.store index operation)).raised other label =
      (session.siteAfter index operation).known.statusAt label := by
  by_cases hsame : (session.siteAfter index operation).known.statusAt label =
      session.known.statusAt label
  · obtain ⟨other, hother⟩ := h.raised_by label (hsame ▸ hstored)
    refine ⟨other, ?_⟩
    rw [raised_performStore, if_neg fun hne => hne.2 hsame, hother, hsame]
  · exact ⟨index, by rw [raised_performStore, if_pos ⟨rfl, hsame⟩]⟩

section

variable {held : Set Link} (h : session.Inv)
  (hinv : (session.origin h.toSound).Inv held (session.siteAfter index operation))
  (hgrows : session.Grows (session.perform (.store index operation)))

include hinv

/-- Cells, links and stores are sound after a request to a store. -/
theorem Inv.sound_performStore
    (hitems : ∀ item ∈ (session.perform (.store index operation)).items, item.Within held)
    (hsub : session.links ⊆ held) (hfits : (session.perform (.store index operation)).Fits) :
    (session.perform (.store index operation)).links ⊆ held ∧
      (session.perform (.store index operation)).Sound := by
  refine sound_of_held _ hinv.coherent (fun _ hgood => hgood.sound.valid) hitems (fun other => ?_)
    (fun other cell hcell => ?_) hfits
  · rw [stores_performStore]
    split
    · exact hinv.store
    · exact h.store other
  · rw [stores_performStore] at hcell
    split at hcell
    · exact StoreOperation.within_of_covers (hinv.remembers cell hcell)
    · exact (h.remembers other cell hcell).mono hsub

include hgrows

/-- The store vouches for a link that the request has raised, and did before for any other one. -/
theorem Inv.vouched_performStore
    (hlinks : (session.perform (.store index operation)).links ⊆ held) {other : ι}
    {link : Link} (hlink : link ∈ (session.perform (.store index operation)).links)
    (hstored : .stored ≤ (session.perform (.store index operation)).raised other link.label) :
    ((session.perform (.store index operation)).stores other).Vouches
      ((session.perform (.store index operation)).raised other link.label) link := by
  rw [raised_performStore] at hstored ⊢
  split at hstored
  · next hraised =>
    rw [if_pos hraised, stores_performStore, if_pos hraised.1]
    exact hinv.vouched link (hlinks hlink) hstored hraised.2
  · next hkept =>
    rw [if_neg hkept]
    exact h.vouched_grows hgrows (fun link hlink hnot => hinv.fresh link (hlinks hlink) hnot) hlink
      hstored

/-- A link that the request has raised is settled by its walk, any other one was settled before. -/
theorem Inv.settled_performStore
    (hlinks : (session.perform (.store index operation)).links ⊆ held)
    (hinj : Set.InjOn Digest.of (session.perform (.store index operation)).encodings) {other : ι}
    {link : Link} (hlink : link ∈ (session.perform (.store index operation)).links)
    (hstored : .stored ≤ (session.perform (.store index operation)).raised other link.label) :
    (session.perform (.store index operation)).Settles other link.rank link.named
      ((session.perform (.store index operation)).raised other link.label) := by
  rw [raised_performStore] at hstored ⊢
  split at hstored
  · next hraised =>
    have hnew := hinv.raised (hinj.mono hgrows.encodings) link (hlinks hlink) hstored hraised.2
    rw [if_pos hraised, Settles, stores_performStore, if_pos hraised.1]
    exact hnew.mono hgrows.links hgrows.known (.refl _) le_rfl le_rfl
  · next hkept =>
    rw [if_neg hkept]
    exact h.settled_grows hgrows (fun link hlink hnot => hinv.fresh link (hlinks hlink) hnot) hinj
      hlink hstored

/-- The entries of the store are settled by its walk, those of the others were settled before. -/
theorem Inv.closed_performStore
    (hinj : Set.InjOn Digest.of (session.perform (.store index operation)).encodings) {other : ι}
    {key : Digest} {encoding : Bytes} {status : Status}
    (hentry : ((session.perform (.store index operation)).stores other).find? key =
      some (encoding, status)) :
    (session.perform (.store index operation)).Settles other encoding.length encoding.named
      status := by
  rw [stores_performStore] at hentry
  split at hentry
  · next heq =>
    rw [Settles, stores_performStore, if_pos heq]
    exact (hinv.closed (hinj.mono hgrows.encodings) key encoding status hentry).mono hgrows.links
      hgrows.known (.refl _) le_rfl le_rfl
  · exact h.closed_grows hgrows hinj hentry

end

/-- A request to a store keeps the invariant. -/
theorem Inv.performStore (h : session.Inv)
    (harguments : ∀ item ∈ operation.arguments, item ∈ session.items)
    (hfits : (session.perform (.store index operation)).Fits) :
    (session.perform (.store index operation)).Inv := by
  have hcell : ∀ c, .cell c ∈ operation.arguments →
      c.Within (session.origin h.toSound).Covers session.links ∧ c.encode ∈ session.encodings := by
    intro c hc
    have hcell : c ∈ session.cells := .inl (harguments _ hc)
    exact ⟨h.covers hcell, .inl ⟨c, hcell, rfl⟩⟩
  have hlink : ∀ l, .link l ∈ operation.arguments →
      l ∈ session.links ∧ ∀ t, l.target? = some t → t.encode ∈ session.encodings := by
    intro l hl
    have hlink : l ∈ session.links := h.items _ (harguments _ hl)
    exact ⟨hlink, fun t ht => .inl ⟨t, .inr (.inl ⟨l, hlink, ht⟩), rfl⟩⟩
  obtain ⟨held, hsub, hinv, hmoves, hpost⟩ :=
    StoreOperation.keeps_run hcell hlink (session.site index) (h.atOrigin index) trivial
  have hgrows : session.Grows (session.perform (.store index operation)) := .performStore hmoves
  have hitems : ∀ item ∈ (session.perform (.store index operation)).items, item.Within held := by
    intro item hitem
    rcases mem_items hitem with hitem | ⟨found, hfound, hitem⟩
    · exact (h.items item hitem).mono hsub
    · exact hpost found hfound item hitem
  obtain ⟨hlinks, hsound⟩ := h.sound_performStore hinv hitems hsub hfits
  refine ⟨hsound, fun other label => ?_, fun label => h.raised_by_performStore,
    fun other link => h.vouched_performStore hinv hgrows hlinks,
    fun hinj other link => h.settled_performStore hinv hgrows hlinks hinj,
    fun hinj other key encoding status => h.closed_performStore hinv hgrows hinj⟩
  rw [raised_performStore]
  split
  · exact le_rfl
  · exact (h.raised_le other label).trans (hgrows.known.status label)

/-- The invariant holds of every session that can come about. -/
theorem Reached.inv (h : session.Reached) : session.Inv := by
  induction h with
  | start stores empty => exact inv_start empty
  | step request reached arguments fits ih =>
    cases request with
    | cells operation => exact ih.performCells arguments fits
    | store index operation => exact ih.performStore arguments fits

end CellGraph.Session
