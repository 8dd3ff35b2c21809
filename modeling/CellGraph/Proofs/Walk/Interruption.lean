import CellGraph.Proofs.Walk.Closure
import CellGraph.Proofs.Walk.CourseRun

/-!
# Walks that fail

With one store, nothing is ever missing below an entry, not even between two writes of a walk. A
walk that fails leaves a store that has grown, has reported all that it changed there, and has not
touched the entry of the cell from which it started.

* `Session.Inv.watches`: what a walk may rely on in a session with one store;
* `Session.Reached.whole`: its store is whole;
* `Session.courseFrom`: the course of a walk from a cell;
* `Session.make_interrupted`: after every write, and after a walk that failed.
-/

namespace CellGraph.Session

open StoreAction

variable {ι : Type} {session : Session ι} [Subsingleton ι]

/-- What a walk may rely on in a session with one store. -/
theorem Inv.watches (h : session.Inv) (hinj : Set.InjOn Digest.of session.encodings) (index : ι)
    {goal : Status} (hstored : .stored ≤ goal) :
    (session.origin h.toSound).Watches (session.site index) goal where
  inj := hinj
  stored := hstored
  sound := h.store index
  backed link hlink status hstored hle digest hnamed := by
    obtain ⟨other, hbacks⟩ := h.backed hinj hlink hstored hle hnamed
    exact Subsingleton.elim other index ▸ hbacks

omit [Subsingleton ι] in
/-- At the start of a request nothing has happened. -/
theorem trace_site {index : ι} (hwhole : (session.stores index).Whole) (encodings : Set Bytes)
    (goal : Status) (written : Set Bytes) :
    Site.Trace encodings (session.site index) goal written (session.site index) :=
  .at_start hwhole rfl rfl

/-! ### The store is whole -/

/-- A request to the store leaves it whole. -/
theorem Inv.whole_siteAfter (h : session.Inv) (hinj : Set.InjOn Digest.of session.encodings)
    {index : ι} (hwhole : (session.stores index).Whole) {operation : StoreOperation}
    (harguments : ∀ item ∈ operation.arguments, item ∈ session.items) :
    (session.siteAfter index operation).store.Whole := by
  have hreads : operation.run.Reads → (session.siteAfter index operation).store.Whole := by
    intro hreads
    rw [siteAfter, hreads]
    exact hwhole
  cases operation with
  | get key => exact hreads (.bind (.get key) fun _ => .pure _)
  | lookup key => exact hreads (.bind (.lookup key) fun _ => .pure _)
  | resolve link => exact hreads (.bind (.resolve link) fun _ => .pure _)
  | make goal cell =>
    have hcell : cell ∈ session.cells := .inl (harguments _ (List.mem_singleton_self _))
    have hguards := Course.guards_make (.everything _ _ _)
      (h.watches hinj index goal.2) (h.covers hcell) (.inl ⟨cell, hcell, rfl⟩) trivial
      (Set.Subset.refl Set.univ) trivial
    rw [siteAfter, StoreOperation.run, snd_run_map]
    exact hguards.always (fun _ _ hend => hend.1.whole) (fun _ _ hend => hend.whole)
      (h.atOrigin index) ⟨rfl, trace_site hwhole _ _ _⟩
  | walk goal link =>
    have hlink : link ∈ session.links := h.items _ (harguments _ (List.mem_singleton_self _))
    have hguards := Course.guards_walk (h.watches hinj index goal.2) hlink
      fun t ht => .inl ⟨t, .inr (.inl ⟨link, hlink, ht⟩), rfl⟩
    rw [siteAfter, StoreOperation.run, snd_run_map]
    exact hguards.always (fun _ _ hend => hend.whole) (fun _ _ hend => hend.whole)
      (h.atOrigin index) ⟨trace_site hwhole _ _ _, (session.site index).stops_lt_hopLimit⟩

omit [Subsingleton ι] in
/-- A request to the store keeps the invariant of its site, and only adds to that. -/
theorem Inv.siteAfter (h : session.Inv) {index : ι} {operation : StoreOperation}
    (harguments : ∀ item ∈ operation.arguments, item ∈ session.items) :
    ∃ held, (session.origin h.toSound).Inv held (session.siteAfter index operation) ∧
      (session.site index).Moves (session.siteAfter index operation) := by
  have hcell : ∀ c, .cell c ∈ operation.arguments → c ∈ session.cells := fun c hc =>
    .inl (harguments _ hc)
  have hlink : ∀ l, .link l ∈ operation.arguments → l ∈ session.links := fun l hl =>
    h.items _ (harguments _ hl)
  obtain ⟨held, -, hinv, hmoves, -⟩ := StoreOperation.keeps_run
    (fun c hc => ⟨h.covers (hcell c hc), .inl ⟨c, hcell c hc, rfl⟩⟩)
    (fun l hl => ⟨hlink l hl, fun t ht => .inl ⟨t, .inr (.inl ⟨l, hlink l hl, ht⟩), rfl⟩⟩)
    (session.site index) (h.atOrigin index) trivial
  exact ⟨held, hinv, hmoves⟩

omit [Subsingleton ι] in
/-- Requests only add to a session. -/
theorem Inv.grows_perform [DecidableEq ι] (h : session.Inv) {request : Request ι}
    (harguments : ∀ item ∈ request.arguments, item ∈ session.items) :
    session.Grows (session.perform request) := by
  cases request with
  | cells operation =>
    obtain ⟨_, _, _, hmoves, -⟩ :=
      Operation.keeps_run_valid (fun item hitem => h.items item (harguments item hitem))
        session.known h.coherent trivial
    exact ⟨hmoves.learns.toGrows, fun _ => .refl _, fun item hitem => mem_items_perform hitem _⟩
  | store index operation =>
    obtain ⟨_, -, hmoves⟩ := h.siteAfter harguments
    exact .performStore hmoves

/-- The only store of a session is whole. -/
theorem Reached.whole [DecidableEq ι] (h : session.Reached)
    (hinj : Set.InjOn Digest.of session.encodings) (index : ι) :
    (session.stores index).Whole := by
  induction h with
  | start stores empty => exact Store.whole_of_empty (empty index)
  | @step session request reached arguments fits ih =>
    have hinj' := hinj.mono (reached.inv.grows_perform arguments).encodings
    cases request with
    | cells operation => exact ih hinj'
    | store other operation =>
      rw [stores_performStore]
      split
      · next heq =>
        subst heq
        exact reached.inv.whole_siteAfter hinj' (ih hinj') arguments
      · exact ih hinj'

/-! ### After a failure -/

/--
After every single write of a walk from a cell, and when the walk stops, whatever an entry names has
an entry. If the walk fails, the entry of the cell is as it was, the store has only grown, and all
that has changed in it has been reported. The fault is that a soft link below the cell holds nothing
and has no entry; or the walk would never have stopped, for some encoding depends on itself.
-/
theorem make_interrupted [DecidableEq ι] (h : session.Reached)
    (hinj : Set.InjOn Digest.of session.encodings) (index : ι) (goal : Goal) {cell : Cell}
    (hcell : cell ∈ session.cells) :
    let outcome := (make goal cell).run.run (session.site index)
    (∀ store ∈ outcome.2.journal, store.Closed) ∧ outcome.2.store.Closed ∧
      ∀ fault, outcome.1 = .error fault →
        outcome.2.store.find? cell.digest = (session.stores index).find? cell.digest ∧
        (session.stores index).Grows outcome.2.store ∧
        (∀ key, outcome.2.store.find? key ≠ (session.stores index).find? key →
          key ∈ outcome.2.novel) ∧
        ((∃ digest, fault = .cell (.missingData digest) ∧
            (session.site index).Dangling cell digest outcome.2) ∨
          fault = .endlessLinks ∧ ∃ encoding, Depends session.encodings encoding encoding) := by
  intro outcome
  have hencoding : cell.encode ∈ session.encodings := .inl ⟨cell, hcell, rfl⟩
  have hwatches := h.inv.watches hinj index goal.2
  have hcovers := h.inv.toSound.covers hcell
  have hstart := trace_site (h.whole hinj index) session.encodings goal
    {encoding | Depends session.encodings cell.encode encoding}
  have hguards := Course.guards_make (.below _ _ goal.val cell) hwatches hcovers hencoding
    (Course.visits_below ..) (Set.subset_insert cell.encode _) (Set.mem_insert _ _)
  have hwhole : outcome.2.store.Whole ∧ ∀ store ∈ outcome.2.journal, store.Whole :=
    hguards.always (p := fun site => site.store.Whole ∧ ∀ store ∈ site.journal, store.Whole)
      (fun _ _ hend => ⟨hend.1.whole, hend.1.journal⟩)
      (fun _ _ hend => ⟨hend.1.whole, hend.1.journal⟩) (h.inv.atOrigin index) ⟨rfl, hstart⟩
  refine ⟨fun store hstore => (hwhole.2 store hstore).closed, hwhole.1.closed,
    fun fault hfault => ?_⟩
  obtain ⟨htrace, hreason⟩ := hguards.of_error (h.inv.atOrigin index) ⟨rfl, hstart⟩ hfault
  refine ⟨?_, htrace.moves.store, fun key hne => not_not.1 fun hnot => hne (htrace.same key hnot),
    hreason⟩
  refine htrace.same _ fun hnovel => ?_
  -- If the entry had been written, the cell would depend on itself, and its entry is complete.
  obtain ⟨held, -, hinv, -, -⟩ := Origin.keeps_makeDurable goal.2 hcovers hencoding
    (session.site index) (h.inv.atOrigin index) trivial
  obtain ⟨encoding, hdepends, hof, hentry, -⟩ := htrace.novel _ hnovel
  obtain rfl : encoding = cell.encode := hinj (Depends.mem hdepends) hencoding hof
  have hcomplete := hwhole.1 cell.digest (by rw [hentry]; rfl)
  exact hcomplete.not_depends hinv.store hinv.encodings hinj hencoding rfl hdepends

/-- A vector of a large blob and of a soft link that leads nowhere. -/
def danglingVector : Cell := .mk 3 (.vector [.direct 1 largeBlob, .soft 2 Digest.absent])

/-- A memory store, and a user who has made the vector. -/
def dangling : Session Unit :=
  (((Session.perform { stores := fun _ => .emptyMemory }
    (.cells (.blob (List.replicate 200 1)))).perform (.cells (.link largeBlob))).perform
      (.cells (.soft Digest.absent))).perform
        (.cells (.vectorOf [.direct 1 largeBlob, .soft 2 Digest.absent]))

set_option maxRecDepth 20000 in
/-- What the requests of the user, and a walk of the vector after these, come to. -/
theorem dangling_evaluated :
    Session.FitsThroughout [()] { stores := fun _ => .emptyMemory }
      [.cells (.blob (List.replicate 200 1)), .cells (.link largeBlob),
        .cells (.soft Digest.absent),
        .cells (.vectorOf [.direct 1 largeBlob, .soft 2 Digest.absent])] ∧
      (∀ a ∈ dangling.everyEncoding [()], ∀ b ∈ dangling.everyEncoding [()],
        Digest.of a = Digest.of b → a = b) ∧
      let outcome := (make .persisted danglingVector).run.run (dangling.site ())
      outcome.1.toOption.isNone ∧ outcome.2.novel = [largeBlob.digest] ∧
      outcome.2.store.find? largeBlob.digest = some (largeBlob.encode, .persisted) ∧
      (dangling.stores ()).find? danglingVector.digest = none := by decide +kernel

theorem reached_dangling : dangling.Reached := by
  simpa only [dangling, List.foldl] using
    (Reached.start (fun _ => .emptyMemory) fun _ => .inl rfl).requests mem_unit _
      dangling_evaluated.1
      ⟨List.forall_mem_nil _, mem_items_of_places [0] rfl, List.forall_mem_nil _,
        mem_items_of_places [1, 2] rfl, trivial⟩

set_option maxRecDepth 20000 in
/-- The blob has been persisted and reported when the walk of the vector fails. -/
theorem vector_interrupted :
    danglingVector ∈ dangling.cells ∧
      let outcome := (make .persisted danglingVector).run.run (dangling.site ())
      outcome.2.novel = [largeBlob.digest] ∧
      outcome.2.store.find? largeBlob.digest = some (largeBlob.encode, .persisted) ∧
      (∀ store ∈ outcome.2.journal, store.Closed) ∧ ∃ fault, outcome.1 = .error fault ∧
        outcome.2.store.find? danglingVector.digest = none ∧
        ((∃ digest, fault = .cell (.missingData digest) ∧
            (dangling.site ()).Dangling danglingVector digest outcome.2) ∨
          fault = .endlessLinks ∧ ∃ encoding, Depends dangling.encodings encoding encoding) := by
  have hcell : danglingVector ∈ dangling.cells :=
    .inl (List.mem_cons_of_mem _ (List.mem_cons_of_mem _ (List.mem_cons_of_mem _
      (List.mem_cons_self ..))))
  obtain ⟨-, hencodings, hnone, hnovel, hblob, hentry⟩ := dangling_evaluated
  have hinj : Set.InjOn Digest.of dangling.encodings := injOn_of_everyEncoding mem_unit hencodings
  obtain ⟨hjournal, -, hfails⟩ :=
    make_interrupted reached_dangling hinj () ⟨.persisted, by decide⟩ hcell
  refine ⟨hcell, hnovel, hblob, hjournal, ?_⟩
  cases houtcome : ((make .persisted danglingVector).run.run (dangling.site ())).1 with
  | ok link =>
    rw [houtcome] at hnone
    cases hnone
  | error fault =>
    obtain ⟨hsame, -, -, hreason⟩ := hfails fault houtcome
    exact ⟨fault, rfl, hsame.trans hentry, hreason⟩

end CellGraph.Session
