import CellGraph.Proofs.Session.Upkept

/-!
# Stores in memory and tables answer alike

A store in memory holds the cells that it was given, a table only their encodings. Users of a handle
cannot tell which of the two they have: if the same calls are made to both, about cells of the same
structure, both come to have the same entries, and all that is answered is the same.

* `StoreCall.Matches`: the same call, about cells of the same structure;
* `Backends`, `Backends.Step`, `Backends.Reached`: a store in memory and a table in use;
* `Item.Matches`, `SameOutcome`, `SameAnswers`: answers that cannot be told apart;
* `Backends.Inv.answers`: a call is answered alike where the entries are the same;
* `Backends.Reached.answering`: whatever has been called before, all answers are the same.
-/

namespace CellGraph

/-! ### The same calls -/

/--
The same call to two stores: to bring cells that have been made in the same way up to a status, to
look up a digest under a policy, or to resolve a soft link.
-/
inductive StoreCall.Matches : StoreCall → StoreCall → Prop
  | make {goal : Status} (stored : .stored ≤ goal) {cell cell' : Cell}
    (made : cell.unlabelled = cell'.unlabelled) : Matches (.make goal cell) (.make goal cell')
  | find (settings : Settings) (key : Digest) : Matches (.find settings key) (.find settings key)
  | resolve (label label' : Label) (digest : Digest) :
    Matches (.resolve (.soft label digest)) (.resolve (.soft label' digest))

/-- Two users, one with a store in memory and the other with a table. -/
structure Backends where
  memory : Session Unit := { stores := fun _ => .emptyMemory }
  table : Session Unit := { stores := fun _ => .emptyTable }

namespace Backends

/--
Either user makes cells and links, by whatever request except that none gives a cell to a soft link
by hand, or both make the same call.
-/
inductive Step (b : Backends) : Backends → Prop
  | memory (operation : Operation) (arguments : ∀ item ∈ operation.arguments, item ∈ b.memory.items)
    (fits : (b.memory.perform (.cells operation)).Fits)
    (own : ∀ link found, operation ≠ .resolve link found) :
    Step b { b with memory := b.memory.perform (.cells operation) }
  | table (operation : Operation) (arguments : ∀ item ∈ operation.arguments, item ∈ b.table.items)
    (fits : (b.table.perform (.cells operation)).Fits)
    (own : ∀ link found, operation ≠ .resolve link found) :
    Step b { b with table := b.table.perform (.cells operation) }
  | call {call call' : StoreCall} (same : call.Matches call')
    (arguments : ∀ item ∈ call.arguments, item ∈ b.memory.items)
    (arguments' : ∀ item ∈ call'.arguments, item ∈ b.table.items)
    (fits : (b.memory.call () call).Fits) (fits' : (b.table.call () call').Fits) :
    Step b { memory := b.memory.call () call, table := b.table.call () call' }

/-- What can come about: at first neither store has an entry, and the users have nothing. -/
def Reached (b : Backends) : Prop := Relation.ReflTransGen Step {} b

end Backends

/-! ### The same answers -/

/-- Links to one digest, or equal cells with one encoding. -/
inductive Item.Matches : Item → Item → Prop
  | link {link link' : Link} (digest : link.digest = link'.digest) :
    Matches (.link link) (.link link')
  | cell {cell cell' : Cell} (encode : cell.encode = cell'.encode)
    (equal : Calc.Agrees (cell.equal cell')) : Matches (.cell cell) (.cell cell')

/-- Two calls have given matching items, or both have failed since the same cell is missing. -/
inductive SameOutcome : Except HandleFault (List Item) → Except HandleFault (List Item) → Prop
  | ok {items items' : List Item} (matching : List.Forall₂ Item.Matches items items') :
    SameOutcome (.ok items) (.ok items')
  | missing (digest : Digest) :
    SameOutcome (.error (.store (.cell (.missingData digest))))
      (.error (.store (.cell (.missingData digest))))

/-- What a call gives to the user of a handle, and the site that it leaves behind. -/
def Session.answer (session : Session Unit) (call : StoreCall) :
    Except HandleFault (List Item) × Site :=
  (HandleAction.ofStore call.run).run.run (session.site ())

theorem Session.answer_eq (session : Session Unit) (call : StoreCall) :
    session.answer call = ((call.run.run.run (session.site ())).1.mapError .store,
      (call.run.run.run (session.site ())).2) := rfl

/-- Two calls end alike, report the same digests in the same order, and leave the same entries. -/
structure SameAnswers (answer answer' : Except HandleFault (List Item) × Site) : Prop where
  outcome : SameOutcome answer.1 answer'.1
  novel : answer.2.novel = answer'.2.novel
  entries : answer.2.store.find? = answer'.2.store.find?

/-- Two stores have the same statuses under all digests, and list the same digests. -/
structure SameEntries (store store' : Store) : Prop where
  status : ∀ key, ∃ status, store.status? key = .ok status ∧ store'.status? key = .ok status
  digests : ∃ digests, store.digests = .ok digests ∧ store'.digests = .ok digests
  count : store.count = store'.count

/-! ### One session -/

namespace Session

variable {session : Session Unit}

/-- All that has been written to the store of a session can be noted. -/
def Noted (session : Session Unit) : Prop := ∃ writes, Chronicle.Reached ⟨session, writes⟩

namespace Noted

theorem start {store : Store} (hempty : store = .emptyMemory ∨ store = .emptyTable) :
    Noted { stores := fun _ => store } :=
  ⟨_, Chronicle.reached_start fun _ => hempty⟩

/-- A step of a chronicle, after which there are more encodings. -/
theorem step {writes writes' : Unit → List (Cell × Status)} {later : Session Unit}
    (h : Chronicle.Reached ⟨session, writes⟩)
    (hstep : Chronicle.Step ⟨session, writes⟩ ⟨later, writes'⟩) :
    later.Noted ∧ session.encodings ⊆ later.encodings := by
  have hgrows := hstep.session_grows h.inv
  obtain ⟨stores, hempty, hsteps⟩ := h
  exact ⟨⟨writes', stores, hempty, hsteps.tail hstep⟩, hgrows.encodings⟩

theorem performCells (h : session.Noted) {operation : Operation}
    (harguments : ∀ item ∈ operation.arguments, item ∈ session.items)
    (hfits : (session.perform (.cells operation)).Fits) :
    (session.perform (.cells operation)).Noted ∧
      session.encodings ⊆ (session.perform (.cells operation)).encodings := by
  obtain ⟨writes, hreached⟩ := h
  exact step hreached (.cells operation harguments hfits)

theorem call (h : session.Noted) {call : StoreCall}
    (harguments : ∀ item ∈ call.arguments, item ∈ session.items)
    (hfits : (session.call () call).Fits) :
    (session.call () call).Noted ∧ session.encodings ⊆ (session.call () call).encodings := by
  obtain ⟨writes, hreached⟩ := h
  obtain ⟨⟨more, hexplains, hmade⟩, -, -⟩ := hreached.inv.usable.call () harguments
  exact step hreached (.store () call more harguments hfits ⟨hexplains, hmade⟩)

/-- The digests of a store are those that have an entry, in order. -/
theorem digests (h : session.Noted) :
    ∃ digests, (session.stores ()).digests = .ok digests ∧ digests.Pairwise (· < ·) ∧
      (session.stores ()).count = digests.length ∧
      ∀ key, key ∈ digests ↔ ((session.stores ()).find? key).isSome := by
  obtain ⟨writes, hreached⟩ := h
  obtain ⟨digests, hdigests, hascending, hcount, hmem⟩ := hreached.inv.digests ()
  refine ⟨digests, hdigests, hascending, hcount, fun key => ?_⟩
  rw [hmem, show (session.stores ()).find? key = _ from hreached.inv.find?_eq () key]
  rcases Deposits.entry_spec (writes ()) key with
    ⟨hnone, hno⟩ | ⟨first, status, -, ⟨⟨cell, hcell, heq⟩, -⟩, hsome⟩
  · rw [hnone]
    exact iff_of_false (fun ⟨write, hwrite, heq⟩ => hno write hwrite heq) (by decide)
  · rw [hsome]
    exact iff_of_true ⟨_, hcell, heq⟩ rfl

end Noted

/-- Stores with the same entries cannot be told apart by asking for statuses and digests. -/
theorem sameEntries {session session' : Session Unit} (h : session.Noted) (h' : session'.Noted)
    (hsound : (session.stores ()).Sound) (hsound' : (session'.stores ()).Sound)
    (hentries : (session.stores ()).find? = (session'.stores ()).find?) :
    SameEntries (session.stores ()) (session'.stores ()) := by
  obtain ⟨digests, hdigests, hascending, hcount, hmem⟩ := h.digests
  obtain ⟨digests', hdigests', hascending', hcount', hmem'⟩ := h'.digests
  have heq : digests = digests' :=
    hascending.eq_of_mem_iff hascending' fun key => by rw [hmem, hmem', hentries]
  subst heq
  refine ⟨fun key => ⟨_, hsound.legible.status?_eq key, ?_⟩, ⟨digests, hdigests, hdigests'⟩,
    hcount.trans hcount'.symm⟩
  rw [hsound'.legible.status?_eq key, hentries]

end Session

/-! ### Both sessions -/

namespace Backends

variable {b later : Backends}

/-- With each step there are more encodings in both sessions. -/
theorem Step.encodings (hstep : b.Step later) (hmemory : b.memory.Noted) (htable : b.table.Noted) :
    (later.memory.Noted ∧ b.memory.encodings ⊆ later.memory.encodings) ∧
      (later.table.Noted ∧ b.table.encodings ⊆ later.table.encodings) := by
  cases hstep with
  | memory operation arguments fits =>
    exact ⟨hmemory.performCells arguments fits, htable, subset_rfl⟩
  | table operation arguments fits =>
    exact ⟨⟨hmemory, subset_rfl⟩, htable.performCells arguments fits⟩
  | call same arguments arguments' fits fits' =>
    exact ⟨hmemory.call arguments fits, htable.call arguments' fits'⟩

theorem Reached.noted (h : b.Reached) : b.memory.Noted ∧ b.table.Noted := by
  induction h with
  | refl => exact ⟨.start (.inl rfl), .start (.inr rfl)⟩
  | tail _ hstep ih =>
    obtain ⟨⟨hmemory, -⟩, htable, -⟩ := hstep.encodings ih.1 ih.2
    exact ⟨hmemory, htable⟩

/-- Both stores are tended, and have the same entries. -/
structure Inv (b : Backends) : Prop where
  memory : b.memory.Upkept
  table : b.table.Upkept
  entries : (b.memory.stores ()).find? = (b.table.stores ()).find?

theorem inv_start : Inv {} :=
  ⟨.start (.inl rfl), .start (.inr rfl), rfl⟩

/-- What a call to a session leaves in the store. -/
theorem stores_call (session : Session Unit) (call : StoreCall) :
    (session.call () call).stores () = (session.answer call).2.store :=
  Function.update_self () _ session.stores

/-- Links have been made to cells of one digest, or the same digest is missing. -/
theorem sameOutcome_of_made {cell cell' : Cell} (hdigest : cell.digest = cell'.digest)
    {outcome outcome' : Except StoreFault (List Item)} {missing : Option Digest}
    (h : Session.Upkept.Made cell outcome missing)
    (h' : Session.Upkept.Made cell' outcome' missing) :
    SameOutcome (outcome.mapError .store) (outcome'.mapError .store) := by
  cases h with
  | link label =>
    cases h' with
    | link label' => exact .ok (.cons (.link hdigest) .nil)
  | missing digest =>
    cases h' with
    | missing => exact .missing digest

/-- A call to make something is answered alike. -/
theorem Inv.answers_make (h : b.Inv) (hmemory : Set.InjOn Digest.of b.memory.encodings)
    (htable : Set.InjOn Digest.of b.table.encodings) {goal : Status} (hstored : .stored ≤ goal)
    {cell cell' : Cell} (hmade : cell.unlabelled = cell'.unlabelled)
    (hcell : .cell cell ∈ b.memory.items) (hcell' : .cell cell' ∈ b.table.items) :
    SameAnswers (b.memory.answer (.make goal cell)) (b.table.answer (.make goal cell')) := by
  have hparallel : cell.Parallel (fun _ => False) cell' := .of_unlabelled hmade
  -- one plan for both: the agendas at the start are the same, and so is what they come to
  obtain ⟨-, tasks, missing, hgiven, hends⟩ :=
    h.memory.make hmemory hstored hcell (.of_unlabelled rfl)
  obtain ⟨-, tasks', missing', hgiven', hends'⟩ :=
    h.table.make htable hstored hcell' (.of_unlabelled hmade.symm)
  have hstart : (b.table.site ()).agenda [.cell cell] = (b.memory.site ()).agenda [.cell cell] :=
    congrArg (Agenda.mk · [] [.cell cell]) h.entries.symm
  rw [hstart] at hends'
  obtain ⟨hagenda, rfl⟩ := hends.unique hends'
  exact ⟨sameOutcome_of_made hparallel.digest_eq hgiven hgiven', congrArg Agenda.novel hagenda,
    congrArg Agenda.view hagenda⟩

/-- Cells with the same encodings are the same answer. -/
theorem matches_of_encode_eq {cell cell' : Cell} (hsound : cell.Sound) (hsound' : cell'.Sound)
    (hencode : cell.encode = cell'.encode) : (Item.cell cell).Matches (.cell cell') :=
  .cell hencode (Cell.agrees_of_encode_eq hsound hsound' hencode)

/-- Calls that only ask for cells report nothing, and leave the entries as they are. -/
theorem Inv.sameAnswers_of_asked (h : b.Inv) {call call' : StoreCall}
    (hasked : (b.memory.site ()).Asked (call.run.run.run (b.memory.site ())).2)
    (hasked' : (b.table.site ()).Asked (call'.run.run.run (b.table.site ())).2)
    (houtcome : SameOutcome (b.memory.answer call).1 (b.table.answer call').1) :
    SameAnswers (b.memory.answer call) (b.table.answer call') where
  outcome := houtcome
  novel := hasked.novel.trans hasked'.novel.symm
  entries := by
    rw [Session.answer_eq, Session.answer_eq]
    exact (congrArg Store.find? hasked.store).trans
      (h.entries.trans (congrArg Store.find? hasked'.store).symm)

/-- A lookup is answered alike, whatever the policy. -/
theorem Inv.answers_find (h : b.Inv) (hmemory : Set.InjOn Digest.of b.memory.encodings)
    (htable : Set.InjOn Digest.of b.table.encodings) (settings : Settings) (key : Digest) :
    SameAnswers (b.memory.answer (.find settings key)) (b.table.answer (.find settings key)) := by
  obtain ⟨-, hasked, found, houtcome, hsound, hencode⟩ := h.memory.find hmemory settings key
  obtain ⟨-, hasked', found', houtcome', hsound', hencode'⟩ := h.table.find htable settings key
  refine h.sameAnswers_of_asked hasked hasked' ?_
  rw [Session.answer_eq, Session.answer_eq, houtcome, houtcome']
  rw [h.entries, ← hencode'] at hencode
  refine .ok ?_
  cases found with
  | none =>
    cases found' with
    | none => exact .nil
    | some cell' => cases hencode
  | some cell =>
    cases found' with
    | none => cases hencode
    | some cell' =>
      exact .cons (matches_of_encode_eq (hsound cell rfl) (hsound' cell' rfl)
        (Option.some.inj hencode)) .nil

/-- Following a soft link is answered alike. -/
theorem Inv.answers_resolve (h : b.Inv) {label label' : Label} {digest : Digest}
    (hlink : .link (.soft label digest) ∈ b.memory.items)
    (hlink' : .link (.soft label' digest) ∈ b.table.items) :
    SameAnswers (b.memory.answer (.resolve (.soft label digest)))
      (b.table.answer (.resolve (.soft label' digest))) := by
  obtain ⟨-, hasked, hend⟩ := h.memory.follow hlink
  obtain ⟨-, hasked', hend'⟩ := h.table.follow hlink'
  refine h.sameAnswers_of_asked hasked hasked' ?_
  rw [Session.answer_eq, Session.answer_eq]
  rw [h.entries] at hend
  cases hentry : (b.table.stores ()).find? digest with
  | none =>
    rw [hentry] at hend hend'
    rw [hend, hend']
    exact .missing digest
  | some entry =>
    rw [hentry] at hend hend'
    obtain ⟨cell, hsound, hencode, houtcome⟩ := hend
    obtain ⟨cell', hsound', hencode', houtcome'⟩ := hend'
    rw [houtcome, houtcome']
    exact .ok (.cons (matches_of_encode_eq hsound hsound' (hencode.trans hencode'.symm)) .nil)

/-- The same calls are answered alike. -/
theorem Inv.answers (h : b.Inv) (hmemory : Set.InjOn Digest.of b.memory.encodings)
    (htable : Set.InjOn Digest.of b.table.encodings) {call call' : StoreCall}
    (hsame : call.Matches call') (harguments : ∀ item ∈ call.arguments, item ∈ b.memory.items)
    (harguments' : ∀ item ∈ call'.arguments, item ∈ b.table.items) :
    SameAnswers (b.memory.answer call) (b.table.answer call') := by
  cases hsame with
  | make hstored hmade =>
    exact h.answers_make hmemory htable hstored hmade (harguments _ (List.mem_singleton_self _))
      (harguments' _ (List.mem_singleton_self _))
  | find settings key => exact h.answers_find hmemory htable settings key
  | resolve label label' digest =>
    exact h.answers_resolve (harguments _ (List.mem_singleton_self _))
      (harguments' _ (List.mem_singleton_self _))

/-- The stores are still tended after the same call. -/
theorem Inv.upkept_call (h : b.Inv) (hmemory : Set.InjOn Digest.of b.memory.encodings)
    (htable : Set.InjOn Digest.of b.table.encodings) {call call' : StoreCall}
    (hsame : call.Matches call') (harguments : ∀ item ∈ call.arguments, item ∈ b.memory.items)
    (harguments' : ∀ item ∈ call'.arguments, item ∈ b.table.items)
    (hfits : (b.memory.call () call).Fits) (hfits' : (b.table.call () call').Fits) :
    (b.memory.call () call).Upkept ∧ (b.table.call () call').Upkept := by
  cases hsame with
  | make hstored hmade =>
    exact ⟨(h.memory.make hmemory hstored (harguments _ (List.mem_singleton_self _))
        (.of_unlabelled rfl)).1 hfits,
      (h.table.make htable hstored (harguments' _ (List.mem_singleton_self _))
        (.of_unlabelled rfl)).1 hfits'⟩
  | find settings key =>
    exact ⟨(h.memory.find hmemory settings key).1 hfits,
      (h.table.find htable settings key).1 hfits'⟩
  | resolve label label' digest =>
    exact ⟨(h.memory.follow (harguments _ (List.mem_singleton_self _))).1 hfits,
      (h.table.follow (harguments' _ (List.mem_singleton_self _))).1 hfits'⟩

/-- Each step keeps the invariant. -/
theorem Step.inv (hstep : b.Step later) (h : b.Inv)
    (hmemory : Set.InjOn Digest.of b.memory.encodings)
    (htable : Set.InjOn Digest.of b.table.encodings) : later.Inv := by
  cases hstep with
  | memory operation arguments fits own =>
    exact ⟨h.memory.performCells arguments fits own, h.table, h.entries⟩
  | table operation arguments fits own =>
    exact ⟨h.memory, h.table.performCells arguments fits own, h.entries⟩
  | call same arguments arguments' fits fits' =>
    obtain ⟨hupkept, hupkept'⟩ :=
      h.upkept_call hmemory htable same arguments arguments' fits fits'
    refine ⟨hupkept, hupkept', ?_⟩
    rw [stores_call, stores_call]
    exact (h.answers hmemory htable same arguments arguments').entries

/-- The invariant holds of all that can come about, as long as digests tell encodings apart. -/
theorem Reached.inv (h : b.Reached) (hmemory : Set.InjOn Digest.of b.memory.encodings)
    (htable : Set.InjOn Digest.of b.table.encodings) : b.Inv := by
  induction h with
  | refl => exact inv_start
  | tail hsteps hstep ih =>
    -- digests have told apart the encodings that there were before, for there are only more now
    obtain ⟨hnoted, hnoted'⟩ := Reached.noted hsteps
    obtain ⟨⟨-, hsub⟩, -, hsub'⟩ := hstep.encodings hnoted hnoted'
    have hmemory := hmemory.mono hsub
    have htable := htable.mono hsub'
    exact hstep.inv (ih hmemory htable) hmemory htable

/--
A store in memory and a table cannot be told apart through a handle. Whatever cells and links have
been made on either side, and whatever calls have been made to both, about cells of the same
structure: as long as digests tell encodings apart, both have the same statuses, and list the same
digests. The next call ends alike in both: it gives links to the same digest, or equal cells with the
same encoding, or fails since the same cell is missing. It reports the same digests in the same
order, and leaves the same entries.
-/
theorem Reached.answering (h : b.Reached) (hmemory : Set.InjOn Digest.of b.memory.encodings)
    (htable : Set.InjOn Digest.of b.table.encodings) :
    SameEntries (b.memory.stores ()) (b.table.stores ()) ∧
    ∀ call call' : StoreCall, call.Matches call' →
      (∀ item ∈ call.arguments, item ∈ b.memory.items) →
      (∀ item ∈ call'.arguments, item ∈ b.table.items) →
      SameAnswers (b.memory.answer call) (b.table.answer call') := by
  have hinv := h.inv hmemory htable
  obtain ⟨hnoted, hnoted'⟩ := h.noted
  exact ⟨Session.sameEntries hnoted hnoted' (hinv.memory.sound.store ()) (hinv.table.sound.store ())
      hinv.entries,
    fun _ _ hsame harguments harguments' =>
      hinv.answers hmemory htable hsame harguments harguments'⟩

/-! ### A vector in a store in memory and in a table -/

/-- The requests by which the vector is made for the table, after an integer. -/
def laterOperations : List Operation :=
  [.integer 7, .blob (List.replicate 200 1), .vector [.mk 1 (.blob (List.replicate 200 1))]]

/-- The vector that is made for the table. -/
def laterVector : Cell := .mk 3 (.vector [.direct 2 (.mk 1 (.blob (List.replicate 200 1)))])

/-- Both users have made the vector. -/
def madeTwice : Backends where
  memory := (Chronicle.vectorOperations.map Request.cells).foldl Session.perform
    { stores := fun _ => .emptyMemory }
  table := (laterOperations.map Request.cells).foldl Session.perform
    { stores := fun _ => .emptyTable }

/-- The vector has been persisted in both stores. -/
def keptTwice : Backends where
  memory := madeTwice.memory.call () (.make .persisted Session.blobVector)
  table := madeTwice.table.call () (.make .persisted laterVector)

/-- A user whose store is in memory makes something. -/
theorem Reached.makeMemory (h : b.Reached) (operation : Operation)
    (hfits : ∀ cell ∈ (b.memory.perform (.cells operation)).everyCell [()], cell.value.Fits)
    (harguments : ∀ item ∈ operation.arguments, item ∈ b.memory.items)
    (hown : ∀ link found, operation ≠ .resolve link found) :
    Reached { b with memory := b.memory.perform (.cells operation) } :=
  h.tail (.memory operation harguments (Session.fits_of_everyCell Session.mem_unit hfits) hown)

/-- A user whose store is a table makes something. -/
theorem Reached.makeTable (h : b.Reached) (operation : Operation)
    (hfits : ∀ cell ∈ (b.table.perform (.cells operation)).everyCell [()], cell.value.Fits)
    (harguments : ∀ item ∈ operation.arguments, item ∈ b.table.items)
    (hown : ∀ link found, operation ≠ .resolve link found) :
    Reached { b with table := b.table.perform (.cells operation) } :=
  h.tail (.table operation harguments (Session.fits_of_everyCell Session.mem_unit hfits) hown)

set_option maxRecDepth 20000 in
theorem reached_madeTwice : madeTwice.Reached := by
  have hstart : Reached {} := .refl
  have hmemory := (hstart.makeMemory (.blob (List.replicate 200 1)) (by decide +kernel) nofun
    nofun).makeMemory (.vector [Session.largeBlob]) (by decide +kernel)
      (Session.mem_items_of_places [0] rfl) nofun
  exact ((hmemory.makeTable (.integer 7) (by decide +kernel) nofun nofun).makeTable
    (.blob (List.replicate 200 1)) (by decide +kernel) nofun nofun).makeTable
      (.vector [.mk 1 (.blob (List.replicate 200 1))]) (by decide +kernel)
      (Session.mem_items_of_places [1] rfl) nofun

set_option maxRecDepth 20000 in
theorem matches_blobVector {goal : Status} (hstored : .stored ≤ goal) :
    (StoreCall.make goal Session.blobVector).Matches (.make goal laterVector) :=
  .make hstored rfl

theorem mem_blobVector : ∀ item ∈ [Item.cell Session.blobVector], item ∈ madeTwice.memory.items :=
  Session.mem_items_of_places [1] rfl

theorem mem_laterVector : ∀ item ∈ [Item.cell laterVector], item ∈ madeTwice.table.items :=
  Session.mem_items_of_places [2] rfl

set_option maxRecDepth 20000 in
theorem reached_keptTwice : keptTwice.Reached :=
  reached_madeTwice.tail (.call (matches_blobVector (by decide)) mem_blobVector mem_laterVector
    (Session.fits_of_everyCell Session.mem_unit (by decide +kernel))
    (Session.fits_of_everyCell Session.mem_unit (by decide +kernel)))

set_option maxRecDepth 20000 in
/--
The blob and the vector are reported once more when the vector is announced, on both sides, and a
lookup gives equal vectors.
-/
theorem blobVector_answered :
    SameEntries (keptTwice.memory.stores ()) (keptTwice.table.stores ()) ∧
    SameAnswers (keptTwice.memory.answer (.make .announced Session.blobVector))
      (keptTwice.table.answer (.make .announced laterVector)) ∧
    (keptTwice.memory.answer (.make .announced Session.blobVector)).2.novel =
      [Session.largeBlob.digest, Session.blobVector.digest] ∧
    SameAnswers (keptTwice.memory.answer (.find { validateOnLookup := true } laterVector.digest))
      (keptTwice.table.answer (.find { validateOnLookup := true } laterVector.digest)) := by
  have hmemory : Set.InjOn Digest.of keptTwice.memory.encodings :=
    Session.injOn_of_everyEncoding Session.mem_unit (by decide +kernel)
  have htable : Set.InjOn Digest.of keptTwice.table.encodings :=
    Session.injOn_of_everyEncoding Session.mem_unit (by decide +kernel)
  obtain ⟨hentries, hanswers⟩ := reached_keptTwice.answering hmemory htable
  refine ⟨hentries, hanswers _ _ (matches_blobVector (by decide)) ?_ ?_, by decide +kernel,
    hanswers _ _ (.find _ _) nofun nofun⟩
  · exact fun item hitem => List.mem_append_left _ (mem_blobVector item hitem)
  · exact fun item hitem => List.mem_append_left _ (mem_laterVector item hitem)

end Backends

end CellGraph
