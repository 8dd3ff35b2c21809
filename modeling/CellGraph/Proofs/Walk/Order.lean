import CellGraph.Proofs.Walk.Success
import Mathlib.Data.List.Perm.Basic

/-!
# Walks in any order

After walks from several cells, an entry has the greatest of its old status and those of the walks
that concern it. Which walks these are depends on the encodings alone, and so the order in which the
walks are made does not matter.

* `raise`: the status of an entry after a walk;
* `Session.Walked`: walks from cells of a user, one after the other;
* `Session.Walked.status_eq`: what becomes of the statuses of entries;
* `Session.make_effect`: one walk, the same walk again, and walks in any order.
-/

namespace CellGraph

open StoreAction

/-! ### Statuses -/

open Classical in
/-- The status of an entry after a walk, which gives it at least its own status if it gets there. -/
noncomputable def raise (known : Set Bytes) (key : Digest) (held : Option Status) (goal : Status)
    (top : Bytes) : Option Status :=
  Option.merge max held (if key ∈ reachable known top then some goal else none)

/-- It does not matter which of two walks is made first. -/
theorem raise_right_comm (known : Set Bytes) (key : Digest) (held : Option Status)
    (goal goal' : Status) (top top' : Bytes) :
    raise known key (raise known key held goal top) goal' top' =
      raise known key (raise known key held goal' top') goal top := by
  simp only [raise]
  ac_rfl

/-- A walk that has come to its end has raised the statuses of its entries. -/
theorem Site.Finished.status_eq {encodings : Set Bytes} {start site : Site} {goal : Status}
    {top : Cell} (h : Finished encodings start goal top site) (htidy : Tidy encodings)
    (key : Digest) : (site.store.find? key).map Prod.snd =
      raise encodings key ((start.store.find? key).map Prod.snd) goal top.encode := by
  rw [raise]
  split
  · next hreach =>
    obtain ⟨encoding, hreach, rfl⟩ := hreach
    rw [h.find?_of_reach htidy hreach]
    cases start.store.find? (Digest.of encoding) <;> rfl
  · next hother =>
    rw [h.same hother]
    cases start.store.find? key <;> rfl

/-- An outcome that is no fault is a result. -/
theorem exists_of_isOk {ε α : Type} {outcome : Except ε α} (h : outcome.isOk) :
    ∃ a, outcome = .ok a := by
  cases outcome with
  | ok a => exact ⟨a, rfl⟩
  | error fault => cases h

namespace Session

variable {ι : Type} [DecidableEq ι] {index : ι} {session final final' : Session ι}
  {walks walks' : List (Goal × Cell)}

/-- Walks from cells that the user has, one after the other, all of which succeed. -/
inductive Walked (index : ι) : Session ι → List (Goal × Cell) → Session ι → Prop
  | nil (session : Session ι) : Walked index session [] session
  | cons {session final : Session ι} {goal : Goal} {cell : Cell} {walks : List (Goal × Cell)}
    (has : .cell cell ∈ session.items)
    (fits : (session.perform (.store index (.make goal cell))).Fits)
    (succeeds : ((make goal cell).run.run (session.site index)).1.isOk)
    (rest : Walked index (session.perform (.store index (.make goal cell))) walks final) :
    Walked index session ((goal, cell) :: walks) final

omit [DecidableEq ι] in
/-- A walk may be asked for if the user has the cell. -/
theorem arguments_make {goal : Goal} {cell : Cell} (has : .cell cell ∈ session.items) :
    ∀ item ∈ (Request.store index (.make goal cell)).arguments, item ∈ session.items :=
  fun _ hitem => List.mem_singleton.1 hitem ▸ has

/-- The store is left as the walk leaves it. -/
theorem stores_make (goal : Goal) (cell : Cell) :
    (session.perform (.store index (.make goal cell))).stores index =
      ((make goal cell).run.run (session.site index)).2.store := by
  rw [stores_performStore, if_pos rfl, siteAfter, StoreOperation.run, snd_run_map]

namespace Walked

/-- Walks lead from a session that can come about to another one, and add to its encodings. -/
theorem reached (h : Walked index session walks final) (hreached : session.Reached) :
    final.Reached ∧ session.encodings ⊆ final.encodings := by
  induction h with
  | nil => exact ⟨hreached, subset_rfl⟩
  | @cons session final goal cell walks has fits succeeds rest ih =>
    obtain ⟨hfinal, hsub⟩ := ih (.step _ hreached (arguments_make has) fits)
    exact ⟨hfinal, (hreached.inv.grows_perform (arguments_make has)).encodings.trans hsub⟩

/-- An entry has the greatest of its old status and those of the walks that get to it. -/
theorem status_eq [Subsingleton ι] (h : Walked index session walks final)
    (hreached : session.Reached) {known : Set Bytes} (hsub : final.encodings ⊆ known)
    (hinj : Set.InjOn Digest.of known) (htidy : CellGraph.Tidy known) (key : Digest) :
    ((final.stores index).find? key).map Prod.snd =
      walks.foldl (fun held walk => raise known key held walk.1 walk.2.encode)
        (((session.stores index).find? key).map Prod.snd) := by
  induction h with
  | nil => rfl
  | @cons session final goal cell walks has fits succeeds rest ih =>
    have hreached' := Reached.step _ hreached (arguments_make has) fits
    have hsub' : session.encodings ⊆ known :=
      ((Walked.cons has fits succeeds rest).reached hreached).2.trans hsub
    obtain ⟨link, hlink⟩ := exists_of_isOk succeeds
    obtain ⟨hfinished, -⟩ :=
      hreached.finished (hinj.mono hsub') (.inl has) (Prod.ext hlink rfl)
    have hstatus := hfinished.status_eq (htidy.mono hsub') key
    rw [ih hreached' hsub, List.foldl_cons, stores_make, hstatus, raise, raise,
      hfinished.reachable_eq hsub' hinj htidy]
    rfl

end Walked

/-- What becomes of the entries does not depend on the order of the walks. -/
theorem find?_eq_of_perm [Subsingleton ι] (hreached : session.Reached)
    (h : Walked index session walks final) (h' : Walked index session walks' final')
    (hperm : walks.Perm walks') (hinj : Set.InjOn Digest.of (final.encodings ∪ final'.encodings))
    (htidy : final.Tidy (final.encodings ∪ final'.encodings))
    (htidy' : final'.Tidy (final.encodings ∪ final'.encodings)) (key : Digest) :
    (final.stores index).find? key = (final'.stores index).find? key := by
  obtain ⟨hfinal, -⟩ := h.reached hreached
  obtain ⟨hfinal', -⟩ := h'.reached hreached
  have htidy'' : CellGraph.Tidy (final.encodings ∪ final'.encodings) := by
    rintro a (ha | ha) b hrefers
    · exact hfinal.length_of_refers Set.subset_union_left hinj htidy ha hrefers
    · exact hfinal'.length_of_refers Set.subset_union_right hinj htidy' ha hrefers
  have hstatus := h.status_eq hreached Set.subset_union_left hinj htidy'' key
  have hstatus' := h'.status_eq hreached Set.subset_union_right hinj htidy'' key
  have : RightCommutative fun (held : Option Status) (walk : Goal × Cell) =>
      raise (final.encodings ∪ final'.encodings) key held walk.1 walk.2.encode :=
    ⟨fun held _ _ => raise_right_comm _ key held _ _ _ _⟩
  have heq := hstatus.trans ((hperm.foldl_eq _).trans hstatus'.symm)
  cases hentry : (final.stores index).find? key with
  | none =>
    rw [hentry] at heq
    exact (Option.map_eq_none_iff.1 heq.symm).symm
  | some entry =>
    rw [hentry] at heq
    obtain ⟨entry', hentry', hsnd⟩ := Option.map_eq_some_iff.1 heq.symm
    have hkey := (hfinal.inv.store index).key _ _ _ hentry
    have hkey' := (hfinal'.inv.store index).key _ _ _ hentry'
    have hfst : entry.1 = entry'.1 :=
      hinj (.inl (.inr ⟨index, key, _, hentry⟩)) (.inr (.inr ⟨index, key, _, hentry'⟩))
        (hkey.symm.trans hkey')
    rw [hentry', Prod.ext hfst hsnd.symm]

/-! ### Walks -/

/--
With one store, and soft links to large cells only, a walk that succeeds does exactly what it
should: it raises the entries under its cell that need it, and reports these, each after what is
below it. After that a walk from any of the cells under the first one, read again or not, changes
nothing and reports nothing. Where several walks succeed in one order and in another, the store ends
up with the same entries.
-/
theorem make_effect [Subsingleton ι] (h : session.Reached)
    (hinj : Set.InjOn Digest.of session.encodings) (htidy : session.Tidy session.encodings)
    (index : ι) :
    (∀ (goal : Goal) (cell : Cell) (link : Link) (site : Site), cell ∈ session.cells →
      (make goal cell).run.run (session.site index) = (.ok link, site) →
      (session.site index).Effect goal cell site ∧
        ∀ later : Session ι, later.Reached → site.store.Grows (later.stores index) →
          ∀ again : Cell, again.digest ∈ site.under cell →
            ∃ link known, (make goal again).run.run (later.site index) =
              (.ok link, { later.site index with known })) ∧
      ∀ walks walks' final final', Walked index session walks final →
        Walked index session walks' final' → walks.Perm walks' →
        Set.InjOn Digest.of (final.encodings ∪ final'.encodings) →
        final.Tidy (final.encodings ∪ final'.encodings) →
        final'.Tidy (final.encodings ∪ final'.encodings) →
        ∀ key, (final.stores index).find? key = (final'.stores index).find? key := by
  refine ⟨fun goal cell link site hcell hrun => ⟨h.effect hinj hcell hrun htidy, ?_⟩, ?_⟩
  · intro later hlater hgrows again hunder
    exact h.make_again hinj hcell hrun htidy hlater hgrows hunder
  · intro walks walks' final final' hwalked hwalked' hperm hinj' htidy' htidy''
    exact find?_eq_of_perm h hwalked hwalked' hperm hinj' htidy' htidy''

omit [DecidableEq ι] in
/-- Whether soft links are used for large cells only can be found out by going through them. -/
theorem tidy_of_everyLink {known : Set Bytes} {links : List Link} {encodings : List Bytes}
    (hlinks : ∀ link ∈ session.links, link ∈ links) (hknown : ∀ e ∈ known, e ∈ encodings)
    (h : ∀ link ∈ links, link.target? = none → ∀ e ∈ encodings, Digest.of e = link.digest →
      maxEmbedded < e.length) : session.Tidy known :=
  fun _ _ hlink e he hdigest => h _ (hlinks _ hlink) rfl e (hknown e he) hdigest

/-- A vector of a soft link to the large blob. -/
def distantVector : Cell := .mk 2 (.vector [.soft 1 largeBlob.digest])

/-- A memory store that has the blob, and a user who has made the vector. -/
def distant : Session Unit :=
  (((Session.perform { stores := fun _ => .emptyMemory }
    (.cells (.blob (List.replicate 200 1)))).perform (.cells (.soft largeBlob.digest))).perform
      (.cells (.vectorOf [.soft 1 largeBlob.digest]))).perform
        (.store () (.make toStored largeBlob))

/-- The vector has been persisted after that. -/
def distantPersisted : Session Unit :=
  distant.perform (.store () (.make toPersisted distantVector))

/-- The walk by which the vector is persisted. -/
def vectorWalk : Except StoreFault Link × Site :=
  (make .persisted distantVector).run.run (distant.site ())

set_option maxRecDepth 20000 in
/-- What the requests of the user, and a walk of the vector after these, come to. -/
theorem distant_evaluated :
    Session.FitsThroughout [()] { stores := fun _ => .emptyMemory }
      [.cells (.blob (List.replicate 200 1)), .cells (.soft largeBlob.digest),
        .cells (.vectorOf [.soft 1 largeBlob.digest]), .store () (.make toStored largeBlob)] ∧
      distant.FitsThroughout [()] [.store () (.make toPersisted distantVector)] ∧
      vectorWalk.1.isOk ∧ vectorWalk.2.novel = [largeBlob.digest, distantVector.digest] := by
  decide +kernel

theorem reached_distant : distant.Reached := by
  simpa only [distant, List.foldl] using
    (Reached.start (fun _ => .emptyMemory) fun _ => .inl rfl).requests mem_unit _
      distant_evaluated.1
      ⟨List.forall_mem_nil _, List.forall_mem_nil _, mem_items_of_places [1] rfl,
        mem_items_of_places [0] rfl, trivial⟩

theorem has_distantVector : .cell distantVector ∈ distant.items :=
  List.mem_cons_of_mem _ (List.mem_cons_of_mem _ (List.mem_cons_self ..))

theorem has_largeBlob : .cell largeBlob ∈ distant.items := List.mem_cons_self ..

theorem reached_distantPersisted : distantPersisted.Reached :=
  .step _ reached_distant (arguments_make has_distantVector)
    (fits_of_everyCell mem_unit distant_evaluated.2.1.1)

/-- The vector has been stored first, then the blob persisted. -/
def storedFirst : Session Unit :=
  (distant.perform (.store () (.make toStored distantVector))).perform
    (.store () (.make toPersisted largeBlob))

/-- The blob has been persisted first, then the vector stored. -/
def persistedFirst : Session Unit :=
  (distant.perform (.store () (.make toPersisted largeBlob))).perform
    (.store () (.make toStored distantVector))

set_option maxRecDepth 20000 in
/-- The walks succeed in both orders. -/
theorem walks_evaluated :
    (distant.FitsThroughout [()]
        [.store () (.make toStored distantVector), .store () (.make toPersisted largeBlob)] ∧
      ((make toStored.val distantVector).run.run (distant.site ())).1.isOk ∧
      ((make toPersisted.val largeBlob).run.run
        ((distant.perform (.store () (.make toStored distantVector))).site ())).1.isOk) ∧
    distant.FitsThroughout [()]
        [.store () (.make toPersisted largeBlob), .store () (.make toStored distantVector)] ∧
      ((make toPersisted.val largeBlob).run.run (distant.site ())).1.isOk ∧
      ((make toStored.val distantVector).run.run
        ((distant.perform (.store () (.make toPersisted largeBlob))).site ())).1.isOk := by
  decide +kernel

theorem walked_storedFirst : Walked () distant
    [(toStored, distantVector), (toPersisted, largeBlob)] storedFirst := by
  obtain ⟨⟨⟨hfirst, hsecond, -⟩, hok, hok'⟩, -⟩ := walks_evaluated
  exact .cons has_distantVector (fits_of_everyCell mem_unit hfirst) hok
    (.cons (mem_items_perform has_largeBlob _) (fits_of_everyCell mem_unit hsecond) hok' (.nil _))

theorem walked_persistedFirst : Walked () distant
    [(toPersisted, largeBlob), (toStored, distantVector)] persistedFirst := by
  obtain ⟨-, ⟨hfirst, hsecond, -⟩, hok, hok'⟩ := walks_evaluated
  exact .cons has_largeBlob (fits_of_everyCell mem_unit hfirst) hok
    (.cons (mem_items_perform has_distantVector _) (fits_of_everyCell mem_unit hsecond) hok'
      (.nil _))

/-- The encodings that there are after the walks in both orders. -/
def bothEncodings : List Bytes :=
  storedFirst.everyEncoding [()] ++ persistedFirst.everyEncoding [()]

theorem mem_bothEncodings {encoding : Bytes}
    (h : encoding ∈ storedFirst.encodings ∪ persistedFirst.encodings) :
    encoding ∈ bothEncodings := by
  rcases h with h | h
  · exact List.mem_append_left _ (mem_everyEncoding mem_unit h)
  · exact List.mem_append_right _ (mem_everyEncoding mem_unit h)

set_option maxRecDepth 20000 in
/-- Digests tell the encodings apart, and soft links name only the blob, which is large. -/
theorem encodings_evaluated :
    (∀ a ∈ bothEncodings, ∀ b ∈ bothEncodings, Digest.of a = Digest.of b → a = b) ∧
      ∀ session ∈ [distant, storedFirst, persistedFirst], ∀ link ∈ session.everyLink [()],
        link.target? = none → ∀ e ∈ bothEncodings, Digest.of e = link.digest →
          maxEmbedded < e.length := by
  decide +kernel

set_option maxRecDepth 20000 in
/--
The walk of the vector persists the blob as well, which has been stored before, and reports it
first.
-/
theorem vector_effect : ∃ link, vectorWalk.1 = .ok link ∧
    vectorWalk.2.novel = [largeBlob.digest, distantVector.digest] ∧
    (distant.site ()).Effect .persisted distantVector vectorWalk.2 ∧
    (∃ link known, (make .persisted largeBlob).run.run (distantPersisted.site ()) =
      (.ok link, { distantPersisted.site () with known })) ∧
    ∀ key, (storedFirst.stores ()).find? key = (persistedFirst.stores ()).find? key := by
  obtain ⟨hencodings, hlinks⟩ := encodings_evaluated
  have hinj : Set.InjOn Digest.of (storedFirst.encodings ∪ persistedFirst.encodings) :=
    fun a ha b hb => hencodings a (mem_bothEncodings ha) b (mem_bothEncodings hb)
  have htidy : ∀ session ∈ [distant, storedFirst, persistedFirst],
      session.Tidy (storedFirst.encodings ∪ persistedFirst.encodings) := fun session hsession =>
    tidy_of_everyLink (fun _ => mem_everyLink mem_unit) (fun _ => mem_bothEncodings)
      (hlinks session hsession)
  have hsub : distant.encodings ⊆ storedFirst.encodings ∪ persistedFirst.encodings :=
    (walked_storedFirst.reached reached_distant).2.trans Set.subset_union_left
  obtain ⟨hwalk, horder⟩ := make_effect reached_distant (hinj.mono hsub)
    (fun label digest hlink e he => htidy distant (.head _) label digest hlink e (hsub he)) ()
  obtain ⟨-, -, hok, hnovel⟩ := distant_evaluated
  obtain ⟨link, hlink⟩ := exists_of_isOk hok
  have hrun : vectorWalk = (.ok link, vectorWalk.2) := Prod.ext hlink rfl
  obtain ⟨heffect, hagain⟩ :=
    hwalk toPersisted distantVector link vectorWalk.2 (.inl has_distantVector) hrun
  have hunder : largeBlob.digest ∈ vectorWalk.2.under distantVector :=
    ((heffect.novel _).1 (hnovel ▸ List.mem_cons_self ..)).1
  have hgrows : vectorWalk.2.store.Grows (distantPersisted.stores ()) := by
    rw [distantPersisted, stores_make]
    exact .refl _
  exact ⟨link, hlink, hnovel, heffect,
    hagain distantPersisted reached_distantPersisted hgrows largeBlob hunder,
    horder _ _ _ _ walked_storedFirst walked_persistedFirst (.swap ..) hinj
      (htidy storedFirst (.tail _ (.head _))) (htidy persistedFirst (.tail _ (.tail _ (.head _))))⟩

end Session

end CellGraph
