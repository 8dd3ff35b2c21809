import CellGraph.Proofs.Walk.Effects

/-!
# Walks that succeed

In a session with one store, what a store holds are encodings of cells of the session. If soft links
are used for large cells only, encodings refer to large ones only. So a walk has the effect that it
should have, and the same walk, or one from a cell below, finds nothing to do when it is made again.

* `Session.Tidy`: soft links are used for large cells only;
* `Session.Reached.tidy`: what that means for encodings;
* `Session.Reached.finished`, `Session.Reached.effect`: walks that succeed;
* `StoreAction.run_make_of_status`: walks that have nothing to do.
-/

namespace CellGraph

open StoreAction

/-- A digest that a cell names is that of a link below it whose target is not inline. -/
theorem Cell.exists_link_of_named {cell : Cell} {digest : Digest} (h : digest ∈ cell.named) :
    ∃ link ∈ cell.everyLink, link.inline? = none ∧ link.digest = digest := by
  induction cell using Cell.induct with
  | step label value ih =>
    obtain ⟨link, hlink, hdigest⟩ := Cell.mem_named.1 h
    cases hinline : link.inline? with
    | some target =>
      have ht := Link.target?_of_inline hinline
      rw [Link.named_of_inline hinline] at hdigest
      obtain ⟨other, hother, hrest⟩ := ih link hlink target ht hdigest
      exact ⟨other, Cell.mem_everyLink_of_target hlink ht hother, hrest⟩
    | none =>
      rw [Link.named_of_not_inline hinline, List.mem_singleton] at hdigest
      exact ⟨link, Cell.mem_everyLink_of_mem hlink, hinline, hdigest.symm⟩

/-! ### Walks that have nothing to do -/

section

variable {site : Site} {goal : Status} {cell : Cell} {encoding : Bytes} {status : Status}

/-- A link whose target has an entry with the status takes that over. -/
theorem Link.run_walkTarget_of_status (hsound : site.store.Sound)
    (hentry : site.store.find? cell.digest = some (encoding, status)) (hle : goal ≤ status)
    (link : Link) (children : StoreAction Unit) :
    ∃ known, (link.walkTarget goal true cell cell.encode children).run.run site =
      (.ok (), { site with known }) := by
  let noted : Site := { site with known := (cell.noteWritten.run site.known).2 }
  have hnote : (ofCalc cell.noteWritten).run.run site = (.ok (), noted) := rfl
  have hsound' : noted.store.Sound := hsound
  have hentry' : noted.store.find? cell.digest = some (encoding, status) := hentry
  have hadopt : (adopt link cell.digest goal).run.run noted =
      (.ok true, { noted with known := noted.known.advance link status }) := by
    rw [run_adopt hsound'.legible, hentry']
    exact if_pos hle
  refine ⟨noted.known.advance link status, ?_⟩
  rw [walkTarget, run_run_bind, hnote]
  dsimp only
  rw [Bool.true_or, if_pos rfl, run_run_bind, show Digest.of cell.encode = cell.digest from rfl,
    hadopt]
  rfl

/-- A walk from a cell whose entry has the status already changes nothing but what is known. -/
theorem StoreAction.run_make_of_status (hsound : site.store.Sound)
    (hunused : site.known.statusAt site.known.next = .unknown) (hstored : .stored ≤ goal)
    (hentry : site.store.find? cell.digest = some (encoding, status)) (hle : goal ≤ status) :
    ∃ known, (make goal cell).run.run site =
      (.ok (.direct site.known.next cell), { site with known }) := by
  -- The link to the cell is new, so that the walk goes on to look up the entry.
  have hnew : ¬goal ≤ site.known.statusAt site.known.next := by
    rw [hunused]
    exact fun hle => absurd (hstored.trans hle) (by decide)
  let linked : Site := { site with known := { site.known with next := site.known.next + 1 } }
  let link : Link := .direct site.known.next cell
  let noted : Site := { linked with known := (cell.noteDigest.run linked.known).2 }
  have hnote : (ofCalc cell.noteDigest).run.run linked = (.ok (), noted) := rfl
  have hsound' : noted.store.Sound := hsound
  obtain ⟨known, hrun⟩ := Link.run_walkTarget_of_status hsound' hentry hle link
    (cell.walkChildren goal (hopLimit linked))
  have hwalk : (walk goal link).run.run linked = (.ok (), { site with known }) := by
    show (if goal ≤ site.known.statusAt site.known.next then pure () else do
      ofCalc cell.noteDigest
      link.walkTarget goal true cell cell.encode (cell.walkChildren goal (hopLimit linked)) :
        StoreAction Unit).run.run linked = _
    rw [if_neg hnew, run_run_bind, hnote]
    exact hrun
  have hlink : (ofCalc cell.link).run.run site = (.ok link, linked) := rfl
  refine ⟨known, ?_⟩
  rw [make, run_run_bind, hlink]
  dsimp only
  rw [run_run_bind, hwalk]
  rfl

end

namespace Session

variable {ι : Type} {session : Session ι}

/-- Soft links are used for large cells only, as far as these encodings go. -/
def Tidy (session : Session ι) (known : Set Bytes) : Prop :=
  ∀ label digest, .soft label digest ∈ session.links → ∀ encoding ∈ known,
    Digest.of encoding = digest → maxEmbedded < encoding.length

variable [DecidableEq ι]

/-- What is in a store is the encoding of a cell. -/
theorem Reached.exists_cell (h : session.Reached) {encoding : Bytes}
    (hencoding : encoding ∈ session.encodings) :
    ∃ cell ∈ session.cells, cell.encode = encoding := by
  induction h with
  | start stores empty =>
    rcases hencoding with hcell | ⟨index, key, status, hentry⟩
    · exact hcell
    · dsimp only at hentry
      rcases empty index with heq | heq <;> rw [heq] at hentry <;> cases hentry
  | @step session request reached arguments fits ih =>
    have hbefore : encoding ∈ session.encodings → ∃ cell ∈ (session.perform request).cells,
        cell.encode = encoding := by
      intro hmem
      obtain ⟨cell, hcell, hencode⟩ := ih hmem
      exact ⟨cell, (reached.inv.grows_perform arguments).cells hcell, hencode⟩
    rcases hencoding with hcell | ⟨index, key, status, hentry⟩
    · exact hcell
    · refine hbefore ?_
      cases request with
      | cells operation => exact .inr ⟨index, key, status, hentry⟩
      | store other operation =>
        rw [stores_performStore] at hentry
        split at hentry
        · obtain ⟨_, hinv, -⟩ := reached.inv.siteAfter arguments
          exact hinv.encodings _ _ _ hentry
        · exact .inr ⟨index, key, status, hentry⟩

/-- What the encodings of a session refer to is large, also among more encodings. -/
theorem Reached.length_of_refers (h : session.Reached) {known : Set Bytes}
    (hsub : session.encodings ⊆ known) (hinj : Set.InjOn Digest.of known)
    (htidy : session.Tidy known) {a b : Bytes} (ha : a ∈ session.encodings)
    (hrefers : Refers known a b) : maxEmbedded < b.length := by
  obtain ⟨cell, hcell, rfl⟩ := h.exists_cell ha
  obtain ⟨hb, hnamed⟩ := hrefers
  rw [Cell.named_encode (h.inv.cell hcell)] at hnamed
  obtain ⟨link, hlink, hinline, hdigest⟩ := Cell.exists_link_of_named hnamed
  have hheld := (h.inv.valid hcell).links link hlink
  cases link with
  | soft label digest => exact htidy label digest hheld b hb hdigest.symm
  | direct label target =>
    have htarget : target.encode ∈ session.encodings :=
      .inl ⟨target, .inr (.inl ⟨_, hheld, rfl⟩), rfl⟩
    obtain rfl : target.encode = b := hinj (hsub htarget) hb hdigest
    refine Nat.not_le.1 fun hle => ?_
    rw [Link.inline?, if_pos ((Cell.isSmall_iff target).2 hle)] at hinline
    cases hinline

theorem Reached.tidy (h : session.Reached) (hinj : Set.InjOn Digest.of session.encodings)
    (htidy : session.Tidy session.encodings) : CellGraph.Tidy session.encodings :=
  fun _ ha _ => h.length_of_refers subset_rfl hinj htidy ha

/-! ### Walks that succeed -/

section

variable [Subsingleton ι] (h : session.Reached) (hinj : Set.InjOn Digest.of session.encodings)
  {index : ι} {goal : Goal} {cell : Cell} (hcell : cell ∈ session.cells) {link : Link} {site : Site}
  (hrun : (make goal cell).run.run (session.site index) = (.ok link, site))

include h hinj hcell hrun

/-- A walk that succeeds has come to its end, and its cell can be met where it ends. -/
theorem Reached.finished :
    Site.Finished session.encodings (session.site index) goal cell site ∧
      ∃ held, (session.origin h.inv.toSound).Inv held site ∧ Origin.Meets held site cell := by
  have hencoding : cell.encode ∈ session.encodings := .inl ⟨cell, hcell, rfl⟩
  have hwatches := h.inv.watches hinj index goal.2
  have hcovers := h.inv.toSound.covers hcell
  have hguards := Course.guards_make (.below _ _ goal.val cell) hwatches hcovers hencoding
    (Course.visits_below ..) (Set.subset_insert cell.encode _) (Set.mem_insert _ _)
  obtain ⟨htrace, hhas⟩ := hguards.of_ok (h.inv.atOrigin index)
    ⟨rfl, trace_site (h.whole hinj index) _ _ _⟩ (congrArg Prod.fst hrun)
  obtain ⟨held, hsub, hinv, -, -⟩ := Origin.keeps_makeDurable goal.2 hcovers hencoding
    (session.site index) (h.inv.atOrigin index) trivial
  rw [hrun] at htrace hhas hinv
  exact ⟨⟨htrace, hinv.store, hinv.encodings, hinj, hinv.founded hwatches htrace.moves, hhas⟩,
    held, hinv, hinv.meets_of_within (hcovers.mono hsub)⟩

/-- A walk that succeeds has its effect. -/
theorem Reached.effect (htidy : session.Tidy session.encodings) :
    (session.site index).Effect goal cell site := by
  obtain ⟨hfinished, held, hinv, hmeets⟩ := h.finished hinj hcell hrun
  exact hfinished.effect hinv (h.tidy hinj htidy) hmeets (.inl ⟨cell, hcell, rfl⟩)

/-- A walk from a cell below, or from the same one, has nothing to do after that. -/
theorem Reached.make_again (htidy : session.Tidy session.encodings) {later : Session ι}
    (hlater : later.Reached) (hgrows : site.store.Grows (later.stores index)) {again : Cell}
    (hunder : again.digest ∈ site.under cell) :
    ∃ link known, (make goal again).run.run (later.site index) =
      (.ok link, { later.site index with known }) := by
  obtain ⟨encoding, status, hentry, hle⟩ := (h.effect hinj hcell hrun htidy).exists_status hunder
  obtain ⟨held, hle', hentry'⟩ := hgrows.entry _ _ _ hentry
  exact ⟨_, run_make_of_status (hlater.inv.store index)
    (hlater.inv.coherent.status _ (Nat.le_refl _)) goal.2 hentry' (hle.trans hle')⟩

end

end Session

end CellGraph
