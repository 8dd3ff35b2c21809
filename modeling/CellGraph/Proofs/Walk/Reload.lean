import CellGraph.Proofs.Cell.Equality
import CellGraph.Proofs.Store.Completeness
import CellGraph.Proofs.Walk.Order

/-!
# Reading a graph back from a table

Once a walk of a cell has come to its end, the table has all that is below the cell. Somebody who
knows nothing but the digest of the cell can look it up there, and follow all links below it in any
order. What is found is the same graph, written out in full.

* `Site.Explores`: following links from a cell, in any order;
* `Origin.exists_resolve`, `Site.Explores.inv`: below a full cell, every link can be followed;
* `Origin.Inv.read_anew`: a table that is opened again;
* `Session.Reached.reloading`: reading back what a walk has written.
-/

namespace CellGraph

open StoreAction

/--
Links are followed from a cell: each time one of a cell that has been met, in any order. The cells
that have been met are listed, the latest first.
-/
inductive Site.Explores (start : Site) (top : Cell) : Site → List Cell → Prop
  | start : Explores start top start [top]
  | follow {site site' : Site} {met : List Cell} {cell target : Cell} {link : Link}
    (explores : Explores start top site met) (mem : cell ∈ met) (hlink : link ∈ cell.links)
    (run : (resolve link).run.run site = (.ok target, site')) :
    Explores start top site' (target :: met)

namespace Origin

variable {origin : Origin} {held held₀ : Set Link} {start site : Site} {cell : Cell} {link : Link}

/-- What is so of a site, and of the cells met, while links are followed from a full cell. -/
structure Explored (origin : Origin) (start : Site) (held : Set Link) (site : Site)
    (met : List Cell) : Prop where
  inv : origin.Inv held site
  consulted : start.Consulted origin.encodings site
  within : ∀ cell ∈ met, cell.Within origin.Covers held
  full : ∀ cell ∈ met, start.Full cell

/-- A link of a full cell that has been met can be followed. -/
theorem Explored.exists_resolve {met : List Cell} (h : origin.Explored start held site met)
    (hsound : start.store.Sound) (hcell : cell ∈ met) (hlink : link ∈ cell.links) :
    ∃ target site' held', (resolve link).run.run site = (.ok target, site') ∧
      target.digest = link.digest ∧ origin.Explored start held' site' (target :: met) := by
  have hheld := (h.within cell hcell).links link (Cell.mem_everyLink_of_mem hlink)
  have hfull := Site.full_iff.1 (h.full cell hcell) link hlink
  have hguards : origin.law.Guards held (start.Consulted origin.encodings) (resolve link)
      (fun target site => start.Consulted origin.encodings site ∧ start.Target link target)
      fun _ _ => False := by
    cases link with
    | direct label target => exact .pure fun site _ hsite => ⟨hsite, .inl rfl⟩
    | soft label digest =>
      refine ((guards_consult origin hsound hheld).mono (fun _ _ hsite => hsite)
        fun _ _ hpost => ⟨hpost.1, hpost.2.1⟩).mono_fails fun fault _ hfault => ?_
      obtain ⟨-, hresident, hentry⟩ := hfault
      obtain ⟨⟨target, htarget⟩, -⟩ := hfull
      exact htarget.find?_ne_none hsound hresident hentry
  obtain ⟨held', hsub, hinv', -, hpost⟩ := keeps_resolve hheld site h.inv trivial
  have hend := hguards site h.inv h.consulted
  rcases hrun : (resolve link).run.run site with ⟨fault | target, site'⟩ <;>
    rw [hrun] at hend hinv' hpost
  · exact hend.elim
  · obtain ⟨⟨hwithin, hleads⟩, -⟩ := hpost target rfl
    refine ⟨target, site', held', rfl, hleads.digest, hinv', hend.1, ?_, ?_⟩
    · rintro other (_ | ⟨_, hother⟩)
      · exact hwithin
      · exact (h.within other hother).mono hsub
    · rintro other (_ | ⟨_, hother⟩)
      · exact hfull.2 target hend.2
      · exact h.full other hother

/-- Links can be followed on and on, and what is met below a full cell is full. -/
theorem Explored.explores {met : List Cell} (h : origin.Explored start held start [cell])
    (hexplores : start.Explores cell site met) : ∃ held', origin.Explored start held' site met := by
  induction hexplores with
  | start => exact ⟨held, h⟩
  | follow _ hmem hlink hrun ih =>
    obtain ⟨held₁, h₁⟩ := ih
    obtain ⟨target, site', held₂, hrun', -, h₂⟩ :=
      h₁.exists_resolve h.inv.store hmem hlink
    rw [hrun] at hrun'
    cases hrun'
    exact ⟨held₂, h₂⟩

/--
A table that has been opened again, by somebody who knows nothing; or that is still open, and what
was known is known.
-/
theorem Inv.read_anew (h : origin.Inv held site) {rows : Index Bytes Row}
    (hstore : site.store = .table rows) (hfounded : site.store.Founded) {known : Knowledge}
    (hknown : known = {} ∨ known = site.known) :
    ∃ (origin' : Origin) (held' : Set Link), origin'.encodings = origin.encodings ∧
      origin'.Inv held' { known, store := site.store } := by
  rcases hknown with rfl | rfl
  · refine ⟨⟨∅, {}, origin.encodings, fun _ _ => rfl⟩, ∅, rfl, ?_⟩
    exact {
      coherent := ⟨nofun, nofun, nofun, fun _ _ h => by simp at h, nofun, fun _ _ => rfl⟩
      subset := subset_rfl
      known := .refl _
      fresh := nofun
      store := h.store
      remembers := fun cell hcell => by
        rw [hstore] at hcell
        exact hcell.elim
      encodings := h.encodings
      vouched := nofun
      raised := nofun
      closed := fun _ key encoding status hentry digest hdigest =>
        .inl (hfounded key encoding status hentry digest hdigest) }
  · exact ⟨origin, held, rfl, { h with }⟩

section

variable {known : Knowledge} {store : Store} (h : origin.Inv held { known, store })

include h

/-- An entry is looked up. -/
theorem Inv.exists_lookup {key : Digest} {encoding : Bytes} {status : Status}
    (hentry : store.find? key = some (encoding, status)) :
    ∃ found noted held', (lookup key).run.run { known, store } =
        (.ok (some found), { known := noted, store }) ∧ found.encode = encoding ∧
      origin.Inv held' { known := noted, store } ∧ found.Within origin.Covers held' := by
  obtain ⟨found, _, noted, -, -, -, hencode, hrun⟩ := run_lookup h.store hentry
  obtain ⟨held', -, hinv, -, hpost⟩ := StoreOperation.keeps_lookup key _ h trivial
  rw [hrun] at hinv hpost
  exact ⟨found, noted, held', hrun, hencode, hinv, hpost _ rfl found rfl⟩

/-- If the store is complete below a cell, the cell has one expansion, which a check counts. -/
theorem Inv.exists_whole (hinj : Set.InjOn Digest.of origin.encodings) (hwhole : store.Whole)
    (hcell : cell.Within origin.Covers held)
    (hnamed : ∀ digest ∈ cell.encode.named, store.Complete digest) :
    Site.Full { known, store } cell ∧ ∃ whole later, Site.Expands { known, store } cell whole ∧
      (checkComplete cell).run.run { known, store } =
        (.ok (whole.everyLink.length + 1), later) := by
  have hmeets := h.meets_of_within hcell
  have hfull := hmeets.full h hinj fun digest hdigest =>
    hnamed digest (Cell.named_encode hmeets.sound ▸ hdigest)
  have hacyclic : ∀ encoding ∈ origin.under cell,
      ¬Depends origin.encodings encoding encoding := fun encoding hunder =>
    (Store.complete_of_depends h.store h.encodings hinj hnamed hunder).not_depends h.store
      h.encodings hinj (Depends.mem hunder) rfl
  obtain ⟨count, later, hrun, hcount⟩ :=
    exists_count h hinj (.at_start hwhole rfl rfl) hcell hfull hacyclic
  obtain ⟨whole, hexpands⟩ := hfull.exists_expands
  exact ⟨hfull, whole, later, hexpands, hcount.count whole hexpands ▸ hrun⟩

end

end Origin

namespace Session

variable {ι : Type} [DecidableEq ι] [Subsingleton ι] {session : Session ι}

/--
After a walk of a cell to a table has succeeded, somebody who knows nothing, or the same user, looks
up the digest of the cell there. What is found is equal to the cell. All links below it can be
followed, in any order. Written out in full, it is the same as the cell, of which some links may
hold cells; and a check of either succeeds, with the number of cells in that.
-/
theorem Reached.reloading (h : session.Reached) (hinj : Set.InjOn Digest.of session.encodings)
    {index : ι} {goal : Goal} {cell : Cell} (hcell : cell ∈ session.cells) {link : Link}
    {site : Site} (hrun : (make goal cell).run.run (session.site index) = (.ok link, site))
    {rows : Index Bytes Row} (hstore : site.store = .table rows) {known : Knowledge}
    (hknown : known = {} ∨ known = site.known) :
    ∃ found reader,
      (lookup cell.digest).run.run { known, store := site.store } = (.ok (some found), reader) ∧
      found.encode = cell.encode ∧ Calc.Agrees (found.equal cell) ∧
      (∀ later met, reader.Explores found later met → ∀ other ∈ met, ∀ link ∈ other.links,
        ∃ target after, (resolve link).run.run later = (.ok target, after) ∧
          target.digest = link.digest) ∧
      ∃ whole after after',
        (∀ other, reader.Expands found other ↔ other = whole) ∧
        (∀ other, Site.Expands { known := site.known, store := site.store } cell other ↔
          other = whole) ∧
        (checkComplete found).run.run reader = (.ok (whole.everyLink.length + 1), after) ∧
        (checkComplete cell).run.run { known := site.known, store := site.store } =
          (.ok (whole.everyLink.length + 1), after') := by
  obtain ⟨hfinished, held, hinv, -⟩ := h.finished hinj hcell hrun
  obtain ⟨status, -, hentry⟩ := hfinished.has
  have hwhole := hfinished.trace.whole
  have hcomplete : ∀ digest ∈ cell.encode.named, site.store.Complete digest := by
    obtain ⟨hfind, hnamed⟩ := hwhole cell.digest (by rw [hentry]; rfl)
    rw [hentry] at hfind
    cases hfind
    exact hnamed
  -- The cell itself, once the walk is over.
  have hhere : (session.origin h.inv.toSound).Inv held
      { known := site.known, store := site.store } := { hinv with }
  have hcovers : cell.Within (session.origin h.inv.toSound).Covers held :=
    (h.inv.toSound.covers hcell).mono hinv.subset
  have hmeets := hhere.meets_of_within hcovers
  obtain ⟨-, whole, after', hexpands, hcheck⟩ := hhere.exists_whole hinj hwhole hcovers hcomplete
  -- What is found by its digest.
  obtain ⟨origin, held₀, horigin, hanew⟩ := hinv.read_anew hstore hfinished.founded hknown
  obtain ⟨found, noted, held₁, hlookup, hencode, hreader, hwithin⟩ := hanew.exists_lookup hentry
  have hmeets₁ := hreader.meets_of_within hwithin
  have hinj₁ : Set.InjOn Digest.of origin.encodings := horigin ▸ hinj
  obtain ⟨hfull, whole₁, after, hexpands₁, hcheck₁⟩ :=
    hreader.exists_whole hinj₁ hwhole hwithin (hencode ▸ hcomplete)
  have hsame : ∀ {other : Cell}, Site.Expands { known := noted, store := site.store } found other →
      other = whole := fun hother =>
    hmeets₁.expansion_eq hreader hhere horigin.symm hinj₁ hmeets hencode hother hexpands
  obtain rfl : whole₁ = whole := hsame hexpands₁
  refine ⟨found, _, hlookup, hencode,
    Cell.agrees_of_encode_eq hmeets₁.sound hmeets.sound hencode, fun later met hexplores => ?_,
    whole₁, after, after', fun other => ⟨hsame, fun heq => heq ▸ hexpands₁⟩,
    fun other => ⟨fun hother => ?_, fun heq => heq ▸ hexpands⟩, hcheck₁, hcheck⟩
  · have hexplored : origin.Explored { known := noted, store := site.store } held₁
        { known := noted, store := site.store } [found] :=
      ⟨hreader, .at_start hwhole rfl rfl,
        fun other hother => List.mem_singleton.1 hother ▸ hwithin,
        fun other hother => List.mem_singleton.1 hother ▸ hfull⟩
    obtain ⟨held₂, h₂⟩ := hexplored.explores hexplores
    intro other hother link hlink
    obtain ⟨target, after, _, hresolve, hdigest, -⟩ :=
      h₂.exists_resolve hreader.store hother hlink
    exact ⟨target, after, hresolve, hdigest⟩
  · exact hmeets.expansion_eq hhere hhere rfl hinj hmeets rfl hother hexpands

/-- A table that has the blob, and a user who has made the vector. -/
def tabled : Session Unit :=
  (((Session.perform { stores := fun _ => .emptyTable }
    (.cells (.blob (List.replicate 200 1)))).perform (.cells (.soft largeBlob.digest))).perform
      (.cells (.vectorOf [.soft 1 largeBlob.digest]))).perform
        (.store () (.make toStored largeBlob))

/-- The walk of the vector to the table. -/
def tabledWalk : Except StoreFault Link × Site :=
  (make .persisted distantVector).run.run (tabled.site ())

set_option maxRecDepth 20000 in
/-- What the requests of the user, the walk, and a check after that come to. -/
theorem tabled_evaluated :
    Session.FitsThroughout [()] { stores := fun _ => .emptyTable }
      [.cells (.blob (List.replicate 200 1)), .cells (.soft largeBlob.digest),
        .cells (.vectorOf [.soft 1 largeBlob.digest]), .store () (.make toStored largeBlob)] ∧
      (∀ a ∈ tabled.everyEncoding [()], ∀ b ∈ tabled.everyEncoding [()],
        Digest.of a = Digest.of b → a = b) ∧
      tabledWalk.1.isOk ∧
      (match tabledWalk.2.store with
        | .memory _ => false
        | .table _ => true) = true ∧
      ((checkComplete distantVector).run.run
        { known := tabledWalk.2.known, store := tabledWalk.2.store }).1.toOption = some 2 := by
  decide +kernel

theorem reached_tabled : tabled.Reached := by
  simpa only [tabled, List.foldl] using
    (Reached.start (fun _ => .emptyTable) fun _ => .inr rfl).requests mem_unit _
      tabled_evaluated.1
      ⟨List.forall_mem_nil _, List.forall_mem_nil _, mem_items_of_places [1] rfl,
        mem_items_of_places [0] rfl, trivial⟩

theorem exists_rows_tabledWalk : ∃ rows, tabledWalk.2.store = .table rows := by
  obtain ⟨-, -, -, htable, -⟩ := tabled_evaluated
  cases hstore : tabledWalk.2.store with
  | memory entries =>
    rw [hstore] at htable
    cases htable
  | table rows => exact ⟨rows, rfl⟩

set_option maxRecDepth 20000 in
/-- The vector is looked up by somebody else, who counts two cells, as many as there are. -/
theorem distantVector_reloaded :
    distantVector ∈ tabled.cells ∧ tabledWalk.1.isOk ∧ ∃ found reader,
      (lookup distantVector.digest).run.run { known := {}, store := tabledWalk.2.store } =
        (.ok (some found), reader) ∧ Calc.Agrees (found.equal distantVector) ∧
      ∃ whole after, whole.everyLink.length = 1 ∧
        (∀ other, reader.Expands found other ↔ other = whole) ∧
        (checkComplete found).run.run reader = (.ok 2, after) := by
  have hcell : distantVector ∈ tabled.cells :=
    .inl (List.mem_cons_of_mem _ (List.mem_cons_of_mem _ (List.mem_cons_self ..)))
  obtain ⟨-, hencodings, hok, -, hcount⟩ := tabled_evaluated
  have hinj : Set.InjOn Digest.of tabled.encodings := injOn_of_everyEncoding mem_unit hencodings
  obtain ⟨link, hlink⟩ := exists_of_isOk hok
  have hrun : (make toPersisted.val distantVector).run.run (tabled.site ()) =
      (.ok link, tabledWalk.2) := Prod.ext hlink rfl
  obtain ⟨rows, hstore⟩ := exists_rows_tabledWalk
  obtain ⟨found, reader, hlookup, -, hequal, -, whole, after, after', hexpands, -, hcheck, hhere⟩ :=
    reached_tabled.reloading hinj hcell hrun hstore (.inl rfl)
  rw [hhere] at hcount
  have hlength : whole.everyLink.length = 1 := Nat.succ.inj (Option.some.inj hcount)
  rw [hlength] at hcheck
  exact ⟨hcell, hok, found, reader, hlookup, hequal, whole, after, hlength, hexpands,
    hcheck⟩

end Session

end CellGraph
