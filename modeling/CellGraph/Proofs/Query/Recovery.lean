import CellGraph.Proofs.Query.Stop
import CellGraph.Proofs.Session.ValidatedLookup

/-!
# Fetching what is missing

A question that reports a digest as missing may be asked again after all references to that digest
have been resolved from a store. That is of use if the cell of the digest is too large to be inline,
since such a cell is then held; smaller ones are not, and the same digest is reported again. If only
large cells are referred to by digest, an answer comes after finitely many rounds.

* `StoreAction.acquire`, `Query.fetch`, `Query.recover`: resolving references, and asking again;
* `Site.Acquired`: sites on which nothing has been done since but to resolve links of one digest;
* `StoreAction.exists_acquire`, `Query.exists_fetch`: what becomes of the references;
* `Query.exists_recover`: rounds come to an end;
* `Chronicle.Reached.recovering`: what fetching does, and when it ends.
-/

namespace CellGraph

open StoreAction

/-- Resolve those of some links that have this digest. -/
def StoreAction.acquire (key : Digest) (links : List Link) : StoreAction Unit :=
  (links.filter fun link => link.digest = key).forM fun link => do
    let _ ← resolve link
    return

/-! ### Rounds of questions -/

namespace Query

variable {query : Query} {site : Site} {key : Digest}

/-- What there is after the question has been asked. -/
def asked (query : Query) (site : Site) : Site := ((ofAttempt query.ask).run.run site).2

/--
Resolve all references to a digest: those of the map or the record, and then those of the maps of a
record that are held.
-/
def fetch (query : Query) (key : Digest) : StoreAction Unit := do
  acquire key query.links
  let site ← getThe Site
  acquire key (query.inSight site.known.resident)

/-- Ask the question; as often as this, fetch what is missing and ask again. -/
def recover (query : Query) : Nat → StoreAction Finding
  | 0 => ofAttempt query.ask
  | rounds + 1 =>
    tryCatch (ofAttempt query.ask) fun
      | .cell (.missingData key) => do
        query.fetch key
        query.recover rounds
      | fault => throw fault

theorem run_ask (query : Query) (site : Site) :
    (ofAttempt query.ask).run.run site =
      ((query.ask.run.run site.known).1.mapError .cell, query.asked site) := rfl

/-- Nothing is held after a question that was not held before. -/
theorem idles_asked (query : Query) (site : Site) : site.known.Idles (query.asked site).known :=
  (query.endsWhere_ask site.known rfl).2

theorem missing_asked (query : Query) (site : Site) :
    query.missing (query.asked site).known = query.missing site.known := by
  rw [missing_eq, missing_eq, (query.idles_asked site).resident_eq]

/-- A round that is needed. -/
theorem run_recover_of_missing (h : query.missing site.known = some key) (rounds : Nat) :
    (query.recover (rounds + 1)).run.run site =
      (query.fetch key >>= fun _ => query.recover rounds).run.run (query.asked site) := by
  have hfault : (query.ask.run.run site.known).1 = .error (.missingData key) :=
    missing?_eq_some_iff.1 h
  have hask := query.run_ask site
  rw [hfault] at hask
  rw [recover, run_run_tryCatch, hask]
  rfl

/-- No round is needed once nothing is missing. -/
theorem run_recover_of_none (h : query.missing site.known = none) (rounds : Nat) :
    (query.recover rounds).run.run site = (ofAttempt query.ask).run.run site := by
  cases rounds with
  | zero => rfl
  | succ rounds =>
    rw [recover, run_run_tryCatch, run_ask]
    cases houtcome : (query.ask.run.run site.known).1 with
    | ok finding => rfl
    | error fault =>
      unfold missing at h
      rw [houtcome] at h
      cases fault with
      | missingData digest => cases h
      | _ => rfl

end Query

/-! ### Resolving links of one digest -/

/-- Nothing has been done since the start but to resolve links of one digest. -/
structure Site.Acquired (key : Digest) (start site : Site) : Prop
    extends Site.LookedUp start site where
  other : ∀ (label : Label) (cell : Cell), site.known.kept[label]? = some cell →
    start.known.kept[label]? = some cell ∨ cell.digest = key

namespace Site

variable {start site site' : Site} {key : Digest} {link : Link} {cell : Cell} {held : Set Link}

theorem Acquired.refl (key : Digest) (site : Site) : site.Acquired key site :=
  ⟨.refl site, fun _ _ h => .inl h⟩

theorem Acquired.trans (h : start.Acquired key site) (h' : site.Acquired key site') :
    start.Acquired key site' := by
  refine ⟨h.toLookedUp.trans h'.toLookedUp, fun label cell hcell => ?_⟩
  rcases h'.other label cell hcell with hkept | hdigest
  · exact h.other label cell hkept
  · exact .inr hdigest

/-- Nothing new is held after notes have been made, and labels used. -/
theorem Acquired.note (h : start.Acquired key site) {next : Label} {noted : Knowledge}
    (hnext : site.known.next ≤ next) (hnotes : Knowledge.Notes { site.known with next } noted) :
    start.Acquired key { site with known := noted } := by
  refine ⟨h.toLookedUp.note hnext hnotes, fun label cell hcell => h.other label cell ?_⟩
  rw [← hcell]
  exact congrArg (·[label]?) hnotes.kept.symm

theorem Acquired.advance (h : start.Acquired key site) (link : Link) (status : Status) :
    start.Acquired key { site with known := site.known.advance link status } :=
  ⟨h.toLookedUp.advance link status, h.other⟩

/-- A soft link comes to hold the cell of the digest. -/
theorem Acquired.keep (h : start.Acquired key site) (link : Link)
    (hgives : start.Gives cell.digest cell) (hdigest : cell.digest = key) :
    start.Acquired key { site with known := site.known.keep link cell } := by
  refine ⟨h.toLookedUp.keep link hgives, fun label other hother => ?_⟩
  change (site.known.keep link cell).kept[label]? = some other at hother
  rw [Knowledge.kept_keep] at hother
  split at hother
  · cases hother
    exact .inr hdigest
  · exact h.other label other hother

/-- A link that is in use holds what it held, unless it has the digest. -/
theorem Acquired.resident_eq (h : start.Acquired key site)
    (hcoherent : Coherent (·.value.Sound) held site.known) (hlink : link ∈ held)
    (hdigest : link.digest ≠ key) :
    site.known.resident link = start.known.resident link := by
  cases hresident : site.known.resident link with
  | none => exact (h.grows.resident_eq_none hresident).symm
  | some cell =>
    cases link with
    | direct => exact hresident.symm
    | soft label digest =>
      rcases h.other label cell hresident with hkept | heq
      · exact hkept.symm
      · exact absurd ((hcoherent.digest _ hlink cell hresident).symm.trans heq) hdigest

/-- If the cell of the digest is small, no link comes to hold it. -/
theorem Acquired.resident_eq_of_small (h : start.Acquired key site) (hkeyed : start.store.Keyed)
    (hcoherent : Coherent (·.value.Sound) held site.known) {encoding : Bytes} {status : Status}
    (hentry : start.store.find? key = some (encoding, status))
    (hsmall : encoding.length ≤ maxEmbedded) : site.known.resident = start.known.resident := by
  funext link
  cases link with
  | direct => rfl
  | soft label digest =>
    cases hresident : site.known.resident (.soft label digest) with
    | none => exact (h.grows.resident_eq_none hresident).symm
    | some cell =>
      rcases h.kept label cell hresident with hkept | ⟨known, -, hread⟩
      · exact hkept.symm
      rcases h.other label cell hresident with hkept | heq
      · exact hkept.symm
      · -- The store gives the small cell of its entry, but only large cells are kept.
        obtain ⟨_, hfind⟩ := hkeyed.of_read hread
        rw [heq, hentry] at hfind
        cases hfind
        have hlarge := (hcoherent.kept label cell hresident).2.1
        rw [cell.isSmall_iff.2 hsmall] at hlarge
        cases hlarge

end Site

/-- After a cell has been kept for a link, the link holds one. -/
theorem Knowledge.isSome_resident_keep (known : Knowledge) (link : Link) (cell : Cell) :
    ((known.keep link cell).resident link).isSome := by
  cases link with
  | direct => rfl
  | soft label digest =>
    rw [resident, kept_keep]
    split
    · rfl
    · next hnot => exact Option.ne_none_iff_isSome.1 fun hnone => hnot ⟨rfl, hnone⟩

namespace Deposits

/-- The law of computations on a store that write nothing. -/
abbrev readingLaw : Law Site := law fun _ => False

variable {held : Set Link} {start site : Site} {key : Digest} {encoding : Bytes} {status : Status}
  {link : Link}

/-- A link of the digest can be resolved, and holds the cell then if that is large. -/
theorem exists_resolve (hkeyed : start.store.Keyed)
    (hentry : start.store.find? key = some (encoding, status)) (hdigest : link.digest = key)
    (hacquired : start.Acquired key site) :
    ∃ cell site', (StoreAction.resolve link).run.run site = (.ok cell, site') ∧
      start.Acquired key site' ∧
      (maxEmbedded < encoding.length → (site'.known.resident link).isSome) := by
  have hkeyed' : site.store.Keyed := hacquired.store ▸ hkeyed
  have hentry' : site.store.find? link.digest = some (encoding, status) := by
    rw [hacquired.store, hdigest, hentry]
  cases hresident : site.known.resident link with
  | some cell =>
    exact ⟨cell, site, run_resolve_of_resident hresident, hacquired, fun _ => by
      rw [hresident, Option.isSome_some]⟩
  | none =>
    obtain ⟨cell, next, noted, hnext, hnotes, hread, hrun⟩ :=
      run_resolve_of_some hkeyed' hresident hentry'
    obtain ⟨status', hfound⟩ := hkeyed'.of_read hread
    have hcell : link.digest = cell.digest := hkeyed'.key _ _ _ hfound
    have hencode : cell.encode = encoding := by
      rw [hentry'] at hfound
      cases hfound
      rfl
    have hgives : start.Gives cell.digest cell :=
      hcell ▸ hacquired.gives ⟨site.known, le_rfl, hread⟩
    have hnoted := hacquired.note hnext hnotes
    refine ⟨cell, _, hrun, ?_⟩
    cases hsmall : cell.isSmall with
    | true =>
      refine ⟨hnoted.advance link .verified, fun hlarge => ?_⟩
      have hle := cell.isSmall_iff.1 hsmall
      rw [hencode] at hle
      omega
    | false =>
      refine ⟨(hnoted.keep link hgives (hcell ▸ hdigest)).advance link .verified, fun _ => ?_⟩
      show (((noted.keep link cell).advance link .verified).resident link).isSome
      rw [Knowledge.resident_advance]
      exact noted.isSome_resident_keep link cell

/-- That is done within the law of computations that only read. -/
theorem carries_acquireLink (hkeyed : start.store.Keyed)
    (hentry : start.store.find? key = some (encoding, status)) (hlink : link ∈ held)
    (hdigest : link.digest = key) :
    readingLaw.Carries held (start.Acquired key) (do let _ ← StoreAction.resolve link; return)
      (fun _ _ site => start.Acquired key site ∧
        (maxEmbedded < encoding.length → (site.known.resident link).isSome)) fun _ _ => False := by
  intro site hinv hacquired
  have hkeeps : readingLaw.Keeps held (fun _ => True)
      (do let _ ← StoreAction.resolve link; return) fun _ _ _ => True :=
    ((craft fun _ => False).keeps_resolve hlink).bind fun _ _ _ => .pure fun _ _ _ => trivial
  obtain ⟨held', hsub, hinv', hle, -⟩ := hkeeps site hinv trivial
  obtain ⟨cell, site', hrun, hend⟩ := exists_resolve hkeyed hentry hdigest hacquired
  refine ⟨held', hsub, hinv', hle, ?_⟩
  rw [run_run_bind, hrun]
  exact hend

end Deposits

open Deposits

/-- All links of the digest can be resolved, and hold its cell then if that is large. -/
theorem StoreAction.exists_acquire {held : Set Link} {site : Site} {key : Digest}
    {encoding : Bytes} {status : Status} (hkeyed : site.store.Keyed)
    (hinv : readingLaw.inv held site) (hentry : site.store.find? key = some (encoding, status))
    {links : List Link} (hlinks : ∀ link ∈ links, link ∈ held) :
    ∃ held' site', held ⊆ held' ∧ readingLaw.inv held' site' ∧
      (acquire key links).run.run site = (.ok (), site') ∧ site.Acquired key site' ∧
      (maxEmbedded < encoding.length →
        ∀ link ∈ links, link.digest = key → (site'.known.resident link).isSome) := by
  have hwanted : ∀ link ∈ links.filter fun link => link.digest = key,
      link ∈ held ∧ link.digest = key := fun link hlink =>
    ⟨hlinks link (List.mem_filter.1 hlink).1, of_decide_eq_true (List.mem_filter.1 hlink).2⟩
  have hcarries : readingLaw.Carries held (site.Acquired key) (acquire key links)
      (fun _ _ site' => site.Acquired key site' ∧
        ∀ link ∈ links.filter fun link => link.digest = key,
          maxEmbedded < encoding.length → (site'.known.resident link).isSome) fun _ _ => False := by
    refine Law.Carries.forM_always (fun link hlink held' hsub => ?_) ?_
    · obtain ⟨hheld, hdigest⟩ := hwanted link hlink
      exact carries_acquireLink hkeyed hentry (hsub hheld) hdigest
    · intro link held₁ site₁ held₂ site₂ hle hdone hlarge
      obtain ⟨cell, hcell⟩ := Option.isSome_iff_exists.1 (hdone hlarge)
      exact Option.isSome_iff_exists.2 ⟨cell, hle.1.resident hcell⟩
  obtain ⟨held', hsub, hinv', -, hend⟩ := hcarries site hinv (.refl key site)
  rcases hrun : (acquire key links).run.run site with ⟨fault | _, site'⟩ <;>
    rw [hrun] at hinv' hend
  · cases hend
  · exact ⟨held', site', hsub, hinv', rfl, hend.1, fun hlarge link hlink hdigest =>
      hend.2 link (List.mem_filter.2 ⟨hlink, decide_eq_true hdigest⟩) hlarge⟩

/-! ### Fetching what is missing -/

namespace Query

variable {query : Query} {held : Set Link} {site : Site} {key : Digest}
  {resident resident' : Link → Option Cell} {encoding : Bytes} {status : Status}

/-- What is in sight is one of the own links, or a link of a cell that one of these holds. -/
theorem of_mem_inSight {link : Link} (h : link ∈ query.inSight resident) :
    link ∈ query.links ∨
      ∃ own ∈ query.links, ∃ cell, resident own = some cell ∧ link ∈ cell.links := by
  cases query with
  | ofMap cell question => exact .inl h
  | ofRecord record question =>
    rcases List.mem_append.1 h with h | h
    · exact .inl h
    obtain ⟨own, hown, h⟩ := List.mem_flatMap.1 h
    obtain ⟨cell, hcell, h⟩ := List.mem_flatMap.1 h
    exact .inr ⟨own, hown, cell, Option.mem_toList.1 hcell, h⟩

/-- As long as the own links hold the same, the same is in sight. -/
theorem inSight_congr (h : ∀ own ∈ query.links, resident' own = resident own) :
    query.inSight resident' = query.inSight resident := by
  cases query with
  | ofMap => rfl
  | ofRecord record question =>
    have hbelow : ∀ own ∈ record.links,
        (resident' own).toList.flatMap Cell.links = (resident own).toList.flatMap Cell.links :=
      fun own hown => by rw [h own hown]
    exact congrArg (record.links ++ ·) (List.flatMap_congr hbelow)

/-- All that is in sight is in use. -/
theorem mem_of_inSight (hcoherent : Coherent (·.value.Sound) held site.known)
    (hlinks : ∀ link ∈ query.links, link ∈ held) :
    ∀ link ∈ query.inSight site.known.resident, link ∈ held := by
  intro link hlink
  rcases of_mem_inSight hlink with hlink | ⟨own, hown, cell, hcell, hlink⟩
  · exact hlinks link hlink
  · exact (hcoherent.resident (hlinks own hown) hcell).links link (Cell.mem_everyLink_of_mem hlink)

theorem inv_asked (query : Query) (h : readingLaw.inv held site) :
    readingLaw.inv held (query.asked site) := by
  have hidles := query.idles_asked site
  have hnext : Coherent (·.value.Sound) (held ∪ ∅) { site.known with next := _ } :=
    h.1.extend ∅ hidles.next nofun nofun nofun
  rw [Set.union_empty] at hnext
  exact ⟨hnext.notes hidles.notes, h.2⟩

theorem acquired_asked (query : Query) (key : Digest) (site : Site) :
    site.Acquired key (query.asked site) :=
  (Site.Acquired.refl key site).note (query.idles_asked site).next (query.idles_asked site).notes

/--
If there is an entry for the digest, the references to it can be resolved. If the cell of the entry
is large, all those that are in sight then hold it.
-/
theorem exists_fetch (site : Site) (hkeyed : site.store.Keyed) (hinv : readingLaw.inv held site)
    (hlinks : ∀ link ∈ query.links, link ∈ held)
    (hentry : site.store.find? key = some (encoding, status)) :
    ∃ held' site', held ⊆ held' ∧ readingLaw.inv held' site' ∧
      (query.fetch key).run.run site = (.ok (), site') ∧ site.Acquired key site' ∧
      (maxEmbedded < encoding.length → ∀ link ∈ query.inSight site'.known.resident,
        link.digest = key → (site'.known.resident link).isSome) := by
  obtain ⟨held₁, site₁, hsub₁, hinv₁, hrun₁, hacquired₁, hown⟩ :=
    exists_acquire hkeyed hinv hentry hlinks
  have hlinks₁ : ∀ link ∈ query.links, link ∈ held₁ := fun link hlink => hsub₁ (hlinks link hlink)
  obtain ⟨held₂, site₂, hsub₂, hinv₂, hrun₂, hacquired₂, hsight⟩ :=
    exists_acquire (hacquired₁.store ▸ hkeyed) hinv₁ (hacquired₁.store ▸ hentry)
      (mem_of_inSight hinv₁.1 hlinks₁)
  refine ⟨held₂, site₂, hsub₁.trans hsub₂, hinv₂, ?_, hacquired₁.trans hacquired₂,
    fun hlarge => ?_⟩
  · rw [fetch, run_run_bind, hrun₁]
    dsimp only
    rw [run_run_bind, run_run_getThe]
    exact hrun₂
  · -- The own links of the digest hold its cell already, so no more comes into sight.
    have hsame : ∀ own ∈ query.links, site₂.known.resident own = site₁.known.resident own := by
      intro own hmem
      by_cases hdigest : own.digest = key
      · obtain ⟨cell, hcell⟩ := Option.isSome_iff_exists.1 (hown hlarge own hmem hdigest)
        rw [hcell, hacquired₂.grows.resident hcell]
      · exact hacquired₂.resident_eq hinv₂.1 (hsub₂ (hlinks₁ own hmem)) hdigest
    rw [inSight_congr hsame]
    exact hsight hlarge

/--
The digest that was reported as missing is reported again after the references to it have been
resolved just if its cell is small.
-/
theorem missing_fetched (hkeyed : site.store.Keyed) (hinv : readingLaw.inv held site)
    (hlinks : ∀ link ∈ query.links, link ∈ held) (hmissing : query.missing site.known = some key)
    (hentry : site.store.find? key = some (encoding, status)) :
    ∃ site', (query.fetch key).run.run (query.asked site) = (.ok (), site') ∧
      (query.missing site'.known = some key ↔ encoding.length ≤ maxEmbedded) := by
  obtain ⟨held', site', -, hinv', hrun, hacquired, hsight⟩ :=
    exists_fetch (query.asked site) hkeyed (query.inv_asked hinv) hlinks hentry
  refine ⟨site', hrun, fun hagain => ?_, fun hsmall => ?_⟩
  · by_contra hlarge
    rw [missing_eq] at hagain
    obtain ⟨needed, hstop, hdigest⟩ := Option.map_eq_some_iff.1 hagain
    obtain ⟨hmem, hnone⟩ := stop_spec hstop
    have hheld := hsight (Nat.lt_of_not_le hlarge) needed hmem hdigest
    rw [hnone] at hheld
    cases hheld
  · have hsame := hacquired.resident_eq_of_small hkeyed hinv'.1 hentry hsmall
    rw [missing_eq, hsame, ← missing_eq, missing_asked, hmissing]

/-! ### Rounds come to an end -/

/-- How many of these links hold nothing. -/
def lacking (resident : Link → Option Cell) (links : List Link) : Nat :=
  links.countP fun link => (resident link).isNone

theorem lacking_le {links : List Link}
    (h : ∀ link ∈ links, resident' link = none → resident link = none) :
    lacking resident' links ≤ lacking resident links :=
  List.countP_mono_left fun link hlink hnone =>
    Option.isNone_iff_eq_none.2 (h link hlink (Option.isNone_iff_eq_none.1 hnone))

/-- Fewer links hold nothing if one more holds something. -/
theorem lacking_lt {links : List Link}
    (h : ∀ link ∈ links, resident' link = none → resident link = none) {needed : Link}
    (hneeded : needed ∈ links) (hnone : resident needed = none)
    (hsome : (resident' needed).isSome) : lacking resident' links < lacking resident links := by
  obtain ⟨before, after, rfl⟩ := List.append_of_mem hneeded
  have hbefore : lacking resident' before ≤ lacking resident before :=
    lacking_le fun link hlink => h link (List.mem_append_left _ hlink)
  have hafter : lacking resident' after ≤ lacking resident after :=
    lacking_le fun link hlink => h link (List.mem_append_right _ (List.mem_cons_of_mem _ hlink))
  have hsome' : resident' needed ≠ none := Option.ne_none_iff_isSome.2 hsome
  simp only [lacking, List.countP_append, List.countP_cons] at hbefore hafter ⊢
  simp only [Option.isNone_iff_eq_none, hnone, hsome', if_true, if_false]
  omega

end Query

/-- A link holds a cell, or there is an entry for it with a cell that is too large to be inline. -/
def Site.Supplies (site : Site) (link : Link) : Prop :=
  (site.known.resident link).isSome ∨
    ∃ encoding status, site.store.find? link.digest = some (encoding, status) ∧
      maxEmbedded < encoding.length

/-- This is so of the links of a map or a record, and of those of the cells that they lead to. -/
def Site.SuppliesAll (site : Site) (query : Query) : Prop :=
  ∀ link ∈ query.links, site.Supplies link ∧
    ∀ cell, site.Target link cell → ∀ below ∈ cell.links, site.Supplies below

namespace Query

variable {query : Query} {held : Set Link} {start site : Site} {key : Digest}

/-- The link at which a question stops has an entry, with a large cell. -/
theorem entry_of_stop (hsupplies : start.SuppliesAll query) (hlooked : start.LookedUp site)
    (hcoherent : Coherent (·.value.Sound) held site.known)
    (hlinks : ∀ link ∈ query.links, link ∈ held) {needed : Link}
    (hstop : query.stop site.known.resident = some needed) :
    ∃ encoding status, site.store.find? needed.digest = some (encoding, status) ∧
      maxEmbedded < encoding.length := by
  obtain ⟨hmem, hnone⟩ := stop_spec hstop
  have hneeded : start.Supplies needed := by
    rcases of_mem_inSight hmem with hown | ⟨own, hown, cell, hcell, hbelow⟩
    · exact (hsupplies needed hown).1
    · have hdigest := hcoherent.digest own (hlinks own hown) cell hcell
      exact (hsupplies own hown).2 cell (hlooked.target_of_resident hcell hdigest) needed hbelow
  rcases hneeded with hheld | hentry
  · rw [hlooked.grows.resident_eq_none hnone] at hheld
    cases hheld
  · rwa [hlooked.store]

/-- A round that is needed lets fewer of the own links lack a cell, or fewer of those in sight. -/
theorem exists_round (hkeyed : start.store.Keyed) (hsupplies : start.SuppliesAll query)
    (hlooked : start.LookedUp site) (hinv : readingLaw.inv held site)
    (hlinks : ∀ link ∈ query.links, link ∈ held) (hmissing : query.missing site.known = some key) :
    ∃ held' site', held ⊆ held' ∧ readingLaw.inv held' site' ∧ start.LookedUp site' ∧
      (query.fetch key).run.run (query.asked site) = (.ok (), site') ∧
      (lacking site'.known.resident query.links < lacking site.known.resident query.links ∨
        lacking site'.known.resident query.links = lacking site.known.resident query.links ∧
          lacking site'.known.resident (query.inSight site'.known.resident) <
            lacking site.known.resident (query.inSight site.known.resident)) := by
  rw [missing_eq] at hmissing
  obtain ⟨needed, hstop, rfl⟩ := Option.map_eq_some_iff.1 hmissing
  obtain ⟨hmem, hnone⟩ := stop_spec hstop
  obtain ⟨encoding, status, hentry, hlarge⟩ := entry_of_stop hsupplies hlooked hinv.1 hlinks hstop
  have hkeyed' : site.store.Keyed := hlooked.store ▸ hkeyed
  obtain ⟨held', site', hsub, hinv', hrun, hacquired, hsight⟩ :=
    exists_fetch (query.asked site) hkeyed' (query.inv_asked hinv) hlinks hentry
  have hacquired' : site.Acquired needed.digest site' :=
    (query.acquired_asked _ site).trans hacquired
  have hgrows : ∀ link, site'.known.resident link = none → site.known.resident link = none :=
    fun link => hacquired'.grows.resident_eq_none
  refine ⟨held', site', hsub, hinv', hlooked.trans hacquired'.toLookedUp, hrun, ?_⟩
  by_cases hown : ∃ own ∈ query.links, site.known.resident own = none ∧
      (site'.known.resident own).isSome
  · obtain ⟨own, hmemOwn, hnoneOwn, hsomeOwn⟩ := hown
    exact .inl (lacking_lt (fun link _ => hgrows link) hmemOwn hnoneOwn hsomeOwn)
  · -- The own links hold what they held, so the same links are in sight.
    have hsame : ∀ own ∈ query.links, site'.known.resident own = site.known.resident own := by
      intro own hmemOwn
      cases hresident : site.known.resident own with
      | some cell => exact hacquired'.grows.resident hresident
      | none =>
        by_contra hne
        exact hown ⟨own, hmemOwn, hresident, Option.ne_none_iff_isSome.1 hne⟩
    have hinSight := inSight_congr hsame
    refine .inr ⟨?_, ?_⟩
    · refine le_antisymm (lacking_le fun link _ => hgrows link) (lacking_le fun own hmemOwn => ?_)
      rw [hsame own hmemOwn]
      exact id
    · have hsome := hsight hlarge needed (hinSight ▸ hmem) rfl
      rw [hinSight]
      exact lacking_lt (fun link _ => hgrows link) hmem hnone hsome

/-- If only large cells are referred to by digest and all of them have entries, rounds end. -/
theorem exists_recover (hkeyed : start.store.Keyed) (hsupplies : start.SuppliesAll query)
    (hlooked : start.LookedUp site) (hinv : readingLaw.inv held site)
    (hlinks : ∀ link ∈ query.links, link ∈ held) :
    ∃ rounds final, (query.recover rounds).run.run site = (ofAttempt query.ask).run.run final ∧
      start.LookedUp final ∧ query.missing final.known = none := by
  -- The induction is on how many of the own links lack a cell, and then on how many in sight do.
  generalize hmeasure : toLex (lacking site.known.resident query.links,
    lacking site.known.resident (query.inSight site.known.resident)) = measure
  induction measure using WellFoundedLT.induction generalizing held site with
  | ind measure ih =>
    subst hmeasure
    cases hmissing : query.missing site.known with
    | none => exact ⟨0, site, run_recover_of_none hmissing 0, hlooked, hmissing⟩
    | some key =>
      obtain ⟨held', site', hsub, hinv', hlooked', hrun, hless⟩ :=
        exists_round hkeyed hsupplies hlooked hinv hlinks hmissing
      obtain ⟨rounds, final, hrecover, hfinal, hnone⟩ :=
        ih _ (Prod.Lex.toLex_lt_toLex.2 hless) hlooked' hinv'
          (fun link hlink => hsub (hlinks link hlink)) rfl
      refine ⟨rounds + 1, final, ?_, hfinal, hnone⟩
      rw [run_recover_of_missing hmissing, run_run_bind, hrun]
      exact hrecover

end Query

namespace Chronicle

variable {ι : Type} [DecidableEq ι] {chronicle : Chronicle ι}

/--
What is missing can be fetched from any store that has an entry for it. After all references to the
digest have been resolved, it is reported again if its cell is small, and else it is not. If every
link of the map or the record holds its cell or has an entry with a large one, and so does every
link of the cells that these lead to, then an answer comes, or a fault that is not about a missing
cell, after finitely many rounds.
-/
theorem Reached.recovering (h : chronicle.Reached) (index : ι) {query : Query}
    (hlinks : ∀ link ∈ query.links, link ∈ chronicle.session.links) :
    (∀ key encoding status, query.missing chronicle.session.known = some key →
      (chronicle.session.stores index).find? key = some (encoding, status) →
      ∃ site', (query.fetch key).run.run (query.asked (chronicle.session.site index)) =
          (.ok (), site') ∧
        (query.missing site'.known = some key ↔ encoding.length ≤ maxEmbedded)) ∧
    ((chronicle.session.site index).SuppliesAll query →
      ∃ rounds final, (query.recover rounds).run.run (chronicle.session.site index) =
          (ofAttempt query.ask).run.run final ∧
        (chronicle.session.site index).LookedUp final ∧ query.missing final.known = none) := by
  have hinv := h.inv
  have hsite := hinv.usable.inv_site (fun _ => False) index
  exact ⟨fun key encoding status hmissing hentry =>
      Query.missing_fetched (hinv.keyed index) hsite hlinks hmissing hentry,
    fun hsupplies => Query.exists_recover (hinv.keyed index) hsupplies (.refl _) hsite hlinks⟩

/-! ### A small cell, and a large one -/

/-- Whether the entries of a store are rows of a table. -/
def isTable : Store → Bool
  | .table _ => true
  | .memory _ => false

/-- A table supplies what names nothing itself, if that is large. -/
theorem suppliesAll_of_isTable {site : Site} {query : Query} {key : Digest} {encoding : Bytes}
    {status : Status} (hkeyed : site.store.Keyed) (htable : isTable site.store)
    (hentry : site.store.find? key = some (encoding, status))
    (hlarge : maxEmbedded < encoding.length) (hnamed : encoding.named = [])
    (hlinks : ∀ link ∈ query.links, link.digest = key ∧ site.known.resident link = none) :
    site.SuppliesAll query := by
  obtain ⟨rows, hrows⟩ : ∃ rows, site.store = .table rows := by
    cases hstore : site.store with
    | table rows => exact ⟨rows, rfl⟩
    | memory =>
      rw [hstore] at htable
      cases htable
  intro link hlink
  obtain ⟨rfl, hnone⟩ := hlinks link hlink
  refine ⟨.inr ⟨encoding, status, hentry, hlarge⟩, fun cell htarget below hbelow => ?_⟩
  rcases htarget with hheld | ⟨-, hgives⟩
  · cases hnone.symm.trans hheld
  · -- What is read from the table names no digest, so its links lead to what is inline.
    have hanew := hgives.anew hrows
    obtain ⟨known, -, hread⟩ := hgives
    obtain ⟨status', hfind⟩ := hkeyed.of_read hread
    rw [hentry] at hfind
    cases hfind
    cases below with
    | direct => exact .inl rfl
    | soft label digest =>
      have hmem := hanew.named_soft hbelow
      rw [hnamed] at hmem
      cases hmem

/-- Ask this of the record in a cell. -/
def recordQuery (cell : Cell) (question : RecordQuestion) : Query :=
  match cell.value with
  | .peer record => .ofRecord record question
  | _ => .ofMap cell .size

theorem links_recordQuery (cell : Cell) (question : RecordQuestion) :
    (recordQuery cell question).links = cell.links := by
  unfold recordQuery Cell.links
  split
  · next record hvalue => rw [hvalue]; rfl
  · rfl

/-- A map whose only value is the integer 5, by digest. -/
def sparseBytes : Bytes :=
  Cell.encode (.mk 0 (.map
    [(.direct 1 (.mk 2 (.integer 1)), .soft 3 (Cell.digest (.mk 4 (.integer 5))))]))

/-- The record with distant metadata has been read; the integer is made, and the map read. -/
def remoteSession : Session Unit :=
  (readSession.perform (.cells (.integer 5))).perform (.cells (.decode sparseBytes))

/-- The integer that has been made. -/
def fiveCell : Cell := (cellAt remoteSession 4).getD metadataMap

/-- The map that has been read. -/
def sparseMap : Cell := (cellAt remoteSession 5).getD metadataMap

def storedMetadata : Chronicle Unit :=
  ({ session := remoteSession } : Chronicle Unit).call () (.put metadataCell .stored)
    [(metadataCell, .stored)]

/-- The metadata and the integer have been put into a table. -/
def remote : Chronicle Unit :=
  storedMetadata.call () (.put fiveCell .stored) [(fiveCell, .stored)]

/-- What are the pairs of the map? -/
def sparseQuery : Query := .ofMap sparseMap .pairs

/-- What are the metadata of the record? -/
def distantQuery : Query := recordQuery recordCell .metadata

/-- What there is after what is missing has been fetched. -/
def fetched (query : Query) (key : Digest) : Except StoreFault Unit × Site :=
  (query.fetch key).run.run (query.asked (remote.session.site ()))

set_option maxRecDepth 20000 in
theorem remote_fits :
    ((∀ cell ∈ (readSession.perform (.cells (.integer 5))).everyCell [()], cell.value.Fits) ∧
      (∀ cell ∈ remoteSession.everyCell [()], cell.value.Fits)) ∧
    (∀ cell ∈ storedMetadata.session.everyCell [()], cell.value.Fits) ∧
      ∀ cell ∈ remote.session.everyCell [()], cell.value.Fits := by
  decide +kernel

set_option maxRecDepth 20000 in
theorem remote_evaluated :
    ((cellAt remoteSession 4).isSome ∧ (cellAt remoteSession 5).isSome) ∧
    (sparseQuery.missing remote.session.known = some fiveCell.digest ∧
      (fetched sparseQuery fiveCell.digest).1.isOk ∧
      sparseQuery.missing (fetched sparseQuery fiveCell.digest).2.known = some fiveCell.digest) ∧
    distantQuery.missing remote.session.known = some metadataCell.digest ∧
      (remote.session.stores ()).find? metadataCell.digest = some (metadataCell.encode, .stored) ∧
      maxEmbedded < metadataCell.encode.length ∧ metadataCell.encode.named = [] ∧
      (∀ link ∈ distantQuery.links, link.digest = metadataCell.digest ∧
        remote.session.known.resident link = none) ∧
      isTable (remote.session.stores ()) := by
  decide +kernel

/-- What is in the items is still there after more requests. -/
theorem mem_remoteSession {item : Item} (h : item ∈ readSession.items) :
    item ∈ remoteSession.items :=
  Session.mem_items_perform (Session.mem_items_perform h _) _

theorem mem_fiveCell : .cell fiveCell ∈ remoteSession.items := by
  obtain ⟨⟨hfive, -⟩, -⟩ := remote_evaluated
  obtain ⟨cell, hfive⟩ := Option.isSome_iff_exists.1 hfive
  rw [fiveCell, hfive]
  exact mem_items_of_cellAt hfive

theorem mem_sparseMap : .cell sparseMap ∈ remoteSession.items := by
  obtain ⟨⟨-, hmap⟩, -⟩ := remote_evaluated
  obtain ⟨cell, hmap⟩ := Option.isSome_iff_exists.1 hmap
  rw [sparseMap, hmap]
  exact mem_items_of_cellAt hmap

set_option maxRecDepth 20000 in
theorem mem_remote {item : Item} (h : item ∈ remoteSession.items) : item ∈ remote.session.items :=
  List.mem_append_left _ (List.mem_append_left _ h)

set_option maxRecDepth 20000 in
theorem reached_remote : remote.Reached := by
  obtain ⟨⟨hfive, hmap⟩, hmetadata, hall⟩ := remote_fits
  have hfits := @Session.fits_of_everyCell Unit
  have hreached : Reached { session := remoteSession } :=
    (reached_readSession.cells (by nofun) (hfits Session.mem_unit hfive)).cells (by nofun)
      (hfits Session.mem_unit hmap)
  exact (hreached.put (mem_remoteSession mem_metadataCell) (hfits Session.mem_unit hmetadata)).put
    (List.mem_append_left _ mem_fiveCell) (hfits Session.mem_unit hall)

set_option maxRecDepth 20000 in
/-- The links of a cell that there is are in use. -/
theorem links_remote {cell : Cell} (h : .cell cell ∈ remoteSession.items) :
    ∀ link ∈ cell.links, link ∈ remote.session.links :=
  fun _ hlink => .inl ⟨.cell cell, mem_remote h, Cell.mem_everyLink_of_mem hlink⟩

/--
The integer that the map lacks is in the table, and all references to it can be resolved. Still it
is lacking when the map is asked for its pairs again.
-/
theorem sparseMap_unrecovered :
    remote.Reached ∧ (∀ link ∈ sparseQuery.links, link ∈ remote.session.links) ∧
      sparseQuery.missing remote.session.known = some fiveCell.digest ∧
      ∃ site', (sparseQuery.fetch fiveCell.digest).run.run
          (sparseQuery.asked (remote.session.site ())) = (.ok (), site') ∧
        sparseQuery.missing site'.known = some fiveCell.digest := by
  obtain ⟨-, ⟨hmissing, hfetched, hagain⟩, -⟩ := remote_evaluated
  refine ⟨reached_remote, links_remote mem_sparseMap, hmissing,
    (fetched sparseQuery fiveCell.digest).2, ?_, hagain⟩
  show fetched sparseQuery fiveCell.digest = _
  rcases hrun : fetched sparseQuery fiveCell.digest with ⟨fault | _, site'⟩ <;>
    rw [hrun] at hfetched
  cases hfetched

set_option maxRecDepth 20000 in
/-- The metadata of the record are missing, can be fetched, and are not missing then. -/
theorem distantRecord_recovered :
    distantQuery.missing remote.session.known = some metadataCell.digest ∧
      (∃ site', (distantQuery.fetch metadataCell.digest).run.run
          (distantQuery.asked (remote.session.site ())) = (.ok (), site') ∧
        distantQuery.missing site'.known ≠ some metadataCell.digest) ∧
      ∃ rounds final, (distantQuery.recover rounds).run.run (remote.session.site ()) =
          (ofAttempt distantQuery.ask).run.run final ∧
        (remote.session.site ()).LookedUp final ∧ distantQuery.missing final.known = none := by
  obtain ⟨-, -, hmissing, hentry, hlarge, hnamed, hheld, htable⟩ := remote_evaluated
  have hlinks : ∀ link ∈ distantQuery.links, link ∈ remote.session.links := by
    rw [distantQuery, links_recordQuery]
    exact links_remote (mem_remoteSession mem_recordCell)
  obtain ⟨hfetch, hrounds⟩ := reached_remote.recovering () hlinks
  obtain ⟨site', hrun, hagain⟩ := hfetch _ _ _ hmissing hentry
  exact ⟨hmissing, ⟨site', hrun, fun h => absurd (hagain.1 h) (Nat.not_le.2 hlarge)⟩,
    hrounds (suppliesAll_of_isTable (reached_remote.inv.keyed ()) htable hentry hlarge hnamed
      hheld)⟩

end Chronicle

end CellGraph
