import CellGraph.Proofs.Session.Chronicle
import CellGraph.Proofs.Walk.Invariant

/-!
# Graphs that arrive in a store

A graph whose links all hold their targets asks nothing of the store that it is written to. If
neither its links nor the entries of its large cells have the status yet, a walk succeeds. It writes
each of the large cells once, after those below it, and reports them in this order.

* `Cell.largeBelow`: the large cells below a cell, in the order in which a walk writes them;
* `Site.Awaits`, `Site.Takes`: a store that has yet to take some cells, and one that took them;
* `Link.run_walkDirect`, `Cell.run_encodeWalking`: walks of one link, and of all links of a cell;
* `StoreAction.run_make_of_awaits`: walks from a cell;
* `Site.Takes.exists_digests`, `Site.Takes.awaits`: what there is in a store that was empty;
* `StoreAction.exists_make_make`: two walks, the second one to a greater status.
-/

namespace CellGraph

open StoreAction

/-! ### The large cells of a graph -/

/-- The large cells below a cell, each after those below it, links being taken in order. -/
def Cell.largeBelow : Cell → List Cell :=
  Cell.fold (fun _ (value : Value (List Cell)) => value.links.flatten)
    (fun _ target below => below ++ if target.isSmall then [] else [target]) (fun _ _ => [])

/-- The large cells to which a link leads. -/
def Link.large : Link → List Cell
  | .direct _ target => target.largeBelow ++ if target.isSmall then [] else [target]
  | .soft _ _ => []

theorem Cell.largeBelow_mk (label : Label) (value : Value Link) :
    Cell.largeBelow (.mk label value) = value.links.flatMap Link.large := by
  have h : Link.fold (fun _ (value : Value (List Cell)) => value.links.flatten)
      (fun _ target below => below ++ if target.isSmall then [] else [target])
      (fun _ _ => []) = Link.large := by
    funext link
    cases link <;> simp [Link.large, Cell.largeBelow]
  rw [Cell.largeBelow, Cell.fold_mk, h, Value.links_mapLinks, List.flatMap]

/-- The large cells below a cell are among all that it holds. -/
theorem Cell.mem_everyCell_of_largeBelow {cell target : Cell} (h : target ∈ cell.largeBelow) :
    target ∈ cell.everyCell := by
  suffices hlink : ∃ link ∈ cell.everyLink, link.target? = some target by
    obtain ⟨link, hmem, ht⟩ := hlink
    exact Cell.mem_everyCell hmem ht
  induction cell using Cell.induct with
  | step label value ih =>
    rw [Cell.largeBelow_mk] at h
    obtain ⟨link, hlink, hlarge⟩ := List.mem_flatMap.1 h
    cases link with
    | soft => cases hlarge
    | direct label' below =>
      have hcell : Link.direct label' below ∈ (Cell.mk label value).links := hlink
      rcases List.mem_append.1 hlarge with hbelow | hself
      · obtain ⟨other, hother, ht⟩ := ih _ hlink below rfl hbelow
        exact ⟨other, Cell.mem_everyLink_of_target hcell rfl hother, ht⟩
      · split at hself
        · cases hself
        · rw [List.mem_singleton.1 hself]
          exact ⟨_, Cell.mem_everyLink_of_mem hcell, rfl⟩

/-! ### Stores that are written to -/

namespace Store

/-- What is written under other digests makes no difference to an entry. -/
theorem Legible.find?_after_of_ne {store : Store} (h : store.Legible)
    {writes : List (Cell × Status)} {key : Digest} (hne : ∀ write ∈ writes, write.1.digest ≠ key) :
    (store.after writes).find? key = store.find? key := by
  rw [h.find?_after]
  induction writes with
  | nil => rfl
  | cons write rest ih =>
    have hstep : Deposits.step key (store.find? key) write = store.find? key :=
      if_neg (hne write (List.mem_cons_self ..))
    rw [List.foldl_cons, hstep]
    exact ih fun other hother => hne other (List.mem_cons_of_mem _ hother)

end Store

/--
The store has yet to take these cells: they are different, and none of them has an entry with the
status. Nor do the links of these labels have it, which are different as well.
-/
structure Site.Awaits (site : Site) (goal : Status) (cells : List Cell) (labels : List Label) :
    Prop where
  legible : site.store.Legible
  status : ∀ label ∈ labels, site.known.statusAt label < goal
  entry : ∀ cell ∈ cells, ∀ encoding status,
    site.store.find? cell.digest = some (encoding, status) → status < goal
  labels : labels.Nodup
  digests : (cells.map Cell.digest).Nodup

/-- The store has taken these cells, in order, and the links of these labels have been raised. -/
structure Site.Takes (start : Site) (goal : Status) (cells : List Cell) (labels : List Label)
    (site : Site) : Prop where
  next : site.known.next = start.known.next
  status : ∀ label, site.known.statusAt label =
    if label ∈ labels then goal else start.known.statusAt label
  writes : start.Writes (cells.map fun cell => (cell, goal)) site
  novel : site.novel = start.novel ++ cells.map Cell.digest

namespace Site

variable {start middle site : Site} {goal : Status} {cells more : List Cell}
  {labels others : List Label}

theorem Awaits.of_sublist (h : site.Awaits goal cells labels) (hcells : more.Sublist cells)
    (hlabels : others.Sublist labels) : site.Awaits goal more others where
  legible := h.legible
  status label hlabel := h.status label (hlabels.subset hlabel)
  entry cell hcell := h.entry cell (hcells.subset hcell)
  labels := h.labels.sublist hlabels
  digests := h.digests.sublist (hcells.map _)

theorem Awaits.perm (h : site.Awaits goal cells labels) (hlabels : labels.Perm others) :
    site.Awaits goal cells others where
  legible := h.legible
  status label hlabel := h.status label (hlabels.mem_iff.2 hlabel)
  entry := h.entry
  labels := hlabels.nodup_iff.1 h.labels
  digests := h.digests

/-- One more link may be raised. -/
theorem Awaits.cons (h : site.Awaits goal cells labels) {label : Label} (hnot : label ∉ labels)
    (hlow : site.known.statusAt label < goal) : site.Awaits goal cells (label :: labels) where
  legible := h.legible
  status := List.forall_mem_cons.2 ⟨hlow, h.status⟩
  entry := h.entry
  labels := List.nodup_cons.2 ⟨hnot, h.labels⟩
  digests := h.digests

/-- What is noted of digests and encodings makes no difference. -/
theorem Awaits.notes {known : Knowledge} (h : site.Awaits goal cells labels)
    (hnotes : site.known.Notes known) : { site with known }.Awaits goal cells labels where
  legible := h.legible
  status label hlabel := by
    show known.statusAt label < goal
    rw [Knowledge.statusAt, hnotes.statuses]
    exact h.status label hlabel
  entry := h.entry
  labels := h.labels
  digests := h.digests

theorem Takes.of_notes {known : Knowledge} (hnotes : site.known.Notes known) :
    site.Takes goal [] [] { site with known } where
  next := hnotes.next
  status label := by
    show known.statusAt label = site.known.statusAt label
    rw [Knowledge.statusAt, Knowledge.statusAt, hnotes.statuses]
  writes := ⟨rfl, rfl⟩
  novel := (List.append_nil _).symm

theorem Takes.trans (h : start.Takes goal cells labels middle)
    (h' : middle.Takes goal more others site) :
    start.Takes goal (cells ++ more) (labels ++ others) site where
  next := h'.next.trans h.next
  status label := by
    rw [h'.status, h.status]
    by_cases hlabel : label ∈ labels <;> by_cases hother : label ∈ others <;> simp [hlabel, hother]
  writes := by
    rw [List.map_append]
    exact h.writes.trans h'.writes
  novel := by rw [h'.novel, h.novel, List.map_append, List.append_assoc]

theorem Takes.perm (h : start.Takes goal cells labels site) (hlabels : labels.Perm others) :
    start.Takes goal cells others site where
  next := h.next
  status label := by simp only [h.status, hlabels.mem_iff]
  writes := h.writes
  novel := h.novel

/-- Once the first of some cells have been taken, the store awaits the rest. -/
theorem Awaits.rest (h : start.Awaits goal (cells ++ more) (labels ++ others))
    (htakes : start.Takes goal cells labels site) : site.Awaits goal more others := by
  have hlabels := List.nodup_append.1 h.labels
  have hdigests : (cells.map Cell.digest ++ more.map Cell.digest).Nodup :=
    List.map_append ▸ h.digests
  have hcells := List.nodup_append.1 hdigests
  constructor
  · rw [htakes.writes.store]
    exact h.legible.after _
  · intro label hlabel
    have hnot : label ∉ labels := fun hmem => hlabels.2.2 label hmem label hlabel rfl
    rw [htakes.status, if_neg hnot]
    exact h.status label (List.mem_append_right _ hlabel)
  · intro cell hcell encoding status hentry
    rw [htakes.writes.store, h.legible.find?_after_of_ne] at hentry
    · exact h.entry cell (List.mem_append_right _ hcell) encoding status hentry
    · intro write hwrite heq
      obtain ⟨first, hfirst, rfl⟩ := List.mem_map.1 hwrite
      exact hcells.2.2 _ (List.mem_map_of_mem hfirst) _ (List.mem_map_of_mem hcell) heq
  · exact hlabels.2.1
  · exact hcells.2.1

end Site

/-! ### Walks -/

section

variable {start site : Site} {goal : Status} {link : Link} {target : Cell}

/-- A link whose status is too low is raised to the goal. -/
theorem Site.takes_advance (hlow : site.known.statusAt link.label < goal) :
    site.Takes goal [] [link.label] { site with known := site.known.advance link goal } where
  next := rfl
  status label := by
    show (site.known.advance link goal).statusAt label = _
    rw [Knowledge.statusAt_advance, Status.max_eq]
    by_cases heq : link.label = label
    · subst heq
      simp [max_eq_right hlow.le]
    · simp [heq, Ne.symm heq]
  writes := ⟨rfl, rfl⟩
  novel := (List.append_nil _).symm

/-- A cell that the store awaits is written and reported. -/
theorem Link.run_finish {alone : Bool} {own : List Cell}
    (hown : own = if alone then [target] else []) (hawaits : start.Awaits goal own [link.label]) :
    ∃ site, (link.finish goal target target.encode target.digest alone).run.run start =
      (.ok (), site) ∧ start.Takes goal own [link.label] site := by
  have hlow := hawaits.status _ (List.mem_singleton_self _)
  cases alone with
  | false =>
    subst hown
    exact ⟨_, rfl, Site.takes_advance hlow⟩
  | true =>
    subst hown
    let noted := (target.noteDigest.run start.known).2
    let store := start.store.put target goal
    let written : Site :=
      ⟨noted, store, start.novel ++ [target.digest], store :: start.journal⟩
    have hnotes : start.known.Notes noted := target.onlyNotes_noteDigest start.known
    have hprevious : ((start.store.find? target.digest).map Prod.snd).all (· < goal) = true := by
      cases hentry : start.store.find? target.digest with
      | none => rfl
      | some entry =>
        exact decide_eq_true
          (hawaits.entry target (List.mem_singleton_self _) entry.1 entry.2 hentry)
    have htakes : start.Takes goal [target] [] written := by
      refine ⟨hnotes.next, fun label => ?_, ⟨rfl, rfl⟩, rfl⟩
      show noted.statusAt label = start.known.statusAt label
      rw [Knowledge.statusAt, Knowledge.statusAt, hnotes.statuses]
    have hlow' : written.known.statusAt link.label < goal := by
      rw [htakes.status]
      exact hlow
    refine ⟨_, ?_, htakes.trans (Site.takes_advance hlow')⟩
    rw [Link.finish, if_pos rfl, run_run_bind, run_write hawaits.legible]
    dsimp only
    rw [hprevious]
    rfl

/-- What the store awaits has no entry whose status could be taken over. -/
theorem Site.Awaits.run_adopt {cells : List Cell} {labels : List Label}
    (h : site.Awaits goal cells labels) (hmem : target ∈ cells) :
    (adopt link target.digest goal).run.run site = (.ok false, site) := by
  rw [StoreAction.run_adopt h.legible]
  cases hentry : site.store.find? target.digest with
  | none => rfl
  | some entry => exact if_neg (not_le.2 (h.entry target hmem _ _ hentry))

section

variable {top : Bool} {children : StoreAction Unit} {below own : List Cell} {labels : List Label}
  (hown : own = if top || decide (maxEmbedded < target.encode.length) then [target] else [])
  (hchildren : ∀ site : Site, site.Awaits goal below labels →
    ∃ site', children.run.run site = (.ok (), site') ∧ site.Takes goal below labels site')

include hown hchildren

/-- What is below a target is walked, and the target is written after that. -/
theorem Link.run_walkTarget
    (hawaits : start.Awaits goal (below ++ own) (labels ++ [link.label])) :
    ∃ site, (link.walkTarget goal top target target.encode children).run.run start =
      (.ok (), site) ∧ start.Takes goal (below ++ own) (labels ++ [link.label]) site := by
  let noted : Site := { start with known := (target.noteWritten.run start.known).2 }
  have hnotes : start.known.Notes noted.known := target.onlyNotes_noteWritten start.known
  have hnoted : noted.Awaits goal (below ++ own) (labels ++ [link.label]) := hawaits.notes hnotes
  obtain ⟨middle, hrun, htakes⟩ := hchildren noted
    (hnoted.of_sublist (List.sublist_append_left ..) (List.sublist_append_left ..))
  obtain ⟨site, hfinish, htakes'⟩ := Link.run_finish hown (hnoted.rest htakes)
  refine ⟨site, ?_, (Site.Takes.of_notes hnotes).trans (htakes.trans htakes')⟩
  have hnote : (ofCalc target.noteWritten).run.run start = (.ok (), noted) := rfl
  rw [Link.walkTarget, run_run_bind, hnote]
  dsimp only
  cases halone : (top || decide (maxEmbedded < target.encode.length)) with
  | false =>
    rw [halone] at hfinish
    rw [if_neg Bool.false_ne_true, run_run_bind, run_run_pure]
    dsimp only
    rw [if_neg Bool.false_ne_true, run_run_bind, hrun]
    exact hfinish
  | true =>
    have hmem : target ∈ below ++ own := by
      rw [hown, halone]
      exact List.mem_append_right _ (List.mem_singleton_self _)
    rw [halone] at hfinish
    rw [if_pos rfl, run_run_bind, show Digest.of target.encode = target.digest from rfl,
      hnoted.run_adopt hmem]
    dsimp only
    rw [if_neg Bool.false_ne_true, run_run_bind, hrun]
    exact hfinish

/-- A link whose status is too low leads to its target. -/
theorem Link.run_walkDirect (hawaits : start.Awaits goal (below ++ own) (link.label :: labels)) :
    ∃ site, (link.walkDirect goal top target target.encode children).run.run start =
      (.ok (), site) ∧ start.Takes goal (below ++ own) (link.label :: labels) site := by
  let hashed : Site := { start with known := (target.noteDigest.run start.known).2 }
  have hnotes : start.known.Notes hashed.known := target.onlyNotes_noteDigest start.known
  have hlow : ¬goal ≤ start.known.status link :=
    not_le.2 (hawaits.status link.label (List.mem_cons_self ..))
  -- The link is raised last, after those below it.
  have hperm : (link.label :: labels).Perm (labels ++ [link.label]) :=
    (List.perm_append_singleton ..).symm
  obtain ⟨site, hrun, htakes⟩ :=
    Link.run_walkTarget hown hchildren ((hawaits.notes hnotes).perm hperm)
  refine ⟨site, ?_, ((Site.Takes.of_notes hnotes).trans htakes).perm hperm.symm⟩
  have hstatus : (linkStatus link).run.run start = (.ok (start.known.status link), start) := rfl
  have hhash : (ofCalc target.noteDigest).run.run start = (.ok (), hashed) := rfl
  rw [Link.walkDirect, run_run_bind, hstatus]
  dsimp only
  rw [if_neg hlow, run_run_bind, hhash]
  exact hrun

end

/-- All that a cell holds is taken, if the store awaits it. -/
theorem Cell.run_encodeWalking {follow : Cell → StoreAction Unit} {cell : Cell}
    (hdirect : ∀ link ∈ cell.everyLink, link.isDirect) {start : Site}
    (hawaits : start.Awaits goal cell.largeBelow (cell.everyLink.map Link.label)) :
    ∃ site, (cell.encodeWalking goal follow).2.run.run start = (.ok (), site) ∧
      start.Takes goal cell.largeBelow (cell.everyLink.map Link.label) site := by
  induction cell using Cell.induct generalizing start with
  | step label value ih =>
    rw [Cell.everyLink_mk] at hdirect
    rw [Cell.everyLink_mk, Cell.largeBelow_mk, List.map_flatMap] at hawaits ⊢
    rw [Cell.encodeWalking_snd]
    -- Link by link, from here on.
    generalize value.links = links at ih hdirect hawaits
    induction links generalizing start with
    | nil => exact ⟨start, rfl, .of_notes (.refl _)⟩
    | cons link rest ihrest =>
      rw [List.flatMap_cons, List.flatMap_cons] at hawaits ⊢
      have hfirst : start.Awaits goal link.large (link.everyLink.map Link.label) :=
        hawaits.of_sublist (List.sublist_append_left ..) (List.sublist_append_left ..)
      have hrun : ∃ site, (Link.walkBelow goal follow link).run.run start = (.ok (), site) ∧
          start.Takes goal link.large (link.everyLink.map Link.label) site := by
        have hself := hdirect link
          (List.mem_flatMap.2 ⟨link, List.mem_cons_self .., link.self_mem_everyLink⟩)
        cases link with
        | soft => cases hself
        | direct label target =>
          have hown : (if target.isSmall then [] else [target]) =
              if false || decide (maxEmbedded < target.encode.length) then [target] else [] := by
            by_cases hsmall : target.encode.length ≤ maxEmbedded
            · simp [target.isSmall_iff.2 hsmall, not_lt.2 hsmall]
            · simp [mt target.isSmall_iff.1 hsmall, not_le.1 hsmall]
          refine Link.run_walkDirect hown (fun site hsite => ?_) hfirst
          refine ih _ (List.mem_cons_self ..) target rfl (fun other hother => ?_) hsite
          exact hdirect other (List.mem_flatMap.2
            ⟨_, List.mem_cons_self .., Link.mem_everyLink.2 (.inr ⟨target, rfl, hother⟩)⟩)
      obtain ⟨middle, hwalk, htakes⟩ := hrun
      obtain ⟨site, hwalks, htakes'⟩ := ihrest
        (fun other hother => ih other (List.mem_cons_of_mem _ hother))
        (fun other hother => hdirect other (List.mem_append_right _ hother)) (hawaits.rest htakes)
      refine ⟨site, ?_, htakes.trans htakes'⟩
      show (Link.walkBelow goal follow link >>= fun _ =>
        rest.forM (Link.walkBelow goal follow)).run.run start = _
      rw [run_run_bind, hwalk]
      exact hwalks

/-- A walk from a cell whose graph the store awaits. -/
theorem StoreAction.run_make_of_awaits {cell : Cell}
    (hdirect : ∀ link ∈ cell.everyLink, link.isDirect)
    (hawaits : site.Awaits goal (cell.largeBelow ++ [cell])
      (site.known.next :: cell.everyLink.map Link.label)) :
    ∃ site', (make goal cell).run.run site = (.ok (.direct site.known.next cell), site') ∧
      { site with known := { site.known with next := site.known.next + 1 } }.Takes goal
        (cell.largeBelow ++ [cell]) (site.known.next :: cell.everyLink.map Link.label) site' := by
  let link : Link := .direct site.known.next cell
  let linked : Site := { site with known := { site.known with next := site.known.next + 1 } }
  have hlinked : linked.Awaits goal (cell.largeBelow ++ [cell])
      (link.label :: cell.everyLink.map Link.label) :=
    ⟨hawaits.legible, hawaits.status, hawaits.entry, hawaits.labels, hawaits.digests⟩
  have hdone : ∃ site',
      (link.walkDirect goal true cell cell.encode
        (cell.walkChildren goal (hopLimit linked))).run.run linked = (.ok (), site') ∧
      linked.Takes goal (cell.largeBelow ++ [cell]) (link.label :: cell.everyLink.map Link.label)
        site' :=
    Link.run_walkDirect rfl (fun _ hsite => Cell.run_encodeWalking hdirect hsite) hlinked
  obtain ⟨site', hwalk, htakes⟩ := hdone
  refine ⟨site', ?_, htakes⟩
  have hlink : (ofCalc cell.link).run.run site = (.ok link, linked) := rfl
  have hrun : (walk goal link).run.run linked = (.ok (), site') := by
    rw [walk, run_run_bind, run_run_getThe]
    exact hwalk
  rw [make, run_run_bind, hlink]
  dsimp only
  rw [run_run_bind, hrun]
  rfl

end

/-! ### A store that was empty -/

section

variable {start site : Site} {goal higher : Status} {cells : List Cell} {labels : List Label}
  {cell : Cell}

/-- What a store that was empty has is what it took, with the status of the walk. -/
theorem Site.Takes.exists_digests (h : start.Takes goal cells labels site)
    (hempty : start.store = .emptyMemory ∨ start.store = .emptyTable)
    (hnodup : (cells.map Cell.digest).Nodup) :
    ∃ digests, site.store.digests = .ok digests ∧ site.store.count = digests.length ∧
      digests.Perm (cells.map Cell.digest) ∧
      ∀ key ∈ digests, ∃ encoding, site.store.find? key = some (encoding, goal) := by
  have hlegible := (Store.sound_empty hempty).legible
  have hfiled : start.store.Filed [] := by rcases hempty with heq | heq <;> rw [heq] <;> rfl
  have hnone : ∀ key, start.store.find? key = none := by
    rcases hempty with heq | heq <;> rw [heq] <;> exact fun _ => rfl
  obtain ⟨digests, hall, hascending, hmem⟩ := hlegible.exists_filed_after hfiled .nil
    (cells.map fun cell => (cell, goal))
  rw [← h.writes.store] at hall
  have hwritten : ∀ key, key ∈ digests ↔ key ∈ cells.map Cell.digest := by
    intro key
    simp [hmem]
  refine ⟨digests, hall.digests_eq, hall.count_eq, ?_, fun key hkey => ?_⟩
  · exact (List.perm_ext_iff_of_nodup
      (hascending.imp fun hlt heq => absurd (heq ▸ hlt) (List.lt_irrefl _)) hnodup).2 hwritten
  · rw [h.writes.store, hlegible.find?_after, hnone]
    obtain ⟨-, hother⟩ | ⟨first, status, -, hgreatest, hsome⟩ :=
      Deposits.entry_spec (cells.map fun cell => (cell, goal)) key
    · obtain ⟨cell, hcell, hdigest⟩ := List.mem_map.1 ((hwritten key).1 hkey)
      exact absurd hdigest (hother _ (List.mem_map_of_mem hcell))
    · -- Nothing was written with any other status than the goal.
      obtain ⟨_, hwrite, -⟩ := hgreatest.1
      obtain ⟨_, -, heq⟩ := List.mem_map.1 hwrite
      cases heq
      exact ⟨first.encode, hsome⟩

/-- What a store that was empty has taken, it awaits for a greater status. -/
theorem Site.Takes.awaits (h : start.Takes goal cells labels site)
    (hempty : start.store = .emptyMemory ∨ start.store = .emptyTable) (hlabels : labels.Nodup)
    (hnodup : (cells.map Cell.digest).Nodup) (hlt : goal < higher) :
    Site.Awaits ⟨site.known, site.store, [], []⟩ higher cells labels where
  legible := by
    show site.store.Legible
    rw [h.writes.store]
    exact (Store.sound_empty hempty).legible.after _
  status label hlabel := by
    show site.known.statusAt label < higher
    rw [h.status, if_pos hlabel]
    exact hlt
  entry cell hcell encoding status hentry := by
    obtain ⟨digests, -, -, hperm, hfind⟩ := h.exists_digests hempty hnodup
    obtain ⟨_, hgoal⟩ := hfind cell.digest (hperm.mem_iff.2 (List.mem_map_of_mem hcell))
    cases hentry.symm.trans hgoal
    exact hlt
  labels := hlabels
  digests := hnodup

/--
A graph that is new is brought into an empty store, and then to a greater status. After the first
walk the store has its large cells with the status of that walk, and nothing else. The second one
reports them all, each after those below it.
-/
theorem StoreAction.exists_make_make {known : Knowledge} {store : Store}
    (hempty : store = .emptyMemory ∨ store = .emptyTable)
    (hdirect : ∀ link ∈ cell.everyLink, link.isDirect)
    (hlabels : (cell.everyLink.map Link.label).Nodup)
    (hnew : ∀ link ∈ cell.everyLink, link.label < known.next ∧
      known.statusAt link.label = .unknown)
    (hunused : ∀ label, known.next ≤ label → known.statusAt label = .unknown)
    (hnodup : ((cell.largeBelow ++ [cell]).map Cell.digest).Nodup) (hgoal : .unknown < goal)
    (hlt : goal < higher) :
    ∃ link site, (make goal cell).run.run ⟨known, store, [], []⟩ = (.ok link, site) ∧
      (∃ digests, site.store.digests = .ok digests ∧ site.store.count = digests.length ∧
        digests.Perm ((cell.largeBelow ++ [cell]).map Cell.digest) ∧
        ∀ key ∈ digests, site.store.status? key = .ok (some goal)) ∧
      ∃ link' site', (make higher cell).run.run ⟨site.known, site.store, [], []⟩ =
        (.ok link', site') ∧ site'.novel = (cell.largeBelow ++ [cell]).map Cell.digest := by
  have hnot : ∀ label, known.next ≤ label → label ∉ cell.everyLink.map Link.label := by
    intro label hle hmem
    obtain ⟨link, hlink, rfl⟩ := List.mem_map.1 hmem
    exact absurd (hnew link hlink).1 (Nat.not_lt.2 hle)
  have hbelow : Site.Awaits ⟨known, store, [], []⟩ goal (cell.largeBelow ++ [cell])
      (cell.everyLink.map Link.label) := by
    refine ⟨(Store.sound_empty hempty).legible, fun label hlabel => ?_, ?_, hlabels, hnodup⟩
    · obtain ⟨link, hlink, rfl⟩ := List.mem_map.1 hlabel
      show known.statusAt link.label < goal
      rw [(hnew link hlink).2]
      exact hgoal
    · intro cell _ encoding status hentry
      rcases hempty with rfl | rfl <;> cases hentry
  have hlow : known.statusAt known.next < goal := by
    rw [hunused _ le_rfl]
    exact hgoal
  obtain ⟨site, hmake, htakes⟩ := run_make_of_awaits hdirect (hbelow.cons (hnot _ le_rfl) hlow)
  obtain ⟨digests, hdigests, hcount, hperm, hfind⟩ := htakes.exists_digests hempty hnodup
  have hsecond := htakes.awaits hempty (hbelow.cons (hnot _ le_rfl) hlow).labels hnodup hlt
  refine ⟨_, site, hmake, ⟨digests, hdigests, hcount, hperm, fun key hkey => ?_⟩, ?_⟩
  · obtain ⟨encoding, hentry⟩ := hfind key hkey
    have hlegible : site.store.Legible := hsecond.legible
    rw [hlegible.status?_eq, hentry]
    rfl
  · -- The links below have the first status, and that to the top is a new one.
    have hnext : known.next < site.known.next := htakes.next ▸ Nat.lt_succ_self _
    have hnew' : site.known.next ∉ known.next :: cell.everyLink.map Link.label :=
      List.not_mem_cons_of_ne_of_not_mem (Nat.ne_of_gt hnext) (hnot _ hnext.le)
    have hlow' : site.known.statusAt site.known.next < higher := by
      rw [htakes.status, if_neg hnew']
      show known.statusAt site.known.next < higher
      rw [hunused _ hnext.le]
      exact hgoal.trans hlt
    have hawaits := hsecond.of_sublist (.refl _) (List.sublist_cons_self ..)
    obtain ⟨site', hmake', htakes'⟩ :=
      run_make_of_awaits hdirect (hawaits.cons (hnot _ hnext.le) hlow')
    exact ⟨_, site', hmake', htakes'.novel⟩

end

end CellGraph
