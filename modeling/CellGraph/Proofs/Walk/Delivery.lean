import CellGraph.Proofs.Walk.Closure

/-!
# What a walk delivers

A walk that comes to its end has brought its link to the goal. It has brought the entry of the link's
target there as well, unless the link had the status before: then it does nothing, and there may be
no entry. The status may have been given to the link by an earlier walk that met it below another
cell, and that leaves out the entry of a small target.

* `StoreAction.run_walk_of_reached`: a walk from a link that has the status;
* `Session.Inv.hasAt_or_excused`: what the status of a link says of the entry of its target;
* `Session.Reached.delivering`: what a walk that succeeds delivers.
-/

namespace CellGraph

/-- A walk from a link that has the status already does nothing. -/
theorem StoreAction.run_walk_of_reached {goal : Status} {link : Link} {site : Site}
    (h : goal ≤ site.known.statusAt link.label) :
    (StoreAction.walk goal link).run.run site = (.ok (), site) := by
  have hunless : ∀ visit : StoreAction Unit,
      (do unless goal ≤ (← StoreAction.linkStatus link) do visit).run.run site = (.ok (), site) := by
    intro visit
    have hstatus : (StoreAction.linkStatus link).run.run site =
        (.ok (site.known.statusAt link.label), site) := rfl
    rw [run_run_bind, hstatus]
    dsimp only
    rw [if_pos h]
    rfl
  rw [StoreAction.walk, run_run_bind, run_run_getThe]
  dsimp only
  cases link with
  | direct label target =>
    rw [StoreAction.walkWithin, Link.walkDirect]
    exact hunless _
  | soft label digest =>
    rw [StoreAction.walkWithin, Link.walkSoft]
    exact hunless _

namespace Session

variable {ι : Type} {session : Session ι}

/-- A store that has brought a link to a status has the target with it, or excuses the link. -/
theorem Inv.hasAt_or_excused (h : session.Inv) {index : ι} {link : Link}
    (hlink : link ∈ session.links) {status : Status} (hstored : .stored ≤ status)
    (hle : status ≤ session.raised index link.label) :
    (session.stores index).HasAt link.digest status ∨ (session.stores index).Excuses link :=
  (h.vouched index link hlink (hstored.trans hle)).mono (.refl _) hle

variable [DecidableEq ι]

/--
In the only store, a walk that succeeds has brought its link to the goal, and the entry of its target
as well. There is one exception: the link had the status before, so that the walk did nothing, and
the target is small. A small target that the link holds may have no entry, and one that a soft link
leads to may have an entry with a lower status.
-/
theorem Reached.delivering [Subsingleton ι] (h : session.Reached) {index : ι} {goal : Goal}
    {link : Link} (hlink : .link link ∈ session.items) {after : Site}
    (hrun : (StoreAction.walk goal link).run.run (session.site index) = (.ok (), after)) :
    goal ≤ after.known.statusAt link.label ∧
      (after.store.HasAt link.digest goal ∨
        (goal ≤ session.known.statusAt link.label ∧ after = session.site index ∧
          after.store.Excuses link)) := by
  have hheld : link ∈ session.links := h.inv.items _ hlink
  by_cases hbefore : goal ≤ session.known.statusAt link.label
  · obtain rfl : session.site index = after :=
      congrArg Prod.snd ((StoreAction.run_walk_of_reached hbefore).symm.trans hrun)
    refine ⟨hbefore, ?_⟩
    -- The status has come from the only store that there is.
    obtain ⟨other, hraised⟩ := h.inv.raised_by link.label (goal.2.trans hbefore)
    obtain rfl := Subsingleton.elim other index
    exact (h.inv.hasAt_or_excused hheld goal.2 (hraised.symm ▸ hbefore)).imp_right
      fun hexcuses => ⟨hbefore, rfl, hexcuses⟩
  · have hencoding : ∀ t, link.target? = some t → t.encode ∈ session.encodings :=
      fun t ht => .inl ⟨t, .inr (.inl ⟨link, hheld, ht⟩), rfl⟩
    obtain ⟨held, -, -, -, hdelivered⟩ := Origin.delivers_walk goal.2 hheld hencoding
      (session.known.statusAt link.label) (session.site index) (h.inv.atOrigin index) rfl
    rw [hrun] at hdelivered
    obtain ⟨hstatus, hentry⟩ := hdelivered () rfl
    exact ⟨hstatus, .inl (hentry (not_le.1 hbefore))⟩

/-! ### A walk that stopped below a cell -/

/-- A link to the integer. -/
def integerLink : Link := .direct 1 smallInteger

/-- A soft link to another integer. -/
def absentLink : Link := .soft 2 (Cell.mk 0 (.integer 7)).digest

/-- A vector of both links. -/
def brokenVector : Cell := .mk 3 (.vector [integerLink, absentLink])

/--
What the user of a memory store asks for: the vector is made, and cannot be persisted, since the
store does not have the other integer.
-/
def brokenRequests : List (Request Unit) :=
  [.cells (.integer 5), .cells (.link smallInteger), .cells (.soft absentLink.digest),
    .cells (.vectorOf [integerLink, absentLink]),
    .store () (.make toPersisted brokenVector)]

/-- The walk of the vector has met the link to the integer before it failed. -/
def halfWalked : Session Unit := brokenRequests.foldl perform { stores := fun _ => .emptyMemory }

set_option maxRecDepth 20000 in
theorem reached_halfWalked : halfWalked.Reached :=
  (Reached.start (fun _ => .emptyMemory) fun _ => .inl rfl).requests mem_unit brokenRequests
    (by decide +kernel)
    ⟨nofun, mem_items_of_places [0] rfl, nofun, mem_items_of_places [1, 2] rfl,
      mem_items_of_places [3] rfl, trivial⟩

set_option maxRecDepth 20000 in
/-- A walk from the link to the integer succeeds and writes nothing; the integer has no entry. -/
theorem integer_undelivered :
    .link integerLink ∈ halfWalked.items ∧
      (StoreAction.walk .persisted integerLink).run.run (halfWalked.site ()) =
        (.ok (), halfWalked.site ()) ∧
      (halfWalked.stores ()).find? integerLink.digest = none ∧
      .persisted ≤ (halfWalked.site ()).known.statusAt integerLink.label ∧
      (halfWalked.stores ()).Excuses integerLink := by
  have hitem : halfWalked.items[1]? = some (.link integerLink) := rfl
  have hlink := List.mem_of_getElem? hitem
  have hbefore : .persisted ≤ halfWalked.known.statusAt integerLink.label := by decide +kernel
  have hrun : (StoreAction.walk toPersisted.val integerLink).run.run (halfWalked.site ()) =
      (.ok (), halfWalked.site ()) :=
    StoreAction.run_walk_of_reached hbefore
  have hnone : (halfWalked.stores ()).find? integerLink.digest = none := by decide +kernel
  have hmissing : ¬(halfWalked.stores ()).HasAt integerLink.digest .persisted := by
    rintro ⟨encoding, held, hentry, -⟩
    rw [hnone] at hentry
    cases hentry
  obtain ⟨hstatus, hdelivered⟩ := reached_halfWalked.delivering hlink hrun
  exact ⟨hlink, hrun, hnone, hstatus, (hdelivered.resolve_left hmissing).2.2⟩

end Session

end CellGraph
