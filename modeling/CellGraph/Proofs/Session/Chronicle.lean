import CellGraph.Proofs.Cell.Equality
import CellGraph.Proofs.Store.DepositLaw

/-!
# Stores and all that has been written to them

Cells may be put into a store one by one as well, with any status and without what is below them,
and lookups may follow a policy. However such calls and walks on several stores follow one another,
a store holds what has been written to it: under each digest the cell that was first written, with
the greatest of the statuses with which it was.

* `StoreCall`, `StoreCall.run`: the calls to a store;
* `Chronicle`, `Chronicle.Step`, `Chronicle.Reached`: sessions in which all writes are noted;
* `Chronicle.Reached.inv`: what holds of every chronicle;
* `Chronicle.Reached.faithful`: what is to be had from a store.
-/

namespace CellGraph

open StoreAction

/-! ### Calls -/

/-- A call to one store, as everybody who has the store can make it. -/
inductive StoreCall
  /-- Bring a cell and everything below it up to a status. -/
  | make (goal : Status) (cell : Cell)
  /-- Bring the graph below a link up to a status. -/
  | walk (goal : Status) (link : Link)
  /-- Put a cell with a status, whatever there is of the cells below it. -/
  | put (cell : Cell) (status : Status)
  | get (key : Digest)
  | lookup (key : Digest)
  /-- Look up a cell under a policy. -/
  | find (settings : Settings) (key : Digest)
  | resolve (link : Link)
  /-- Check that every cell below a cell can be had. -/
  | check (cell : Cell)
  /-- Raise the status of a link, whatever there is in the store. -/
  | advance (link : Link) (status : Status)

namespace StoreCall

/-- What the user must have for a call. -/
def arguments : StoreCall → List Item
  | make _ cell | put cell _ | check cell => [.cell cell]
  | walk _ link | resolve link | advance link _ => [.link link]
  | get _ | lookup _ | find _ _ => []

/-- What a call does, and what the user gets from it. -/
def run : StoreCall → StoreAction (List Item)
  | make goal cell => return [.link (← StoreAction.make goal cell)]
  | walk goal link => do
    StoreAction.walk goal link
    return []
  | put cell status => do
    let _ ← StoreAction.put cell status
    return []
  | get key => return (← StoreAction.get key).toList.map .cell
  | lookup key => return (← StoreAction.lookup key).toList.map .cell
  | find settings key => return (← settings.lookup key).toList.map .cell
  | resolve link => return [.cell (← StoreAction.resolve link)]
  | check cell => do
    let _ ← checkComplete cell
    return []
  | advance link status => do
    StoreAction.advance link status
    return []

/-- The statuses with which a call may write: the goal of a walk, or the status of what is put. -/
def MayWrite : StoreCall → Status → Prop
  | make goal _, status | walk goal _, status => status = goal
  | put _ given, status => status = given
  | _, _ => False

/-- These may be the writes of a call. -/
structure Explains (call : StoreCall) (writes : List (Cell × Status)) : Prop where
  sound : ∀ write ∈ writes, write.1.Sound ∧ call.MayWrite write.2
  put : ∀ cell status, call = .put cell status → writes = [(cell, status)]

end StoreCall

namespace Deposits

variable {held : Set Link}

/-- A usable cell is valid. -/
theorem within_of_usable {cell : Cell} (h : cell.Usable held) : cell.Within Cell.Valid held :=
  ⟨h.good.valid, h.links⟩

/-- A call gives valid items, and writes with the statuses that it may write. -/
theorem keeps_call {call : StoreCall}
    (hcell : ∀ cell, .cell cell ∈ call.arguments → cell.Usable held)
    (hlink : ∀ link, .link link ∈ call.arguments → link ∈ held) :
    (law call.MayWrite).Keeps held (fun _ => True) call.run
      fun items held' _ => ∀ item ∈ items, item.Within held' := by
  have hsingle : ∀ item : Item, item ∈ [item] := fun item => List.mem_singleton_self item
  have hnone : ∀ {held : Set Link} {call : StoreCall}, (law call.MayWrite).Keeps held
      (fun _ => True) (pure [] : StoreAction (List Item))
      fun items held' _ => ∀ item ∈ items, item.Within held' :=
    .pure fun _ _ _ _ => nofun
  have hfound : ∀ {call : StoreCall} {action : StoreAction (Option Cell)},
      (law call.MayWrite).Keeps held (fun _ => True) action
        (fun found held' _ => ∀ cell ∈ found, cell.Usable held') →
      (law call.MayWrite).Keeps held (fun _ => True) (do return (← action).toList.map Item.cell)
        fun items held' _ => ∀ item ∈ items, item.Within held' :=
    .found (fun held cell => cell.Usable held) within_of_usable
  cases call with
  | make goal cell =>
    let craft := Deposits.craft (StoreCall.make goal cell).MayWrite
    refine (craft.keeps_make rfl (hcell cell (hsingle _))).bind fun link held' _ =>
      .pure fun _ _ h item hitem => ?_
    cases List.mem_singleton.1 hitem
    exact h
  | walk goal link =>
    let craft := Deposits.craft (StoreCall.walk goal link).MayWrite
    exact (craft.keeps_walk rfl (hlink link (hsingle _))).bind fun _ _ _ => hnone
  | put cell status =>
    let craft := Deposits.craft (StoreCall.put cell status).MayWrite
    exact (craft.keeps_write (hcell cell (hsingle _)) rfl).bind fun _ _ _ => hnone
  | get key => exact hfound ((craft _).keeps_get key)
  | lookup key => exact hfound ((craft _).keeps_lookup key)
  | find settings key => exact hfound ((craft _).keeps_find settings key)
  | resolve link =>
    refine ((craft _).keeps_resolve (hlink link (hsingle _))).bind fun cell held' _ =>
      .pure fun _ _ h item hitem => ?_
    cases List.mem_singleton.1 hitem
    exact within_of_usable h
  | check cell =>
    exact ((craft _).keeps_checkComplete (hcell cell (hsingle _))).bind fun _ _ _ => hnone
  | advance link status =>
    exact ((craft _).advance (hlink link (hsingle _)) status).bind fun _ _ _ => hnone

end Deposits

/-- Putting a cell is one write, and gives the status that the store had for its digest. -/
theorem StoreAction.run_put (cell : Cell) (status : Status) (site : Site) :
    (StoreAction.put cell status).run.run site =
      ((site.store.insert cell cell.encode cell.digest status).1,
        { known := (cell.noteDigest.run site.known).2
          store := site.store.put cell status
          novel := site.novel
          journal := site.store.put cell status :: site.journal }) := by
  have hnote : (ofCalc cell.noteDigest).run.run site =
      (.ok (), { site with known := (cell.noteDigest.run site.known).2 }) := rfl
  rw [StoreAction.put, write, run_run_bind, hnote]
  dsimp only
  rw [run_run_bind, run_run_getThe]
  dsimp only
  rw [show cell.digest = Digest.of cell.encode from rfl]
  cases (site.store.insert cell cell.encode (Digest.of cell.encode) status).1 <;> rfl

theorem Site.writes_put (site : Site) (cell : Cell) (status : Status) :
    site.Writes [(cell, status)] ((StoreAction.put cell status).run.run site).2 := by
  rw [run_put]
  exact ⟨rfl, rfl⟩

/-! ### Sessions and writes -/

namespace Session

variable {ι : Type} [DecidableEq ι]

/-- Make a call to a store. What it did before it failed stays done. -/
def call (session : Session ι) (index : ι) (call : StoreCall) : Session ι :=
  let (outcome, site) := call.run.run.run (session.site index)
  { session with
    known := site.known
    stores := Function.update session.stores index site.store
    items := session.items ++ outcome.toOption.getD [] }

omit [DecidableEq ι] in
/-- What is known fits the links of a session, and the cells that they lead to are sound. -/
theorem Usable.coherent_sound {session : Session ι} (h : session.Usable) :
    Coherent (·.value.Sound) session.links session.known := by
  refine h.coherent.restrict subset_rfl (fun link hlink other => everyLink_of_mem_links hlink)
    (fun link hlink t ht => h.value (.inr (.inl ⟨link, hlink, ht⟩))) fun label cell hcell => ?_
  exact ⟨h.value (.inr (.inr (.inl ⟨label, hcell⟩))), (h.coherent.kept label cell hcell).2.2.links⟩

omit [DecidableEq ι] in
/-- The cells of a session can be used in calls to its stores. -/
theorem Usable.usable {session : Session ι} (h : session.Usable) {cell : Cell}
    (hcell : cell ∈ session.cells) : cell.Usable session.links :=
  ⟨h.value hcell, (h.valid hcell).links⟩

omit [DecidableEq ι] in
/-- A call to a store starts in a state of the law. -/
theorem Usable.inv_site {session : Session ι} (h : session.Usable) (allowed : Status → Prop)
    (index : ι) : (Deposits.law allowed).inv session.links (session.site index) :=
  ⟨h.coherent_sound, fun _ hcell => h.usable (.inr (.inr (.inr ⟨index, hcell⟩)))⟩

/-- A call leaves everything valid. It has made some writes, and has let what is known grow. -/
theorem Usable.call {session : Session ι} (h : session.Usable) (index : ι) {call : StoreCall}
    (harguments : ∀ item ∈ call.arguments, item ∈ session.items) :
    (∃ writes, call.Explains writes ∧
      (session.site index).Writes writes (call.run.run.run (session.site index)).2) ∧
    session.known.Grows (session.call index call).known ∧
    ((session.call index call).Fits → (session.call index call).Usable) := by
  have hkeeps : (Deposits.law call.MayWrite).Keeps session.links (fun _ => True) call.run
      fun items held' _ => ∀ item ∈ items, item.Within held' :=
    Deposits.keeps_call (fun cell hcell => h.usable (.inl (harguments _ hcell)))
      fun link hlink => h.items _ (harguments _ hlink)
  obtain ⟨held, hsub, ⟨hcoherent, hremembers⟩, ⟨hgrows, writes, hwrites, hsound⟩, hpost⟩ :=
    hkeeps _ (h.inv_site _ index) trivial
  refine ⟨?_, hgrows, fun hfits => ?_⟩
  · by_cases hput : ∃ cell status, call = .put cell status
    · obtain ⟨cell, status, rfl⟩ := hput
      have hrun : ((StoreCall.put cell status).run.run.run (session.site index)).2 =
          ((StoreAction.put cell status).run.run (session.site index)).2 := by
        rw [StoreCall.run, run_run_bind]
        rcases (StoreAction.put cell status).run.run (session.site index) with ⟨_ | _, _⟩ <;> rfl
      refine ⟨[(cell, status)], ⟨fun write hwrite => ?_, ?_⟩, hrun ▸ Site.writes_put _ cell status⟩
      · cases List.mem_singleton.1 hwrite
        exact ⟨h.cell (.inl (harguments _ (List.mem_singleton_self _))), rfl⟩
      · rintro _ _ ⟨⟩
        rfl
    · exact ⟨writes, ⟨hsound, fun cell status heq => absurd ⟨cell, status, heq⟩ hput⟩, hwrites⟩
  · refine (usable_of_held (session.call index call) hcoherent (fun _ h => h.valid)
      (fun item hitem => ?_) (fun other cell hcell => ?_) hfits).2
    · rcases mem_items hitem with hitem | ⟨found, hfound, hitem⟩
      · exact (h.items item hitem).mono hsub
      · exact hpost found hfound item hitem
    · change (Function.update session.stores index _ other).Remembers cell at hcell
      by_cases heq : other = index
      · subst heq
        rw [Function.update_self] at hcell
        obtain ⟨hgood, hlinks⟩ := hremembers cell hcell
        exact ⟨hgood.valid, hlinks⟩
      · rw [Function.update_of_ne heq] at hcell
        exact (h.remembers other cell hcell).mono hsub

end Session

/-- A session, with all that has been written to each of its stores, in order. -/
structure Chronicle (ι : Type) where
  session : Session ι
  writes : ι → List (Cell × Status) := fun _ => []

namespace Chronicle

variable {ι : Type} [DecidableEq ι] {chronicle later : Chronicle ι}

/-- A call to a store, with the writes that it made. -/
def call (chronicle : Chronicle ι) (index : ι) (call : StoreCall) (writes : List (Cell × Status)) :
    Chronicle ι where
  session := chronicle.session.call index call
  writes := Function.update chronicle.writes index (chronicle.writes index ++ writes)

/-- These are the writes that a call would make, as the journal of the store has them. -/
structure Wrote (chronicle : Chronicle ι) (index : ι) (call : StoreCall)
    (writes : List (Cell × Status)) : Prop where
  explains : call.Explains writes
  made : (chronicle.session.site index).Writes writes
    (call.run.run.run (chronicle.session.site index)).2

/-- One request or call. -/
inductive Step (chronicle : Chronicle ι) : Chronicle ι → Prop
  | cells (operation : Operation)
    (arguments : ∀ item ∈ operation.arguments, item ∈ chronicle.session.items)
    (fits : (chronicle.session.perform (.cells operation)).Fits) :
    Step chronicle { chronicle with session := chronicle.session.perform (.cells operation) }
  | store (index : ι) (call : StoreCall) (writes : List (Cell × Status))
    (arguments : ∀ item ∈ call.arguments, item ∈ chronicle.session.items)
    (fits : (chronicle.session.call index call).Fits)
    (wrote : chronicle.Wrote index call writes) : Step chronicle (chronicle.call index call writes)

/-- The chronicles that can come about: at first no store has an entry, and the user has nothing. -/
def Reached (chronicle : Chronicle ι) : Prop :=
  ∃ stores : ι → Store, (∀ index, stores index = .emptyMemory ∨ stores index = .emptyTable) ∧
    Relation.ReflTransGen Step { session := { stores } } chronicle

/-- What holds of every chronicle: each store is what has been written to it. -/
structure Inv (chronicle : Chronicle ι) : Prop where
  usable : chronicle.session.Usable
  store : ∀ index, ∃ empty : Store, (empty = .emptyMemory ∨ empty = .emptyTable) ∧
    chronicle.session.stores index = empty.after (chronicle.writes index)
  sound : ∀ index, ∀ write ∈ chronicle.writes index, write.1.Sound

omit [DecidableEq ι] in
theorem inv_start {stores : ι → Store}
    (hempty : ∀ index, stores index = .emptyMemory ∨ stores index = .emptyTable) :
    Inv { session := { stores } } :=
  ⟨(Session.usable_start hempty).2, fun index => ⟨stores index, hempty index, rfl⟩, nofun⟩

/-- Each step keeps the invariant. -/
theorem Step.inv (hstep : chronicle.Step later) (h : chronicle.Inv) : later.Inv := by
  cases hstep with
  | cells operation arguments fits =>
    obtain ⟨-, -, -, husable⟩ := h.usable.performCells arguments fits
    exact ⟨husable, h.store, h.sound⟩
  | store index call writes arguments fits wrote =>
    refine ⟨(h.usable.call index arguments).2.2 fits, fun other => ?_, fun other write hwrite => ?_⟩
    · obtain ⟨empty, hempty, hstore⟩ := h.store other
      refine ⟨empty, hempty, ?_⟩
      show Function.update chronicle.session.stores index _ other =
        empty.after (Function.update chronicle.writes index _ other)
      by_cases heq : other = index
      · subst heq
        rw [Function.update_self, Function.update_self, Store.after_append, ← hstore]
        exact wrote.made.store
      · rw [Function.update_of_ne heq, Function.update_of_ne heq, hstore]
    · change write ∈ Function.update chronicle.writes index _ other at hwrite
      by_cases heq : other = index
      · subst heq
        rw [Function.update_self] at hwrite
        rcases List.mem_append.1 hwrite with hwrite | hwrite
        · exact h.sound other write hwrite
        · exact (wrote.explains.sound write hwrite).1
      · rw [Function.update_of_ne heq] at hwrite
        exact h.sound other write hwrite

/-- The invariant holds of every chronicle. -/
theorem Reached.inv (h : chronicle.Reached) : chronicle.Inv := by
  obtain ⟨stores, hempty, hsteps⟩ := h
  induction hsteps with
  | refl => exact inv_start hempty
  | tail _ hstep ih => exact hstep.inv ih

/-- Each step adds writes. -/
theorem Step.writes (hstep : chronicle.Step later) (index : ι) :
    ∃ more, later.writes index = chronicle.writes index ++ more := by
  cases hstep with
  | cells => exact ⟨[], (List.append_nil _).symm⟩
  | store other call writes =>
    show ∃ more, Function.update chronicle.writes other _ index = _
    by_cases heq : index = other
    · subst heq
      exact ⟨writes, Function.update_self ..⟩
    · exact ⟨[], by rw [Function.update_of_ne heq, List.append_nil]⟩

/-! ### What is to be had -/

end Chronicle

namespace Session

variable {ι : Type} {session : Session ι}

/-- What a store has and gives for a digest: this cell, which was written first, with a status. -/
structure Gives (session : Session ι) (index : ι) (key : Digest) (first : Cell) (status : Status) :
    Prop where
  digest_eq : key = Digest.of first.encode
  entry : (session.stores index).find? key = some (first.encode, status)
  status_eq : (session.stores index).status? key = .ok (some status)
  cell : ∃ cell, ((StoreAction.get key).run.run (session.site index)).1 = .ok (some cell) ∧
    ((lookup key).run.run (session.site index)).1 = .ok (some cell) ∧
    cell.encode = first.encode ∧ Calc.Agrees (cell.equal first)

/-- A store has nothing for a digest. -/
structure Lacks (session : Session ι) (index : ι) (key : Digest) : Prop where
  entry : (session.stores index).find? key = none
  status_eq : (session.stores index).status? key = .ok none
  get : ((StoreAction.get key).run.run (session.site index)).1 = .ok none
  lookup : ((lookup key).run.run (session.site index)).1 = .ok none

variable {index : ι} {key : Digest}

/-- What is read is sound. -/
theorem Usable.sound_of_read (h : session.Usable) {cell : Cell}
    (hread : (session.stores index).read key session.known = .ok (some cell)) : cell.Sound := by
  have hkeeps : (Deposits.law fun _ => False).Keeps session.links (fun _ => True)
      (StoreAction.get key) _ := (Deposits.craft _).keeps_get key
  obtain ⟨held, -, ⟨hcoherent, -⟩, -, hpost⟩ := hkeeps _ (h.inv_site _ index) trivial
  obtain ⟨next, noted, -, -, hget⟩ := StoreAction.run_get key (session.site index)
  exact Cell.sound_of_usable hcoherent (hpost _ (by rw [hget, ← hread]; rfl) cell rfl)

/-- An entry is given whenever it is asked for. -/
theorem Usable.gives (h : session.Usable) (hkeyed : (session.stores index).Keyed) {first : Cell}
    {status : Status} (hfirst : first.Sound)
    (hentry : (session.stores index).find? key = some (first.encode, status)) :
    session.Gives index key first status := by
  refine ⟨hkeyed.key _ _ _ hentry, hentry, ?_, ?_⟩
  · rw [hkeyed.legible.status?_eq, hentry]
    rfl
  · have hsite : (session.site index).store.Keyed := hkeyed
    obtain ⟨cell, _, _, -, -, hread, hencode, hlookup⟩ :=
      StoreAction.run_lookup_of_keyed hsite hentry
    obtain ⟨_, _, -, -, hget⟩ := StoreAction.run_get key (session.site index)
    refine ⟨cell, ?_, ?_, hencode, Cell.agrees_of_encode_eq (h.sound_of_read hread) hfirst hencode⟩
    · rw [hget]
      exact hread
    · rw [hlookup]

/-- Where there is no entry, nothing is found. -/
theorem lacks (hlegible : (session.stores index).Legible)
    (hentry : (session.stores index).find? key = none) : session.Lacks index key := by
  obtain ⟨next, noted, -, -, hget⟩ := StoreAction.run_get key (session.site index)
  rw [show (session.site index).store.read key (session.site index).known = .ok none from
    hlegible.read_of_none hentry _] at hget
  refine ⟨hentry, ?_, ?_, ?_⟩
  · rw [hlegible.status?_eq, hentry]
    rfl
  · rw [hget]
  · rw [StoreAction.lookup, run_run_bind, hget]
    rfl

end Session

namespace Chronicle

variable {ι : Type} [DecidableEq ι] {chronicle later : Chronicle ι} {index : ι}

omit [DecidableEq ι] in
theorem Inv.keyed (h : chronicle.Inv) (index : ι) : (chronicle.session.stores index).Keyed := by
  obtain ⟨empty, hempty, hstore⟩ := h.store index
  have hnone : ∀ key, empty.find? key = none := by
    rcases hempty with rfl | rfl <;> exact fun _ => rfl
  rw [hstore]
  exact Store.keyed_after (Store.sound_empty hempty).legible hnone (h.sound index)

omit [DecidableEq ι] in
/-- The entries of a store are those that the writes lead to. -/
theorem Inv.find?_eq (h : chronicle.Inv) (index : ι) (key : Digest) :
    (chronicle.session.stores index).find? key =
      Deposits.entry (chronicle.writes index) key := by
  obtain ⟨empty, hempty, hstore⟩ := h.store index
  rw [hstore, (Store.sound_empty hempty).legible.find?_after]
  rcases hempty with rfl | rfl <;> rfl

omit [DecidableEq ι] in
theorem Inv.sound_of_first (h : chronicle.Inv) {key : Digest} {first : Cell}
    (hfirst : Deposits.First (chronicle.writes index) key first) : first.Sound := by
  obtain ⟨before, status, rest, hwrites, -, -⟩ := hfirst
  exact h.sound index (first, status) (hwrites ▸ List.mem_append_right _ (List.mem_cons_self ..))

omit [DecidableEq ι] in
/-- A store has what was written first under a digest, or has nothing. -/
theorem Inv.gives_or_lacks (h : chronicle.Inv) (index : ι) (key : Digest) :
    (∃ first status, Deposits.First (chronicle.writes index) key first ∧
        IsGreatest (Deposits.statuses (chronicle.writes index) key) status ∧
        chronicle.session.Gives index key first status) ∨
      (∀ write ∈ chronicle.writes index, write.1.digest ≠ key) ∧
        chronicle.session.Lacks index key := by
  have hkeyed := h.keyed index
  rcases Deposits.entry_spec (chronicle.writes index) key with
    ⟨hnone, hno⟩ | ⟨first, status, hfirst, hgreatest, hsome⟩
  · exact .inr ⟨hno, Session.lacks hkeyed.legible (by rw [h.find?_eq, hnone])⟩
  · exact .inl ⟨first, status, hfirst, hgreatest,
      h.usable.gives hkeyed (h.sound_of_first hfirst) (by rw [h.find?_eq, hsome])⟩

omit [DecidableEq ι] in
/-- The digests of a store are those that were written, in order. -/
theorem Inv.digests (h : chronicle.Inv) (index : ι) :
    ∃ digests, (chronicle.session.stores index).digests = .ok digests ∧
      digests.Pairwise (· < ·) ∧ (chronicle.session.stores index).count = digests.length ∧
      ∀ key, key ∈ digests ↔ ∃ write ∈ chronicle.writes index, write.1.digest = key := by
  obtain ⟨empty, hempty, hstore⟩ := h.store index
  have hfiled : empty.Filed [] := by rcases hempty with rfl | rfl <;> rfl
  obtain ⟨digests, hdigests, hascending, hmem⟩ :=
    (Store.sound_empty hempty).legible.exists_filed_after hfiled .nil (chronicle.writes index)
  rw [← hstore] at hdigests
  refine ⟨digests, hdigests.digests_eq, hascending, hdigests.count_eq, fun key => ?_⟩
  rw [hmem, or_iff_right List.not_mem_nil]

/-- Each step lets stores grow. -/
theorem Step.grows (hstep : chronicle.Step later) (h : chronicle.Inv) (index : ι) :
    (chronicle.session.stores index).Grows (later.session.stores index) := by
  cases hstep with
  | cells => exact .refl _
  | store other call writes arguments fits wrote =>
    show (chronicle.session.stores index).Grows
      (Function.update chronicle.session.stores other _ index)
    by_cases heq : index = other
    · subst heq
      rw [Function.update_self]
      exact wrote.made.store ▸ (h.keyed index).legible.grows_after writes
    · rw [Function.update_of_ne heq]
      exact .refl _

/-- Each step lets the session grow. -/
theorem Step.session_grows (hstep : chronicle.Step later) (h : chronicle.Inv) :
    chronicle.session.Grows later.session := by
  refine ⟨?_, hstep.grows h, ?_⟩
  · cases hstep with
    | cells operation arguments fits =>
      obtain ⟨_, hmoves, -, -⟩ := h.usable.performCells arguments fits
      exact hmoves.learns.toGrows
    | store index call writes arguments fits wrote => exact (h.usable.call index arguments).2.1
  · cases hstep with
    | cells => exact fun item hitem => Session.mem_items_perform hitem _
    | store => exact fun item hitem => List.mem_append_left _ hitem

/-- However many steps are made, stores only grow, and writes are only added. -/
theorem grows_of_steps (h : chronicle.Inv) (hsteps : Relation.ReflTransGen Step chronicle later)
    (index : ι) :
    later.Inv ∧ (chronicle.session.stores index).Grows (later.session.stores index) ∧
      ∃ more, later.writes index = chronicle.writes index ++ more := by
  induction hsteps with
  | refl => exact ⟨h, .refl _, [], (List.append_nil _).symm⟩
  | tail _ hstep ih =>
    obtain ⟨hinv, hgrows, first, hfirst⟩ := ih
    obtain ⟨rest, hrest⟩ := hstep.writes index
    exact ⟨hstep.inv hinv, hgrows.trans (hstep.grows hinv index), first ++ rest, by
      rw [hrest, hfirst, List.append_assoc]⟩

/--
Stores are faithful. Every call writes something or nothing, with the status that it may write, and
the call to put a cell writes that cell. The status from before is given when a cell is put. For
each digest that was written, a store gives a cell that is equal to the one that was first written
and has its encoding, whether its digest is to be checked or not, and the greatest of the statuses;
for all others it has nothing. The digests that were written are listed in order. All this stays
so when more is written.
-/
theorem Reached.faithful (h : chronicle.Reached) (index : ι) :
    (∀ call : StoreCall, (∀ item ∈ call.arguments, item ∈ chronicle.session.items) →
      ∃ writes, chronicle.Wrote index call writes) ∧
    (∀ (cell : Cell) (status : Status),
      ((StoreAction.put cell status).run.run (chronicle.session.site index)).1 =
        (chronicle.session.stores index).status? cell.digest) ∧
    (∀ key, (∃ first status, Deposits.First (chronicle.writes index) key first ∧
        IsGreatest (Deposits.statuses (chronicle.writes index) key) status ∧
        chronicle.session.Gives index key first status) ∨
      (∀ write ∈ chronicle.writes index, write.1.digest ≠ key) ∧
        chronicle.session.Lacks index key) ∧
    (∃ digests, (chronicle.session.stores index).digests = .ok digests ∧
      digests.Pairwise (· < ·) ∧ (chronicle.session.stores index).count = digests.length ∧
      ∀ key, key ∈ digests ↔ ∃ write ∈ chronicle.writes index, write.1.digest = key) ∧
    ∀ later, Relation.ReflTransGen Step chronicle later →
      ∀ key first status, Deposits.First (chronicle.writes index) key first →
        chronicle.session.Gives index key first status →
        Deposits.First (later.writes index) key first ∧
          ∃ status', status ≤ status' ∧ later.session.Gives index key first status' := by
  have hinv := h.inv
  refine ⟨fun call harguments => ?_, fun cell status => ?_, hinv.gives_or_lacks index,
    hinv.digests index, fun later hsteps key first status hfirst hgives => ?_⟩
  · obtain ⟨⟨writes, hexplains, hmade⟩, -, -⟩ := hinv.usable.call index harguments
    exact ⟨writes, hexplains, hmade⟩
  · rw [(hinv.keyed index).legible.status?_eq, run_put]
    exact (hinv.keyed index).legible.insert_fst ..
  · obtain ⟨hlater, hgrows, more, hmore⟩ := grows_of_steps hinv hsteps index
    obtain ⟨status', hle, hentry⟩ := hgrows.entry _ _ _ hgives.entry
    exact ⟨hmore ▸ hfirst.append more, status', hle,
      hlater.usable.gives (hlater.keyed index) (hinv.sound_of_first hfirst) hentry⟩

/-- A request about cells that may be made leads to a chronicle. -/
theorem Reached.cells (h : chronicle.Reached) {operation : Operation}
    (harguments : ∀ item ∈ operation.arguments, item ∈ chronicle.session.items)
    (hfits : (chronicle.session.perform (.cells operation)).Fits) :
    Reached { chronicle with session := chronicle.session.perform (.cells operation) } := by
  obtain ⟨stores, hempty, hsteps⟩ := h
  exact ⟨stores, hempty, hsteps.tail (.cells operation harguments hfits)⟩

/-- Requests about cells that may be made one after the other lead to a chronicle. -/
theorem Reached.operations {indices : List ι} (hindices : ∀ index, index ∈ indices)
    (operations : List Operation) (h : chronicle.Reached)
    (hfits : chronicle.session.FitsThroughout indices (operations.map .cells))
    (hsupplies : chronicle.session.Supplies (operations.map .cells)) :
    Reached { chronicle with
      session := (operations.map .cells).foldl Session.perform chronicle.session } := by
  induction operations generalizing chronicle with
  | nil => exact h
  | cons operation rest ih =>
    exact ih (h.cells hsupplies.1 (Session.fits_of_everyCell hindices hfits.1)) hfits.2 hsupplies.2

/-- At first nothing has been written. -/
theorem reached_start {stores : ι → Store}
    (hempty : ∀ index, stores index = .emptyMemory ∨ stores index = .emptyTable) :
    Reached { session := { stores } } :=
  ⟨stores, hempty, .refl⟩

/-! ### A vector that is put without its blob -/

/-- A memory store and a table without entries. -/
def twoEmpty (index : Bool) : Store := if index then .emptyTable else .emptyMemory

theorem twoEmpty_empty (index : Bool) :
    twoEmpty index = .emptyMemory ∨ twoEmpty index = .emptyTable := by
  cases index
  · exact .inl rfl
  · exact .inr rfl

/-- The blob and the vector are made. -/
def vectorOperations : List Operation :=
  [.blob (List.replicate 200 1), .vector [Session.largeBlob]]

/-- A user who has made the vector, before anything is written. -/
def unwritten : Chronicle Bool where
  session := (vectorOperations.map Request.cells).foldl Session.perform { stores := twoEmpty }

/-- The vector is put into the memory store, and twice into the table. -/
def putThrice : Chronicle Bool :=
  ((unwritten.call false (.put Session.blobVector .verified) [(Session.blobVector, .verified)]).call
    true (.put Session.blobVector .announced) [(Session.blobVector, .announced)]).call
      true (.put Session.blobVector .stored) [(Session.blobVector, .stored)]

/-- A cell that the user has can be put. -/
theorem Reached.put (h : chronicle.Reached) {cell : Cell} {status : Status}
    (hcell : .cell cell ∈ chronicle.session.items)
    (hfits : (chronicle.session.call index (.put cell status)).Fits) :
    (chronicle.call index (.put cell status) [(cell, status)]).Reached := by
  have harguments : ∀ item ∈ (StoreCall.put cell status).arguments,
      item ∈ chronicle.session.items :=
    List.forall_mem_singleton.2 hcell
  obtain ⟨⟨writes, hexplains, hmade⟩, -, -⟩ :=
    h.inv.usable.call index harguments
  cases hexplains.put cell status rfl
  obtain ⟨stores, hempty, hsteps⟩ := h
  exact ⟨stores, hempty, hsteps.tail (.store index _ _ harguments hfits ⟨hexplains, hmade⟩)⟩

set_option maxRecDepth 20000 in
theorem reached_unwritten : unwritten.Reached :=
  (reached_start twoEmpty_empty).operations Session.mem_bools vectorOperations (by decide +kernel)
    ⟨nofun, Session.mem_items_of_places [0] rfl, trivial⟩

set_option maxRecDepth 20000 in
theorem reached_putThrice : putThrice.Reached := by
  have hvector : ∀ item ∈ [Item.cell Session.blobVector], item ∈ unwritten.session.items :=
    Session.mem_items_of_places [1] rfl
  have hhas := hvector _ (List.mem_singleton_self _)
  refine ((reached_unwritten.put hhas ?_).put (List.mem_append_left _ hhas) ?_).put
    (List.mem_append_left _ (List.mem_append_left _ hhas)) ?_
  all_goals exact Session.fits_of_everyCell Session.mem_bools (by decide +kernel)

/-- Each store gives the vector, with the greatest status with which it was put there. -/
theorem blobVector_put :
    putThrice.session.Gives false Session.blobVector.digest Session.blobVector .verified ∧
      putThrice.session.Gives true Session.blobVector.digest Session.blobVector .announced := by
  have hgives : ∀ (index : Bool) (statuses : List Status) (status : Status),
      putThrice.writes index = statuses.map (Session.blobVector, ·) → status ∈ statuses →
      (∀ other ∈ statuses, other ≤ status) →
      putThrice.session.Gives index Session.blobVector.digest Session.blobVector status := by
    intro index statuses status hwrites hmem hle
    obtain ⟨-, -, hall, -, -⟩ := reached_putThrice.faithful index
    rw [hwrites] at hall
    have hput : (Session.blobVector, status) ∈ statuses.map (Session.blobVector, ·) :=
      List.mem_map_of_mem hmem
    rcases hall Session.blobVector.digest with
      ⟨first, greatest, ⟨before, given, rest, hfirst, -, -⟩, ⟨⟨cell, hcell, -⟩, hupper⟩, hgives⟩ |
        ⟨hno, -⟩
    · have hmem' : (first, given) ∈ statuses.map (Session.blobVector, ·) :=
        hfirst ▸ List.mem_append_right _ (List.mem_cons_self ..)
      obtain ⟨_, -, heq⟩ := List.mem_map.1 hmem'
      obtain ⟨other, hother, heq'⟩ := List.mem_map.1 hcell
      cases heq
      cases heq'
      exact le_antisymm (hle _ hother) (hupper ⟨_, hput, rfl⟩) ▸ hgives
    · exact (hno _ hput rfl).elim
  exact ⟨hgives false [.verified] .verified rfl (by decide) (by decide),
    hgives true [.announced, .stored] .announced rfl (by decide) (by decide)⟩

end Chronicle

end CellGraph
