import CellGraph.Proofs.Knowledge.Coherent
import CellGraph.Proofs.Store.Entries
import CellGraph.Report
import CellGraph.Stake.Update
import CellGraph.Store.Walk
import Mathlib.Logic.Function.Basic

/-!
# Sessions

A user makes cells of cells that it has, changes them, reads them from bytes and from stores, and
brings them up to a status in any of several stores, in any order. A session is what has come of
that so far.

* `Item`: what the user gets hold of;
* `Operation`, `StoreOperation`, `Request`: what the user may ask for, of cells and of a store;
* `Session`, `Session.perform`: the state that requests work on;
* `Session.links`, `Session.cells`, `Session.encodings`: all that is there in a session;
* `Session.Reached`: the sessions that can come about, from stores without entries;
* `Session.everyLink`, `Session.everyCell`, `Session.everyEncoding`: the contents of a session,
  listed.
-/

namespace CellGraph

/-- What a user may have. -/
inductive Item
  | cell (cell : Cell)
  | link (link : Link)
  | record (record : StakeRecord Link)

/-- The links of an item, at every depth. -/
def Item.everyLink : Item → List Link
  | cell c => c.everyLink
  | link l => l.everyLink
  | record r => r.links.flatMap Link.everyLink

/-- The statuses that a walk can have as its goal. -/
abbrev Goal := { status : Status // .stored ≤ status }

/-! ### Requests -/

/--
A request that concerns no store. Questions to maps and records are left out: the cells that they
give can be had with `child` and `load`.
-/
inductive Operation
  | integer (n : Int64)
  | address (a : Address)
  | text (s : String)
  | blob (bytes : Bytes)
  | keyword (name : String)
  | vector (items : List Cell)
  | vectorOf (items : List Link)
  | map (bindings : List (Cell × Cell))
  | insert (map key value : Cell)
  | erase (map key : Cell)
  | peer (record : StakeRecord Link)
  | report (report : Report)
  | decode (bytes : Bytes)
  | link (target : Cell)
  | soft (digest : Digest)
  | child (cell : Cell) (index : Nat)
  | load (link : Link)
  /-- Resolve a link, this being what is found for it. -/
  | resolve (link : Link) (found : Option Cell)
  | create (controller : Address) (shares : Int64)
  | record (cell : Cell)
  | update (record : StakeRecord Link) (change : StakeUpdate)
  /-- Ask for digests, encodings or comparisons, after which these have been worked out. -/
  | note (hashed encoded : Std.TreeSet Label)

namespace Operation

/-- What the user must have for a request. -/
def arguments : Operation → List Item
  | vector items => items.map .cell
  | vectorOf items => items.map .link
  | map bindings => bindings.flatMap fun binding => [.cell binding.1, .cell binding.2]
  | insert m key value => [.cell m, .cell key, .cell value]
  | erase m key => [.cell m, .cell key]
  | peer r => [.record r]
  | report r => .cell r.code :: (r.message.toList ++ r.log.toList).map .cell
  | link target => [.cell target]
  | child c _ => [.cell c]
  | load l => [.link l]
  | resolve l found => .link l :: found.toList.map .cell
  | record c => [.cell c]
  | update r (.metadata m) => .record r :: m.toList.map .cell
  | update r _ => [.record r]
  | _ => []

/-- What a request does, and what the user gets from it. -/
def run : Operation → Attempt (List Item)
  | integer n => return [.cell (← Cell.make (.integer n))]
  | address a => return [.cell (← Cell.make (.address a))]
  | text s => return [.cell (← Cell.make (.text s))]
  | blob bytes => return [.cell (← Cell.make (.blob bytes))]
  | keyword name => return [.cell (← Cell.makeKeyword name)]
  | vector items => return [.cell (← Cell.makeVector items)]
  | vectorOf items => return [.cell (← Cell.make (.vector items))]
  | map bindings => return [.cell (← Cell.makeMap bindings)]
  | insert m key value => return [.cell (← m.insert key value)]
  | erase m key => return [.cell (← m.erase key)]
  | peer r => return [.cell (← Cell.make (.peer r))]
  | report r => return [.cell (← r.toCell)]
  | decode bytes => return [.cell (← Cell.decode bytes)]
  | link target => return [.link (← target.link)]
  | soft digest => return [.link (← digest.link)]
  | child c index => return [.link (← c.linkAt index)]
  | load l => return [.cell (← l.load)]
  | resolve l found => return [.cell (← l.resolve fun _ => return found)]
  | create controller shares => return [.record (← StakeRecord.create controller shares)]
  | record c =>
    match c.value with
    | .peer r => return [.record r]
    | _ => return []
  | update r change => return [.record (← change.apply r)]
  | note hashed encoded => do
    modify fun known => { known with hashed, encoded }
    return []

end Operation

/-- A request to one store. -/
inductive StoreOperation
  /-- Bring a cell and everything below it up to a status. -/
  | make (goal : Goal) (cell : Cell)
  /-- Bring the graph below a link up to a status. -/
  | walk (goal : Goal) (link : Link)
  | get (key : Digest)
  | lookup (key : Digest)
  | resolve (link : Link)

namespace StoreOperation

/-- What the user must have for a request to a store. -/
def arguments : StoreOperation → List Item
  | make _ cell => [.cell cell]
  | walk _ link => [.link link]
  | resolve link => [.link link]
  | _ => []

/-- What a request to a store does, and what the user gets from it. -/
def run : StoreOperation → StoreAction (List Item)
  | make goal cell => return [.link (← StoreAction.make goal cell)]
  | walk goal link => do
    StoreAction.walk goal link
    return []
  | get key => return (← StoreAction.get key).toList.map .cell
  | lookup key => return (← StoreAction.lookup key).toList.map .cell
  | resolve link => return [.cell (← StoreAction.resolve link)]

end StoreOperation

/-- A request of a user who has several stores. -/
inductive Request (ι : Type)
  | cells (operation : Operation)
  | store (index : ι) (operation : StoreOperation)

/-- What the user must have for a request. -/
def Request.arguments {ι : Type} : Request ι → List Item
  | cells operation => operation.arguments
  | store _ operation => operation.arguments

/-! ### Sessions -/

/-- What has come of the requests so far. -/
structure Session (ι : Type) where
  known : Knowledge := {}
  stores : ι → Store
  /-- What the user has. -/
  items : List Item := []
  /-- The status that each store has last given to the link of a label. -/
  raised : ι → Label → Status := fun _ _ => .unknown

namespace Session

variable {ι : Type}

/-- Perform a request. What it did before it failed stays done. -/
def perform [DecidableEq ι] (session : Session ι) : Request ι → Session ι
  | .cells operation =>
    let (outcome, known) := operation.run.run.run session.known
    { session with known, items := session.items ++ outcome.toOption.getD [] }
  | .store index operation =>
    let (outcome, site) := operation.run.run.run ⟨session.known, session.stores index, [], []⟩
    { known := site.known
      stores := Function.update session.stores index site.store
      items := session.items ++ outcome.toOption.getD []
      raised := Function.update session.raised index fun label =>
        if site.known.statusAt label = session.known.statusAt label then session.raised index label
        else site.known.statusAt label }

/-- What the user has is not lost. -/
theorem mem_items_perform [DecidableEq ι] {session : Session ι} {item : Item}
    (h : item ∈ session.items) (request : Request ι) : item ∈ (session.perform request).items := by
  cases request with
  | cells operation => exact List.mem_append_left _ h
  | store index operation => exact List.mem_append_left _ h

/-- The links that there are in a session. -/
def links (session : Session ι) : Set Link := { link |
  (∃ item ∈ session.items, link ∈ item.everyLink) ∨
  (∃ (label : Label) (cell : Cell),
    session.known.kept[label]? = some cell ∧ link ∈ cell.everyLink) ∨
  ∃ index cell, (session.stores index).Remembers cell ∧ link ∈ cell.everyLink }

/-- The cells that there are in a session. -/
def cells (session : Session ι) : Set Cell := { cell |
  .cell cell ∈ session.items ∨
  (∃ link ∈ session.links, link.target? = some cell) ∨
  (∃ label : Label, session.known.kept[label]? = some cell) ∨
  ∃ index, (session.stores index).Remembers cell }

/-- The encodings of the cells of a session, and those that are in its stores. -/
def encodings (session : Session ι) : Set Bytes := { bytes |
  (∃ cell ∈ session.cells, cell.encode = bytes) ∨
  ∃ index key status, (session.stores index).find? key = some (bytes, status) }

/-- Lengths are 64-bit numbers, as they are in any memory. -/
def Fits (session : Session ι) : Prop := ∀ cell ∈ session.cells, cell.value.Fits

/-- The sessions that can come about: at first, no store has an entry, and the user has nothing. -/
inductive Reached [DecidableEq ι] : Session ι → Prop
  | start (stores : ι → Store)
    (empty : ∀ index, stores index = .emptyMemory ∨ stores index = .emptyTable) : Reached { stores }
  | step {session : Session ι} (request : Request ι) (reached : Reached session)
    (arguments : ∀ item ∈ request.arguments, item ∈ session.items)
    (fits : (session.perform request).Fits) : Reached (session.perform request)

end Session

/-! ### Listing a session -/

/-- A cell and all those that it holds. -/
def Cell.everyCell (cell : Cell) : List Cell := cell :: cell.everyLink.filterMap Link.target?

/-- The cells that an item holds. -/
def Item.everyCell : Item → List Cell
  | cell c => c.everyCell
  | item => item.everyLink.filterMap Link.target?

/-- The cells that a store remembers. -/
def Store.remembered : Store → List Cell
  | memory entries => entries.map fun entry => entry.2.1
  | table _ => []

/-- The encodings that are in a store. -/
def Store.encodings : Store → List Bytes
  | memory entries => entries.map fun entry => entry.2.1.encode
  | table rows => rows.map fun row => row.2.encoding

theorem Index.mem_of_find? {κ α : Type} [BEq κ] {key : κ} {index : Index κ α} {a : α}
    (h : Index.find? key index = some a) : ∃ k, (k, a) ∈ index := by
  induction index with
  | nil => cases h
  | cons entry rest ih =>
    obtain ⟨k, b⟩ := entry
    rw [find?] at h
    split at h
    · cases h
      exact ⟨k, List.mem_cons_self ..⟩
    · obtain ⟨k', hk'⟩ := ih h
      exact ⟨k', List.mem_cons_of_mem _ hk'⟩

theorem Store.mem_remembered {store : Store} {cell : Cell} (h : store.Remembers cell) :
    cell ∈ store.remembered := by
  cases store with
  | memory entries =>
    obtain ⟨key, status, hfind⟩ := h
    obtain ⟨k, hk⟩ := Index.mem_of_find? hfind
    exact List.mem_map.2 ⟨_, hk, rfl⟩
  | table => exact h.elim

theorem Store.mem_encodings {store : Store} {key : Digest} {encoding : Bytes} {status : Status}
    (h : store.find? key = some (encoding, status)) : encoding ∈ store.encodings := by
  cases store with
  | memory entries =>
    obtain ⟨entry, hentry, heq⟩ := Option.map_eq_some_iff.1 h
    obtain ⟨k, hk⟩ := Index.mem_of_find? hentry
    cases heq
    exact List.mem_map.2 ⟨_, hk, rfl⟩
  | table rows =>
    rw [find?] at h
    split at h
    · next row hrow =>
      obtain ⟨k, hk⟩ := Index.mem_of_find? hrow
      split at h
      · cases h
        exact List.mem_map.2 ⟨_, hk, rfl⟩
      · cases h
    · cases h

theorem Cell.mem_everyCell {cell target : Cell} {link : Link} (h : link ∈ cell.everyLink)
    (ht : link.target? = some target) : target ∈ cell.everyCell :=
  List.mem_cons_of_mem _ (List.mem_filterMap.2 ⟨link, h, ht⟩)

namespace Session

variable {ι : Type}

/-- All cells of a session whose stores are these. -/
def everyCell (session : Session ι) (indices : List ι) : List Cell :=
  session.items.flatMap Item.everyCell ++
    session.known.kept.toList.flatMap (fun entry => entry.2.everyCell) ++
    indices.flatMap fun index => (session.stores index).remembered.flatMap Cell.everyCell

/-- All links of a session whose stores are these. -/
def everyLink (session : Session ι) (indices : List ι) : List Link :=
  session.items.flatMap Item.everyLink ++
    session.known.kept.toList.flatMap (fun entry => entry.2.everyLink) ++
    indices.flatMap fun index => (session.stores index).remembered.flatMap Cell.everyLink

/-- All encodings of a session whose stores are these. -/
def everyEncoding (session : Session ι) (indices : List ι) : List Bytes :=
  (session.everyCell indices).map Cell.encode ++
    indices.flatMap fun index => (session.stores index).encodings

variable {session : Session ι} {indices : List ι}

theorem mem_everyLink (hindices : ∀ index, index ∈ indices) {link : Link}
    (h : link ∈ session.links) : link ∈ session.everyLink indices := by
  rcases h with ⟨item, hitem, hlink⟩ | ⟨label, cell, hcell, hlink⟩ | ⟨index, cell, hcell, hlink⟩
  · exact List.mem_append_left _ (List.mem_append_left _ (List.mem_flatMap.2 ⟨item, hitem, hlink⟩))
  · exact List.mem_append_left _ (List.mem_append_right _ (List.mem_flatMap.2
      ⟨(label, cell), Std.TreeMap.mem_toList_iff_getElem?_eq_some.2 hcell, hlink⟩))
  · exact List.mem_append_right _ (List.mem_flatMap.2 ⟨index, hindices index,
      List.mem_flatMap.2 ⟨cell, Store.mem_remembered hcell, hlink⟩⟩)

theorem mem_everyCell (hindices : ∀ index, index ∈ indices) {cell : Cell}
    (h : cell ∈ session.cells) : cell ∈ session.everyCell indices := by
  have hitem : ∀ item ∈ session.items, ∀ c ∈ item.everyCell, c ∈ session.everyCell indices :=
    fun item hitem c hc => List.mem_append_left _ (List.mem_append_left _
      (List.mem_flatMap.2 ⟨item, hitem, hc⟩))
  have hkept : ∀ (label : Label) (held : Cell), session.known.kept[label]? = some held →
      ∀ c ∈ held.everyCell, c ∈ session.everyCell indices :=
    fun label held hheld c hc => List.mem_append_left _ (List.mem_append_right _
      (List.mem_flatMap.2 ⟨(label, held), Std.TreeMap.mem_toList_iff_getElem?_eq_some.2 hheld, hc⟩))
  have hremembered : ∀ index held, (session.stores index).Remembers held → ∀ c ∈ held.everyCell,
      c ∈ session.everyCell indices :=
    fun index held hheld c hc => List.mem_append_right _ (List.mem_flatMap.2 ⟨index, hindices index,
      List.mem_flatMap.2 ⟨held, Store.mem_remembered hheld, hc⟩⟩)
  rcases h with h | ⟨link, hlink, ht⟩ | ⟨label, h⟩ | ⟨index, h⟩
  · exact hitem _ h cell (List.mem_cons_self ..)
  · rcases hlink with ⟨item, hi, hlink⟩ | ⟨label, held, hheld, hlink⟩ | ⟨index, held, hheld, hlink⟩
    · refine hitem item hi cell ?_
      cases item with
      | cell c => exact Cell.mem_everyCell hlink ht
      | link l => exact List.mem_filterMap.2 ⟨link, hlink, ht⟩
      | record r => exact List.mem_filterMap.2 ⟨link, hlink, ht⟩
    · exact hkept label held hheld cell (Cell.mem_everyCell hlink ht)
    · exact hremembered index held hheld cell (Cell.mem_everyCell hlink ht)
  · exact hkept label cell h cell (List.mem_cons_self ..)
  · exact hremembered index cell h cell (List.mem_cons_self ..)

theorem mem_everyEncoding (hindices : ∀ index, index ∈ indices) {bytes : Bytes}
    (h : bytes ∈ session.encodings) : bytes ∈ session.everyEncoding indices := by
  rcases h with ⟨cell, hcell, rfl⟩ | ⟨index, key, status, hentry⟩
  · exact List.mem_append_left _ (List.mem_map_of_mem (mem_everyCell hindices hcell))
  · exact List.mem_append_right _ (List.mem_flatMap.2 ⟨index, hindices index,
      Store.mem_encodings hentry⟩)

instance (value : Value Link) : Decidable value.Fits :=
  match value with
  | .text s => inferInstanceAs (Decidable ((Bytes.ofText s).length < 2 ^ 64))
  | .blob bytes => inferInstanceAs (Decidable (bytes.length < 2 ^ 64))
  | .vector items => inferInstanceAs (Decidable (items.length < 2 ^ 64))
  | .map entries => inferInstanceAs (Decidable (entries.length < 2 ^ 64))
  | .integer _ | .address _ | .keyword _ | .peer _ => inferInstanceAs (Decidable True)

/-- Whether a session fits can be found out by going through its cells. -/
theorem fits_of_everyCell (hindices : ∀ index, index ∈ indices)
    (h : ∀ cell ∈ session.everyCell indices, cell.value.Fits) : session.Fits :=
  fun cell hcell => h cell (mem_everyCell hindices hcell)

/-- The user has what these requests are about, whenever it comes to one of them. -/
def Supplies [DecidableEq ι] : Session ι → List (Request ι) → Prop
  | _, [] => True
  | session, request :: rest =>
    (∀ item ∈ request.arguments, item ∈ session.items) ∧ (session.perform request).Supplies rest

/-- What there is after each of these requests fits. -/
def FitsThroughout [DecidableEq ι] (indices : List ι) : Session ι → List (Request ι) → Prop
  | _, [] => True
  | session, request :: rest =>
    (∀ cell ∈ (session.perform request).everyCell indices, cell.value.Fits) ∧
      FitsThroughout indices (session.perform request) rest

instance FitsThroughout.decidable [DecidableEq ι] (indices : List ι) :
    ∀ (session : Session ι) (requests : List (Request ι)),
      Decidable (session.FitsThroughout indices requests)
  | _, [] => inferInstanceAs (Decidable True)
  | session, request :: rest =>
    have := decidable indices (session.perform request) rest
    inferInstanceAs (Decidable (_ ∧ _))

/-- Requests that may be made one after the other lead to a session that can come about. -/
theorem Reached.requests [DecidableEq ι] (h : session.Reached)
    (hindices : ∀ index, index ∈ indices) (requests : List (Request ι))
    (hfits : session.FitsThroughout indices requests) (hsupplies : session.Supplies requests) :
    (requests.foldl perform session).Reached := by
  induction requests generalizing session with
  | nil => exact h
  | cons request rest ih =>
    exact ih (.step _ h hsupplies.1 (fits_of_everyCell hindices hfits.1)) hfits.2 hsupplies.2

/-- What a request is about can be found at these places among the items. -/
theorem mem_items_of_places {items arguments : List Item} (places : List Nat)
    (h : arguments.map some = places.map fun n => items[n]?) :
    ∀ item ∈ arguments, item ∈ items := by
  intro item hitem
  have hmem : some item ∈ places.map fun n => items[n]? := h ▸ List.mem_map_of_mem hitem
  obtain ⟨n, -, hn⟩ := List.mem_map.1 hmem
  exact List.mem_of_getElem? hn

/-- Whether digests tell the encodings apart can be found out by going through these. -/
theorem injOn_of_everyEncoding (hindices : ∀ index, index ∈ indices)
    (h : ∀ a ∈ session.everyEncoding indices, ∀ b ∈ session.everyEncoding indices,
      Digest.of a = Digest.of b → a = b) : Set.InjOn Digest.of session.encodings :=
  fun a ha b hb => h a (mem_everyEncoding hindices ha) b (mem_everyEncoding hindices hb)

end Session

end CellGraph
