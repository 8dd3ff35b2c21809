import CellGraph.Proofs.Cell.Validity
import CellGraph.Proofs.Computation.StoreCraft
import CellGraph.Proofs.Session.Basic
import CellGraph.Proofs.Walk.Invariant

/-!
# What requests give

Every request keeps the law of its kind, and gives the user valid items whose links are in use.

* `Item.Within`, `Craft.Has`: valid items whose links are in use, items in use;
* `Operation.keeps_run`: requests that concern no store;
* `StoreOperation.keeps_run`: requests to a store.
-/

namespace CellGraph

/-- A valid item, all of whose links are in use. -/
def Item.Within (held : Set Link) : Item → Prop
  | cell c => c.Within Cell.Valid held
  | link l => l ∈ held
  | record r => r.Within held

theorem Item.Within.mono {held held' : Set Link} {item : Item} (h : item.Within held)
    (hsub : held ⊆ held') : item.Within held' := by
  cases item with
  | cell c => exact Cell.Within.mono h hsub
  | link l => exact hsub h
  | record r => exact ⟨h.valid, fun link hlink => hsub (h.links link hlink)⟩

/-- Everything below an item is in use. -/
theorem Item.Within.everyLink {good : Cell → Prop} {held : Set Link} {known : Knowledge}
    (hcoherent : Coherent good held known) {item : Item} (h : item.Within held) :
    ∀ link ∈ item.everyLink, link ∈ held := by
  intro link hlink
  cases item with
  | cell c => exact Cell.Within.links h link hlink
  | link l => exact hcoherent.everyLink h link hlink
  | record r =>
    obtain ⟨first, hfirst, hbelow⟩ := List.mem_flatMap.1 hlink
    exact hcoherent.everyLink (StakeRecord.Within.links h first hfirst) link hbelow

/-- An item is in use. -/
def Craft.Has (craft : Craft) (held : Set Link) : Item → Prop
  | .cell c => craft.Owns held c
  | .link l => l ∈ held
  | .record r => r.Within held

theorem Craft.Has.mono {craft : Craft} {held held' : Set Link} {item : Item}
    (h : craft.Has held item) (hsub : held ⊆ held') : craft.Has held' item := by
  cases item with
  | cell c => exact craft.mono h hsub
  | link l => exact hsub h
  | record r => exact ⟨StakeRecord.Within.valid h,
      fun link hlink => hsub (StakeRecord.Within.links h link hlink)⟩

theorem Craft.has_valid {held : Set Link} {item : Item} :
    Craft.valid.Has held item ↔ item.Within held := by
  cases item <;> exact Iff.rfl

theorem Craft.has_steady {held : Set Link} {item : Item} :
    Craft.steady.Has held item ↔ item.Within held := by
  cases item <;> exact Iff.rfl

/-- An item in use is valid, and its links are in use. -/
theorem Craft.Has.within {craft : Craft} {held : Set Link} {item : Item}
    (h : craft.Has held item) : item.Within held := by
  cases item with
  | cell c => exact Craft.within craft h
  | link l => exact h
  | record r => exact h

/-! ### Requests that concern no store -/

namespace Operation

open Craft

variable {craft : Craft} {held : Set Link} {α : Type}

/-- A computation whose result is an item. -/
theorem keeps_item {action : Attempt α} (item : α → Item)
    (h : craft.law.Keeps held (fun _ => True) action fun a held' _ => craft.Has held' (item a)) :
    craft.law.Keeps held (fun _ => True) (do return [item (← action)])
      fun items held' _ => ∀ i ∈ items, craft.Has held' i :=
  h.bind fun a held' _ => .assume fun ha => .pure fun _ _ _ i hi => by
    rw [List.mem_singleton.1 hi]
    exact ha

/-- A value without links makes a valid cell. -/
theorem keeps_plain {value : Value Link} (hcanonical : value.isCanonical Link.target?)
    (hplain : ∀ record, value = .peer record → False) (hlinks : value.links = []) :
    craft.law.Keeps held (fun _ => True)
      (do return [.cell (← Cell.make value)] : Attempt (List Item))
      fun items held' _ => ∀ i ∈ items, craft.Has held' i :=
  keeps_item .cell (keeps_leaf value hcanonical hplain hlinks)

theorem within_create {controller : Address} {shares : Int64} {record : StakeRecord Link}
    (h : StakeRecord.create controller shares = .ok record) : record.Within held := by
  unfold StakeRecord.create at h
  split at h
  · cases h
  · next hshares =>
    cases h
    refine ⟨(StakeRecord.validate_eq_ok_iff _).2 ⟨hshares,
      show ¬(0 : Int64) < 0 by decide, hshares, by simp, rfl, rfl⟩, ?_⟩
    simp [StakeRecord.links]

/-- The record of a valid cell. -/
theorem within_record {cell : Cell} {record : StakeRecord Link} (h : cell.Within Cell.Valid held)
    (hvalue : cell.value = .peer record) : record.Within held := by
  refine ⟨(Value.validate_peer_iff record).1 (hvalue ▸ h.good), fun link hlink => ?_⟩
  refine h.links link (Cell.mem_everyLink_of_mem ?_)
  rw [Cell.links, hvalue]
  exact hlink

/-- The cell of a valid record. -/
theorem keeps_peer {record : StakeRecord Link} (h : record.Within held) :
    craft.law.Keeps held (fun _ => True) (liftM (Cell.make (.peer record)) : Attempt Cell)
      fun cell held' _ => craft.Owns held' cell :=
  craft.make (.peer record) (fun _ => (Value.validate_peer_iff record).2 h.valid) h.links

theorem keeps_linkAt {cell : Cell} (h : craft.Owns held cell) (index : Nat) :
    craft.law.Keeps held (fun _ => True) (liftM (cell.linkAt index) : Attempt Link)
      fun link held' _ => link ∈ held' := by
  unfold Cell.linkAt
  split
  · next link hlink =>
    exact .pure fun _ _ _ =>
      h.within.links link (Cell.mem_everyLink_of_mem (List.mem_of_getElem? hlink))
  · exact .throw _

/-- The memo of digests and encodings says nothing about links. -/
theorem keeps_note (hashed encoded : Std.TreeSet Label) :
    craft.law.Keeps held (fun _ => True)
      (liftM (modify fun known : Knowledge => { known with hashed, encoded } : Calc PUnit) :
        Attempt PUnit) fun _ _ _ => True :=
  (craft.notes fun _ => ⟨rfl, rfl, rfl⟩).mono_right fun _ _ _ _ => trivial

/-- What a request gives of items in use is in use. -/
theorem keeps_run {operation : Operation}
    (hresolves : ∀ link found, operation = .resolve link found → craft.Resolves)
    (h : ∀ item ∈ operation.arguments, craft.Has held item) :
    craft.law.Keeps held (fun _ => True) operation.run
      fun items held' _ => ∀ item ∈ items, craft.Has held' item := by
  cases operation with
  | integer n => exact keeps_plain rfl nofun rfl
  | address a => exact keeps_plain rfl nofun rfl
  | text s => exact keeps_plain rfl nofun rfl
  | blob bytes => exact keeps_plain rfl nofun rfl
  | keyword name => exact keeps_item .cell (keeps_makeKeyword name)
  | vector items =>
    exact keeps_item .cell (keeps_makeVector fun cell hcell => h _ (List.mem_map_of_mem hcell))
  | vectorOf items =>
    exact keeps_item .cell (keeps_vector fun link hlink => h _ (List.mem_map_of_mem hlink))
  | map bindings =>
    refine keeps_item .cell (keeps_makeMap fun binding hbinding => ⟨h (.cell binding.1) ?_,
      h (.cell binding.2) ?_⟩) <;>
    · exact List.mem_flatMap.2 ⟨binding, hbinding, by simp⟩
  | insert m key value =>
    exact keeps_item .cell (keeps_insert (h (.cell m) (by simp [arguments]))
      (h (.cell key) (by simp [arguments])) (h (.cell value) (by simp [arguments])))
  | erase m key => exact keeps_item .cell (keeps_erase (h (.cell m) (by simp [arguments])))
  | peer r => exact keeps_item .cell (keeps_peer (h (.record r) (by simp [arguments])))
  | report r =>
    refine keeps_item .cell (keeps_toCell (h (.cell r.code) (by simp [arguments])) fun c hc =>
      h (.cell c) ?_)
    simp [arguments, Option.mem_def.1 hc]
  | decode bytes =>
    exact keeps_item .cell (craft.decode bytes)
  | link target =>
    exact keeps_item .link (craft.link (h (.cell target) (by simp [arguments])))
  | soft digest => exact keeps_item .link (craft.soft digest)
  | child c index => exact keeps_item .link (keeps_linkAt (h (.cell c) (by simp [arguments])) index)
  | load l => exact keeps_item .cell (craft.load (h (.link l) (by simp [arguments])))
  | resolve l found =>
    exact keeps_item .cell (hresolves l found rfl (h (.link l) (by simp [arguments]))
      fun cell hcell => h (.cell cell) (by simp [arguments, Option.mem_def.1 hcell]))
  | create controller shares =>
    exact keeps_item .record (Law.Keeps.ofExcept.mono_right fun _ _ _ h => within_create h)
  | record c =>
    unfold run
    dsimp only
    split
    · next r hvalue =>
      refine .pure fun _ _ _ item hitem => ?_
      rw [List.mem_singleton.1 hitem]
      exact within_record (Craft.within craft (h (.cell c) (by simp [arguments]))) hvalue
    · exact .pure fun _ _ _ => nofun
  | update r change =>
    have hrecord : r.Within held := h (.record r) (by cases change <;> simp [arguments])
    refine keeps_item .record (keeps_update hrecord fun m hm => h (.cell m) ?_)
    simp [hm, arguments]
  | note hashed encoded =>
    exact (keeps_note hashed encoded).bind fun _ _ _ => .pure fun _ _ _ => nofun

/-- What a request gives of items that are valid is valid. -/
theorem keeps_run_valid {operation : Operation}
    (h : ∀ item ∈ operation.arguments, item.Within held) :
    (Knowledge.law Cell.Valid).Keeps held (fun _ => True) operation.run
      fun items held' _ => ∀ item ∈ items, item.Within held' :=
  (keeps_run (fun _ _ _ => Craft.valid_resolves)
    fun item hitem => Craft.has_valid.2 (h item hitem)).mono_right
    fun _ _ _ hitems item hitem => Craft.has_valid.1 (hitems item hitem)

end Operation

/-! ### Requests to a store -/

namespace StoreOperation

open Origin

variable {origin : Origin} {held : Set Link}

/-- A cell that is covered is valid. -/
theorem within_of_covers {cell : Cell} (h : cell.Within origin.Covers held) :
    cell.Within Cell.Valid held :=
  ⟨h.good.sound.valid, h.links⟩

theorem keeps_lookup (key : Digest) :
    origin.law.Keeps held (fun _ => True) (StoreAction.lookup key)
      fun found held' _ => ∀ cell ∈ found, cell.Within origin.Covers held' :=
  .lookup (fun held cell => cell.Within origin.Covers held) (fun h => h.mono) keeps_ofCalc
    ((keeps_get key).mono_right fun _ _ _ h cell hcell => (h cell hcell).1)

/-- What a request to a store gives is valid. -/
theorem keeps_run {operation : StoreOperation}
    (hcell : ∀ c, .cell c ∈ operation.arguments →
      c.Within origin.Covers held ∧ c.encode ∈ origin.encodings)
    (hlink : ∀ l, .link l ∈ operation.arguments →
      l ∈ held ∧ ∀ t, l.target? = some t → t.encode ∈ origin.encodings) :
    origin.law.Keeps held (fun _ => True) operation.run
      fun items held' _ => ∀ item ∈ items, item.Within held' := by
  cases operation with
  | make goal c =>
    obtain ⟨hwithin, hencoding⟩ := hcell c (List.mem_singleton_self _)
    refine (keeps_makeDurable goal.2 hwithin hencoding).bind fun link held' _ => .assume fun h =>
      .pure fun _ _ _ item hitem => ?_
    rw [List.mem_singleton.1 hitem]
    exact h
  | walk goal l =>
    obtain ⟨hheld, hencoding⟩ := hlink l (List.mem_singleton_self _)
    exact (keeps_walk goal.2 hheld hencoding).bind fun _ _ _ => .pure fun _ _ _ => nofun
  | get key =>
    exact .found (fun held cell => cell.Within origin.Covers held) within_of_covers
      ((keeps_get key).mono_right fun _ _ _ h cell hcell => (h cell hcell).1)
  | lookup key =>
    exact .found (fun held cell => cell.Within origin.Covers held) within_of_covers
      (keeps_lookup key)
  | resolve l =>
    refine (keeps_resolve (hlink l (List.mem_singleton_self _)).1).bind fun cell held' _ =>
      .pure fun _ _ h item hitem => ?_
    rw [List.mem_singleton.1 hitem]
    exact within_of_covers h.1.1

end StoreOperation

end CellGraph
