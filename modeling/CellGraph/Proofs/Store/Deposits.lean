import CellGraph.Proofs.Cell.Ascending
import CellGraph.Proofs.Store.Read

/-!
# Stores as what has been written to them

A store that was empty at first is determined by what has been written to it, in order: the entry of
a digest is the cell that was first written under it, with the greatest of the statuses with which
cells were written under it.

* `Store.put`, `Store.after`, `Store.trail`: one write, many of them, and the stores in between;
* `Store.Filed`: the digests under which a store has entries, in order;
* `Deposits.entry`, `Deposits.entry_eq_some_iff`: the entry that writes lead to;
* `Store.find?_after`, `Store.exists_filed_after`, `Store.keyed_after`: the entries of a store after
  some writes.
-/

namespace CellGraph

/-! ### Writing many cells -/

namespace Store

/-- The store after a cell has been written with a status. -/
def put (store : Store) (cell : Cell) (status : Status) : Store :=
  (store.insert cell cell.encode cell.digest status).2

/-- The store after cells have been written, each with a status. -/
def after (store : Store) (writes : List (Cell × Status)) : Store :=
  writes.foldl (fun store write => store.put write.1 write.2) store

/-- The store after each of some writes, the latest first. -/
def trail (store : Store) : List (Cell × Status) → List Store
  | [] => []
  | write :: rest => trail (store.put write.1 write.2) rest ++ [store.put write.1 write.2]

@[simp] theorem after_nil (store : Store) : store.after [] = store := rfl

theorem after_append (store : Store) (first rest : List (Cell × Status)) :
    store.after (first ++ rest) = (store.after first).after rest :=
  List.foldl_append ..

theorem trail_append (store : Store) (first rest : List (Cell × Status)) :
    store.trail (first ++ rest) = (store.after first).trail rest ++ store.trail first := by
  induction first generalizing store with
  | nil => exact (List.append_nil _).symm
  | cons write first ih =>
    rw [List.cons_append, trail, trail, ih, List.append_assoc]
    rfl

variable {store : Store}

theorem Legible.put (h : store.Legible) (cell : Cell) (status : Status) :
    (store.put cell status).Legible :=
  h.insert cell cell.encode cell.digest status

theorem Legible.find?_put (h : store.Legible) (cell : Cell) (status : Status) (key : Digest) :
    (store.put cell status).find? key =
      if cell.digest = key then
        some (match store.find? key with
          | some (encoding, previous) => (encoding, previous.max status)
          | none => (cell.encode, status))
      else store.find? key := by
  rw [Store.put, h.find?_insert]
  split
  · next heq =>
    subst heq
    rfl
  · rfl

end Store

/-! ### What writes lead to -/

namespace Deposits

/-- What becomes of the entry of a digest when a cell is written with a status. -/
def step (key : Digest) (entry : Option (Bytes × Status)) (write : Cell × Status) :
    Option (Bytes × Status) :=
  if write.1.digest = key then
    some (match entry with
      | some (encoding, previous) => (encoding, previous.max write.2)
      | none => (write.1.encode, write.2))
  else entry

/-- The entry of a digest after some writes to a store without entries. -/
def entry (writes : List (Cell × Status)) (key : Digest) : Option (Bytes × Status) :=
  writes.foldl (step key) none

/-- The statuses with which cells of this digest have been written. -/
def statuses (writes : List (Cell × Status)) (key : Digest) : Set Status :=
  { status | ∃ cell, (cell, status) ∈ writes ∧ cell.digest = key }

variable {writes : List (Cell × Status)} {key : Digest}

theorem statuses_concat (write : Cell × Status) :
    statuses (writes ++ [write]) key =
      if write.1.digest = key then insert write.2 (statuses writes key)
      else statuses writes key := by
  ext status
  split
  · next heq =>
    simp only [statuses, List.mem_append, List.mem_singleton, Set.mem_ofPred_eq, Set.mem_insert_iff]
    constructor
    · rintro ⟨cell, hmem | rfl, hdigest⟩
      · exact .inr ⟨cell, hmem, hdigest⟩
      · exact .inl rfl
    · rintro (rfl | ⟨cell, hmem, hdigest⟩)
      · exact ⟨write.1, .inr rfl, heq⟩
      · exact ⟨cell, .inl hmem, hdigest⟩
  · next hne =>
    simp only [statuses, List.mem_append, List.mem_singleton, Set.mem_ofPred_eq]
    constructor
    · rintro ⟨cell, hmem | rfl, hdigest⟩
      · exact ⟨cell, hmem, hdigest⟩
      · exact absurd hdigest hne
    · rintro ⟨cell, hmem, hdigest⟩
      exact ⟨cell, .inl hmem, hdigest⟩

/-- This is the cell that was first written under a digest. -/
def First (writes : List (Cell × Status)) (key : Digest) (cell : Cell) : Prop :=
  ∃ before status rest, writes = before ++ (cell, status) :: rest ∧ cell.digest = key ∧
    ∀ write ∈ before, write.1.digest ≠ key

theorem First.append {cell : Cell} (h : First writes key cell) (more : List (Cell × Status)) :
    First (writes ++ more) key cell := by
  obtain ⟨before, status, rest, rfl, hdigest, hbefore⟩ := h
  exact ⟨before, status, rest ++ more, by simp, hdigest, hbefore⟩

/--
There is no entry if nothing has been written under the digest; else the entry is the first cell,
with the greatest status.
-/
theorem entry_spec (writes : List (Cell × Status)) (key : Digest) :
    entry writes key = none ∧ (∀ write ∈ writes, write.1.digest ≠ key) ∨
      ∃ cell status, First writes key cell ∧ IsGreatest (statuses writes key) status ∧
        entry writes key = some (cell.encode, status) := by
  induction writes using List.reverseRecOn with
  | nil => exact .inl ⟨rfl, nofun⟩
  | append_singleton writes write ih =>
    have hentry : entry (writes ++ [write]) key = step key (entry writes key) write :=
      List.foldl_concat ..
    rw [hentry, statuses_concat]
    unfold step
    by_cases heq : write.1.digest = key
    · rw [if_pos heq, if_pos heq]
      rcases ih with ⟨hnone, hother⟩ | ⟨cell, status, hfirst, hgreatest, hsome⟩
      · have hempty : statuses writes key = ∅ :=
          Set.eq_empty_of_forall_notMem fun _ ⟨_, hmem, hdigest⟩ => hother _ hmem hdigest
        rw [hnone, hempty]
        refine .inr ⟨write.1, write.2, ⟨writes, write.2, [], rfl, heq, hother⟩, ?_, rfl⟩
        rw [insert_empty_eq]
        exact isGreatest_singleton
      · rw [hsome]
        refine .inr ⟨cell, _, hfirst.append [write], ?_, rfl⟩
        rw [Status.max_eq, max_comm]
        exact hgreatest.insert write.2
    · rw [if_neg heq, if_neg heq]
      rcases ih with ⟨hnone, hother⟩ | ⟨cell, status, hfirst, hgreatest, hsome⟩
      · refine .inl ⟨hnone, fun other hmem => ?_⟩
        rcases List.mem_append.1 hmem with hmem | hmem
        · exact hother other hmem
        · exact List.mem_singleton.1 hmem ▸ heq
      · exact .inr ⟨cell, status, hfirst.append [write], hgreatest, hsome⟩

end Deposits

/-! ### The entries of a store after some writes -/

namespace Store

variable {store : Store} {writes : List (Cell × Status)}

theorem Legible.after (h : store.Legible) (writes : List (Cell × Status)) :
    (store.after writes).Legible := by
  induction writes generalizing store with
  | nil => exact h
  | cons write rest ih => exact ih (h.put write.1 write.2)

theorem Legible.find?_after (h : store.Legible) (writes : List (Cell × Status)) (key : Digest) :
    (store.after writes).find? key = writes.foldl (Deposits.step key) (store.find? key) := by
  induction writes generalizing store with
  | nil => rfl
  | cons write rest ih =>
    have hput : (store.put write.1 write.2).find? key = Deposits.step key (store.find? key) write :=
      h.find?_put write.1 write.2 key
    rw [List.foldl_cons, ← hput]
    exact ih (h.put write.1 write.2)

/-- A store that is written to goes on having what it had. -/
theorem Legible.grows_after (h : store.Legible) (writes : List (Cell × Status)) :
    store.Grows (store.after writes) := by
  induction writes generalizing store with
  | nil => exact .refl store
  | cons write rest ih =>
    exact (h.grows_insert write.1 write.1.digest write.2).trans (ih (h.put write.1 write.2))

/-- A store in which sound cells have been written can be read. -/
theorem keyed_after (h : store.Legible) (hempty : ∀ key, store.find? key = none)
    (hsound : ∀ write ∈ writes, write.1.Sound) : (store.after writes).Keyed := by
  have hentry : ∀ key encoding status,
      (store.after writes).find? key = some (encoding, status) →
        ∃ cell, Deposits.First writes key cell ∧ cell.encode = encoding := by
    intro key encoding status hfind
    rw [h.find?_after, hempty] at hfind
    obtain ⟨hnone, -⟩ | ⟨cell, greatest, hfirst, -, hsome⟩ := Deposits.entry_spec writes key
    · cases hnone.symm.trans hfind
    · cases hsome.symm.trans hfind
      exact ⟨cell, hfirst, rfl⟩
  refine ⟨fun key encoding status hfind => ?_, fun key encoding status hfind => ?_, h.after writes⟩
  · obtain ⟨cell, ⟨_, _, _, -, hdigest, -⟩, rfl⟩ := hentry key encoding status hfind
    exact hdigest.symm
  · obtain ⟨cell, ⟨before, first, rest, rfl, -, -⟩, hencode⟩ := hentry key encoding status hfind
    exact ⟨cell, hsound (cell, first) (by simp), hencode⟩

/-- The entries of a store are under these digests. -/
def Filed : Store → List Digest → Prop
  | memory entries, digests => entries.map Prod.fst = digests
  | table rows, digests => rows.map Prod.fst = digests.map Digest.bytes

theorem Filed.digests_eq {digests : List Digest} (h : store.Filed digests) :
    store.digests = .ok digests := by
  cases store with
  | memory entries => exact congrArg Except.ok h
  | table rows =>
    rw [Store.digests]
    induction digests generalizing rows with
    | nil =>
      rw [List.map_eq_nil_iff.1 h]
      rfl
    | cons digest digests ih =>
      obtain ⟨row, rest, rfl, hrow, hrest⟩ := List.map_eq_cons_iff.1 h
      rw [List.mapM_cons, hrow, Digest.ofBytes?_bytes]
      dsimp only
      rw [ih rest hrest]
      rfl

theorem Filed.count_eq {digests : List Digest} (h : store.Filed digests) :
    store.count = digests.length := by
  cases store with
  | memory entries => exact (List.length_map ..).symm.trans (congrArg List.length h)
  | table rows =>
    exact (List.length_map ..).symm.trans ((congrArg List.length h).trans (List.length_map ..))

/-- A digest in its place among others. -/
def insertDigest (key : Digest) : List Digest → List Digest
  | [] => [key]
  | digest :: rest =>
    if key < digest then key :: digest :: rest else digest :: insertDigest key rest

theorem mem_insertDigest {key other : Digest} {digests : List Digest} :
    other ∈ insertDigest key digests ↔ other = key ∨ other ∈ digests := by
  induction digests with
  | nil => simp [insertDigest]
  | cons digest rest ih =>
    rw [insertDigest]
    split
    · simp
    · simp [ih, or_left_comm]

theorem pairwise_insertDigest {key : Digest} {digests : List Digest}
    (h : digests.Pairwise (· < ·)) (hnot : key ∉ digests) :
    (insertDigest key digests).Pairwise (· < ·) := by
  induction digests with
  | nil => exact List.pairwise_singleton ..
  | cons digest rest ih =>
    obtain ⟨hless, hrest⟩ := List.pairwise_cons.1 h
    rw [insertDigest]
    split
    · next hlt =>
      refine List.pairwise_cons.2 ⟨fun other hother => ?_, h⟩
      rcases List.mem_cons.1 hother with rfl | hother
      · exact hlt
      · exact Digest.lt_trans hlt (hless other hother)
    · next hnlt =>
      refine List.pairwise_cons.2 ⟨fun other hother => ?_,
        ih hrest fun hmem => hnot (List.mem_cons_of_mem _ hmem)⟩
      rcases mem_insertDigest.1 hother with rfl | hother
      · exact Digest.lt_of_not_lt hnlt fun heq => hnot (heq ▸ List.mem_cons_self ..)
      · exact hless other hother

section

variable {κ α : Type} [BEq κ] [LawfulBEq κ] {f : Digest → κ} {index : Index κ α}
  {digests : List Digest} {key : Digest}

/-- A digest has an entry if it is one of the keys. -/
theorem isSome_find?_iff (hf : Function.Injective f) (h : index.map Prod.fst = digests.map f) :
    (Index.find? (f key) index).isSome ↔ key ∈ digests := by
  induction index generalizing digests with
  | nil =>
    rw [List.map_eq_nil_iff.1 (List.map_nil.symm.trans h).symm]
    simp [Index.find?]
  | cons entry rest ih =>
    obtain ⟨digest, digests, rfl, hdigest, hrest⟩ := List.map_eq_cons_iff.1 h.symm
    rw [Index.find?, ← hdigest]
    by_cases heq : digest = key
    · simp [heq]
    · rw [if_neg (by simpa using hf.ne heq), ih hrest.symm]
      simp [Ne.symm heq]

omit [LawfulBEq κ] in
theorem map_fst_update (k : κ) (change : α → α) :
    (Index.update k change index).map Prod.fst = index.map Prod.fst := by
  induction index with
  | nil => rfl
  | cons entry rest ih =>
    rw [Index.update]
    split
    · rfl
    · rw [List.map_cons, List.map_cons, ih]

theorem map_fst_insert [LT κ] [DecidableLT κ] (hf : Function.Injective f)
    (hlt : ∀ a b : Digest, f a < f b ↔ a < b) (h : index.map Prod.fst = digests.map f)
    (hnot : key ∉ digests) (value : α) :
    (Index.insert (f key) value index).map Prod.fst = (insertDigest key digests).map f := by
  induction index generalizing digests with
  | nil =>
    rw [List.map_eq_nil_iff.1 (List.map_nil.symm.trans h).symm]
    rfl
  | cons entry rest ih =>
    obtain ⟨digest, digests, rfl, hdigest, hrest⟩ := List.map_eq_cons_iff.1 h.symm
    have hne : ¬(f key == f digest) := fun heq =>
      hnot (hf (beq_iff_eq.1 heq) ▸ List.mem_cons_self ..)
    rw [Index.insert, insertDigest, ← hdigest, if_neg hne]
    simp only [hlt]
    split
    · simp [hrest, hdigest]
    · rw [List.map_cons, List.map_cons,
        ih hrest.symm fun hmem => hnot (List.mem_cons_of_mem _ hmem)]

end

/-- Writing keeps the digests in order, and adds the one that was written. -/
theorem Legible.exists_filed_put (h : store.Legible) {digests : List Digest}
    (hfiled : store.Filed digests) (hascending : digests.Pairwise (· < ·)) (cell : Cell)
    (status : Status) :
    ∃ digests', (store.put cell status).Filed digests' ∧ digests'.Pairwise (· < ·) ∧
      ∀ key, key ∈ digests' ↔ key ∈ digests ∨ cell.digest = key := by
  have hmem : cell.digest ∈ digests →
      ∀ key, key ∈ digests ↔ key ∈ digests ∨ cell.digest = key := by
    rintro hmem key
    exact ⟨.inl, fun hor => hor.elim id fun heq => heq ▸ hmem⟩
  have hinsert : ∀ key, key ∈ insertDigest cell.digest digests ↔
      key ∈ digests ∨ cell.digest = key := fun key => by
    rw [mem_insertDigest, or_comm, eq_comm]
  cases store with
  | memory entries =>
    have hfind : (Index.find? (id cell.digest) entries).isSome ↔ cell.digest ∈ digests :=
      isSome_find?_iff Function.injective_id (hfiled.trans (List.map_id digests).symm)
    rw [Store.put, Store.insert]
    cases hentry : Index.find? cell.digest entries with
    | some entry =>
      rw [id, hentry] at hfind
      exact ⟨digests, (map_fst_update ..).trans hfiled, hascending, hmem (hfind.1 rfl)⟩
    | none =>
      rw [id, hentry] at hfind
      have hnot : cell.digest ∉ digests := fun hmem => by simpa using hfind.2 hmem
      refine ⟨_, ?_, pairwise_insertDigest hascending hnot, hinsert⟩
      exact (map_fst_insert Function.injective_id (fun _ _ => Iff.rfl)
        (hfiled.trans (List.map_id digests).symm) hnot _).trans (List.map_id _)
  | table rows =>
    have hbytes : Function.Injective Digest.bytes := fun _ _ => Digest.ext
    have hfind : (Index.find? cell.digest.bytes rows).isSome ↔ cell.digest ∈ digests :=
      isSome_find?_iff hbytes hfiled
    rw [Store.put, Store.insert]
    cases hrow : Index.find? cell.digest.bytes rows with
    | some row =>
      obtain ⟨previous, hprevious⟩ := h rows _ row rfl hrow
      rw [hrow] at hfind
      simp only [hprevious, parseStatus_toNat]
      exact ⟨digests, (map_fst_update ..).trans hfiled, hascending, hmem (hfind.1 rfl)⟩
    | none =>
      rw [hrow] at hfind
      have hnot : cell.digest ∉ digests := fun hmem => by simpa using hfind.2 hmem
      exact ⟨_, map_fst_insert hbytes (fun _ _ => Iff.rfl) hfiled hnot _,
        pairwise_insertDigest hascending hnot, hinsert⟩

/-- The digests of a store after some writes are those written, in order. -/
theorem Legible.exists_filed_after (h : store.Legible) {digests : List Digest}
    (hfiled : store.Filed digests) (hascending : digests.Pairwise (· < ·))
    (writes : List (Cell × Status)) :
    ∃ digests', (store.after writes).Filed digests' ∧ digests'.Pairwise (· < ·) ∧
      ∀ key, key ∈ digests' ↔ key ∈ digests ∨ ∃ write ∈ writes, write.1.digest = key := by
  induction writes generalizing store digests with
  | nil => exact ⟨digests, hfiled, hascending, by simp⟩
  | cons write rest ih =>
    obtain ⟨first, hfirst, hfirstAscending, hmem⟩ :=
      h.exists_filed_put hfiled hascending write.1 write.2
    obtain ⟨all, hall, hallAscending, hmem'⟩ := ih (h.put write.1 write.2) hfirst hfirstAscending
    refine ⟨all, hall, hallAscending, fun key => ?_⟩
    rw [hmem', hmem, List.exists_mem_cons_iff, or_assoc]

end Store

end CellGraph
