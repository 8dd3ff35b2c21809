import CellGraph.Proofs.Cell.Named
import CellGraph.Proofs.Knowledge.Coherent
import CellGraph.Store.Walk

/-!
# The entries of a store

Both kinds of store are seen alike: as a partial function from digests to encodings with statuses.

* `Store.find?`, `Store.Remembers`: what a store holds;
* `Store.Legible`, `Store.Keyed`: stores that can be read;
* `Store.Sound`: stores in which every entry is a sound cell under its digest;
* `Store.Grows`: how stores move on;
* `Store.Legible.insert_fst`, `Store.Legible.find?_insert`, `Store.Sound.insert`: writing.
-/

namespace CellGraph.Store

/-- The encoding and the status of an entry. -/
def find? (store : Store) (key : Digest) : Option (Bytes × Status) :=
  match store with
  | memory entries => (Index.find? key entries).map fun entry => (entry.1.encode, entry.2)
  | table rows =>
    match Index.find? key.bytes rows with
    | some row =>
      match parseStatus key row.status with
      | .ok status => some (row.encoding, status)
      | .error _ => none
    | none => none

/-- A memory store gives back the cells that were written. -/
def Remembers : Store → Cell → Prop
  | memory entries, cell => ∃ key status, Index.find? key entries = some (cell, status)
  | table _, _ => False

/--
Every entry is a sound cell under its digest, and is stored. The statuses of rows can be read.
-/
structure Sound (store : Store) : Prop where
  key : ∀ key encoding status, store.find? key = some (encoding, status) → key = Digest.of encoding
  cell : ∀ key encoding status, store.find? key = some (encoding, status) →
    ∃ cell : Cell, cell.Sound ∧ cell.encode = encoding
  stored : ∀ key encoding status, store.find? key = some (encoding, status) → .stored ≤ status
  row : ∀ rows key row, store = .table rows → Index.find? key rows = some row →
    ∃ status : Status, row.status = status.toNat

/-- The statuses of rows can be read. -/
def Legible (store : Store) : Prop :=
  ∀ rows key row, store = .table rows → Index.find? key rows = some row →
    ∃ status : Status, row.status = status.toNat

/-- Every entry is a sound cell under its digest, and the statuses of rows can be read. -/
structure Keyed (store : Store) : Prop where
  key : ∀ key encoding status, store.find? key = some (encoding, status) → key = Digest.of encoding
  cell : ∀ key encoding status, store.find? key = some (encoding, status) →
    ∃ cell : Cell, cell.Sound ∧ cell.encode = encoding
  legible : store.Legible

theorem Sound.legible {store : Store} (h : store.Sound) : store.Legible := h.row

theorem Sound.keyed {store : Store} (h : store.Sound) : store.Keyed := ⟨h.key, h.cell, h.row⟩

/-- Entries stay, their statuses only rise, and cells are remembered. -/
structure Grows (store store' : Store) : Prop where
  entry : ∀ key encoding status, store.find? key = some (encoding, status) →
    ∃ status', status ≤ status' ∧ store'.find? key = some (encoding, status')
  remembers : ∀ cell, store.Remembers cell → store'.Remembers cell

theorem Grows.refl (store : Store) : store.Grows store :=
  ⟨fun _ _ status h => ⟨status, le_rfl, h⟩, fun _ h => h⟩

theorem Grows.trans {a b c : Store} (h : a.Grows b) (h' : b.Grows c) : a.Grows c := by
  refine ⟨fun key encoding status hentry => ?_,
    fun cell hcell => h'.remembers cell (h.remembers cell hcell)⟩
  obtain ⟨status', hle, hentry⟩ := h.entry key encoding status hentry
  obtain ⟨status'', hle', hentry⟩ := h'.entry key encoding status' hentry
  exact ⟨status'', hle.trans hle', hentry⟩

theorem sound_empty {store : Store} (h : store = emptyMemory ∨ store = emptyTable) :
    store.Sound := by
  have hentry : ∀ key, store.find? key = none := by
    rcases h with rfl | rfl <;> exact fun _ => rfl
  refine ⟨fun key _ _ h => ?_, fun key _ _ h => ?_, fun key _ _ h => ?_,
    fun rows key row h' hrow => ?_⟩
  · rw [hentry] at h
    cases h
  · rw [hentry] at h
    cases h
  · rw [hentry] at h
    cases h
  · rcases h with rfl | rfl <;> cases h'
    cases hrow

@[simp] theorem parseStatus_toNat (key : Digest) (status : Status) :
    parseStatus key status.toNat = .ok status := by
  cases status <;> rfl

variable {store : Store} {cell : Cell} {key : Digest} {status : Status}

/-- The status of an entry can be asked for. -/
theorem Legible.status?_eq (h : store.Legible) (key : Digest) :
    store.status? key = .ok ((store.find? key).map Prod.snd) := by
  cases store with
  | memory entries =>
    rw [status?, find?, Option.map_map]
    rfl
  | table rows =>
    rw [status?, find?]
    cases hrow : Index.find? key.bytes rows with
    | none => rfl
    | some row =>
      obtain ⟨status, hstatus⟩ := h rows key.bytes row rfl hrow
      simp only [hstatus, parseStatus_toNat]
      rfl

/-- Writing gives the status that the entry had before. -/
theorem Legible.insert_fst (h : store.Legible) (cell : Cell) (encoding : Bytes) (key : Digest)
    (status : Status) :
    (store.insert cell encoding key status).1 = .ok ((store.find? key).map Prod.snd) := by
  cases store with
  | memory entries =>
    rw [insert, find?]
    cases Index.find? key entries <;> rfl
  | table rows =>
    rw [insert, find?]
    cases hrow : Index.find? key.bytes rows with
    | none => rfl
    | some row =>
      obtain ⟨previous, hprevious⟩ := h rows key.bytes row rfl hrow
      simp only [hprevious, parseStatus_toNat]
      rfl

/-- Writing raises the status of an entry, or makes a new one. -/
theorem Legible.find?_insert (h : store.Legible) (cell : Cell) (key : Digest) (status : Status)
    (other : Digest) :
    (store.insert cell cell.encode key status).2.find? other =
      if key = other then
        some (match store.find? key with
          | some (encoding, previous) => (encoding, previous.max status)
          | none => (cell.encode, status))
      else store.find? other := by
  cases store with
  | memory entries =>
    cases hfind : Index.find? key entries with
    | none =>
      simp only [insert, find?, hfind, Index.find?_insert, beq_iff_eq]
      split <;> rfl
    | some entry =>
      obtain ⟨held, previous⟩ := entry
      simp only [insert, find?, hfind, Index.find?_update, beq_iff_eq]
      split
      · next heq =>
        subst heq
        rw [hfind]
        rfl
      · rfl
  | table rows =>
    -- Rows are filed under the bytes of digests, which tell digests apart.
    have hbytes : key.bytes = other.bytes ↔ key = other :=
      ⟨Digest.ext, congrArg Digest.bytes⟩
    cases hrow : Index.find? key.bytes rows with
    | none =>
      simp only [insert, find?, hrow, Index.find?_insert, beq_iff_eq, hbytes]
      by_cases heq : key = other
      · simp [heq]
      · simp only [if_neg heq]
    | some row =>
      obtain ⟨previous, hprevious⟩ := h rows key.bytes row rfl hrow
      simp only [insert, find?, hrow, hprevious, parseStatus_toNat, Index.find?_update, beq_iff_eq,
        hbytes]
      by_cases heq : key = other
      · subst heq
        simp [hrow]
      · simp only [if_neg heq]

/--
An entry after writing was there before, with the same encoding, or is the one that was written.
-/
theorem Legible.of_find?_insert (h : store.Legible) {other : Digest} {encoding : Bytes}
    {held : Status}
    (hentry : (store.insert cell cell.encode key status).2.find? other = some (encoding, held)) :
    (∃ previous, store.find? other = some (encoding, previous) ∧
        (held = previous ∨ key = other ∧ held = previous.max status)) ∨
      key = other ∧ store.find? other = none ∧ encoding = cell.encode ∧ held = status := by
  rw [h.find?_insert] at hentry
  split at hentry
  · next heq =>
    subst heq
    cases hfind : store.find? key with
    | none =>
      rw [hfind] at hentry
      cases hentry
      exact .inr ⟨rfl, rfl, rfl, rfl⟩
    | some entry =>
      rw [hfind] at hentry
      cases hentry
      exact .inl ⟨entry.2, rfl, .inr ⟨rfl, rfl⟩⟩
  · exact .inl ⟨held, hentry, .inl rfl⟩

/-- What was written has an entry with at least the status with which it was written. -/
theorem Legible.find?_insert_self (h : store.Legible) (cell : Cell) (key : Digest) (status : Status) :
    ∃ encoding held, status ≤ held ∧
      (store.insert cell cell.encode key status).2.find? key = some (encoding, held) := by
  rw [h.find?_insert, if_pos rfl]
  cases store.find? key with
  | none => exact ⟨_, _, le_rfl, rfl⟩
  | some entry =>
    refine ⟨_, _, ?_, rfl⟩
    rw [Status.max_eq]
    exact le_max_right _ _

/-- A memory store remembers the cell that was written, or goes on remembering what it did. -/
theorem remembers_insert {other : Cell}
    (h : (store.insert cell cell.encode key status).2.Remembers other) :
    store.Remembers other ∨ other = cell := by
  cases store with
  | memory entries =>
    cases hfind : Index.find? key entries with
    | none =>
      simp only [insert, hfind, Remembers, Index.find?_insert] at h
      obtain ⟨k, held, h⟩ := h
      split at h
      · cases h
        exact .inr rfl
      · exact .inl ⟨k, held, h⟩
    | some entry =>
      simp only [insert, hfind, Remembers, Index.find?_update] at h
      obtain ⟨k, held, h⟩ := h
      split at h
      · obtain ⟨entry, hentry, heq⟩ := Option.map_eq_some_iff.1 h
        cases heq
        exact .inl ⟨k, entry.2, hentry⟩
      · exact .inl ⟨k, held, h⟩
  | table rows =>
    cases hrow : Index.find? key.bytes rows with
    | none =>
      simp only [insert, hrow] at h
      exact h.elim
    | some row =>
      simp only [insert, hrow] at h
      split at h <;> exact h.elim

/-- A memory store goes on remembering what it did. -/
theorem Remembers.insert {other : Cell} (h : store.Remembers other) (cell : Cell) (key : Digest)
    (status : Status) : (store.insert cell cell.encode key status).2.Remembers other := by
  cases store with
  | table => exact h.elim
  | memory entries =>
    obtain ⟨k, held, h⟩ := h
    cases hfind : Index.find? key entries with
    | none =>
      -- The entry that is remembered has another key than the new one.
      have hne : ¬(key == k) := by
        intro heq
        rw [beq_iff_eq.1 heq, h] at hfind
        cases hfind
      simp only [Store.insert, hfind]
      exact ⟨k, held, by rw [Index.find?_insert, if_neg hne, h]⟩
    | some entry =>
      simp only [Store.insert, hfind, Remembers, Index.find?_update]
      by_cases heq : key == k
      · exact ⟨k, entry.2.max status, by rw [if_pos heq, h]; rfl⟩
      · exact ⟨k, held, by rw [if_neg heq, h]⟩

/-- A store that is written to goes on having what it had. -/
theorem Legible.grows_insert (h : store.Legible) (cell : Cell) (key : Digest) (status : Status) :
    store.Grows (store.insert cell cell.encode key status).2 := by
  constructor
  · intro other encoding held hentry
    rw [h.find?_insert]
    split
    · next heq =>
      subst heq
      rw [hentry]
      refine ⟨_, ?_, rfl⟩
      rw [Status.max_eq]
      exact le_max_left _ _
    · exact ⟨held, le_rfl, hentry⟩
  · exact fun other hother => hother.insert cell key status

/-- The statuses of all rows can be read after one was written. -/
theorem Legible.insert (h : store.Legible) (cell : Cell) (encoding : Bytes) (key : Digest)
    (status : Status) : (store.insert cell encoding key status).2.Legible := by
  intro rows k row hrows hrow
  cases store with
  | memory entries =>
    simp only [Store.insert] at hrows
    split at hrows <;> cases hrows
  | table rows =>
    cases hfind : Index.find? key.bytes rows with
    | none =>
      simp only [Store.insert, hfind] at hrows
      cases hrows
      rw [Index.find?_insert] at hrow
      split at hrow
      · cases hrow
        exact ⟨status, rfl⟩
      · exact h rows k row rfl hrow
    | some old =>
      obtain ⟨previous, hprevious⟩ := h rows key.bytes old rfl hfind
      simp only [Store.insert, hfind, hprevious, parseStatus_toNat] at hrows
      cases hrows
      rw [Index.find?_update] at hrow
      split at hrow
      · obtain ⟨row', -, rfl⟩ := Option.map_eq_some_iff.1 hrow
        exact ⟨previous.max status, rfl⟩
      · exact h rows k row rfl hrow

theorem Sound.insert (h : store.Sound) (hcell : cell.Sound) (hkey : key = Digest.of cell.encode)
    (hstatus : .stored ≤ status) : (store.insert cell cell.encode key status).2.Sound := by
  constructor
  · intro other encoding held hentry
    rcases h.legible.of_find?_insert hentry with ⟨previous, hprevious, -⟩ | ⟨rfl, -, rfl, -⟩
    · exact h.key other encoding previous hprevious
    · exact hkey
  · intro other encoding held hentry
    rcases h.legible.of_find?_insert hentry with ⟨previous, hprevious, -⟩ | ⟨rfl, -, rfl, -⟩
    · exact h.cell other encoding previous hprevious
    · exact ⟨cell, hcell, rfl⟩
  · intro other encoding held hentry
    rcases h.legible.of_find?_insert hentry with
      ⟨previous, hprevious, rfl | ⟨-, rfl⟩⟩ | ⟨rfl, -, -, rfl⟩
    · exact h.stored other encoding held hprevious
    · rw [Status.max_eq]
      exact le_max_of_le_left (h.stored other encoding previous hprevious)
    · exact hstatus
  · exact h.legible.insert cell cell.encode key status

end CellGraph.Store
