import CellGraph.Proofs.Stake.Delegations

/-!
# Ordered entries

A digest has one place among entries whose keys ascend: the keys before it are below it, and those
after it above it. Looking up, binding and removing a key are all done at that place, so whoever finds
it, by whatever search, comes to the same entries. Entries in order are determined by what is found
among them.

* `Index.eq_of_find?`: ascending indexes that give the same are the same;
* `Entry.Place`: the place of a digest, with `Entry.Place.find?_eq`, `Entry.Place.insert_eq` and
  `Entry.Place.erase_eq`;
* `Entry.find?_ofBindings`: what is found among entries that were inserted one by one;
* `Entry.written_eq`: entries that give the same are written alike.
-/

namespace CellGraph

/-! ### What is found determines an index -/

namespace Index

variable {κ α : Type} [BEq κ] [LawfulBEq κ] {r : κ → κ → Prop} [Std.Asymm r]

/-- A key that is bound at one place only has what is bound there. -/
theorem find?_eq_some_iff {index : Index κ α} (h : index.Pairwise fun a b => r a.1 b.1) (key : κ)
    (a : α) : index.find? key = some a ↔ (key, a) ∈ index := by
  induction index with
  | nil => simp [find?]
  | cons row rest ih =>
    obtain ⟨first, b⟩ := row
    obtain ⟨hfirst, hrest⟩ := List.pairwise_cons.1 h
    rw [find?, List.mem_cons]
    by_cases hkey : first = key
    · subst hkey
      have hnot : (first, a) ∉ rest := fun hmem => by
        have hself : r first first := hfirst _ hmem
        exact Std.Asymm.asymm _ _ hself hself
      simp [hnot, eq_comm]
    · have hne : (key, a) ≠ (first, b) := fun heq => hkey (congrArg Prod.fst heq).symm
      simp [hkey, hne, ih hrest]

/-- Two indexes in order that give the same for every key are the same. -/
theorem eq_of_find? {first second : Index κ α} (hfirst : first.Pairwise fun a b => r a.1 b.1)
    (hsecond : second.Pairwise fun a b => r a.1 b.1)
    (h : ∀ key, first.find? key = second.find? key) : first = second := by
  have hnodup : ∀ {index : Index κ α}, (index.Pairwise fun a b => r a.1 b.1) → index.Nodup := by
    intro index hindex
    refine hindex.imp ?_
    rintro a _ hself rfl
    exact Std.Asymm.asymm _ _ hself hself
  have hperm : first.Perm second := by
    refine (List.perm_ext_iff_of_nodup (hnodup hfirst) (hnodup hsecond)).2 fun ⟨key, a⟩ => ?_
    rw [← find?_eq_some_iff hfirst, ← find?_eq_some_iff hsecond, h key]
  refine hperm.eq_of_pairwise (fun a b _ _ hab hba => ?_) hfirst hsecond
  exact absurd hba (Std.Asymm.asymm _ _ hab)

end Index

/-- No digest is below itself. -/
theorem Digest.lt_irrefl (digest : Digest) : ¬digest < digest :=
  fun h => Std.Asymm.asymm (r := fun a b : Digest => a < b) _ _ h h

namespace Entry

variable {digest other : Digest} {new : Entry} {entries before after : List Entry}
  {old : Option Entry}

/-! ### The place of a digest -/

/--
The place of a digest among entries: the entry of its key, if there is one, stands between those whose
keys are below it and those whose keys are above it.
-/
structure Place (digest : Digest) (entries before : List Entry) (old : Option Entry)
    (after : List Entry) : Prop where
  entries : entries = before ++ old.toList ++ after
  below : ∀ entry ∈ before, entry.1.digest < digest
  key : ∀ entry ∈ old, entry.1.digest = digest
  above : ∀ entry ∈ after, digest < entry.1.digest

/-- Among ascending entries every digest has its place. -/
theorem Ascending.exists_place (h : Ascending entries) (digest : Digest) :
    ∃ before old after, Place digest entries before old after := by
  induction entries with
  | nil => exact ⟨[], none, [], rfl, nofun, nofun, nofun⟩
  | cons first rest ih =>
    obtain ⟨hfirst, hrest⟩ := List.pairwise_cons.1 h
    by_cases hbelow : first.1.digest < digest
    · -- The place is further on.
      obtain ⟨before, old, after, hentries, hbefore, hkey, hafter⟩ := ih hrest
      exact ⟨first :: before, old, after, congrArg (first :: ·) hentries,
        List.forall_mem_cons.2 ⟨hbelow, hbefore⟩, hkey, hafter⟩
    · by_cases hkey : first.1.digest = digest
      · refine ⟨[], some first, rest, rfl, nofun, ?_, fun entry hentry => ?_⟩
        · rintro _ ⟨⟩
          exact hkey
        · exact hkey ▸ hfirst entry hentry
      · have habove : digest < first.1.digest := Digest.lt_of_not_lt hbelow hkey
        refine ⟨[], none, first :: rest, rfl, nofun, nofun, ?_⟩
        exact List.forall_mem_cons.2
          ⟨habove, fun entry hentry => Digest.lt_trans habove (hfirst entry hentry)⟩

namespace Place

variable (h : Place digest entries before old after)

include h

theorem ne_of_mem_before {entry : Entry} (hentry : entry ∈ before) : entry.1.digest ≠ digest := by
  rintro rfl
  exact Digest.lt_irrefl _ (h.below entry hentry)

theorem ne_of_mem_after {entry : Entry} (hentry : entry ∈ after) : entry.1.digest ≠ digest := by
  rintro rfl
  exact Digest.lt_irrefl _ (h.above entry hentry)

theorem find?_eq : find? digest entries = old := by
  have hbefore : before.find? (fun entry => entry.1.digest = digest) = none :=
    List.find?_eq_none.2 fun entry hentry => by simpa using h.ne_of_mem_before hentry
  have hafter : after.find? (fun entry => entry.1.digest = digest) = none :=
    List.find?_eq_none.2 fun entry hentry => by simpa using h.ne_of_mem_after hentry
  rw [Entry.find?, h.entries, List.find?_append, List.find?_append, hbefore, hafter]
  cases old with
  | none => rfl
  | some entry => simp [h.key entry rfl]

theorem erase_eq : erase digest entries = before ++ after := by
  have hbefore : ∀ entry ∈ before, ¬decide (entry.1.digest = digest) = true :=
    fun entry hentry => by simpa using h.ne_of_mem_before hentry
  have hafter : ∀ entry ∈ after, ¬decide (entry.1.digest = digest) = true :=
    fun entry hentry => by simpa using h.ne_of_mem_after hentry
  rw [erase, h.entries, List.append_assoc, List.eraseP_append_right _ hbefore]
  cases old with
  | none => rw [Option.toList_none, List.nil_append, List.eraseP_of_forall_not hafter]
  | some entry => simp [h.key entry rfl]

theorem insert_eq : insert digest new entries = before ++ new :: after := by
  obtain ⟨rfl, hbelow, hkey, habove⟩ := h
  induction before with
  | nil =>
    cases old with
    | none =>
      cases after with
      | nil => rfl
      | cons first rest => simp [insert, habove first (List.mem_cons_self ..)]
    | some entry =>
      simp [insert, hkey entry rfl, Digest.lt_irrefl]
  | cons first rest ih =>
    obtain ⟨hfirst, hrest⟩ := List.forall_mem_cons.1 hbelow
    have hnot : ¬digest < first.1.digest := fun hlt =>
      Digest.lt_irrefl _ (Digest.lt_trans hlt hfirst)
    have hne : digest ≠ first.1.digest := by
      rintro rfl
      exact Digest.lt_irrefl _ hfirst
    have hinsert := ih hrest
    rw [List.append_assoc] at hinsert
    simp [insert, hnot, hne, hinsert]

/-- An entry that was inserted stands at the place. -/
theorem inserted (hnew : new.1.digest = digest) :
    Place digest (insert digest new entries) before (some new) after := by
  refine ⟨by simp [h.insert_eq], h.below, ?_, h.above⟩
  rintro _ ⟨⟩
  exact hnew

/-- There is no entry at the place from which it was erased. -/
theorem erased : Place digest (erase digest entries) before none after :=
  ⟨by simp [h.erase_eq], h.below, nofun, h.above⟩

theorem length_eq : entries.length = before.length + old.toList.length + after.length := by
  rw [h.entries, List.length_append, List.length_append]

end Place

/-! ### Lookups after a change -/

theorem find?_insert (hnew : new.1.digest = digest) (entries : List Entry) (other : Digest) :
    find? other (insert digest new entries) =
      if digest = other then some new else find? other entries := by
  subst hnew
  rw [← find?_index, index_insert, Index.find?_insert, find?_index]
  simp

theorem find?_erase (h : Ascending entries) (digest other : Digest) :
    find? other (erase digest entries) = if digest = other then none else find? other entries := by
  by_cases hsame : digest = other
  · subst hsame
    obtain ⟨before, old, after, hplace⟩ := h.exists_place digest
    rw [if_pos rfl, hplace.erased.find?_eq]
  · rw [if_neg hsame, ← find?_index, index_erase, Index.find?_erase_of_ne hsame, find?_index]

/-- Among entries that were inserted one by one, the last one of each key is found. -/
theorem find?_ofBindings (entries : List Entry) (digest : Digest) :
    find? digest (ofIndex (Index.ofList (index entries))) =
      entries.reverse.find? fun entry => entry.1.digest = digest := by
  rw [ofIndex_ofList]
  induction entries using List.reverseRecOn with
  | nil => rfl
  | append_singleton rest last ih =>
    rw [List.foldl_append, List.foldl_cons, List.foldl_nil, find?_insert rfl, List.reverse_append,
      List.reverse_singleton, List.singleton_append, List.find?_cons, ih]
    by_cases hlast : last.1.digest = digest
    · simp [hlast]
    · simp [hlast]

/-! ### Written forms -/

/-- The written forms of an entry. -/
def written (entry : Entry) : Bytes × Bytes := (entry.1.written, entry.2.written)

/-- Entries in order, for each digest written alike, are written alike. -/
theorem written_eq {others : List Entry} (h : Ascending entries) (h' : Ascending others)
    (hfind : ∀ digest, (find? digest entries).map written = (find? digest others).map written) :
    entries.map written = others.map written := by
  have hordered : ∀ {list : List Entry}, Ascending list →
      ((index list).mapValues written).Pairwise fun a b => a.1 < b.1 := fun hlist => by
    simpa [Index.mapValues, index, List.pairwise_map, Ascending] using hlist
  have hindex : (index entries).mapValues written = (index others).mapValues written :=
    Index.eq_of_find? (hordered h) (hordered h') fun digest => by
      rw [Index.find?_mapValues, Index.find?_mapValues, find?_index, find?_index, hfind digest]
  simpa [Index.mapValues, index, Function.comp_def] using congrArg (List.map Prod.snd) hindex

end Entry

end CellGraph
