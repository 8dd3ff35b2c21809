import CellGraph.Cell.Canonical
import CellGraph.Cell.Map

/-!
# Maps stay in order

The entries of a map ascend strictly by the digests of their keys. Every operation on maps keeps
them so.

* `ascending_iff`: ascending digests, pairwise;
* `Entry.Ascending`: entries in order;
* `Entry.ascending_insert`, `Entry.ascending_erase`, `Entry.ascending_ofList`: the operations.
-/

namespace CellGraph

theorem Digest.lt_trans {a b c : Digest} (h : a < b) (h' : b < c) : a < c := List.lt_trans h h'

instance : Std.Asymm fun digest digest' : Digest => digest < digest' :=
  ⟨fun _ _ => List.lt_asymm⟩

theorem Digest.lt_of_not_lt {a b : Digest} (h : ¬a < b) (hne : a ≠ b) : b < a := by
  rcases List.le_iff_lt_or_eq.1 (List.not_lt.1 h) with hlt | heq
  · exact hlt
  · exact absurd (Digest.ext heq.symm) hne

theorem ascending_iff (digests : List Digest) : ascending digests ↔ digests.Pairwise (· < ·) := by
  fun_induction ascending digests with
  | case1 a b rest ih =>
    rw [Bool.and_eq_true, decide_eq_true_eq, ih, List.pairwise_cons (a := a)]
    refine ⟨fun h => ⟨fun c hc => ?_, h.2⟩, fun h => ⟨h.1 b (List.mem_cons_self ..), h.2⟩⟩
    rcases List.mem_cons.1 hc with rfl | hc
    · exact h.1
    · exact Digest.lt_trans h.1 ((List.pairwise_cons.1 h.2).1 c hc)
  | case2 digests hshort =>
    match digests, hshort with
    | [], _ => simp
    | [a], _ => simp
    | a :: b :: rest, hshort => exact absurd rfl (hshort a b rest)

namespace Entry

/-- The digests of the keys ascend. -/
def Ascending (entries : List Entry) : Prop := entries.Pairwise fun a b => a.1.digest < b.1.digest

theorem isCanonical_iff (resident : Link → Option Cell) (entries : List Entry) :
    (Value.map entries).isCanonical resident ↔ Ascending entries := by
  rw [Value.isCanonical, ascending_iff, List.pairwise_map]
  rfl

theorem mem_insert {digest : Digest} {entry other : Entry} {entries : List Entry}
    (h : other ∈ insert digest entry entries) : other = entry ∨ other ∈ entries := by
  induction entries with
  | nil => exact .inl (List.mem_singleton.1 h)
  | cons first rest ih =>
    simp only [insert] at h
    split at h
    · exact List.mem_cons.1 h
    · split at h
      · rcases List.mem_cons.1 h with h | h
        · exact .inl h
        · exact .inr (List.mem_cons_of_mem _ h)
      · rcases List.mem_cons.1 h with h | h
        · exact .inr (h ▸ List.mem_cons_self ..)
        · exact (ih h).imp_right (List.mem_cons_of_mem _)

/--
An entry goes before the first one with a greater key, or takes the place of one with its key.
-/
theorem ascending_insert {entry : Entry} {entries : List Entry} (h : Ascending entries) :
    Ascending (insert entry.1.digest entry entries) := by
  induction entries with
  | nil => exact List.pairwise_singleton ..
  | cons first rest ih =>
    obtain ⟨hfirst, hrest⟩ := List.pairwise_cons.1 h
    simp only [insert]
    split
    · next hlt =>
      refine List.pairwise_cons.2 ⟨fun other hother => ?_, h⟩
      rcases List.mem_cons.1 hother with rfl | hother
      · exact hlt
      · exact Digest.lt_trans hlt (hfirst other hother)
    · next hnot =>
      -- Equal digests replace the entry; otherwise the new one belongs further on.
      split
      · next heq =>
        exact List.pairwise_cons.2 ⟨fun other hother => heq ▸ hfirst other hother, hrest⟩
      · next hne =>
        refine List.pairwise_cons.2 ⟨fun other hother => ?_, ih hrest⟩
        rcases mem_insert hother with rfl | hother
        · exact Digest.lt_of_not_lt hnot hne
        · exact hfirst other hother

theorem ascending_erase {digest : Digest} {entries : List Entry} (h : Ascending entries) :
    Ascending (erase digest entries) :=
  h.sublist (List.eraseP_sublist ..)

/-- A map of bindings in any order is made by inserting them one by one. -/
theorem ofIndex_ofList (entries : List Entry) :
    ofIndex (Index.ofList (index entries)) =
      entries.foldl (fun all entry => insert entry.1.digest entry all) [] := by
  have hfold : ∀ all : List Entry, (index entries).foldl
      (fun index binding => index.insert binding.1 binding.2) (index all) =
        index (entries.foldl (fun all entry => insert entry.1.digest entry all) all) := by
    induction entries with
    | nil => exact fun _ => rfl
    | cons entry rest ih =>
      intro all
      rw [List.foldl_cons, ← ih, index_insert]
      rfl
  rw [Index.ofList, ofIndex, show ([] : Index Digest Entry) = index [] from rfl, hfold []]
  simp [index, Function.comp_def]

theorem ascending_ofList (entries : List Entry) :
    Ascending (ofIndex (Index.ofList (index entries))) := by
  rw [ofIndex_ofList]
  refine List.foldlRecOn entries _ List.Pairwise.nil fun all h entry _ => ascending_insert h

theorem mem_ofList {entries : List Entry} {entry : Entry}
    (h : entry ∈ ofIndex (Index.ofList (index entries))) : entry ∈ entries := by
  rw [ofIndex_ofList] at h
  refine List.foldlRecOn (motive := fun all => ∀ entry ∈ all, entry ∈ entries) entries _
    (by simp) (fun all hall other hother entry hentry => ?_) entry h
  rcases mem_insert hentry with rfl | hentry
  · exact hother
  · exact hall entry hentry

end Entry

end CellGraph
