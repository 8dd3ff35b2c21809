import CellGraph.Proofs.Query.Replication

/-!
# Cells conform to the canonical form

Every cell that can come about is canonical, and it stays so. The one part of the canonical form that
depends on what is held in memory is that no map of a stake record is empty, and a link that comes
to hold its target never comes to hold an empty map: an empty map is small enough to be written
inline, and of the targets that are found for a link only those that are not are kept.

* `Cell.Conforms`: the canonical form of a cell, spelled out;
* `Cell.checkCanonical_iff`: the check for it;
* `Coherent.conforms`: a valid cell conforms, whatever its links have come to hold;
* `Chronicle.Reached.canonical`: every cell that can come about conforms, for good.
-/

namespace CellGraph

/--
The form in which a cell must be held: a keyword has 1 to 64 bytes, the entries of a map ascend
strictly by the digests of their keys, and no map of a stake record is empty, if it is held.
-/
structure Cell.Conforms (known : Knowledge) (cell : Cell) : Prop where
  keyword : ∀ name, cell.value = .keyword name →
    1 ≤ (Bytes.ofText name).length ∧ (Bytes.ofText name).length ≤ 64
  map : ∀ entries, cell.value = .map entries →
    entries.Pairwise fun a b => a.1.digest < b.1.digest
  record : ∀ record, cell.value = .peer record → ∀ link ∈ record.links, ∀ target,
    known.resident link = some target → target.value ≠ .map []

/-! ### The check -/

theorem StakeRecord.isEmptyMap_iff {ρ : Type} (value : Value ρ) :
    isEmptyMap value ↔ value = .map [] := by
  cases value with
  | map entries => simp [isEmptyMap]
  | _ => simp [isEmptyMap]

/-- No child map leads to an empty map if and only if none of the links does. -/
theorem StakeRecord.not_leadsToEmptyMap_iff (resident : Link → Option Cell) (link : Option Link) :
    leadsToEmptyMap resident link = false ↔
      ∀ l ∈ link.toList, ∀ target, resident l = some target → target.value ≠ .map [] := by
  cases link with
  | none => simp [leadsToEmptyMap]
  | some l =>
    cases hheld : resident l with
    | none => simp [leadsToEmptyMap, hheld]
    | some target =>
      have hiff := isEmptyMap_iff target.value
      simp [leadsToEmptyMap, hheld, ← hiff]

theorem Cell.conforms_iff (known : Knowledge) (cell : Cell) :
    cell.Conforms known ↔ cell.value.isCanonical known.resident := by
  constructor
  · intro h
    cases hvalue : cell.value with
    | keyword name =>
      obtain ⟨hpositive, hle⟩ := h.keyword name hvalue
      exact Bool.and_eq_true _ _ ▸ ⟨decide_eq_true hpositive, decide_eq_true hle⟩
    | map entries => exact (Entry.isCanonical_iff _ entries).2 (h.map entries hvalue)
    | peer record =>
      have hmaps : ∀ link ∈ record.stakes.toList ++ record.metadata.toList, ∀ target,
          known.resident link = some target → target.value ≠ .map [] := h.record record hvalue
      have hstakes := (StakeRecord.not_leadsToEmptyMap_iff known.resident record.stakes).2
        fun link hlink => hmaps link (List.mem_append_left _ hlink)
      have hmetadata := (StakeRecord.not_leadsToEmptyMap_iff known.resident record.metadata).2
        fun link hlink => hmaps link (List.mem_append_right _ hlink)
      simp [Value.isCanonical, hstakes, hmetadata]
    | _ => rfl
  · intro h
    constructor
    · intro name hvalue
      rw [hvalue, Value.isCanonical, Bool.and_eq_true, decide_eq_true_eq, decide_eq_true_eq] at h
      exact h
    · intro entries hvalue
      rw [hvalue] at h
      exact (Entry.isCanonical_iff _ entries).1 h
    · intro record hvalue link hlink
      rw [hvalue, Value.isCanonical, Bool.and_eq_true, Bool.not_eq_true', Bool.not_eq_true'] at h
      obtain ⟨hstakes, hmetadata⟩ := h
      rcases List.mem_append.1 hlink with hlink | hlink
      · exact (StakeRecord.not_leadsToEmptyMap_iff _ _).1 hstakes link hlink
      · exact (StakeRecord.not_leadsToEmptyMap_iff _ _).1 hmetadata link hlink

/-- The check finds a cell canonical if and only if it conforms, and it only notes digests. -/
theorem Cell.checkCanonical_iff (known : Knowledge) (cell : Cell) :
    ((cell.checkCanonical.run known).1 = true ↔ cell.Conforms known) ∧
      known.Notes (cell.checkCanonical.run known).2 := by
  have hnotes := cell.value.onlyNotes_noteCompared known
  refine ⟨?_, hnotes⟩
  rw [conforms_iff, ← hnotes.resident_eq]
  rfl

/-! ### Cells that come about -/

/-- What a soft link has come to hold is not an empty map, for that would be written inline. -/
theorem Coherent.kept_ne_empty {good : Cell → Prop} {held : Set Link} {known : Knowledge}
    (h : Coherent good held known) {label : Label} {cell : Cell}
    (hkept : known.kept[label]? = some cell) : cell.value ≠ .map [] := by
  intro hvalue
  obtain ⟨-, hlarge, -⟩ := h.kept label cell hkept
  have hencode : cell.encode = [Kind.map.tag, 0] := by
    rw [Cell.encode_eq, hvalue]
    rfl
  have hsmall : cell.isSmall := by
    rw [Cell.isSmall_iff, hencode]
    decide
  rw [hsmall] at hlarge
  cases hlarge

/-- A cell that is valid as it was made conforms, whatever has been found for links since. -/
theorem Coherent.conforms {good : Cell → Prop} {held : Set Link} {known : Knowledge}
    (h : Coherent good held known) {cell : Cell} (hvalid : cell.Valid) : cell.Conforms known := by
  obtain ⟨hcanonical, -⟩ := (Value.validate_eq_ok_iff _).1 hvalid
  -- Where no link has come to hold a cell, only the cells that were written inline are held.
  have hmade : cell.Conforms {} := (Cell.conforms_iff {} cell).2 (by
    rwa [show Knowledge.resident {} = Link.target? from funext fun link => by cases link <;> simp
      [Knowledge.resident, Link.target?]])
  refine ⟨hmade.keyword, hmade.map, fun record hvalue link hlink target htarget => ?_⟩
  cases link with
  | direct label target' => exact hmade.record record hvalue _ hlink target htarget
  | soft label digest => exact h.kept_ne_empty htarget

namespace Chronicle

variable {ι : Type} [DecidableEq ι] {chronicle : Chronicle ι}

/--
Every cell that can come about is canonical, at every depth, and stays so: whatever is done
afterwards, and whatever is found for its links, the check finds it canonical. Its keyword has 1 to
64 bytes, the digests of its keys ascend strictly, and its record leads to no empty map.
-/
theorem Reached.canonical (h : chronicle.Reached) {cell : Cell}
    (hcell : cell ∈ chronicle.session.cells) {later : Chronicle ι}
    (hlater : Relation.ReflTransGen Step chronicle later) :
    (cell.checkCanonical.run later.session.known).1 = true ∧
      cell.Conforms later.session.known := by
  have hvalid := (h.inv.usable.valid hcell).good
  obtain ⟨stores, hempty, hsteps⟩ := h
  have hreached : later.Reached := ⟨stores, hempty, hsteps.trans hlater⟩
  have hconforms := hreached.inv.usable.coherent.conforms hvalid
  exact ⟨(Cell.checkCanonical_iff _ cell).1.2 hconforms, hconforms⟩

set_option maxRecDepth 20000 in
/-- A record that was read without its metadata is canonical, also once they have been found. -/
theorem recordCell_canonical :
    recordCell ∈ namedSession.cells ∧ Step { session := namedSession } loadedRecord ∧
      recordCell.links.all (fun link => (namedSession.known.resident link).isNone) ∧
      recordCell.links.all (fun link => (loadedRecord.session.known.resident link).isSome) ∧
      recordCell.links ≠ [] ∧
      (recordCell.checkCanonical.run loadedRecord.session.known).1 = true ∧
      recordCell.Conforms loadedRecord.session.known := by
  have hcell : recordCell ∈ namedSession.cells := .inl recordCell_mem_named
  obtain ⟨hcheck, hconforms⟩ := reached_namedSession.canonical hcell (.single step_loadedRecord)
  have hlinks : recordCell.links.length = 1 := by decide +kernel
  exact ⟨hcell, step_loadedRecord, by decide +kernel, by decide +kernel,
    List.ne_nil_of_length_pos (hlinks ▸ Nat.one_pos), hcheck, hconforms⟩

end Chronicle

end CellGraph
