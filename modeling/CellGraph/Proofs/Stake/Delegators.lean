import CellGraph.Proofs.Stake.Inspection

/-!
# Delegators and delegated shares

Where shares are delegated there is a map of delegators: no record is accepted without one. The
other way round, a map of delegators has entries, and each binds a positive number of shares; so if
all of these are held there are delegated shares. Where they are not, this is not looked at, and a
record that has been read may have a map of delegators and no delegated shares. A record that holds
all of this itself goes on to do so through all updates, and so has the one if it has the other; the
record of a new peer is one.

* `StakeRecord.Proper.sharesIn_pos`: each delegator has some shares;
* `StakeRecord.Lists.isSome_iff_pos`, `StakeRecord.Entire.isSome_iff_pos`: where all shares are held,
  there are delegators if and only if there are delegated shares;
* `StakeRecord.after_of_outcome`: what each update keeps, a history keeps;
* `StakeRecord.Issued.delegators`: all records that come about.
-/

namespace CellGraph

namespace StakeRecord

variable {resident : Link → Option Cell} {record : StakeRecord Link} {entries : List Entry}
  {entry : Entry}

/-! ### Maps of which all shares are held -/

theorem Proper.sharesIn_pos (h : Proper resident entry) (hheld : (resident entry.2).isSome) :
    0 < sharesIn resident entry := by
  obtain ⟨cell, hcell⟩ := Option.isSome_iff_exists.1 hheld
  obtain ⟨n, hvalue, hpos⟩ := h.shares cell hcell
  rw [sharesIn, hcell, Option.map_some, hvalue]
  exact hpos

/-- A valid record that holds all shares has delegators if and only if shares are delegated. -/
theorem Lists.isSome_iff_pos (h : Lists resident record.stakes entries)
    (hvalid : record.validate resident = .ok ())
    (hall : ∀ entry ∈ entries, (resident entry.2).isSome) :
    record.stakes.isSome ↔ 0 < record.delegatedShares.toInt := by
  obtain ⟨hproper, htotal⟩ := addsUp_iff.1 (h.addsUp hvalid)
  rw [← htotal hall]
  cases hstakes : record.stakes with
  | none =>
    rw [hstakes] at h
    cases h
    simp
  | some link =>
    rw [hstakes] at h
    cases h with
    | map held value =>
      obtain ⟨entries', hvalue', hsome, -⟩ := exists_entries_of_validate hvalid hstakes held
      cases value.symm.trans hvalue'
      refine iff_of_true rfl (List.sum_pos _ ?_ (by simpa using hsome))
      refine List.forall_mem_map.2 fun entry hentry => ?_
      exact (hproper entry (examined_of_mem hall hentry)).sharesIn_pos (hall entry hentry)

theorem Entire.isSome_iff_pos (h : record.Entire) (hvalid : record.validate Link.target? = .ok ()) :
    record.stakes.isSome ↔ 0 < record.delegatedShares.toInt := by
  cases hstakes : record.stakes with
  | none =>
    have hlists : Lists Link.target? record.stakes [] := hstakes ▸ .absent
    exact hstakes ▸ hlists.isSome_iff_pos hvalid (List.forall_mem_nil _)
  | some link =>
    obtain ⟨map, htarget, entries, hvalue, hall⟩ := h link hstakes
    have hlists : Lists Link.target? record.stakes entries := hstakes ▸ .map htarget hvalue
    exact hstakes ▸ hlists.isSome_iff_pos hvalid hall

/-! ### Histories -/

/-- What each update keeps, a history keeps. -/
theorem after_of_outcome {good : StakeRecord Link → Prop} (hgood : good record)
    (hstep : ∀ (record : StakeRecord Link) (step : StakeStep) (record' : StakeRecord Link),
      good record → record.outcome step = .ok record' → good record') (steps : List StakeStep) :
    good (record.after steps) := by
  induction steps generalizing record with
  | nil => exact hgood
  | cons step rest ih =>
    rw [after, List.foldl_cons, next]
    cases houtcome : record.outcome step with
    | error fault => exact ih hgood
    | ok record' => exact ih (hstep record step record' hgood houtcome)

theorem Issued.after (h : record.Issued) (steps : List StakeStep) : (record.after steps).Issued :=
  after_of_outcome h (fun _ _ _ hissued => .updated hissued) steps

theorem Entire.after (h : record.Entire) (steps : List StakeStep) : (record.after steps).Entire :=
  after_of_outcome h (fun record step record' hentire houtcome =>
    ((yieldsWhere_apply record step.update step.known rfl).1 record' houtcome).entire hentire) steps

/-! ### Records that come about -/

/--
When a record that comes about has delegators. No delegated shares are without them. If the map of
delegators is held with all shares in it where the record is accepted, there are delegated shares as
well. If the record itself holds all of this, as that of a new peer does, then after any history
there are delegators if and only if shares are delegated.
-/
theorem Issued.delegators (h : record.Issued) :
    0 ≤ record.delegatedShares.toInt ∧
    (0 < record.delegatedShares.toInt → record.stakes.isSome) ∧
    (∀ (resident : Link → Option Cell) (entries : List Entry), record.Accepted resident →
      Lists resident record.stakes entries → (∀ entry ∈ entries, (resident entry.2).isSome) →
        (record.stakes.isSome ↔ 0 < record.delegatedShares.toInt)) ∧
    (∀ (controller : Address) (shares : Int64), create controller shares = .ok record →
      record.Entire) ∧
    (record.Entire → ∀ steps : List StakeStep, (record.after steps).stakes.isSome ↔
      0 < (record.after steps).delegatedShares.toInt) := by
  obtain ⟨-, -, -, hpresent, -⟩ := (validate_eq_ok_iff record).1 h.valid
  refine ⟨(Nonnegative.of_validate h.valid).delegated, fun hpos => ?_, ?_, ?_, ?_⟩
  · refine Option.isSome_iff_ne_none.2 fun hnone => hpresent ⟨by rw [hnone]; rfl, fun hzero => ?_⟩
    rw [hzero, Int64.toInt_zero] at hpos
    exact Int.lt_irrefl 0 hpos
  · exact fun resident entries haccepted hlists => hlists.isSome_iff_pos haccepted.valid
  · intro controller shares hcreate link hlink
    unfold create at hcreate
    split at hcreate <;> cases hcreate
    cases hlink
  · exact fun hentire steps => (hentire.after steps).isSome_iff_pos (h.after steps).valid

/-! ### A map of delegators without delegated shares -/

/-- A record whose map of delegators is not held. -/
def hollow : StakeRecord Link where
  controller := ⟨9⟩
  peerShares := 1
  stakes := some (.soft 0 .zero)
  delegatedShares := 0
  metadata := none
  timestamp := 0
  balance := 1

theorem hollow_evaluated :
    (readBytes (Cell.encode (.mk 0 (.peer hollow)))).map
      (fun record => (record.stakes.isSome, record.delegatedShares)) = some (true, 0) := by
  decide +kernel

/-- The record is read, with delegators but no delegated shares: not all is held. -/
theorem hollow_delegators :
    ∃ record : StakeRecord Link, readBytes (Cell.encode (.mk 0 (.peer hollow))) = some record ∧
      record.stakes.isSome ∧ record.delegatedShares = 0 ∧
      ∀ entries, Lists Link.target? record.stakes entries →
        ¬∀ entry ∈ entries, (Link.target? entry.2).isSome := by
  obtain ⟨record, hrecord, hfacts⟩ := Option.map_eq_some_iff.1 hollow_evaluated
  obtain ⟨hsome, hzero⟩ := Prod.mk.inj hfacts
  obtain ⟨-, -, hheld, -⟩ := (Issued.of_readBytes hrecord).delegators
  refine ⟨record, hrecord, hsome, hzero, fun entries hlists hall => ?_⟩
  have hpos := (hheld Link.target? entries (.of_readBytes hrecord) hlists hall).1 hsome
  rw [hzero, Int64.toInt_zero] at hpos
  exact Int.lt_irrefl 0 hpos

end StakeRecord

end CellGraph
