import CellGraph.Proofs.Stake.Payouts

/-!
# Rewards

A reward is added to the balance of a record, and leaves all shares as they are. Of what it adds,
each holder gains a part. Nobody loses anything by it, although what each of them owns is rounded:
the delegators as a whole gain no more than the reward, so the peer gains the rest of it, and no
single delegator gains more than all delegators do.

* `part_grows`: a part of a whole grows with it, and by no more;
* `StakeRecord.endsWhere_addReward`: what adding a reward does;
* `StakeRecord.Rewarded`, `StakeRecord.Rewarded.delegatedValue`: records before and after a reward;
* `StakeRecord.Loaded.rewarded`: what it does to every holder.
-/

namespace CellGraph

open Attempt

/-- A part of a whole grows with the whole, and by no more than it. -/
theorem part_grows {whole whole' some all : Int} (hgrows : whole ≤ whole') (hsome : 0 ≤ some)
    (hle : some ≤ all) :
    whole * some / all ≤ whole' * some / all ∧
      whole' * some / all ≤ whole * some / all + (whole' - whole) := by
  by_cases hzero : all = 0
  · subst hzero
    simp only [Int.ediv_zero]
    omega
  have hall : 0 < all := by omega
  have hless : whole * some ≤ whole' * some := Int.mul_le_mul_of_nonneg_right hgrows hsome
  have hgain : (whole' - whole) * some ≤ (whole' - whole) * all :=
    Int.mul_le_mul_of_nonneg_left hle (Int.sub_nonneg.2 hgrows)
  have hsplit : whole' * some = whole * some + (whole' - whole) * some := by
    rw [Int.sub_mul]
    omega
  constructor
  · exact Int.ediv_le_ediv hall hless
  · rw [← Int.add_mul_ediv_right _ _ hzero]
    exact Int.ediv_le_ediv hall (by omega)

namespace StakeRecord

variable {resident : Link → Option Cell} {known known' : Knowledge}
  {record record' : StakeRecord Link} {entries : List Entry} {amount : Int64}

/-! ### Adding a reward -/

/-- One record is another one after a reward. -/
structure Rewarded (record record' : StakeRecord Link) (amount : Int64) : Prop where
  nonneg : 0 ≤ amount.toInt
  balance : record'.balance.toInt = record.balance.toInt + amount.toInt
  others : record' = { record with balance := record'.balance }

/-- Adding a reward adds it to the balance, and changes nothing else. The outcome is valid. -/
theorem endsWhere_addReward (record : StakeRecord Link) (amount : Int64) :
    (record.addReward amount).EndsWhere resident fun outcome => ∀ record', outcome = .ok record' →
      record.Rewarded record' amount ∧ record'.validate resident = .ok () := by
  unfold addReward
  refine EndsWhere.guard (fun _ => nofun) fun hamount => ?_
  refine (endsWhere_within _ _).bind (fun _ _ => nofun) fun balance hbalance => ?_
  refine (endsWhere_checked _).mono fun outcome hchecked record' houtcome => ?_
  obtain ⟨rfl, hvalid⟩ := hchecked record' houtcome
  exact ⟨⟨toInt_nonneg_of_not_neg hamount, hbalance balance rfl, rfl⟩, hvalid⟩

/-! ### What a reward does to the holders -/

namespace Rewarded

variable (h : record.Rewarded record' amount)

include h

theorem peerShares : record'.peerShares = record.peerShares := by rw [h.others]

theorem delegatedShares : record'.delegatedShares = record.delegatedShares := by rw [h.others]

theorem stakes : record'.stakes = record.stakes := by rw [h.others]

theorem totalShares : record'.totalShares = record.totalShares := by
  unfold StakeRecord.totalShares
  rw [h.peerShares, h.delegatedShares]

/-- The shares of each address are held as before. -/
theorem sharesHeld (delegator : Address) :
    record'.sharesHeld resident delegator = record.sharesHeld resident delegator := by
  unfold StakeRecord.sharesHeld
  rw [h.stakes]

/-- All delegators together lose nothing, and gain no more than the reward. -/
theorem delegatedValue (hnonneg : record.Nonnegative) (hnonneg' : record'.Nonnegative) :
    record.delegatedValue.toInt ≤ record'.delegatedValue.toInt ∧
      record'.delegatedValue.toInt ≤ record.delegatedValue.toInt + amount.toInt := by
  have hbalance := h.balance
  have hamount := h.nonneg
  have hgrows : record.balance.toInt ≤ record'.balance.toInt := by omega
  obtain ⟨hno, hmost⟩ := part_grows hgrows hnonneg.delegated hnonneg.delegated_le_total
  rw [hnonneg.toInt_delegatedValue, hnonneg'.toInt_delegatedValue, h.totalShares,
    h.delegatedShares]
  omega

/-- What the peer and the delegators own together grows by the reward. -/
theorem sum_values (hnonneg : record.Nonnegative) (hnonneg' : record'.Nonnegative) :
    record'.peerValue.toInt + record'.delegatedValue.toInt =
      record.peerValue.toInt + record.delegatedValue.toInt + amount.toInt := by
  have hbalance := h.balance
  rw [hnonneg.toInt_peerValue, hnonneg'.toInt_peerValue]
  omega

/-- A delegator is paid out no less than before, and no more than the reward on top. -/
theorem exists_payouts (hnonneg : record.Nonnegative) (hnonneg' : record'.Nonnegative)
    {delegator : Address} {n : Int64}
    (hshares : record.sharesHeld known.resident delegator = .ok n) (hlow : 0 ≤ n.toInt)
    (hhigh : n.toInt ≤ record.delegatedShares.toInt) (hidles : known.Idles known') :
    ∃ value value' : Int64, record.payout known delegator = .ok value ∧
      record'.payout known' delegator = .ok value' ∧ value.toInt ≤ value'.toInt ∧
      value'.toInt ≤ value.toInt + amount.toInt := by
  have hshares' : record'.sharesHeld known'.resident delegator = .ok n := by
    rw [hidles.resident_eq, h.sharesHeld, hshares]
  have hhigh' : n.toInt ≤ record'.delegatedShares.toInt := by rwa [h.delegatedShares]
  obtain ⟨value, hpayout, hvalue⟩ := hnonneg.exists_payout hshares hlow hhigh
  obtain ⟨value', hpayout', hvalue'⟩ := hnonneg'.exists_payout hshares' hlow hhigh'
  refine ⟨value, value', hpayout, hpayout', ?_⟩
  obtain ⟨hno, hmost⟩ := h.delegatedValue hnonneg hnonneg'
  -- The payout is a part of what all delegators own, which grows by what they gain together.
  obtain ⟨hgrown, hgain⟩ := part_grows hno hlow hhigh
  rw [hvalue, hvalue', h.delegatedShares]
  omega

end Rewarded

/--
A reward hurts no holder. If it can be added to a valid record that holds all of its delegators, or
has none, all shares stay what they were. Neither the peer nor all delegators together nor any
address owns less than before, none of them gains more than the reward, and what the peer and the
delegators own together grows by the reward.
-/
theorem Loaded.rewarded (h : record.Loaded known.resident entries)
    (hvalid : record.validate known.resident = .ok ())
    (hrun : (record.addReward amount).run.run known = (.ok record', known')) :
    0 ≤ amount.toInt ∧
    (record'.peerShares = record.peerShares ∧ record'.delegatedShares = record.delegatedShares) ∧
    (record.peerValue.toInt ≤ record'.peerValue.toInt ∧
      record'.peerValue.toInt ≤ record.peerValue.toInt + amount.toInt) ∧
    (record.delegatedValue.toInt ≤ record'.delegatedValue.toInt ∧
      record'.delegatedValue.toInt ≤ record.delegatedValue.toInt + amount.toInt) ∧
    record'.peerValue.toInt + record'.delegatedValue.toInt =
      record.peerValue.toInt + record.delegatedValue.toInt + amount.toInt ∧
    ∀ delegator : Address,
      (∃ shares, ((record.sharesOf delegator).run.run known).1 = .ok shares ∧
        ((record'.sharesOf delegator).run.run known').1 = .ok shares) ∧
      ∃ value value' : Int64, record.payout known delegator = .ok value ∧
        record'.payout known' delegator = .ok value' ∧ value.toInt ≤ value'.toInt ∧
        value'.toInt ≤ value.toInt + amount.toInt := by
  obtain ⟨hreward, hidles⟩ := record.endsWhere_addReward amount known rfl
  rw [hrun] at hreward hidles
  obtain ⟨hrewarded, hvalid'⟩ := hreward record' rfl
  have hnonneg := Nonnegative.of_validate hvalid
  have hnonneg' := Nonnegative.of_validate hvalid'
  obtain ⟨hno, hmost⟩ := hrewarded.delegatedValue hnonneg hnonneg'
  have hsum := hrewarded.sum_values hnonneg hnonneg'
  refine ⟨hrewarded.nonneg, ⟨hrewarded.peerShares, hrewarded.delegatedShares⟩,
    ⟨by omega, by omega⟩, ⟨hno, hmost⟩, hsum, fun delegator => ?_⟩
  obtain ⟨n, value, hshares, hlow, hhigh, -⟩ := h.exists_payout hvalid delegator
  refine ⟨⟨n, ?_, ?_⟩, hrewarded.exists_payouts hnonneg hnonneg' hshares hlow hhigh hidles⟩
  · rw [(record.endsWhere_sharesOf delegator known rfl).1, hshares]
  · rw [(record'.endsWhere_sharesOf delegator known' rfl).1, hidles.resident_eq,
      hrewarded.sharesHeld, hshares]

/-! ### A reward for the pool -/

open Chronicle (pooled eq_ok_of_isOk)

theorem pooled_evaluated :
    (pooled.validate ({} : Knowledge).resident).isOk ∧
    ((pooled.addReward 6).run.run {}).1.isOk := by
  decide +kernel

theorem exists_loaded_pooled : ∃ entries, pooled.Loaded ({} : Knowledge).resident entries :=
  ⟨_, .map rfl rfl, by simp [Knowledge.resident]⟩

/-- With a reward of six, nobody in the pool owns less than before. -/
theorem pooled_rewarded :
    pooled.validate ({} : Knowledge).resident = .ok () ∧
    ∃ record' known', (pooled.addReward 6).run.run {} = (.ok record', known') ∧
      pooled.peerValue.toInt ≤ record'.peerValue.toInt ∧
      pooled.delegatedValue.toInt ≤ record'.delegatedValue.toInt ∧
      record'.peerValue.toInt + record'.delegatedValue.toInt =
        pooled.peerValue.toInt + pooled.delegatedValue.toInt + 6 := by
  obtain ⟨hvalid, hreward⟩ := pooled_evaluated
  have hchecked := eq_ok_of_isOk hvalid
  rcases hrun : (pooled.addReward 6).run.run {} with ⟨fault | record', known'⟩ <;>
    rw [hrun] at hreward
  · cases hreward
  obtain ⟨entries, hloaded⟩ := exists_loaded_pooled
  obtain ⟨-, -, ⟨hpeer, -⟩, ⟨hdelegated, -⟩, hsum, -⟩ := hloaded.rewarded hchecked hrun
  exact ⟨hchecked, record', known', rfl, hpeer, hdelegated, hsum⟩

end StakeRecord

end CellGraph
