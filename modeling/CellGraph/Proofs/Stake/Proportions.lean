import CellGraph.Proofs.Cell.Validity
import CellGraph.Proofs.Session.Basic
import CellGraph.Proofs.Stake.Accepted
import CellGraph.Proofs.Stake.Conservation

/-!
# The delegators' part of the balance

No number of a record that comes about is negative, and all that the delegators own together is
worth a part of the balance. The part is in proportion to their shares as long as all shares
together are a number of 64 bits, as they are in every record that began as that of a new peer. Of a
record that has been read there may be more shares than that. They are then taken for the greatest
number there is, so the delegators' part comes out too great, at the cost of the peer.

* `StakeRecord.Nonnegative`: no share count and no balance is negative;
* `StakeRecord.Nonnegative.toInt_totalShares`, `StakeRecord.Nonnegative.toInt_delegatedValue`: the
  sum of all shares, and the delegators' part, as exact numbers;
* `StakeRecord.Issued`, `StakeRecord.Issued.valid`: the records that come about, and that they are
  valid;
* `StakeRecord.Issued.proportional`: the delegators' part of the balance, and the peer's.
-/

namespace CellGraph

/-! ### Arithmetic in 64 bits -/

/-- Some shares of all are worth no more than the whole. -/
theorem part_le {whole some all : Int} (hwhole : 0 ≤ whole) (hsome : some ≤ all) (hall : 0 < all) :
    whole * some / all ≤ whole :=
  Int.ediv_le_of_le_mul hall (Int.mul_le_mul_of_nonneg_left hsome hwhole)

/-- A quotient of numbers that are not negative is exact, if it fits in 64 bits. -/
theorem mulDiv_eq_some {a b c : Int64} (hproduct : 0 ≤ a.toInt * b.toInt) (hc : 0 < c.toInt)
    (hfits : a.toInt * b.toInt / c.toInt ≤ Int64.maxValue.toInt) :
    ∃ n, mulDiv a b c = some n ∧ n.toInt = a.toInt * b.toInt / c.toInt := by
  have hne : c ≠ 0 := by
    rintro rfl
    exact absurd hc (by decide)
  have hlow : 0 ≤ a.toInt * b.toInt / c.toInt := Int.ediv_nonneg hproduct hc.le
  have hmax : Int64.maxValue.toInt = 0x7FFFFFFFFFFFFFFF := by decide
  unfold mulDiv
  rw [if_neg hne, Int.tdiv_eq_ediv_of_nonneg hproduct]
  cases h : narrow? (a.toInt * b.toInt / c.toInt) with
  | some n => exact ⟨n, rfl, toInt_of_narrow? h⟩
  | none =>
    unfold narrow? at h
    rw [if_pos (by omega)] at h
    cases h

/-- The sum of numbers that are not negative, cut off at the greatest number. -/
theorem toInt_saturatingAdd {a b : Int64} (ha : 0 ≤ a.toInt) (hb : 0 ≤ b.toInt) :
    (saturatingAdd a b).toInt = min (a.toInt + b.toInt) Int64.maxValue.toInt := by
  have hmax : Int64.maxValue.toInt = 0x7FFFFFFFFFFFFFFF := by decide
  unfold saturatingAdd
  dsimp only
  rw [if_neg (by omega)]
  split
  · omega
  · rw [Int64.toInt_ofInt, Int64.size, Int.bmod_eq_of_le] <;> omega

namespace StakeRecord

/-! ### Values as exact numbers -/

section

variable {ρ : Type} {record : StakeRecord ρ}

/-- No share count and no balance is negative. -/
structure Nonnegative (record : StakeRecord ρ) : Prop where
  peer : 0 ≤ record.peerShares.toInt
  delegated : 0 ≤ record.delegatedShares.toInt
  balance : 0 ≤ record.balance.toInt

theorem Nonnegative.of_validate {resident : Link → Option Cell} {record : StakeRecord Link}
    (h : record.validate resident = .ok ()) : record.Nonnegative := by
  obtain ⟨hbalance, hdelegated, hpeer, -⟩ := (validate_eq_ok_iff record).1 h
  exact ⟨toInt_nonneg_of_not_neg hpeer, toInt_nonneg_of_not_neg hdelegated,
    toInt_nonneg_of_not_neg hbalance⟩

namespace Nonnegative

variable (h : record.Nonnegative)

include h

/-- All shares together, cut off at the greatest number. -/
theorem toInt_totalShares : record.totalShares.toInt =
    min (record.peerShares.toInt + record.delegatedShares.toInt) Int64.maxValue.toInt :=
  toInt_saturatingAdd h.peer h.delegated

/-- The delegated shares are some of all shares, also where the sum has been cut off. -/
theorem delegated_le_total : record.delegatedShares.toInt ≤ record.totalShares.toInt := by
  have hpeer := h.peer
  have hmost := toInt_le_max record.delegatedShares
  rw [h.toInt_totalShares]
  omega

/-- What the delegators own, rounded down; without shares they own nothing. -/
theorem toInt_delegatedValue : record.delegatedValue.toInt =
    record.balance.toInt * record.delegatedShares.toInt / record.totalShares.toInt := by
  have hle := h.delegated_le_total
  have hdelegated := h.delegated
  unfold delegatedValue
  dsimp only
  by_cases hnone : record.totalShares ≤ 0
  · rw [Int64.le_iff_toInt_le, Int64.toInt_zero] at hnone
    have hzero : record.delegatedShares.toInt = 0 := by omega
    rw [if_pos (by rwa [Int64.le_iff_toInt_le, Int64.toInt_zero]), hzero, Int.mul_zero,
      Int.zero_ediv, Int64.toInt_zero]
  · rw [if_neg hnone]
    have hpos : 0 < record.totalShares.toInt := by
      rw [Int64.le_iff_toInt_le, Int64.toInt_zero] at hnone
      omega
    have hfits : record.balance.toInt * record.delegatedShares.toInt / record.totalShares.toInt ≤
        Int64.maxValue.toInt :=
      (part_le h.balance hle hpos).trans (toInt_le_max _)
    obtain ⟨n, hn, hvalue⟩ := mulDiv_eq_some (Int.mul_nonneg h.balance h.delegated) hpos hfits
    rw [hn, Option.getD_some, hvalue]

/-- What the delegators own is a part of the balance. -/
theorem delegatedValue_bounds :
    0 ≤ record.delegatedValue.toInt ∧ record.delegatedValue.toInt ≤ record.balance.toInt := by
  have htotal : 0 ≤ record.totalShares.toInt := h.delegated.trans h.delegated_le_total
  rw [h.toInt_delegatedValue]
  refine ⟨Int.ediv_nonneg (Int.mul_nonneg h.balance h.delegated) htotal, ?_⟩
  rcases htotal.eq_or_lt with hzero | hpos
  · rw [← hzero, Int.ediv_zero]
    exact h.balance
  · exact part_le h.balance h.delegated_le_total hpos

/-- The peer owns the rest of the balance. -/
theorem toInt_peerValue :
    record.peerValue.toInt = record.balance.toInt - record.delegatedValue.toInt :=
  toInt_sub_of_nonneg h.balance h.delegatedValue_bounds.1

end Nonnegative

end

end StakeRecord

/-- Whatever is known, there is no result, or this holds of it. -/
abbrev Attempt.Yields {α : Type} (attempt : Attempt α) (good : α → Prop) : Prop :=
  attempt.Ends fun outcome => ∀ a, outcome = .ok a → good a

namespace StakeRecord

variable {record : StakeRecord Link}

/-! ### Updates make valid records -/

/-- Whatever is known, an update of a valid record yields a valid record, or fails. -/
theorem yields_apply (hvalid : record.validate Link.target? = .ok ()) (update : StakeUpdate) :
    (update.apply record).Yields fun record' => record'.validate Link.target? = .ok () := by
  intro known record' hrecord'
  obtain ⟨hchecked | hsame, -⟩ := (yieldsWhere_apply record update known rfl).1 record' hrecord'
  · exact validate_target hchecked
  · rw [hsame]
    exact (validate_eq_ok_iff _).2 ((validate_eq_ok_iff record).1 hvalid)

/-! ### Records that come about -/

/--
The records that come about: those of new peers, those in cells that have been read, and those that
updates of such records make. What is known in between is arbitrary.
-/
inductive Issued : StakeRecord Link → Prop
  | made {controller : Address} {shares : Int64} {record : StakeRecord Link}
    (made : create controller shares = .ok record) : Issued record
  | read {bytes : Bytes} {known : Knowledge} {cell found : Cell} {record : StakeRecord Link}
    (read : ((Cell.decode bytes).run.run known).1 = .ok cell) (held : found ∈ cell.everyCell)
    (value : found.value = .peer record) : Issued record
  | updated {record record' : StakeRecord Link} {known : Knowledge} {update : StakeUpdate}
    (issued : Issued record) (updated : ((update.apply record).run.run known).1 = .ok record') :
    Issued record'

/-- A record that comes about is valid, as far as it holds its maps itself. -/
theorem Issued.valid (h : record.Issued) : record.validate Link.target? = .ok () := by
  induction h with
  | @made controller shares record hmade =>
    unfold create at hmade
    split at hmade
    · cases hmade
    · next hneg =>
      cases hmade
      have hnone : ¬(0 : Int64) < 0 := by decide
      exact (validate_eq_ok_iff _).2 ⟨hneg, hnone, hneg, fun h => h.2 rfl, rfl, rfl⟩
  | read hread hheld hvalue => exact validate_of_decode hread hheld hvalue
  | updated _ hupdated ih => exact yields_apply ih _ _ _ hupdated

theorem Issued.of_readBytes {bytes : Bytes} (h : readBytes bytes = some record) :
    record.Issued := by
  obtain ⟨cell, hread, hvalue⟩ := exists_decode_of_readBytes h
  exact .read hread (List.mem_cons_self ..) hvalue

/-! ### The delegators' part and the peer's -/

/-- As long as they are a number of 64 bits, all shares are counted. -/
theorem Nonnegative.toInt_totalShares_of_le (h : record.Nonnegative)
    (hfits : record.peerShares.toInt + record.delegatedShares.toInt ≤ Int64.maxValue.toInt) :
    record.totalShares.toInt = record.peerShares.toInt + record.delegatedShares.toInt :=
  h.toInt_totalShares.trans (min_eq_left hfits)

/-- Where all shares are counted, the peer owns no less than its share of the balance. -/
theorem Nonnegative.peer_part_le (h : record.Nonnegative)
    (hfits : record.peerShares.toInt + record.delegatedShares.toInt ≤ Int64.maxValue.toInt) :
    record.balance.toInt * record.peerShares.toInt ≤
      record.peerValue.toInt * (record.peerShares.toInt + record.delegatedShares.toInt) := by
  have hpart : record.delegatedValue.toInt *
      (record.peerShares.toInt + record.delegatedShares.toInt) ≤
        record.balance.toInt * record.delegatedShares.toInt := by
    rw [h.toInt_delegatedValue, h.toInt_totalShares_of_le hfits]
    by_cases hzero : record.peerShares.toInt + record.delegatedShares.toInt = 0
    · rw [hzero, Int.mul_zero]
      exact Int.mul_nonneg h.balance h.delegated
    · exact Int.ediv_mul_le _ hzero
  rw [h.toInt_peerValue, Int.sub_mul, Int.mul_add]
  omega

/-- A history that begins with a new peer leads to a record that a ledger describes. -/
theorem exists_describes_of_after {controller : Address} {shares : Int64}
    {first : StakeRecord Link} (hfirst : create controller shares = .ok first)
    (steps : List StakeStep) : ∃ ledger : Ledger, ledger.Describes (first.after steps) := by
  have hnonneg : 0 ≤ shares := by
    unfold create at hfirst
    split at hfirst
    · cases hfirst
    · next hneg =>
      rw [Int64.le_iff_toInt_le, Int64.toInt_zero]
      exact toInt_nonneg_of_not_neg hneg
  obtain ⟨record, hrecord, hdescribes⟩ := Ledger.describes_create controller hnonneg
  cases hfirst.symm.trans hrecord
  exact ⟨_, hdescribes.after steps⟩

/-- A history that begins with a new peer leads to shares that are a number of 64 bits. -/
theorem shares_le_of_after {controller : Address} {shares : Int64} {first : StakeRecord Link}
    (hfirst : create controller shares = .ok first) (steps : List StakeStep) :
    (first.after steps).peerShares.toInt + (first.after steps).delegatedShares.toInt ≤
      Int64.maxValue.toInt := by
  obtain ⟨ledger, hdescribes⟩ := exists_describes_of_after hfirst steps
  rw [← hdescribes.totalShares]
  exact toInt_le_max _

/--
What the delegators of a record that comes about own, and the peer. No number is negative, and the
two parts make up the balance. Where all shares together are a number of 64 bits, the delegators own
what is in proportion to their shares, rounded down, and the peer at least what is in proportion to
its own. Where there are more shares, the delegators own what is in proportion to the greatest
number, and this may be more than their due. In a history that begins with a new peer there never
are more shares.
-/
theorem Issued.proportional (h : record.Issued) :
    let peer := record.peerShares.toInt
    let delegated := record.delegatedShares.toInt
    let balance := record.balance.toInt
    0 ≤ peer ∧ 0 ≤ delegated ∧ 0 ≤ balance ∧
    0 ≤ record.delegatedValue.toInt ∧ record.delegatedValue.toInt ≤ balance ∧
    record.peerValue.toInt = balance - record.delegatedValue.toInt ∧
    (peer + delegated ≤ Int64.maxValue.toInt →
      record.delegatedValue.toInt =
          (if 0 < peer + delegated then balance * delegated / (peer + delegated) else 0) ∧
        balance * peer ≤ record.peerValue.toInt * (peer + delegated)) ∧
    (Int64.maxValue.toInt < peer + delegated →
      record.delegatedValue.toInt = balance * delegated / Int64.maxValue.toInt ∧
        balance * delegated / (peer + delegated) ≤ record.delegatedValue.toInt) ∧
    ∀ (controller : Address) (shares : Int64) (first : StakeRecord Link) (steps : List StakeStep),
      create controller shares = .ok first → record = first.after steps →
        peer + delegated ≤ Int64.maxValue.toInt := by
  have hnonneg := Nonnegative.of_validate h.valid
  obtain ⟨hlow, hhigh⟩ := hnonneg.delegatedValue_bounds
  have hvalue := hnonneg.toInt_delegatedValue
  dsimp only
  refine ⟨hnonneg.peer, hnonneg.delegated, hnonneg.balance, hlow, hhigh, hnonneg.toInt_peerValue,
    fun hfits => ⟨?_, hnonneg.peer_part_le hfits⟩, fun hmore => ?_, ?_⟩
  · rw [hvalue, hnonneg.toInt_totalShares_of_le hfits]
    split
    · rfl
    · next hnone =>
      have hzero : record.peerShares.toInt + record.delegatedShares.toInt = 0 := by
        have hpeer := hnonneg.peer
        have hdelegated := hnonneg.delegated
        omega
      rw [hzero, Int.ediv_zero]
  · have htotal : record.totalShares.toInt = Int64.maxValue.toInt :=
      hnonneg.toInt_totalShares.trans (min_eq_right hmore.le)
    have hmax : 0 < Int64.maxValue.toInt := by decide
    have hproduct := Int.mul_nonneg hnonneg.balance hnonneg.delegated
    rw [hvalue, htotal]
    refine ⟨rfl, Int.le_ediv_of_mul_le hmax ?_⟩
    -- A quotient by more shares, times fewer, is no more than the product was.
    have hquotient := Int.ediv_nonneg hproduct (hmax.trans hmore).le
    exact (Int.mul_le_mul_of_nonneg_left hmore.le hquotient).trans
      (Int.ediv_mul_le _ (hmax.trans hmore).ne')
  · rintro controller shares first steps hfirst rfl
    exact shares_le_of_after hfirst steps

/-! ### A record with more shares than can be counted -/

/-- A record of a peer that has half of all shares. -/
def halfOwned : StakeRecord Link where
  controller := ⟨1⟩
  peerShares := Int64.maxValue
  stakes := some (.soft 0 .zero)
  delegatedShares := Int64.maxValue
  metadata := none
  timestamp := 0
  balance := 3

theorem halfOwned_evaluated :
    (readBytes (Cell.encode (.mk 0 (.peer halfOwned)))).map (fun record =>
      (record.peerShares, record.delegatedShares, record.balance)) =
      some (Int64.maxValue, Int64.maxValue, 3) := by
  decide +kernel

/-- The record is read; the peer has half of all shares, but the delegators own the whole balance. -/
theorem halfOwned_proportional :
    ∃ record : StakeRecord Link, readBytes (Cell.encode (.mk 0 (.peer halfOwned))) = some record ∧
      record.Issued ∧ record.peerShares = Int64.maxValue ∧
      record.delegatedShares = Int64.maxValue ∧
      record.balance = 3 ∧ record.delegatedValue.toInt = 3 ∧ record.peerValue.toInt = 0 ∧
      3 * Int64.maxValue.toInt / (Int64.maxValue.toInt + Int64.maxValue.toInt) = 1 := by
  obtain ⟨record, hrecord, hnumbers⟩ := Option.map_eq_some_iff.1 halfOwned_evaluated
  simp only [Prod.mk.injEq] at hnumbers
  obtain ⟨hpeer, hdelegated, hbalance⟩ := hnumbers
  have hissued : record.Issued := .of_readBytes hrecord
  obtain ⟨-, -, -, -, -, hrest, -, hmore, -⟩ := hissued.proportional
  rw [hpeer, hdelegated, hbalance] at hmore
  obtain ⟨hvalue, -⟩ := hmore (by decide)
  have hthree : record.delegatedValue.toInt = 3 := hvalue.trans (by decide)
  refine ⟨record, hrecord, hissued, hpeer, hdelegated, hbalance, hthree, ?_, by decide⟩
  rw [hrest, hthree, hbalance]
  decide

end StakeRecord

end CellGraph
