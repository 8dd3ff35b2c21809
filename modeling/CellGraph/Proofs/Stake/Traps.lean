import CellGraph.Proofs.Stake.Proportions

/-!
# Arithmetic that never goes out of range

Shares and balances are numbers of 64 bits, their products and sums are formed in 128. Some steps
are guarded: an update is refused if the balance would be out of range. Here each step that nothing
guards is trapped if its exact result is out of range, or if it divides by zero. No computation about
a record that comes about is ever trapped, so each comes to the same whatever a trap does.

* `wide?`, `difference?`, `mulDiv?`: steps with a trap;
* `StakeRecord.delegatedValue?`, `StakeRecord.peerValue?`, `StakeRecord.sumOfStakes?`: computations
  with traps;
* `StakeRecord.valueOfOr`, `StakeRecord.setPeerSharesOr`: questions and updates with traps;
* `StakeRecord.Issued.safe`: no record that comes about ever traps.
-/

namespace CellGraph

open Attempt

/-! ### Steps with a trap -/

/-- A number, if it fits in 128 bits. -/
def wide? (n : Int) : Option Int :=
  if -2 ^ 127 ≤ n ∧ n < 2 ^ 127 then some n else none

/-- A difference, if it fits in 64 bits. -/
def difference? (a b : Int64) : Option Int64 := narrow? (a.toInt - b.toInt)

/-- What `mulDiv` gives, if it need not divide by zero, and product and quotient fit in 128 bits. -/
def mulDiv? (a b c : Int64) : Option (Option Int64) := do
  let product ← wide? (a.toInt * b.toInt)
  if c = 0 then none else return narrow? (← wide? (product.tdiv c.toInt))

theorem wide?_eq {n : Int} (hlow : -2 ^ 127 ≤ n) (hhigh : n < 2 ^ 127) : wide? n = some n :=
  if_pos ⟨hlow, hhigh⟩

/-- A product of numbers of 64 bits has 126 bits and a sign at most. -/
theorem natAbs_mul_le (a b : Int64) : (a.toInt * b.toInt).natAbs ≤ 2 ^ 126 := by
  have hmost : ∀ c : Int64, c.toInt.natAbs ≤ 2 ^ 63 := by
    intro c
    have hlow := c.le_toInt
    have hhigh := c.toInt_lt
    omega
  rw [Int.natAbs_mul]
  exact (Nat.mul_le_mul (hmost a) (hmost b)).trans (by decide)

/-- Only a division by zero is trapped, and no product. -/
theorem mulDiv?_eq (a b : Int64) {c : Int64} (hc : c ≠ 0) :
    mulDiv? a b c = some (mulDiv a b c) := by
  have hproduct := natAbs_mul_le a b
  have hquotient := (Int.natAbs_tdiv_le_natAbs (a.toInt * b.toInt) c.toInt).trans hproduct
  rw [mulDiv?, wide?_eq (by omega) (by omega), mulDiv, if_neg hc]
  show (if c = 0 then none else _) = _
  rw [if_neg hc, wide?_eq (by omega) (by omega)]
  rfl

theorem narrow?_toInt (n : Int64) : narrow? n.toInt = some n := by
  have hlow := n.le_toInt
  have hhigh := n.toInt_lt
  rw [narrow?, if_pos (by omega), Int64.ofInt_toInt]

/-- A difference of numbers that are not negative does not trap. -/
theorem difference?_eq {a b : Int64} (ha : 0 ≤ a.toInt) (hb : 0 ≤ b.toInt) :
    difference? a b = some (a - b) := by
  rw [difference?, ← toInt_sub_of_nonneg ha hb, narrow?_toInt]

theorem ne_zero_of_not_le {n : Int64} (h : ¬n ≤ 0) : n ≠ 0 := by
  rintro rfl
  exact h (by decide)

/-- A step, or the trap that takes its place. -/
def Attempt.orTrap {α : Type} (trap : Attempt α) : Option α → Attempt α
  | some a => pure a
  | none => trap

namespace StakeRecord

/-! ### Computations with traps -/

section

variable {ρ : Type}

/-- What all delegators together own, without the balance to fall back to. -/
def delegatedValue? (record : StakeRecord ρ) : Option Int64 :=
  if record.totalShares ≤ 0 then some 0
  else (mulDiv? record.balance record.delegatedShares record.totalShares).join

/-- What the peer owns, with traps. -/
def peerValue? (record : StakeRecord ρ) : Option Int64 := do
  difference? record.balance (← record.delegatedValue?)

end

/-- The scan of the delegators' shares, with partial sums of 128 bits. -/
def sumOfStakes? (resident : Link → Option Cell) :
    Int → List Entry → Option (Except DataFault (Option Int))
  | sum, [] => some (.ok (some sum))
  | sum, (key, shares) :: rest =>
    if (resident key).any fun cell => !isAddress cell.value then some (.error .delegatorNotAddress)
    else
      match resident shares with
      | none => some (.ok none)
      | some cell =>
        match cell.value with
        | .integer n =>
          if 0 < n.toInt then (wide? (sum + n.toInt)).bind fun sum => sumOfStakes? resident sum rest
          else some (.error .nonPositiveStake)
        | _ => some (.error .stakeNotInteger)

section

variable (trap : ∀ {α : Type}, Attempt α) (record : StakeRecord Link)

/-- What a delegator's shares are worth, with traps. -/
def valueOfOr (delegator : Address) : Attempt Int64 := do
  if record.delegatedShares ≤ 0 then return 0
  else
    let shares ← record.sharesOf delegator
    let all ← orTrap trap record.delegatedValue?
    match ← orTrap trap (mulDiv? all shares record.delegatedShares) with
    | some value => return value
    | none => Attempt.invalid (.sharesExceedDelegated delegator.number)

/-- The record in which the peer itself has this many shares, with traps. -/
def setPeerSharesOr (shares : Int64) : Attempt (StakeRecord Link) := do
  if shares < 0 then Attempt.refuse .negativePeerStake
  if shares = record.peerShares then return record
  else
    let change ← orTrap trap (difference? shares record.peerShares)
    let balance ← within (record.balance.toInt + change.toInt) .peerStakeOverflow
    checked { record with peerShares := shares, balance }

end

/-! ### Nothing is trapped -/

/-- The partial sums of a scan of fewer than 2 ^ 64 entries fit in 128 bits. -/
theorem sumOfStakes?_eq {resident : Link → Option Cell} {entries : List Entry} {sum : Int}
    (hlow : 0 ≤ sum) (hhigh : sum + entries.length * 2 ^ 63 < 2 ^ 127) :
    sumOfStakes? resident sum entries = some (sumOfStakes resident sum entries) := by
  induction entries generalizing sum with
  | nil => rfl
  | cons entry rest ih =>
    obtain ⟨key, shares⟩ := entry
    rw [sumOfStakes?, sumOfStakes]
    split
    · rfl
    cases resident shares with
    | none => rfl
    | some cell =>
      dsimp only
      cases cell.value with
      | integer n =>
        dsimp only
        split
        · next hpos =>
          have hmost := n.toInt_lt
          rw [List.length_cons] at hhigh
          rw [wide?_eq (by omega) (by omega), Option.bind_some]
          exact ih (by omega) (by omega)
        · rfl
      | _ => rfl

namespace Nonnegative

variable {ρ : Type} {record : StakeRecord ρ}

/-- The quotient always fits, so the balance is never fallen back to. -/
theorem delegatedValue?_eq (h : record.Nonnegative) :
    record.delegatedValue? = some record.delegatedValue := by
  unfold delegatedValue? delegatedValue
  dsimp only
  split
  · rfl
  · next hsome =>
    rw [mulDiv?_eq _ _ (ne_zero_of_not_le hsome)]
    rw [Int64.le_iff_toInt_le, Int64.toInt_zero, not_le] at hsome
    obtain ⟨n, hn, -⟩ := mulDiv_eq_some (Int.mul_nonneg h.balance h.delegated) hsome
      ((part_le h.balance h.delegated_le_total hsome).trans (toInt_le_max _))
    rw [hn]
    rfl

-- With a negative number of shares the quotient may be out of range.
example : (StakeRecord.mk ⟨9⟩ (-1) none 2 none 0 Int64.maxValue :
    StakeRecord Link).delegatedValue? = none := by decide

theorem peerValue?_eq (h : record.Nonnegative) : record.peerValue? = some record.peerValue := by
  rw [peerValue?, h.delegatedValue?_eq]
  exact difference?_eq h.balance h.delegatedValue_bounds.1

theorem peerValue_bounds (h : record.Nonnegative) :
    0 ≤ record.peerValue.toInt ∧ record.peerValue.toInt ≤ record.balance.toInt := by
  obtain ⟨hlow, hhigh⟩ := h.delegatedValue_bounds
  rw [h.toInt_peerValue]
  omega

variable {record : StakeRecord Link} (trap : ∀ {α : Type}, Attempt α)

theorem valueOfOr_eq (h : record.Nonnegative) (delegator : Address) :
    record.valueOfOr trap delegator = record.valueOf delegator := by
  unfold valueOfOr valueOf
  rw [h.delegatedValue?_eq]
  by_cases hnone : record.delegatedShares ≤ 0
  · rw [if_pos hnone, if_pos hnone]
  · rw [if_neg hnone, if_neg hnone]
    refine bind_congr fun shares => ?_
    simp only [orTrap, pure_bind]
    rw [mulDiv?_eq _ _ (ne_zero_of_not_le hnone)]
    cases mulDiv record.delegatedValue shares record.delegatedShares <;> rfl

theorem setPeerSharesOr_eq (h : record.Nonnegative) (shares : Int64) :
    record.setPeerSharesOr trap shares = record.setPeerShares shares := by
  unfold setPeerSharesOr setPeerShares
  by_cases hneg : shares < 0
  · simp only [if_pos hneg]
    rfl
  · simp only [if_neg hneg]
    rw [difference?_eq (toInt_nonneg_of_not_neg hneg) h.peer]
    rfl

end Nonnegative

/-! ### Records that come about -/

/--
No computation about a record that comes about is trapped. No number of it is negative, and what the
delegators own together and what the peer owns are parts of the balance. The quotient that says so
fits, and so do the differences that nothing guards. So questions and updates come to the same
whatever a trap does; and no scan of fewer than 2 ^ 64 delegators is trapped.
-/
theorem Issued.safe {record : StakeRecord Link} (h : record.Issued) :
    (0 ≤ record.balance.toInt ∧ 0 ≤ record.peerShares.toInt ∧ 0 ≤ record.delegatedShares.toInt) ∧
    (0 ≤ record.delegatedValue.toInt ∧ record.delegatedValue.toInt ≤ record.balance.toInt) ∧
    (0 ≤ record.peerValue.toInt ∧ record.peerValue.toInt ≤ record.balance.toInt) ∧
    record.delegatedValue? = some record.delegatedValue ∧
    record.peerValue? = some record.peerValue ∧
    (∀ shares : Int64, ¬shares < 0 →
      difference? shares record.peerShares = some (shares - record.peerShares)) ∧
    (∀ trap : ∀ {α : Type}, Attempt α,
      (∀ delegator, record.valueOfOr trap delegator = record.valueOf delegator) ∧
        ∀ shares, record.setPeerSharesOr trap shares = record.setPeerShares shares) ∧
    ∀ (resident : Link → Option Cell) (entries : List Entry), entries.length < 2 ^ 64 →
      sumOfStakes? resident 0 entries = some (sumOfStakes resident 0 entries) := by
  have hnonneg := Nonnegative.of_validate h.valid
  refine ⟨⟨hnonneg.balance, hnonneg.peer, hnonneg.delegated⟩, hnonneg.delegatedValue_bounds,
    hnonneg.peerValue_bounds, hnonneg.delegatedValue?_eq, hnonneg.peerValue?_eq,
    fun shares hshares => difference?_eq (toInt_nonneg_of_not_neg hshares) hnonneg.peer,
    fun trap => ⟨hnonneg.valueOfOr_eq trap, hnonneg.setPeerSharesOr_eq trap⟩,
    fun resident entries hlength => sumOfStakes?_eq le_rfl ?_⟩
  omega

/-! ### A record of the greatest numbers -/

/-- A record whose shares and balance are the greatest numbers there are. -/
def utmost : StakeRecord Link where
  controller := ⟨9⟩
  peerShares := Int64.maxValue
  stakes := some (.soft 0 .zero)
  delegatedShares := Int64.maxValue
  metadata := none
  timestamp := 0
  balance := Int64.maxValue

theorem utmost_evaluated :
    (readBytes (Cell.encode (.mk 0 (.peer utmost)))).map
      (fun record => (record.peerShares, record.delegatedShares, record.balance)) =
      some (Int64.maxValue, Int64.maxValue, Int64.maxValue) := by
  decide +kernel

/-- The record is read, and no computation about it is trapped. -/
theorem utmost_safe :
    ∃ record : StakeRecord Link, readBytes (Cell.encode (.mk 0 (.peer utmost))) = some record ∧
      record.peerShares = Int64.maxValue ∧ record.delegatedShares = Int64.maxValue ∧
      record.balance = Int64.maxValue ∧ record.delegatedValue? = some record.delegatedValue ∧
      record.peerValue? = some record.peerValue ∧ 0 ≤ record.peerValue.toInt ∧
      difference? 0 record.peerShares = some (0 - record.peerShares) := by
  obtain ⟨record, hrecord, hnumbers⟩ := Option.map_eq_some_iff.1 utmost_evaluated
  simp only [Prod.mk.injEq] at hnumbers
  obtain ⟨hpeer, hdelegated, hbalance⟩ := hnumbers
  obtain ⟨-, -, ⟨hlow, -⟩, hall, hrest, hchange, -⟩ := (Issued.of_readBytes hrecord).safe
  exact ⟨record, hrecord, hpeer, hdelegated, hbalance, hall, hrest, hlow, hchange 0 (by decide)⟩

end StakeRecord

end CellGraph
