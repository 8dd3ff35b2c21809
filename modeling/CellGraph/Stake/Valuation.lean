import CellGraph.Cell.Basic

/-!
# The value of holdings

The peer and its delegators hold shares of a common balance. The delegators' part of the balance is
in proportion to their shares, rounded down; the peer owns the rest.

* `narrow?`, `mulDiv`: exact arithmetic that must end within 64 bits;
* `StakeRecord.totalShares`, `StakeRecord.delegatedValue`, `StakeRecord.peerValue`: shares and values.
-/

namespace CellGraph

/-- The signed 64-bit number of this value, if there is one. -/
def narrow? (n : Int) : Option Int64 :=
  if -0x8000000000000000 ≤ n ∧ n < 0x8000000000000000 then some (Int64.ofInt n) else none

/-- `a * b / c`, rounded toward zero, unless `c` is zero or the result needs more than 64 bits. -/
def mulDiv (a b c : Int64) : Option Int64 :=
  if c = 0 then none else narrow? ((a.toInt * b.toInt).tdiv c.toInt)

/-- The sum of two numbers, or the nearest bound of the 64-bit range. -/
def saturatingAdd (a b : Int64) : Int64 :=
  let sum := a.toInt + b.toInt
  if sum < -0x8000000000000000 then Int64.minValue
  else if 0x8000000000000000 ≤ sum then Int64.maxValue
  else Int64.ofInt sum

namespace StakeRecord

variable {ρ : Type}

/-- All shares: the peer's own and the delegated ones. -/
def totalShares (record : StakeRecord ρ) : Int64 :=
  saturatingAdd record.peerShares record.delegatedShares

/-- What all delegators together own of the balance. -/
def delegatedValue (record : StakeRecord ρ) : Int64 :=
  let total := record.totalShares
  if total ≤ 0 then 0
  else (mulDiv record.balance record.delegatedShares total).getD record.balance

/-- What the peer owns of the balance: all that the delegators do not. -/
def peerValue (record : StakeRecord ρ) : Int64 := record.balance - record.delegatedValue

end StakeRecord

@[simp] theorem toInt_of_narrow? {n : Int} {m : Int64} (h : narrow? n = some m) : m.toInt = n := by
  unfold narrow? at h
  split at h
  · cases h
    rename_i hn
    rw [Int64.toInt_ofInt]
    simp only [Int64.size]
    rw [Int.bmod_eq_of_le] <;> omega
  · cases h

end CellGraph
