/-!
# Decimal numbers

A number of a JSON text, digit by digit, and what it is read as: an unsigned integer, or a binary
floating-point number of 64 bits. The latter is worked out in two steps that round. The leading
digits that fit in 64 bits are rounded to 53 bits, and so is the power of ten that they are
multiplied by; then their product is rounded. Near the upper end of the range the outcome can differ
from that of rounding the number once.

* `Number`: a number as it was written;
* `Number.toNat?`: its value as an unsigned integer;
* `Number.leading`, `Number.isFinite`: its leading digits, and whether it is in range as a
  floating-point number.
-/

namespace CellGraph

/-- The number of these decimal digits. -/
def natOfDigits (digits : List Nat) : Nat := digits.foldl (fun n d => 10 * n + d) 0

/-- A number as it was written. -/
structure Number where
  negative : Bool
  /-- The digits before the point. -/
  whole : List Nat
  /-- The digits after the point; there are none if there is no point. -/
  fraction : List Nat
  exponent : Option Int
  deriving DecidableEq, Repr

/--
Append digits to a number, up to the first one with which it would need more than 64 bits. The
number, and the digits that are left.
-/
def appendDigits : Nat → List Nat → Nat × List Nat
  | n, [] => (n, [])
  | n, d :: rest =>
    if 10 * n + d < 0x10000000000000000 then appendDigits (10 * n + d) rest else (n, d :: rest)

/--
The nearest number of at most 53 significant bits; of two that are equally near, the even one.
-/
def roundBits (n : Nat) : Nat :=
  let unit := 1 <<< (n.log2 + 1 - 53)
  let quotient := n / unit
  let twice := 2 * (n % unit)
  if unit < twice ∨ (unit = twice ∧ quotient % 2 = 1) then (quotient + 1) * unit
  else quotient * unit

/-- The least number that a floating-point number of 64 bits cannot be rounded from. -/
def overflowBound : Nat := 1 <<< 1024 - 1 <<< 970

/-- The greatest power of ten in the range of floating-point numbers of 64 bits. -/
def maxPower : Nat := 308

namespace Number

/-- The unsigned 64-bit number that is written without sign, point and exponent. -/
def toNat? (n : Number) : Option Nat :=
  if !n.negative && n.fraction.isEmpty && n.exponent.isNone &&
      natOfDigits n.whole < 0x10000000000000000 then
    some (natOfDigits n.whole)
  else none

/--
The leading digits and the power of ten that they are multiplied by. A digit before the point that
is left over counts as a zero; one after it does not count.
-/
def leading (n : Number) : Nat × Int :=
  let (whole, dropped) := appendDigits 0 n.whole
  let (digits, ignored) := appendDigits whole n.fraction
  (digits, n.exponent.getD 0 + dropped.length + ignored.length - n.fraction.length)

/-- Whether the number is in range when it is read as a floating-point number of 64 bits. -/
def isFinite (n : Number) : Bool :=
  let (digits, power) := n.leading
  if digits = 0 ∨ power < 0 then true
  else if maxPower < power then false
  else roundBits digits * roundBits (Nat.pow 10 power.toNat) < overflowBound

end Number

end CellGraph
