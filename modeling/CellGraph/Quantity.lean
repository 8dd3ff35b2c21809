import CellGraph.Scan

/-!
# Quantities of variable length

Numbers are written in groups of seven bits, the most significant group first; every byte but the
last has its high bit set. A signed number takes its sign from bit six of the first group. A number
has one written form, the shortest: reading refuses longer ones, and numbers that need more than
64 bits.

* `groups`, `countGroups`: the groups of a number, and how many it is written in;
* `Signed.length`, `Signed.encode`, `Signed.scan`: signed 64-bit numbers;
* `Count.length`, `Count.encode`, `Count.scan`: unsigned 64-bit numbers;
* `Count.scanLength`: a count of items that must fit in the rest of the input.
-/

namespace CellGraph.Quantity

/-- The greatest number of groups in a written form. -/
def maxGroups : Nat := 10

/-- The `count` lowest groups of a number, a continuation bit on all but the last. -/
def groups : Nat → Int → Bytes
  | 0, _ => []
  | count + 1, n =>
    UInt8.ofNat ((n >>> (7 * count) % 128).toNat + if count = 0 then 0 else 128) :: groups count n

@[simp] theorem length_groups (count : Nat) (n : Int) : (groups count n).length = count := by
  induction count with
  | zero => rfl
  | succ count ih => simp [groups, ih]

/--
The number of groups in which a number is written, at most `fuel + 1`; `single` tells the numbers of
one group.
-/
def countGroups (single : Int → Bool) : Nat → Int → Nat
  | 0, _ => 1
  | fuel + 1, n => if single n then 1 else countGroups single fuel (n / 128) + 1

/-- The seven payload bits of a byte. -/
def payload (b : UInt8) : Int := (b.toNat % 128 : Nat)

/-- Whether a byte announces another group. -/
def continues (b : UInt8) : Bool := 128 ≤ b

/--
Append the group `b` to the groups read so far, then the groups that follow it; at most `fuel` may
be appended, and only to a number that `fits`.
-/
def extend (fits : Int → Bool) (overflow : FormatFault) : Nat → Int → UInt8 → Scan Int
  | 0, _, _ => .fail overflow
  | fuel + 1, value, b =>
    if fits value then
      let value := value * 128 + payload b
      if continues b then do extend fits overflow fuel value (← Scan.byte)
      else pure value
    else .fail overflow

namespace Signed

/-- Whether a number is written in one group. -/
def isSingle (n : Int) : Bool := -64 ≤ n && n < 64

/-- The number of groups in which a number is written. -/
def length (n : Int64) : Nat := countGroups isSingle (maxGroups - 1) n.toInt

/-- The written form of a signed number. -/
def encode (n : Int64) : Bytes := groups (length n) n.toInt

@[simp] theorem length_encode (n : Int64) : (encode n).length = length n := length_groups _ _

/-- The value of a leading group, bit six being its sign. -/
def lead (b : UInt8) : Int := if payload b < 64 then payload b else payload b - 128

/-- Whether a leading group only repeats the sign of the group after it. -/
def redundant (first second : UInt8) : Bool :=
  (first = 0x80 && payload second < 64) || (first = 0xFF && 64 ≤ payload second)

/-- Whether another group can be appended within 64 bits. -/
def extendable (value : Int) : Bool := -0x100000000000000 ≤ value && value < 0x100000000000000

/-- Reads the written form of a signed number. -/
def scan : Scan Int64 := do
  let first ← Scan.byte
  if continues first then
    let second ← Scan.byte
    if redundant first second then .fail .nonMinimalInteger
    else return Int64.ofInt (← extend extendable .integerOverflow (maxGroups - 1) (lead first) second)
  else return Int64.ofInt (lead first)

end Signed

namespace Count

/-- Whether a number is written in one group. -/
def isSingle (n : Int) : Bool := n < 128

/-- The number of groups in which a number is written. -/
def length (n : Nat) : Nat := countGroups isSingle (maxGroups - 1) n

/-- The written form of an unsigned number. -/
def encode (n : Nat) : Bytes := groups (length n) n

@[simp] theorem length_encode (n : Nat) : (encode n).length = length n := length_groups _ _

/-- Whether another group can be appended within 64 bits. -/
def extendable (value : Int) : Bool := value < 0x200000000000000

/-- Reads the written form of an unsigned number below `2 ^ 64`. -/
def scan : Scan Nat := do
  let first ← Scan.byte
  if first = 0x80 then .fail .nonMinimalCount
  else if continues first then
    return (← extend extendable .countOverflow (maxGroups - 1) (payload first) (← Scan.byte)).toNat
  else return (payload first).toNat

/--
Reads a count of items that take `itemSize` bytes each or more: no more than fit in the rest of the
input. An item size of zero counts as one.
-/
def scanLength (itemSize : Nat) : Scan Nat := do
  let n ← scan
  if n > (← Scan.remaining) / Nat.max itemSize 1 then .fail (.lengthBeyondInput n)
  else return n

end Count

end CellGraph.Quantity
