import CellGraph.Proofs.Reader.Quantity
import CellGraph.Reader

/-!
# Readers take written forms only

A number is read from a reader exactly if the bytes at its position begin with the written form of
that number, and then the reader advances by just that form. If they begin with no written form, be
it for want of bytes, for a group too many or for too great a number, the bytes are at fault.

* `Scan.FailsFor`: the faults for which a scan fails;
* `Scan.Exact`: scans that take the written forms of certain values and nothing else;
* `Scan.Exact.run_eq_ok_iff`, `Scan.Exact.fails_iff`: such scans, run on a reader;
* `Quantity.Signed.exact_scan`, `Quantity.Count.exact_scan`: the scans for numbers;
* `Reader.reads_quantities`: which numbers are read, and when none is.
-/

namespace CellGraph

namespace Scan

variable {α β : Type}

/-! ### Faults -/

/-- Where this scan fails, the format is at fault, for one of these causes. -/
def FailsFor (scan : Scan α) (causes : List FormatFault) : Prop :=
  ∀ cursor fault, (scan.runAt cursor).1 = .error fault → ∃ cause ∈ causes, fault = .badFormat cause

namespace FailsFor

variable {causes : List FormatFault}

theorem pure (a : α) : (Pure.pure a : Scan α).FailsFor causes := fun _ _ => nofun

theorem fail {cause : FormatFault} (h : cause ∈ causes) :
    (Scan.fail cause : Scan α).FailsFor causes := by
  rintro cursor _ ⟨⟩
  exact ⟨cause, h, rfl⟩

theorem byte (h : .unexpectedEnd ∈ causes) : Scan.byte.FailsFor causes := by
  rintro ⟨_ | ⟨b, rest⟩, position⟩ fault hfault
  · cases hfault
    exact ⟨_, h, rfl⟩
  · cases hfault

theorem bind {scan : Scan α} {next : α → Scan β} (hscan : scan.FailsFor causes)
    (hnext : ∀ a, (next a).FailsFor causes) : (scan >>= next).FailsFor causes := by
  intro cursor fault hfault
  rw [runAt_bind] at hfault
  rcases hrun : scan.runAt cursor with ⟨_ | a, after⟩ <;> rw [hrun] at hfault
  · cases hfault
    exact hscan cursor fault (congrArg Prod.fst hrun)
  · exact hnext a after fault hfault

theorem ite {condition : Prop} [Decidable condition] {first second : Scan α}
    (hfirst : first.FailsFor causes) (hsecond : second.FailsFor causes) :
    (if condition then first else second).FailsFor causes := by
  split
  · exact hfirst
  · exact hsecond

end FailsFor

/-! ### Exact scans -/

/--
A scan that takes the written forms of good values, and nothing else: each of them is read, and
where none is, the format is at fault for one of these causes.
-/
structure Exact (scan : Scan α) (written : α → Bytes) (good : α → Prop)
    (causes : List FormatFault) : Prop where
  reads : ∀ a, good a → ∀ position, scan.Reads position (written a) a
  takes : scan.Takes fun _ bytes a => bytes = written a ∧ good a
  fails : scan.FailsFor causes

namespace Exact

variable {scan : Scan α} {written : α → Bytes} {good : α → Prop} {causes : List FormatFault}

/-- What is read stands at the position. -/
theorem of_run (h : scan.Exact written good causes) {reader after : Reader} {a : α}
    (hrun : reader.run scan = (.ok a, after)) :
    good a ∧ written a <+: reader.rest ∧
      after = { reader with position := reader.position + (written a).length } := by
  unfold Reader.run at hrun
  rcases hscan : scan.runAt ⟨reader.rest, reader.position⟩ with ⟨fault | b, cursor⟩ <;>
    rw [hscan] at hrun <;> cases hrun
  obtain ⟨bytes, hrest, hposition, rfl, hgood⟩ := h.takes hscan
  exact ⟨hgood, ⟨cursor.rest, hrest.symm⟩, by rw [hposition]⟩

/-- What stands at the position is read. -/
theorem run_eq (h : scan.Exact written good causes) {reader : Reader} {a : α} (hgood : good a)
    (hstands : written a <+: reader.rest) :
    reader.run scan =
      (.ok a, { reader with position := reader.position + (written a).length }) := by
  obtain ⟨more, hmore⟩ := hstands
  unfold Reader.run
  rw [← hmore, h.reads a hgood reader.position more]
  rfl

/-- A value is read, and the reader advances by `k`, if the next `k` bytes are its written form. -/
theorem run_eq_ok_iff (h : scan.Exact written good causes) (reader : Reader) (a : α) (k : Nat) :
    reader.run scan = (.ok a, { reader with position := reader.position + k }) ↔
      good a ∧ reader.rest.take k = written a ∧ k = (written a).length := by
  constructor
  · intro hrun
    obtain ⟨hgood, hstands, hafter⟩ := h.of_run hrun
    have hk : k = (written a).length := Nat.add_left_cancel (congrArg Reader.position hafter)
    exact ⟨hgood, hk ▸ (List.prefix_iff_eq_take.1 hstands).symm, hk⟩
  · rintro ⟨hgood, htake, rfl⟩
    exact h.run_eq hgood (List.prefix_iff_eq_take.2 htake.symm)

/-- No value is read if and only if no written form stands at the position. -/
theorem fails_iff (h : scan.Exact written good causes) (reader : Reader) :
    (∃ cause ∈ causes, (reader.run scan).1 = .error (.fault (.badFormat cause))) ↔
      ∀ a, good a → ¬written a <+: reader.rest := by
  constructor
  · rintro ⟨cause, -, hfault⟩ a hgood hstands
    rw [h.run_eq hgood hstands] at hfault
    cases hfault
  · intro hnone
    rcases hrun : reader.run scan with ⟨refusal | a, after⟩
    · have hscan := hrun
      unfold Reader.run at hscan
      rcases hcursor : scan.runAt ⟨reader.rest, reader.position⟩ with ⟨fault | a, cursor⟩ <;>
        rw [hcursor] at hscan <;> cases hscan
      obtain ⟨cause, hcause, rfl⟩ := h.fails _ fault (congrArg Prod.fst hcursor)
      exact ⟨cause, hcause, rfl⟩
    · obtain ⟨hgood, hstands, -⟩ := h.of_run hrun
      exact absurd hstands (hnone a hgood)

end Exact

end Scan

/-! ### Numbers -/

namespace Quantity

/-- No number is written in more groups than may be appended to its leading group. -/
theorem countGroups_le (single : Int → Bool) (fuel : Nat) (n : Int) :
    countGroups single fuel n ≤ fuel + 1 := by
  induction fuel generalizing n with
  | zero => exact le_rfl
  | succ fuel ih =>
    rw [countGroups]
    split
    · omega
    · exact Nat.succ_le_succ (ih (n / 128))

/-- If a group that is alone stays so further on, as many groups as reach one alone are enough. -/
theorem countGroups_le_iff {single : Int → Bool} {fuel j : Nat} {n : Int}
    (hlast : single (shifted n fuel))
    (hmono : ∀ i ≤ j, single (shifted n i) → single (shifted n j)) :
    countGroups single fuel n ≤ j + 1 ↔ single (shifted n j) := by
  obtain ⟨count, -, hcount, hsingle, hless⟩ := countGroups_spec hlast
  rw [hcount, Nat.add_le_add_iff_right]
  exact ⟨fun hj => hmono count hj hsingle, fun h => not_lt.1 fun hj => hless j hj h⟩

/-- Appending groups fails if the bytes end, or if the number becomes too great. -/
theorem failsFor_extend {fits : Int → Bool} {overflow : FormatFault} {causes : List FormatFault}
    (hoverflow : overflow ∈ causes) (hend : .unexpectedEnd ∈ causes) (fuel : Nat) (value : Int)
    (b : UInt8) : (extend fits overflow fuel value b).FailsFor causes := by
  induction fuel generalizing value b with
  | zero => exact .fail hoverflow
  | succ fuel ih =>
    refine .ite ?_ (.fail hoverflow)
    exact .ite (.bind (.byte hend) fun next => ih _ next) (.pure _)

namespace Signed

/-- Why no signed number is read. -/
def causes : List FormatFault := [.unexpectedEnd, .nonMinimalInteger, .integerOverflow]

theorem length_le (n : Int64) : length n ≤ 10 := countGroups_le isSingle 9 n.toInt

/-- A number is written in `k` groups or fewer if it is one of as many bits. -/
theorem length_le_iff (n : Int64) {k : Nat} (hk : 0 < k) :
    length n ≤ k ↔ -2 ^ (7 * k - 1) ≤ n.toInt ∧ n.toInt < 2 ^ (7 * k - 1) := by
  obtain ⟨j, rfl⟩ : ∃ j, k = j + 1 := ⟨k - 1, by omega⟩
  have hpos : (0 : Int) < 2 ^ (7 * j) := by positivity
  have hpow : (2 : Int) ^ (7 * (j + 1) - 1) = 64 * 2 ^ (7 * j) := by
    rw [show 7 * (j + 1) - 1 = 7 * j + 6 by omega, pow_add]
    ring
  have hle : length n ≤ j + 1 ↔ isSingle (shifted n.toInt j) :=
    countGroups_le_iff (isSingle_last n) fun _ hij => isSingle_shifted hij
  rw [hle, isSingle_iff, shifted_eq_div, hpow, Int.le_ediv_iff_mul_le hpos,
    Int.ediv_lt_iff_lt_mul hpos, Int.neg_mul]

theorem failsFor_scan : scan.FailsFor causes := by
  have hend : .unexpectedEnd ∈ causes := by simp [causes]
  have hminimal : .nonMinimalInteger ∈ causes := by simp [causes]
  have hoverflow : .integerOverflow ∈ causes := by simp [causes]
  refine .bind (.byte hend) fun first => .ite ?_ (.pure _)
  refine .bind (.byte hend) fun second => .ite (.fail hminimal) ?_
  exact .bind (failsFor_extend hoverflow hend _ _ second) fun n => .pure _

/-- The scan for signed numbers takes their written forms and nothing else. -/
theorem exact_scan : scan.Exact encode (fun _ => True) causes where
  reads n _ position := reads_encode n position
  takes := takes_scan.mono fun _ _ _ h => ⟨h, trivial⟩
  fails := failsFor_scan

end Signed

namespace Count

/-- Why no unsigned number is read. -/
def causes : List FormatFault := [.unexpectedEnd, .nonMinimalCount, .countOverflow]

theorem length_le (n : Nat) : length n ≤ 10 := countGroups_le isSingle 9 n

/-- A number is written in `k` groups or fewer if it is one of as many bits. -/
theorem length_le_iff {n : Nat} (hn : n < 2 ^ 64) {k : Nat} (hk : 0 < k) :
    length n ≤ k ↔ n < 2 ^ (7 * k) := by
  obtain ⟨j, rfl⟩ : ∃ j, k = j + 1 := ⟨k - 1, by omega⟩
  have hpos : (0 : Int) < 2 ^ (7 * j) := by positivity
  have hpow : (2 : Int) ^ (7 * (j + 1)) = 128 * 2 ^ (7 * j) := by
    rw [show 7 * (j + 1) = 7 * j + 7 by omega, pow_add]
    ring
  have hcast : n < 2 ^ (7 * (j + 1)) ↔ (n : Int) < 2 ^ (7 * (j + 1)) := by exact_mod_cast Iff.rfl
  have hle : length n ≤ j + 1 ↔ isSingle (shifted n j) :=
    countGroups_le_iff (isSingle_last hn) fun _ hij => isSingle_shifted hij
  rw [hle, isSingle_iff, shifted_eq_div, hcast, hpow, Int.ediv_lt_iff_lt_mul hpos]

theorem failsFor_scan : scan.FailsFor causes := by
  have hend : .unexpectedEnd ∈ causes := by simp [causes]
  have hminimal : .nonMinimalCount ∈ causes := by simp [causes]
  have hoverflow : .countOverflow ∈ causes := by simp [causes]
  refine .bind (.byte hend) fun first => .ite (.fail hminimal) (.ite ?_ (.pure _))
  refine .bind (.byte hend) fun second => ?_
  exact .bind (failsFor_extend hoverflow hend _ _ second) fun n => .pure _

/-- The scan for unsigned numbers takes the written forms of those below `2 ^ 64`. -/
theorem exact_scan : scan.Exact encode (· < 2 ^ 64) causes where
  reads _ hn position := reads_encode hn position
  takes := takes_scan
  fails := failsFor_scan

end Count

end Quantity

open Quantity

/--
Readers take the written forms of numbers and nothing else. At any position of any buffer, a number
is read and the reader advances by `k` if and only if the next `k` bytes are what the number is
written as. These are at most ten, and the fewest that have bits enough: each has seven. If no
number's written form stands there, and only then, the bytes are refused: they end too soon, begin
with a group too many, or are too great a number.
-/
theorem Reader.reads_quantities (reader : Reader) :
    ((∀ (n : Int64) (k : Nat),
        reader.run Signed.scan = (.ok n, { reader with position := reader.position + k }) ↔
          reader.rest.take k = Signed.encode n ∧ k = Signed.length n) ∧
      ((∃ cause ∈ Signed.causes,
          (reader.run Signed.scan).1 = .error (.fault (.badFormat cause))) ↔
        ∀ n : Int64, ¬Signed.encode n <+: reader.rest) ∧
      ∀ n : Int64, Signed.length n ≤ 10 ∧ ∀ k, 0 < k →
        (Signed.length n ≤ k ↔ -2 ^ (7 * k - 1) ≤ n.toInt ∧ n.toInt < 2 ^ (7 * k - 1))) ∧
    (∀ n k : Nat,
        reader.run Count.scan = (.ok n, { reader with position := reader.position + k }) ↔
          n < 2 ^ 64 ∧ reader.rest.take k = Count.encode n ∧ k = Count.length n) ∧
      ((∃ cause ∈ Count.causes,
          (reader.run Count.scan).1 = .error (.fault (.badFormat cause))) ↔
        ∀ n < 2 ^ 64, ¬Count.encode n <+: reader.rest) ∧
      ∀ n < 2 ^ 64, Count.length n ≤ 10 ∧ ∀ k, 0 < k → (Count.length n ≤ k ↔ n < 2 ^ (7 * k)) := by
  refine ⟨⟨fun n k => ?_, ?_, fun n => ⟨Signed.length_le n, fun k => Signed.length_le_iff n⟩⟩,
    fun n k => ?_, ?_, fun n hn => ⟨Count.length_le n, fun k => Count.length_le_iff hn⟩⟩
  · have h := Signed.exact_scan.run_eq_ok_iff reader n k
    rwa [true_and, Signed.length_encode] at h
  · have h := Signed.exact_scan.fails_iff reader
    simpa only [forall_const] using h
  · have h := Count.exact_scan.run_eq_ok_iff reader n k
    rwa [Count.length_encode] at h
  · exact Count.exact_scan.fails_iff reader

end CellGraph
