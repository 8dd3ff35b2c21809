import CellGraph.Proofs.Reader.Scan
import CellGraph.Quantity
import Mathlib.Tactic

/-!
# Quantities have one written form

The number of groups of a written form is the least with which the leading group still is a number
of one group. Scanning a written form gives the number back, and whatever is scanned as a number is
the written form of that number.

* `shifted`: what is left of a number without its lowest groups;
* `countGroups_eq`: the number of groups, described by leading groups;
* `Signed.reads_encode`, `Signed.takes_scan`: signed numbers;
* `Count.reads_encode`, `Count.takes_scan`: unsigned numbers below `2 ^ 64`.
-/

namespace CellGraph.Quantity

/-! ### Groups -/

/-- A number without its `count` lowest groups. -/
def shifted (n : Int) (count : Nat) : Int := n >>> (7 * count)

@[simp] theorem shifted_zero (n : Int) : shifted n 0 = n := by simp [shifted]

theorem shifted_eq_div (n : Int) (count : Nat) : shifted n count = n / 2 ^ (7 * count) :=
  Int.shiftRight_eq_div_pow n (7 * count)

theorem shifted_succ (n : Int) (count : Nat) : shifted n (count + 1) = shifted n count / 128 := by
  have hpow : (2 : Int) ^ (7 * (count + 1)) = 2 ^ (7 * count) * 128 := by
    rw [show 7 * (count + 1) = 7 * count + 7 by omega, pow_add]
    norm_num
  rw [shifted_eq_div, shifted_eq_div, hpow, Int.ediv_ediv_of_nonneg (by positivity)]

theorem shifted_div (n : Int) (count : Nat) : shifted (n / 128) count = shifted n (count + 1) := by
  induction count with
  | zero => simp [shifted_succ]
  | succ count ih => rw [shifted_succ, ih, ← shifted_succ]

/-- The group at a place: its payload, and whether another group follows. -/
theorem groups_succ (count : Nat) (n : Int) :
    groups (count + 1) n =
      UInt8.ofNat ((shifted n count % 128).toNat + if count = 0 then 0 else 128) ::
        groups count n :=
  rfl

theorem toNat_group (value : Int) (more : Nat) (h : more ≤ 128) :
    (UInt8.ofNat ((value % 128).toNat + more)).toNat = (value % 128).toNat + more := by
  have hlt : (value % 128).toNat < 128 := by omega
  rw [UInt8.toNat_ofNat']
  omega

theorem payload_group (value : Int) (count : Nat) :
    payload (UInt8.ofNat ((value % 128).toNat + if count = 0 then 0 else 128)) = value % 128 := by
  unfold payload
  rw [toNat_group _ _ (by split <;> omega)]
  split <;> omega

theorem continues_iff (b : UInt8) : continues b ↔ 128 ≤ b.toNat := by
  simp only [continues, decide_eq_true_eq, UInt8.le_iff_toNat_le]
  rfl

theorem continues_group (value : Int) (count : Nat) :
    continues (UInt8.ofNat ((value % 128).toNat + if count = 0 then 0 else 128)) =
      decide (count ≠ 0) := by
  have hlt : (value % 128).toNat < 128 := by omega
  rw [Bool.eq_iff_iff, continues_iff, toNat_group _ _ (by split <;> omega), decide_eq_true_iff]
  split <;> omega

/-- A byte is the group of its own payload, marked as it is marked. -/
theorem group_payload (b : UInt8) (value : Int) (count : Nat) (hvalue : value % 128 = payload b)
    (hcontinues : continues b = decide (count ≠ 0)) :
    UInt8.ofNat ((value % 128).toNat + if count = 0 then 0 else 128) = b := by
  have hb := b.toNat_lt
  rw [Bool.eq_iff_iff, continues_iff, decide_eq_true_iff] at hcontinues
  unfold payload at hvalue
  apply UInt8.toNat_inj.1
  rw [toNat_group _ _ (by split <;> omega)]
  split <;> omega

theorem payload_nonneg (b : UInt8) : 0 ≤ payload b := by unfold payload; omega

theorem payload_lt (b : UInt8) : payload b < 128 := by unfold payload; omega

/-! ### The number of groups -/

/-- The least number of groups with which the leading group is a number of one group. -/
theorem countGroups_eq {single : Int → Bool} :
    ∀ {fuel count : Nat} {n : Int}, count ≤ fuel → single (shifted n count) →
      (∀ i < count, ¬single (shifted n i)) → countGroups single fuel n = count + 1
  | 0, count, n, hfuel, _, _ => by
    obtain rfl : count = 0 := by omega
    rfl
  | fuel + 1, 0, n, _, hsingle, _ => by
    simp only [shifted_zero] at hsingle
    simp [countGroups, hsingle]
  | fuel + 1, count + 1, n, hfuel, hsingle, hless => by
    have hn : ¬single n := by simpa using hless 0 (by omega)
    rw [countGroups, if_neg hn, countGroups_eq (show count ≤ fuel by omega)]
    · rwa [shifted_div]
    · intro i hi
      rw [shifted_div]
      exact hless (i + 1) (by omega)

/-- The number of groups leaves a leading group that is a number of one group, if fuel suffices. -/
theorem countGroups_spec {single : Int → Bool} :
    ∀ {fuel : Nat} {n : Int}, single (shifted n fuel) →
      ∃ count ≤ fuel, countGroups single fuel n = count + 1 ∧ single (shifted n count) ∧
        ∀ i < count, ¬single (shifted n i)
  | 0, n, hlast => ⟨0, le_rfl, rfl, hlast, by simp⟩
  | fuel + 1, n, hlast => by
    by_cases hn : single n
    · exact ⟨0, by omega, by simp [countGroups, hn], by simpa using hn, by simp⟩
    · rw [← shifted_div] at hlast
      obtain ⟨count, hle, hcount, hsingle, hless⟩ := countGroups_spec hlast
      refine ⟨count + 1, by omega, ?_, by rwa [← shifted_div], ?_⟩
      · rw [countGroups, if_neg hn, hcount]
      · rintro (_ | i) hi
        · simpa using hn
        · rw [← shifted_div]
          exact hless i (by omega)

/-! ### Appending groups -/

/-- Appending the groups of a number to its leading part gives the number. -/
theorem reads_extend {fits : Int → Bool} (overflow : FormatFault) {n : Int} :
    ∀ {count fuel : Nat} (position : Nat), count < fuel → (∀ i ≤ count, fits (shifted n (i + 1))) →
      (extend fits overflow fuel (shifted n (count + 1))
        (UInt8.ofNat ((shifted n count % 128).toNat + if count = 0 then 0 else 128))).Reads
        position (groups count n) n
  | count, fuel + 1, position, hfuel, hfits => by
    have hvalue : shifted n (count + 1) * 128 + shifted n count % 128 = shifted n count := by
      rw [shifted_succ]
      omega
    simp only [extend, if_pos (hfits count le_rfl), payload_group, continues_group, hvalue]
    cases count with
    | zero =>
      simp only [ne_eq, not_true_eq_false, decide_false, Bool.false_eq_true, ↓reduceIte,
        shifted_zero]
      exact Scan.Reads.pure n position
    | succ count =>
      simp only [ne_eq, Nat.add_one_ne_zero, not_false_eq_true, decide_true, ↓reduceIte]
      rw [groups_succ]
      exact (Scan.reads_byte _ position).bind
        (reads_extend overflow _ (by omega) fun i hi => hfits i (by omega))

/-- Whatever is appended to a leading part are the lowest groups of the number that results. -/
theorem takes_extend {fits : Int → Bool} {overflow : FormatFault} :
    ∀ {fuel : Nat} {value : Int} {b : UInt8},
      (extend fits overflow fuel value b).Takes fun _ bytes n =>
        bytes.length < fuel ∧ shifted n (bytes.length + 1) = value ∧
          b :: bytes = groups (bytes.length + 1) n ∧ ∃ m p : Int, fits m ∧ n = m * 128 + p ∧
            0 ≤ p ∧ p < 128
  | 0, value, b => Scan.Takes.fail overflow
  | fuel + 1, value, b => by
    have hp := payload_nonneg b
    have hp' := payload_lt b
    rw [extend]
    split
    · next hfits =>
      split
      · next hmore =>
        -- The groups after this one are those of the same number, by the induction.
        refine (Scan.Takes.bind Scan.takes_byte fun next =>
          @takes_extend fits overflow fuel (value * 128 + payload b) next).mono ?_
        rintro position bytes n ⟨next, _, more, rfl, rfl, hlength, hshift, hgroups, hn⟩
        refine ⟨by simp; omega, ?_, ?_, hn⟩
        · rw [shifted_succ, List.length_append, List.length_singleton, Nat.add_comm, hshift]
          omega
        · rw [List.singleton_append, List.length_cons, groups_succ, ← hgroups, hshift]
          congr 1
          exact (group_payload b _ _ (by omega) (by simpa using hmore)).symm
      · next hlast =>
        refine Scan.Takes.pure fun position =>
          ⟨by simp, ?_, ?_, value, payload b, hfits, rfl, hp, hp'⟩
        · rw [List.length_nil, shifted_succ, shifted_zero]
          omega
        · rw [List.length_nil, groups_succ, shifted_zero]
          congr 1
          exact (group_payload b _ _ (by omega) (by simpa using hlast)).symm
    · exact Scan.Takes.fail overflow

/-- Fewer groups are no longer numbers of 64 bits and more. -/
theorem shifted_bounds {n : Int} (hlow : -2 ^ 63 ≤ n) (hhigh : n < 2 ^ 63) (count : Nat) :
    -2 ^ 63 ≤ shifted n count ∧ shifted n count < 2 ^ 63 := by
  induction count with
  | zero => simpa using ⟨hlow, hhigh⟩
  | succ count ih =>
    rw [shifted_succ]
    omega

/-- A number has the sign of its leading part. -/
theorem nonneg_of_shifted {n : Int} {count : Nat} (h : 0 ≤ shifted n count) : 0 ≤ n := by
  have hpow : (0 : Int) < 2 ^ (7 * count) := by positivity
  rw [shifted_eq_div] at h
  by_contra hneg
  have := Int.ediv_neg_of_neg_of_pos (by omega : n < 0) hpow
  omega

/-! ### Signed numbers -/

namespace Signed

theorem isSingle_iff (n : Int) : isSingle n ↔ -64 ≤ n ∧ n < 64 := by simp [isSingle]

theorem lead_group {value : Int} (h : isSingle value) (count : Nat) :
    lead (UInt8.ofNat ((value % 128).toNat + if count = 0 then 0 else 128)) = value := by
  rw [isSingle_iff] at h
  unfold lead
  rw [payload_group]
  split <;> omega

theorem lead_mod (b : UInt8) : lead b % 128 = payload b := by
  have := payload_nonneg b
  have := payload_lt b
  unfold lead
  split <;> omega

theorem isSingle_lead (b : UInt8) : isSingle (lead b) := by
  have := payload_nonneg b
  have := payload_lt b
  rw [isSingle_iff]
  unfold lead
  split <;> omega

/-- A leading group is redundant if the number has one group without it. -/
theorem redundant_iff {first second : UInt8} (hfirst : continues first) :
    redundant first second ↔ isSingle (lead first * 128 + payload second) := by
  have hb := first.toNat_lt
  have hp := payload_nonneg second
  have hp' := payload_lt second
  rw [continues_iff] at hfirst
  have h80 : first = 0x80 ↔ first.toNat = 128 := by rw [← UInt8.toNat_inj]; rfl
  have hFF : first = 0xFF ↔ first.toNat = 255 := by rw [← UInt8.toNat_inj]; rfl
  rw [isSingle_iff]
  simp only [redundant, h80, hFF, Bool.or_eq_true, Bool.and_eq_true, decide_eq_true_eq]
  unfold lead payload at *
  split <;> omega

/-- A number of one group has one group as well without its lowest groups. -/
theorem isSingle_shifted {n : Int} {i j : Nat} (hij : i ≤ j) (h : isSingle (shifted n i)) :
    isSingle (shifted n j) := by
  induction j, hij using Nat.le_induction with
  | base => exact h
  | succ j _ ih =>
    rw [isSingle_iff] at ih ⊢
    rw [shifted_succ]
    omega

theorem extendable_shifted (n : Int64) (i : Nat) : extendable (shifted n.toInt (i + 1)) := by
  have h := shifted_bounds n.le_toInt n.toInt_lt i
  rw [shifted_succ]
  simp only [extendable, Bool.and_eq_true, decide_eq_true_eq]
  omega

/-- As many groups as there may be are enough. -/
theorem isSingle_last (n : Int64) : isSingle (shifted n.toInt (maxGroups - 1)) := by
  have hlow := n.le_toInt
  have hhigh := n.toInt_lt
  rw [isSingle_iff, maxGroups, shifted_eq_div]
  omega

/-- The written form of a number is read as that number. -/
theorem reads_encode (n : Int64) (position : Nat) : scan.Reads position (encode n) n := by
  obtain ⟨count, hle, hcount, hsingle, hless⟩ := countGroups_spec (isSingle_last n)
  rw [encode, length, hcount, groups_succ, scan]
  refine Scan.reads_byte_bind ?_
  rw [continues_group, lead_group hsingle]
  cases count with
  | zero =>
    simp only [shifted_zero, ne_eq, not_true_eq_false, decide_false, Bool.false_eq_true, ↓reduceIte,
      Int64.ofInt_toInt]
    exact Scan.Reads.pure n _
  | succ count =>
    simp only [ne_eq, Nat.add_one_ne_zero, not_false_eq_true, decide_true, ↓reduceIte]
    rw [groups_succ]
    refine (Scan.reads_byte _ _).bind ?_
    have hnext : lead (UInt8.ofNat ((shifted n.toInt (count + 1) % 128).toNat +
        if count + 1 = 0 then 0 else 128)) * 128 + shifted n.toInt count % 128 =
          shifted n.toInt count := by
      rw [lead_group hsingle, shifted_succ]
      omega
    -- With a redundant leading group the number would have had one group less.
    have hredundant : ¬redundant (UInt8.ofNat ((shifted n.toInt (count + 1) % 128).toNat +
        if count + 1 = 0 then 0 else 128)) (UInt8.ofNat ((shifted n.toInt count % 128).toNat +
          if count = 0 then 0 else 128)) := by
      rw [redundant_iff (by rw [continues_group]; simp), payload_group, hnext]
      exact hless count (by omega)
    rw [if_neg (by simpa using hredundant)]
    have hread := (reads_extend .integerOverflow (position + 1 + 1)
      (show count < maxGroups - 1 by omega) fun i _ => extendable_shifted n i).map Int64.ofInt
    rwa [Int64.ofInt_toInt] at hread

/-- Whatever is read as a number is the written form of that number. -/
theorem takes_scan : scan.Takes fun _ bytes n => bytes = encode n := by
  unfold scan
  refine (Scan.Takes.bind Scan.takes_byte (S := fun first _ more n => first :: more = encode n)
    fun first => ?_).mono (by rintro _ _ _ ⟨first, _, more, rfl, rfl, h⟩; exact h)
  have hsingle := isSingle_lead first
  split
  · next hmore =>
    refine (Scan.Takes.bind Scan.takes_byte
      (S := fun second _ more n => first :: second :: more = encode n) fun second => ?_).mono
      (by rintro _ _ _ ⟨second, _, more, rfl, rfl, h⟩; exact h)
    refine Scan.Takes.guard fun hredundant => takes_extend.map ?_
    rintro position bytes n ⟨hlength, hshift, hgroups, m, p, hm, hn, hp, hp'⟩
    have hnext : shifted n bytes.length = lead first * 128 + payload second := by
      rw [groups_succ, List.cons.injEq] at hgroups
      have hsecond := congrArg payload hgroups.1
      rw [payload_group] at hsecond
      rw [← hshift, shifted_succ]
      omega
    have hrange : (Int64.ofInt n).toInt = n := by
      simp only [extendable, Bool.and_eq_true, decide_eq_true_eq] at hm
      exact Int64.toInt_ofInt_of_le (by omega) (by omega)
    -- With fewer groups the two leading ones would be one, and the first would be redundant.
    have hcount : length (Int64.ofInt n) = bytes.length + 2 := by
      rw [length, hrange]
      refine countGroups_eq (by omega) (hshift ▸ hsingle) fun i hi hsmall => ?_
      have h := isSingle_shifted (show i ≤ bytes.length by omega) hsmall
      rw [hnext] at h
      exact hredundant ((redundant_iff hmore).2 h)
    rw [encode, hcount, hrange, groups_succ, ← hgroups, hshift]
    congr 1
    exact (group_payload first _ _ (lead_mod first) (by simpa using hmore)).symm
  · next hlast =>
    refine Scan.Takes.pure fun position => ?_
    have hrange : (Int64.ofInt (lead first)).toInt = lead first := by
      rw [isSingle_iff] at hsingle
      exact Int64.toInt_ofInt_of_le (by omega) (by omega)
    have hcount : length (Int64.ofInt (lead first)) = 1 := by
      rw [length, hrange]
      exact countGroups_eq (Nat.zero_le _) (by simpa using hsingle) (by simp)
    rw [encode, hcount, hrange, groups_succ, shifted_zero]
    congr 1
    exact (group_payload first _ _ (lead_mod first) (by simpa using hlast)).symm

end Signed

/-! ### Unsigned numbers -/

namespace Count

theorem isSingle_iff (n : Int) : isSingle n ↔ n < 128 := by simp [isSingle]

/-- A count without its lowest groups is a count. -/
theorem shifted_nonneg (n count : Nat) : 0 ≤ shifted n count := by
  induction count with
  | zero => simp
  | succ count ih =>
    rw [shifted_succ]
    omega

theorem isSingle_shifted {n i j : Nat} (hij : i ≤ j) (h : isSingle (shifted n i)) :
    isSingle (shifted n j) := by
  induction j, hij using Nat.le_induction with
  | base => exact h
  | succ j _ ih =>
    have := shifted_nonneg n j
    rw [isSingle_iff] at ih ⊢
    rw [shifted_succ]
    omega

theorem extendable_shifted {n : Nat} (hn : n < 2 ^ 64) (i : Nat) :
    extendable (shifted n (i + 1)) := by
  have h : shifted n i < 2 ^ 64 := by
    induction i with
    | zero => simpa using (by exact_mod_cast hn : (n : Int) < 2 ^ 64)
    | succ i ih =>
      have := shifted_nonneg n i
      rw [shifted_succ]
      omega
  rw [shifted_succ]
  simp only [extendable, decide_eq_true_eq]
  omega

/-- As many groups as there may be are enough. -/
theorem isSingle_last {n : Nat} (hn : n < 2 ^ 64) : isSingle (shifted n (maxGroups - 1)) := by
  rw [isSingle_iff, maxGroups, shifted_eq_div]
  omega

/-- The written form of a count below `2 ^ 64` is read as that count. -/
theorem reads_encode {n : Nat} (hn : n < 2 ^ 64) (position : Nat) :
    scan.Reads position (encode n) n := by
  obtain ⟨count, hle, hcount, hsingle, hless⟩ := countGroups_spec (isSingle_last hn)
  have hnonneg := shifted_nonneg n count
  rw [encode, length, hcount, groups_succ, scan]
  refine Scan.reads_byte_bind ?_
  rw [isSingle_iff] at hsingle
  have hlead : shifted n count % 128 = shifted n count := by omega
  have hredundant :
      UInt8.ofNat ((shifted n count % 128).toNat + if count = 0 then 0 else 128) ≠ 0x80 := by
    intro h80
    have hnat := congrArg UInt8.toNat h80
    rw [toNat_group _ _ (by split <;> omega)] at hnat
    change _ = 128 at hnat
    cases count with
    | zero => simp at hnat; omega
    | succ count =>
      have := hless count (by omega)
      rw [isSingle_iff] at this
      rw [if_neg (by omega), hlead, shifted_succ] at hnat
      omega
  rw [if_neg hredundant, continues_group, payload_group, hlead]
  cases count with
  | zero =>
    simp only [shifted_zero, ne_eq, not_true_eq_false, decide_false, Bool.false_eq_true, ↓reduceIte,
      Int.toNat_natCast]
    exact Scan.Reads.pure n _
  | succ count =>
    simp only [ne_eq, Nat.add_one_ne_zero, not_false_eq_true, decide_true, ↓reduceIte]
    rw [groups_succ]
    refine (Scan.reads_byte _ _).bind ?_
    have hread := (reads_extend .countOverflow (position + 1 + 1)
      (show count < maxGroups - 1 by omega) fun i _ => extendable_shifted hn i).map Int.toNat
    rwa [Int.toNat_natCast] at hread

/-- Whatever is read as a count is the written form of that count, which is below `2 ^ 64`. -/
theorem takes_scan : scan.Takes fun _ bytes n => bytes = encode n ∧ n < 2 ^ 64 := by
  unfold scan
  refine (Scan.Takes.bind Scan.takes_byte
    (S := fun first _ more n => first :: more = encode n ∧ n < 2 ^ 64) fun first => ?_).mono
    (by rintro _ _ _ ⟨first, _, more, rfl, rfl, h⟩; exact h)
  have hp := payload_nonneg first
  have hp' := payload_lt first
  refine Scan.Takes.guard fun hredundant => ?_
  split
  · next hmore =>
    refine (Scan.Takes.bind Scan.takes_byte
      (S := fun second _ more n => first :: second :: more = encode n ∧ n < 2 ^ 64)
      fun second => ?_).mono (by rintro _ _ _ ⟨second, _, more, rfl, rfl, h⟩; exact h)
    refine takes_extend.map ?_
    rintro position bytes n ⟨hlength, hshift, hgroups, m, p, hm, hn, hp, hp'⟩
    -- A leading group of zero that others follow would be redundant.
    have hpayload : 1 ≤ payload first := by
      have h80 : first.toNat ≠ 128 := fun h => hredundant (UInt8.toNat_inj.1 h)
      have hb := first.toNat_lt
      rw [continues_iff] at hmore
      unfold payload
      omega
    have hnext : 128 ≤ shifted n bytes.length := by
      rw [shifted_succ] at hshift
      omega
    have hnonneg : 0 ≤ n := nonneg_of_shifted (show 0 ≤ shifted n bytes.length by omega)
    have hnat : ((n.toNat : Nat) : Int) = n := Int.toNat_of_nonneg hnonneg
    have hcount : length n.toNat = bytes.length + 2 := by
      rw [length, hnat]
      refine countGroups_eq (by omega) ((isSingle_iff _).2 (by omega)) fun i hi hsmall => ?_
      rw [← hnat] at hsmall
      have h := isSingle_shifted (show i ≤ bytes.length by omega) hsmall
      rw [hnat, isSingle_iff] at h
      omega
    constructor
    · rw [encode, hcount, hnat, groups_succ, ← hgroups, hshift,
        group_payload first _ _ (by omega) (by simpa using hmore)]
    · simp only [extendable, decide_eq_true_eq] at hm
      omega
  · next hlast =>
    refine Scan.Takes.pure fun position => ?_
    have hnat : (((payload first).toNat : Nat) : Int) = payload first := Int.toNat_of_nonneg hp
    have hcount : length (payload first).toNat = 1 := by
      rw [length, hnat]
      exact countGroups_eq (Nat.zero_le _)
        (by simpa using (isSingle_iff _).2 hp') (by simp)
    constructor
    · rw [encode, hcount, hnat, groups_succ, shifted_zero,
        group_payload first _ 0 (by omega) (by simpa using hlast)]
      rfl
    · omega

end Count

end CellGraph.Quantity
