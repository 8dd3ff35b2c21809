import CellGraph.Proofs.Computation.EndsWhere
import CellGraph.Proofs.Query.Replication
import CellGraph.Proofs.Stake.Proportions

/-!
# What is paid out to delegators

Each delegator owns a part of what all of them own together, in proportion to its shares and rounded
down. So nobody is owed more than there is, and less than one unit for each delegator is left over.

* `sum_parts_le`, `lt_sum_parts`: what many parts of a whole add up to;
* `StakeRecord.payout`, `StakeRecord.Loaded`: what an address is paid out, and records that hold all
  of their delegators;
* `StakeRecord.Loaded.exists_rows`: the delegators and their shares;
* `StakeRecord.Loaded.exists_payout`: every address is paid out its part;
* `Chronicle.Reached.payouts`: all payouts of a record.
-/

namespace CellGraph

/-! ### Parts of a whole -/

/-- Each part with its remainder, added up. -/
theorem sum_parts_add_remainders (whole all : Int) (shares : List Int) :
    all * (shares.map fun n => whole * n / all).sum +
      (shares.map fun n => whole * n % all).sum = whole * shares.sum := by
  induction shares with
  | nil => simp
  | cons n rest ih =>
    have hn := Int.mul_ediv_add_emod (whole * n) all
    simp only [List.map_cons, List.sum_cons, Int.mul_add]
    omega

theorem sum_remainders_nonneg (whole : Int) {all : Int} (hall : 0 < all) (shares : List Int) :
    0 ≤ (shares.map fun n => whole * n % all).sum := by
  induction shares with
  | nil => simp
  | cons n rest ih =>
    have hn := Int.emod_nonneg (whole * n) hall.ne'
    simp only [List.map_cons, List.sum_cons]
    omega

theorem sum_remainders_lt (whole : Int) {all : Int} (hall : 0 < all) {shares : List Int}
    (hsome : shares ≠ []) :
    (shares.map fun n => whole * n % all).sum < all * shares.length := by
  induction shares with
  | nil => exact absurd rfl hsome
  | cons n rest ih =>
    have hn := Int.emod_lt_of_pos (whole * n) hall
    simp only [List.map_cons, List.sum_cons, List.length_cons, Nat.cast_add, Nat.cast_one,
      Int.mul_add, Int.mul_one]
    by_cases hrest : rest = []
    · subst hrest
      simpa using hn
    · have hless := ih hrest
      omega

/-- The parts of a whole are no more than it. -/
theorem sum_parts_le (whole : Int) {shares : List Int} (hall : 0 < shares.sum) :
    (shares.map fun n => whole * n / shares.sum).sum ≤ whole := by
  have hsum := sum_parts_add_remainders whole shares.sum shares
  have hnonneg := sum_remainders_nonneg whole hall shares
  rw [Int.mul_comm whole] at hsum
  exact Int.le_of_mul_le_mul_left (by omega) hall

/-- Less than one is lost with each part of a whole. -/
theorem lt_sum_parts (whole : Int) {shares : List Int} (hall : 0 < shares.sum) :
    whole - shares.length < (shares.map fun n => whole * n / shares.sum).sum := by
  have hsome : shares ≠ [] := by
    rintro rfl
    simp at hall
  have hsum := sum_parts_add_remainders whole shares.sum shares
  have hless := sum_remainders_lt whole hall hsome
  refine Int.lt_of_mul_lt_mul_left (a := shares.sum) ?_ hall.le
  rw [Int.mul_sub, Int.mul_comm _ whole]
  omega

namespace StakeRecord

variable {resident : Link → Option Cell} {known : Knowledge} {record : StakeRecord Link}
  {entries : List Entry} {delegator : Address}

/-! ### Records that hold all of their delegators -/

/-- What an address is paid out, where this much is known. -/
def payout (record : StakeRecord Link) (known : Knowledge) (delegator : Address) :
    Except Fault Int64 :=
  ((record.valueOf delegator).run.run known).1

/-- The map of delegators is held, if there is one, and so are all keys and values in it. -/
structure Loaded (record : StakeRecord Link) (resident : Link → Option Cell)
    (entries : List Entry) : Prop where
  lists : Lists resident record.stakes entries
  held : ∀ entry ∈ entries, (resident entry.1).isSome ∧ (resident entry.2).isSome

/-- An entry binds an address to a number of shares, and both are held. -/
def Binds (resident : Link → Option Cell) (row : Address × Int64) (entry : Entry) : Prop :=
  ∃ key amount : Cell, resident entry.1 = some key ∧ key.value = .address row.1 ∧
    resident entry.2 = some amount ∧ amount.value = .integer row.2

/-- If a scan of entries that are held succeeds, they bind addresses to shares, which it adds up. -/
theorem exists_rows_of_sumOfStakes
    (hheld : ∀ entry ∈ entries, (resident entry.1).isSome ∧ (resident entry.2).isSome)
    {sum : Int} {found : Option Int} (h : sumOfStakes resident sum entries = .ok found) :
    ∃ rows : List (Address × Int64), List.Forall₂ (Binds resident) rows entries ∧
      (∀ row ∈ rows, 0 < row.2.toInt) ∧
      found = some (sum + (rows.map fun row => row.2.toInt).sum) := by
  induction entries generalizing sum with
  | nil =>
    cases h
    exact ⟨[], .nil, nofun, by simp⟩
  | cons entry rest ih =>
    obtain ⟨hentry, hrest⟩ := List.forall_mem_cons.1 hheld
    obtain ⟨key, hkey⟩ := Option.isSome_iff_exists.1 hentry.1
    obtain ⟨hkeys, ⟨hnone, -⟩ | ⟨amount, n, hamount, hvalue, hpos, hsum⟩⟩ := sumOfStakes_cons_iff.1 h
    · rw [hnone] at hentry
      cases hentry.2
    · obtain ⟨rows, hrows, hpositive, hfound⟩ := ih hrest hsum
      have haddress : ∃ a, key.value = .address a := by
        rw [hkey] at hkeys
        cases hvalue : key.value with
        | address a => exact ⟨a, rfl⟩
        | _ => simp [isAddress, hvalue] at hkeys
      obtain ⟨a, ha⟩ := haddress
      refine ⟨(a, n) :: rows, .cons ⟨key, amount, hkey, ha, hamount, hvalue⟩ hrows,
        List.forall_mem_cons.2 ⟨hpos, hpositive⟩, ?_⟩
      rw [hfound, List.map_cons, List.sum_cons, Int.add_assoc]

/-- The shares of the delegators of a valid record add up, so nobody has more than all. -/
theorem Loaded.exists_rows (h : record.Loaded known.resident entries)
    (hvalid : record.validate known.resident = .ok ()) :
    ∃ rows : List (Address × Int64), List.Forall₂ (Binds known.resident) rows entries ∧
      (∀ row ∈ rows, 0 < row.2.toInt ∧ row.2.toInt ≤ record.delegatedShares.toInt) ∧
      (rows.map fun row => row.2.toInt).sum = record.delegatedShares.toInt := by
  obtain ⟨found, hfound, htotal⟩ := h.lists.addsUp hvalid
  obtain ⟨rows, hrows, hpositive, rfl⟩ := exists_rows_of_sumOfStakes h.held hfound
  have hsum : (rows.map fun row => row.2.toInt).sum = record.delegatedShares.toInt := by
    rw [← htotal _ rfl, Int.zero_add]
  refine ⟨rows, hrows, fun row hrow => ⟨hpositive row hrow, hsum ▸ ?_⟩, hsum⟩
  exact List.single_le_sum (List.forall_mem_map.2 fun other hother => (hpositive other hother).le)
    _ (List.mem_map_of_mem hrow)

/-- Each address has some of the shares that the entries bind, or none. -/
theorem exists_credits {rows : List (Address × Int64)}
    (hrows : List.Forall₂ (Binds resident) rows entries) {most : Int} (hmost : 0 ≤ most)
    (hbounds : ∀ row ∈ rows, 0 < row.2.toInt ∧ row.2.toInt ≤ most) (digest : Digest) :
    ∃ n : Int64, Credits resident entries digest n ∧ 0 ≤ n.toInt ∧ n.toInt ≤ most := by
  induction hrows with
  | nil => exact ⟨0, rfl, le_rfl, hmost⟩
  | @cons row entry rows entries hbinds _ ih =>
    obtain ⟨⟨hlow, hhigh⟩, hrest⟩ := List.forall_mem_cons.1 hbounds
    by_cases heq : entry.1.digest = digest
    · obtain ⟨key, amount, -, -, hamount, hvalue⟩ := hbinds
      exact ⟨row.2, (credits_cons_of_eq heq).2 ⟨amount, hamount, hvalue⟩, hlow.le, hhigh⟩
    · obtain ⟨n, hcredits, hn⟩ := ih hrest
      exact ⟨n, (credits_cons_of_ne heq).2 hcredits, hn⟩

/-- In a map in order, an entry credits its own key. -/
theorem credits_of_mem (hascending : Entry.Ascending entries) {entry : Entry}
    (hentry : entry ∈ entries) {amount : Cell} {n : Int64} (hamount : resident entry.2 = some amount)
    (hvalue : amount.value = .integer n) : Credits resident entries entry.1.digest n := by
  induction entries with
  | nil => cases hentry
  | cons first rest ih =>
    obtain ⟨hfirst, hrest⟩ := List.pairwise_cons.1 hascending
    rcases List.mem_cons.1 hentry with rfl | hmem
    · exact (credits_cons_of_eq rfl).2 ⟨amount, hamount, hvalue⟩
    · have hne : first.1.digest ≠ entry.1.digest := fun heq =>
        List.lt_irrefl _ (heq ▸ hfirst entry hmem)
      exact (credits_cons_of_ne hne).2 (ih hrest hmem)

/-- A map gives the shares that its entries credit a key with, or has no such key. -/
theorem bound_of_credits {map : Cell} (hmap : map.value = .map entries) {digest : Digest}
    {n : Int64} (hcredits : Credits resident entries digest n) :
    n = 0 ∧ map.bound resident digest = .ok none ∨
      ∃ amount, map.bound resident digest = .ok (some amount) ∧ amount.value = .integer n := by
  have hentries : map.entries? = .ok entries := by rw [Cell.entries?, hmap]
  have hbound : map.bound resident digest =
      Link.heldOption resident ((Entry.find? digest entries).map Prod.snd) := by
    rw [Cell.bound, hentries]
    rfl
  unfold Credits at hcredits
  rw [hbound]
  cases hfind : Entry.find? digest entries with
  | none =>
    rw [hfind] at hcredits
    exact .inl ⟨hcredits, rfl⟩
  | some entry =>
    rw [hfind] at hcredits
    obtain ⟨amount, hamount, hvalue⟩ := hcredits
    refine .inr ⟨amount, ?_, hvalue⟩
    rw [Option.map_some, Link.heldOption, Link.held_eq_ok_iff.2 hamount]
    rfl

/-- An address has the shares that the entries credit it with. -/
theorem Lists.sharesHeld (h : Lists resident record.stakes entries) {n : Int64}
    (hcredits : Credits resident entries delegator.digest n) :
    record.sharesHeld resident delegator = .ok n := by
  unfold StakeRecord.sharesHeld
  generalize record.stakes = stakes at h
  cases h with
  | absent =>
    cases hcredits
    rfl
  | @map link map _ held hmap =>
    rw [Link.heldOption, Link.held_eq_ok_iff.2 held]
    show (map.bound resident delegator.digest >>= _) = _
    rcases bound_of_credits hmap hcredits with ⟨rfl, hbound⟩ | ⟨amount, hbound, hvalue⟩
    · rw [hbound]
      rfl
    · rw [hbound]
      obtain ⟨label, value⟩ := amount
      cases hvalue
      rfl

/-! ### Payouts -/

/-- An address with some of the delegated shares is paid out its part. -/
theorem Nonnegative.exists_payout (h : record.Nonnegative) {n : Int64}
    (hshares : record.sharesHeld known.resident delegator = .ok n) (hlow : 0 ≤ n.toInt)
    (hhigh : n.toInt ≤ record.delegatedShares.toInt) :
    ∃ value : Int64, record.payout known delegator = .ok value ∧
      value.toInt = record.delegatedValue.toInt * n.toInt / record.delegatedShares.toInt := by
  unfold payout valueOf
  by_cases hnone : record.delegatedShares ≤ 0
  · rw [if_pos hnone]
    rw [Int64.le_iff_toInt_le, Int64.toInt_zero] at hnone
    have hzero : record.delegatedShares.toInt = 0 := le_antisymm hnone h.delegated
    exact ⟨0, rfl, by rw [hzero, Int.ediv_zero, Int64.toInt_zero]⟩
  · rw [if_neg hnone]
    have hpos : 0 < record.delegatedShares.toInt := by
      rw [Int64.le_iff_toInt_le, Int64.toInt_zero] at hnone
      omega
    have hvalue := h.delegatedValue_bounds.1
    have hfits : record.delegatedValue.toInt * n.toInt / record.delegatedShares.toInt ≤
        Int64.maxValue.toInt := (part_le hvalue hhigh hpos).trans (toInt_le_max _)
    obtain ⟨value, hpart, htoInt⟩ := mulDiv_eq_some (Int.mul_nonneg hvalue hlow) hpos hfits
    have hrun := (record.endsWhere_sharesOf delegator known rfl).1
    rw [hshares] at hrun
    refine ⟨value, ?_, htoInt⟩
    rw [run_run_bind]
    rcases hend : (record.sharesOf delegator).run.run known with ⟨outcome, known'⟩
    rw [hend] at hrun
    cases hrun
    dsimp only
    rw [hpart]
    rfl

/-- What an address is paid out is a part of what all delegators own. -/
theorem Nonnegative.part_bounds (h : record.Nonnegative) {n : Int} (hlow : 0 ≤ n)
    (hhigh : n ≤ record.delegatedShares.toInt) :
    0 ≤ record.delegatedValue.toInt * n / record.delegatedShares.toInt ∧
      record.delegatedValue.toInt * n / record.delegatedShares.toInt ≤
        record.delegatedValue.toInt := by
  have hvalue := h.delegatedValue_bounds.1
  refine ⟨Int.ediv_nonneg (Int.mul_nonneg hvalue hlow) h.delegated, ?_⟩
  rcases h.delegated.eq_or_lt with hzero | hpos
  · rw [← hzero, Int.ediv_zero]
    exact hvalue
  · exact part_le hvalue hhigh hpos

/-- Each address is paid out its part of what the delegators own, which may be nothing. -/
theorem Loaded.exists_payout (h : record.Loaded known.resident entries)
    (hvalid : record.validate known.resident = .ok ()) (delegator : Address) :
    ∃ shares value : Int64, record.sharesHeld known.resident delegator = .ok shares ∧
      0 ≤ shares.toInt ∧ shares.toInt ≤ record.delegatedShares.toInt ∧
      record.payout known delegator = .ok value ∧
      value.toInt = record.delegatedValue.toInt * shares.toInt / record.delegatedShares.toInt := by
  have hnonneg := Nonnegative.of_validate hvalid
  obtain ⟨rows, hrows, hbounds, -⟩ := h.exists_rows hvalid
  obtain ⟨n, hcredits, hlow, hhigh⟩ :=
    exists_credits hrows hnonneg.delegated hbounds delegator.digest
  have hshares := h.lists.sharesHeld hcredits
  obtain ⟨value, hpayout, hvalue⟩ := hnonneg.exists_payout hshares hlow hhigh
  exact ⟨n, value, hshares, hlow, hhigh, hpayout, hvalue⟩

/-- What an address is paid out, nothing if that cannot be told. -/
def paid (record : StakeRecord Link) (known : Knowledge) (delegator : Address) : Int64 :=
  (record.payout known delegator).toOption.getD 0

/-- Each delegator is paid out its part. -/
theorem Loaded.forall₂_paid (h : record.Loaded known.resident entries)
    (hvalid : record.validate known.resident = .ok ()) (hascending : Entry.Ascending entries)
    (hdigest : ∀ entry ∈ entries, ∀ key, known.resident entry.1 = some key →
      key.digest = entry.1.digest) {rows : List (Address × Int64)}
    (hrows : List.Forall₂ (Binds known.resident) rows entries)
    (hbounds : ∀ row ∈ rows, 0 < row.2.toInt ∧ row.2.toInt ≤ record.delegatedShares.toInt) :
    List.Forall₂ (fun row entry => Binds known.resident row entry ∧
      row.1.digest = entry.1.digest ∧ record.payout known row.1 = .ok (record.paid known row.1) ∧
      (record.paid known row.1).toInt =
        record.delegatedValue.toInt * row.2.toInt / record.delegatedShares.toInt) rows entries := by
  have hmem : List.Forall₂ (fun row entry => entry ∈ entries ∧ Binds known.resident row entry)
      rows entries :=
    ((List.forall₂_and_left _ _).2 ⟨fun _ hentry => hentry, hrows.flip⟩).flip
  refine ((List.forall₂_and_left _ _).2 ⟨hbounds, hmem⟩).imp fun row entry hrow => ?_
  obtain ⟨⟨hlow, hhigh⟩, hentry, hbinds⟩ := hrow
  obtain ⟨key, amount, hkey, haddress, hamount, hvalue⟩ := id hbinds
  have hsame : entry.1.digest = row.1.digest := by
    rw [← hdigest entry hentry key hkey]
    exact congrArg Digest.of (Cell.encode_of_value haddress)
  have hcredits := credits_of_mem hascending hentry hamount hvalue
  rw [hsame] at hcredits
  obtain ⟨value, hpayout, htoInt⟩ := (Nonnegative.of_validate hvalid).exists_payout
    (h.lists.sharesHeld hcredits) hlow.le hhigh
  have hpaid : record.paid known row.1 = value := by
    unfold paid
    rw [hpayout]
    rfl
  exact ⟨hbinds, hsame.symm, hpaid ▸ hpayout, hpaid ▸ htoInt⟩

/-- An address that is no key of the map is paid out nothing. -/
theorem Loaded.payout_of_not_key (h : record.Loaded known.resident entries)
    (hnonneg : record.Nonnegative) (hnot : ∀ entry ∈ entries, entry.1.digest ≠ delegator.digest) :
    record.payout known delegator = .ok 0 := by
  have hcredits : Credits known.resident entries delegator.digest 0 := by
    unfold Credits Entry.find?
    rw [List.find?_eq_none.2 fun entry hentry => by simpa using hnot entry hentry]
  obtain ⟨value, hpayout, hvalue⟩ :=
    hnonneg.exists_payout (h.lists.sharesHeld hcredits) le_rfl hnonneg.delegated
  rw [Int64.toInt_zero, Int.mul_zero, Int.zero_ediv] at hvalue
  rw [hpayout, Int64.toInt_inj.1 (hvalue.trans Int64.toInt_zero.symm)]

/-- The addresses in a map in order are different. -/
theorem nodup_addresses (hascending : Entry.Ascending entries) {rows : List (Address × Int64)}
    (hkeys : List.Forall₂ (fun row entry => row.1.digest = entry.1.digest) rows entries) :
    (rows.map Prod.fst).Nodup := by
  have hdigests : rows.map (fun row => row.1.digest) = entries.map fun entry => entry.1.digest := by
    rw [← List.forall₂_eq_eq_eq, List.forall₂_map_left_iff, List.forall₂_map_right_iff]
    exact hkeys
  have hnodup : (entries.map fun entry => entry.1.digest).Nodup := by
    refine List.pairwise_map.2 (List.Pairwise.imp ?_ hascending)
    exact fun hlt heq => List.lt_irrefl _ (heq ▸ hlt)
  rw [← hdigests] at hnodup
  exact List.Nodup.of_map Address.digest (by rwa [List.map_map])

/-- What all delegators are paid out together. -/
theorem sum_paid_bounds {rows : List (Address × Int64)} (hsome : rows ≠ [])
    (hbounds : ∀ row ∈ rows, 0 < row.2.toInt ∧ row.2.toInt ≤ record.delegatedShares.toInt)
    (hsum : (rows.map fun row => row.2.toInt).sum = record.delegatedShares.toInt)
    (hparts : ∀ row ∈ rows, (record.paid known row.1).toInt =
      record.delegatedValue.toInt * row.2.toInt / record.delegatedShares.toInt) :
    record.delegatedValue.toInt - rows.length <
        (rows.map fun row => (record.paid known row.1).toInt).sum ∧
      (rows.map fun row => (record.paid known row.1).toInt).sum ≤ record.delegatedValue.toInt := by
  have hall : 0 < (rows.map fun row => row.2.toInt).sum := by
    obtain ⟨row, hrow⟩ := List.exists_mem_of_ne_nil rows hsome
    obtain ⟨hlow, hhigh⟩ := hbounds row hrow
    omega
  have hless := lt_sum_parts record.delegatedValue.toInt hall
  have hle := sum_parts_le record.delegatedValue.toInt hall
  rw [List.length_map, hsum, List.map_map] at hless
  rw [hsum, List.map_map] at hle
  rw [List.map_congr_left hparts]
  exact ⟨hless, hle⟩

/-- The payouts of a record that holds all of its delegators. -/
theorem Loaded.exists_payees (h : record.Loaded known.resident entries)
    (hvalid : record.validate known.resident = .ok ()) (hascending : Entry.Ascending entries)
    (hdigest : ∀ entry ∈ entries, ∀ key, known.resident entry.1 = some key →
      key.digest = entry.1.digest) (hsome : entries ≠ []) :
    ∃ payees : List (Address × Int64),
      List.Forall₂ (fun payee entry => ∃ key, known.resident entry.1 = some key ∧
        key.value = .address payee.1 ∧ record.payout known payee.1 = .ok payee.2) payees entries ∧
      (payees.map Prod.fst).Nodup ∧
      (∀ payee ∈ payees, 0 ≤ payee.2.toInt ∧ payee.2.toInt ≤ record.delegatedValue.toInt) ∧
      record.delegatedValue.toInt - entries.length < (payees.map fun payee => payee.2.toInt).sum ∧
      (payees.map fun payee => payee.2.toInt).sum ≤ record.delegatedValue.toInt := by
  obtain ⟨rows, hrows, hbounds, hsum⟩ := h.exists_rows hvalid
  have hpaid := h.forall₂_paid hvalid hascending hdigest hrows hbounds
  have hparts : ∀ row ∈ rows, (record.paid known row.1).toInt =
      record.delegatedValue.toInt * row.2.toInt / record.delegatedShares.toInt :=
    ((List.forall₂_and_left _ _).1 (hpaid.imp fun _ _ hrow => ⟨hrow.2.2.2, hrow⟩)).1
  have hrowsSome : rows ≠ [] := by
    rintro rfl
    cases hrows
    exact hsome rfl
  obtain ⟨hless, hle⟩ := sum_paid_bounds hrowsSome hbounds hsum hparts
  refine ⟨rows.map fun row => (row.1, record.paid known row.1), ?_, ?_, ?_, ?_, ?_⟩
  · rw [List.forall₂_map_left_iff]
    refine hpaid.imp fun row entry hrow => ?_
    obtain ⟨⟨key, -, hkey, haddress, -⟩, -, hpayout, -⟩ := hrow
    exact ⟨key, hkey, haddress, hpayout⟩
  · rw [List.map_map]
    exact nodup_addresses hascending (hpaid.imp fun _ _ hrow => hrow.2.1)
  · refine List.forall_mem_map.2 fun row hrow => ?_
    obtain ⟨hlow, hhigh⟩ := hbounds row hrow
    rw [hparts row hrow]
    exact (Nonnegative.of_validate hvalid).part_bounds hlow.le hhigh
  · rw [List.map_map, ← hrows.length_eq]
    exact hless
  · rw [List.map_map]
    exact hle

end StakeRecord

namespace Chronicle

variable {ι : Type} [DecidableEq ι] {chronicle : Chronicle ι} {record : StakeRecord Link}
  {entries : List Entry}

omit [DecidableEq ι] in
/-- The map of delegators of a record is in order, and its keys are filed under their digests. -/
theorem Inv.lists (h : chronicle.Inv)
    (hlinks : ∀ link ∈ record.links, link ∈ chronicle.session.links)
    (hlists : StakeRecord.Lists chronicle.session.known.resident record.stakes entries) :
    Entry.Ascending entries ∧ ∀ entry ∈ entries, ∀ key,
      chronicle.session.known.resident entry.1 = some key → key.digest = entry.1.digest := by
  have hmem : ∀ link ∈ record.stakes, link ∈ chronicle.session.links := fun link hlink =>
    hlinks link (List.mem_append_left _ (Option.mem_toList.2 hlink))
  generalize record.stakes = stakes at hlists hmem
  cases hlists with
  | absent => exact ⟨.nil, nofun⟩
  | @map link map _ held hmap =>
    have hwithin := h.usable.coherent.resident (hmem link rfl) held
    obtain ⟨hascending, hentries⟩ := Craft.entries_of_within hwithin (by rw [Cell.entries?, hmap])
    exact ⟨hascending, fun entry hentry key hkey =>
      h.usable.coherent.digest entry.1 (hentries entry hentry).1 key hkey⟩

/--
Payouts favour the pool. Of a valid record that holds all of its delegators, of which there are
some, every delegator is paid out no less than nothing and no more than all delegators own, and all
are paid out no more than that together. Less than one unit for each of them is left over. Every
other address is paid out nothing.
-/
theorem Reached.payouts (h : chronicle.Reached)
    (hlinks : ∀ link ∈ record.links, link ∈ chronicle.session.links)
    (hvalid : record.validate chronicle.session.known.resident = .ok ())
    (hloaded : record.Loaded chronicle.session.known.resident entries) (hsome : entries ≠ []) :
    (∃ payees : List (Address × Int64),
      List.Forall₂ (fun payee entry => ∃ key,
        chronicle.session.known.resident entry.1 = some key ∧ key.value = .address payee.1 ∧
          record.payout chronicle.session.known payee.1 = .ok payee.2) payees entries ∧
      (payees.map Prod.fst).Nodup ∧
      (∀ payee ∈ payees,
        0 ≤ payee.2.toInt ∧ payee.2.toInt ≤ record.delegatedValue.toInt) ∧
      record.delegatedValue.toInt - entries.length <
        (payees.map fun payee => payee.2.toInt).sum ∧
      (payees.map fun payee => payee.2.toInt).sum ≤ record.delegatedValue.toInt) ∧
    ∀ address : Address, (∀ entry ∈ entries, entry.1.digest ≠ address.digest) →
      record.payout chronicle.session.known address = .ok 0 := by
  obtain ⟨hascending, hdigest⟩ := h.inv.lists hlinks hloaded.lists
  exact ⟨hloaded.exists_payees hvalid hascending hdigest hsome, fun address hnot =>
    hloaded.payout_of_not_key (StakeRecord.Nonnegative.of_validate hvalid) hnot⟩

/-! ### A pool of two delegators -/

/-- A check that finds no fault succeeds. -/
theorem eq_ok_of_isOk {ε : Type} {outcome : Except ε Unit} (h : outcome.isOk) :
    outcome = .ok () := by
  cases outcome with
  | ok => rfl
  | error fault => cases h

/-- A record of which the peer has a quarter of all shares, and two delegators the rest. -/
def pooled : StakeRecord Link where
  controller := ⟨9⟩
  peerShares := 1
  stakes := some (.direct 0 (.mk 1 (.map
    [(.direct 2 (.mk 3 (.address ⟨2⟩)), .direct 4 (.mk 5 (.integer 2))),
      (.direct 6 (.mk 7 (.address ⟨1⟩)), .direct 8 (.mk 9 (.integer 1)))])))
  delegatedShares := 3
  metadata := none
  timestamp := 0
  balance := 10

/-- A user who has read the record. -/
def pool : Chronicle Unit where
  session := Session.perform { stores := fun _ => .emptyMemory }
    (.cells (.decode (Cell.encode (.mk 0 (.peer pooled)))))

/-- The record that has been read. -/
def poolRecord : StakeRecord Link :=
  match (cellAt pool.session 0).map Cell.value with
  | some (.peer record) => record
  | _ => pooled

/-- The entries of its map of delegators. -/
def poolEntries : List Entry :=
  match (poolRecord.stakes.bind pool.session.known.resident).map Cell.value with
  | some (.map entries) => entries
  | _ => []

set_option maxRecDepth 20000 in
theorem pool_evaluated :
    (∀ cell ∈ pool.session.everyCell [()], cell.value.Fits) ∧
    (cellAt pool.session 0).map (fun cell => cell.value.kind) = some .peer ∧
    (poolRecord.validate pool.session.known.resident).isOk ∧
    (poolRecord.stakes.bind pool.session.known.resident).map (fun cell => cell.value.kind) =
      some .map ∧
    (∀ entry ∈ poolEntries, (pool.session.known.resident entry.1).isSome ∧
      (pool.session.known.resident entry.2).isSome) ∧
    poolEntries.length = 2 ∧ poolRecord.delegatedValue = 7 := by
  decide +kernel

set_option maxRecDepth 20000 in
theorem reached_pool : pool.Reached :=
  (reached_start fun _ => .inl rfl).cells (by nofun)
    (Session.fits_of_everyCell Session.mem_unit pool_evaluated.1)

theorem links_poolRecord : ∀ link ∈ poolRecord.links, link ∈ pool.session.links := by
  obtain ⟨-, hkind, -⟩ := pool_evaluated
  obtain ⟨cell, hcell, hpeer⟩ := Option.map_eq_some_iff.1 hkind
  have hvalue : cell.value = .peer poolRecord := by
    unfold poolRecord
    rw [hcell, Option.map_some]
    cases hvalue : cell.value <;> rw [hvalue] at hpeer <;> cases hpeer
  intro link hlink
  refine .inl ⟨.cell cell, mem_items_of_cellAt hcell, Cell.mem_everyLink_of_mem ?_⟩
  rw [Cell.links, hvalue]
  exact hlink

theorem loaded_poolRecord : poolRecord.Loaded pool.session.known.resident poolEntries := by
  obtain ⟨-, -, -, hkind, hheld, -⟩ := pool_evaluated
  refine ⟨?_, hheld⟩
  obtain ⟨map, hmap, hvalue⟩ := Option.map_eq_some_iff.1 hkind
  obtain ⟨link, hlink, hresident⟩ := Option.bind_eq_some_iff.1 hmap
  rw [hlink]
  refine .map hresident ?_
  unfold poolEntries
  rw [hmap, Option.map_some]
  cases hentries : map.value <;> rw [hentries] at hvalue <;> cases hvalue

/-- The two delegators own seven together, and more than five are paid out to them. -/
theorem pool_payouts :
    ∃ payees : List (Address × Int64),
      List.Forall₂ (fun payee entry => ∃ key,
        pool.session.known.resident entry.1 = some key ∧ key.value = .address payee.1 ∧
          poolRecord.payout pool.session.known payee.1 = .ok payee.2) payees poolEntries ∧
      (payees.map Prod.fst).Nodup ∧ 5 < (payees.map fun payee => payee.2.toInt).sum ∧
      (payees.map fun payee => payee.2.toInt).sum ≤ 7 := by
  obtain ⟨-, -, hvalid, -, -, hlength, hseven⟩ := pool_evaluated
  have hsome : poolEntries ≠ [] := fun h => by rw [h] at hlength; cases hlength
  obtain ⟨⟨payees, hpaid, hnodup, -, hless, hle⟩, -⟩ :=
    reached_pool.payouts links_poolRecord (eq_ok_of_isOk hvalid) loaded_poolRecord hsome
  rw [hseven] at hless hle
  rw [hlength] at hless
  exact ⟨payees, hpaid, hnodup, hless, hle⟩

end Chronicle

end CellGraph
