import CellGraph.Proofs.Cell.Alike
import CellGraph.Proofs.Stake.Delegations
import CellGraph.Stake.Update

/-!
# What a stake record amounts to

The records that updates make of a new one hold their maps themselves. Such a record amounts to a
ledger: the peer's shares, a table of delegators, the rewards, what is published and when. An update
of the record is refused, or is that of the ledger.

* `Ledger`, `Ledger.Describes`: ledgers, and the records that amount to one;
* `StakeUpdate.Refused`: the updates that are refused;
* `Ledger.Answers`: how an update of a record ends;
* `Ledger.Describes.setDelegation` and its siblings: each update ends as the ledger says;
* `Ledger.Describes.encode_eq`: records that amount to one ledger are written alike.
-/

namespace CellGraph

open Delegations (HeldBy Listed)

/-- What a stake record amounts to. -/
@[ext]
structure Ledger where
  controller : Address
  peerShares : Int64
  delegations : Delegations
  /-- All that was added to the balance but not as shares. -/
  rewards : Int
  /-- A map with entries. -/
  metadata : Option Cell
  timestamp : Int64

/-- The metadata of a record, held: there are none, or a map that is not empty. -/
inductive Ledger.Published : Option Link → Option Cell → Prop
  | absent : Published none none
  | map {link : Link} {map : Cell} {entries : List Entry} (htarget : link.target? = some map)
      (hvalue : map.value = .map entries) (hsome : entries ≠ []) : Published (some link) (some map)

/-- What the peer and its delegators own jointly. -/
def Ledger.balance (ledger : Ledger) : Int :=
  ledger.peerShares.toInt + ledger.delegations.total + ledger.rewards

/-- A record amounts to a ledger. -/
structure Ledger.Describes (ledger : Ledger) (record : StakeRecord Link) : Prop where
  controller : record.controller = ledger.controller
  peerShares : record.peerShares = ledger.peerShares
  stakes : HeldBy record.stakes ledger.delegations
  delegated : record.delegatedShares.toInt = ledger.delegations.total
  metadata : Published record.metadata ledger.metadata
  timestamp : record.timestamp = ledger.timestamp
  balance : record.balance.toInt = ledger.balance
  peer_nonneg : 0 ≤ ledger.peerShares.toInt
  rewards_nonneg : 0 ≤ ledger.rewards

/-! ### Refusals -/

namespace StakeUpdate

/-- The number that an update is given is negative. -/
def Negative : StakeUpdate → Prop
  | delegate _ shares => shares < 0
  | peerShares shares => shares < 0
  | reward amount => amount < 0
  | _ => False

/-- The balance that an update leads to, as an exact number. -/
def newBalance (record : StakeRecord Link) (table : Delegations) : StakeUpdate → Int
  | delegate delegator shares =>
    record.balance.toInt - (table.shares delegator).toInt + shares.toInt
  | peerShares shares => record.balance.toInt - record.peerShares.toInt + shares.toInt
  | reward amount => record.balance.toInt + amount.toInt
  | _ => record.balance.toInt

/-- The metadata that an update is given are not a map. -/
def NotMap : StakeUpdate → Prop
  | metadata (some cell) => ∀ entries, cell.value ≠ .map entries
  | _ => False

/-- An update that is refused, given a record and the table of its delegators. -/
def Refused (record : StakeRecord Link) (table : Delegations) (update : StakeUpdate) : Prop :=
  update.Negative ∨ Int64.maxValue.toInt < update.newBalance record table ∨ update.NotMap

theorem not_refused {record : StakeRecord Link} {table : Delegations} {update : StakeUpdate}
    (hnegative : ¬update.Negative) (hmap : ¬update.NotMap)
    (hfits : update.newBalance record table ≤ Int64.maxValue.toInt) :
    ¬update.Refused record table := by
  rintro (hnegative' | hmore | hmap')
  · exact hnegative hnegative'
  · exact absurd hmore (not_lt.2 hfits)
  · exact hmap hmap'

end StakeUpdate

theorem toInt_le_max (n : Int64) : n.toInt ≤ Int64.maxValue.toInt := by
  have hmax : Int64.maxValue.toInt = 0x7FFFFFFFFFFFFFFF := by decide
  have hlt := n.toInt_lt
  omega

/-- A number of 64 bits that is not refused for its sign. -/
theorem toInt_nonneg_of_not_neg {n : Int64} (h : ¬n < 0) : 0 ≤ n.toInt := by
  rw [Int64.lt_iff_toInt_lt, Int64.toInt_zero] at h
  omega

/-- The difference of two numbers that are not negative fits in 64 bits. -/
theorem toInt_sub_of_nonneg {a b : Int64} (ha : 0 ≤ a.toInt) (hb : 0 ≤ b.toInt) :
    (a - b).toInt = a.toInt - b.toInt := by
  have hlta := a.toInt_lt
  have hltb := b.toInt_lt
  rw [Int64.toInt_sub, Int.bmod_eq_of_le] <;> omega

/-! ### Parts of updates -/

namespace Attempt

variable {α : Type}

/-- A number that must fit in 64 bits. -/
theorem Ends.within {n : Int} {cause : ArgumentFault} {next : Int64 → Attempt α}
    {post : Except Fault α → Prop}
    (hout : n < Int64.minValue.toInt ∨ Int64.maxValue.toInt < n →
      post (.error (.invalidArgument cause)))
    (hnext : ∀ m : Int64, m.toInt = n → (next m).Ends post) :
    Ends (StakeRecord.within n cause >>= next) post := by
  have hmin : Int64.minValue.toInt = -0x8000000000000000 := by decide
  have hmax : Int64.maxValue.toInt = 0x7FFFFFFFFFFFFFFF := by decide
  unfold StakeRecord.within
  cases h : narrow? n with
  | some m => exact hnext m (toInt_of_narrow? h)
  | none =>
    refine fun known => hout ?_
    unfold narrow? at h
    split at h
    · cases h
    · omega

/-- A map is linked unless it is empty. -/
theorem gives_linkNonEmpty {map : Cell} {entries : List Entry} (hvalue : map.value = .map entries) :
    (StakeRecord.linkNonEmpty map).Gives fun link =>
      entries = [] ∧ link = none ∨
        entries ≠ [] ∧ ∃ l : Link, link = some l ∧ l.target? = some map := by
  have hsize : map.size = .ok entries.length := by
    rw [Cell.size, Cell.entries?, hvalue]
    rfl
  unfold StakeRecord.linkNonEmpty
  refine (gives_ok hsize).bind fun size hsize => ?_
  subst hsize
  split
  · next hempty => exact Gives.pure (.inl ⟨List.length_eq_zero_iff.1 hempty, rfl⟩)
  · next hsome =>
    refine (gives_link map).bind fun link hlink => Gives.pure (.inr ⟨fun h => hsome ?_, link, rfl,
      hlink⟩)
    rw [h]
    rfl

end Attempt

namespace Delegations

open Attempt

variable {table : Delegations}

/-- An address without a row has no shares. -/
theorem find?_ne_none {delegator : Address} (h : table.shares delegator ≠ 0) :
    table.find? delegator.digest ≠ none := by
  intro hnone
  rw [shares, hnone] at h
  exact h rfl

theorem gives_entries {map : Cell} {entries : List Entry} (hvalue : map.value = .map entries) :
    Gives (liftM map.entries? : Attempt (List Entry)) (· = entries) :=
  gives_ok (by rw [Cell.entries?, hvalue])

/-- Removing an address that has shares. -/
theorem gives_erase {map key : Cell} {entries : List Entry} (hvalue : map.value = .map entries)
    (hlisted : Listed entries table) {delegator : Address} (hkey : key.value = .address delegator)
    (hshares : table.shares delegator ≠ 0) :
    (map.erase key).Gives fun map' => ∃ entries', map'.value = .map entries' ∧
      Listed entries' (table.erase delegator.digest) := by
  unfold Cell.erase
  refine (gives_entries hvalue).bind fun entries' hentries => ?_
  subst hentries
  refine (gives_hash key).bind fun digest hdigest => ?_
  rw [digest_of_address hkey] at hdigest
  subst hdigest
  refine (gives_noteKeys entries').bind fun _ _ => ?_
  cases hfind : Entry.find? delegator.digest entries' with
  | none =>
    have hrow := hlisted.find? delegator.digest
    rw [hfind] at hrow
    exact absurd (Option.map_eq_none_iff.1 hrow.symm) (find?_ne_none hshares)
  | some entry =>
    exact (gives_make _).mono fun _ ⟨map', hmap', hvalue'⟩ =>
      ⟨map', hmap', _, hvalue', hlisted.erase delegator⟩

/-- Binding an address to its shares. -/
theorem gives_insert {map key amount : Cell} {entries : List Entry}
    (hvalue : map.value = .map entries) (hlisted : Listed entries table) {delegator : Address}
    (hkey : key.value = .address delegator) {n : Int64} (hamount : amount.value = .integer n)
    (hn : 0 < n) :
    (map.insert key amount).Gives fun map' => ∃ entries', map'.value = .map entries' ∧
      Listed entries' (table.insert delegator.digest (delegator, n)) := by
  have hentry : Gives (liftM (Cell.makeEntry key amount) : Attempt Entry)
      fun entry => row? entry = some (delegator, n) :=
    gives_calc fun _ => row?_of_targets rfl hkey rfl hamount
  unfold Cell.insert
  refine (gives_entries hvalue).bind fun entries' hentries => ?_
  subst hentries
  refine hentry.bind fun entry hentry => (gives_noteKeys entries').bind fun _ _ => ?_
  exact (gives_make _).mono fun _ ⟨map', hmap', hvalue'⟩ =>
    ⟨map', hmap', _, hvalue', hlisted.insert hentry hn⟩

/-- The map of delegators that is changed is the one on record, or an empty one. -/
theorem HeldBy.ends_map {α : Type} {stakes : Option Link} (h : HeldBy stakes table)
    {next : Cell → Attempt α} {post : Except Fault α → Prop}
    (hnext : ∀ map entries, map.value = .map entries → Listed entries table →
      (next map).Ends post) :
    Ends (do
      match ← Link.loadOption stakes with
      | some stakes => next stakes
      | none => next (← Cell.make (.map []))) post := by
  cases h with
  | absent =>
    exact (gives_make (.map [])).bind fun cell hcell => hnext cell [] hcell Listed.nil
  | @map link cell entries _ htarget hvalue hlisted _ =>
    refine (gives_loadOption htarget).bind fun loaded hloaded => ?_
    subst hloaded
    exact hnext cell entries hvalue hlisted

/-- The shares of an address are found in the table. -/
theorem HeldBy.gives_sharesOf {record : StakeRecord Link} (h : HeldBy record.stakes table)
    (delegator : Address) : (record.sharesOf delegator).Gives (· = table.shares delegator) := by
  unfold StakeRecord.sharesOf
  generalize record.stakes = stakes at h
  cases h with
  | absent => exact Gives.pure rfl
  | @map link map entries _ htarget hvalue hlisted =>
    refine (gives_loadOption htarget).bind fun loaded hloaded => ?_
    subst hloaded
    have hrow := hlisted.find? delegator.digest
    have hfound : (map.findDigest? delegator.digest).Gives fun found =>
        found.map Cell.value = (table.find? delegator.digest).map fun row => .integer row.2 := by
      unfold Cell.findDigest?
      refine (gives_entries hvalue).bind fun entries' hentries => ?_
      subst hentries
      refine (gives_noteKeys entries').bind fun _ _ => ?_
      cases hfind : Entry.find? delegator.digest entries' with
      | none =>
        rw [hfind] at hrow
        exact Gives.pure (by rw [Option.map_eq_none_iff.1 hrow.symm]; rfl)
      | some entry =>
        rw [hfind] at hrow
        obtain ⟨row, hfind', hentry⟩ := Option.map_eq_some_iff.1 hrow.symm
        obtain ⟨key, amount, -, -, hamount, hshares⟩ := row?_eq_some hentry.symm
        refine (gives_load hamount).bind fun cell hcell => Gives.pure ?_
        rw [hfind', Option.map_some, Option.map_some, hcell, hshares]
    refine hfound.bind fun found hfound => ?_
    rw [shares]
    cases hfind : table.find? delegator.digest with
    | none =>
      rw [hfind] at hfound
      rw [Option.map_eq_none_iff.1 hfound]
      exact Gives.pure rfl
    | some row =>
      rw [hfind] at hfound
      obtain ⟨cell, rfl, hcell⟩ := Option.map_eq_some_iff.1 hfound
      dsimp only
      rw [hcell]
      exact Gives.pure rfl

end Delegations

/-! ### Updates -/

namespace Ledger

open Attempt

variable {ledger : Ledger} {record : StakeRecord Link} {refused : Prop}

/-- How an update ends: it is refused, or makes a record that amounts to this ledger. -/
def Answers (ledger : Ledger) (refused : Prop) (outcome : Except Fault (StakeRecord Link)) : Prop :=
  refused ∧ (∃ cause, outcome = .error (.invalidArgument cause)) ∨
    ¬refused ∧ ∃ record, outcome = .ok record ∧ ledger.Describes record

theorem Describes.delegated_nonneg (h : ledger.Describes record) : 0 ≤ ledger.delegations.total :=
  Delegations.total_nonneg h.stakes.sound.positive

/-- A table that is held passes the check of the map of delegators, if the sum is right. -/
theorem whenResident_validateStakes {stakes : Option Link} {table : Delegations}
    (h : HeldBy stakes table) (known : Knowledge) :
    StakeRecord.whenResident known.resident
      (StakeRecord.validateStakes known.resident table.total) stakes = .ok () := by
  have hresident : ∀ link target, link.target? = some target →
      known.resident link = some target := fun _ _ => Knowledge.resident_of_target
  cases h with
  | absent => rfl
  | @map link map entries _ htarget hvalue hlisted hsome =>
    have hentries : entries ≠ [] := fun hnil => hsome (hlisted.eq_nil_iff.1 hnil)
    obtain ⟨entry, rest, rfl⟩ := List.exists_cons_of_ne_nil hentries
    rw [StakeRecord.whenResident, Option.bind_some, hresident _ _ htarget]
    simp [StakeRecord.validateStakes, hvalue, hlisted.sumOfStakes hresident]

/-- What is published passes the check of the metadata. -/
theorem whenResident_validateMetadata {metadata : Option Link} {map : Option Cell}
    (h : Published metadata map) (known : Knowledge) :
    StakeRecord.whenResident known.resident StakeRecord.validateMetadata metadata = .ok () := by
  cases h with
  | absent => rfl
  | @map link map entries htarget hvalue hsome =>
    obtain ⟨entry, rest, rfl⟩ := List.exists_cons_of_ne_nil hsome
    rw [StakeRecord.whenResident, Option.bind_some, Knowledge.resident_of_target htarget]
    simp [StakeRecord.validateMetadata, hvalue]

/-- What a record amounts to passes all checks, whatever is known. -/
theorem Describes.validate (h : ledger.Describes record) (known : Knowledge) :
    record.validate known.resident = .ok () := by
  have hdelegated := h.delegated
  have hbalance : record.balance.toInt = _ + _ + _ := h.balance
  have htotal := h.delegated_nonneg
  have hpeer := h.peer_nonneg
  have hrewards := h.rewards_nonneg
  rw [StakeRecord.validate_eq_ok_iff]
  refine ⟨?_, ?_, ?_, ?_, ?_, whenResident_validateMetadata h.metadata known⟩
  · rw [Int64.lt_iff_toInt_lt, hbalance, Int64.toInt_zero]
    omega
  · rw [Int64.lt_iff_toInt_lt, hdelegated, Int64.toInt_zero]
    omega
  · rw [Int64.lt_iff_toInt_lt, h.peerShares, Int64.toInt_zero]
    omega
  · have hstakes := h.stakes
    rintro ⟨hnone, hne⟩
    rw [Option.isNone_iff_eq_none.1 hnone] at hstakes
    generalize ledger.delegations = table at *
    cases hstakes
    exact hne (Int64.toInt_inj.1 hdelegated)
  · rw [hdelegated]
    exact whenResident_validateStakes h.stakes known

theorem Describes.ends_checked (h : ledger.Describes record) (hnot : ¬refused) :
    (StakeRecord.checked record).Ends (ledger.Answers refused) := by
  intro known
  rw [StakeRecord.checked, run_run_bind, run_run_get]
  dsimp only
  rw [h.validate known]
  exact .inr ⟨hnot, record, rfl, h⟩

/-- A record with another map of delegators, the sums having been brought up to date. -/
theorem Describes.ends_setStakes (h : ledger.Describes record) (hnot : ¬refused) {map : Cell}
    {entries : List Entry} {table : Delegations} (hvalue : map.value = .map entries)
    (hlisted : Listed entries table) {delegated balance : Int64}
    (hdelegated : delegated.toInt = table.total)
    (hbalance : balance.toInt = ledger.peerShares.toInt + table.total + ledger.rewards) :
    (record.setStakes map delegated balance).Ends
      ({ ledger with delegations := table }.Answers refused) := by
  refine (gives_linkNonEmpty hvalue).bind fun link hlink => ?_
  have hheld : HeldBy link table := by
    rcases hlink with ⟨hnil, rfl⟩ | ⟨hsome, l, rfl, htarget⟩
    · rw [hlisted.eq_nil_iff.1 hnil]
      exact .absent
    · exact .map htarget hvalue hlisted fun hnil => hsome (hlisted.eq_nil_iff.2 hnil)
  exact Describes.ends_checked { h with stakes := hheld, delegated := hdelegated,
                                        balance := hbalance } hnot

/-- A record in whose map one delegator has other shares, the sums having been brought up to date. -/
theorem Describes.ends_setShares (h : ledger.Describes record) (hnot : ¬refused)
    {map key : Cell} {entries : List Entry} (hvalue : map.value = .map entries)
    (hlisted : Listed entries ledger.delegations) {delegator : Address}
    (hkey : key.value = .address delegator) {n : Int64} (hnonneg : 0 ≤ n.toInt)
    (hchanged : ¬ledger.delegations.shares delegator = n) {delegated balance : Int64}
    (hdelegated : delegated.toInt = (ledger.delegations.set delegator n).total)
    (hbalance : balance.toInt = ledger.peerShares.toInt +
      (ledger.delegations.set delegator n).total + ledger.rewards) :
    (record.setShares map key n delegated balance).Ends
      ({ ledger with delegations := ledger.delegations.set delegator n }.Answers refused) := by
  unfold StakeRecord.setShares
  split
  · next hzero =>
    refine (Delegations.gives_erase hvalue hlisted hkey (hzero ▸ hchanged)).bind ?_
    rintro map' ⟨entries', hvalue', hlisted'⟩
    refine h.ends_setStakes hnot hvalue' ?_ hdelegated hbalance
    rwa [Delegations.set, if_neg hchanged, if_pos hzero]
  · next hsome =>
    have hpos : 0 < n := by
      rw [Int64.lt_iff_toInt_lt, Int64.toInt_zero]
      exact lt_of_le_of_ne hnonneg fun hzero => hsome (Int64.toInt_inj.1 hzero.symm)
    refine (gives_make (.integer n)).bind fun amount hamount => ?_
    refine (Delegations.gives_insert hvalue hlisted hkey hamount hpos).bind ?_
    rintro map' ⟨entries', hvalue', hlisted'⟩
    refine h.ends_setStakes hnot hvalue' ?_ hdelegated hbalance
    rwa [Delegations.set, if_neg hchanged, if_neg hsome]

/-- A change of one delegator's shares. -/
theorem Describes.setDelegation (h : ledger.Describes record) (delegator : Address) (n : Int64) :
    (record.setDelegation delegator n).Ends
      ({ ledger with delegations := ledger.delegations.set delegator n }.Answers
        ((StakeUpdate.delegate delegator n).Refused record ledger.delegations)) := by
  obtain ⟨hlow, hhigh⟩ := Delegations.shares_le_total h.stakes.sound.positive delegator
  have htotal := Delegations.total_set h.stakes.sound.pairwise delegator n
  have hbalance : record.balance.toInt = _ + _ + _ := h.balance
  have hdelegated := h.delegated
  have hpeer := h.peer_nonneg
  have hrewards := h.rewards_nonneg
  have hn := n.toInt_lt
  have hmost := record.delegatedShares.toInt_lt
  have hmin : Int64.minValue.toInt = -0x8000000000000000 := by decide
  have hmax : Int64.maxValue.toInt = 0x7FFFFFFFFFFFFFFF := by decide
  rw [StakeRecord.setDelegation_eq]
  refine Ends.guard (fun hneg => .inl ⟨.inl hneg, _, rfl⟩) fun hneg => ?_
  have hnonneg := toInt_nonneg_of_not_neg hneg
  -- A balance that does not fit is found out here or at the sum of delegated shares.
  have hrefused : Int64.maxValue.toInt < record.balance.toInt -
      (ledger.delegations.shares delegator).toInt + n.toInt →
      (StakeUpdate.delegate delegator n).Refused record ledger.delegations := fun h => .inr (.inl h)
  have hnot : record.balance.toInt - (ledger.delegations.shares delegator).toInt + n.toInt ≤
      Int64.maxValue.toInt →
        ¬(StakeUpdate.delegate delegator n).Refused record ledger.delegations :=
    fun hfits => StakeUpdate.not_refused hneg (fun hmap => hmap) hfits
  refine (h.stakes.gives_sharesOf delegator).bind fun old hold => ?_
  split
  · next hsame =>
    have hset : ledger.delegations.set delegator n = ledger.delegations :=
      if_pos (hold.symm.trans hsame)
    rw [hset]
    refine Ends.pure (.inr ⟨hnot ?_, record, rfl, h⟩)
    have := record.balance.toInt_lt
    rw [← hold, hsame]
    omega
  · next hchanged =>
    rw [hold] at hchanged
    subst hold
    refine Ends.within (fun hout => by omega) fun change hchange => ?_
    refine Ends.within (fun hout => .inl ⟨hrefused (by omega), _, rfl⟩)
      fun delegated hdelegated' => ?_
    refine Ends.within (fun hout => .inl ⟨hrefused (by omega), _, rfl⟩) fun balance hbalance' => ?_
    have hfits : ¬(StakeUpdate.delegate delegator n).Refused record ledger.delegations := by
      have := balance.toInt_lt
      exact hnot (by omega)
    refine (gives_make (.address delegator)).bind fun key hkey => ?_
    exact h.stakes.ends_map fun map entries hvalue hlisted =>
      h.ends_setShares hfits hvalue hlisted hkey hnonneg hchanged (by omega) (by omega)

/-- A change of the peer's own shares. -/
theorem Describes.setPeerShares (h : ledger.Describes record) (n : Int64) :
    (record.setPeerShares n).Ends
      ({ ledger with peerShares := n }.Answers
        ((StakeUpdate.peerShares n).Refused record ledger.delegations)) := by
  have hbalance : record.balance.toInt = _ + _ + _ := h.balance
  have htotal := h.delegated_nonneg
  have hpeer := h.peer_nonneg
  have hrewards := h.rewards_nonneg
  have hshares := congrArg Int64.toInt h.peerShares
  have hmost := record.balance.toInt_lt
  have hmin : Int64.minValue.toInt = -0x8000000000000000 := by decide
  have hmax : Int64.maxValue.toInt = 0x7FFFFFFFFFFFFFFF := by decide
  unfold StakeRecord.setPeerShares
  refine Ends.guard (fun hneg => .inl ⟨.inl hneg, _, rfl⟩) fun hneg => ?_
  have hnonneg := toInt_nonneg_of_not_neg hneg
  have hnot : record.balance.toInt - record.peerShares.toInt + n.toInt ≤ Int64.maxValue.toInt →
      ¬(StakeUpdate.peerShares n).Refused record ledger.delegations :=
    fun hfits => StakeUpdate.not_refused hneg (fun hmap => hmap) hfits
  split
  · next hsame =>
    have hledger : { ledger with peerShares := n } = ledger := by rw [hsame, h.peerShares]
    rw [hledger]
    refine Ends.pure (.inr ⟨hnot ?_, record, rfl, h⟩)
    rw [hsame]
    omega
  · have hchange : (n - record.peerShares).toInt = n.toInt - record.peerShares.toInt :=
      toInt_sub_of_nonneg hnonneg (by omega)
    refine Ends.within (fun hout => .inl ⟨.inr (.inl ?_), _, rfl⟩) fun balance hbalance' => ?_
    · show _ < record.balance.toInt - record.peerShares.toInt + n.toInt
      omega
    · have := balance.toInt_lt
      refine Describes.ends_checked { h with peerShares := rfl, balance := ?_,
                                             peer_nonneg := hnonneg } (hnot (by omega))
      show balance.toInt = n.toInt + ledger.delegations.total + ledger.rewards
      omega

/-- A reward. -/
theorem Describes.addReward (h : ledger.Describes record) (amount : Int64) :
    (record.addReward amount).Ends
      ({ ledger with rewards := ledger.rewards + amount.toInt }.Answers
        ((StakeUpdate.reward amount).Refused record ledger.delegations)) := by
  have hbalance : record.balance.toInt = _ + _ + _ := h.balance
  have htotal := h.delegated_nonneg
  have hpeer := h.peer_nonneg
  have hrewards := h.rewards_nonneg
  have hmin : Int64.minValue.toInt = -0x8000000000000000 := by decide
  have hmax : Int64.maxValue.toInt = 0x7FFFFFFFFFFFFFFF := by decide
  unfold StakeRecord.addReward
  refine Ends.guard (fun hneg => .inl ⟨.inl hneg, _, rfl⟩) fun hneg => ?_
  have hnonneg := toInt_nonneg_of_not_neg hneg
  refine Ends.within (fun hout => .inl ⟨.inr (.inl ?_), _, rfl⟩) fun balance hbalance' => ?_
  · show _ < record.balance.toInt + amount.toInt
    omega
  · refine Describes.ends_checked { h with balance := ?_, rewards_nonneg := ?_ } ?_
    · show balance.toInt = ledger.peerShares.toInt + ledger.delegations.total +
        (ledger.rewards + amount.toInt)
      omega
    · show 0 ≤ ledger.rewards + amount.toInt
      omega
    · refine StakeUpdate.not_refused hneg (fun hmap => hmap) ?_
      rw [StakeUpdate.newBalance, ← hbalance']
      exact toInt_le_max balance

/-- Whether a cell is a map with entries. -/
def hasEntries (cell : Cell) : Bool :=
  match cell.value with
  | .map entries => !entries.isEmpty
  | _ => false

/-- A change of what is published. -/
theorem Describes.setMetadata (h : ledger.Describes record) (metadata : Option Cell) :
    (record.setMetadata metadata).Ends
      ({ ledger with metadata := metadata.filter hasEntries }.Answers
        ((StakeUpdate.metadata metadata).Refused record ledger.delegations)) := by
  unfold StakeRecord.setMetadata
  cases metadata with
  | none =>
    exact Describes.ends_checked { h with metadata := .absent }
      (StakeUpdate.not_refused (fun hneg => hneg) (fun hmap => hmap) (toInt_le_max _))
  | some map =>
    dsimp only
    split
    · next hsize =>
      -- Only of a map is there a number of entries.
      refine Ends.refuse (.inl ⟨.inr (.inr fun entries hvalue => ?_), _, rfl⟩)
      rw [Cell.size, Cell.entries?, hvalue] at hsize
      cases hsize
    · next hsize =>
      obtain ⟨entries, hvalue⟩ : ∃ entries, map.value = .map entries := by
        unfold Cell.size Cell.entries? at hsize
        split at hsize
        · next entries hvalue => exact ⟨entries, hvalue⟩
        · cases hsize
      have hnot : ¬(StakeUpdate.metadata (some map)).Refused record ledger.delegations :=
        StakeUpdate.not_refused (fun hneg => hneg) (fun hmap => hmap entries hvalue)
          (toInt_le_max _)
      refine (gives_linkNonEmpty hvalue).bind fun link hlink => ?_
      refine Describes.ends_checked { h with metadata := ?_ } hnot
      rcases hlink with ⟨rfl, rfl⟩ | ⟨hsome, l, rfl, htarget⟩
      · simp only [Option.filter_some, hasEntries, hvalue]
        exact .absent
      · have hentries : hasEntries map = true := by simpa [hasEntries, hvalue] using hsome
        rw [Option.filter_some, if_pos hentries]
        exact .map htarget hvalue hsome

/-- A change of the timestamp. -/
theorem Describes.setTimestamp (h : ledger.Describes record) (timestamp : Int64) :
    ({ ledger with timestamp }).Describes (record.setTimestamp timestamp) :=
  { h with timestamp := rfl }

/-- The metadata that publish a host name are a map with an entry. -/
theorem gives_hostMetadata (name : String) :
    (hostMetadata name).Gives fun cell => hasEntries cell := by
  have hkeyword : (Cell.makeKeyword "url").Gives fun _ => True := by
    unfold Cell.makeKeyword
    rw [if_neg (by decide)]
    exact gives_calc fun _ => trivial
  refine hkeyword.bind fun key _ => (gives_make (.text name)).bind fun text _ => ?_
  exact gives_calc fun _ => rfl

/-! ### Encodings -/

theorem Published.written_eq {link : Option Link} {map : Option Cell} (h : Published link map) :
    link.map Link.written = map.map fun cell => writtenChild cell.encode := by
  cases h with
  | absent => rfl
  | map htarget _ _ =>
    rw [Option.map_some, Option.map_some, Link.written_of_target htarget]

/-- Records that amount to one ledger are written alike. -/
theorem Describes.encode_eq {record' : StakeRecord Link} (h : ledger.Describes record)
    (h' : ledger.Describes record') (label label' : Label) :
    (Cell.mk label (.peer record)).encode = (Cell.mk label' (.peer record')).encode := by
  have hrecords : record.mapLinks Link.written = record'.mapLinks Link.written := by
    simp only [StakeRecord.mapLinks, StakeRecord.mk.injEq]
    refine ⟨?_, ?_, ?_, ?_, ?_, ?_, ?_⟩
    · rw [h.controller, h'.controller]
    · rw [h.peerShares, h'.peerShares]
    · exact h.stakes.written_eq h'.stakes
    · exact Int64.toInt_inj.1 (h.delegated.trans h'.delegated.symm)
    · rw [h.metadata.written_eq, h'.metadata.written_eq]
    · rw [h.timestamp, h'.timestamp]
    · exact Int64.toInt_inj.1 (h.balance.trans h'.balance.symm)
  rw [Cell.encode_mk, Cell.encode_mk, Value.mapLinks, Value.mapLinks, hrecords]

end Ledger

end CellGraph
