import CellGraph.Proofs.Stake.Payouts

/-!
# What is inspected of the delegators

The check of a map of delegators comes to an end at the first number of shares that is not held. So
it has looked at every key and every number of shares up to there, and at nothing behind. What it
has looked at, it has found to be addresses and positive numbers of shares. An entry behind may be
anything, and a delegator of that entry may own less than nothing.

* `StakeRecord.Examined`, `StakeRecord.Proper`: the entries that are looked at, and what is found;
* `StakeRecord.sumOfStakes_eq_ok_iff`, `StakeRecord.addsUp_iff`: what a scan has found out;
* `StakeRecord.Lists.sharesOf_of_examined`: the shares of a delegator whose entry was looked at;
* `StakeRecord.Accepted.inspected`: what is known of the delegators of an accepted record.
-/

namespace CellGraph

open Attempt

namespace StakeRecord

variable {resident : Link → Option Cell} {known : Knowledge} {record : StakeRecord Link}
  {entries : List Entry} {entry : Entry}

/-! ### The entries that are looked at -/

/-- The entries that a scan comes to: the first, and others if the shares of all before are held. -/
inductive Examined (resident : Link → Option Cell) : List Entry → Entry → Prop
  | first {entry : Entry} {rest : List Entry} : Examined resident (entry :: rest) entry
  | later {first entry : Entry} {rest : List Entry} (held : (resident first.2).isSome)
    (examined : Examined resident rest entry) : Examined resident (first :: rest) entry

/-- What is held of an entry is an address, and a positive number of shares. -/
structure Proper (resident : Link → Option Cell) (entry : Entry) : Prop where
  key : ∀ cell, resident entry.1 = some cell → ∃ address, cell.value = .address address
  shares : ∀ cell, resident entry.2 = some cell →
    ∃ n : Int64, cell.value = .integer n ∧ 0 < n.toInt

/-- The shares in an entry, as far as they are held. -/
def sharesIn (resident : Link → Option Cell) (entry : Entry) : Int :=
  match (resident entry.2).map Cell.value with
  | some (.integer n) => n.toInt
  | _ => 0

theorem forall_examined_cons {first : Entry} {rest : List Entry} {good : Entry → Prop} :
    (∀ entry, Examined resident (first :: rest) entry → good entry) ↔
      good first ∧ ((resident first.2).isSome → ∀ entry, Examined resident rest entry → good entry) := by
  constructor
  · exact fun h => ⟨h first .first, fun held entry hentry => h entry (.later held hentry)⟩
  · rintro ⟨hfirst, hrest⟩ entry (_ | ⟨held, hentry⟩)
    · exact hfirst
    · exact hrest held entry hentry

/-- Where all shares are held, all entries are looked at. -/
theorem examined_of_mem (hheld : ∀ other ∈ entries, (resident other.2).isSome)
    (hentry : entry ∈ entries) : Examined resident entries entry := by
  induction entries with
  | nil => cases hentry
  | cons first rest ih =>
    obtain ⟨hfirst, hrest⟩ := List.forall_mem_cons.1 hheld
    rcases List.mem_cons.1 hentry with rfl | hmem
    · exact .first
    · exact .later hfirst (ih hrest hmem)

/-- No entry behind shares that are not held is looked at. -/
theorem Examined.of_stop {seen rest rest' : List Entry} {stop : Entry}
    (hstop : resident stop.2 = none) (h : Examined resident (seen ++ stop :: rest) entry) :
    Examined resident (seen ++ stop :: rest') entry := by
  induction seen with
  | nil =>
    rcases h with _ | ⟨held, -⟩
    · exact .first
    · rw [hstop] at held
      cases held
  | cons first seen ih =>
    rcases h with _ | ⟨held, hlater⟩
    · exact .first
    · exact .later held (ih hlater)

/-! ### What a scan finds out -/

/-- An entry is proper if the scan does not refuse it. -/
theorem proper_iff : Proper resident entry ↔
    ¬(resident entry.1).any (fun cell => !isAddress cell.value) ∧
      (resident entry.2 = none ∨
        ∃ (cell : Cell) (n : Int64), resident entry.2 = some cell ∧ cell.value = .integer n ∧
          0 < n.toInt) := by
  have hkey : ¬(resident entry.1).any (fun cell => !isAddress cell.value) ↔
      ∀ cell, resident entry.1 = some cell → ∃ address, cell.value = .address address := by
    cases resident entry.1 with
    | none => simp
    | some cell => cases hvalue : cell.value <;> simp [isAddress, hvalue]
  rw [hkey]
  constructor
  · rintro ⟨key, shares⟩
    refine ⟨key, ?_⟩
    cases hheld : resident entry.2 with
    | none => exact .inl rfl
    | some cell =>
      obtain ⟨n, hvalue, hpos⟩ := shares cell hheld
      exact .inr ⟨cell, n, rfl, hvalue, hpos⟩
  · rintro ⟨key, hnone | ⟨cell, n, hheld, hvalue, hpos⟩⟩
    · refine ⟨key, fun cell hcell => ?_⟩
      cases hnone.symm.trans hcell
    · refine ⟨key, fun cell' hcell => ?_⟩
      cases hheld.symm.trans hcell
      exact ⟨n, hvalue, hpos⟩

/--
A scan succeeds if all entries that it looks at are proper. It finds a sum if all shares are held.
-/
theorem sumOfStakes_eq_ok_iff {sum : Int} {found : Option Int} :
    sumOfStakes resident sum entries = .ok found ↔
      (∀ entry, Examined resident entries entry → Proper resident entry) ∧
        found = if entries.all fun entry => (resident entry.2).isSome then
          some (sum + (entries.map (sharesIn resident)).sum) else none := by
  induction entries generalizing sum with
  | nil =>
    rw [sumOfStakes, Except.ok.injEq, List.map_nil, List.sum_nil, Int.add_zero]
    refine ⟨fun hfound => ⟨fun entry hentry => ?_, hfound.symm⟩, fun h => h.2.symm⟩
    cases hentry
  | cons first rest ih =>
    rw [sumOfStakes_cons_iff, forall_examined_cons, proper_iff, List.all_cons, List.map_cons,
      List.sum_cons]
    cases hheld : resident first.2 with
    | none => simp
    | some cell =>
      have hshares : ∀ n : Int64, cell.value = .integer n → sharesIn resident first = n.toInt := by
        intro n hvalue
        rw [sharesIn, hheld, Option.map_some, hvalue]
      simp only [ih, Option.isSome_some, Bool.true_and, ← Int.add_assoc]
      constructor
      · rintro ⟨hkey, ⟨⟨⟩, -⟩ | ⟨_, n, ⟨⟩, hvalue, hpos, hrest, hfound⟩⟩
        rw [hshares n hvalue]
        exact ⟨⟨⟨hkey, .inr ⟨cell, n, rfl, hvalue, hpos⟩⟩, fun _ => hrest⟩, hfound⟩
      · rintro ⟨⟨⟨hkey, ⟨⟨⟩⟩ | ⟨_, n, ⟨⟩, hvalue, hpos⟩⟩, hrest⟩, hfound⟩
        rw [hshares n hvalue] at hfound
        exact ⟨hkey, .inr ⟨cell, n, rfl, hvalue, hpos, hrest trivial, hfound⟩⟩

/-- The shares add up to a sum if all entries that are looked at are proper, and so is the sum. -/
theorem addsUp_iff {total : Int} :
    AddsUp resident entries total ↔
      (∀ entry, Examined resident entries entry → Proper resident entry) ∧
        ((∀ entry ∈ entries, (resident entry.2).isSome) →
          (entries.map (sharesIn resident)).sum = total) := by
  constructor
  · rintro ⟨found, hfound, htotal⟩
    obtain ⟨hproper, hsum⟩ := sumOfStakes_eq_ok_iff.1 hfound
    refine ⟨hproper, fun hall => ?_⟩
    rw [if_pos (List.all_eq_true.2 hall), Int.zero_add] at hsum
    exact htotal _ hsum
  · rintro ⟨hproper, htotal⟩
    refine ⟨_, sumOfStakes_eq_ok_iff.2 ⟨hproper, rfl⟩, fun sum hsum => ?_⟩
    split at hsum
    · next hall =>
      cases hsum
      rw [Int.zero_add]
      exact htotal (List.all_eq_true.1 hall)
    · cases hsum

/-- Shares add up as well with other entries behind shares that are not held. -/
theorem AddsUp.of_stop {seen rest rest' : List Entry} {stop : Entry} {total : Int}
    (h : AddsUp resident (seen ++ stop :: rest) total) (hstop : resident stop.2 = none) :
    AddsUp resident (seen ++ stop :: rest') total := by
  obtain ⟨hproper, -⟩ := addsUp_iff.1 h
  refine addsUp_iff.2 ⟨fun entry hentry => hproper entry (hentry.of_stop hstop), fun hall => ?_⟩
  have hheld := hall stop (by simp)
  rw [hstop] at hheld
  cases hheld

/-! ### The shares of a delegator -/

/-- A delegator without an entry has no shares. -/
theorem Lists.sharesOf_of_not_find (h : Lists known.resident record.stakes entries)
    {delegator : Address} (hfind : Entry.find? delegator.digest entries = none) :
    ((record.sharesOf delegator).run.run known).1 = .ok 0 := by
  rw [(record.endsWhere_sharesOf delegator known rfl).1]
  refine h.sharesHeld ?_
  rw [Credits, hfind]

/-- A question for shares stops at the delegator's entry, if it holds none. -/
theorem Lists.stopShares_of_find (h : Lists resident record.stakes entries) {delegator : Address}
    (hfind : Entry.find? delegator.digest entries = some entry) (hnone : resident entry.2 = none) :
    record.stopShares resident delegator = some entry.2 := by
  unfold stopShares
  generalize record.stakes = stakes at h
  cases h with
  | absent => cases hfind
  | map held value =>
    simp only [Link.stop, Cell.stopBound, Option.bind_some, Option.map_some, held, value, hfind,
      hnone]

/-- A delegator whose entry was found to be proper has shares, or they are reported as missing. -/
theorem Lists.sharesOf_of_proper (h : Lists known.resident record.stakes entries)
    {delegator : Address} (hfind : Entry.find? delegator.digest entries = some entry)
    (hproper : Proper known.resident entry) :
    (∃ n : Int64, ((record.sharesOf delegator).run.run known).1 = .ok n ∧ 0 < n.toInt) ∨
      known.resident entry.2 = none ∧
        ((record.sharesOf delegator).run.run known).1 = .error (.missingData entry.2.digest) := by
  rw [(record.endsWhere_sharesOf delegator known rfl).1]
  cases hheld : known.resident entry.2 with
  | some cell =>
    obtain ⟨n, hvalue, hpos⟩ := hproper.shares cell hheld
    refine .inl ⟨n, h.sharesHeld ?_, hpos⟩
    rw [Credits, hfind]
    exact ⟨cell, hheld, hvalue⟩
  | none =>
    refine .inr ⟨rfl, ?_⟩
    rw [← missing?_eq_some_iff, record.missing?_sharesHeld, h.stopShares_of_find hfind hheld]
    rfl

/-! ### Records that have been accepted -/

/-- The map of delegators of a valid record has entries, which add up. -/
theorem exists_entries_of_validate {link : Link} {map : Cell}
    (hvalid : record.validate resident = .ok ()) (hlink : record.stakes = some link)
    (hheld : resident link = some map) :
    ∃ entries, map.value = .map entries ∧ entries ≠ [] ∧
      AddsUp resident entries record.delegatedShares.toInt := by
  obtain ⟨-, -, -, -, hstakes, -⟩ := (validate_eq_ok_iff record).1 hvalid
  rw [hlink, whenResident, Option.bind_some, hheld] at hstakes
  exact validateStakes_eq_ok_iff.1 hstakes

/--
What is known of the delegators of an accepted record whose map is held. The map has entries, and
those that have been looked at are proper, so if all shares are held all entries are, and the shares
add up. No delegator with such an entry owns less than one share; one without an entry owns none.
Of what stands behind shares that are not held, nothing is known: the record would be accepted
with any other entries there.
-/
theorem Accepted.inspected {link : Link} {map : Cell} (h : record.Accepted resident)
    (hlink : record.stakes = some link) (hheld : resident link = some map) :
    ∃ entries, map.value = .map entries ∧ entries ≠ [] ∧
      (∀ entry, Examined resident entries entry → Proper resident entry) ∧
      ((∀ entry ∈ entries, (resident entry.2).isSome) →
        (∀ entry ∈ entries, Proper resident entry) ∧
          (entries.map (sharesIn resident)).sum = record.delegatedShares.toInt) ∧
      (∀ (known : Knowledge) (delegator : Address), known.resident = resident →
        (Entry.find? delegator.digest entries = none →
          ((record.sharesOf delegator).run.run known).1 = .ok 0) ∧
        ∀ entry, Entry.find? delegator.digest entries = some entry →
          Examined resident entries entry →
            (∃ n : Int64, ((record.sharesOf delegator).run.run known).1 = .ok n ∧ 0 < n.toInt) ∨
              resident entry.2 = none ∧ ((record.sharesOf delegator).run.run known).1 =
                .error (.missingData entry.2.digest)) ∧
      ∀ (seen rest rest' : List Entry) (stop : Entry) (link' : Link) (map' : Cell),
        entries = seen ++ stop :: rest → resident stop.2 = none → resident link' = some map' →
          map'.value = .map (seen ++ stop :: rest') →
            { record with stakes := some link' }.validate resident = .ok () := by
  obtain ⟨hbalance, hdelegated, hpeer, -, -, hmetadata⟩ := (validate_eq_ok_iff record).1 h.valid
  obtain ⟨entries, hvalue, hsome, hadds⟩ := exists_entries_of_validate h.valid hlink hheld
  obtain ⟨hproper, htotal⟩ := addsUp_iff.1 hadds
  have hlists : Lists resident record.stakes entries := hlink ▸ .map hheld hvalue
  refine ⟨entries, hvalue, hsome, hproper, fun hall => ⟨fun entry hentry => ?_, htotal hall⟩, ?_, ?_⟩
  · exact hproper entry (examined_of_mem hall hentry)
  · rintro known delegator rfl
    exact ⟨hlists.sharesOf_of_not_find, fun entry hfind hexamined =>
      hlists.sharesOf_of_proper hfind (hproper entry hexamined)⟩
  · rintro seen rest rest' stop link' map' rfl hstop hheld' hvalue'
    have hpresent : ¬((some link').isNone ∧ record.delegatedShares ≠ 0) := by rintro ⟨⟨⟩, -⟩
    refine (validate_eq_ok_iff _).2 ⟨hbalance, hdelegated, hpeer, hpresent, ?_, hmetadata⟩
    show whenResident resident _ (some link') = _
    rw [whenResident, Option.bind_some, hheld']
    exact validateStakes_eq_ok_iff.2 ⟨_, hvalue', by simp, hadds.of_stop hstop⟩

/-! ### A delegator who owns less than nothing -/

/-- A record of which the shares of one delegator are not held, and those behind are negative. -/
def indebted : StakeRecord Link where
  controller := ⟨9⟩
  peerShares := 1
  stakes := some (.direct 0 (.mk 1 (.map
    [(.direct 2 (.mk 3 (.address ⟨2⟩)), .soft 4 .zero),
      (.direct 5 (.mk 6 (.address ⟨1⟩)), .direct 7 (.mk 8 (.integer (-5))))])))
  delegatedShares := 3
  metadata := none
  timestamp := 0
  balance := 4

theorem indebted_evaluated :
    (readBytes (Cell.encode (.mk 0 (.peer indebted)))).map (fun record =>
      ((record.stakes.bind Link.target?).isSome,
        ((record.sharesOf ⟨1⟩).run.run {}).1.toOption)) = some (true, some (-5)) := by
  decide +kernel

/-- The record is read, although a delegator has a negative number of shares, which is not seen. -/
theorem indebted_inspected :
    ∃ (record : StakeRecord Link) (link : Link) (map : Cell) (entries : List Entry) (entry : Entry),
      readBytes (Cell.encode (.mk 0 (.peer indebted))) = some record ∧
      record.stakes = some link ∧ link.target? = some map ∧ map.value = .map entries ∧
      Entry.find? (Address.digest ⟨1⟩) entries = some entry ∧
      ¬Examined Link.target? entries entry ∧
      ((record.sharesOf ⟨1⟩).run.run {}).1 = .ok (-5) := by
  obtain ⟨record, hrecord, hfacts⟩ := Option.map_eq_some_iff.1 indebted_evaluated
  obtain ⟨hheld, hshares⟩ := Prod.mk.inj hfacts
  obtain ⟨map, hbind⟩ := Option.isSome_iff_exists.1 hheld
  obtain ⟨link, hlink, hmap⟩ := Option.bind_eq_some_iff.1 hbind
  obtain ⟨entries, hvalue, -, -, -, hquestions, -⟩ :=
    (Accepted.of_readBytes hrecord).inspected hlink hmap
  have hknown : ({} : Knowledge).resident = Link.target? := by
    funext link
    cases link <;> simp [Knowledge.resident, Link.target?]
  have howes : ((record.sharesOf ⟨1⟩).run.run {}).1 = .ok (-5) := by
    rcases hrun : ((record.sharesOf ⟨1⟩).run.run {}).1 with fault | n <;> rw [hrun] at hshares
    · cases hshares
    · rw [Option.some.inj hshares]
  obtain ⟨habsent, hpresent⟩ := hquestions {} ⟨1⟩ hknown
  simp only [howes] at habsent hpresent
  cases hfind : Entry.find? (Address.digest ⟨1⟩) entries with
  | none => exact absurd (habsent hfind) (by decide)
  | some entry =>
    refine ⟨record, link, map, entries, entry, hrecord, hlink, hmap, hvalue, hfind, ?_, howes⟩
    intro hexamined
    obtain ⟨n, hn, hpos⟩ | ⟨-, hmissing⟩ := hpresent entry hfind hexamined
    · cases hn
      exact absurd hpos (by decide)
    · cases hmissing

end StakeRecord

end CellGraph
