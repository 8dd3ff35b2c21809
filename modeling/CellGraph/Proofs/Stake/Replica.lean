import CellGraph.Proofs.Cell.Completion
import CellGraph.Proofs.Stake.Ledger
import CellGraph.Proofs.Walk.Descendants

/-!
# Stake records of which less is held

A question to a record, or an update of it, may need a map that a less loaded copy does not hold. If
it does not stop for this, it comes to the same as on a copy that holds more and is valid: the same
numbers, and records that are written alike. The checks after an update look at more on the copy
that holds more, but what they find there is what they found before, moved by the change that was
made.

* `StakeRecord.sumOfStakes_insert`, `StakeRecord.sumOfStakes_erase`: the sum of shares after a
  change of one entry, as far as the shares are held;
* `StakeRecord.Tallies`: records written alike whose maps pass the checks, as far as they are held;
* `StakeRecord.Completes.echoes_sharesOf` and the like: questions to a record;
* `StakeRecord.Completes.echoes_apply`: updates of a record.
-/

namespace CellGraph

open Attempt

namespace StakeRecord

/-! ### The sum of shares after a change -/

section

variable {resident : Link → Option Cell}

/-- The scan passes an entry, or stops at shares that are not held. -/
theorem sumOfStakes_cons_iff {entry : Entry} {rest : List Entry} {sum : Int} {found : Option Int} :
    sumOfStakes resident sum (entry :: rest) = .ok found ↔
      ¬(resident entry.1).any (fun cell => !isAddress cell.value) ∧
        (resident entry.2 = none ∧ found = none ∨
          ∃ (cell : Cell) (n : Int64), resident entry.2 = some cell ∧ cell.value = .integer n ∧
            0 < n.toInt ∧ sumOfStakes resident (sum + n.toInt) rest = .ok found) := by
  rw [sumOfStakes]
  split
  · next h => simp [h]
  · next h =>
    cases hshares : resident entry.2 with
    | none => simp [h, eq_comm]
    | some cell =>
      cases hvalue : cell.value with
      | integer n => by_cases hpos : 0 < n.toInt <;> simp [h, hvalue, hpos]
      | _ => simp [hvalue]

/-- A scan that starts with more finds as much more. -/
theorem sumOfStakes_add (change : Int) {entries : List Entry} :
    ∀ {sum : Int} {found : Option Int}, sumOfStakes resident sum entries = .ok found →
      sumOfStakes resident (sum + change) entries = .ok (found.map (· + change)) := by
  induction entries with
  | nil =>
    rintro sum _ ⟨⟩
    rfl
  | cons entry rest ih =>
    intro sum found h
    rw [sumOfStakes_cons_iff] at h ⊢
    obtain ⟨hkey, ⟨hnone, rfl⟩ | ⟨cell, n, hcell, hvalue, hpos, hrest⟩⟩ := h
    · exact ⟨hkey, .inl ⟨hnone, rfl⟩⟩
    · refine ⟨hkey, .inr ⟨cell, n, hcell, hvalue, hpos, ?_⟩⟩
      rw [Int.add_right_comm]
      exact ih hrest

/-- The entries bind a key of this digest to a number of shares that is held; none means zero. -/
def Credits (resident : Link → Option Cell) (entries : List Entry) (digest : Digest) (n : Int64) :
    Prop :=
  match Entry.find? digest entries with
  | none => n = 0
  | some entry => ∃ cell, resident entry.2 = some cell ∧ cell.value = .integer n

theorem credits_cons_of_ne {entry : Entry} {rest : List Entry} {digest : Digest} {n : Int64}
    (h : entry.1.digest ≠ digest) :
    Credits resident (entry :: rest) digest n ↔ Credits resident rest digest n := by
  simp [Credits, Entry.find?, h]

theorem credits_cons_of_eq {entry : Entry} {rest : List Entry} {digest : Digest} {n : Int64}
    (h : entry.1.digest = digest) :
    Credits resident (entry :: rest) digest n ↔
      ∃ cell, resident entry.2 = some cell ∧ cell.value = .integer n := by
  simp [Credits, Entry.find?, h]

/-- Where every key is greater, there are no shares. -/
theorem Credits.eq_zero {entries : List Entry} {digest : Digest} {n : Int64}
    (h : Credits resident entries digest n)
    (hgreater : ∀ entry ∈ entries, digest < entry.1.digest) : n = 0 := by
  have hfind : Entry.find? digest entries = none := by
    refine List.find?_eq_none.2 fun entry hentry => ?_
    simpa using fun heq : entry.1.digest = digest =>
      List.lt_irrefl _ (heq ▸ hgreater entry hentry)
  rwa [Credits, hfind] at h

/-- With an entry that takes the place of one with its key, the sum moves by the difference. -/
theorem sumOfStakes_insert {entry : Entry} {amount : Cell} {n : Int64}
    (hkey : ¬(resident entry.1).any fun cell => !isAddress cell.value)
    (hamount : resident entry.2 = some amount) (hvalue : amount.value = .integer n)
    (hpos : 0 < n.toInt) {entries : List Entry} (hascending : Entry.Ascending entries) {old : Int64}
    (hcredits : Credits resident entries entry.1.digest old) :
    ∀ {sum : Int} {found : Option Int}, sumOfStakes resident sum entries = .ok found →
      sumOfStakes resident sum (Entry.insert entry.1.digest entry entries) =
        .ok (found.map (· + (n.toInt - old.toInt))) := by
  -- Where the entry is put before others, there was no entry with its key.
  have hfirst : ∀ {rest : List Entry} {sum : Int} {found : Option Int}, old = 0 →
      sumOfStakes resident sum rest = .ok found →
        sumOfStakes resident sum (entry :: rest) = .ok (found.map (· + (n.toInt - old.toInt))) := by
    rintro rest sum found rfl h
    refine sumOfStakes_cons_iff.2 ⟨hkey, .inr ⟨amount, n, hamount, hvalue, hpos, ?_⟩⟩
    rw [Int64.toInt_zero, Int.sub_zero]
    exact sumOfStakes_add n.toInt h
  induction entries with
  | nil => exact fun {_ _} h => hfirst hcredits h
  | cons first rest ih =>
    intro sum found h
    obtain ⟨hgreater, hrest⟩ := List.pairwise_cons.1 hascending
    rw [Entry.insert]
    by_cases hbelow : entry.1.digest < first.1.digest
    · rw [if_pos hbelow]
      refine hfirst (hcredits.eq_zero fun other hother => ?_) h
      rcases List.mem_cons.1 hother with rfl | hother
      · exact hbelow
      · exact Digest.lt_trans hbelow (hgreater other hother)
    rw [if_neg hbelow]
    by_cases hsame : entry.1.digest = first.1.digest
    · rw [if_pos hsame]
      obtain ⟨cell, hcell, hold⟩ := (credits_cons_of_eq hsame.symm).1 hcredits
      obtain ⟨-, ⟨hnone, -⟩ | ⟨cell', m, hcell', hold', -, hsum⟩⟩ := sumOfStakes_cons_iff.1 h
      · cases hcell.symm.trans hnone
      · cases hcell.symm.trans hcell'
        cases hold.symm.trans hold'
        refine sumOfStakes_cons_iff.2 ⟨hkey, .inr ⟨amount, n, hamount, hvalue, hpos, ?_⟩⟩
        have hmoved := sumOfStakes_add (n.toInt - old.toInt) hsum
        rwa [show sum + old.toInt + (n.toInt - old.toInt) = sum + n.toInt by omega] at hmoved
    · rw [if_neg hsame]
      have hcredits' := (credits_cons_of_ne (Ne.symm hsame)).1 hcredits
      obtain ⟨haddress, ⟨hnone, rfl⟩ | ⟨cell, m, hcell, hm, hmpos, hsum⟩⟩ :=
        sumOfStakes_cons_iff.1 h
      · exact sumOfStakes_cons_iff.2 ⟨haddress, .inl ⟨hnone, rfl⟩⟩
      · exact sumOfStakes_cons_iff.2
          ⟨haddress, .inr ⟨cell, m, hcell, hm, hmpos, ih hrest hcredits' hsum⟩⟩

/-- Without an entry, its shares are missing from the sum. -/
theorem sumOfStakes_erase {digest : Digest} {entries : List Entry} {old : Int64}
    (hcredits : Credits resident entries digest old) :
    ∀ {sum : Int} {found : Option Int}, sumOfStakes resident sum entries = .ok found →
      sumOfStakes resident sum (Entry.erase digest entries) =
        .ok (found.map (· + -old.toInt)) := by
  induction entries with
  | nil =>
    rintro sum _ ⟨⟩
    cases hcredits
    simp [Entry.erase, sumOfStakes]
  | cons first rest ih =>
    intro sum found h
    obtain ⟨haddress, hcase⟩ := sumOfStakes_cons_iff.1 h
    by_cases hsame : first.1.digest = digest
    · rw [Entry.erase, List.eraseP_cons_of_pos (by simpa using hsame)]
      obtain ⟨cell, hcell, hold⟩ := (credits_cons_of_eq hsame).1 hcredits
      obtain ⟨hnone, -⟩ | ⟨cell', m, hcell', hold', -, hsum⟩ := hcase
      · cases hcell.symm.trans hnone
      · cases hcell.symm.trans hcell'
        cases hold.symm.trans hold'
        have hmoved := sumOfStakes_add (-old.toInt) hsum
        rwa [show sum + old.toInt + -old.toInt = sum by omega] at hmoved
    · rw [Entry.erase, List.eraseP_cons_of_neg (by simpa using hsame)]
      obtain ⟨hnone, rfl⟩ | ⟨cell, m, hcell, hm, hmpos, hsum⟩ := hcase
      · exact sumOfStakes_cons_iff.2 ⟨haddress, .inl ⟨hnone, rfl⟩⟩
      · exact sumOfStakes_cons_iff.2 ⟨haddress, .inr ⟨cell, m, hcell, hm, hmpos,
          ih ((credits_cons_of_ne hsame).1 hcredits) hsum⟩⟩

/-- The shares in the entries add up to this, as far as they are held. -/
def AddsUp (resident : Link → Option Cell) (entries : List Entry) (total : Int) : Prop :=
  ∃ found, sumOfStakes resident 0 entries = .ok found ∧ ∀ sum ∈ found, sum = total

theorem AddsUp.moved {entries entries' : List Entry} {total change : Int}
    (h : AddsUp resident entries total)
    (hchange : ∀ {found : Option Int}, sumOfStakes resident 0 entries = .ok found →
      sumOfStakes resident 0 entries' = .ok (found.map (· + change))) :
    AddsUp resident entries' (total + change) := by
  obtain ⟨found, hfound, htotal⟩ := h
  refine ⟨_, hchange hfound, fun sum hsum => ?_⟩
  obtain ⟨sum', hsum', rfl⟩ := Option.mem_map.1 hsum
  rw [htotal sum' hsum']

/-- A map of delegators passes its check if it has entries, and these add up. -/
theorem validateStakes_eq_ok_iff {delegated : Int} {stakes : Cell} :
    validateStakes resident delegated stakes = .ok () ↔
      ∃ entries, stakes.value = .map entries ∧ entries ≠ [] ∧
        AddsUp resident entries delegated := by
  unfold validateStakes
  cases hvalue : stakes.value with
  | map entries =>
    cases entries with
    | nil => simp
    | cons entry rest =>
      simp only [Value.map.injEq, exists_eq_left', ne_eq, reduceCtorEq, not_false_eq_true, true_and,
        AddsUp]
      cases hsum : sumOfStakes resident 0 (entry :: rest) with
      | error cause => simp
      | ok found =>
        cases found with
        | none => simp
        | some sum => by_cases h : sum = delegated <;> simp [h]
  | _ => simp

end

/-! ### Two copies of a record -/

/-- A record of which more is held than of another copy. -/
structure Completes (known known' : Knowledge) (record record' : StakeRecord Link) : Prop where
  controller : record'.controller = record.controller
  peerShares : record'.peerShares = record.peerShares
  stakes : Option.Rel (Link.CompletesAll known known') record.stakes record'.stakes
  delegatedShares : record'.delegatedShares = record.delegatedShares
  metadata : Option.Rel (Link.CompletesAll known known') record.metadata record'.metadata
  timestamp : record'.timestamp = record.timestamp
  balance : record'.balance = record.balance

/-- Two records that are written alike. -/
abbrev Twins (record record' : StakeRecord Link) : Prop :=
  record'.mapLinks Link.written = record.mapLinks Link.written

/--
Two records that are written alike. The maps of both pass the checks, as far as they are held.
-/
structure Tallies (known known' : Knowledge) (record record' : StakeRecord Link) : Prop where
  written : record.Twins record'
  stakes : whenResident known.resident
    (validateStakes known.resident record.delegatedShares.toInt) record.stakes = .ok ()
  stakes' : whenResident known'.resident
    (validateStakes known'.resident record.delegatedShares.toInt) record'.stakes = .ok ()
  metadata : whenResident known.resident validateMetadata record.metadata = .ok ()
  metadata' : whenResident known'.resident validateMetadata record'.metadata = .ok ()

variable {known known' : Knowledge} {record record' : StakeRecord Link}

/-- The checks of such records come to the same. -/
theorem Tallies.validate_eq (h : Tallies known known' record record') :
    record'.validate known'.resident = record.validate known.resident := by
  have hbalance : record'.balance = record.balance :=
    congrArg (fun r : StakeRecord Bytes => r.balance) h.written
  have hdelegated : record'.delegatedShares = record.delegatedShares :=
    congrArg (fun r : StakeRecord Bytes => r.delegatedShares) h.written
  have hpeer : record'.peerShares = record.peerShares :=
    congrArg (fun r : StakeRecord Bytes => r.peerShares) h.written
  have hnone : record'.stakes.isNone = record.stakes.isNone := by
    simpa [mapLinks] using congrArg (fun r : StakeRecord Bytes => r.stakes.isNone) h.written
  unfold validate
  rw [hbalance, hdelegated, hpeer, hnone, h.stakes, h.stakes', h.metadata, h.metadata']

/-- The checks after an update come to the same. -/
theorem Tallies.echoes_checked (h : Tallies known known' record record') :
    Echoes known known' (checked record) (checked record') Twins := by
  intro k k' hk hk'
  unfold checked
  rw [run_run_bind, run_run_bind, run_run_get, run_run_get]
  simp only [hk, hk', h.validate_eq]
  cases record.validate known.resident with
  | ok => exact .inr ⟨.ok h.written, hk, hk'⟩
  | error cause => exact .inr ⟨.error _, hk, hk'⟩

/-- A number that must fit in 64 bits. -/
theorem echoes_within (n : Int) (cause : ArgumentFault) :
    Echoes known known' (within n cause) (within n cause) fun m m' => m' = m ∧ m.toInt = n := by
  unfold within
  split
  · next m hm => exact Echoes.pure ⟨rfl, toInt_of_narrow? hm⟩
  · exact Echoes.throw _

/-- A link to a map that may be empty. -/
theorem echoes_linkNonEmpty {map map' : Cell} {entries entries' : List Entry}
    (hvalue : map.value = .map entries) (hvalue' : map'.value = .map entries')
    (hlength : entries.length = entries'.length) :
    Echoes known known' (linkNonEmpty map) (linkNonEmpty map') fun link link' =>
      entries = [] ∧ link = none ∧ link' = none ∨
        entries ≠ [] ∧ ∃ l l' : Link, link = some l ∧ link' = some l' ∧
          l.target? = some map ∧ l'.target? = some map' := by
  have hsize : ∀ {map : Cell} {entries : List Entry}, map.value = .map entries →
      map.size = .ok entries.length := by
    intro map entries hvalue
    rw [Cell.size, Cell.entries?, hvalue]
    rfl
  unfold linkNonEmpty
  rw [hsize hvalue, hsize hvalue']
  have hagree : Agree (fun n n' => n = entries.length ∧ n' = n) (.ok entries.length)
      (.ok entries'.length) := .ok ⟨rfl, hlength.symm⟩
  refine (Echoes.ofExcept hagree).bind ?_
  rintro _ _ ⟨rfl, rfl⟩
  split
  · next hzero => exact Echoes.pure (.inl ⟨List.length_eq_zero_iff.1 hzero, rfl, rfl⟩)
  · next hsome =>
    refine (Echoes.link map map').bind fun l l' hlinks => Echoes.pure (.inr ⟨?_, ?_⟩)
    · exact fun hnil => hsome (List.length_eq_zero_iff.2 hnil)
    · exact ⟨l, l', rfl, rfl, hlinks⟩

namespace Completes

/-- Equal parts of related optional links. -/
theorem map_written {link link' : Option Link}
    (h : Option.Rel (Link.CompletesAll known known') link link') :
    link'.map Link.written = link.map Link.written := by
  cases h with
  | none => rfl
  | some h => exact congrArg some h.written_eq

/-- What is held of a map passes the checks, if all that the other copy holds does. -/
theorem passes {link link' : Option Link}
    (h : Option.Rel (Link.CompletesAll known known') link link')
    {check check' : Cell → Except DataFault Unit}
    (hcheck : ∀ cell cell' : Cell, cell.value.Alike (Link.CompletesAll known known') cell'.value →
      check cell = .ok () → check' cell' = .ok ())
    (hfull : whenResident known.resident check link = .ok ()) :
    whenResident known'.resident check' link' = .ok () := by
  cases h with
  | none => rfl
  | @some l l' h =>
    have hpair : ∀ p ∈ some (l, l'), Link.CompletesAll known known' p.1 p.2 :=
      fun _ hp => Option.some.inj hp ▸ h
    exact whenResident_of_shows Link.Completes.shows hpair hcheck hfull

variable (h : Completes known known' record record')

include h

theorem written : record.Twins record' := by
  simp only [Twins, mapLinks, StakeRecord.mk.injEq]
  exact ⟨h.controller, h.peerShares, map_written h.stakes, h.delegatedShares,
    map_written h.metadata, h.timestamp, h.balance⟩

/-- A copy of a valid record. -/
theorem tallies (hvalid : record.validate known.resident = .ok ()) :
    Tallies known known' record record' := by
  obtain ⟨-, -, -, -, hstakes, hmetadata⟩ := (validate_eq_ok_iff record).1 hvalid
  exact {
    written := h.written
    stakes := hstakes
    stakes' := passes h.stakes
      (fun _ _ halike => validateStakes_of_alike Link.Completes.shows halike) hstakes
    metadata := hmetadata
    metadata' := passes h.metadata (fun _ _ => validateMetadata_of_alike) hmetadata }

end Completes

/-! ### Questions to a record -/

/-- The key of host names is written alike each time. -/
theorem echoes_urlKeyword :
    Echoes known known' (Cell.makeKeyword "url") (Cell.makeKeyword "url")
      fun key key' => key'.encode = key.encode := by
  unfold Cell.makeKeyword
  rw [if_neg (by decide)]
  refine Echoes.make.mono ?_
  rintro key key' ⟨hkey, hkey'⟩
  rw [Cell.encode_of_value hkey, Cell.encode_of_value hkey']

/-- The entries of a map of delegators that is held. Where there is no map, there are none. -/
inductive Lists (resident : Link → Option Cell) : Option Link → List Entry → Prop
  | absent : Lists resident none []
  | map {link : Link} {stakes : Cell} {entries : List Entry} (held : resident link = some stakes)
    (value : stakes.value = .map entries) : Lists resident (some link) entries

theorem Lists.unique {resident : Link → Option Cell} {link : Option Link}
    {entries entries' : List Entry} (h : Lists resident link entries)
    (h' : Lists resident link entries') : entries = entries' := by
  cases h with
  | absent =>
    cases h'
    rfl
  | map held value =>
    cases h' with
    | map held' value' =>
      cases held.symm.trans held'
      exact Value.map.inj (value.symm.trans value')

/-- The delegators of a valid record add up. -/
theorem Lists.addsUp {resident : Link → Option Cell} {entries : List Entry}
    (h : Lists resident record.stakes entries) (hvalid : record.validate resident = .ok ()) :
    AddsUp resident entries record.delegatedShares.toInt := by
  obtain ⟨-, -, -, hnone, hstakes, -⟩ := (validate_eq_ok_iff record).1 hvalid
  generalize record.stakes = stakes at h hnone hstakes
  cases h with
  | absent =>
    refine ⟨some 0, rfl, fun sum hsum => ?_⟩
    have hzero : record.delegatedShares = 0 := by simpa using hnone
    rw [hzero, ← Option.some.inj hsum, Int64.toInt_zero]
  | map held value =>
    rw [whenResident, Option.bind_some, held] at hstakes
    obtain ⟨entries', hvalue', -, hadds⟩ := validateStakes_eq_ok_iff.1 hstakes
    cases value.symm.trans hvalue'
    exact hadds

namespace Completes

variable (h : Completes known known' record record')

include h

/-- A delegator has the same shares. Where they are held, the entries say so. -/
theorem echoes_sharesOf (delegator : Address) :
    Echoes known known' (record.sharesOf delegator) (record'.sharesOf delegator) fun n n' =>
      n' = n ∧ ∃ entries, Lists known.resident record.stakes entries ∧
        Credits known.resident entries delegator.digest n := by
  unfold sharesOf
  refine (Link.Completes.echoes_loadOption h.stakes).bind ?_
  generalize record.stakes = link
  rintro stakes stakes' ⟨hheld, hstakes | _⟩
  case none =>
    rw [Option.map_none, Option.map_eq_none_iff] at hheld
    exact Echoes.pure ⟨rfl, [], hheld ▸ .absent, rfl⟩
  obtain ⟨link, rfl, hresident⟩ := Option.map_eq_some_iff.1 hheld
  refine (hstakes.echoes_findDigest delegator.digest).bind ?_
  rintro found found' ⟨⟨entries, hvalue, hfind⟩, hfound | _⟩
  case none =>
    rw [Option.map_none, Option.map_eq_none_iff] at hfind
    exact Echoes.pure ⟨rfl, entries, .map hresident hvalue, by rw [Credits, hfind]⟩
  case some amount amount' =>
    obtain ⟨entry, hentry, hamount⟩ := Option.map_eq_some_iff.1 hfind
    obtain ⟨pairs, hpairs, hpairs', -⟩ := hfound.alike
    simp only [hpairs, hpairs']
    cases pairs with
    | integer n =>
      refine Echoes.pure ⟨rfl, entries, .map hresident hvalue, ?_⟩
      rw [Credits, hentry]
      exact ⟨amount, hamount, hpairs⟩
    | _ => exact Echoes.throw _

/-- The shares of a delegator have the same worth. -/
theorem echoes_valueOf (delegator : Address) :
    Echoes known known' (record.valueOf delegator) (record'.valueOf delegator) Eq := by
  have hvalue : record'.delegatedValue = record.delegatedValue := by
    rw [delegatedValue, delegatedValue, totalShares, totalShares, h.peerShares, h.delegatedShares,
      h.balance]
  unfold valueOf
  rw [h.delegatedShares, hvalue]
  split
  · exact Echoes.pure rfl
  · refine (h.echoes_sharesOf delegator).bind ?_
    rintro n _ ⟨rfl, -⟩
    split
    · exact Echoes.pure rfl
    · exact Echoes.throw _

/-- The same host name is published. -/
theorem echoes_hostname : Echoes known known' record.hostname record'.hostname Eq := by
  unfold hostname
  refine (Link.Completes.echoes_loadOption h.metadata).bind ?_
  rintro metadata metadata' ⟨-, hmetadata | _⟩
  case none => exact Echoes.pure rfl
  refine echoes_urlKeyword.bind fun key key' hkey =>
    (hmetadata.echoes_find (congrArg Digest.of hkey)).bind ?_
  rintro found found' (hfound | _)
  · obtain ⟨pairs, hpairs, hpairs', -⟩ := hfound.alike
    simp only [hpairs, hpairs']
    cases pairs <;> exact Echoes.pure rfl
  · exact Echoes.pure rfl

/-- The fields are the same cells, as far as they are held. -/
theorem echoes_field? (name : String) :
    Echoes known known' (record.field? name) (record'.field? name)
      (Option.Rel fun cell cell' => cell'.encode = cell.encode) := by
  have hmake : ∀ {value value' : Value Link}, value' = value →
      Echoes known known' (do return some (← liftM (Cell.make value)) : Attempt (Option Cell))
        (do return some (← liftM (Cell.make value')) : Attempt (Option Cell))
        (Option.Rel fun cell cell' => cell'.encode = cell.encode) := by
    rintro value _ rfl
    refine Echoes.make.bind ?_
    rintro cell cell' ⟨hcell, hcell'⟩
    exact Echoes.pure (.some (by rw [Cell.encode_of_value hcell, Cell.encode_of_value hcell']))
  have hload : ∀ {link link' : Option Link},
      Option.Rel (Link.CompletesAll known known') link link' →
      Echoes known known' (Link.loadOption link) (Link.loadOption link')
        (Option.Rel fun cell cell' => cell'.encode = cell.encode) := by
    intro link link' hlink
    refine (Link.Completes.echoes_loadOption hlink).mono ?_
    rintro cell cell' ⟨-, hcell | _⟩
    · exact .some hcell.encode_eq
    · exact .none
  unfold field?
  split
  · exact hmake (congrArg Value.address h.controller)
  split
  · exact hmake (congrArg Value.integer h.peerShares)
  split
  · exact hload h.stakes
  split
  · exact hmake (congrArg Value.integer h.delegatedShares)
  split
  · exact hload h.metadata
  split
  · exact hmake (congrArg Value.integer h.timestamp)
  split
  · exact hmake (congrArg Value.integer h.balance)
  · exact Echoes.pure .none

end Completes

/-! ### Updates of a record -/

/-- Metadata that are written alike are maps of one size, or no maps. -/
theorem echoes_setMetadata_map {map map' : Cell} (h : Tallies known known' record record')
    (halike : map.value.Alike (fun link link' => link'.written = link.written) map'.value) :
    Echoes known known' (record.setMetadata (some map)) (record'.setMetadata (some map'))
      Twins := by
  have hencode : map'.encode = map.encode := Cell.encode_eq_of_alike halike fun _ _ h => h
  obtain ⟨pairs, hvalue, hvalue', -⟩ := halike
  unfold setMetadata
  dsimp only
  unfold Cell.size Cell.entries?
  rw [hvalue, hvalue']
  cases pairs with
  | map pairs =>
    refine (echoes_linkNonEmpty hvalue hvalue' (by simp)).bind ?_
    rintro link link' (⟨-, rfl, rfl⟩ | ⟨hsome, l, l', rfl, rfl, hl, hl'⟩)
    · exact Tallies.echoes_checked { h with
        written := congrArg (fun r : StakeRecord Bytes => { r with metadata := none }) h.written
        metadata := rfl
        metadata' := rfl }
    · have hpasses : ∀ {pairs : List ((Link × Link) × (Link × Link))}, pairs ≠ [] →
          ∀ {k : Knowledge} {l : Link} {map : Cell} (f : Link × Link → Link),
            l.target? = some map → map.value = (Value.map pairs).mapLinks f →
              whenResident k.resident validateMetadata (some l) = .ok () := by
        intro pairs hpairs k l map f hl hvalue
        obtain ⟨pair, pairs, rfl⟩ := List.exists_cons_of_ne_nil hpairs
        unfold whenResident validateMetadata
        rw [Option.bind_some, Knowledge.resident_of_target hl]
        dsimp only
        rw [hvalue]
        rfl
      have hpairs : pairs ≠ [] := by simpa using hsome
      refine Tallies.echoes_checked { h with
        written := ?_
        metadata := hpasses hpairs Prod.fst hl hvalue
        metadata' := hpasses hpairs Prod.snd hl' hvalue' }
      have hlink : l'.written = l.written := by
        rw [Link.written_of_target hl, Link.written_of_target hl', hencode]
      show { record'.mapLinks Link.written with metadata := some l'.written } =
        { record.mapLinks Link.written with metadata := some l.written }
      rw [h.written, hlink]
  | _ => exact Echoes.throw _

/-- The metadata that publish a host name are written alike each time. -/
theorem echoes_hostMetadata (name : String) :
    Echoes known known' (hostMetadata name) (hostMetadata name) fun map map' =>
      map.value.Alike (fun link link' => link'.written = link.written) map'.value := by
  unfold hostMetadata
  refine echoes_urlKeyword.bind fun key key' hkey => Echoes.make.bind ?_
  rintro text text' ⟨htext, htext'⟩
  have hmap : Echoes known known' (liftM (Cell.makeMap [(key, text)]) : Attempt Cell)
      (liftM (Cell.makeMap [(key', text')]) : Attempt Cell) fun map map' =>
        (∃ k t : Link, map.value = .map [(k, t)] ∧ k.target? = some key ∧ t.target? = some text) ∧
          ∃ k t : Link, map'.value = .map [(k, t)] ∧ k.target? = some key' ∧
            t.target? = some text' :=
    Echoes.ofCalc (fun _ _ => ⟨⟨_, _, rfl, rfl, rfl⟩, _, _, rfl, rfl, rfl⟩)
      (fun k => (key.onlyNotes_noteDigest k).resident_eq)
      fun k => (key'.onlyNotes_noteDigest k).resident_eq
  refine hmap.mono ?_
  rintro map map' ⟨⟨k, t, hvalue, hk, ht⟩, k', t', hvalue', hk', ht'⟩
  rw [hvalue, hvalue']
  refine Entry.Alike.map (.cons ⟨?_, ?_⟩ .nil)
  · show k'.written = k.written
    rw [Link.written_of_target hk, Link.written_of_target hk', hkey]
  · show t'.written = t.written
    rw [Link.written_of_target ht, Link.written_of_target ht', Cell.encode_of_value htext,
      Cell.encode_of_value htext']

namespace Completes

variable (h : Completes known known' record record')

include h

/-- A map of delegators takes the place of the old one, with sums that are right for it. -/
theorem echoes_setStakes (hvalid : record.validate known.resident = .ok ()) {map map' : Cell}
    (halike : map.value.Alike (Link.CompletesAll known known') map'.value) {entries : List Entry}
    (hvalue : map.value = .map entries) {delegated : Int64}
    (hadds : AddsUp known.resident entries delegated.toInt) (balance : Int64) :
    Echoes known known' (record.setStakes map delegated balance)
      (record'.setStakes map' delegated balance) Twins := by
  have htallies := h.tallies hvalid
  have hcompletes : map.Completes known known' map' := .of_alike halike
  obtain ⟨entries', hvalue', hentries⟩ : ∃ entries', map'.value = .map entries' ∧
      Entry.Alike (Link.CompletesAll known known') entries entries' := by
    obtain ⟨pairs, hpairs, hpairs', hlinks⟩ := halike
    rw [hvalue] at hpairs
    cases pairs with
    | map pairs =>
      refine ⟨_, hpairs', Entry.alike_of_map ?_⟩
      rw [hpairs]
      exact ⟨.map pairs, rfl, rfl, hlinks⟩
    | _ => cases hpairs
  refine (echoes_linkNonEmpty hvalue hvalue' hentries.length_eq).bind ?_
  rintro link link' (⟨-, rfl, rfl⟩ | ⟨hsome, l, l', rfl, rfl, hl, hl'⟩)
  · exact Tallies.echoes_checked { htallies with
      written := congrArg (fun r : StakeRecord Bytes =>
        { r with stakes := none, delegatedShares := delegated, balance }) h.written
      stakes := rfl
      stakes' := rfl }
  · have hstakes := validateStakes_eq_ok_iff.2 ⟨entries, hvalue, hsome, hadds⟩
    have hstakes' := validateStakes_of_alike Link.Completes.shows halike hstakes
    have hlink : l'.written = l.written := by
      rw [Link.written_of_target hl, Link.written_of_target hl', hcompletes.encode_eq]
    refine Tallies.echoes_checked { htallies with
      written := ?_
      stakes := by rwa [whenResident, Option.bind_some, Knowledge.resident_of_target hl]
      stakes' := by rwa [whenResident, Option.bind_some, Knowledge.resident_of_target hl'] }
    show { record'.mapLinks Link.written with
        stakes := some l'.written, delegatedShares := delegated, balance } =
      { record.mapLinks Link.written with
        stakes := some l.written, delegatedShares := delegated, balance }
    rw [h.written, hlink]

/-- The map of delegators, or a new one. -/
theorem echoes_map (hvalid : record.validate known.resident = .ok ()) {α β : Type}
    {next : Cell → Attempt α} {next' : Cell → Attempt β} {rel : α → β → Prop}
    (hnext : ∀ map map' entries, map.Completes known known' map' → map.value = .map entries →
      Lists known.resident record.stakes entries →
      Echoes known known' (next map) (next' map') rel) :
    Echoes known known'
      (do
        match ← Link.loadOption record.stakes with
        | some map => next map
        | none => next (← Cell.make (.map [])))
      (do
        match ← Link.loadOption record'.stakes with
        | some map => next' map
        | none => next' (← Cell.make (.map []))) rel := by
  obtain ⟨-, -, -, -, hpasses, -⟩ := (validate_eq_ok_iff record).1 hvalid
  refine (Link.Completes.echoes_loadOption h.stakes).bind ?_
  generalize record.stakes = link at hnext hpasses
  rintro stakes stakes' ⟨hheld, hstakes | _⟩
  case some stakes stakes' =>
    obtain ⟨link, rfl, hresident⟩ := Option.map_eq_some_iff.1 hheld
    rw [whenResident, Option.bind_some, hresident] at hpasses
    obtain ⟨entries, hvalue, -⟩ := validateStakes_eq_ok_iff.1 hpasses
    exact hnext _ _ entries hstakes hvalue (.map hresident hvalue)
  case none =>
    rw [Option.map_none, Option.map_eq_none_iff] at hheld
    subst hheld
    refine Echoes.make.bind ?_
    rintro map map' ⟨hvalue, hvalue'⟩
    refine hnext map map' [] (.of_value_eq (hvalue.trans hvalue'.symm) ?_) hvalue .absent
    rw [hvalue]
    rfl

/-- One entry of a map of delegators is set or erased. -/
theorem echoes_setShares (hvalid : record.validate known.resident = .ok ()) {map map' : Cell}
    (hmap : map.Completes known known' map') {entries : List Entry}
    (hvalue : map.value = .map entries) (hascending : Entry.Ascending entries)
    (hadds : AddsUp known.resident entries record.delegatedShares.toInt) {delegator : Address}
    {key key' : Cell} (hkey : key.value = .address delegator)
    (hkey' : key'.value = .address delegator) {old : Int64}
    (hcredits : Credits known.resident entries delegator.digest old) {shares : Int64}
    (hnonneg : 0 ≤ shares.toInt) {delegated : Int64}
    (hdelegated : delegated.toInt = record.delegatedShares.toInt + (shares.toInt - old.toInt))
    (balance : Int64) :
    Echoes known known' (record.setShares map key shares delegated balance)
      (record'.setShares map' key' shares delegated balance) Twins := by
  have hdigest : key.digest = delegator.digest := Delegations.digest_of_address hkey
  have hdigest' : key'.digest = key.digest :=
    (Delegations.digest_of_address hkey').trans hdigest.symm
  unfold setShares
  split
  · next hzero =>
    refine (hmap.echoes_erase hdigest').bind ?_
    rintro result result' ⟨herases, herases'⟩
    have halike := herases.alike hmap id (fun _ _ => Link.Completes.digest_eq) herases' hdigest'
    refine h.echoes_setStakes hvalid halike (herases.value_eq hvalue) ?_ balance
    have hmoved := hadds.moved (sumOfStakes_erase (hdigest ▸ hcredits))
    rwa [hdelegated, hzero, Int64.toInt_zero, Int.zero_sub]
  · next hsome =>
    refine Echoes.make.bind ?_
    rintro amount amount' ⟨hamount, hamount'⟩
    refine (hmap.echoes_insert key amount key' amount').bind ?_
    rintro result result' ⟨hinserts, hinserts'⟩
    have halike := hinserts.alike hmap id (fun _ _ => Link.Completes.digest_eq) hinserts'
      (Link.Completes.of_value_eq (hkey.trans hkey'.symm) (by rw [hkey]; rfl))
      (Link.Completes.of_value_eq (hamount.trans hamount'.symm) (by rw [hamount]; rfl))
    obtain ⟨_, entry, hvalue', hentry, hbound, hresult⟩ := hinserts
    cases hvalue.symm.trans hvalue'
    refine h.echoes_setStakes hvalid halike hresult ?_ balance
    have hpos : 0 < shares.toInt :=
      lt_of_le_of_ne hnonneg fun hzero => hsome (Int64.toInt_inj.1 hzero.symm)
    have haddress : ¬(known.resident entry.1).any fun cell => !isAddress cell.value := by
      rw [Knowledge.resident_of_target hentry, Option.any_some, hkey]
      simp [isAddress]
    have hentryDigest : entry.1.digest = delegator.digest :=
      (Link.digest_of_target hentry).trans hdigest
    have hmoved := hadds.moved (sumOfStakes_insert haddress
      (Knowledge.resident_of_target hbound) hamount hpos hascending (hentryDigest ▸ hcredits))
    rwa [hdelegated]

/-- The shares of a delegator are changed. -/
theorem echoes_setDelegation (hvalid : record.validate known.resident = .ok ())
    (hascending : ∀ entries, Lists known.resident record.stakes entries →
      Entry.Ascending entries) (delegator : Address) (shares : Int64) :
    Echoes known known' (record.setDelegation delegator shares)
      (record'.setDelegation delegator shares) Twins := by
  rw [setDelegation_eq, setDelegation_eq]
  refine Echoes.guard fun hneg => ?_
  refine (h.echoes_sharesOf delegator).bind ?_
  rintro old _ ⟨rfl, entries, hlists, hcredits⟩
  rw [h.delegatedShares, h.balance]
  split
  · exact Echoes.pure h.written
  refine (echoes_within _ _).bind ?_
  rintro _ change ⟨rfl, hchange⟩
  refine (echoes_within _ _).bind ?_
  rintro _ delegated ⟨rfl, hdelegated⟩
  refine (echoes_within _ _).bind ?_
  rintro _ balance ⟨rfl, -⟩
  refine Echoes.make.bind ?_
  rintro key key' ⟨hkey, hkey'⟩
  refine h.echoes_map hvalid fun map map' _ hmap hvalue hlists' => ?_
  cases hlists.unique hlists'
  exact h.echoes_setShares hvalid hmap hvalue (hascending _ hlists) (hlists.addsUp hvalid) hkey
    hkey' hcredits (toInt_nonneg_of_not_neg hneg) (hchange ▸ hdelegated) balance

/-- The peer's own shares are changed. -/
theorem echoes_setPeerShares (hvalid : record.validate known.resident = .ok ()) (shares : Int64) :
    Echoes known known' (record.setPeerShares shares) (record'.setPeerShares shares) Twins := by
  unfold setPeerShares
  refine Echoes.guard fun _ => ?_
  rw [h.peerShares, h.balance]
  split
  · exact Echoes.pure h.written
  · refine (echoes_within _ _).bind ?_
    rintro _ balance ⟨rfl, -⟩
    exact Tallies.echoes_checked { h.tallies hvalid with
      written := congrArg (fun r : StakeRecord Bytes => { r with peerShares := shares, balance })
        h.written }

/-- A reward is added. -/
theorem echoes_addReward (hvalid : record.validate known.resident = .ok ()) (amount : Int64) :
    Echoes known known' (record.addReward amount) (record'.addReward amount) Twins := by
  unfold addReward
  refine Echoes.guard fun _ => ?_
  rw [h.balance]
  refine (echoes_within _ _).bind ?_
  rintro _ balance ⟨rfl, -⟩
  exact Tallies.echoes_checked { h.tallies hvalid with
    written := congrArg (fun r : StakeRecord Bytes => { r with balance }) h.written }

/-- The metadata are withdrawn. -/
theorem echoes_setMetadata_none (hvalid : record.validate known.resident = .ok ()) :
    Echoes known known' (record.setMetadata none) (record'.setMetadata none) Twins :=
  Tallies.echoes_checked { h.tallies hvalid with
    written := congrArg (fun r : StakeRecord Bytes => { r with metadata := none }) h.written
    metadata := rfl
    metadata' := rfl }

/-- An update comes to records that are written alike, unless a map is lacking. -/
theorem echoes_apply (hvalid : record.validate known.resident = .ok ())
    (hascending : ∀ entries, Lists known.resident record.stakes entries →
      Entry.Ascending entries) (update : StakeUpdate) :
    Echoes known known' (update.apply record) (update.apply record') Twins := by
  have hsame : ∀ map : Cell,
      map.value.Alike (fun link link' => link'.written = link.written) map.value :=
    fun map => .refl fun _ _ => rfl
  cases update with
  | delegate delegator shares => exact h.echoes_setDelegation hvalid hascending delegator shares
  | peerShares shares => exact h.echoes_setPeerShares hvalid shares
  | reward amount => exact h.echoes_addReward hvalid amount
  | metadata map =>
    cases map with
    | none => exact h.echoes_setMetadata_none hvalid
    | some map => exact echoes_setMetadata_map (h.tallies hvalid) (hsame map)
  | timestamp timestamp =>
    exact Echoes.pure (congrArg (fun r : StakeRecord Bytes => { r with timestamp }) h.written)
  | host name =>
    cases name with
    | none => exact h.echoes_setMetadata_none hvalid
    | some name =>
      exact (echoes_hostMetadata name).bind fun map map' halike =>
        echoes_setMetadata_map (h.tallies hvalid) halike

end Completes

end StakeRecord

end CellGraph
