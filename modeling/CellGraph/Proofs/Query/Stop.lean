import CellGraph.Proofs.Computation.EndsWhere
import CellGraph.Proofs.Query.Replication

/-!
# Where questions stop

What is asked of a map or a record may need cells that are not held. A question stops at the first
link that it needs and that holds nothing, and reports the digest of that link as missing. Which
link this is depends on nothing that is known but the cells that links hold; and it is one of the
links of the map or the record itself, or of a map that the record has.

* `missing?`, `Attempt.StopsAt`: the digest that is reported, and the link that has it;
* `Link.stop`, `MapQuestion.stop`, `RecordQuestion.stop`: the link at which a question stops;
* `MapQuestion.stopsAt_ask`, `RecordQuestion.stopsAt_ask`: that it stops there;
* `Query`, `Query.missing_eq`: what a question reports as missing;
* `Query.stop_spec`: the link at which it stops is in sight, and holds nothing.
-/

namespace CellGraph

open Attempt

section

variable {resident : Link → Option Cell}

/-! ### Where an outcome says that something is missing -/

/-- The digest that an outcome reports as missing. -/
def missing? {α : Type} : Except Fault α → Option Digest
  | .error (.missingData digest) => some digest
  | _ => none

theorem missing?_eq_some_iff {α : Type} {outcome : Except Fault α} {digest : Digest} :
    missing? outcome = some digest ↔ outcome = .error (.missingData digest) := by
  unfold missing?
  split
  · simp
  · next hnot =>
    constructor
    · nofun
    · rintro rfl
      exact absurd rfl (hnot digest)

/-- An outcome reports what the first part of a computation reports, or the rest does. -/
theorem missing?_bind {α β : Type} (outcome : Except Fault α) (next : α → Except Fault β) :
    missing? (outcome >>= next) =
      match outcome with
      | .ok a => missing? (next a)
      | .error fault => missing? (.error fault : Except Fault α) := by
  cases outcome with
  | ok a => rfl
  | error fault => cases fault <;> rfl

/-- Where links hold certain cells, a computation stops at this link, or at none. -/
abbrev Attempt.StopsAt {α : Type} (resident : Link → Option Cell) (attempt : Attempt α)
    (stop : Option Link) : Prop :=
  attempt.EndsWhere resident fun outcome => missing? outcome = stop.map Link.digest

namespace Attempt.StopsAt

variable {α β : Type} {stop : Option Link}

/-- A computation stops where its outcome says that it does. -/
theorem of_eq {attempt : Attempt α} {outcome : Except Fault α}
    (h : attempt.EndsWhere resident (· = outcome)) (hstop : missing? outcome = stop.map Link.digest) :
    attempt.StopsAt resident stop :=
  h.mono fun _ heq => heq ▸ hstop

/-- Whatever it gives is put into a form in which it is an answer. -/
theorem map {attempt : Attempt α} {f : α → β} (h : attempt.StopsAt resident stop) :
    (do return f (← attempt)).StopsAt resident stop := by
  intro known hknown
  obtain ⟨hmissing, hidles⟩ := h known hknown
  rw [run_run_bind]
  rcases hrun : attempt.run.run known with ⟨fault | a, known'⟩ <;> rw [hrun] at hmissing hidles
  · refine ⟨?_, hidles⟩
    rw [← hmissing]
    cases fault <;> rfl
  · exact ⟨hmissing, hidles⟩

/-- Where the first part never stops, the rest decides. -/
theorem after {first : Attempt α} {next : α → Attempt β} (hfirst : first.StopsAt resident none)
    (hnext : ∀ a, (next a).StopsAt resident none) : (first >>= next).StopsAt resident none := by
  refine hfirst.bind (fun fault hfault => ?_) fun a _ => hnext a
  cases fault <;> first
    | rfl
    | cases hfault

/-- A computation stops where its first part does, if the rest never stops. -/
theorem before {first : Attempt α} {next : α → Attempt β} {outcome : Except Fault α}
    (hfirst : first.EndsWhere resident (· = outcome))
    (hstop : missing? outcome = stop.map Link.digest)
    (hnext : ∀ a, outcome = .ok a → (next a).StopsAt resident none) :
    (first >>= next).StopsAt resident stop := by
  refine hfirst.bind ?_ ?_
  · rintro fault rfl
    rw [← hstop]
    cases fault <;> rfl
  · rintro a rfl
    rw [← hstop]
    exact hnext a rfl

theorem ofExcept {outcome : Except Fault α} (h : missing? outcome = none) :
    StopsAt resident (liftM outcome : Attempt α) none :=
  of_eq .ofExcept h

/-- A computation that cannot fail does not stop. -/
theorem ofCalc {step : Calc α} (hidle : step.Idle) : StopsAt resident (liftM step : Attempt α) none :=
  fun known _ => ⟨rfl, hidle known⟩

end Attempt.StopsAt

/-! ### The links that are needed -/

section

variable (resident)

/--
The link at which a computation stops that follows a link: this one, if it holds nothing, or one
that is needed of the cell that it holds.
-/
def Link.stop (below : Cell → Option Link) (link : Option Link) : Option Link :=
  link.bind fun link =>
    match resident link with
    | some cell => below cell
    | none => some link

/-- The link at which a map stops that is asked for the key of this digest. -/
def Cell.stopBound (digest : Digest) (map : Cell) : Option Link :=
  match map.value with
  | .map entries => Link.stop resident (fun _ => none) ((Entry.find? digest entries).map Prod.snd)
  | _ => none

/-- The first link of a map that holds nothing. -/
def Cell.stopPairs (map : Cell) : Option Link :=
  match map.value with
  | .map entries =>
    (entries.flatMap fun entry => [entry.1, entry.2]).find? fun link => (resident link).isNone
  | _ => none

/-- The link at which a record stops that is asked for the shares of a delegator. -/
def StakeRecord.stopShares (record : StakeRecord Link) (delegator : Address) : Option Link :=
  Link.stop resident (Cell.stopBound resident delegator.digest) record.stakes

/-- The link at which a question to a map stops. -/
def MapQuestion.stop (map : Cell) : MapQuestion → Option Link
  | find key => map.stopBound resident key.digest
  | pairs => map.stopPairs resident
  | _ => none

/-- The link at which a question to a record stops. -/
def RecordQuestion.stop (record : StakeRecord Link) : RecordQuestion → Option Link
  | shares delegator => record.stopShares resident delegator
  | worth delegator =>
    if record.delegatedShares ≤ 0 then none else record.stopShares resident delegator
  | stakes => Link.stop resident (fun _ => none) record.stakes
  | metadata => Link.stop resident (fun _ => none) record.metadata
  | hostname =>
    Link.stop resident (Cell.stopBound resident (Digest.of (Value.write (.keyword "url"))))
      record.metadata
  | field name =>
    if name = "stakes" then Link.stop resident (fun _ => none) record.stakes
    else if name = "metadata" then Link.stop resident (fun _ => none) record.metadata
    else none
  | update (.delegate delegator n) =>
    if n < 0 then none else record.stopShares resident delegator
  | update _ => none

end

theorem Link.missing?_heldOption (link : Option Link) :
    missing? (Link.heldOption resident link) =
      (Link.stop resident (fun _ => none) link).map Link.digest := by
  cases link with
  | none => rfl
  | some link =>
    simp only [heldOption, held, stop, Option.bind_some]
    cases resident link <;> rfl

theorem Cell.missing?_entries (map : Cell) : missing? map.entries? = none := by
  unfold entries?
  split <;> rfl

theorem Cell.missing?_bound (map : Cell) (digest : Digest) :
    missing? (map.bound resident digest) = (map.stopBound resident digest).map Link.digest := by
  unfold bound stopBound entries?
  cases map.value with
  | map entries => exact Link.missing?_heldOption _
  | _ => rfl

theorem StakeRecord.missing?_sharesHeld (record : StakeRecord Link) (delegator : Address) :
    missing? (record.sharesHeld resident delegator) =
      (record.stopShares resident delegator).map Link.digest := by
  unfold sharesHeld stopShares
  cases record.stakes with
  | none => rfl
  | some link =>
    simp only [Link.heldOption, Link.held, Link.stop, Option.bind_some]
    cases resident link with
    | none => rfl
    | some stakes =>
      dsimp only
      rw [← stakes.missing?_bound]
      show missing? (stakes.bound resident delegator.digest >>= _) = _
      rw [missing?_bind]
      cases hbound : stakes.bound resident delegator.digest with
      | error fault => cases fault <;> rfl
      | ok shares =>
        cases shares with
        | none => rfl
        | some shares =>
          dsimp only
          cases shares.value <;> rfl

/-! ### Questions that stop -/

open Attempt (StopsAt)

theorem Link.stopsAt_loadOption (link : Option Link) :
    (Link.loadOption link).StopsAt resident (Link.stop resident (fun _ => none) link) :=
  .of_eq (Link.endsWhere_loadOption link) (Link.missing?_heldOption link)

/-- A computation that follows a link stops there, or below. -/
theorem Attempt.StopsAt.through {α : Type} {link : Option Link} {below : Cell → Option Link}
    {next : Option Cell → Attempt α} (hsome : ∀ cell, (next (some cell)).StopsAt resident (below cell))
    (hnone : (next none).StopsAt resident none) :
    (Link.loadOption link >>= next).StopsAt resident (Link.stop resident below link) := by
  have hload : (Link.loadOption link).EndsWhere resident (· = Link.heldOption resident link) :=
    Link.endsWhere_loadOption link
  cases link with
  | none =>
    refine hload.bind (fun fault hfault => ?_) fun found hfound => ?_
    · cases hfault
    · cases hfound
      exact hnone
  | some link =>
    simp only [Link.heldOption, Link.held] at hload
    simp only [Link.stop, Option.bind_some]
    cases hlink : resident link with
    | none =>
      rw [hlink] at hload
      refine hload.bind (fun fault hfault => ?_) fun found hfound => ?_
      · cases hfault
        rfl
      · cases hfound
    | some cell =>
      rw [hlink] at hload
      refine hload.bind (fun fault hfault => ?_) fun found hfound => ?_
      · cases hfault
      · cases hfound
        exact hsome cell

theorem Cell.stopsAt_find (map key : Cell) :
    (map.find? key).StopsAt resident (map.stopBound resident key.digest) :=
  .of_eq (map.endsWhere_find key) (map.missing?_bound key.digest)

/-- Both cells of an entry are held, or it stops at the first of its links that holds nothing. -/
theorem Entry.endsWhere_load (entry : Entry) :
    (do return (← entry.1.load, ← entry.2.load) : Attempt (Cell × Cell)).EndsWhere resident
      fun outcome =>
        match [entry.1, entry.2].find? fun link => (resident link).isNone with
        | some link => outcome = .error (.missingData link.digest)
        | none => ∃ pair, outcome = .ok pair := by
  refine entry.1.endsWhere_load.bind ?_ fun key hkey =>
    entry.2.endsWhere_load.bind ?_ fun value hvalue => .pure ?_
  · intro fault hfault
    obtain ⟨hnone, rfl⟩ := Link.held_eq_error_iff.1 hfault.symm
    simp [hnone]
  · intro fault hfault
    have hsome := Link.held_eq_ok_iff.1 hkey.symm
    obtain ⟨hnone, rfl⟩ := Link.held_eq_error_iff.1 hfault.symm
    simp [hsome, hnone]
  · have hsome := Link.held_eq_ok_iff.1 hkey.symm
    have hsome' := Link.held_eq_ok_iff.1 hvalue.symm
    simp [hsome, hsome']

/-- The pairs of a list of entries stop at the first link that holds nothing. -/
theorem Entry.stopsAt_loadAll (entries : List Entry) :
    (entries.mapM fun entry =>
      (do return (← entry.1.load, ← entry.2.load) : Attempt (Cell × Cell))).StopsAt resident
      ((entries.flatMap fun entry => [entry.1, entry.2]).find? fun link =>
        (resident link).isNone) := by
  induction entries with
  | nil => exact .pure rfl
  | cons entry rest ih =>
    rw [List.mapM_cons, List.flatMap_cons, List.find?_append]
    refine (Entry.endsWhere_load entry).bind ?_ ?_
    · intro fault hfault
      split at hfault
      · next link hstop =>
        cases hfault
        rw [hstop]
        rfl
      · obtain ⟨pair, ⟨⟩⟩ := hfault
    · intro pair hpair
      split at hpair
      · cases hpair
      · next hnone =>
        rw [hnone, Option.none_or]
        exact ih.map

theorem Cell.stopsAt_toPairs (map : Cell) :
    map.toPairs.StopsAt resident (map.stopPairs resident) := by
  unfold toPairs entries? stopPairs
  cases map.value with
  | map entries =>
    refine EndsWhere.ofExcept.bind (fun _ hfault => ?_) fun _ hentries => ?_
    · cases hfault
    · cases hentries
      exact Entry.stopsAt_loadAll entries
  | _ =>
    refine EndsWhere.ofExcept.bind (fun _ hfault => ?_) fun _ hentries => ?_
    · cases hfault
      rfl
    · cases hentries

/-! ### Changes of maps and records -/

theorem Cell.stopsAt_insert (map key value : Cell) :
    (map.insert key value).StopsAt resident none := by
  unfold insert
  refine (StopsAt.ofExcept map.missing?_entries).after fun entries => ?_
  refine (StopsAt.ofCalc (.makeEntry key value)).after fun entry => ?_
  refine (StopsAt.of_eq (EndsWhere.noteKeys entries) rfl).after fun _ => ?_
  exact .ofCalc (.make _)

theorem Cell.stopsAt_erase (map key : Cell) : (map.erase key).StopsAt resident none := by
  unfold erase
  refine (StopsAt.ofExcept map.missing?_entries).after fun entries => ?_
  refine (StopsAt.ofCalc (.of_notes key.onlyNotes_hash)).after fun digest => ?_
  refine (StopsAt.of_eq (EndsWhere.noteKeys entries) rfl).after fun _ => ?_
  split
  · exact .ofCalc (.make _)
  · exact .pure rfl

theorem Cell.missing?_size (map : Cell) : missing? map.size = none := by
  unfold size
  rw [missing?_bind, ← map.missing?_entries]
  cases map.entries? <;> rfl

namespace StakeRecord

theorem stopsAt_linkNonEmpty (map : Cell) : (linkNonEmpty map).StopsAt resident none := by
  unfold linkNonEmpty
  refine (StopsAt.ofExcept map.missing?_size).after fun size => ?_
  split
  · exact .pure rfl
  · exact (StopsAt.ofCalc (.link map)).after fun link => .pure rfl

theorem stopsAt_checked (record : StakeRecord Link) : record.checked.StopsAt resident none := by
  intro known hknown
  unfold checked
  rw [run_run_bind, run_run_get]
  dsimp only
  cases record.validate known.resident with
  | ok => exact ⟨rfl, .refl known⟩
  | error cause => exact ⟨rfl, .refl known⟩

theorem stopsAt_within (n : Int) (cause : ArgumentFault) :
    (within n cause).StopsAt resident none := by
  unfold within
  split
  · exact .pure rfl
  · exact .throw rfl

/-- A map takes the place of another one, once it is known which. -/
theorem stopsAt_put (map : Cell) (change : Option Link → StakeRecord Link) :
    (do checked (change (← linkNonEmpty map))).StopsAt resident none :=
  (stopsAt_linkNonEmpty map).after fun link => stopsAt_checked (change link)

/-- Where a delegator's shares are held, the map of delegators is. -/
theorem stopsAt_loadStakes {record : StakeRecord Link} {delegator : Address} {n : Int64}
    (h : record.sharesHeld resident delegator = .ok n) :
    (Link.loadOption record.stakes).StopsAt resident none := by
  refine .of_eq (Link.endsWhere_loadOption record.stakes) ?_
  unfold sharesHeld at h
  cases hstakes : Link.heldOption resident record.stakes with
  | ok => rfl
  | error fault =>
    rw [hstakes] at h
    cases h

theorem stopsAt_setShares (record : StakeRecord Link) (map key : Cell)
    (n delegated balance : Int64) :
    (record.setShares map key n delegated balance).StopsAt resident none := by
  have hput : ∀ map : Cell, (record.setStakes map delegated balance).StopsAt resident none :=
    fun map => stopsAt_put map fun link =>
      { record with stakes := link, delegatedShares := delegated, balance }
  unfold setShares
  split
  · exact (map.stopsAt_erase key).after hput
  · exact (StopsAt.ofCalc (.make _)).after fun amount => (map.stopsAt_insert key amount).after hput

theorem stopsAt_setDelegation (record : StakeRecord Link) (delegator : Address) (n : Int64) :
    (record.setDelegation delegator n).StopsAt resident
      (if n < 0 then none else record.stopShares resident delegator) := by
  rw [setDelegation_eq]
  refine EndsWhere.guard (fun hneg => by rw [if_pos hneg]; rfl) fun hneg => ?_
  rw [if_neg hneg]
  refine StopsAt.before (record.endsWhere_sharesOf delegator) (record.missing?_sharesHeld delegator)
    fun old hold => ?_
  split
  · exact .pure rfl
  refine (stopsAt_within _ _).after fun change => (stopsAt_within _ _).after fun delegated => ?_
  refine (stopsAt_within _ _).after fun balance => (StopsAt.ofCalc (.make _)).after fun key => ?_
  refine (stopsAt_loadStakes hold).after fun stakes => ?_
  cases stakes with
  | some map => exact record.stopsAt_setShares map key n delegated balance
  | none =>
    exact (StopsAt.ofCalc (.make _)).after fun map =>
      record.stopsAt_setShares map key n delegated balance

theorem stopsAt_setMetadata (record : StakeRecord Link) (metadata : Option Cell) :
    (record.setMetadata metadata).StopsAt resident none := by
  unfold setMetadata
  cases metadata with
  | none => exact stopsAt_checked _
  | some map =>
    dsimp only
    split
    · exact .throw rfl
    · exact stopsAt_put map fun link => { record with metadata := link }

theorem stopsAt_setPeerShares (record : StakeRecord Link) (n : Int64) :
    (record.setPeerShares n).StopsAt resident none := by
  unfold setPeerShares
  refine EndsWhere.guard (fun _ => rfl) fun _ => ?_
  split
  · exact .pure rfl
  · exact (stopsAt_within _ _).after fun balance => stopsAt_checked _

theorem stopsAt_addReward (record : StakeRecord Link) (amount : Int64) :
    (record.addReward amount).StopsAt resident none := by
  unfold addReward
  refine EndsWhere.guard (fun _ => rfl) fun _ => ?_
  exact (stopsAt_within _ _).after fun balance => stopsAt_checked _

/-- The key of host names can be made, and has the digest of its text. -/
theorem endsWhere_urlKeyword :
    (Cell.makeKeyword "url").EndsWhere resident fun outcome =>
      ∃ key : Cell, outcome = .ok key ∧ key.digest = Digest.of (Value.write (.keyword "url")) := by
  unfold Cell.makeKeyword
  rw [if_neg (by decide)]
  refine (EndsWhere.make (.keyword "url")).mono ?_
  rintro _ ⟨key, rfl, hvalue⟩
  exact ⟨key, rfl, congrArg Digest.of (Cell.encode_of_value hvalue)⟩

/-- The metadata that publish a host name can be made whatever is held. -/
theorem stopsAt_hostMetadata (name : String) : (hostMetadata name).StopsAt resident none := by
  have hkey : (Cell.makeKeyword "url").StopsAt resident none := by
    refine endsWhere_urlKeyword.mono ?_
    rintro _ ⟨key, rfl, -⟩
    rfl
  refine hkey.after fun key => (StopsAt.ofCalc (.make _)).after fun text => ?_
  exact .ofCalc (.makeMap [(key, text)])

/-- Of all updates, only a change of a delegator's shares stops. -/
theorem stopsAt_apply (record : StakeRecord Link) (update : StakeUpdate) :
    (update.apply record).StopsAt resident ((RecordQuestion.update update).stop resident record) := by
  cases update with
  | delegate delegator n => exact record.stopsAt_setDelegation delegator n
  | peerShares n => exact record.stopsAt_setPeerShares n
  | reward amount => exact record.stopsAt_addReward amount
  | metadata map => exact record.stopsAt_setMetadata map
  | timestamp t => exact .pure rfl
  | host name =>
    cases name with
    | none => exact record.stopsAt_setMetadata none
    | some name => exact (stopsAt_hostMetadata name).after fun map => record.stopsAt_setMetadata map

/-! ### Questions to records -/

theorem stopsAt_valueOf (record : StakeRecord Link) (delegator : Address) :
    (record.valueOf delegator).StopsAt resident
      (if record.delegatedShares ≤ 0 then none else record.stopShares resident delegator) := by
  unfold valueOf
  split
  · exact .pure rfl
  · refine StopsAt.before (record.endsWhere_sharesOf delegator)
      (record.missing?_sharesHeld delegator) fun n _ => ?_
    split
    · exact .pure rfl
    · exact .throw rfl

theorem stopsAt_hostname (record : StakeRecord Link) :
    record.hostname.StopsAt resident (RecordQuestion.hostname.stop resident record) := by
  unfold hostname
  refine StopsAt.through (fun metadata => ?_) (.pure rfl)
  refine endsWhere_urlKeyword.bind ?_ ?_
  · rintro fault ⟨key, ⟨⟩, -⟩
  · rintro key ⟨_, ⟨⟩, hdigest⟩
    refine StopsAt.before (metadata.endsWhere_find key) ?_ fun found _ => ?_
    · rw [metadata.missing?_bound, hdigest]
    · cases found with
      | none => exact .pure rfl
      | some cell =>
        dsimp only
        split
        · exact .pure rfl
        · exact .pure rfl

theorem stopsAt_field? (record : StakeRecord Link) (name : String) :
    (record.field? name).StopsAt resident ((RecordQuestion.field name).stop resident record) := by
  have hmade : ∀ value : Value Link, (do return some (← liftM (Cell.make value)) :
      Attempt (Option Cell)).StopsAt resident none := fun value => (StopsAt.ofCalc (.make value)).map
  unfold field? RecordQuestion.stop
  by_cases hstakes : name = "stakes"
  · subst hstakes
    exact Link.stopsAt_loadOption record.stakes
  by_cases hmetadata : name = "metadata"
  · subst hmetadata
    exact Link.stopsAt_loadOption record.metadata
  simp only [if_neg hstakes, if_neg hmetadata]
  split
  · exact hmade _
  split
  · exact hmade _
  split
  · exact hmade _
  split
  · exact hmade _
  split
  · exact hmade _
  · exact .pure rfl

end StakeRecord

/-! ### All questions -/

/-- What a question stops at, if it is asked of a map. -/
theorem MapQuestion.stopsAt_ask (map : Cell) (question : MapQuestion) :
    (question.ask map).StopsAt resident (question.stop resident map) := by
  cases question with
  | size => exact (StopsAt.ofExcept map.missing?_size).map
  | find key => exact (map.stopsAt_find key).map
  | pairs => exact map.stopsAt_toPairs.map
  | insert key value => exact (map.stopsAt_insert key value).map
  | erase key => exact (map.stopsAt_erase key).map

/-- What a question stops at, if it is asked of a record. -/
theorem RecordQuestion.stopsAt_ask (record : StakeRecord Link) (question : RecordQuestion) :
    (question.ask record).StopsAt resident (question.stop resident record) := by
  cases question with
  | shares delegator =>
    exact (StopsAt.of_eq (record.endsWhere_sharesOf delegator)
      (record.missing?_sharesHeld delegator)).map
  | worth delegator => exact (record.stopsAt_valueOf delegator).map
  | stakes => exact (Link.stopsAt_loadOption record.stakes).map
  | metadata => exact (Link.stopsAt_loadOption record.metadata).map
  | hostname => exact record.stopsAt_hostname.map
  | field name => exact (record.stopsAt_field? name).map
  | update change => exact (record.stopsAt_apply change).map

end

/-- A question to a map or to a record. -/
inductive Query
  | ofMap (cell : Cell) (question : MapQuestion)
  | ofRecord (record : StakeRecord Link) (question : RecordQuestion)

namespace Query

/-- Ask the question. -/
def ask : Query → Attempt Finding
  | ofMap cell question => question.ask cell
  | ofRecord record question => question.ask record

/-- The links of the map or the record. -/
def links : Query → List Link
  | ofMap cell _ => cell.links
  | ofRecord record _ => record.links

/-- The links of the map or the record, and for a record those of its maps that are held. -/
def inSight (resident : Link → Option Cell) : Query → List Link
  | ofMap cell _ => cell.links
  | ofRecord record _ =>
    record.links ++ record.links.flatMap fun link => (resident link).toList.flatMap Cell.links

/-- The link at which the question stops. -/
def stop (resident : Link → Option Cell) : Query → Option Link
  | ofMap cell question => question.stop resident cell
  | ofRecord record question => question.stop resident record

/-- The digest that is reported as missing. -/
def missing (query : Query) (known : Knowledge) : Option Digest :=
  missing? (query.ask.run.run known).1

variable {resident : Link → Option Cell} {query : Query} {known : Knowledge}

/-- A question reports as missing the digest of the link at which it stops, and changes nothing. -/
theorem endsWhere_ask (query : Query) : query.ask.StopsAt resident (query.stop resident) := by
  cases query with
  | ofMap cell question => exact question.stopsAt_ask cell
  | ofRecord record question => exact question.stopsAt_ask record

/-- What is missing depends on what links hold, and on nothing else. -/
theorem missing_eq (query : Query) (known : Knowledge) :
    query.missing known = (query.stop known.resident).map Link.digest :=
  (query.endsWhere_ask known rfl).1

/-! ### What is in sight -/

/-- A question that follows a link stops there, or below. -/
theorem of_stop {below : Cell → Option Link} {link : Option Link} {needed : Link}
    (h : Link.stop resident below link = some needed) :
    link = some needed ∧ resident needed = none ∨
      ∃ l cell, link = some l ∧ resident l = some cell ∧ below cell = some needed := by
  cases link with
  | none => cases h
  | some l =>
    simp only [Link.stop, Option.bind_some] at h
    split at h
    · next cell hcell => exact .inr ⟨l, cell, rfl, hcell, h⟩
    · next hnone =>
      cases h
      exact .inl ⟨rfl, hnone⟩

theorem of_stopBound {map : Cell} {digest : Digest} {needed : Link}
    (h : map.stopBound resident digest = some needed) :
    needed ∈ map.links ∧ resident needed = none := by
  unfold Cell.stopBound at h
  split at h
  · next entries hvalue =>
    rcases of_stop h with ⟨hentry, hnone⟩ | ⟨_, _, -, -, ⟨⟩⟩
    refine ⟨?_, hnone⟩
    obtain ⟨entry, hfind, rfl⟩ := Option.map_eq_some_iff.1 hentry
    rw [Cell.links, hvalue]
    exact List.mem_flatMap.2 ⟨entry, List.mem_of_find?_eq_some hfind, by simp⟩
  · cases h

theorem of_stopPairs {map : Cell} {needed : Link} (h : map.stopPairs resident = some needed) :
    needed ∈ map.links ∧ resident needed = none := by
  unfold Cell.stopPairs at h
  split at h
  · next entries hvalue =>
    rw [Cell.links, hvalue]
    have hnone := List.find?_some h
    exact ⟨List.mem_of_find?_eq_some h, Option.isNone_iff_eq_none.1 hnone⟩
  · cases h

/-- A map stops at one of its links that holds nothing. -/
theorem of_stop_map {map : Cell} {question : MapQuestion} {needed : Link}
    (h : question.stop resident map = some needed) :
    needed ∈ map.links ∧ resident needed = none := by
  cases question with
  | find key => exact of_stopBound h
  | pairs => exact of_stopPairs h
  | size => cases h
  | insert => cases h
  | erase => cases h

/-- A record that follows one of its links stops at a link in sight. -/
theorem mem_inSight_of_stop {record : StakeRecord Link} {question : RecordQuestion}
    {below : Cell → Option Link} {link : Option Link} {needed : Link}
    (hlink : ∀ l ∈ link, l ∈ record.links)
    (hbelow : ∀ cell, below cell = some needed → needed ∈ cell.links ∧ resident needed = none)
    (h : Link.stop resident below link = some needed) :
    needed ∈ (ofRecord record question).inSight resident ∧ resident needed = none := by
  rcases of_stop h with ⟨rfl, hnone⟩ | ⟨l, cell, rfl, hcell, hneeded⟩
  · exact ⟨List.mem_append_left _ (hlink needed rfl), hnone⟩
  · obtain ⟨hmem, hnone⟩ := hbelow cell hneeded
    refine ⟨List.mem_append_right _ (List.mem_flatMap.2 ⟨l, hlink l rfl, ?_⟩), hnone⟩
    rw [hcell]
    exact List.mem_flatMap.2 ⟨cell, by simp, hmem⟩

/-- The link at which a question stops is in sight, and holds nothing. -/
theorem stop_spec {needed : Link} (h : query.stop resident = some needed) :
    needed ∈ query.inSight resident ∧ resident needed = none := by
  cases query with
  | ofMap cell question => exact of_stop_map h
  | ofRecord record question =>
    have hstakes : ∀ l ∈ record.stakes, l ∈ record.links :=
      fun l hl => List.mem_append_left _ (Option.mem_toList.2 hl)
    have hmetadata : ∀ l ∈ record.metadata, l ∈ record.links :=
      fun l hl => List.mem_append_right _ (Option.mem_toList.2 hl)
    have hnothing : ∀ cell : Cell, (fun _ : Cell => none) cell = some needed →
        needed ∈ cell.links ∧ resident needed = none := nofun
    have hshares : ∀ delegator, record.stopShares resident delegator = some needed →
        needed ∈ (ofRecord record question).inSight resident ∧ resident needed = none :=
      fun delegator => mem_inSight_of_stop hstakes fun _ => of_stopBound
    cases question with
    | shares delegator => exact hshares delegator h
    | worth delegator =>
      simp only [stop, RecordQuestion.stop] at h
      split at h
      · cases h
      · exact hshares delegator h
    | stakes => exact mem_inSight_of_stop hstakes hnothing h
    | metadata => exact mem_inSight_of_stop hmetadata hnothing h
    | hostname => exact mem_inSight_of_stop hmetadata (fun _ => of_stopBound) h
    | field name =>
      simp only [stop, RecordQuestion.stop] at h
      split at h
      · exact mem_inSight_of_stop hstakes hnothing h
      · split at h
        · exact mem_inSight_of_stop hmetadata hnothing h
        · cases h
    | update change =>
      cases change with
      | delegate delegator n =>
        simp only [stop, RecordQuestion.stop] at h
        split at h
        · cases h
        · exact hshares delegator h
      | peerShares | reward | metadata | timestamp | host => cases h

end Query

end CellGraph
