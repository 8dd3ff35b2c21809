import CellGraph.Proofs.Query.Stop

/-!
# Records that have been accepted

A record is accepted by a check of it, by the decoder, and by every update that changes more than
the timestamp, for these check what they give. What is accepted is valid, as far as its maps were
held when it was checked: a record that has been read, as far as it holds them itself.

* `Attempt.YieldsWhere`: computations that yield something good, where links hold certain cells;
* `StakeRecord.Entire`: records that hold all of their map of delegators;
* `StakeRecord.yieldsWhere_apply`: what updates yield;
* `StakeRecord.validate_of_decode`, `StakeRecord.readBytes`: what the decoder yields;
* `StakeRecord.Accepted`, `StakeRecord.Accepted.valid`: records that have been accepted.
-/

namespace CellGraph

open Attempt

/-! ### What updates yield -/

namespace Attempt

variable {α β : Type} {resident : Link → Option Cell}

/-- Where links hold these cells, there is no result, or this holds of it. -/
abbrev YieldsWhere (resident : Link → Option Cell) (attempt : Attempt α) (good : α → Prop) : Prop :=
  attempt.EndsWhere resident fun outcome => ∀ a, outcome = .ok a → good a

namespace YieldsWhere

variable {good : α → Prop}

theorem pure {a : α} (h : good a) : YieldsWhere resident (Pure.pure a) good := by
  refine EndsWhere.pure ?_
  rintro _ ⟨⟩
  exact h

theorem refuse {cause : ArgumentFault} : YieldsWhere resident (Attempt.refuse cause) good :=
  EndsWhere.throw nofun

theorem guard {condition : Prop} [Decidable condition] {cause : ArgumentFault}
    {next : Unit → Attempt α} (hnext : (next ()).YieldsWhere resident good) :
    YieldsWhere resident (if condition then Attempt.refuse cause >>= next else next ()) good :=
  EndsWhere.guard (fun _ => nofun) fun _ => hnext

/-- Whatever goes before, what is yielded is what the last part yields. -/
theorem after {first : Attempt β} {next : β → Attempt α} {middle : Except Fault β → Prop}
    (hfirst : first.EndsWhere resident middle) (hnext : ∀ b, (next b).YieldsWhere resident good) :
    (first >>= next).YieldsWhere resident good :=
  hfirst.bind (fun _ _ => nofun) fun b _ => hnext b

theorem bind {first : Attempt β} {next : β → Attempt α} {middle : β → Prop}
    (hfirst : first.YieldsWhere resident middle)
    (hnext : ∀ b, middle b → (next b).YieldsWhere resident good) :
    (first >>= next).YieldsWhere resident good :=
  EndsWhere.bind hfirst (fun _ _ => nofun) fun b hb => hnext b (hb b rfl)

end YieldsWhere

end Attempt

/-! ### Maps that are held entirely -/

namespace Cell

variable {resident : Link → Option Cell} {map : Cell}

/-- A map that holds all of its values itself. -/
def Entire (map : Cell) : Prop :=
  ∃ entries, map.value = .map entries ∧ ∀ entry ∈ entries, entry.2.target?.isSome

theorem Entire.held {entries : List Entry} (h : map.Entire) (hentries : map.entries? = .ok entries) :
    ∀ entry ∈ entries, entry.2.target?.isSome := by
  obtain ⟨entries', hvalue, hheld⟩ := h
  rw [entries?, hvalue] at hentries
  cases hentries
  exact hheld

theorem yieldsWhere_insert (map key value : Cell) :
    (map.insert key value).YieldsWhere resident fun map' => map.Entire → map'.Entire := by
  unfold insert
  refine EndsWhere.ofExcept.bind (fun _ _ => nofun) fun entries hentries => ?_
  have hentry : (liftM (makeEntry key value) : Attempt Entry).YieldsWhere resident
      fun entry => entry.2.target? = some value := by
    refine fun known _ => ⟨?_, Calc.Idle.makeEntry key value known⟩
    rintro _ ⟨⟩
    rfl
  refine hentry.bind fun entry hentry => .after (EndsWhere.noteKeys entries) fun _ => ?_
  refine (EndsWhere.make _).mono ?_
  rintro _ ⟨map', rfl, hvalue⟩ _ ⟨⟩ hentire
  refine ⟨_, hvalue, fun other hother => ?_⟩
  rcases Entry.mem_insert hother with rfl | hold
  · rw [hentry]
    rfl
  · exact hentire.held hentries.symm other hold

theorem yieldsWhere_erase (map key : Cell) :
    (map.erase key).YieldsWhere resident fun map' => map.Entire → map'.Entire := by
  unfold erase
  refine EndsWhere.ofExcept.bind (fun _ _ => nofun) fun entries hentries => ?_
  refine YieldsWhere.after (EndsWhere.notes key.onlyNotes_hash key.fst_hash) fun digest => ?_
  refine .after (EndsWhere.noteKeys entries) fun _ => ?_
  split
  · refine (EndsWhere.make _).mono ?_
    rintro _ ⟨map', rfl, hvalue⟩ _ ⟨⟩ hentire
    refine ⟨_, hvalue, fun other hother => ?_⟩
    exact hentire.held hentries.symm other (List.mem_of_mem_eraseP hother)
  · exact .pure id

end Cell

namespace StakeRecord

variable {resident : Link → Option Cell} {record record' : StakeRecord Link}

theorem endsWhere_within (n : Int) (cause : ArgumentFault) :
    (within n cause).EndsWhere resident fun outcome => ∀ m, outcome = .ok m → m.toInt = n := by
  unfold within
  cases hnarrow : narrow? n with
  | none => exact .throw nofun
  | some m =>
    refine .pure ?_
    rintro _ ⟨⟩
    exact toInt_of_narrow? hnarrow

theorem endsWhere_checked (record : StakeRecord Link) :
    record.checked.EndsWhere resident fun outcome =>
      ∀ record', outcome = .ok record' → record' = record ∧ record.validate resident = .ok () := by
  rintro known rfl
  unfold checked
  rw [run_run_bind, run_run_get]
  dsimp only
  cases hvalid : record.validate known.resident with
  | error cause => exact ⟨nofun, .refl known⟩
  | ok =>
    refine ⟨?_, .refl known⟩
    rintro _ ⟨⟩
    exact ⟨rfl, rfl⟩

/-- A record without delegators, or one that holds the map of them, and all shares in it, itself. -/
def Entire (record : StakeRecord Link) : Prop :=
  ∀ link, record.stakes = some link → ∃ map, link.target? = some map ∧ map.Entire

theorem yieldsWhere_loadStakes (record : StakeRecord Link) :
    (Link.loadOption record.stakes).YieldsWhere resident fun stakes =>
      record.Entire → ∀ map, stakes = some map → map.Entire := by
  rintro known rfl
  obtain ⟨hheld, hidles⟩ := Link.endsWhere_loadOption record.stakes known rfl
  refine ⟨?_, hidles⟩
  rintro _ hstakes hentire map rfl
  rw [hstakes] at hheld
  cases hlink : record.stakes with
  | none =>
    rw [hlink] at hheld
    cases hheld
  | some link =>
    obtain ⟨target, htarget, hall⟩ := hentire link hlink
    rw [hlink, Link.heldOption,
      Link.held_eq_ok_iff.2 (Knowledge.resident_of_target htarget)] at hheld
    cases hheld
    exact hall

theorem yieldsWhere_linkNonEmpty (map : Cell) :
    (linkNonEmpty map).YieldsWhere resident fun link =>
      ∀ l, link = some l → l.target? = some map := by
  unfold linkNonEmpty
  refine .after EndsWhere.ofExcept fun size => ?_
  split
  · exact .pure fun l hl => by cases hl
  · have hlink : (liftM map.link : Attempt Link).YieldsWhere resident
        fun link => link.target? = some map := by
      refine fun known _ => ⟨?_, Calc.Idle.link map known⟩
      rintro _ ⟨⟩
      rfl
    refine hlink.bind fun link hlink => .pure ?_
    rintro _ ⟨⟩
    exact hlink

/--
What an update makes of a record. The new one has been checked, or differs from the old one in its
timestamp at most; and the map of delegators is still held entirely, if it was.
-/
structure Renewed (resident : Link → Option Cell) (record record' : StakeRecord Link) : Prop where
  checked : record'.validate resident = .ok () ∨
    record' = { record with timestamp := record'.timestamp }
  entire : record.Entire → record'.Entire

theorem yieldsWhere_checked (hentire : record.Entire → record'.Entire) :
    record'.checked.YieldsWhere resident (Renewed resident record) := by
  refine (endsWhere_checked record').mono fun outcome hchecked found hfound => ?_
  obtain ⟨rfl, hvalid⟩ := hchecked found hfound
  exact ⟨.inl hvalid, hentire⟩

/-- A map of delegators takes the place of the old one, if it is not empty. -/
theorem yieldsWhere_setStakes {map : Cell} (hmap : record.Entire → map.Entire)
    (delegated balance : Int64) :
    (record.setStakes map delegated balance).YieldsWhere resident (Renewed resident record) :=
  (yieldsWhere_linkNonEmpty map).bind fun _ hlink =>
    yieldsWhere_checked fun hentire l hl => ⟨map, hlink l hl, hmap hentire⟩

theorem yieldsWhere_setShares {map : Cell} (hmap : record.Entire → map.Entire) (key : Cell)
    (n delegated balance : Int64) :
    (record.setShares map key n delegated balance).YieldsWhere resident
      (Renewed resident record) := by
  unfold setShares
  split
  · exact (map.yieldsWhere_erase key).bind fun _ hkept =>
      yieldsWhere_setStakes (fun hentire => hkept (hmap hentire)) delegated balance
  · refine .after (EndsWhere.make _) fun amount => ?_
    exact (map.yieldsWhere_insert key amount).bind fun _ hkept =>
      yieldsWhere_setStakes (fun hentire => hkept (hmap hentire)) delegated balance

theorem yieldsWhere_setDelegation (record : StakeRecord Link) (delegator : Address) (n : Int64) :
    (record.setDelegation delegator n).YieldsWhere resident (Renewed resident record) := by
  rw [setDelegation_eq]
  refine .guard (.after (record.endsWhere_sharesOf delegator) fun old => ?_)
  split
  · exact .pure ⟨.inr rfl, id⟩
  refine .after (endsWhere_within _ _) fun change => .after (endsWhere_within _ _) fun delegated => ?_
  refine .after (endsWhere_within _ _) fun balance => .after (EndsWhere.make _) fun key => ?_
  refine (yieldsWhere_loadStakes record).bind fun stakes hstakes => ?_
  cases stakes with
  | some map =>
    exact yieldsWhere_setShares (fun hentire => hstakes hentire map rfl) key n delegated balance
  | none =>
    have hempty : (liftM (Cell.make (.map [])) : Attempt Cell).YieldsWhere resident
        Cell.Entire := by
      refine (EndsWhere.make _).mono ?_
      rintro _ ⟨map, rfl, hvalue⟩ _ ⟨⟩
      exact ⟨[], hvalue, List.forall_mem_nil _⟩
    exact hempty.bind fun map hmap =>
      yieldsWhere_setShares (fun _ => hmap) key n delegated balance

theorem yieldsWhere_setMetadata (record : StakeRecord Link) (metadata : Option Cell) :
    (record.setMetadata metadata).YieldsWhere resident (Renewed resident record) := by
  unfold setMetadata
  cases metadata with
  | none => exact yieldsWhere_checked fun hentire => hentire
  | some map =>
    dsimp only
    split
    · exact .refuse
    · exact .after (stopsAt_linkNonEmpty map) fun _ => yieldsWhere_checked fun hentire => hentire

/-- Whatever an update yields renews the record. -/
theorem yieldsWhere_apply (record : StakeRecord Link) (update : StakeUpdate) :
    (update.apply record).YieldsWhere resident (Renewed resident record) := by
  cases update with
  | delegate delegator n => exact yieldsWhere_setDelegation record delegator n
  | peerShares n =>
    show (record.setPeerShares n).YieldsWhere resident _
    unfold setPeerShares
    refine .guard ?_
    split
    · exact .pure ⟨.inr rfl, id⟩
    · exact .after (endsWhere_within _ _) fun _ => yieldsWhere_checked fun hentire => hentire
  | reward amount =>
    show (record.addReward amount).YieldsWhere resident _
    unfold addReward
    exact .guard (.after (endsWhere_within _ _) fun _ => yieldsWhere_checked fun hentire => hentire)
  | metadata map => exact yieldsWhere_setMetadata record map
  | timestamp t => exact .pure ⟨.inr rfl, fun hentire => hentire⟩
  | host name =>
    cases name with
    | none => exact yieldsWhere_setMetadata record none
    | some name =>
      exact .after (stopsAt_hostMetadata name) fun map => yieldsWhere_setMetadata record (some map)

/-! ### What the decoder yields -/

/-- A record in a cell that has been read is valid, as far as it holds its maps itself. -/
theorem validate_of_decode {bytes : Bytes} {known : Knowledge} {cell found : Cell}
    (read : ((Cell.decode bytes).run.run known).1 = .ok cell) (held : found ∈ cell.everyCell)
    (value : found.value = .peer record) : record.validate Link.target? = .ok () := by
  obtain ⟨hfrom, -⟩ := Cell.readFrom_of_decode read
  have hvalid : found.Valid := by
    rcases List.mem_cons.1 held with rfl | hbelow
    · exact hfrom.sound.valid
    · obtain ⟨link, hlink, htarget⟩ := List.mem_filterMap.1 hbelow
      exact (hfrom.laid.sound link hlink found htarget).valid
  unfold Cell.Valid at hvalid
  rwa [value, Value.validate_peer_iff] at hvalid

/-- The record that bytes are read as, where nothing is known. -/
def readBytes (bytes : Bytes) : Option (StakeRecord Link) :=
  match ((Cell.decode bytes).run.run {}).1 with
  | .ok cell =>
    match cell.value with
    | .peer record => some record
    | _ => none
  | .error _ => none

theorem exists_decode_of_readBytes {bytes : Bytes} (h : readBytes bytes = some record) :
    ∃ cell, ((Cell.decode bytes).run.run {}).1 = .ok cell ∧ cell.value = .peer record := by
  unfold readBytes at h
  split at h
  · next cell hread =>
    split at h
    · next hvalue =>
      cases h
      exact ⟨cell, hread, hvalue⟩
    · cases h
  · cases h

/-! ### Records that have been accepted -/

/--
The records that are accepted where links hold certain cells: those that pass the check, those in
cells that have just been read, and those that updates of any record make, unless they leave all
but the timestamp as it was.
-/
inductive Accepted (resident : Link → Option Cell) (record : StakeRecord Link) : Prop
  | checked (valid : record.validate resident = .ok ())
  | read {bytes : Bytes} {known : Knowledge} {cell found : Cell}
    (read : ((Cell.decode bytes).run.run known).1 = .ok cell) (held : found ∈ cell.everyCell)
    (value : found.value = .peer record) (own : resident = Link.target?)
  | updated {before : StakeRecord Link} {known : Knowledge} {update : StakeUpdate}
    (updated : ((update.apply before).run.run known).1 = .ok record)
    (changed : record ≠ { before with timestamp := record.timestamp })
    (there : known.resident = resident)

theorem Accepted.valid (h : record.Accepted resident) : record.validate resident = .ok () := by
  cases h with
  | checked valid => exact valid
  | read read held value own =>
    subst own
    exact validate_of_decode read held value
  | @updated before known update updated changed there =>
    obtain ⟨hvalid | hsame, -⟩ := (yieldsWhere_apply before update known there).1 record updated
    · exact hvalid
    · exact absurd hsame changed

theorem Accepted.of_readBytes {bytes : Bytes} (h : readBytes bytes = some record) :
    record.Accepted Link.target? := by
  obtain ⟨cell, hread, hvalue⟩ := exists_decode_of_readBytes h
  exact .read hread (List.mem_cons_self ..) hvalue rfl

end StakeRecord

end CellGraph
