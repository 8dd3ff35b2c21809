import CellGraph.Proofs.Stake.Ledger

/-!
# Conservation of stake

Updates of a stake record follow each other; one that fails leaves the record as it was. What is
known when an update is made is arbitrary, for other computations may come in between. Whatever the
updates are, the balance is the sum of all shares and all rewards, the delegated shares are the sum
of the map's entries, and an update fails for its argument only.

* `StakeStep`, `StakeRecord.outcome`, `StakeRecord.after`, `StakeRecord.accepted`: histories;
* `Ledger.advance`, `Ledger.Describes.outcome`: one step of a ledger and of a record;
* `Ledger.Describes.after`: a whole history;
* `StakeRecord.conservation`: what holds at every point of every history, and which updates fail.
-/

namespace CellGraph

/-- An update, and what is known when it is made. -/
structure StakeStep where
  known : Knowledge
  update : StakeUpdate

namespace StakeStep

/-- The amount that a step adds as a reward. -/
def reward (step : StakeStep) : Int :=
  match step.update with
  | .reward amount => amount.toInt
  | _ => 0

/-- The rewards of a history together. -/
def totalRewards (steps : List StakeStep) : Int := (steps.map reward).sum

/-- What a step publishes, unless it leaves that alone. An empty map is nothing. -/
def metadata? (step : StakeStep) : Option (Option Cell) :=
  match step.update with
  | .metadata map => some (map.filter Ledger.hasEntries)
  | .host none => some none
  | .host (some name) => some ((hostMetadata name).run.run step.known).1.toOption
  | _ => none

end StakeStep

namespace StakeRecord

/-- How a step ends. -/
def outcome (record : StakeRecord Link) (step : StakeStep) : Except Fault (StakeRecord Link) :=
  ((step.update.apply record).run.run step.known).1

/-- The record after a step: the old one if the update fails. -/
def next (record : StakeRecord Link) (step : StakeStep) : StakeRecord Link :=
  match record.outcome step with
  | .ok record' => record'
  | .error _ => record

/-- The record after a history. -/
def after (record : StakeRecord Link) (steps : List StakeStep) : StakeRecord Link :=
  steps.foldl next record

/-- The steps of a history that do not fail. -/
def accepted : StakeRecord Link → List StakeStep → List StakeStep
  | _, [] => []
  | record, step :: rest =>
    match record.outcome step with
    | .ok record' => step :: record'.accepted rest
    | .error _ => record.accepted rest

end StakeRecord

namespace Ledger

variable {ledger : Ledger} {record : StakeRecord Link}

/-- The ledger of a new peer. -/
def start (controller : Address) (shares : Int64) : Ledger where
  controller
  peerShares := shares
  delegations := []
  rewards := 0
  metadata := none
  timestamp := -1

/-- The ledger after a step that does not fail. -/
def advance (ledger : Ledger) (step : StakeStep) : Ledger :=
  match step.update with
  | .delegate delegator shares =>
    { ledger with delegations := ledger.delegations.set delegator shares }
  | .peerShares shares => { ledger with peerShares := shares }
  | .reward amount => { ledger with rewards := ledger.rewards + amount.toInt }
  | .timestamp timestamp => { ledger with timestamp }
  | _ => { ledger with metadata := step.metadata?.getD ledger.metadata }

/-- A new peer's record amounts to a new ledger. -/
theorem describes_create (controller : Address) {shares : Int64} (h : 0 ≤ shares) :
    ∃ record, StakeRecord.create controller shares = .ok record ∧
      (start controller shares).Describes record := by
  have hnonneg : 0 ≤ shares.toInt := by simpa using Int64.le_iff_toInt_le.1 h
  have hneg : ¬shares < 0 := by
    rw [Int64.lt_iff_toInt_lt, Int64.toInt_zero]
    omega
  refine ⟨_, if_neg hneg, ⟨rfl, rfl, .absent, rfl, .absent, rfl, ?_, hnonneg, le_refl _⟩⟩
  simp [balance, start]

/-- Publishing a host name is publishing the map that holds it. -/
theorem outcome_host (record : StakeRecord Link) (known : Knowledge) (name : String) :
    ∃ map known', ((hostMetadata name).run.run known).1 = .ok map ∧ hasEntries map ∧
      record.outcome ⟨known, .host (some name)⟩ =
        record.outcome ⟨known', .metadata (some map)⟩ := by
  obtain ⟨map, hmap, hentries⟩ := gives_hostMetadata name known
  rcases hrun : (hostMetadata name).run.run known with ⟨outcome, known'⟩
  rw [hrun] at hmap
  cases hmap
  refine ⟨map, known', rfl, hentries, ?_⟩
  rw [StakeRecord.outcome, StakeUpdate.apply, run_run_bind, hrun]
  rfl

/-- A step ends as the ledger says: it is refused, or makes a record of the next ledger. -/
theorem Describes.outcome (h : ledger.Describes record) (step : StakeStep) :
    (ledger.advance step).Answers (step.update.Refused record ledger.delegations)
      (record.outcome step) := by
  obtain ⟨known, update⟩ := step
  cases update with
  | delegate delegator shares => exact h.setDelegation delegator shares known
  | peerShares shares => exact h.setPeerShares shares known
  | reward amount => exact h.addReward amount known
  | metadata map => exact h.setMetadata map known
  | timestamp timestamp =>
    refine .inr ⟨?_, _, rfl, h.setTimestamp timestamp⟩
    exact StakeUpdate.not_refused (fun hneg => hneg) (fun hmap => hmap) (toInt_le_max _)
  | host name =>
    have hnot : ¬(StakeUpdate.host name).Refused record ledger.delegations :=
      StakeUpdate.not_refused (fun hneg => hneg) (fun hmap => hmap) (toInt_le_max _)
    cases name with
    | none =>
      rcases h.setMetadata none known with ⟨hrefused, -⟩ | ⟨-, record', hrecord', hdescribes⟩
      · exact absurd hrefused
          (StakeUpdate.not_refused (fun hneg => hneg) (fun hmap => hmap) (toInt_le_max _))
      · exact .inr ⟨hnot, record', hrecord', hdescribes⟩
    | some name =>
      obtain ⟨map, known', hmap, hentries, hsame⟩ := outcome_host record known name
      rw [hsame]
      rcases h.setMetadata (some map) known' with ⟨hrefused, -⟩ | ⟨-, record', hrecord', hdescribes⟩
      · refine absurd hrefused (StakeUpdate.not_refused (fun hneg => hneg) (fun hmap => ?_)
          (toInt_le_max _))
        unfold hasEntries at hentries
        split at hentries
        · next entries hvalue => exact hmap entries hvalue
        · cases hentries
      · refine .inr ⟨hnot, record', hrecord', ?_⟩
        rw [Option.filter_some, if_pos hentries] at hdescribes
        have hadvance : ledger.advance ⟨known, .host (some name)⟩ =
            { ledger with metadata := some map } := by
          simp only [advance, StakeStep.metadata?, hmap]
          rfl
        rwa [hadvance]

/-- A step fails if and only if it is refused, and then because of its argument. -/
theorem Describes.outcome_error_iff (h : ledger.Describes record) (step : StakeStep) :
    ((∃ fault, record.outcome step = .error fault) ↔
        step.update.Refused record ledger.delegations) ∧
      ∀ fault, record.outcome step = .error fault → fault.faultClass = .argument := by
  rcases h.outcome step with ⟨hrefused, cause, hcause⟩ | ⟨hnot, record', hrecord', -⟩
  · rw [hcause]
    refine ⟨⟨fun _ => hrefused, fun _ => ⟨_, rfl⟩⟩, ?_⟩
    rintro _ ⟨⟩
    rfl
  · rw [hrecord']
    refine ⟨⟨?_, fun hrefused => absurd hrefused hnot⟩, nofun⟩
    rintro ⟨fault, ⟨⟩⟩

/-- After a history, the record amounts to the ledger that the accepted steps have led to. -/
theorem Describes.after (h : ledger.Describes record) (steps : List StakeStep) :
    ((record.accepted steps).foldl advance ledger).Describes (record.after steps) := by
  induction steps generalizing ledger record with
  | nil => exact h
  | cons step rest ih =>
    rw [StakeRecord.after, List.foldl_cons, StakeRecord.accepted, StakeRecord.next]
    rcases h.outcome step with ⟨-, cause, hcause⟩ | ⟨-, record', hrecord', hdescribes⟩
    · rw [hcause]
      exact ih h
    · rw [hrecord']
      exact ih hdescribes

theorem rewards_advance (ledger : Ledger) (step : StakeStep) :
    (ledger.advance step).rewards = ledger.rewards + step.reward := by
  obtain ⟨known, update⟩ := step
  cases update <;> simp [advance, StakeStep.reward]

/-- Every reward is added to the rewards. -/
theorem rewards_foldl (ledger : Ledger) (steps : List StakeStep) :
    (steps.foldl advance ledger).rewards = ledger.rewards + StakeStep.totalRewards steps := by
  induction steps generalizing ledger with
  | nil => simp [StakeStep.totalRewards]
  | cons step rest ih =>
    rw [List.foldl_cons, ih, rewards_advance, StakeStep.totalRewards, StakeStep.totalRewards,
      List.map_cons, List.sum_cons]
    omega

/-- Where the sum of all shares fits in the balance, it is not cut off. -/
theorem Describes.totalShares (h : ledger.Describes record) :
    record.totalShares.toInt = record.peerShares.toInt + record.delegatedShares.toInt := by
  have hbalance : record.balance.toInt = _ + _ + _ := h.balance
  have hmost := record.balance.toInt_lt
  have htotal := h.delegated_nonneg
  have hdelegated := h.delegated
  have hpeer := h.peer_nonneg
  have hpeer' := congrArg Int64.toInt h.peerShares
  have hrewards := h.rewards_nonneg
  unfold StakeRecord.totalShares saturatingAdd
  rw [if_neg (by omega), if_neg (by omega), Int64.toInt_ofInt, Int64.size, Int.bmod_eq_of_le] <;>
    omega

end Ledger

namespace StakeRecord

/-- There is no map of delegators exactly if nobody holds shares. -/
theorem stakes_eq_none_iff {stakes : Option Link} {table : Delegations}
    (h : Delegations.HeldBy stakes table) :
    stakes = none ↔ ∀ delegator, table.shares delegator = 0 := by
  cases h with
  | absent => exact ⟨fun _ _ => rfl, fun _ => rfl⟩
  | map _ _ hlisted hsome =>
    refine ⟨nofun, fun hnobody => ?_⟩
    obtain ⟨row, rest, rfl⟩ := List.exists_cons_of_ne_nil hsome
    have hrow : row ∈ row :: rest := List.mem_cons_self ..
    have hzero := (Delegations.shares_of_mem hlisted.sound hrow).symm.trans (hnobody row.2.1)
    exact absurd (hzero ▸ hlisted.positive row hrow) (by decide)

/--
Conservation of stake. At every point of a history, the balance is the sum of the peer's shares, the
delegated shares and the accepted rewards; the delegated shares are the sum of the entries of the
map; its keys are addresses and its values positive, and it is there if there is a delegator. An
update fails if and only if it is refused, for a fault of its argument.
-/
theorem conservation (controller : Address) {shares : Int64} (h : 0 ≤ shares) :
    ∃ first, create controller shares = .ok first ∧ ∀ steps : List StakeStep,
      let record := first.after steps
      ∃ table, Delegations.HeldBy record.stakes table ∧
        (∀ delegator, (record.sharesOf delegator).Gives (· = table.shares delegator)) ∧
        record.balance.toInt = record.peerShares.toInt + record.delegatedShares.toInt +
          StakeStep.totalRewards (first.accepted steps) ∧
        record.totalShares.toInt = record.peerShares.toInt + record.delegatedShares.toInt ∧
        record.delegatedShares.toInt = table.total ∧
        (∀ row ∈ table, row.1 = row.2.1.digest ∧ 0 < row.2.2) ∧
        (record.stakes = none ↔ ∀ delegator, table.shares delegator = 0) ∧
        ∀ step : StakeStep,
          ((∃ fault, record.outcome step = .error fault) ↔ step.update.Refused record table) ∧
          ∀ fault, record.outcome step = .error fault → fault.faultClass = .argument := by
  obtain ⟨first, hfirst, hdescribes⟩ := Ledger.describes_create controller h
  refine ⟨first, hfirst, fun steps => ?_⟩
  have hafter := hdescribes.after steps
  have hrewards := Ledger.rewards_foldl (Ledger.start controller shares) (first.accepted steps)
  have hsound := hafter.stakes.sound
  refine ⟨_, hafter.stakes, hafter.stakes.gives_sharesOf, ?_, hafter.totalShares, hafter.delegated,
    fun row hrow => ⟨hsound.key row hrow, hsound.positive row hrow⟩,
    stakes_eq_none_iff hafter.stakes, hafter.outcome_error_iff⟩
  rw [hafter.balance, Ledger.balance, hafter.peerShares, hafter.delegated, hrewards]
  simp [Ledger.start]

/-- A negative reward is refused after a delegation. -/
theorem conservation_negative_reward :
    ∃ first, create ⟨1⟩ 5 = .ok first ∧
      ∃ fault, (first.after [⟨{}, .delegate ⟨2⟩ 3⟩]).outcome ⟨{}, .reward (-1)⟩ = .error fault ∧
        fault.faultClass = .argument := by
  obtain ⟨first, hfirst, hafter⟩ := conservation ⟨1⟩ (show (0 : Int64) ≤ 5 by decide)
  obtain ⟨table, -, -, -, -, -, -, -, hfails⟩ := hafter [⟨{}, .delegate ⟨2⟩ 3⟩]
  obtain ⟨hiff, hclass⟩ := hfails ⟨{}, .reward (-1)⟩
  have hnegative : (-1 : Int64) < 0 := by decide
  obtain ⟨fault, hfault⟩ := hiff.2 (.inl hnegative)
  exact ⟨first, hfirst, fault, hfault, hclass fault hfault⟩

end StakeRecord

end CellGraph
