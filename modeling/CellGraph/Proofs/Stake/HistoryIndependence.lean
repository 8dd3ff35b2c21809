import CellGraph.Proofs.Stake.Conservation

/-!
# Stake records do not depend on their history

What a stake record amounts to is determined by the last number of shares that was set for the peer
and for each address, the sum of the rewards, what was published last and the last timestamp. So a
record can be rebuilt, in any order of the delegators, and is written as before.

* `StakeStep.lastPeerShares`, `StakeStep.lastShares`, `StakeStep.lastMetadata`,
  `StakeStep.lastTimestamp`: what was set last;
* `Ledger.Describes.shares_after`: what an address holds is what was set last;
* `Ledger.Describes.delegate_all`: delegations made one after the other;
* `Ledger.SumsUp`: what a history amounts to;
* `StakeRecord.rebuilding`: rebuilding a record.
-/

namespace CellGraph

/-! ### What was set last -/

namespace StakeStep

variable {α : Type}

/-- What the last step sets that sets anything, and `first` if none does. -/
def lastOf (field? : StakeStep → Option α) (first : α) (steps : List StakeStep) : α :=
  steps.foldl (fun last step => (field? step).getD last) first

/-- The shares that a step sets for an address. -/
def shares? (delegator : Address) (step : StakeStep) : Option Int64 :=
  match step.update with
  | .delegate other shares => if other = delegator then some shares else none
  | _ => none

/-- The peer's own shares that a step sets. -/
def peerShares? (step : StakeStep) : Option Int64 :=
  match step.update with
  | .peerShares shares => some shares
  | _ => none

/-- The timestamp that a step sets. -/
def timestamp? (step : StakeStep) : Option Int64 :=
  match step.update with
  | .timestamp timestamp => some timestamp
  | _ => none

/-- The shares that were set last for an address, zero if none were. -/
def lastShares (steps : List StakeStep) (delegator : Address) : Int64 :=
  lastOf (shares? delegator) 0 steps

/-- The peer's own shares that were set last, those that it began with if none were. -/
def lastPeerShares (first : Int64) (steps : List StakeStep) : Int64 :=
  lastOf peerShares? first steps

/-- What was published last. -/
def lastMetadata (steps : List StakeStep) : Option Cell := lastOf metadata? none steps

/-- The timestamp that was set last. -/
def lastTimestamp (steps : List StakeStep) : Int64 := lastOf timestamp? (-1) steps

/-- The address that a step delegates to, if it does, is one of these. -/
def DelegatesIn (used : Set Address) (step : StakeStep) : Prop :=
  ∀ delegator shares, step.update = .delegate delegator shares → delegator ∈ used

end StakeStep

/-! ### Histories one after the other -/

namespace StakeRecord

variable {record : StakeRecord Link}

theorem after_append (record : StakeRecord Link) (steps steps' : List StakeStep) :
    record.after (steps ++ steps') = (record.after steps).after steps' :=
  List.foldl_append

theorem accepted_append (record : StakeRecord Link) (steps steps' : List StakeStep) :
    record.accepted (steps ++ steps') =
      record.accepted steps ++ (record.after steps).accepted steps' := by
  induction steps generalizing record with
  | nil => rfl
  | cons step rest ih =>
    rw [List.cons_append, accepted, accepted, after, List.foldl_cons, next]
    cases record.outcome step with
    | error fault => exact ih record
    | ok record' => exact congrArg (step :: ·) (ih record')

theorem accepted_sublist (record : StakeRecord Link) (steps : List StakeStep) :
    (record.accepted steps).Sublist steps := by
  induction steps generalizing record with
  | nil => exact .slnil
  | cons step rest ih =>
    rw [accepted]
    cases record.outcome step with
    | error fault => exact (ih record).cons step
    | ok record' => exact (ih record').cons_cons step

end StakeRecord

namespace Ledger

open StakeStep

variable {ledger : Ledger} {record : StakeRecord Link} {used : Set Address}

/-! ### Ledgers after a history -/

theorem controller_foldl (ledger : Ledger) (steps : List StakeStep) :
    (steps.foldl advance ledger).controller = ledger.controller := by
  refine List.foldlRecOn (motive := fun l : Ledger => l.controller = ledger.controller) steps _ rfl
    fun l hl step _ => ?_
  obtain ⟨known, update⟩ := step
  cases update <;> exact hl

/-- The peer has the shares that were set last. -/
theorem peerShares_foldl (ledger : Ledger) (steps : List StakeStep) :
    (steps.foldl advance ledger).peerShares = lastPeerShares ledger.peerShares steps := by
  refine (List.foldl_hom Ledger.peerShares fun ledger step => ?_).symm
  obtain ⟨known, update⟩ := step
  cases update <;> rfl

/-- What is published is what was published last. -/
theorem metadata_foldl (ledger : Ledger) (steps : List StakeStep) :
    (steps.foldl advance ledger).metadata = lastOf metadata? ledger.metadata steps := by
  refine (List.foldl_hom Ledger.metadata fun ledger step => ?_).symm
  obtain ⟨known, update⟩ := step
  cases update <;> rfl

theorem timestamp_foldl (ledger : Ledger) (steps : List StakeStep) :
    (steps.foldl advance ledger).timestamp = lastOf timestamp? ledger.timestamp steps := by
  refine (List.foldl_hom Ledger.timestamp fun ledger step => ?_).symm
  obtain ⟨known, update⟩ := step
  cases update <;> rfl

/-- Every delegator is an address that is in use. -/
theorem used_foldl {steps : List StakeStep} (hsteps : ∀ step ∈ steps, step.DelegatesIn used)
    (h : ∀ row ∈ ledger.delegations, row.2.1 ∈ used) :
    ∀ row ∈ (steps.foldl advance ledger).delegations, row.2.1 ∈ used := by
  refine List.foldlRecOn (motive := fun l : Ledger => ∀ row ∈ l.delegations, row.2.1 ∈ used) steps _
    h fun l hl step hstep row hrow => ?_
  obtain ⟨known, update⟩ := step
  cases update with
  | delegate delegator shares =>
    rcases Delegations.mem_set hrow with rfl | hrow
    · exact hsteps _ hstep delegator shares rfl
    · exact hl row hrow
  | _ => exact hl row hrow

/-- A step changes what an address holds only if it sets it. -/
theorem Describes.shares_advance (h : ledger.Describes record) (hinj : used.InjOn Address.digest)
    {step : StakeStep} (hstep : step.DelegatesIn used) {delegator : Address}
    (hdelegator : delegator ∈ used) :
    (ledger.advance step).delegations.shares delegator =
      (step.shares? delegator).getD (ledger.delegations.shares delegator) := by
  obtain ⟨known, update⟩ := step
  cases update with
  | delegate other shares =>
    have hsame : other.digest = delegator.digest ↔ other = delegator :=
      hinj.eq_iff (hstep other shares rfl) hdelegator
    simp only [advance, shares?, Delegations.shares_set h.stakes.sound.pairwise, hsame]
    split <;> rfl
  | _ => rfl

/-- After a history, an address holds what was set for it last. -/
theorem Describes.shares_after (h : ledger.Describes record) (hinj : used.InjOn Address.digest)
    {steps : List StakeStep} (hsteps : ∀ step ∈ steps, step.DelegatesIn used) {delegator : Address}
    (hdelegator : delegator ∈ used) :
    ((record.accepted steps).foldl advance ledger).delegations.shares delegator =
      lastOf (shares? delegator) (ledger.delegations.shares delegator)
        (record.accepted steps) := by
  induction steps generalizing ledger record with
  | nil => rfl
  | cons step rest ih =>
    have hrest := fun s hs => hsteps s (List.mem_cons_of_mem _ hs)
    rw [StakeRecord.accepted]
    rcases h.outcome step with ⟨-, cause, hcause⟩ | ⟨-, record', hrecord', hdescribes⟩
    · rw [hcause]
      exact ih h hrest
    · rw [hrecord']
      dsimp only
      rw [List.foldl_cons, ih hdescribes hrest,
        h.shares_advance hinj (hsteps step (List.mem_cons_self ..)) hdelegator]
      rfl

/-- Shares are set last only for an address that is in use. -/
theorem mem_used_of_lastShares {steps : List StakeStep}
    (hsteps : ∀ step ∈ steps, step.DelegatesIn used) {delegator : Address}
    (h : lastShares steps delegator ≠ 0) : delegator ∈ used := by
  refine List.foldlRecOn (motive := fun n : Int64 => n ≠ 0 → delegator ∈ used) steps _
    (fun hzero => absurd rfl hzero) (fun n hn step hstep hne => ?_) h
  obtain ⟨known, update⟩ := step
  cases update with
  | delegate other shares =>
    simp only [shares?] at hne
    split at hne
    · next heq => exact heq ▸ hsteps _ hstep other shares rfl
    · exact hn hne
  | _ => exact hn hne

/-! ### Rebuilding -/

/-- A step that is not refused makes a record of the next ledger. -/
theorem Describes.accepts (h : ledger.Describes record) (step : StakeStep)
    (hnot : ¬step.update.Refused record ledger.delegations) :
    ∃ record', record.outcome step = .ok record' ∧ (ledger.advance step).Describes record' := by
  rcases h.outcome step with ⟨hrefused, -⟩ | ⟨-, record', hrecord', hdescribes⟩
  · exact absurd hrefused hnot
  · exact ⟨record', hrecord', hdescribes⟩

theorem accepted_cons {record record' : StakeRecord Link} {step : StakeStep}
    {rest : List StakeStep} (hstep : record.outcome step = .ok record')
    (hrest : record'.accepted rest = rest) :
    record.accepted (step :: rest) = step :: rest := by
  rw [StakeRecord.accepted, hstep]
  exact congrArg (step :: ·) hrest

/-- An address that holds nothing is given shares, if the balance still fits. -/
theorem Describes.delegate_first (h : ledger.Describes record) {first : Address} {shares : Int64}
    (hnone : ledger.delegations.shares first = 0) (hshares : 0 ≤ shares.toInt)
    (hfits : ledger.balance + shares.toInt ≤ Int64.maxValue.toInt) (known : Knowledge) :
    ∃ record', record.outcome ⟨known, .delegate first shares⟩ = .ok record' ∧
      ({ ledger with delegations := ledger.delegations.set first shares }).Describes record' ∧
      ({ ledger with delegations := ledger.delegations.set first shares }).balance =
        ledger.balance + shares.toInt := by
  have hnot : ¬(StakeUpdate.delegate first shares).Refused record ledger.delegations := by
    refine StakeUpdate.not_refused ?_ (fun hmap => hmap) ?_
    · intro hneg
      have hneg := Int64.lt_iff_toInt_lt.1 hneg
      rw [Int64.toInt_zero] at hneg
      omega
    · rw [StakeUpdate.newBalance, hnone, h.balance, Int64.toInt_zero]
      omega
  obtain ⟨record', hrecord', hdescribes⟩ := h.accepts ⟨known, _⟩ hnot
  have htotal := Delegations.total_set h.stakes.sound.pairwise first shares
  rw [hnone, Int64.toInt_zero] at htotal
  refine ⟨record', hrecord', hdescribes, ?_⟩
  simp only [Ledger.balance, htotal]
  omega

/-- Addresses that hold nothing are given shares one after the other, as far as the balance fits. -/
theorem Describes.delegate_all {order : List Address} {amount : Address → Int64}
    (h : ledger.Describes record) (hinj : used.InjOn Address.digest) (hnodup : order.Nodup)
    (horder : ∀ a ∈ order, a ∈ used) (hamount : ∀ a ∈ order, 0 ≤ (amount a).toInt)
    (hnone : ∀ a ∈ order, ledger.delegations.shares a = 0)
    (hfits : ledger.balance + (order.map fun a => (amount a).toInt).sum ≤ Int64.maxValue.toInt)
    {steps : List StakeStep}
    (hsteps : steps.map StakeStep.update = order.map fun a => .delegate a (amount a)) :
    record.accepted steps = steps ∧
      ∃ table, steps.foldl advance ledger = { ledger with delegations := table } ∧
        ∀ a ∈ used, table.shares a =
          if a ∈ order then amount a else ledger.delegations.shares a := by
  induction order generalizing ledger record steps with
  | nil =>
    rw [List.map_eq_nil_iff.1 hsteps]
    exact ⟨rfl, ledger.delegations, rfl, by simp⟩
  | cons first rest ih =>
    obtain ⟨⟨known, update⟩, steps, rfl, hupdate, hrest⟩ := List.map_eq_cons_iff.1 hsteps
    obtain rfl : update = .delegate first (amount first) := hupdate
    obtain ⟨hnotMem, hnodup⟩ := List.nodup_cons.1 hnodup
    have hsum : 0 ≤ (rest.map fun a => (amount a).toInt).sum :=
      List.sum_nonneg (List.forall_mem_map.2 fun a ha => hamount a (List.mem_cons_of_mem _ ha))
    rw [List.map_cons, List.sum_cons] at hfits
    obtain ⟨record', hrecord', hdescribes, hbalance⟩ :=
      h.delegate_first (hnone first (List.mem_cons_self ..)) (hamount first (List.mem_cons_self ..))
        (by omega) known
    have hshares : ∀ a ∈ used, (ledger.delegations.set first (amount first)).shares a =
        if first = a then amount first else ledger.delegations.shares a := by
      intro a ha
      simp only [Delegations.shares_set h.stakes.sound.pairwise,
        hinj.eq_iff (horder first (List.mem_cons_self ..)) ha]
    -- The others still hold nothing, and the balance has grown by what the first one holds.
    have hrestNone : ∀ a ∈ rest, (ledger.delegations.set first (amount first)).shares a = 0 := by
      intro a ha
      have hne : first ≠ a := fun heq => hnotMem (heq ▸ ha)
      rw [hshares a (horder a (List.mem_cons_of_mem _ ha)), if_neg hne]
      exact hnone a (List.mem_cons_of_mem _ ha)
    obtain ⟨haccepted, table, hfold, hother⟩ := ih hdescribes hnodup
      (fun a ha => horder a (List.mem_cons_of_mem _ ha))
      (fun a ha => hamount a (List.mem_cons_of_mem _ ha))
      hrestNone (by omega) hrest
    refine ⟨accepted_cons hrecord' haccepted, table, hfold, fun a ha => ?_⟩
    rw [hother a ha]
    dsimp only
    rw [hshares a ha]
    by_cases hmem : a ∈ rest
    · rw [if_pos hmem, if_pos (List.mem_cons_of_mem _ hmem)]
    · rw [if_neg hmem]
      by_cases heq : first = a
      · rw [if_pos heq, if_pos (heq ▸ List.mem_cons_self ..), heq]
      · rw [if_neg heq, if_neg fun h => (List.mem_cons.1 h).elim (fun h => heq h.symm) hmem]

/-- What a ledger publishes is a map with entries. -/
theorem Describes.filter_metadata (h : ledger.Describes record) :
    ledger.metadata.filter hasEntries = ledger.metadata ∧
      ¬(StakeUpdate.metadata ledger.metadata).NotMap := by
  have hmetadata := h.metadata
  generalize record.metadata = link at hmetadata
  generalize ledger.metadata = published at *
  cases hmetadata with
  | absent => exact ⟨rfl, fun hmap => hmap⟩
  | @map link map entries _ hvalue hsome =>
    refine ⟨?_, fun hmap => hmap entries hvalue⟩
    rw [Option.filter_some, if_pos]
    simpa [hasEntries, hvalue] using hsome

/-- A sum that is not negative and fits in a balance is a number of 64 bits. -/
theorem exists_toInt_eq {n : Int} {m : Int64} (hn : 0 ≤ n) (hm : n ≤ m.toInt) :
    ∃ k : Int64, k.toInt = n := by
  have hlt := m.toInt_lt
  refine ⟨Int64.ofInt n, ?_⟩
  rw [Int64.toInt_ofInt, Int64.size, Int.bmod_eq_of_le] <;> omega

/-- A reward, then metadata, then a timestamp. -/
theorem Describes.finish (h : ledger.Describes record) {rewards : Int64} {metadata : Option Cell}
    {timestamp : Int64} (hrewards : 0 ≤ rewards.toInt)
    (hfits : ledger.balance + rewards.toInt ≤ Int64.maxValue.toInt)
    (hmetadata : metadata.filter hasEntries = metadata ∧ ¬(StakeUpdate.metadata metadata).NotMap)
    {steps : List StakeStep} (hsteps : steps.map StakeStep.update =
      [.reward rewards, .metadata metadata, .timestamp timestamp]) :
    record.accepted steps = steps ∧
      ({ ledger with rewards := ledger.rewards + rewards.toInt, metadata, timestamp }).Describes
        (record.after steps) := by
  obtain ⟨⟨known₁, _⟩, steps₁, rfl, rfl, hsteps₁⟩ := List.map_eq_cons_iff.1 hsteps
  obtain ⟨⟨known₂, _⟩, steps₂, rfl, rfl, hsteps₂⟩ := List.map_eq_cons_iff.1 hsteps₁
  obtain ⟨⟨known₃, _⟩, steps₃, rfl, rfl, hsteps₃⟩ := List.map_eq_cons_iff.1 hsteps₂
  obtain rfl := List.map_eq_nil_iff.1 hsteps₃
  have hreward : ¬(StakeUpdate.reward rewards).Refused record ledger.delegations := by
    refine StakeUpdate.not_refused (fun hneg => ?_) (fun hmap => hmap) ?_
    · have hneg := Int64.lt_iff_toInt_lt.1 hneg
      rw [Int64.toInt_zero] at hneg
      omega
    · rw [StakeUpdate.newBalance, h.balance]
      exact hfits
  obtain ⟨record₁, hrecord₁, h₁⟩ := h.accepts ⟨known₁, _⟩ hreward
  obtain ⟨record₂, hrecord₂, h₂⟩ := h₁.accepts ⟨known₂, .metadata metadata⟩
    (StakeUpdate.not_refused (fun hneg => hneg) hmetadata.2 (toInt_le_max _))
  obtain ⟨record₃, hrecord₃, h₃⟩ := h₂.accepts ⟨known₃, .timestamp timestamp⟩
    (StakeUpdate.not_refused (fun hneg => hneg) (fun hmap => hmap) (toInt_le_max _))
  have hlast : record₃.accepted [] = [] := rfl
  have haccepted := accepted_cons hrecord₁ (accepted_cons hrecord₂ (accepted_cons hrecord₃ hlast))
  refine ⟨haccepted, ?_⟩
  have hdescribes := h.after
    [⟨known₁, .reward rewards⟩, ⟨known₂, .metadata metadata⟩, ⟨known₃, .timestamp timestamp⟩]
  rw [haccepted] at hdescribes
  simpa only [List.foldl_cons, List.foldl_nil, advance, StakeStep.metadata?, Option.getD_some,
    hmetadata.1] using hdescribes

/-- Delegating what each address holds, to a record of nothing else, gives the same delegations. -/
theorem Describes.delegate_back (h : ledger.Describes record) (hinj : used.InjOn Address.digest)
    (hrows : ∀ row ∈ ledger.delegations, row.2.1 ∈ used) {base : StakeRecord Link}
    (hbase : (start ledger.controller ledger.peerShares).Describes base) {order : List Address}
    (hnodup : order.Nodup) (horder : ∀ a, a ∈ order ↔ a ∈ used ∧ ledger.delegations.shares a ≠ 0)
    {steps : List StakeStep} (hsteps : steps.map StakeStep.update =
      order.map fun a => .delegate a (ledger.delegations.shares a)) :
    base.accepted steps = steps ∧
      ({ start ledger.controller ledger.peerShares with
        delegations := ledger.delegations }).Describes (base.after steps) := by
  have hbalance : record.balance.toInt = _ + _ + _ := h.balance
  have hrewards := h.rewards_nonneg
  have hmax := toInt_le_max record.balance
  have hsum := Delegations.total_eq_sum h.stakes.sound hinj hrows hnodup horder
  have hstart : (start ledger.controller ledger.peerShares).balance = ledger.peerShares.toInt := by
    simp [Ledger.balance, start]
  obtain ⟨haccepted, table, hfold, hshares⟩ := hbase.delegate_all hinj hnodup
    (fun a ha => ((horder a).1 ha).1)
    (fun a _ => (Delegations.shares_le_total h.stakes.sound.positive a).1)
    (fun _ _ => rfl) (by omega) hsteps
  have hin : ∀ step ∈ steps, step.DelegatesIn used := by
    intro step hstep delegator shares hupdate
    have hmem := List.mem_map_of_mem (f := StakeStep.update) hstep
    rw [hsteps, hupdate] at hmem
    obtain ⟨a, ha, heq⟩ := List.mem_map.1 hmem
    cases heq
    exact ((horder _).1 ha).1
  have hstartRows : ∀ row ∈ (start ledger.controller ledger.peerShares).delegations,
      row.2.1 ∈ used := fun row hrow => absurd hrow List.not_mem_nil
  have hrows' := used_foldl hin hstartRows
  have hafter := hbase.after steps
  rw [haccepted, hfold] at hafter
  rw [hfold] at hrows'
  -- An index is determined by the shares of the addresses in use.
  have htable : table = ledger.delegations := by
    refine Delegations.eq_of_shares hafter.stakes.sound h.stakes.sound hinj hrows' hrows
      fun a ha => ?_
    rw [hshares a ha]
    split
    · rfl
    · next hnot => exact (not_not.1 fun hne => hnot ((horder a).2 ⟨ha, hne⟩)).symm
  exact ⟨haccepted, htable ▸ hafter⟩

/--
A record that amounts to a ledger is rebuilt from the peer's shares, whatever the order in which the
delegators are taken.
-/
theorem Describes.rebuild (h : ledger.Describes record) (hinj : used.InjOn Address.digest)
    (hrows : ∀ row ∈ ledger.delegations, row.2.1 ∈ used) {base : StakeRecord Link}
    (hbase : (start ledger.controller ledger.peerShares).Describes base) {rewards : Int64}
    (hrewards : rewards.toInt = ledger.rewards) {order : List Address} (hnodup : order.Nodup)
    (horder : ∀ a, a ∈ order ↔ a ∈ used ∧ ledger.delegations.shares a ≠ 0)
    {steps : List StakeStep} (hsteps : steps.map StakeStep.update =
      order.map (fun a => .delegate a (ledger.delegations.shares a)) ++
        [.reward rewards, .metadata ledger.metadata, .timestamp ledger.timestamp]) :
    base.accepted steps = steps ∧ ledger.Describes (base.after steps) := by
  obtain ⟨delegations, last, rfl, hdelegations, hlast⟩ := List.map_eq_append_iff.1 hsteps
  obtain ⟨haccepted, hbetween⟩ := h.delegate_back hinj hrows hbase hnodup horder hdelegations
  have hfits : ledger.peerShares.toInt + ledger.delegations.total + 0 + rewards.toInt ≤
      Int64.maxValue.toInt := by
    have hbalance : record.balance.toInt = _ + _ + _ := h.balance
    have hmax := toInt_le_max record.balance
    omega
  obtain ⟨hrest, hdescribes⟩ :=
    hbetween.finish (hrewards ▸ h.rewards_nonneg) hfits h.filter_metadata hlast
  rw [StakeRecord.accepted_append, haccepted, hrest, StakeRecord.after_append]
  refine ⟨rfl, ?_⟩
  rw [hrewards] at hdescribes
  simpa only [start, Int.zero_add] using hdescribes

/-! ### What a history amounts to -/

/-- A ledger has what the steps of a history set last, and all that they add as rewards. -/
structure SumsUp (ledger : Ledger) (controller : Address) (shares : Int64) (used : Set Address)
    (steps : List StakeStep) : Prop where
  controller : ledger.controller = controller
  peerShares : ledger.peerShares = lastPeerShares shares steps
  rewards : ledger.rewards = totalRewards steps
  metadata : ledger.metadata = lastMetadata steps
  timestamp : ledger.timestamp = lastTimestamp steps
  shares : ∀ a ∈ used, ledger.delegations.shares a = lastShares steps a
  rows : ∀ row ∈ ledger.delegations, row.2.1 ∈ used
  holders : ∀ a, lastShares steps a ≠ 0 → a ∈ used

/-- The ledger of a record sums up the steps that were accepted. -/
theorem Describes.sumsUp {controller : Address} {shares : Int64}
    (h : (start controller shares).Describes record) (hinj : used.InjOn Address.digest)
    {steps : List StakeStep} (hsteps : ∀ step ∈ steps, step.DelegatesIn used) :
    ((record.accepted steps).foldl advance (start controller shares)).SumsUp controller shares used
      (record.accepted steps) := by
  have haccepted : ∀ step ∈ record.accepted steps, step.DelegatesIn used :=
    fun step hstep => hsteps step ((record.accepted_sublist steps).mem hstep)
  refine ⟨controller_foldl _ _, peerShares_foldl _ _, ?_, metadata_foldl _ _, timestamp_foldl _ _,
    fun a ha => h.shares_after hinj hsteps ha, used_foldl haccepted nofun,
    fun a => mem_used_of_lastShares haccepted⟩
  rw [rewards_foldl]
  exact Int.zero_add _

/-- Those for whom shares were set last are the delegators, with the shares that they hold. -/
theorem SumsUp.order {controller : Address} {shares : Int64} {steps : List StakeStep}
    (h : ledger.SumsUp controller shares used steps) {order : List Address}
    (horder : ∀ a, a ∈ order ↔ lastShares steps a ≠ 0) :
    (∀ a, a ∈ order ↔ a ∈ used ∧ ledger.delegations.shares a ≠ 0) ∧
      order.map (fun a => StakeUpdate.delegate a (ledger.delegations.shares a)) =
        order.map fun a => .delegate a (lastShares steps a) := by
  refine ⟨fun a => ?_, List.map_congr_left fun a ha => ?_⟩
  · rw [horder]
    constructor
    · intro hne
      have ha := h.holders a hne
      exact ⟨ha, (h.shares a ha).symm ▸ hne⟩
    · rintro ⟨ha, hne⟩
      exact h.shares a ha ▸ hne
  · rw [h.shares a (h.holders a ((horder a).1 ha))]

end Ledger

namespace StakeRecord

open StakeStep

/--
Stake records do not depend on their history. What the peer and each address hold is what was set
for them last. A record is written like the one that is rebuilt from the peer's last shares by
delegating what each address holds, in any order, adding all rewards at once, publishing what was
published last and setting the last timestamp; all these updates are accepted. The addresses in use
are assumed to have different digests.
-/
theorem rebuilding (controller : Address) {shares : Int64} (h : 0 ≤ shares) {used : Set Address}
    (hinj : used.InjOn Address.digest) :
    ∃ first, create controller shares = .ok first ∧
      ∀ steps : List StakeStep, (∀ step ∈ steps, step.DelegatesIn used) →
        let record := first.after steps
        let accepted := first.accepted steps
        record.peerShares = lastPeerShares shares accepted ∧
        (∀ a ∈ used, (record.sharesOf a).Gives (· = lastShares accepted a)) ∧
          ∃ rewards base, rewards.toInt = totalRewards accepted ∧
            create controller (lastPeerShares shares accepted) = .ok base ∧
            ∀ order : List Address, order.Nodup → (∀ a, a ∈ order ↔ lastShares accepted a ≠ 0) →
              ∀ rebuild : List StakeStep,
                rebuild.map StakeStep.update =
                  order.map (fun a => .delegate a (lastShares accepted a)) ++
                    [.reward rewards, .metadata (lastMetadata accepted),
                      .timestamp (lastTimestamp accepted)] →
                base.accepted rebuild = rebuild ∧
                  ∀ label label', (Cell.mk label (.peer (base.after rebuild))).encode =
                    (Cell.mk label' (.peer record)).encode := by
  obtain ⟨first, hfirst, hstart⟩ := Ledger.describes_create controller h
  refine ⟨first, hfirst, fun steps hused => ?_⟩
  have hafter := hstart.after steps
  have hsums := hstart.sumsUp hinj hused
  generalize (first.accepted steps).foldl Ledger.advance (Ledger.start controller shares) = ledger
    at hafter hsums
  have hpeer := hafter.peer_nonneg
  -- What was added as rewards is part of the balance, so it can be added at once.
  obtain ⟨rewards, hrewards⟩ :=
    Ledger.exists_toInt_eq hafter.rewards_nonneg (m := (first.after steps).balance) (by
      have hbalance : (first.after steps).balance.toInt = _ + _ + _ := hafter.balance
      have hdelegated := hafter.delegated_nonneg
      omega)
  rw [hsums.peerShares] at hpeer
  obtain ⟨base, hbase, hdescribes⟩ :=
    Ledger.describes_create controller (Int64.le_iff_toInt_le.2 hpeer)
  refine ⟨hafter.peerShares.trans hsums.peerShares,
    fun a ha => hsums.shares a ha ▸ hafter.stakes.gives_sharesOf a, rewards, base,
    hrewards.trans hsums.rewards, hbase, fun order hnodup horder rebuild hrebuild => ?_⟩
  obtain ⟨horder', hdelegations⟩ := hsums.order horder
  have hstart' : (Ledger.start ledger.controller ledger.peerShares).Describes base := by
    rw [hsums.controller, hsums.peerShares]
    exact hdescribes
  obtain ⟨hall, hend⟩ := hafter.rebuild hinj hsums.rows hstart' hrewards hnodup horder' (by
    rw [hdelegations, hsums.metadata, hsums.timestamp]
    exact hrebuild)
  exact ⟨hall, hend.encode_eq hafter⟩

/-! ### A history with comings and goings -/

/-- A map of one entry. -/
def published : Cell :=
  .mk 0 (.map [(.direct 1 (.mk 2 (.integer 1)), .direct 3 (.mk 4 (.text "a")))])

/-- Updates, each made with nothing known. -/
def stepsOf (updates : List StakeUpdate) : List StakeStep := updates.map (⟨{}, ·⟩)

/-- Two addresses come, the peer's shares are set, a reward is paid, a map is published. -/
def comings : List StakeStep :=
  stepsOf [.delegate ⟨2⟩ 30, .delegate ⟨4⟩ 7, .timestamp 50, .peerShares 15, .reward 5,
    .metadata (some published)]

/-- More shares than the balance has room for. -/
def tooMany : StakeStep := ⟨{}, .delegate ⟨3⟩ Int64.maxValue⟩

/-- A third address comes, the first is reset, the second leaves, another reward is paid. -/
def goings : List StakeStep :=
  stepsOf [.delegate ⟨3⟩ 20, .delegate ⟨2⟩ 45, .reward 2, .delegate ⟨4⟩ 0, .timestamp 100]

/-- All that happens, with an update in between that is refused. -/
def history : List StakeStep := comings ++ tooMany :: goings

/-- The record of a new peer that has ten shares. -/
def tenShares : StakeRecord Link where
  controller := ⟨1⟩
  peerShares := 10
  stakes := none
  delegatedShares := 0
  metadata := none
  timestamp := -1
  balance := 10

theorem tenShares_evaluated :
    (tenShares.accepted comings).length = comings.length ∧
    ((tenShares.after comings).outcome tooMany).isOk = false ∧
    ((tenShares.after comings).accepted goings).length = goings.length := by
  decide +kernel

/-- All but the one update that is refused are accepted. -/
theorem accepted_tenShares :
    tenShares.accepted history = comings ++ goings := by
  obtain ⟨hcomings, hrefused, hgoings⟩ := tenShares_evaluated
  rw [history, accepted_append, (accepted_sublist _ _).eq_of_length hcomings, accepted]
  cases houtcome : (tenShares.after comings).outcome tooMany with
  | ok record => rw [houtcome] at hrefused; cases hrefused
  | error fault => exact congrArg (comings ++ ·) ((accepted_sublist _ _).eq_of_length hgoings)

theorem digests_nodup : ([⟨2⟩, ⟨3⟩, ⟨4⟩].map Address.digest).Nodup := by decide +kernel

theorem injOn_digest : {a | a ∈ [⟨2⟩, ⟨3⟩, ⟨4⟩]}.InjOn Address.digest :=
  fun _ ha _ hb heq => List.inj_on_of_nodup_map digests_nodup ha hb heq

theorem delegatesIn_history :
    ∀ step ∈ history, step.DelegatesIn {a | a ∈ [⟨2⟩, ⟨3⟩, ⟨4⟩]} := by
  simp [history, comings, goings, tooMany, stepsOf, DelegatesIn]

/-- What is held in the end. -/
def held (delegator : Address) : Int64 :=
  if delegator = ⟨2⟩ then 45 else if delegator = ⟨3⟩ then 20 else 0

theorem lastShares_history : lastShares (comings ++ goings) = held := by
  funext a
  by_cases h2 : a = ⟨2⟩
  · subst h2
    decide
  by_cases h3 : a = ⟨3⟩
  · subst h3
    decide
  by_cases h4 : a = ⟨4⟩
  · subst h4
    decide
  simp [lastShares, lastOf, shares?, comings, goings, stepsOf, held, h2, h3, Ne.symm h2, Ne.symm h3,
    Ne.symm h4]

theorem mem_iff_held (a : Address) : a ∈ [⟨2⟩, ⟨3⟩] ↔ held a ≠ 0 := by
  rw [List.mem_pair, held]
  split
  · next h => exact iff_of_true (.inl h) (by decide)
  · next h2 =>
    split
    · next h => exact iff_of_true (.inr h) (by decide)
    · next h3 => exact iff_of_false (not_or.2 ⟨h2, h3⟩) (not_not.2 rfl)

/-- The updates that lead to what there is in the end, with the delegators in some order. -/
def settling (order : List Address) : List StakeStep :=
  stepsOf (order.map (fun a => .delegate a (held a)) ++
    [.reward 7, .metadata (some published), .timestamp 100])

/--
A record is rebuilt from the fifteen shares that the peer has in the end, with its two delegators in
either order. The update that was refused, the shares that were reset and the address that left
again make no difference.
-/
theorem tenShares_rebuilding :
    Set.InjOn Address.digest {a | a ∈ [⟨2⟩, ⟨3⟩, ⟨4⟩]} ∧ create ⟨1⟩ 10 = .ok tenShares ∧
      tenShares.accepted history = comings ++ goings ∧
      (tenShares.after history).peerShares = 15 ∧
      ((tenShares.after history).sharesOf ⟨2⟩).Gives (· = 45) ∧
      ((tenShares.after history).sharesOf ⟨4⟩).Gives (· = 0) ∧
      ∃ base, create ⟨1⟩ 15 = .ok base ∧
        base.accepted (settling [⟨2⟩, ⟨3⟩]) = settling [⟨2⟩, ⟨3⟩] ∧
        (Cell.mk 0 (.peer (base.after (settling [⟨2⟩, ⟨3⟩])))).encode =
          (Cell.mk 0 (.peer (tenShares.after history))).encode ∧
        (Cell.mk 0 (.peer (base.after (settling [⟨3⟩, ⟨2⟩])))).encode =
          (Cell.mk 0 (.peer (tenShares.after history))).encode := by
  have hnonneg : (0 : Int64) ≤ 10 := by decide
  obtain ⟨first, hfirst, hall⟩ := rebuilding ⟨1⟩ hnonneg injOn_digest
  obtain rfl : tenShares = first := Except.ok.inj hfirst
  obtain ⟨hpeer, hshares, rewards, base, hrewards, hbase, hrebuild⟩ := hall _ delegatesIn_history
  rw [accepted_tenShares] at hpeer hshares hrewards hbase hrebuild
  rw [lastShares_history] at hshares hrebuild
  obtain rfl : rewards = 7 := Int64.toInt_inj.1 hrewards
  have hupdates : ∀ updates, (stepsOf updates).map StakeStep.update = updates := by
    simp [stepsOf, Function.comp_def]
  have hswap : [(⟨3⟩ : Address), ⟨2⟩].Perm [⟨2⟩, ⟨3⟩] := .swap ..
  obtain ⟨haccepted, hencode⟩ := hrebuild [⟨2⟩, ⟨3⟩] (by decide) mem_iff_held _ (hupdates _)
  obtain ⟨-, hencode'⟩ := hrebuild [⟨3⟩, ⟨2⟩] (by decide)
    (fun a => hswap.mem_iff.trans (mem_iff_held a)) _ (hupdates _)
  exact ⟨injOn_digest, hfirst, accepted_tenShares, hpeer, hshares ⟨2⟩ (by simp),
    hshares ⟨4⟩ (by simp), base, hbase, haccepted, hencode 0 0, hencode' 0 0⟩

end StakeRecord

end CellGraph
