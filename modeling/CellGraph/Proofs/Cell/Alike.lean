import CellGraph.Cell.Canonical

/-!
# Checks with less in memory

A cell can be held in forms that differ in their links: a child that is held in memory in one may
only be named by its digest in another. The checks of a value look at what is held. They never fail
for lack of a child, so a value that passes them in one form passes them in every form in which less
of it is held.

* `Value.Alike`: two values that differ in their links only;
* `Shows`: what is held for one link is held alike for another;
* `Value.validate_of_alike`: the checks in a form in which less is held.
-/

namespace CellGraph

variable {ρ σ τ : Type}

/-! ### Values that differ in their links -/

/--
Two values that differ in their links only, `R` relating the links at each place: both come from one
value with pairs of related links.
-/
def Value.Alike (R : ρ → σ → Prop) (a : Value ρ) (b : Value σ) : Prop :=
  ∃ pairs : Value (ρ × σ), a = pairs.mapLinks Prod.fst ∧ b = pairs.mapLinks Prod.snd ∧
    ∀ pair ∈ pairs.links, R pair.1 pair.2

namespace Value.Alike

variable {R : ρ → σ → Prop} {a : Value ρ} {b : Value σ}

theorem refl {R : ρ → ρ → Prop} {a : Value ρ} (h : ∀ link ∈ a.links, R link link) :
    a.Alike R a := by
  refine ⟨a.mapLinks fun link => (link, link), ?_, ?_, by simpa using h⟩ <;>
    rw [mapLinks_mapLinks] <;> cases a <;> simp [mapLinks, StakeRecord.mapLinks]

theorem mono {S : ρ → σ → Prop} (h : a.Alike R b) (hRS : ∀ x ∈ a.links, ∀ y, R x y → S x y) :
    a.Alike S b := by
  obtain ⟨pairs, rfl, rfl, hpairs⟩ := h
  refine ⟨pairs, rfl, rfl, fun pair hp => hRS _ ?_ _ (hpairs pair hp)⟩
  rw [links_mapLinks]
  exact List.mem_map_of_mem hp

/-- Values that are alike are equal once related links have been given equal results. -/
theorem mapLinks_eq {f : ρ → τ} {g : σ → τ} (h : a.Alike R b) (hfg : ∀ x y, R x y → f x = g y) :
    a.mapLinks f = b.mapLinks g := by
  obtain ⟨pairs, rfl, rfl, hpairs⟩ := h
  rw [mapLinks_mapLinks, mapLinks_mapLinks]
  exact mapLinks_congr fun pair hp => hfg _ _ (hpairs pair hp)

theorem kind_eq (h : a.Alike R b) : a.kind = b.kind := by
  obtain ⟨pairs, rfl, rfl, -⟩ := h
  simp

theorem isEmptyMap_eq (h : a.Alike R b) :
    StakeRecord.isEmptyMap a = StakeRecord.isEmptyMap b := by
  obtain ⟨pairs, rfl, rfl, -⟩ := h
  cases pairs <;> simp [mapLinks, StakeRecord.isEmptyMap]

theorem isAddress_eq (h : a.Alike R b) : StakeRecord.isAddress a = StakeRecord.isAddress b := by
  obtain ⟨pairs, rfl, rfl, -⟩ := h
  cases pairs <;> rfl

end Value.Alike

/-! ### Holding less -/

/--
What `resident'` gives for the second of two related links, `resident` gives alike for the first;
this goes on below.
-/
def Shows (resident resident' : Link → Option Cell) (R : Link → Link → Prop) : Prop :=
  ∀ ⦃link link'⦄, R link link' → ∀ cell', resident' link' = some cell' →
    ∃ cell, resident link = some cell ∧ cell.value.Alike R cell'.value

theorem Shows.of_le {resident resident' : Link → Option Cell}
    (h : ∀ link cell, resident' link = some cell → resident link = some cell) :
    Shows resident resident' Eq := by
  rintro link _ rfl cell hcell
  exact ⟨cell, h link cell hcell, Value.Alike.refl fun _ _ => rfl⟩

namespace StakeRecord

variable {resident resident' : Link → Option Cell} {R : Link → Link → Prop}

/-- A check that comes first has to be passed before the others. -/
theorem check_first {condition : Prop} [Decidable condition] {cause : DataFault}
    {others : Except DataFault Unit} :
    (do if condition then throw cause
        others) = .ok () ↔ ¬condition ∧ others = .ok () := by
  by_cases h : condition <;> simp [h, bind, Except.bind, throw, throwThe, MonadExceptOf.throw]

/-- A record is valid if its numbers are, and both child maps are as far as they are held. -/
theorem validate_eq_ok_iff (record : StakeRecord Link) :
    record.validate resident = .ok () ↔
      ¬record.balance < 0 ∧ ¬record.delegatedShares < 0 ∧ ¬record.peerShares < 0 ∧
        ¬(record.stakes.isNone ∧ record.delegatedShares ≠ 0) ∧
        whenResident resident (validateStakes resident record.delegatedShares.toInt) record.stakes =
          .ok () ∧
        whenResident resident validateMetadata record.metadata = .ok () := by
  have hboth : ∀ first second : Except DataFault Unit,
      (do first; second) = .ok () ↔ first = .ok () ∧ second = .ok () := by
    rintro (_ | _) second <;> simp [bind, Except.bind]
  rw [validate, check_first, check_first, check_first, check_first, hboth]

/-- The sum of shares is found again, or found to be unknown, where less is held. -/
theorem sumOfStakes_of_shows (hR : Shows resident resident' R) :
    ∀ {pairs : List ((Link × Link) × (Link × Link))} {sum : Int} {found : Option Int},
      (∀ pair ∈ pairs, R pair.1.1 pair.1.2 ∧ R pair.2.1 pair.2.2) →
      sumOfStakes resident sum (pairs.map fun pair => (pair.1.1, pair.2.1)) = .ok found →
      ∃ found',
        sumOfStakes resident' sum (pairs.map fun pair => (pair.1.2, pair.2.2)) = .ok found' ∧
          (found' = found ∨ found' = none)
  | [], sum, found, _, hsum => by
    cases hsum
    exact ⟨some sum, rfl, .inl rfl⟩
  | ((key, key'), (shares, shares')) :: pairs, sum, found, hpairs, hsum => by
    obtain ⟨hkey, hshares⟩ := hpairs _ (List.mem_cons_self ..)
    have hrest := fun pair hp => hpairs pair (List.mem_cons_of_mem _ hp)
    simp only [List.map_cons, sumOfStakes] at hsum ⊢
    split at hsum
    · cases hsum
    · next hnot =>
      have hnot' : ¬(resident' key').any fun cell => !isAddress cell.value := by
        intro h
        obtain ⟨cell', hcell', haddress⟩ := (Option.any_eq_true _ _).1 h
        obtain ⟨cell, hcell, halike⟩ := hR hkey cell' hcell'
        exact hnot ((Option.any_eq_true _ _).2 ⟨cell, hcell, by rwa [halike.isAddress_eq]⟩)
      rw [if_neg hnot']
      -- Where the shares are not held in the second form, the sum is unknown there.
      cases hshares' : resident' shares' with
      | none => exact ⟨none, rfl, .inr rfl⟩
      | some cell' =>
        obtain ⟨cell, hcell, pairs', hvalue, hvalue', -⟩ := hR hshares cell' hshares'
        rw [hcell] at hsum
        simp only [hvalue, hvalue'] at hsum ⊢
        cases pairs' with
        | integer n =>
          simp only [Value.mapLinks] at hsum ⊢
          split at hsum
          · next hpos =>
            rw [if_pos hpos]
            exact sumOfStakes_of_shows hR hrest hsum
          · cases hsum
        | _ => cases hsum

theorem validateStakes_of_alike (hR : Shows resident resident' R) {delegated : Int}
    {stakes stakes' : Cell} (halike : stakes.value.Alike R stakes'.value)
    (h : validateStakes resident delegated stakes = .ok ()) :
    validateStakes resident' delegated stakes' = .ok () := by
  obtain ⟨pairs, hvalue, hvalue', hlinks⟩ := halike
  unfold validateStakes at h ⊢
  rw [hvalue] at h
  rw [hvalue']
  cases pairs with
  | map entries =>
    cases entries with
    | nil => cases h
    | cons entry entries =>
      have hpairs : ∀ pair ∈ entry :: entries, R pair.1.1 pair.1.2 ∧ R pair.2.1 pair.2.2 :=
        fun pair hp => ⟨hlinks pair.1 (List.mem_flatMap.2 ⟨pair, hp, by simp⟩),
          hlinks pair.2 (List.mem_flatMap.2 ⟨pair, hp, by simp⟩)⟩
      simp only [Value.mapLinks, List.map_cons] at h ⊢
      -- A sum that is unknown cannot contradict the number of delegated shares.
      split at h
      · cases h
      · next hsum =>
        obtain ⟨found', hsum', rfl | rfl⟩ := sumOfStakes_of_shows hR hpairs hsum <;>
          simp only [List.map_cons] at hsum' <;> rw [hsum']
      · next sum hsum =>
        obtain ⟨found', hsum', rfl | rfl⟩ := sumOfStakes_of_shows hR hpairs hsum <;>
          simp only [List.map_cons] at hsum' <;> rw [hsum']
        exact h
  | _ => cases h

theorem validateMetadata_of_alike {metadata metadata' : Cell}
    (halike : metadata.value.Alike R metadata'.value) (h : validateMetadata metadata = .ok ()) :
    validateMetadata metadata' = .ok () := by
  obtain ⟨pairs, hvalue, hvalue', -⟩ := halike
  unfold validateMetadata at h ⊢
  rw [hvalue] at h
  rw [hvalue']
  cases pairs with
  | map entries => cases entries <;> simp_all [Value.mapLinks]
  | _ => cases h

theorem whenResident_of_shows (hR : Shows resident resident' R)
    {check check' : Cell → Except DataFault Unit} {pair : Option (Link × Link)}
    (hpair : ∀ p ∈ pair, R p.1 p.2)
    (hcheck : ∀ cell cell' : Cell, cell.value.Alike R cell'.value → check cell = .ok () →
      check' cell' = .ok ())
    (h : whenResident resident check (pair.map Prod.fst) = .ok ()) :
    whenResident resident' check' (pair.map Prod.snd) = .ok () := by
  unfold whenResident at h ⊢
  cases pair with
  | none => rfl
  | some pair =>
    cases h' : resident' pair.2 with
    | none => simp [h']
    | some cell' =>
      obtain ⟨cell, hcell, halike⟩ := hR (hpair pair rfl) cell' h'
      simp only [Option.map_some, Option.bind_some, hcell, h'] at h ⊢
      exact hcheck cell cell' halike h

theorem leadsToEmptyMap_of_shows (hR : Shows resident resident' R) {pair : Option (Link × Link)}
    (hpair : ∀ p ∈ pair, R p.1 p.2) (h : leadsToEmptyMap resident' (pair.map Prod.snd)) :
    leadsToEmptyMap resident (pair.map Prod.fst) := by
  unfold leadsToEmptyMap at h ⊢
  cases pair with
  | none => cases h
  | some pair =>
    obtain ⟨cell', hcell', hempty⟩ := (Option.any_eq_true _ _).1 h
    obtain ⟨cell, hcell, halike⟩ := hR (hpair pair rfl) cell' hcell'
    exact (Option.any_eq_true _ _).2 ⟨cell, hcell, by rwa [halike.isEmptyMap_eq]⟩

/-- A valid record is valid in every form in which less is held. -/
theorem validate_of_alike (hR : Shows resident resident' R) {pairs : StakeRecord (Link × Link)}
    (hpairs : ∀ pair ∈ pairs.links, R pair.1 pair.2)
    (h : (pairs.mapLinks Prod.fst).validate resident = .ok ()) :
    (pairs.mapLinks Prod.snd).validate resident' = .ok () := by
  rw [validate_eq_ok_iff] at h ⊢
  obtain ⟨h₁, h₂, h₃, h₄, h₅, h₆⟩ := h
  refine ⟨h₁, h₂, h₃, by simpa [mapLinks] using h₄, ?_, ?_⟩
  · exact whenResident_of_shows hR (fun p hp => hpairs p (by simp_all [links]))
      (fun _ _ halike => validateStakes_of_alike hR halike) h₅
  · exact whenResident_of_shows hR (fun p hp => hpairs p (by simp_all [links]))
      (fun _ _ halike => validateMetadata_of_alike halike) h₆

/-- A valid record is held in the form in which it is written. -/
theorem not_leadsToEmptyMap_of_validate {record : StakeRecord Link}
    (h : record.validate resident = .ok ()) :
    leadsToEmptyMap resident record.stakes = false ∧
      leadsToEmptyMap resident record.metadata = false := by
  obtain ⟨-, -, -, -, hstakes, hmetadata⟩ := (validate_eq_ok_iff record).1 h
  unfold whenResident validateStakes validateMetadata at *
  unfold leadsToEmptyMap
  constructor
  · cases hlink : record.stakes.bind resident with
    | none => rfl
    | some cell =>
      rw [hlink] at hstakes
      cases hvalue : cell.value with
      | map entries => cases entries <;> simp_all [isEmptyMap]
      | _ => simp [hvalue, isEmptyMap]
  · cases hlink : record.metadata.bind resident with
    | none => rfl
    | some cell =>
      rw [hlink] at hmetadata
      cases hvalue : cell.value with
      | map entries => cases entries <;> simp_all [isEmptyMap]
      | _ => simp_all

end StakeRecord

namespace Value

variable {resident resident' : Link → Option Cell} {R : Link → Link → Prop}

theorem validate_eq_ok_iff (value : Value Link) :
    value.validate resident = .ok () ↔
      value.isCanonical resident ∧
        ∀ record, value = .peer record → record.validate resident = .ok () := by
  unfold validate
  cases h : value.isCanonical resident <;> cases value <;> simp

/-- A stake record is held in canonical form if it keeps its invariants. -/
theorem validate_peer_iff (record : StakeRecord Link) :
    (Value.peer record).validate resident = .ok () ↔ record.validate resident = .ok () := by
  rw [validate_eq_ok_iff]
  constructor
  · exact fun h => h.2 record rfl
  · intro h
    obtain ⟨hstakes, hmetadata⟩ := StakeRecord.not_leadsToEmptyMap_of_validate h
    refine ⟨by simp [isCanonical, hstakes, hmetadata], ?_⟩
    rintro _ ⟨⟩
    exact h

/-- A canonical value is canonical in every form in which less is held. -/
theorem isCanonical_of_alike (hR : Shows resident resident' R)
    (hdigest : ∀ link link', R link link' → link.digest = link'.digest) {a b : Value Link}
    (halike : a.Alike R b) (h : a.isCanonical resident) : b.isCanonical resident' := by
  obtain ⟨pairs, rfl, rfl, hpairs⟩ := halike
  cases pairs with
  | keyword name => exact h
  | map entries =>
    have heq :
        entries.map (fun pair => pair.1.1.digest) = entries.map fun pair => pair.1.2.digest :=
      List.map_congr_left fun pair hp =>
        hdigest _ _ (hpairs pair.1 (List.mem_flatMap.2 ⟨pair, hp, by simp⟩))
    simpa [isCanonical, mapLinks, Function.comp_def, heq] using h
  | peer record =>
    simp only [mapLinks, isCanonical, Bool.and_eq_true, Bool.not_eq_true',
      ← Bool.not_eq_true] at h ⊢
    exact ⟨fun hempty => h.1 (StakeRecord.leadsToEmptyMap_of_shows hR
        (fun p hp => hpairs p (by simp_all [links, StakeRecord.links])) hempty),
      fun hempty => h.2 (StakeRecord.leadsToEmptyMap_of_shows hR
        (fun p hp => hpairs p (by simp_all [links, StakeRecord.links])) hempty)⟩
  | _ => rfl

/-- A value that passes the checks passes them in every form in which less is held. -/
theorem validate_of_alike (hR : Shows resident resident' R)
    (hdigest : ∀ link link', R link link' → link.digest = link'.digest) {a b : Value Link}
    (halike : a.Alike R b) (h : a.validate resident = .ok ()) : b.validate resident' = .ok () := by
  rw [validate_eq_ok_iff] at h ⊢
  refine ⟨isCanonical_of_alike hR hdigest halike h.1, ?_⟩
  obtain ⟨pairs, rfl, rfl, hpairs⟩ := halike
  rintro record hrecord
  cases pairs with
  | peer both =>
    cases hrecord
    exact StakeRecord.validate_of_alike hR hpairs (h.2 _ rfl)
  | _ => cases hrecord

end Value

end CellGraph
