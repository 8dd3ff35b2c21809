import CellGraph.Proofs.Computation.Ends
import CellGraph.Stake.Holdings

/-!
# Consulting what links hold

Most computations on cells only look at the cells that links hold. They leave these where they are,
and what they come to depends on them and on nothing else that is known.

* `Knowledge.Idles`, `Calc.Idle`: only labels have been used, and notes been made;
* `Attempt.EndsWhere`: what can be said of an outcome where links hold certain cells;
* `Attempt.EndsWhere.bind`, `Attempt.EndsWhere.bind_eq`: compound computations;
* `Link.held`, `Cell.bound`, `StakeRecord.sharesHeld`: what is found where links hold certain cells.
-/

namespace CellGraph

/-! ### Idle steps -/

/-- Nothing has changed but labels that have been used, and notes of digests and encodings. -/
structure Knowledge.Idles (known known' : Knowledge) : Prop where
  next : known.next ≤ known'.next
  statuses : known'.statuses = known.statuses
  kept : known'.kept = known.kept

namespace Knowledge

variable {known known' known'' : Knowledge}

theorem Idles.refl (known : Knowledge) : known.Idles known := ⟨le_rfl, rfl, rfl⟩

theorem Idles.trans (h : known.Idles known') (h' : known'.Idles known'') : known.Idles known'' :=
  ⟨h.next.trans h'.next, h'.statuses.trans h.statuses, h'.kept.trans h.kept⟩

theorem Notes.idles (h : known.Notes known') : known.Idles known' :=
  ⟨h.next.ge, h.statuses, h.kept⟩

theorem Idles.notes (h : known.Idles known') :
    Notes { known with next := known'.next } known' :=
  ⟨rfl, h.statuses, h.kept⟩

theorem Idles.resident_eq (h : known.Idles known') : known'.resident = known.resident := by
  funext link
  cases link with
  | direct => rfl
  | soft label digest => rw [resident, resident, h.kept]

end Knowledge

/-- A computation that cannot fail, and makes nothing known but labels and notes. -/
def Calc.Idle {α : Type} (step : Calc α) : Prop := ∀ known : Knowledge, known.Idles (step.run known).2

namespace Calc.Idle

variable {α β : Type}

theorem of_notes {step : Calc α} (h : step.OnlyNotes) : step.Idle := fun known => (h known).idles

theorem pure (a : α) : Idle (Pure.pure a) := fun known => .refl known

theorem bind {first : Calc α} {next : α → Calc β} (hfirst : first.Idle)
    (hnext : ∀ a, (next a).Idle) : (first >>= next).Idle :=
  fun known => (hfirst known).trans (hnext _ _)

theorem mapM {list : List β} {step : β → Calc α} (h : ∀ b, (step b).Idle) :
    (list.mapM step).Idle := by
  induction list with
  | nil => exact pure []
  | cons b rest ih =>
    rw [List.mapM_cons]
    exact (h b).bind fun _ => ih.bind fun _ => pure _

theorem make (value : Value Link) : (Cell.make value).Idle :=
  fun _ => ⟨Nat.le_succ _, rfl, rfl⟩

theorem link (target : Cell) : target.link.Idle :=
  fun _ => ⟨Nat.le_succ _, rfl, rfl⟩

theorem makeEntry (key value : Cell) : (Cell.makeEntry key value).Idle := by
  unfold Cell.makeEntry
  refine (of_notes key.onlyNotes_noteDigest).bind fun _ => ?_
  refine (link key).bind fun keyLink => ?_
  exact (link value).bind fun valueLink => pure (keyLink, valueLink)

theorem makeMap (bindings : List (Cell × Cell)) : (Cell.makeMap bindings).Idle := by
  have hentries : (bindings.mapM fun binding => Cell.makeEntry binding.1 binding.2).Idle :=
    mapM fun binding => makeEntry binding.1 binding.2
  exact hentries.bind fun entries => make (.map (Entry.ofIndex (Index.ofList (Entry.index entries))))

end Calc.Idle

/-! ### Outcomes where links hold certain cells -/

namespace Attempt

variable {α β γ : Type} {resident : Link → Option Cell}

/-- Where links hold these cells, this holds of the outcome, and links go on holding them. -/
def EndsWhere (resident : Link → Option Cell) (attempt : Attempt α)
    (post : Except Fault α → Prop) : Prop :=
  ∀ known : Knowledge, known.resident = resident →
    post (attempt.run.run known).1 ∧ known.Idles (attempt.run.run known).2

namespace EndsWhere

variable {post : Except Fault α → Prop}

theorem mono {post' : Except Fault α → Prop} {attempt : Attempt α}
    (h : attempt.EndsWhere resident post) (hpost : ∀ outcome, post outcome → post' outcome) :
    attempt.EndsWhere resident post' :=
  fun known hknown => ⟨hpost _ (h known hknown).1, (h known hknown).2⟩

theorem pure {a : α} (h : post (.ok a)) : EndsWhere resident (Pure.pure a) post :=
  fun known _ => ⟨h, .refl known⟩

theorem throw {fault : Fault} (h : post (.error fault)) :
    EndsWhere resident (MonadExcept.throw fault) post :=
  fun known _ => ⟨h, .refl known⟩

/-- The rest of a computation goes on where its first part ends. -/
theorem bind {first : Attempt β} {next : β → Attempt α} {middle : Except Fault β → Prop}
    (hfirst : first.EndsWhere resident middle)
    (hfault : ∀ fault, middle (.error fault) → post (.error fault))
    (hnext : ∀ b, middle (.ok b) → (next b).EndsWhere resident post) :
    (first >>= next).EndsWhere resident post := by
  intro known hknown
  obtain ⟨hmiddle, hidles⟩ := hfirst known hknown
  rw [run_run_bind]
  rcases hrun : first.run.run known with ⟨fault | b, known'⟩ <;> rw [hrun] at hmiddle hidles
  · exact ⟨hfault fault hmiddle, hidles⟩
  · obtain ⟨hpost, hidles'⟩ := hnext b hmiddle known' (hidles.resident_eq.trans hknown)
    exact ⟨hpost, hidles.trans hidles'⟩

/-- Where the outcome of the first part is known, so is that of the whole. -/
theorem bind_eq {first : Attempt β} {next : β → Attempt α} {middle : Except Fault β}
    {result : β → Except Fault α} (hfirst : first.EndsWhere resident (· = middle))
    (hnext : ∀ b, middle = .ok b → (next b).EndsWhere resident (· = result b)) :
    (first >>= next).EndsWhere resident (· = middle >>= result) := by
  refine hfirst.bind ?_ ?_
  · rintro fault rfl
    rfl
  · rintro b rfl
    exact hnext b rfl

/-- A condition under which an argument is refused. -/
theorem guard {condition : Prop} [Decidable condition] {cause : ArgumentFault}
    {next : Unit → Attempt α} (hrefused : condition → post (.error (.invalidArgument cause)))
    (hnext : ¬condition → (next ()).EndsWhere resident post) :
    EndsWhere resident (if condition then Attempt.refuse cause >>= next else next ()) post := by
  split
  · next h => exact fun known _ => ⟨hrefused h, .refl known⟩
  · next h => exact hnext h

theorem ofExcept {outcome : Except Fault α} :
    EndsWhere resident (liftM outcome : Attempt α) (· = outcome) := by
  cases outcome with
  | error fault => exact throw rfl
  | ok a => exact pure rfl

/-- A computation that only makes notes gives what it gives in any case. -/
theorem notes {step : Calc α} (hnotes : step.OnlyNotes) {a : α}
    (h : ∀ known, (step.run known).1 = a) :
    EndsWhere resident (liftM step : Attempt α) (· = .ok a) :=
  fun known _ => ⟨congrArg Except.ok (h known), (hnotes known).idles⟩

theorem make (value : Value Link) :
    EndsWhere resident (liftM (Cell.make value) : Attempt Cell)
      fun outcome => ∃ cell, outcome = .ok cell ∧ cell.value = value :=
  fun known _ => ⟨⟨_, rfl, rfl⟩, Calc.Idle.make value known⟩

theorem noteKeys (entries : List Entry) :
    EndsWhere resident
      (entries.forM fun entry => (liftM entry.1.noteDigest : Attempt PUnit)) (· = .ok ⟨⟩) := by
  induction entries with
  | nil => exact pure rfl
  | cons entry rest ih =>
    have hfirst : EndsWhere resident (liftM entry.1.noteDigest : Attempt PUnit) (· = .ok ⟨⟩) :=
      notes entry.1.onlyNotes_noteDigest fun _ => rfl
    exact hfirst.bind nofun fun _ _ => ih

end EndsWhere

end Attempt

/-! ### What is found where links hold certain cells -/

open Attempt

section

variable (resident : Link → Option Cell)

/-- The target of a link, if it is held. -/
def Link.held (link : Link) : Except Fault Cell :=
  match resident link with
  | some cell => .ok cell
  | none => .error (.missingData link.digest)

/-- The target of an optional link, if it is held. -/
def Link.heldOption : Option Link → Except Fault (Option Cell)
  | none => .ok none
  | some link => return some (← link.held resident)

/-- What a map binds to the key of this digest, if it is held. -/
def Cell.bound (map : Cell) (digest : Digest) : Except Fault (Option Cell) := do
  Link.heldOption resident ((Entry.find? digest (← map.entries?)).map Prod.snd)

/-- The shares of a delegator, if they are held. -/
def StakeRecord.sharesHeld (record : StakeRecord Link) (delegator : Address) :
    Except Fault Int64 := do
  match ← Link.heldOption resident record.stakes with
  | none => return 0
  | some stakes =>
    match ← stakes.bound resident delegator.digest with
    | none => return 0
    | some shares =>
      match shares.value with
      | .integer n => return n
      | _ => .error (.invalidData (.delegatorStakeNotInteger delegator.number))

variable {resident}

theorem Link.held_eq_ok_iff {link : Link} {cell : Cell} :
    link.held resident = .ok cell ↔ resident link = some cell := by
  unfold held
  cases resident link <;> simp

theorem Link.held_eq_error_iff {link : Link} {fault : Fault} :
    link.held resident = .error fault ↔
      resident link = none ∧ fault = .missingData link.digest := by
  unfold held
  cases resident link <;> simp [eq_comm]

theorem Link.endsWhere_load (link : Link) :
    link.load.EndsWhere resident (· = link.held resident) := by
  rintro known rfl
  rw [load, run_run_bind, run_run_get]
  dsimp only
  unfold held
  cases known.resident link with
  | some cell => exact ⟨rfl, .refl known⟩
  | none => exact ⟨rfl, .refl known⟩

theorem Link.endsWhere_loadOption (link : Option Link) :
    (Link.loadOption link).EndsWhere resident (· = Link.heldOption resident link) := by
  cases link with
  | none => exact .pure rfl
  | some link => exact link.endsWhere_load.bind_eq fun cell _ => .pure rfl

theorem Cell.endsWhere_findDigest (map : Cell) (digest : Digest) :
    (map.findDigest? digest).EndsWhere resident (· = map.bound resident digest) := by
  unfold findDigest? bound
  refine EndsWhere.ofExcept.bind_eq fun entries _ => ?_
  refine (EndsWhere.noteKeys entries).bind nofun fun _ _ => ?_
  cases Entry.find? digest entries with
  | none => exact .pure rfl
  | some entry => exact entry.2.endsWhere_load.bind_eq fun cell _ => .pure rfl

theorem Cell.endsWhere_find (map key : Cell) :
    (map.find? key).EndsWhere resident (· = map.bound resident key.digest) := by
  unfold find?
  have hentries : EndsWhere resident (discard (liftM map.entries? : Attempt (List Entry)))
      (· = discard map.entries?) := by
    cases map.entries? with
    | error fault => exact .throw rfl
    | ok entries => exact .pure rfl
  have hhash : EndsWhere resident (liftM key.hash : Attempt Digest) (· = .ok key.digest) :=
    .notes key.onlyNotes_hash key.fst_hash
  refine hentries.bind ?_ ?_
  · intro fault hfault
    unfold bound
    cases hmap : map.entries? with
    | error fault' =>
      rw [hmap] at hfault
      cases hfault
      rfl
    | ok entries =>
      rw [hmap] at hfault
      cases hfault
  · refine fun _ _ => hhash.bind nofun fun digest hdigest => ?_
    cases hdigest
    exact map.endsWhere_findDigest key.digest

theorem StakeRecord.endsWhere_sharesOf (record : StakeRecord Link) (delegator : Address) :
    (record.sharesOf delegator).EndsWhere resident (· = record.sharesHeld resident delegator) := by
  unfold sharesOf sharesHeld
  refine (Link.endsWhere_loadOption record.stakes).bind_eq fun stakes _ => ?_
  cases stakes with
  | none => exact .pure rfl
  | some stakes =>
    refine (stakes.endsWhere_findDigest delegator.digest).bind_eq fun shares _ => ?_
    cases shares with
    | none => exact .pure rfl
    | some shares =>
      dsimp only
      cases shares.value with
      | integer n => exact .pure rfl
      | _ => exact .throw rfl

end

end CellGraph
