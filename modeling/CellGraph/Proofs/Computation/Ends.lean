import CellGraph.Cell.Map
import CellGraph.Proofs.Knowledge.Law

/-!
# Outcomes that do not depend on what is known

What is known decides which links hold a target that they were not made with. A computation that
looks at direct links only ends in the same way whatever is known, and so does everything that is
composed of such computations.

* `Attempt.Ends`, `Attempt.Gives`: what can be said of an outcome, whatever is known;
* `Attempt.Ends.bind`, `Attempt.Ends.guard`: compound computations;
* `Attempt.gives_hash`, `Attempt.gives_make`, `Attempt.gives_link`, `Attempt.gives_load`: the parts.
-/

namespace CellGraph.Attempt

variable {α β : Type}

/-- Whatever is known, this holds of the outcome. -/
def Ends (attempt : Attempt α) (post : Except Fault α → Prop) : Prop :=
  ∀ known : Knowledge, post (attempt.run.run known).1

/-- Whatever is known, there is a result, and this holds of it. -/
abbrev Gives (attempt : Attempt α) (result : α → Prop) : Prop :=
  attempt.Ends fun outcome => ∃ a, outcome = .ok a ∧ result a

theorem Ends.mono {attempt : Attempt α} {post post' : Except Fault α → Prop}
    (h : attempt.Ends post) (hpost : ∀ outcome, post outcome → post' outcome) :
    attempt.Ends post' :=
  fun known => hpost _ (h known)

theorem Ends.pure {a : α} {post : Except Fault α → Prop} (h : post (.ok a)) :
    Ends (pure a) post :=
  fun _ => h

theorem Ends.refuse {cause : ArgumentFault} {post : Except Fault α → Prop}
    (h : post (.error (.invalidArgument cause))) : Ends (Attempt.refuse cause) post :=
  fun _ => h

theorem Gives.pure {a : α} {result : α → Prop} (h : result a) : Gives (pure a) result :=
  fun _ => ⟨a, rfl, h⟩

/-- The rest of a computation goes on from any result that its first part may give. -/
theorem Ends.bind {first : Attempt α} {next : α → Attempt β} {middle : α → Prop}
    {post : Except Fault β → Prop} (hfirst : first.Gives middle)
    (hnext : ∀ a, middle a → (next a).Ends post) : (first >>= next).Ends post := by
  intro known
  obtain ⟨a, ha, hmiddle⟩ := hfirst known
  rw [run_run_bind]
  rcases hrun : first.run.run known with ⟨outcome, known'⟩
  rw [hrun] at ha
  cases ha
  exact hnext a hmiddle known'

/-- A condition under which an argument is refused. -/
theorem Ends.guard {condition : Prop} [Decidable condition] {cause : ArgumentFault}
    {next : Unit → Attempt α} {post : Except Fault α → Prop}
    (hrefused : condition → post (.error (.invalidArgument cause)))
    (hnext : ¬condition → (next ()).Ends post) :
    Ends (if condition then Attempt.refuse cause >>= next else next ()) post := by
  split
  · next h => exact fun known => hrefused h
  · next h => exact hnext h

/-! ### Parts -/

theorem gives_ok {outcome : Except Fault α} {a : α} (h : outcome = .ok a) :
    Gives (liftM outcome : Attempt α) (· = a) := by
  subst h
  exact fun _ => ⟨a, rfl, rfl⟩

/-- A computation that cannot fail. -/
theorem gives_calc {step : Calc α} {result : α → Prop} (h : ∀ known, result (step.run known).1) :
    Gives (liftM step : Attempt α) result :=
  fun known => ⟨_, rfl, h known⟩

theorem gives_hash (cell : Cell) : Gives (liftM cell.hash : Attempt Digest) (· = cell.digest) :=
  gives_calc cell.fst_hash

/-- Noting the digests of keys changes no outcome. -/
theorem gives_noteKeys (entries : List Entry) :
    Gives (entries.forM fun entry => (liftM entry.1.noteDigest : Attempt PUnit))
      fun _ => True := by
  induction entries with
  | nil => exact Gives.pure trivial
  | cons entry rest ih =>
    have hfirst : Gives (liftM entry.1.noteDigest : Attempt PUnit) fun _ => True :=
      gives_calc fun _ => trivial
    exact hfirst.bind fun _ _ => ih

theorem gives_make (value : Value Link) :
    Gives (liftM (Cell.make value) : Attempt Cell) (·.value = value) :=
  gives_calc fun _ => rfl

theorem gives_link (target : Cell) :
    Gives (liftM target.link : Attempt Link) (·.target? = some target) :=
  gives_calc fun _ => rfl

/-- A link that was made with its target holds it, whatever is known. -/
theorem gives_load {link : Link} {target : Cell} (h : link.target? = some target) :
    Gives link.load (· = target) := by
  cases link with
  | soft => cases h
  | direct label target' =>
    cases h
    exact fun known => ⟨target, rfl, rfl⟩

theorem gives_loadOption {link : Link} {target : Cell} (h : link.target? = some target) :
    (Link.loadOption (some link)).Gives (· = some target) :=
  (gives_load h).bind fun _ hcell => Gives.pure (congrArg some hcell)

end CellGraph.Attempt
