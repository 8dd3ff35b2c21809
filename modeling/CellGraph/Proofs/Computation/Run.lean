import CellGraph.Knowledge

/-!
# Running computations

Computations with a state that may fail keep the state that they had reached. Running a compound
computation is running its parts.

* `run_run_bind`: the rest of a compound computation runs where its first part ended;
* `run_run_tryCatch`: what is done about a fault is done where the computation ended;
* `run_run_liftM`, `liftM_bind`, `liftM_mapM`: a computation that cannot fail, among those that may;
* `mapError_eq_ok`: a fault that is passed on under another name was a fault before.
-/

namespace CellGraph

variable {ε ε' σ α β : Type}

theorem run_bind (first : StateM σ α) (next : α → StateM σ β) (s : σ) :
    (first >>= next).run s = (next (first.run s).1).run (first.run s).2 := rfl

@[simp] theorem run_pure (a : α) (s : σ) : (pure a : StateM σ α).run s = (a, s) := rfl

@[simp] theorem run_get (s : σ) : (get : StateM σ σ).run s = (s, s) := rfl

@[simp] theorem run_modify (f : σ → σ) (s : σ) :
    (modify f : StateM σ PUnit).run s = (⟨⟩, f s) := rfl

/-- The rest of a compound computation runs where its first part ended. -/
theorem run_run_bind (first : ExceptT ε (StateM σ) α) (next : α → ExceptT ε (StateM σ) β) (s : σ) :
    (first >>= next).run.run s =
      match first.run.run s with
      | (.ok a, s') => (next a).run.run s'
      | (.error fault, s') => (.error fault, s') := by
  simp only [ExceptT.run_bind, StateT.run_bind]
  rcases first.run.run s with ⟨_ | _, _⟩ <;> rfl

@[simp] theorem run_run_pure (a : α) (s : σ) :
    (pure a : ExceptT ε (StateM σ) α).run.run s = (.ok a, s) := rfl

@[simp] theorem run_run_throw (fault : ε) (s : σ) :
    (throw fault : ExceptT ε (StateM σ) α).run.run s = (.error fault, s) := rfl

@[simp] theorem run_run_get (s : σ) : (get : ExceptT ε (StateM σ) σ).run.run s = (.ok s, s) := rfl

@[simp] theorem run_run_getThe (s : σ) :
    (getThe σ : ExceptT ε (StateM σ) σ).run.run s = (.ok s, s) := rfl

@[simp] theorem run_run_modify (f : σ → σ) (s : σ) :
    (modify f : ExceptT ε (StateM σ) PUnit).run.run s = (.ok ⟨⟩, f s) := rfl

@[simp] theorem run_run_liftM (step : StateM σ α) (s : σ) :
    (liftM step : ExceptT ε (StateM σ) α).run.run s = (.ok (step.run s).1, (step.run s).2) := rfl

/-- What is done about a fault is done where the computation ended. -/
theorem run_run_tryCatch (action : ExceptT ε (StateM σ) α)
    (handle : ε → ExceptT ε (StateM σ) α) (s : σ) :
    (tryCatch action handle).run.run s =
      match action.run.run s with
      | (.ok a, s') => (.ok a, s')
      | (.error fault, s') => (handle fault).run.run s' := by
  show StateT.run (action.run >>= fun
    | .ok a => pure (.ok a)
    | .error fault => (handle fault).run) s = _
  rw [StateT.run_bind]
  rcases action.run.run s with ⟨_ | _, _⟩ <;> rfl

/-- A fault that is passed on under another name was a fault before. -/
theorem mapError_eq_ok {f : ε → ε'} {outcome : Except ε α} {a : α} :
    outcome.mapError f = .ok a ↔ outcome = .ok a := by
  cases outcome with
  | ok b =>
    exact ⟨fun h => congrArg Except.ok (Except.ok.inj h),
      fun h => congrArg Except.ok (Except.ok.inj h)⟩
  | error fault => exact ⟨nofun, nofun⟩

/-! ### Computations that cannot fail, among those that may -/

theorem liftM_bind (first : StateM σ α) (next : α → StateM σ β) :
    (liftM (first >>= next) : ExceptT ε (StateM σ) β) =
      liftM first >>= fun a => liftM (next a) := by
  refine ExceptT.ext (StateT.ext fun s => ?_)
  show _ = StateT.run (ExceptT.run _) s
  rw [run_run_bind]
  rfl

theorem liftM_mapM {γ : Type} (list : List γ) (step : γ → StateM σ α) :
    (liftM (list.mapM step) : ExceptT ε (StateM σ) (List α)) =
      list.mapM fun c => (liftM (step c) : ExceptT ε (StateM σ) α) := by
  induction list with
  | nil => rfl
  | cons c rest ih =>
    rw [List.mapM_cons, List.mapM_cons, liftM_bind]
    refine congrArg _ (funext fun a => ?_)
    rw [liftM_bind, ih]
    rfl

end CellGraph
