import CellGraph.Proofs.Computation.Law

/-!
# How computations fail

A computation that keeps an invariant may say more: what it has done if it succeeds, and what it has
done, and why it stopped, if it fails.

* `Law.Guards`: what holds of the result, and what of the fault;
* `Law.Guards.bind`, `Law.Guards.forM`: compound computations, whose parts keep the invariant;
* `Law.Guards.of_ok`, `Law.Guards.of_error`, `Law.Guards.always`: what it says of one run;
* `Law.Carries`: what is kept and what is guarded, of computations in which the one depends on the
  other.
-/

namespace CellGraph

variable {σ ε α β : Type}

/--
From every state of the law in which `pre` holds, the computation ends in a state in which `post`
holds of its result if it succeeds, and `fails` of its fault if it does not.
-/
def Law.Guards (law : Law σ) (held : Set Link) (pre : σ → Prop) (action : ExceptT ε (StateM σ) α)
    (post : α → σ → Prop) (fails : ε → σ → Prop) : Prop :=
  ∀ s, law.inv held s → pre s →
    match action.run.run s with
    | (.ok a, s') => post a s'
    | (.error fault, s') => fails fault s'

namespace Law.Guards

variable {law : Law σ} {held : Set Link} {pre : σ → Prop} {post : α → σ → Prop}
  {fails : ε → σ → Prop}

theorem pure {a : α} (h : ∀ s, law.inv held s → pre s → post a s) :
    law.Guards held pre (pure a : ExceptT ε (StateM σ) α) post fails :=
  fun s hinv hpre => h s hinv hpre

theorem throw {fault : ε} (h : ∀ s, law.inv held s → pre s → fails fault s) :
    law.Guards held pre (throw fault : ExceptT ε (StateM σ) α) post fails :=
  fun s hinv hpre => h s hinv hpre

/-- The rest of a compound computation starts from what its first part keeps and ensures. -/
theorem bind {first : ExceptT ε (StateM σ) α} {next : α → ExceptT ε (StateM σ) β}
    {kept : α → Set Link → σ → Prop} {final : β → σ → Prop}
    (hkeeps : law.Keeps held pre first kept) (hfirst : law.Guards held pre first post fails)
    (hnext : ∀ a held', held ⊆ held' →
      law.Guards held' (fun s => kept a held' s ∧ post a s) (next a) final fails) :
    law.Guards held pre (first >>= next) final fails := by
  intro s hinv hpre
  obtain ⟨held', hsub, hinv', -, hkept⟩ := hkeeps s hinv hpre
  have hpost := hfirst s hinv hpre
  rw [run_run_bind]
  rcases hrun : first.run.run s with ⟨fault | a, s'⟩ <;> rw [hrun] at hinv' hkept hpost
  · exact hpost
  · exact hnext a held' hsub s' hinv' ⟨hkept a rfl, hpost⟩

/-- A computation may be looked at from each state in turn. -/
theorem from_state {action : ExceptT ε (StateM σ) α}
    (h : ∀ s, law.inv held s → pre s → law.Guards held (fun s' => s' = s) action post fails) :
    law.Guards held pre action post fails :=
  fun s hinv hpre => h s hinv hpre s hinv rfl

/-- A computation that looks at its state first goes on from a state that is known. -/
theorem get_bind {next : σ → ExceptT ε (StateM σ) β} {final : β → σ → Prop}
    (h : ∀ s, law.inv held s → pre s → law.Guards held (fun s' => s' = s) (next s) final fails) :
    law.Guards held pre (MonadState.get >>= next) final fails :=
  fun s hinv hpre => h s hinv hpre s hinv rfl

theorem mono {action : ExceptT ε (StateM σ) α} {pre' : σ → Prop} {post' : α → σ → Prop}
    (h : law.Guards held pre action post fails) (hpre : ∀ s, law.inv held s → pre' s → pre s)
    (hpost : ∀ a s, post a s → post' a s) : law.Guards held pre' action post' fails := by
  intro s hinv hs
  have hend := h s hinv (hpre s hinv hs)
  rcases hrun : action.run.run s with ⟨fault | a, s'⟩ <;> rw [hrun] at hend
  · exact hend
  · exact hpost a s' hend

theorem mono_fails {action : ExceptT ε (StateM σ) α} {fails' : ε → σ → Prop}
    (h : law.Guards held pre action post fails)
    (hfails : ∀ fault s, fails fault s → fails' fault s) :
    law.Guards held pre action post fails' := by
  intro s hinv hs
  have hend := h s hinv hs
  rcases hrun : action.run.run s with ⟨fault | a, s'⟩ <;> rw [hrun] at hend
  · exact hfails fault s' hend
  · exact hend

/-- What is kept may be used about the result. -/
theorem mono_kept {action : ExceptT ε (StateM σ) α} {kept : α → Set Link → σ → Prop}
    {post' : α → σ → Prop} (h : law.Guards held pre action post fails)
    (hkeeps : law.Keeps held pre action kept)
    (hpost : ∀ a held' s, held ⊆ held' → law.inv held' s → kept a held' s → post a s → post' a s) :
    law.Guards held pre action post' fails := by
  intro s hinv hs
  have hend := h s hinv hs
  obtain ⟨held', hsub, hinv', -, hkept⟩ := hkeeps s hinv hs
  rcases hrun : action.run.run s with ⟨fault | a, s'⟩ <;> rw [hrun] at hend hinv' hkept
  · exact hend
  · exact hpost a held' s' hsub hinv' (hkept a rfl) hend

/-- Two things may be said of one computation. -/
theorem and {action : ExceptT ε (StateM σ) α} {post' : α → σ → Prop} {fails' : ε → σ → Prop}
    (h : law.Guards held pre action post fails) (h' : law.Guards held pre action post' fails') :
    law.Guards held pre action (fun a s => post a s ∧ post' a s)
      fun fault s => fails fault s ∧ fails' fault s := by
  intro s hinv hs
  have hend := h s hinv hs
  have hend' := h' s hinv hs
  rcases hrun : action.run.run s with ⟨fault | a, s'⟩ <;> rw [hrun] at hend hend'
  · exact ⟨hend, hend'⟩
  · exact ⟨hend, hend'⟩

/-- What stays true as states move on is still true at the end, whatever becomes of it. -/
theorem of_keeps {action : ExceptT ε (StateM σ) α} {kept : α → Set Link → σ → Prop}
    (hkeeps : law.Keeps held pre action kept) {stable : σ → Prop}
    (hstable : ∀ held s held' s', law.le held s held' s' → stable s → stable s') :
    law.Guards held (fun s => pre s ∧ stable s) action (fun _ s => stable s)
      fun _ s => stable s := by
  intro s hinv hs
  obtain ⟨held', -, -, hle, -⟩ := hkeeps s hinv hs.1
  have hend := hstable _ _ _ _ hle hs.2
  rcases hrun : action.run.run s with ⟨fault | a, s'⟩ <;> rw [hrun] at hend
  · exact hend
  · exact hend

/-- A computation may start from one state in which it may start. -/
theorem at_state {action : ExceptT ε (StateM σ) α} {s : σ}
    (h : law.Guards held pre action post fails) (hs : pre s) :
    law.Guards held (fun s' => s' = s) action post fails :=
  h.mono (fun _ _ heq => heq ▸ hs) fun _ _ h => h

/-- Going through a list, each step going on from what the steps before it have ensured. -/
theorem forM {list : List β} {step : β → ExceptT ε (StateM σ) PUnit} {always : σ → Prop}
    (hkeeps : ∀ b ∈ list, ∀ held', held ⊆ held' →
      law.Keeps held' (fun _ => True) (step b) fun _ _ _ => True)
    (hstep : ∀ b ∈ list, ∀ held', held ⊆ held' →
      law.Guards held' always (step b) (fun _ s => always s) fails) :
    law.Guards held always (list.forM step) (fun _ s => always s) fails := by
  induction list generalizing held with
  | nil => exact pure fun _ _ h => h
  | cons b rest ih =>
    show law.Guards held _ (step b >>= fun _ => rest.forM step) _ _
    have hb := List.mem_cons_self (a := b) (l := rest)
    refine Guards.bind (hkeeps b hb held subset_rfl).of_always (hstep b hb held subset_rfl)
      fun _ held' hsub => ?_
    refine (ih (fun c hc held'' hsub' => ?_) fun c hc held'' hsub' => ?_).mono
      (fun _ _ h => h.2) fun _ _ h => h
    · exact hkeeps c (List.mem_cons_of_mem _ hc) held'' (hsub.trans hsub')
    · exact hstep c (List.mem_cons_of_mem _ hc) held'' (hsub.trans hsub')

/-- Going through a list, one step of which ensures something that the rest may rely on. -/
theorem forM_split {before after : List β} {b : β} {step : β → ExceptT ε (StateM σ) PUnit}
    {always found : σ → Prop}
    (hkeeps : ∀ c ∈ before ++ b :: after, ∀ held', held ⊆ held' →
      law.Keeps held' (fun _ => True) (step c) fun _ _ _ => True)
    (hbefore : ∀ c ∈ before, ∀ held', held ⊆ held' →
      law.Guards held' always (step c) (fun _ s => always s) fails)
    (hstep : ∀ held', held ⊆ held' →
      law.Guards held' always (step b) (fun _ s => always s ∧ found s) fails)
    (hafter : ∀ c ∈ after, ∀ held', held ⊆ held' →
      law.Guards held' (fun s => always s ∧ found s) (step c) (fun _ s => always s ∧ found s)
        fails) :
    law.Guards held always ((before ++ b :: after).forM step) (fun _ s => always s ∧ found s)
      fails := by
  induction before generalizing held with
  | nil =>
    show law.Guards held _ (step b >>= fun _ => after.forM step) _ _
    refine Guards.bind (hkeeps b (List.mem_cons_self ..) held subset_rfl).of_always
      (hstep held subset_rfl) fun _ held' hsub => ?_
    refine (forM (fun c hc held'' hsub' => ?_) fun c hc held'' hsub' => ?_).mono
      (fun _ _ h => h.2) fun _ _ h => h
    · exact hkeeps c (List.mem_cons_of_mem _ hc) held'' (hsub.trans hsub')
    · exact hafter c hc held'' (hsub.trans hsub')
  | cons first rest ih =>
    show law.Guards held _ (step first >>= fun _ => (rest ++ b :: after).forM step) _ _
    refine Guards.bind (hkeeps first (List.mem_cons_self ..) held subset_rfl).of_always
      (hbefore first (List.mem_cons_self ..) held subset_rfl) fun _ held' hsub => ?_
    refine (ih (fun c hc held'' hsub' => ?_) (fun c hc held'' hsub' => ?_)
      (fun held'' hsub' => hstep held'' (hsub.trans hsub'))
      fun c hc held'' hsub' => hafter c hc held'' (hsub.trans hsub')).mono (fun _ _ h => h.2)
        fun _ _ h => h
    · exact hkeeps c (List.mem_cons_of_mem _ hc) held'' (hsub.trans hsub')
    · exact hbefore c (List.mem_cons_of_mem _ hc) held'' (hsub.trans hsub')

/--
Going through a list with a result that is carried along, of which something is true as far as the
list has been gone through.
-/
theorem foldlM {list : List β} {step : α → β → ExceptT ε (StateM σ) α} {always : σ → Prop}
    {sofar : List β → α → Prop}
    (hkeeps : ∀ b ∈ list, ∀ a held', held ⊆ held' →
      law.Keeps held' (fun _ => True) (step a b) fun _ _ _ => True)
    (hstep : ∀ before b after, list = before ++ b :: after → ∀ a, sofar before a →
      ∀ held', held ⊆ held' → law.Guards held' always (step a b)
        (fun a' s => always s ∧ sofar (before ++ [b]) a') fails) {a : α} (ha : sofar [] a) :
    law.Guards held always (list.foldlM step a) (fun a' s => always s ∧ sofar list a') fails := by
  -- The induction is on what is left of the list.
  suffices h : ∀ before after, list = before ++ after → ∀ a, sofar before a →
      ∀ held', held ⊆ held' → law.Guards held' always (after.foldlM step a)
        (fun a' s => always s ∧ sofar list a') fails from
    h [] list rfl a ha held subset_rfl
  intro before after hlist
  induction after generalizing before with
  | nil =>
    intro a ha held' _
    rw [List.append_nil] at hlist
    exact pure fun _ _ h => ⟨h, hlist ▸ ha⟩
  | cons b rest ih =>
    intro a ha held' hsub
    have hmem : b ∈ list := hlist ▸ List.mem_append_right _ (List.mem_cons_self ..)
    refine Guards.bind (hkeeps b hmem a held' hsub).of_always
      (hstep before b rest hlist a ha held' hsub) fun a' held'' hsub' => .from_state
        fun s _ hs => ?_
    obtain ⟨-, halways, ha'⟩ := hs
    have hlist' : list = before ++ [b] ++ rest := by rw [List.append_assoc]; exact hlist
    exact (ih _ hlist' a' ha' held'' (hsub.trans hsub')).at_state halways

/-- What is so whenever a computation ends, whether it fails or not. -/
theorem always {action : ExceptT ε (StateM σ) α} {p : σ → Prop}
    (h : law.Guards held pre action post fails) (hpost : ∀ a s, post a s → p s)
    (hfails : ∀ fault s, fails fault s → p s) {s : σ} (hinv : law.inv held s) (hpre : pre s) :
    p (action.run.run s).2 := by
  have hend := h s hinv hpre
  rcases hrun : action.run.run s with ⟨fault | a, s'⟩ <;> rw [hrun] at hend
  · exact hfails fault s' hend
  · exact hpost a s' hend

theorem of_error {action : ExceptT ε (StateM σ) α} (h : law.Guards held pre action post fails)
    {s : σ} (hinv : law.inv held s) (hpre : pre s) {fault : ε}
    (hrun : (action.run.run s).1 = .error fault) : fails fault (action.run.run s).2 := by
  have hend := h s hinv hpre
  rcases heq : action.run.run s with ⟨fault' | a, s'⟩ <;> rw [heq] at hend hrun <;> cases hrun
  exact hend

theorem of_ok {action : ExceptT ε (StateM σ) α} (h : law.Guards held pre action post fails)
    {s : σ} (hinv : law.inv held s) (hpre : pre s) {a : α}
    (hrun : (action.run.run s).1 = .ok a) : post a (action.run.run s).2 := by
  have hend := h s hinv hpre
  rcases heq : action.run.run s with ⟨fault | a', s'⟩ <;> rw [heq] at hend hrun <;> cases hrun
  exact hend

end Law.Guards

/-- Changing the result of a computation changes nothing of what it does. -/
theorem snd_run_map (f : α → β) (action : ExceptT ε (StateM σ) α) (s : σ) :
    ((do return f (← action) : ExceptT ε (StateM σ) β).run.run s).2 = (action.run.run s).2 := by
  rw [run_run_bind]
  rcases action.run.run s with ⟨_ | _, _⟩ <;> rfl

theorem fst_run_map (f : α → β) (action : ExceptT ε (StateM σ) α) (s : σ) :
    ((do return f (← action) : ExceptT ε (StateM σ) β).run.run s).1 =
      (action.run.run s).1.map f := by
  rw [run_run_bind]
  rcases action.run.run s with ⟨_ | _, _⟩ <;> rfl

/-! ### What is kept and what is guarded -/

/--
From every state of the law in which `pre` holds, the computation leads to a state of the law,
perhaps with more links in use. There `post` holds of its result if it succeeds, and `fails` of its
fault if it does not.
-/
def Law.Carries (law : Law σ) (held : Set Link) (pre : σ → Prop) (action : ExceptT ε (StateM σ) α)
    (post : α → Set Link → σ → Prop) (fails : ε → σ → Prop) : Prop :=
  ∀ s, law.inv held s → pre s →
    ∃ held', held ⊆ held' ∧ law.inv held' (action.run.run s).2 ∧
      law.le held s held' (action.run.run s).2 ∧
      match (action.run.run s).1 with
      | .ok a => post a held' (action.run.run s).2
      | .error fault => fails fault (action.run.run s).2

namespace Law.Carries

variable {law : Law σ} {held : Set Link} {pre : σ → Prop} {post : α → Set Link → σ → Prop}
  {fails : ε → σ → Prop}

theorem pure {a : α} (h : ∀ s, law.inv held s → pre s → post a held s) :
    law.Carries held pre (pure a : ExceptT ε (StateM σ) α) post fails :=
  fun s hinv hpre => ⟨held, subset_rfl, hinv, law.refl held s, h s hinv hpre⟩

/-- The rest of a compound computation starts from what its first part ensures. -/
theorem bind {first : ExceptT ε (StateM σ) α} {next : α → ExceptT ε (StateM σ) β}
    {final : β → Set Link → σ → Prop} (hfirst : law.Carries held pre first post fails)
    (hnext : ∀ a held', held ⊆ held' → law.Carries held' (post a held') (next a) final fails) :
    law.Carries held pre (first >>= next) final fails := by
  intro s hinv hpre
  obtain ⟨held₁, hsub₁, hinv₁, hle₁, hpost⟩ := hfirst s hinv hpre
  rw [run_run_bind]
  rcases hrun : first.run.run s with ⟨fault | a, s₁⟩ <;> rw [hrun] at hinv₁ hle₁ hpost
  · exact ⟨held₁, hsub₁, hinv₁, hle₁, hpost⟩
  · obtain ⟨held₂, hsub₂, hinv₂, hle₂, hfinal⟩ := hnext a held₁ hsub₁ s₁ hinv₁ hpost
    exact ⟨held₂, hsub₁.trans hsub₂, hinv₂, law.trans hle₁ hle₂, hfinal⟩

/-- A computation may be looked at from each state in turn. -/
theorem from_state {action : ExceptT ε (StateM σ) α}
    (h : ∀ s, law.inv held s → pre s → law.Carries held (fun s' => s' = s) action post fails) :
    law.Carries held pre action post fails :=
  fun s hinv hpre => h s hinv hpre s hinv rfl

/-- A computation that looks at its state first goes on from a state that is known. -/
theorem get_bind {next : σ → ExceptT ε (StateM σ) β} {final : β → Set Link → σ → Prop}
    (h : ∀ s, law.inv held s → pre s →
      law.Carries held (fun s' => s' = s) (next s) final fails) :
    law.Carries held pre (MonadState.get >>= next) final fails :=
  fun s hinv hpre => h s hinv hpre s hinv rfl

theorem mono {action : ExceptT ε (StateM σ) α} {pre' : σ → Prop} {post' : α → Set Link → σ → Prop}
    (h : law.Carries held pre action post fails) (hpre : ∀ s, law.inv held s → pre' s → pre s)
    (hpost : ∀ a held' s, held ⊆ held' → law.inv held' s → post a held' s → post' a held' s) :
    law.Carries held pre' action post' fails := by
  intro s hinv hs
  obtain ⟨held', hsub, hinv', hle, hend⟩ := h s hinv (hpre s hinv hs)
  refine ⟨held', hsub, hinv', hle, ?_⟩
  rcases hrun : action.run.run s with ⟨fault | a, s'⟩ <;> rw [hrun] at hinv' hend
  · exact hend
  · exact hpost a held' s' hsub hinv' hend

/-- What stays true as states move on is carried along. -/
theorem carry {action : ExceptT ε (StateM σ) α} (stable : σ → Prop)
    (h : law.Carries held pre action post fails)
    (hstable : ∀ held s held' s', law.le held s held' s' → stable s → stable s') :
    law.Carries held (fun s => pre s ∧ stable s) action
      (fun a held' s => post a held' s ∧ stable s) fails := by
  intro s hinv hs
  obtain ⟨held', hsub, hinv', hle, hend⟩ := h s hinv hs.1
  have hmoved := hstable _ _ _ _ hle hs.2
  refine ⟨held', hsub, hinv', hle, ?_⟩
  rcases hrun : action.run.run s with ⟨fault | a, s'⟩ <;> rw [hrun] at hend hmoved
  · exact hend
  · exact ⟨hend, hmoved⟩

/-- A computation may start from one state in which it may start. -/
theorem at_state {action : ExceptT ε (StateM σ) α} {s : σ}
    (h : law.Carries held pre action post fails) (hs : pre s) :
    law.Carries held (fun s' => s' = s) action post fails :=
  h.mono (fun _ _ heq => heq ▸ hs) fun _ _ _ _ _ h => h

/--
Going through a list. What is due is due of the rest of the list after each step, and what each step
has done stays done.
-/
theorem forM {list : List β} {step : β → ExceptT ε (StateM σ) PUnit} {due : List β → σ → Prop}
    {done : β → σ → Prop}
    (hstep : ∀ b ∈ list, ∀ rest held', held ⊆ held' →
      law.Carries held' (due (b :: rest)) (step b) (fun _ _ s => due rest s ∧ done b s) fails)
    (hstable : ∀ b held s held' s', law.le held s held' s' → done b s → done b s') :
    law.Carries held (due list) (list.forM step) (fun _ _ s => due [] s ∧ ∀ b ∈ list, done b s)
      fails := by
  induction list generalizing held with
  | nil => exact pure fun _ _ h => ⟨h, nofun⟩
  | cons b rest ih =>
    show law.Carries held _ (step b >>= fun _ => rest.forM step) _ _
    refine (hstep b (List.mem_cons_self ..) rest held subset_rfl).bind fun _ held₁ hsub₁ =>
      .from_state fun s hinv hs => ?_
    have hrest := ih fun c hc rest' held' hsub =>
      hstep c (List.mem_cons_of_mem _ hc) rest' held' (hsub₁.trans hsub)
    intro s' _ heq
    obtain rfl : s' = s := heq
    obtain ⟨held₂, hsub₂, hinv₂, hle₂, hend⟩ := hrest s' hinv hs.1
    refine ⟨held₂, hsub₂, hinv₂, hle₂, ?_⟩
    have hdone := hstable b _ _ _ _ hle₂ hs.2
    rcases hrun : (rest.forM step).run.run s' with ⟨fault | a, s''⟩ <;> rw [hrun] at hend hdone
    · exact hend
    · exact ⟨hend.1, List.forall_mem_cons.2 ⟨hdone, hend.2⟩⟩

/-- Going through a list, where nothing else is due than what always holds. -/
theorem forM_always {list : List β} {step : β → ExceptT ε (StateM σ) PUnit} {always : σ → Prop}
    {done : β → σ → Prop}
    (hstep : ∀ b ∈ list, ∀ held', held ⊆ held' →
      law.Carries held' always (step b) (fun _ _ s => always s ∧ done b s) fails)
    (hstable : ∀ b held s held' s', law.le held s held' s' → done b s → done b s') :
    law.Carries held always (list.forM step) (fun _ _ s => always s ∧ ∀ b ∈ list, done b s)
      fails := by
  let due : List β → σ → Prop := fun _ => always
  have hdue : ∀ b ∈ list, ∀ rest held', held ⊆ held' →
      law.Carries held' (due (b :: rest)) (step b) (fun _ _ s => due rest s ∧ done b s) fails :=
    fun b hb _ => hstep b hb
  exact forM hdue hstable

end Law.Carries

end CellGraph
