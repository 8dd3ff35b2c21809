import CellGraph.Proofs.Computation.Run
import Mathlib.Data.Set.Basic

/-!
# Computations that keep an invariant

Whatever a computation does, also if it fails, it keeps the invariant of its state, and its state
only moves on. The invariant speaks of the links that are in use; a computation may bring new ones
into use.

* `Law`, `Law.also`: an invariant with an order of states, and with one more;
* `Law.Keeps`: a computation keeps to the law, and ensures something if it succeeds;
* `Law.Keeps.bind`, `Law.Keeps.forM`, `Law.Keeps.mapM`: compound computations;
* `Law.Keeps.frame`, `Law.Keeps.carry`: what stays true across a computation.
-/

namespace CellGraph

variable {σ ε α β : Type}

/-- An invariant of the links in use and of states, and the order in which both move on. -/
structure Law (σ : Type) where
  inv : Set Link → σ → Prop
  le : Set Link → σ → Set Link → σ → Prop
  refl : ∀ held s, le held s held s
  trans : ∀ {held held' held'' s s' s''}, le held s held' s' → le held' s' held'' s'' →
    le held s held'' s''

/--
From every state of the law in which `pre` holds, the computation leads to a state of the law,
perhaps with more links in use. If it succeeds, `post` holds of the result.
-/
def Law.Keeps (law : Law σ) (held : Set Link) (pre : σ → Prop) (action : ExceptT ε (StateM σ) α)
    (post : α → Set Link → σ → Prop) : Prop :=
  ∀ s, law.inv held s → pre s →
    ∃ held', held ⊆ held' ∧ law.inv held' (action.run.run s).2 ∧
      law.le held s held' (action.run.run s).2 ∧
      ∀ a, (action.run.run s).1 = .ok a → post a held' (action.run.run s).2

/-- The same law, with something more about how states move on. -/
def Law.also (law : Law σ) (rel : σ → σ → Prop) (refl : ∀ s, rel s s)
    (trans : ∀ {s s' s''}, rel s s' → rel s' s'' → rel s s'') : Law σ where
  inv := law.inv
  le held s held' s' := law.le held s held' s' ∧ rel s s'
  refl held s := ⟨law.refl held s, refl s⟩
  trans h h' := ⟨law.trans h.1 h'.1, trans h.2 h'.2⟩

namespace Law.Keeps

variable {law : Law σ} {held : Set Link} {pre : σ → Prop} {post : α → Set Link → σ → Prop}

theorem pure {a : α} (h : ∀ s, law.inv held s → pre s → post a held s) :
    law.Keeps held pre (pure a : ExceptT ε (StateM σ) α) post := by
  intro s hinv hpre
  refine ⟨held, subset_rfl, hinv, law.refl held s, ?_⟩
  rintro b ⟨⟩
  exact h s hinv hpre

theorem throw (fault : ε) : law.Keeps held pre (throw fault : ExceptT ε (StateM σ) α) post := by
  intro s hinv _
  refine ⟨held, subset_rfl, hinv, law.refl held s, ?_⟩
  rintro b ⟨⟩

/-- The state is seen as it is. -/
theorem get {pre : σ → Prop} :
    law.Keeps held pre (get : ExceptT ε (StateM σ) σ)
      fun a held' s => a = s ∧ law.inv held' s ∧ pre s := by
  intro s hinv hpre
  refine ⟨held, subset_rfl, hinv, law.refl held s, ?_⟩
  rintro _ ⟨⟩
  exact ⟨rfl, hinv, hpre⟩

/-- The rest of a compound computation starts from what its first part ensures. -/
theorem bind {first : ExceptT ε (StateM σ) α} {next : α → ExceptT ε (StateM σ) β}
    {final : β → Set Link → σ → Prop} (hfirst : law.Keeps held pre first post)
    (hnext : ∀ a held', held ⊆ held' → law.Keeps held' (post a held') (next a) final) :
    law.Keeps held pre (first >>= next) final := by
  intro s hinv hpre
  obtain ⟨held₁, hsub₁, hinv₁, hle₁, hpost⟩ := hfirst s hinv hpre
  rw [run_run_bind]
  rcases hrun : first.run.run s with ⟨fault | a, s₁⟩ <;> rw [hrun] at hinv₁ hle₁ hpost
  · exact ⟨held₁, hsub₁, hinv₁, hle₁, by rintro b ⟨⟩⟩
  · obtain ⟨held₂, hsub₂, hinv₂, hle₂, hfinal⟩ := hnext a held₁ hsub₁ s₁ hinv₁ (hpost a rfl)
    exact ⟨held₂, hsub₁.trans hsub₂, hinv₂, law.trans hle₁ hle₂, hfinal⟩

/-- A computation that moves its state on in one more way. -/
theorem also {action : ExceptT ε (StateM σ) α} {rel : σ → σ → Prop} {hrefl : ∀ s, rel s s}
    {htrans : ∀ {s s' s''}, rel s s' → rel s' s'' → rel s s''}
    (h : law.Keeps held pre action post) (hrel : ∀ s, rel s (action.run.run s).2) :
    (law.also rel hrefl htrans).Keeps held pre action post := by
  intro s hinv hpre
  obtain ⟨held', hsub, hinv', hle, hpost⟩ := h s hinv hpre
  exact ⟨held', hsub, hinv', ⟨hle, hrel s⟩, hpost⟩

/-- A computation may be looked at from each state in turn. -/
theorem from_state {action : ExceptT ε (StateM σ) α}
    (h : ∀ s, law.inv held s → pre s → law.Keeps held (fun s' => s' = s) action post) :
    law.Keeps held pre action post :=
  fun s hinv hpre => h s hinv hpre s hinv rfl

/-- A computation that looks at its state first goes on from a state that is known. -/
theorem get_bind {next : σ → ExceptT ε (StateM σ) β} {final : β → Set Link → σ → Prop}
    (h : ∀ s, law.inv held s → pre s → law.Keeps held (fun s' => s' = s) (next s) final) :
    law.Keeps held pre (MonadState.get >>= next) final :=
  fun s hinv hpre => h s hinv hpre s hinv rfl

theorem mono {action : ExceptT ε (StateM σ) α} {pre' : σ → Prop} {post' : α → Set Link → σ → Prop}
    (h : law.Keeps held pre action post) (hpre : ∀ s, law.inv held s → pre' s → pre s)
    (hpost : ∀ a held' s, held ⊆ held' → law.inv held' s → post a held' s → post' a held' s) :
    law.Keeps held pre' action post' := by
  intro s hinv hs
  obtain ⟨held', hsub, hinv', hle, ha⟩ := h s hinv (hpre s hinv hs)
  exact ⟨held', hsub, hinv', hle, fun a hok => hpost a held' _ hsub hinv' (ha a hok)⟩

/-- Less may be asked for beforehand. -/
theorem mono_left {action : ExceptT ε (StateM σ) α} {pre' : σ → Prop}
    (h : law.Keeps held pre action post) (hpre : ∀ s, law.inv held s → pre' s → pre s) :
    law.Keeps held pre' action post :=
  h.mono hpre fun _ _ _ _ _ h => h

/-- Less may be ensured afterwards. -/
theorem mono_right {action : ExceptT ε (StateM σ) α} {post' : α → Set Link → σ → Prop}
    (h : law.Keeps held pre action post)
    (hpost : ∀ a held' s, post a held' s → post' a held' s) : law.Keeps held pre action post' :=
  h.mono (fun _ _ h => h) fun a held' s _ _ => hpost a held' s

/-- A computation that needs nothing beforehand may start from anything. -/
theorem of_always {action : ExceptT ε (StateM σ) α}
    (h : law.Keeps held (fun _ => True) action post) : law.Keeps held pre action post :=
  h.mono_left fun _ _ _ => trivial

/-- A computation may start from one state in which it may start. -/
theorem at_state {action : ExceptT ε (StateM σ) α} {s : σ} (h : law.Keeps held pre action post)
    (hs : pre s) : law.Keeps held (fun s' => s' = s) action post :=
  h.mono_left fun _ _ heq => heq ▸ hs

/-- What is known before a computation starts may be used about it. -/
theorem assume {action : ExceptT ε (StateM σ) α} {p : Prop}
    (h : p → law.Keeps held (fun _ => True) action post) :
    law.Keeps held (fun _ => p) action post :=
  fun s hinv hp => h hp s hinv trivial

/-- What stays true as states move on is true afterwards if it was before. -/
theorem frame {action : ExceptT ε (StateM σ) α} (stable : σ → Prop)
    (h : law.Keeps held pre action post)
    (hstable : ∀ held s held' s', law.le held s held' s' → stable s → stable s') :
    law.Keeps held (fun s => pre s ∧ stable s) action
      fun a held' s => post a held' s ∧ stable s := by
  intro s hinv hs
  obtain ⟨held', hsub, hinv', hle, ha⟩ := h s hinv hs.1
  exact ⟨held', hsub, hinv', hle, fun a hok => ⟨ha a hok, hstable _ _ _ _ hle hs.2⟩⟩

/-- What stays true is carried across a computation that needs nothing beforehand. -/
theorem carry {action : ExceptT ε (StateM σ) α} (stable : σ → Prop)
    (h : law.Keeps held (fun _ => True) action post)
    (hstable : ∀ held s held' s', law.le held s held' s' → stable s → stable s') :
    law.Keeps held stable action fun a held' s => post a held' s ∧ stable s :=
  (h.frame stable hstable).mono_left fun _ _ hs => ⟨trivial, hs⟩

/-- What stays true is still true after a computation whose result does not matter. -/
theorem still {action : ExceptT ε (StateM σ) α} (stable : σ → Prop)
    (h : law.Keeps held (fun _ => True) action post)
    (hstable : ∀ held s held' s', law.le held s held' s' → stable s → stable s') :
    law.Keeps held stable action fun _ _ s => stable s :=
  (h.carry stable hstable).mono_right fun _ _ _ h => h.2

/-- Going through a list, each step ensuring something that stays true. -/
theorem forM {list : List β} {step : β → ExceptT ε (StateM σ) PUnit} (done : β → σ → Prop)
    (hstep : ∀ b ∈ list, ∀ held', held ⊆ held' →
      law.Keeps held' (fun _ => True) (step b) fun _ _ s => done b s)
    (hstable : ∀ b held s held' s', law.le held s held' s' → done b s → done b s') :
    law.Keeps held (fun _ => True) (list.forM step) fun _ _ s => ∀ b ∈ list, done b s := by
  induction list generalizing held with
  | nil => exact pure fun _ _ _ b hb => by cases hb
  | cons b rest ih =>
    show law.Keeps held _ (step b >>= fun _ => rest.forM step) _
    refine (hstep b (List.mem_cons_self ..) held subset_rfl).bind fun _ held' hsub => ?_
    have hrest : law.Keeps held' (fun _ => True) (rest.forM step)
        fun _ _ s => ∀ c ∈ rest, done c s :=
      ih fun c hc held'' hsub' => hstep c (List.mem_cons_of_mem _ hc) held'' (hsub.trans hsub')
    -- What the first step has ensured stays true while the rest of the list is gone through.
    refine (hrest.carry (done b) (hstable b)).mono_right fun _ _ s h c hc => ?_
    rcases List.mem_cons.1 hc with rfl | hc
    · exact h.2
    · exact h.1 c hc

/-- Going through a list with a result that is carried along. -/
theorem foldlM {list : List β} {step : α → β → ExceptT ε (StateM σ) α}
    (hstep : ∀ b ∈ list, ∀ a held', held ⊆ held' →
      law.Keeps held' (fun _ => True) (step a b) fun _ _ _ => True) (a : α) :
    law.Keeps held (fun _ => True) (list.foldlM step a) fun _ _ _ => True := by
  induction list generalizing held a with
  | nil => exact pure fun _ _ _ => trivial
  | cons b rest ih =>
    refine (hstep b (List.mem_cons_self ..) a held subset_rfl).bind fun a' held' hsub => ?_
    exact ih (fun c hc a held'' hsub' => hstep c (List.mem_cons_of_mem _ hc) a held''
      (hsub.trans hsub')) a'

/-- Going through a list and collecting results, of which something is true that stays true. -/
theorem mapM {γ : Type} {list : List β} {step : β → ExceptT ε (StateM σ) γ}
    (result : γ → Set Link → Prop)
    (hstep : ∀ b ∈ list, ∀ held', held ⊆ held' →
      law.Keeps held' (fun _ => True) (step b) fun c held'' _ => result c held'')
    (hmono : ∀ c held' held'', held' ⊆ held'' → result c held' → result c held'') :
    law.Keeps held (fun _ => True) (list.mapM step) fun cs held' _ => ∀ c ∈ cs, result c held' := by
  induction list generalizing held with
  | nil => exact pure fun _ _ _ c hc => by cases hc
  | cons b rest ih =>
    rw [List.mapM_cons]
    refine (hstep b (List.mem_cons_self ..) held subset_rfl).bind fun c held' hsub => ?_
    have hrest : law.Keeps held' (fun _ => True) (rest.mapM step)
        fun cs held'' _ => ∀ c ∈ cs, result c held'' :=
      ih fun d hd held'' hsub' => hstep d (List.mem_cons_of_mem _ hd) held'' (hsub.trans hsub')
    refine assume fun hc => hrest.bind fun cs held'' hsub' => assume fun hcs => ?_
    refine pure fun _ _ _ d hd => ?_
    rcases List.mem_cons.1 hd with rfl | hd
    · exact hmono _ _ _ hsub' hc
    · exact hcs d hd

end Law.Keeps

end CellGraph
