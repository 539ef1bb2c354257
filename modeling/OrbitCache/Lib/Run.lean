import Mathlib.Data.List.Basic
import Mathlib.Logic.Relation

/-!
# Guarded runs

Runs of a system given by an executable step function, restricted to the steps that a guard allows:
the invariant rule, monotonicity in the guard, and `Run.of_exec`, by which a list of actions that
was executed is a run. Where an action lies in a history that ends with one more action, says
`concat_eq_split`.
-/

variable {σ α : Type*}

/-- A run whose every step satisfies the guard, a condition on the state before the step and the
action. -/
def Run (step : σ → α → Option σ) (guard : σ → α → Prop) : σ → σ → Prop :=
  Relation.ReflTransGen fun s t => ∃ a, guard s a ∧ step s a = some t

namespace Run

variable {step : σ → α → Option σ} {guard guard' : σ → α → Prop} {s t u : σ}

/-- A state is reached from itself. -/
theorem refl : Run step guard s s := Relation.ReflTransGen.refl

/-- The invariant rule: what holds initially and is kept by every step that the guard allows holds
of every state reached. -/
theorem invariant (h : Run step guard s t) (inv : σ → Prop) (hs : inv s)
    (hstep : ∀ t a u, inv t → guard t a → step t a = some u → inv u) : inv t := by
  induction h with
  | refl => exact hs
  | tail _ hlast ih =>
    obtain ⟨a, hguard, hu⟩ := hlast
    exact hstep _ a _ ih hguard hu

/-- A weaker guard allows more runs, so what is true of these is true of the others. -/
theorem mono (h : Run step guard s t) (hguard : ∀ s a, guard s a → guard' s a) :
    Run step guard' s t :=
  h.invariant _ Relation.ReflTransGen.refl fun _ a _ hrun ha hstep =>
    Relation.ReflTransGen.tail hrun ⟨a, hguard _ a ha, hstep⟩

/-- Execute a list of actions, checking the guard before each. -/
def exec (step : σ → α → Option σ) (check : σ → α → Bool) : σ → List α → Option σ
  | s, [] => some s
  | s, a :: as => if check s a then (step s a).bind (exec step check · as) else none

/-- An execution is a run, if what is checked implies the guard. -/
theorem of_exec {check : σ → α → Bool} (hcheck : ∀ s a, check s a = true → guard s a)
    {as : List α} (h : exec step check s as = some t) : Run step guard s t := by
  induction as generalizing s with
  | nil =>
    cases h
    exact refl
  | cons a as ih =>
    rw [exec] at h
    split at h
    · next hc =>
      obtain ⟨u, hu, hrest⟩ := Option.bind_eq_some_iff.1 h
      exact Relation.ReflTransGen.head ⟨a, hcheck s a hc, hu⟩ (ih hrest)
    · cases h

/-- An execution that ends in a state with a given property. -/
theorem exists_of_exec {check : σ → α → Bool} (hcheck : ∀ s a, check s a = true → guard s a)
    (as : List α) (p : σ → Bool) (h : (exec step check s as).any p = true) :
    ∃ t, Run step guard s t ∧ p t = true := by
  cases ht : exec step check s as with
  | none => rw [ht] at h; cases h
  | some t => rw [ht] at h; exact ⟨t, of_exec hcheck ht, h⟩

/-- A run without its guard, which no longer says anything of its steps. -/
theorem unguarded (h : Run step guard s t) : Run step (fun _ _ => True) s t :=
  h.mono fun _ _ _ => trivial

/-- An execution without checks is a run without a guard. -/
theorem exists_of_exec_true (as : List α) (p : σ → Bool)
    (h : (exec step (fun _ _ => true) s as).any p = true) :
    ∃ t, Run step (fun _ _ => True) s t ∧ p t = true :=
  exists_of_exec (fun _ _ _ => trivial) as p h

end Run

/-- A history that ends with `x`, split: the split is at its end or inside the rest. -/
theorem concat_eq_split {l older newer : List α} {x y : α}
    (h : l ++ [x] = older ++ y :: newer) :
    (older = l ∧ y = x ∧ newer = []) ∨
      ∃ newer', newer = newer' ++ [x] ∧ l = older ++ y :: newer' := by
  rcases List.eq_nil_or_concat newer with rfl | ⟨newer', z, rfl⟩
  · obtain ⟨rfl, hy⟩ := List.append_inj' h rfl
    exact Or.inl ⟨rfl, (List.cons.inj hy).1.symm, rfl⟩
  · rw [List.concat_eq_append] at h ⊢
    rw [← List.cons_append, ← List.append_assoc] at h
    obtain ⟨rfl, hz⟩ := List.append_inj' h rfl
    obtain rfl := (List.cons.inj hz).1
    exact Or.inr ⟨newer', rfl, rfl⟩
