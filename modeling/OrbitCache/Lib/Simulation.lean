import Mathlib.Data.List.Basic

/-!
# Forward simulation

Operations that change a state and give a result, or have no result where they are not allowed.
`outputs_simulates`: where one system can do what another does step by step, it can do what the
other does in a whole run, with the same results.
-/

variable {S T O R : Type*}

/-- The results of operations one after another, and the last state. There is none if one of the
operations fails. -/
def outputs (step : O → S → Option (S × R)) : List O → S → Option (S × List R)
  | [], s => some (s, [])
  | o :: os, s => do
    let (s, r) ← step o s
    let (s, rs) ← outputs step os s
    return (s, r :: rs)

/-- The first operation, and the run of the others from the state that it leaves. -/
theorem outputs_cons {step : O → S → Option (S × R)} {o : O} {os : List O} {s s' : S}
    {rs : List R} (h : outputs step (o :: os) s = some (s', rs)) :
    ∃ u r rs', step o s = some (u, r) ∧ outputs step os u = some (s', rs') ∧ rs = r :: rs' := by
  obtain ⟨⟨u, r⟩, hstep, h⟩ := Option.bind_eq_some_iff.mp h
  obtain ⟨⟨s'', rs'⟩, hrest, h⟩ := Option.bind_eq_some_iff.mp h
  cases h
  exact ⟨u, r, rs', hstep, hrest, rfl⟩

/-- A simulation of every step is a simulation of a run: the results are the same and the last
states are related. -/
theorem outputs_simulates {step : O → S → Option (S × R)} {spec : O → T → Option (T × R)}
    {Rel : S → T → Prop}
    (hsim : ∀ o s t t' r, Rel s t → spec o t = some (t', r) →
      ∃ s', step o s = some (s', r) ∧ Rel s' t')
    {os : List O} {s : S} {t t' : T} {rs : List R} (hrel : Rel s t)
    (h : outputs spec os t = some (t', rs)) :
    ∃ s', outputs step os s = some (s', rs) ∧ Rel s' t' := by
  induction os generalizing s t rs with
  | nil =>
    cases h
    exact ⟨s, rfl, hrel⟩
  | cons o os ih =>
    obtain ⟨u, r, rs', hspec, hrest, rfl⟩ := outputs_cons h
    obtain ⟨v, hstep, hrel'⟩ := hsim o s t u r hrel hspec
    obtain ⟨s', hruns, hend⟩ := ih hrel' hrest
    refine ⟨s', ?_, hend⟩
    rw [outputs, hstep]
    simp [hruns]

/-- The last state of a run of operations that are all allowed. -/
theorem outputs_fst {step : O → S → Option (S × R)} {next : S → O → S}
    (hstep : ∀ o s, (step o s).map Prod.fst = some (next s o)) (os : List O) (s : S) :
    (outputs step os s).map Prod.fst = some (os.foldl next s) := by
  induction os generalizing s with
  | nil => rfl
  | cons o os ih =>
    obtain ⟨⟨u, r⟩, hu, hnext⟩ := Option.map_eq_some_iff.1 (hstep o s)
    rw [outputs, hu, List.foldl_cons, ← hnext, ← ih u]
    simp only [Option.bind_eq_bind, Option.bind_some, Option.pure_def]
    cases outputs step os u <;> rfl

/-- Operations that are first decoded, and whose results are encoded: a run decodes all of them,
does what they stand for, and encodes the results. -/
theorem outputs_decode {P E : Type*} {step : O → S → Option (S × R)}
    {spec : P → S → Option (S × E)} {decode : O → Option P} {encode : E → R}
    (hstep : ∀ o s, step o s = (decode o).bind fun p =>
      (spec p s).map fun u => (u.1, encode u.2)) (os : List O) (s : S) :
    outputs step os s = (os.mapM decode).bind fun ps =>
      (outputs spec ps s).map fun u => (u.1, u.2.map encode) := by
  induction os generalizing s with
  | nil => rfl
  | cons o os ih =>
    rw [outputs, hstep, List.mapM_cons]
    cases decode o with
    | none => rfl
    | some p =>
      simp only [Option.bind_eq_bind, Option.bind_some, Option.pure_def]
      cases hspec : spec p s with
      | none => cases os.mapM decode <;> simp [outputs, hspec]
      | some u =>
        simp only [Option.map_some, Option.bind_some, ih]
        cases os.mapM decode with
        | none => rfl
        | some ps =>
          simp only [Option.bind_some, outputs, hspec, Option.bind_eq_bind, Option.pure_def]
          cases outputs spec ps u.1 <;> rfl
