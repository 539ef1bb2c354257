import Mathlib.Algebra.BigOperators.Group.Finset.Piecewise

/-!
# Histograms

An array of machine counters of which one is incremented for each element of a list that is counted:
what each counter holds at the end, and what they add up to.
-/

namespace Histogram

variable {α : Type*} {w : Nat}

/-- One counter is incremented, as a machine word. -/
def bump (c : Nat → BitVec w) (i : Nat) : Nat → BitVec w := Function.update c i (c i + 1)

/-- The counters after a list of which the elements with `p` are counted, at the index `f`. -/
def counts (p : α → Bool) (f : α → Nat) (c : Nat → BitVec w) (l : List α) : Nat → BitVec w :=
  l.foldl (fun c a => if p a then bump c (f a) else c) c

variable {p : α → Bool} {f : α → Nat}

/-- The first element is counted, or not, and then the rest is. -/
theorem counts_cons (c : Nat → BitVec w) (a : α) (l : List α) :
    counts p f c (a :: l) = counts p f (if p a then bump c (f a) else c) l := rfl

/-- A counter holds the number of its elements, as a machine word. -/
theorem counts_eq (c : Nat → BitVec w) (l : List α) (i : Nat) :
    counts p f c l i = c i + BitVec.ofNat w (l.countP fun a => p a && f a == i) := by
  induction l generalizing c with
  | nil => simp [counts]
  | cons a l ih =>
    rw [counts_cons, ih, List.countP_cons, BitVec.ofNat_add]
    cases hp : p a with
    | false => simp
    | true =>
      by_cases hi : f a = i
      · subst hi
        simp [bump, BitVec.add_assoc, BitVec.add_comm]
      · have hne : i ≠ f a := fun heq => hi heq.symm
        simp [bump, hi, hne]

/-- Every element that is counted is counted at one index, so the counts add up to their number. -/
theorem sum_countP {n : Nat} {l : List α} (h : ∀ a ∈ l, p a = true → f a < n) :
    ∑ i ∈ Finset.range n, l.countP (fun a => p a && f a == i) = l.countP p := by
  induction l with
  | nil => simp
  | cons a l ih =>
    obtain ⟨ha, hl⟩ := List.forall_mem_cons.mp h
    have hone : ∑ i ∈ Finset.range n, (if (p a && f a == i) = true then 1 else 0) =
        if p a = true then 1 else 0 := by
      cases hp : p a with
      | false => simp
      | true => simp [ha hp]
    simp only [List.countP_cons, Finset.sum_add_distrib]
    rw [ih hl, hone]

end Histogram
