import Mathlib.Algebra.BigOperators.Group.List.Basic
import Mathlib.Data.Nat.ModEq

/-!
# Ones' complement sums

The checksum of the internet protocols: words up to `m` are added with the carry of every sum added
back in. A sum is the total modulo `m`, but 0 only where every word is 0 (`sumOf_sum`), so the order
of the words does not matter and a word that completes the others to `m` is found wherever it stands
(`sum_insert`).
-/

namespace OnesComplement

variable {m x y s a b w : Nat} {l l₁ l₂ : List Nat}

/-- A sum of two words, the carry added back in. Words are the numbers up to `m`, which has all bits
set. -/
def add (m a b : Nat) : Nat := (a + b) % (m + 1) + (a + b) / (m + 1)

/-- The sum of a list of words, from the first one on, as a checksum is computed. -/
def sum (m : Nat) (l : List Nat) : Nat := l.foldl (add m) 0

/-- The word that stands for a total: the total modulo `m`, and 0 for a total of 0 only, so that `m`
stands for the other multiples. -/
structure SumOf (m x s : Nat) : Prop where
  le : x ≤ m
  mod : x ≡ s [MOD m]
  zero : x = 0 ↔ s = 0

/-- A total has one word, so sums in different orders or in different pieces are equal. -/
theorem SumOf.unique (hx : SumOf m x s) (hy : SumOf m y s) : x = y := by
  have hmod : x ≡ y [MOD m] := hx.mod.trans hy.mod.symm
  have hzero : x = 0 ↔ y = 0 := hx.zero.trans hy.zero.symm
  rcases Nat.lt_or_eq_of_le hx.le with hxm | rfl
  · rcases Nat.lt_or_eq_of_le hy.le with hym | rfl
    · exact hmod.eq_of_lt_of_lt hxm hym
    · have hx0 : x = 0 := by simpa [Nat.ModEq, Nat.mod_eq_of_lt hxm] using hmod
      rw [hx0, hzero.1 hx0]
  · rcases Nat.lt_or_eq_of_le hy.le with hym | rfl
    · have hy0 : y = 0 := by simpa [Nat.ModEq, Nat.mod_eq_of_lt hym] using hmod.symm
      rw [hy0, hzero.2 hy0]
    · rfl

/-- The carry weighs 1 more than it is worth, which is nothing modulo `m`. -/
theorem add_modEq (m a b : Nat) : add m a b ≡ a + b [MOD m] := by
  have hdiv := Nat.mod_add_div (a + b) (m + 1)
  rw [Nat.succ_mul] at hdiv
  have hcarry : add m a b + m * ((a + b) / (m + 1)) = a + b := by
    rw [add]
    omega
  rw [← hcarry]
  exact (Nat.modEq_zero_iff_dvd.2 (Nat.dvd_mul_right m _)).symm.add_left (add m a b)

/-- The sum of two words is a word. -/
theorem add_le (ha : a ≤ m) (hb : b ≤ m) : add m a b ≤ m := by
  rw [add]
  rcases Nat.lt_or_ge (a + b) (m + 1) with hlt | hge
  · rw [Nat.mod_eq_of_lt hlt, Nat.div_eq_of_lt hlt]
    omega
  · have hlt : a + b - (m + 1) < m + 1 := by omega
    rw [Nat.mod_eq_sub_mod hge, Nat.mod_eq_of_lt hlt, Nat.div_eq_sub_div (Nat.succ_pos m) hge,
      Nat.div_eq_of_lt hlt]
    omega

/-- Only zeros add up to 0. -/
theorem add_eq_zero (h : add m a b = 0) : a + b = 0 := by
  rw [add, Nat.add_eq_zero_iff] at h
  have hdiv := Nat.mod_add_div (a + b) (m + 1)
  rw [h.1, h.2] at hdiv
  omega

/-- One more word is added to the total. -/
theorem SumOf.add (h : SumOf m x s) (hw : w ≤ m) : SumOf m (add m x w) (s + w) where
  le := add_le h.le hw
  mod := (add_modEq m x w).trans (h.mod.add_right w)
  zero := by
    constructor
    · intro hadd
      have hxw := add_eq_zero hadd
      have hx : x = 0 := by omega
      have hs := h.zero.1 hx
      omega
    · intro hsw
      have hs : s = 0 := by omega
      have hw0 : w = 0 := by omega
      rw [h.zero.2 hs, hw0, OnesComplement.add, Nat.zero_mod, Nat.zero_div]

/-- A list of words is added to the total, by induction. -/
theorem SumOf.foldl (h : SumOf m x s) (hl : ∀ w ∈ l, w ≤ m) :
    SumOf m (l.foldl (OnesComplement.add m) x) (s + l.sum) := by
  induction l generalizing x s with
  | nil => exact h
  | cons w l ih =>
    rw [List.forall_mem_cons] at hl
    rw [List.foldl_cons, List.sum_cons, ← Nat.add_assoc]
    exact ih (h.add hl.1) hl.2

/-- What the sum of a list stands for: the sum of its words as numbers. -/
theorem sumOf_sum (hl : ∀ w ∈ l, w ≤ m) : SumOf m (sum m l) l.sum := by
  have hzero : SumOf m 0 0 := ⟨Nat.zero_le m, Nat.ModEq.refl 0, Iff.rfl⟩
  have hsum := hzero.foldl hl
  rwa [Nat.zero_add] at hsum

/-- The sum of words is a word. -/
theorem sum_le (hl : ∀ w ∈ l, w ≤ m) : sum m l ≤ m := (sumOf_sum hl).le

/-- The complement of a sum, put anywhere among the words, makes the sum `m`: the test of a receiver
that does not know which word is the checksum. -/
theorem sum_insert (hm : 0 < m) (hl : ∀ w ∈ l₁ ++ l₂, w ≤ m) :
    sum m (l₁ ++ (m - sum m (l₁ ++ l₂)) :: l₂) = m := by
  have hsum := sumOf_sum hl
  have hall : ∀ w ∈ l₁ ++ (m - sum m (l₁ ++ l₂)) :: l₂, w ≤ m := by
    intro w hw
    rcases List.mem_append.1 hw with hw | hw
    · exact hl w (List.mem_append_left l₂ hw)
    · rcases List.mem_cons.1 hw with rfl | hw
      · exact Nat.sub_le _ _
      · exact hl w (List.mem_append_right l₁ hw)
  refine (sumOf_sum hall).unique ?_
  generalize sum m (l₁ ++ l₂) = x at hsum
  have htotal : (l₁ ++ (m - x) :: l₂).sum = (l₁ ++ l₂).sum + (m - x) := by
    rw [List.sum_append, List.sum_cons, List.sum_append]
    omega
  rw [htotal]
  refine ⟨Nat.le_refl m, ?_, ?_⟩
  · have hmod := hsum.mod.add_right (m - x)
    rwa [Nat.add_sub_cancel' hsum.le] at hmod
  · have hle := hsum.le
    have hzero := hsum.zero
    omega

end OnesComplement
