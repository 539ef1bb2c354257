import Mathlib.Logic.Equiv.Basic
import Mathlib.Order.Lattice

/-!
# Sifting in an array

The first `n` places of an array as a binary tree: the children of `i` are `2 * i + 1` and
`2 * i + 2`. `Sift.down` sinks the entry of one place below its smaller children. It rearranges the
subtree of the place (`Sift.exists_perm_below`) and makes a heap of it when there is one below each
child (`Sift.heapBelow_down`). It restores the order of the whole heap when nothing is wrong above
the place (`Sift.heap_down`); an entry that is too small for its parent stays where it is.
-/

namespace Sift

variable {α β : Type*} [LinearOrder β] (key : α → β)

/-- The place above a place, in an array that holds a binary tree level by level. -/
def parent (i : Nat) : Nat := (i - 1) / 2

/-- No entry is smaller than the one above it. -/
def Heap (a : Nat → α) (n : Nat) : Prop :=
  ∀ c, 0 < c → c < n → key (a (parent c)) ≤ key (a c)

/-- The place of the smallest of an entry and its children, the first of equals. -/
def smallest (a : Nat → α) (n i : Nat) : Nat :=
  let s := if 2 * i + 1 < n ∧ key (a (2 * i + 1)) < key (a i) then 2 * i + 1 else i
  if 2 * i + 2 < n ∧ key (a (2 * i + 2)) < key (a s) then 2 * i + 2 else s

/-- The array with two places exchanged, as a permutation of its places. -/
def swap (a : Nat → α) (i j : Nat) : Nat → α := a ∘ Equiv.swap i j

variable {key} {a : Nat → α} {n i : Nat} {x : α}

/-- The place above comes earlier in the array. -/
theorem parent_lt {c : Nat} (h : 0 < c) : parent c < c := by unfold parent; omega

/-- The places below `i` are its children. -/
theorem child_eq {c : Nat} (hpos : 0 < c) (hparent : parent c = i) :
    c = 2 * i + 1 ∨ c = 2 * i + 2 := by
  unfold parent at hparent
  omega

/-- The first place gets the entry of the second. -/
@[simp] theorem swap_left (a : Nat → α) (i j : Nat) : swap a i j i = a j :=
  congrArg a (Equiv.swap_apply_left i j)

/-- The second place gets the entry of the first. -/
@[simp] theorem swap_right (a : Nat → α) (i j : Nat) : swap a i j j = a i :=
  congrArg a (Equiv.swap_apply_right i j)

/-- All other places keep theirs. -/
theorem swap_of_ne {j k : Nat} (hi : k ≠ i) (hj : k ≠ j) : swap a i j k = a k :=
  congrArg a (Equiv.swap_apply_of_ne_of_ne hi hj)

/-- If it is not the entry itself, the smallest is a child that is smaller than the entry. -/
theorem smallest_child (h : smallest key a n i ≠ i) :
    smallest key a n i < n ∧ 0 < smallest key a n i ∧ parent (smallest key a n i) = i ∧
      key (a (smallest key a n i)) < key (a i) := by
  have hleft : parent (2 * i + 1) = i := by unfold parent; omega
  have hright : parent (2 * i + 2) = i := by unfold parent; omega
  by_cases hl : 2 * i + 1 < n ∧ key (a (2 * i + 1)) < key (a i)
  · by_cases hr : 2 * i + 2 < n ∧ key (a (2 * i + 2)) < key (a (2 * i + 1))
    · simp only [smallest, if_pos hl, if_pos hr]
      exact ⟨hr.1, Nat.succ_pos _, hright, hr.2.trans hl.2⟩
    · simp only [smallest, if_pos hl, if_neg hr]
      exact ⟨hl.1, Nat.succ_pos _, hleft, hl.2⟩
  · by_cases hr : 2 * i + 2 < n ∧ key (a (2 * i + 2)) < key (a i)
    · simp only [smallest, if_neg hl, if_pos hr]
      exact ⟨hr.1, Nat.succ_pos _, hright, hr.2⟩
    · simp only [smallest, if_neg hl, if_neg hr] at h
      exact absurd rfl h

/-- No child is smaller than the smallest, nor is the entry itself. -/
theorem smallest_le {c : Nat} (hpos : 0 < c) (hc : c < n) (hparent : parent c = i) :
    key (a (smallest key a n i)) ≤ key (a c) := by
  have hchild := child_eq hpos hparent
  by_cases hl : 2 * i + 1 < n ∧ key (a (2 * i + 1)) < key (a i)
  · by_cases hr : 2 * i + 2 < n ∧ key (a (2 * i + 2)) < key (a (2 * i + 1))
    · simp only [smallest, if_pos hl, if_pos hr]
      rcases hchild with rfl | rfl
      · exact hr.2.le
      · exact le_rfl
    · simp only [smallest, if_pos hl, if_neg hr]
      rcases hchild with rfl | rfl
      · exact le_rfl
      · exact not_lt.1 fun hlt => hr ⟨hc, hlt⟩
  · by_cases hr : 2 * i + 2 < n ∧ key (a (2 * i + 2)) < key (a i)
    · simp only [smallest, if_neg hl, if_pos hr]
      rcases hchild with rfl | rfl
      · exact hr.2.le.trans (not_lt.1 fun hlt => hl ⟨hc, hlt⟩)
      · exact le_rfl
    · simp only [smallest, if_neg hl, if_neg hr]
      rcases hchild with rfl | rfl
      · exact not_lt.1 fun hlt => hl ⟨hc, hlt⟩
      · exact not_lt.1 fun hlt => hr ⟨hc, hlt⟩

/-- So it comes later in the array. -/
theorem lt_smallest (h : smallest key a n i ≠ i) : i < smallest key a n i := by
  obtain ⟨-, hpos, hparent, -⟩ := smallest_child h
  have hlt := parent_lt hpos
  rwa [hparent] at hlt

variable (key) in
/-- The entry of the place `i` sinks until no child is smaller. It always sinks to a later place
among the first `n`. -/
def down (a : Nat → α) (n i : Nat) : Nat → α :=
  if _h : smallest key a n i = i then a
  else down (swap a i (smallest key a n i)) n (smallest key a n i)
termination_by n - i
decreasing_by
  have hlt := lt_smallest _h
  have hn := (smallest_child _h).1
  omega

/-- The order a place needs for its entry to sink: all is in order but for the place and its
children, and the place above is in order with these. -/
structure SinkOrder (key : α → β) (a : Nat → α) (n i : Nat) : Prop where
  except : ∀ c, 0 < c → c < n → parent c ≠ i → key (a (parent c)) ≤ key (a c)
  grand : ∀ c, 0 < i → 0 < c → c < n → parent c = i → key (a (parent i)) ≤ key (a c)

/-- The entry moves to the place of the smallest child, and may sink on from there. -/
theorem SinkOrder.move (h : SinkOrder key a n i) (hs : smallest key a n i ≠ i) :
    SinkOrder key (swap a i (smallest key a n i)) n (smallest key a n i) := by
  obtain ⟨hsn, hspos, hsparent, hskey⟩ := smallest_child hs
  have hi := lt_smallest hs
  have hmin (c : Nat) (hpos : 0 < c) (hc : c < n) (hparent : parent c = i) :
      key (a (smallest key a n i)) ≤ key (a c) := smallest_le hpos hc hparent
  generalize smallest key a n i = s at *
  constructor
  · intro c hpos hc hparent
    by_cases hcs : c = s
    · subst hcs
      rw [hsparent, swap_left, swap_right]
      exact hskey.le
    · by_cases hci : c = i
      · subst hci
        rw [swap_left, swap_of_ne (parent_lt hpos).ne hparent]
        exact h.grand s hpos hspos hsn hsparent
      · rw [swap_of_ne hci hcs]
        by_cases hpi : parent c = i
        · rw [hpi, swap_left]
          exact hmin c hpos hc hpi
        · rw [swap_of_ne hpi hparent]
          exact h.except c hpos hc hpi
  · intro c _ hpos hc hparent
    have hsc : s < c := hparent ▸ parent_lt hpos
    rw [hsparent, swap_left, swap_of_ne (by omega) (by omega), ← hparent]
    exact h.except c hpos hc (by omega)

/-- The heap order is restored when the entry has sunk, by induction along its way. -/
theorem heap_down (h : SinkOrder key a n i) : Heap key (down key a n i) n := by
  induction a, i using down.induct key n with
  | case1 a i hs =>
    rw [down, dif_pos hs]
    intro c hpos hc
    by_cases hparent : parent c = i
    · have hle : key (a (smallest key a n i)) ≤ key (a c) := smallest_le hpos hc hparent
      rwa [hs, ← hparent] at hle
    · exact h.except c hpos hc hparent
  | case2 a i hs ih =>
    rw [down, dif_neg hs]
    exact ih (h.move hs)

/-- In a heap every entry may sink. -/
theorem Heap.sinkOrder (h : Heap key a n) (i : Nat) : SinkOrder key a n i where
  except c hpos hc _ := h c hpos hc
  grand c hi hpos hc hparent := by
    have hlt : i < c := hparent ▸ parent_lt hpos
    exact (h i hi (Nat.lt_trans hlt hc)).trans (hparent ▸ h c hpos hc)

/-- The first entry of a heap is a least one, by induction on the places. -/
theorem Heap.root_le (h : Heap key a n) (hi : i < n) : key (a 0) ≤ key (a i) := by
  induction i using Nat.strongRecOn with
  | ind i ih =>
    rcases Nat.eq_zero_or_pos i with rfl | hpos
    · exact le_rfl
    · have hlt := parent_lt hpos
      exact (ih _ hlt (Nat.lt_trans hlt hi)).trans (h i hpos hi)

/-- An entry of a heap that was made larger may sink. -/
theorem Heap.sinkOrder_update (h : Heap key a n) (hi : i < n) (hx : key (a i) ≤ key x) :
    SinkOrder key (Function.update a i x) n i where
  except c hpos hc hparent := by
    rw [Function.update_of_ne hparent]
    by_cases hci : c = i
    · subst hci
      rw [Function.update_self]
      exact (h c hpos hc).trans hx
    · rw [Function.update_of_ne hci]
      exact h c hpos hc
  grand c hpos hc0 hc hparent := by
    have hlt : i < c := hparent ▸ parent_lt hc0
    rw [Function.update_of_ne (parent_lt hpos).ne, Function.update_of_ne (Nat.ne_of_gt hlt)]
    exact (h.sinkOrder i).grand c hpos hc0 hc hparent

/-- A heap is extended by an entry that is not smaller than the one above its place. -/
theorem Heap.push (h : Heap key a n) (hx : 0 < n → key (a (parent n)) ≤ key x) :
    Heap key (Function.update a n x) (n + 1) := by
  intro c hpos hc
  have hup := parent_lt hpos
  rw [Function.update_of_ne (by omega : parent c ≠ n)]
  by_cases hcn : c = n
  · subst hcn
    rw [Function.update_self]
    exact hx hpos
  · rw [Function.update_of_ne hcn]
    exact h c hpos (by omega)

/-! ## Subtrees -/

/-- The places of the subtree rooted at `i`. -/
inductive Below (i : Nat) : Nat → Prop where
  | root : Below i i
  | child {c : Nat} : 0 < c → Below i (parent c) → Below i c

/-- The subtree rooted at `i`, as far as it lies within the first `n` places, is in heap order. -/
def HeapBelow (key : α → β) (a : Nat → α) (n i : Nat) : Prop :=
  ∀ c, 0 < c → c < n → Below i (parent c) → key (a (parent c)) ≤ key (a c)

namespace Below

variable {j k : Nat}

/-- The places of a subtree are not before its root. -/
theorem le (h : Below i k) : i ≤ k := by
  induction h with
  | root => exact le_rfl
  | child hpos _ ih => exact ih.trans (parent_lt hpos).le

/-- A subtree of a subtree is a subtree. -/
theorem trans (h : Below i j) (h' : Below j k) : Below i k := by
  induction h' with
  | root => exact h
  | child hpos _ ih => exact ih.child hpos

/-- A place of a subtree that is not its root has its parent there. -/
theorem parent (h : Below i k) (hne : k ≠ i) : Below i (parent k) := by
  cases h with
  | root => exact absurd rfl hne
  | child _ h => exact h

/-- A place below `i` is `i` itself or below a child of `i`. -/
theorem cases_child (h : Below i k) : k = i ∨ ∃ c, 0 < c ∧ Sift.parent c = i ∧ Below c k := by
  induction h with
  | root => exact .inl rfl
  | @child k hpos _ ih =>
    rcases ih with heq | ⟨c, hc, hparent, hbelow⟩
    · exact .inr ⟨k, hpos, heq, .root⟩
    · exact .inr ⟨c, hc, hparent, hbelow.child hpos⟩

/-- Subtrees that share a place are nested: the roots are both above that place. -/
theorem nested (h : Below i k) (h' : Below j k) : Below i j ∨ Below j i := by
  induction h with
  | root => exact .inr h'
  | @child k hpos hk ih =>
    rcases eq_or_ne k j with rfl | hne
    · exact .inl (hk.child hpos)
    · exact ih (h'.parent hne)

/-- The subtrees of two children of a place are apart. -/
theorem eq_of_sibling {c d : Nat} (hc : 0 < c) (hd : 0 < d)
    (hparent : Sift.parent c = Sift.parent d) (h : Below c k) (h' : Below d k) : c = d := by
  by_contra hne
  rcases h.nested h' with hbelow | hbelow
  · have hle := (hbelow.parent (Ne.symm hne)).le
    have hlt := parent_lt hc
    omega
  · have hle := (hbelow.parent hne).le
    have hlt := parent_lt hd
    omega

end Below

/-- The root of a subtree in heap order is a least one of its entries. -/
theorem HeapBelow.root_le (h : HeapBelow key a n i) {k : Nat} (hk : Below i k) (hn : k < n) :
    key (a i) ≤ key (a k) := by
  induction hk with
  | root => exact le_rfl
  | child hpos hk ih => exact (ih ((parent_lt hpos).trans hn)).trans (h _ hpos hn hk)

/-- The order of a subtree is a matter of its entries only. -/
theorem HeapBelow.congr (h : HeapBelow key a n i) {b : Nat → α} (hb : ∀ k, Below i k → b k = a k) :
    HeapBelow key b n i := by
  intro c hpos hn hc
  rw [hb _ hc, hb c (hc.child hpos)]
  exact h c hpos hn hc

/-- A place without children is a heap. -/
theorem heapBelow_leaf (h : n ≤ 2 * i + 1) : HeapBelow key a n i := by
  intro c hpos hn hc
  have hle := hc.le
  unfold parent at hle
  omega

/-- A subtree in heap order has its subtrees in heap order. -/
theorem HeapBelow.below (h : HeapBelow key a n i) {j : Nat} (hj : Below i j) :
    HeapBelow key a n j := fun c hpos hn hc => h c hpos hn (hj.trans hc)

/-- A permutation that keeps what does not satisfy a predicate keeps the predicate. -/
theorem perm_iff {σ : Equiv.Perm Nat} {p : Nat → Prop} (h : ∀ k, ¬ p k → σ k = k) (k : Nat) :
    p (σ k) ↔ p k := by
  constructor
  · intro hp
    by_contra hnot
    exact hnot (h k hnot ▸ hp)
  · intro hp
    by_contra hnot
    exact hnot ((σ.injective (h _ hnot)).symm ▸ hp)

variable (key) in
/-- Sinking rearranges the subtree of the place within the first `n` places. -/
theorem exists_perm_below (a : Nat → α) (n i : Nat) :
    ∃ σ : Equiv.Perm Nat, down key a n i = a ∘ σ ∧ ∀ k, ¬ (Below i k ∧ k < n) → σ k = k := by
  induction a, i using down.induct key n with
  | case1 a i h => exact ⟨.refl _, by rw [down, dif_pos h]; rfl, fun _ _ => rfl⟩
  | case2 a i h ih =>
    obtain ⟨σ, hσ, hfix⟩ := ih
    obtain ⟨hs, hpos, hparent, -⟩ := smallest_child h
    have hlt := lt_smallest h
    have hbelow : Below i (smallest key a n i) := .child hpos (by rw [hparent]; exact .root)
    refine ⟨σ.trans (Equiv.swap i (smallest key a n i)), ?_, fun k hk => ?_⟩
    · rw [down, dif_neg h, hσ]
      rfl
    · have hki : k ≠ i := by
        rintro rfl
        exact hk ⟨.root, hlt.trans hs⟩
      have hks : k ≠ smallest key a n i := by
        rintro rfl
        exact hk ⟨hbelow, hs⟩
      rw [Equiv.trans_apply, hfix k fun h' => hk ⟨hbelow.trans h'.1, h'.2⟩]
      exact Equiv.swap_apply_of_ne_of_ne hki hks

variable (key) in
/-- Sinking rearranges the first `n` places. -/
theorem exists_perm (a : Nat → α) (n i : Nat) :
    ∃ σ : Equiv.Perm Nat, down key a n i = a ∘ σ ∧ ∀ k, σ k < n ↔ k < n := by
  obtain ⟨σ, hσ, hfix⟩ := exists_perm_below key a n i
  exact ⟨σ, hσ, perm_iff fun k hk => hfix k fun h' => hk h'.2⟩

/-- What is not below the place, or not within the first `n` places, stays. -/
theorem down_of_not_below {k : Nat} (h : ¬ (Below i k ∧ k < n)) : down key a n i k = a k := by
  obtain ⟨σ, hσ, hfix⟩ := exists_perm_below key a n i
  rw [hσ, Function.comp_apply, hfix k h]

/-- What holds of all entries of a subtree holds of them after its root has sunk. -/
theorem forall_down {P : α → Prop} (h : ∀ k, Below i k → k < n → P (a k)) {k : Nat}
    (hk : Below i k) (hn : k < n) : P (down key a n i k) := by
  obtain ⟨σ, hσ, hfix⟩ := exists_perm_below key a n i
  obtain ⟨hbelow, hlt⟩ := (perm_iff hfix k).2 ⟨hk, hn⟩
  rw [hσ]
  exact h _ hbelow hlt

section
variable {s d k : Nat}

/-- Exchanging a place with one above it leaves the subtrees below it as they are. -/
theorem HeapBelow.swap (h : HeapBelow key a n s) (hi : i < s) (hd : 0 < d)
    (hparent : Sift.parent d = s) : HeapBelow key (swap a i s) n d := by
  have hsd : s < d := hparent ▸ parent_lt hd
  refine (h.below (.child hd (hparent ▸ .root))).congr fun k hk => ?_
  have hsk := hsd.trans_le hk.le
  exact swap_of_ne (hi.trans hsk).ne' hsk.ne'

/-- The root of a heap that moved up is not larger than what is below its old place then. -/
theorem HeapBelow.le_down_swap (h : HeapBelow key a n s) (hi : i < s)
    (hkey : key (a s) ≤ key (a i)) (hk : Below s k) (hn : k < n) :
    key (a s) ≤ key (down key (Sift.swap a i s) n s k) := by
  refine forall_down (P := fun x => key (a s) ≤ key x) (fun k hk hn => ?_) hk hn
  rcases eq_or_ne k s with rfl | hne
  · rw [swap_right]
    exact hkey
  · rw [swap_of_ne (hi.trans_le hk.le).ne' hne]
    exact h.root_le hk hn

/-- When an entry sinks into the subtree of one child, those of the others stay as they are. -/
theorem down_swap_of_sibling (hs : 0 < s) (hsparent : parent s = i) (hd : 0 < d)
    (hparent : parent d = i) (hne : d ≠ s) (hk : Below d k) :
    down key (swap a i s) n s k = a k := by
  have hks : ¬ Below s k := fun h' =>
    hne (Below.eq_of_sibling hd hs (hparent.trans hsparent.symm) hk h')
  have hid : i < d := hparent ▸ parent_lt hd
  rw [down_of_not_below fun h' => hks h'.1]
  exact swap_of_ne (hid.trans_le hk.le).ne' fun heq => hks (heq ▸ .root)

end

/-- The entry sinks into the subtree of one child, whose root moves up; below each of the children
there is a heap again, so there is one below the place. -/
theorem heapBelow_down (h : ∀ c, 0 < c → parent c = i → HeapBelow key a n c) :
    HeapBelow key (down key a n i) n i := by
  induction a, i using down.induct key n with
  | case1 a i hs =>
    rw [down, dif_pos hs]
    intro c hpos hn hc
    rcases hc.cases_child with heq | ⟨d, hd, hparent, hbelow⟩
    · have hle : key (a (smallest key a n i)) ≤ key (a c) := smallest_le hpos hn heq
      rwa [hs, ← heq] at hle
    · exact h d hd hparent c hpos hn hbelow
  | case2 a i hs ih =>
    obtain ⟨-, hspos, hsparent, hskey⟩ := smallest_child hs
    have hi := lt_smallest hs
    have hmin (c : Nat) (hpos : 0 < c) (hc : c < n) (hparent : parent c = i) :
        key (a (smallest key a n i)) ≤ key (a c) := smallest_le hpos hc hparent
    rw [down, dif_neg hs]
    generalize smallest key a n i = s at *
    have hsub := h s hspos hsparent
    have hdown : HeapBelow key (down key (swap a i s) n s) n s :=
      ih fun d hd hparent => hsub.swap hi hd hparent
    intro c hpos hn hc
    rcases hc.cases_child with heq | ⟨d, hd, hparent, hbelow⟩
    · -- The place itself has the entry of `s` now.
      rw [heq, down_of_not_below fun h' => hi.not_ge h'.1.le, swap_left]
      rcases eq_or_ne c s with rfl | hne
      · exact hsub.le_down_swap hi hskey.le .root hn
      · rw [down_swap_of_sibling hspos hsparent hpos heq hne .root]
        exact hmin c hpos hn heq
    · rcases eq_or_ne d s with rfl | hne
      · exact hdown c hpos hn hbelow
      · have hsame (k : Nat) (hk : Below d k) : down key (swap a i s) n s k = a k :=
          down_swap_of_sibling hspos hsparent hd hparent hne hk
        exact (h d hd hparent).congr hsame c hpos hn hbelow

end Sift
