import Mathlib.Data.List.Sort

/-!
# Selecting the largest

`Selects k f kept seen`: of what was seen, `kept` are `k` elements, or all if there are fewer, and
nothing left out is larger under `f` than what is kept. A stream is selected from one element at a
time: a new element is added while there is room, and then it is left out or takes the place of a
least one. All selections from the same elements have the same values (`Selects.map_perm`).
-/

variable {α β : Type*} [LinearOrder β]

/-- The kept elements are the `k` largest of the seen ones. -/
structure Selects (k : Nat) (f : α → β) (kept seen : List α) : Prop where
  length_eq : kept.length = min k seen.length
  best : ∃ rest, seen.Perm (kept ++ rest) ∧ ∀ x ∈ kept, ∀ y ∈ rest, f y ≤ f x

namespace Selects

variable {k : Nat} {f : α → β} {kept kept' seen seen' : List α} {x least : α}

/-- The order does not matter, neither of what is kept nor of what was seen. -/
theorem perm (h : Selects k f kept seen) (hk : kept'.Perm kept) (hs : seen'.Perm seen) :
    Selects k f kept' seen' := by
  obtain ⟨rest, hperm, hbest⟩ := h.best
  refine ⟨by rw [hk.length_eq, hs.length_eq, h.length_eq], rest, ?_, fun y hy => ?_⟩
  · exact (hs.trans hperm).trans (hk.symm.append_right rest)
  · exact hbest y (hk.mem_iff.1 hy)

/-- As long as everything fits, everything is kept. -/
theorem all (h : seen.length ≤ k) : Selects k f seen seen := by
  refine ⟨(Nat.min_eq_right h).symm, [], ?_, fun _ _ _ hy => ?_⟩
  · rw [List.append_nil]
  · cases hy

/-- There is room for one more, so nothing has been left out yet. -/
theorem push (h : Selects k f kept seen) (hroom : kept.length < k) (hk : kept'.Perm (x :: kept)) :
    Selects k f kept' (x :: seen) := by
  obtain ⟨rest, hperm, hbest⟩ := h.best
  have hlen := hperm.length_eq
  have heq := h.length_eq
  rw [List.length_append] at hlen
  obtain rfl : rest = [] := List.length_eq_zero_iff.1 (by omega)
  rw [List.append_nil] at hperm
  refine ⟨?_, [], ?_, fun _ _ _ hy => ?_⟩
  · rw [hk.length_eq, List.length_cons, List.length_cons]
    omega
  · rw [List.append_nil]
    exact (hperm.cons x).trans hk.symm
  · cases hy

/-- An element that is not larger than a least one is left out. -/
theorem skip (h : Selects k f kept seen) (hfull : k ≤ kept.length)
    (hleast : ∀ y ∈ kept, f least ≤ f y) (hx : f x ≤ f least) : Selects k f kept (x :: seen) := by
  obtain ⟨rest, hperm, hbest⟩ := h.best
  have heq := h.length_eq
  refine ⟨?_, x :: rest, ?_, fun y hy z hz => ?_⟩
  · rw [List.length_cons]
    omega
  · exact (hperm.cons x).trans List.perm_middle.symm
  · rcases List.mem_cons.1 hz with rfl | hz
    · exact hx.trans (hleast y hy)
    · exact hbest y hy z hz

/-- Another one takes its place: a new element that is not smaller than a least one. -/
theorem replace {rest' : List α} (h : Selects k f kept seen) (hfull : k ≤ kept.length)
    (hkept : kept.Perm (least :: rest')) (hleast : ∀ y ∈ rest', f least ≤ f y)
    (hx : f least ≤ f x) (hk : kept'.Perm (x :: rest')) : Selects k f kept' (x :: seen) := by
  obtain ⟨rest, hperm, hbest⟩ := h.best
  have heq := h.length_eq
  refine ⟨?_, least :: rest, ?_, fun y hy z hz => ?_⟩
  · have hlen := hkept.length_eq
    rw [List.length_cons] at hlen
    rw [hk.length_eq, List.length_cons, List.length_cons]
    omega
  · calc x :: seen
      _ |>.Perm (x :: (kept ++ rest)) := hperm.cons x
      _ |>.Perm (x :: (least :: rest' ++ rest)) := (hkept.append_right rest).cons x
      _ |>.Perm (x :: (rest' ++ least :: rest)) := List.perm_middle.symm.cons x
      _ |>.Perm (kept' ++ least :: rest) := (hk.symm.append_right _)
  · have hmem : least ∈ kept := hkept.mem_iff.2 List.mem_cons_self
    have hlower : ∀ z ∈ least :: rest, f z ≤ f least := by
      intro z hz
      rcases List.mem_cons.1 hz with rfl | hz
      · exact le_refl _
      · exact hbest least hmem z hz
    refine (hlower z hz).trans ?_
    rcases List.mem_cons.1 (hk.mem_iff.1 hy) with rfl | hy
    · exact hx
    · exact hleast y hy

/-- When not everything fits, an element below all others is left out: something else is left out,
and what is left out is not above what is kept. -/
theorem notMem_of_least (h : Selects k f kept seen) (hfull : k < seen.length) (hnodup : seen.Nodup)
    (hleast : ∀ y ∈ seen, y ≠ x → f x < f y) : x ∉ kept := by
  obtain ⟨rest, hperm, hbest⟩ := h.best
  intro hx
  have hrest : rest ≠ [] := by
    rintro rfl
    have hlen := hperm.length_eq
    rw [List.append_nil, h.length_eq] at hlen
    omega
  obtain ⟨y, hy⟩ := List.exists_mem_of_ne_nil rest hrest
  obtain ⟨-, -, hdisjoint⟩ := List.nodup_append.1 (hperm.nodup_iff.1 hnodup)
  have hne : y ≠ x := fun heq => hdisjoint x hx y hy heq.symm
  exact not_lt_of_ge (hbest x hx y hy) (hleast y (hperm.mem_iff.2 (List.mem_append_right _ hy)) hne)

/-- What is kept comes first when everything is sorted, as far as the values go. -/
theorem map_perm_take (h : Selects k f kept seen) :
    (kept.map f).Perm (((seen.map f).insertionSort (· ≥ ·)).take k) := by
  obtain ⟨rest, hperm, hbest⟩ := h.best
  have hsplit : (seen.map f).insertionSort (· ≥ ·) =
      (kept.map f).insertionSort (· ≥ ·) ++ (rest.map f).insertionSort (· ≥ ·) := by
    refine List.Perm.eq_of_pairwise' (r := (· ≥ ·)) (List.pairwise_insertionSort _ _) ?_ ?_
    · refine List.pairwise_append.2
        ⟨List.pairwise_insertionSort _ _, List.pairwise_insertionSort _ _, ?_⟩
      intro a ha b hb
      rw [List.mem_insertionSort, List.mem_map] at ha hb
      obtain ⟨x, hx, rfl⟩ := ha
      obtain ⟨y, hy, rfl⟩ := hb
      exact hbest x hx y hy
    · calc (seen.map f).insertionSort (· ≥ ·)
        _ |>.Perm (seen.map f) := List.perm_insertionSort _ _
        _ |>.Perm (kept.map f ++ rest.map f) := by
          rw [← List.map_append]
          exact hperm.map f
        _ |>.Perm _ := ((List.perm_insertionSort _ _).append (List.perm_insertionSort _ _)).symm
  have hlen := hperm.length_eq
  have heq := h.length_eq
  rw [List.length_append] at hlen
  rw [hsplit]
  rcases Nat.le_total seen.length k with hle | hge
  · -- nothing was left out
    obtain rfl : rest = [] := List.length_eq_zero_iff.1 (by omega)
    rw [List.map_nil, List.insertionSort_nil, List.append_nil, List.take_of_length_le]
    · exact (List.perm_insertionSort _ _).symm
    · rw [List.length_insertionSort, List.length_map]
      omega
  · rw [List.take_left' (by rw [List.length_insertionSort, List.length_map]; omega)]
    exact (List.perm_insertionSort _ _).symm

/-- Two selections from the same elements have the same values, although they may keep different
elements. -/
theorem map_perm (h : Selects k f kept seen) (h' : Selects k f kept' seen') (hs : seen'.Perm seen) :
    (kept'.map f).Perm (kept.map f) :=
  ((h'.perm (.refl _) hs.symm).map_perm_take).trans h.map_perm_take.symm

end Selects
