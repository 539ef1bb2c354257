import Mathlib.Data.List.Nodup

/-!
# Dictionaries in order of insertion

A dictionary whose entries know their keys, as the list of its entries. An assignment replaces the
entry with the same key where it stands and appends a new one.
-/

namespace Dict

variable {α β κ : Type*} [DecidableEq κ] (key : α → κ)

/-- The assignment of an entry: it takes the place of the entry with its key, or comes last if there
is none. -/
def assign (d : List α) (x : α) : List α :=
  if ∃ e ∈ d, key e = key x then d.map fun e => if key e = key x then x else e else d ++ [x]

/-- An assignment leaves the entries with other keys, and adds the new one. -/
theorem mem_assign {d : List α} {x y : α} : y ∈ assign key d x ↔ y = x ∨ y ∈ d ∧ key y ≠ key x := by
  unfold assign
  split
  · next hmem =>
    rw [List.mem_map]
    constructor
    · rintro ⟨e, he, rfl⟩
      split
      · exact .inl rfl
      · next hne => exact .inr ⟨he, hne⟩
    · rintro (rfl | ⟨hy, hne⟩)
      · obtain ⟨e, he, hkey⟩ := hmem
        exact ⟨e, he, if_pos hkey⟩
      · exact ⟨y, hy, if_neg hne⟩
  · next hnot =>
    rw [List.mem_append, List.mem_singleton]
    constructor
    · rintro (hy | rfl)
      · exact .inr ⟨hy, fun hkey => hnot ⟨y, hy, hkey⟩⟩
      · exact .inl rfl
    · rintro (rfl | ⟨hy, -⟩)
      · exact .inr rfl
      · exact .inl hy

/-- Every key keeps one entry, so a list of entries stays a dictionary. -/
theorem nodup_assign {d : List α} (h : (d.map key).Nodup) (x : α) :
    ((assign key d x).map key).Nodup := by
  unfold assign
  split
  · have hkeys : (d.map fun e => if key e = key x then x else e).map key = d.map key := by
      rw [List.map_map]
      refine List.map_congr_left fun e _ => ?_
      rw [Function.comp_apply]
      split
      · next hkey => exact hkey.symm
      · rfl
    rwa [hkeys]
  · next hnot =>
    rw [List.map_append, List.map_singleton]
    refine List.nodup_append.2 ⟨h, List.nodup_singleton _, ?_⟩
    intro k hk k' hk' heq
    obtain ⟨e, he, rfl⟩ := List.mem_map.1 hk
    exact hnot ⟨e, he, heq.trans (List.mem_singleton.1 hk')⟩

/-- An assignment to a dictionary of richer entries is one to the dictionary of what they show. -/
theorem map_assign (key' : β → κ) {f : α → β} (hf : ∀ x, key' (f x) = key x)
    (d : List α) (x : α) : (assign key d x).map f = assign key' (d.map f) (f x) := by
  have hiff : (∃ e ∈ d.map f, key' e = key' (f x)) ↔ ∃ e ∈ d, key e = key x := by
    simp [hf]
  unfold assign
  by_cases h : ∃ e ∈ d, key e = key x
  · rw [if_pos h, if_pos (hiff.2 h), List.map_map, List.map_map]
    refine List.map_congr_left fun e _ => ?_
    rw [Function.comp_apply, Function.comp_apply, apply_ite f, hf, hf]
  · rw [if_neg h, if_neg (mt hiff.1 h), List.map_append, List.map_singleton]

end Dict
