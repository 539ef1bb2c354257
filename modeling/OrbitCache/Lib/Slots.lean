import Mathlib.Data.List.Basic
import Mathlib.Data.List.Induction
import Mathlib.Logic.Function.Basic

/-!
# Direct-mapped tables

A table keeps, in the slot of a tag, the entry that was put there last. An entry is lost as soon as
another tag of its slot is put (`Slots.exists_later`) and kept until then (`Slots.puts_of_last`).
-/

namespace Slots

variable {τ κ α : Type*} [DecidableEq κ] (slot : τ → κ)

/-- One entry is put into its slot, in place of what was there. -/
def put (t : κ → τ × α) (e : τ × α) : κ → τ × α := Function.update t (slot e.1) e

/-- The entries of a history, in order. -/
def puts (t : κ → τ × α) (l : List (τ × α)) : κ → τ × α := l.foldl (put slot) t

variable {slot} {t : κ → τ × α} {l : List (τ × α)} {e : τ × α}

/-- The last entry is put into the table that the others have left. -/
theorem puts_concat : puts slot t (l ++ [e]) = put slot (puts slot t l) e := List.foldl_concat ..

/-- A slot holds the last entry that was put there, if no later one has the same slot. -/
theorem puts_of_last {i : Nat} (hi : l[i]? = some e)
    (hlast : ∀ j e', i < j → l[j]? = some e' → slot e'.1 ≠ slot e.1) :
    puts slot t l (slot e.1) = e := by
  induction l using List.reverseRecOn with
  | nil => cases hi
  | append_singleton l x ih =>
    rw [puts_concat, put]
    have hlen : (l ++ [x])[l.length]? = some x := List.getElem?_concat_length
    rcases Nat.lt_trichotomy i l.length with hlt | rfl | hgt
    · rw [Function.update_of_ne (hlast _ _ hlt hlen).symm]
      rw [List.getElem?_append_left hlt] at hi
      refine ih hi fun j e' hj he' => hlast j e' hj ?_
      rwa [List.getElem?_append_left (List.getElem?_eq_some_iff.1 he').1]
    · rw [hlen, Option.some.injEq] at hi
      subst hi
      rw [Function.update_self]
    · rw [List.getElem?_eq_none (by simp; omega)] at hi
      cases hi

/-- Once an entry was put into a slot, the slot holds it or a later one. -/
theorem exists_later {j : Nat} (hj : l[j]? = some e) :
    ∃ i, j ≤ i ∧ l[i]? = some (puts slot t l (slot e.1)) := by
  induction l using List.reverseRecOn with
  | nil => cases hj
  | append_singleton l x ih =>
    have hlen : (l ++ [x])[l.length]? = some x := List.getElem?_concat_length
    have hle : j ≤ l.length := by
      have hlt := (List.getElem?_eq_some_iff.1 hj).1
      rw [List.length_append, List.length_singleton] at hlt
      omega
    rw [puts_concat, put]
    by_cases hslot : slot e.1 = slot x.1
    · rw [hslot, Function.update_self]
      exact ⟨l.length, hle, hlen⟩
    · rw [Function.update_of_ne hslot]
      rcases Nat.lt_or_eq_of_le hle with hlt | rfl
      · rw [List.getElem?_append_left hlt] at hj
        obtain ⟨i, hi, hget⟩ := ih hj
        refine ⟨i, hi, ?_⟩
        rwa [List.getElem?_append_left (List.getElem?_eq_some_iff.1 hget).1]
      · rw [hlen, Option.some.injEq] at hj
        exact absurd (hj ▸ rfl) hslot

end Slots
