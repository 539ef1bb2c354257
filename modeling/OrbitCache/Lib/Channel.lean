import Mathlib.Data.List.Perm.Basic

/-!
# Channels

A channel that loses nothing and delivers in any order is a list from which a message is taken by
its position. What was in the channel is the message that was taken and what is left.
-/

namespace Channel

variable {α : Type*} {l : List α} {i : Nat} {a x : α}

/-- The message that is taken and those that stay are the messages that were there. -/
theorem perm (h : l[i]? = some a) : (a :: l.eraseIdx i).Perm l := by
  obtain ⟨hi, rfl⟩ := List.getElem?_eq_some_iff.1 h
  exact List.getElem_cons_eraseIdx_perm hi

/-- A message that was in the channel is the one that is taken or stays. -/
theorem mem_or (h : l[i]? = some a) (hx : x ∈ l) : x = a ∨ x ∈ l.eraseIdx i :=
  List.mem_cons.1 ((perm h).mem_iff.2 hx)

/-- Another message than the one that is taken stays. -/
theorem mem_of_ne (h : l[i]? = some a) (hx : x ∈ l) (hne : x ≠ a) : x ∈ l.eraseIdx i :=
  (mem_or h hx).resolve_left hne

/-- The messages of a kind in the channel: those that stay, and the one that is taken if it is of
the kind. -/
theorem countP_eq (h : l[i]? = some a) (p : α → Bool) :
    l.countP p = (l.eraseIdx i).countP p + if p a then 1 else 0 := by
  rw [← (perm h).countP_eq p, List.countP_cons]

end Channel
