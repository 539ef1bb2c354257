import Mathlib.Data.List.Basic

/-!
# Histories of a queue

A first-in first-out queue, seen through the history of what entered it and of what took an element
out of it. `Fifo.Matched` says that the queue holds what entered and was not taken yet, and that
each taker is related to what it took.
-/

namespace Fifo

variable {α β γ : Type*}

/-- The events of a kind after one more event, which is one of them or is not. -/
theorem filter_concat (l : List α) {x : α} {f : α → Bool} {b : Bool} (hb : f x = b) :
    (l ++ [x]).filter f = if b then l.filter f ++ [x] else l.filter f := by
  rw [List.filter_append]
  cases b with
  | true => simp [hb]
  | false => simp [hb]

/-- What entered and was not taken yet: all but as many as were taken, from the front on. -/
def waiting (entered : List α) (taken : List β) : List α := entered.drop taken.length

/-- The queue holds what waits, and the `n`-th taker took what entered `n`-th. The relation says
what is known of a taker and of what it took. -/
structure Matched (f : α → γ) (R : α → β → Prop) (entered : List α) (taken : List β)
    (queue : List γ) : Prop where
  length_le : taken.length ≤ entered.length
  queue_eq : queue = (waiting entered taken).map f
  related : ∀ (n : Nat) (b : β), taken[n]? = some b → ∃ a, entered[n]? = some a ∧ R a b

namespace Matched

variable {f : α → γ} {R : α → β → Prop} {entered : List α} {taken : List β} {queue : List γ}
variable {a : α} {b : β} {x : γ}

/-- Before anything enters, nothing was taken. -/
theorem nil : Matched f R [] [] [] := ⟨Nat.le_refl _, rfl, nofun⟩

/-- What entered waits at the rear. -/
theorem waiting_concat (h : Matched f R entered taken queue) (a : α) :
    waiting (entered ++ [a]) taken = waiting entered taken ++ [a] :=
  List.drop_append_of_le_length h.length_le

/-- An element enters at the rear, and nothing else changes: who took what does not depend on those
behind. -/
theorem enter (h : Matched f R entered taken queue) (a : α) :
    Matched f R (entered ++ [a]) taken (queue ++ [f a]) where
  length_le := by
    rw [List.length_append]
    exact Nat.le_add_right_of_le h.length_le
  queue_eq := by rw [h.waiting_concat, List.map_append, ← h.queue_eq, List.map_singleton]
  related n b hb := by
    obtain ⟨a', ha', hR⟩ := h.related n b hb
    refine ⟨a', ?_, hR⟩
    rw [List.getElem?_append_left (List.getElem?_eq_some_iff.1 ha').1]
    exact ha'

/-- The front of the queue is the first that waits, and what waits behind it is the rest of the
queue. -/
theorem front (h : Matched f R entered taken (x :: queue)) :
    ∃ a rest, waiting entered taken = a :: rest ∧ f a = x ∧ rest.map f = queue ∧
      entered[taken.length]? = some a := by
  cases hw : waiting entered taken with
  | nil =>
    have := h.queue_eq
    rw [hw] at this
    cases this
  | cons a rest =>
    have heq := h.queue_eq
    rw [hw, List.map_cons, List.cons.injEq] at heq
    refine ⟨a, rest, rfl, heq.1.symm, heq.2.symm, ?_⟩
    have hget : (entered.drop taken.length)[0]? = some a := by
      rw [show entered.drop taken.length = a :: rest from hw]
      rfl
    rwa [List.getElem?_drop, Nat.add_zero] at hget

/-- What waits after the front was taken is the rest of what waited. -/
theorem waiting_take (b : β) :
    waiting entered (taken ++ [b]) = (waiting entered taken).tail := by
  rw [waiting, waiting, List.length_append, List.length_singleton, ← List.drop_drop, List.drop_one]

/-- The front is taken, by a taker that is related to what entered first of all that waits. -/
theorem take (h : Matched f R entered taken (x :: queue))
    (hR : ∀ a ∈ waiting entered taken, f a = x → R a b) :
    Matched f R entered (taken ++ [b]) queue := by
  obtain ⟨a, rest, hw, hfront, hrest, hget⟩ := h.front
  refine ⟨?_, ?_, fun n b' hb' => ?_⟩
  · rw [List.length_append, List.length_singleton]
    exact (List.getElem?_eq_some_iff.1 hget).1
  · rw [waiting_take, hw, List.tail_cons, hrest]
  · by_cases hn : n < taken.length
    · rw [List.getElem?_append_left hn] at hb'
      exact h.related n b' hb'
    · have hlt : n < (taken ++ [b]).length := (List.getElem?_eq_some_iff.1 hb').1
      rw [List.length_append, List.length_singleton] at hlt
      obtain rfl : n = taken.length := by omega
      rw [List.getElem?_concat_length, Option.some.injEq] at hb'
      subst hb'
      exact ⟨a, hget, hR a (hw ▸ List.mem_cons_self) hfront⟩

/-- Nothing waits when the queue is empty. -/
theorem waiting_eq_nil (h : Matched f R entered taken []) : waiting entered taken = [] :=
  List.map_eq_nil_iff.1 h.queue_eq.symm

end Matched

end Fifo
