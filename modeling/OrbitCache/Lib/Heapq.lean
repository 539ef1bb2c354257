import Mathlib.Data.List.Sort

/-!
# Heap queues

What a program may rely on when it keeps a list in heap order through `heappush` and `heappop`, as a
structure whose fields are the operations and their laws. The layout of the list is up to the
implementation; `Heapq.ofSorted` is the one that keeps the list sorted.
-/

/-- Heap operations over lists, for an order `le`, with what they promise. Any implementation of a
priority queue is an instance, whatever order it keeps inside. -/
structure Heapq (α : Type*) (le : α → α → Prop) where
  /-- The list is in heap order. -/
  IsHeap : List α → Prop
  heappush : List α → α → List α
  heappop : List α → Option (α × List α)
  isHeap_nil : IsHeap []
  isHeap_heappush : ∀ {h x}, IsHeap h → IsHeap (heappush h x)
  heappush_perm : ∀ h x, (heappush h x).Perm (x :: h)
  /-- The first element is a least one. -/
  head_le : ∀ {x h}, IsHeap (x :: h) → ∀ y ∈ h, le x y
  /-- Popping removes the first element and leaves a heap of the others. -/
  heappop_cons : ∀ {x h}, IsHeap (x :: h) →
    ∃ h', heappop (x :: h) = some (x, h') ∧ h'.Perm h ∧ IsHeap h'

namespace Heapq

variable {α : Type*} {le : α → α → Prop} (q : Heapq α le)

/-- Pushing the elements of a list one by one gives a heap of these elements and those that were
there. -/
theorem foldl_heappush {l h : List α} (hh : q.IsHeap h) :
    (l.foldl q.heappush h).Perm (l ++ h) ∧ q.IsHeap (l.foldl q.heappush h) := by
  induction l generalizing h with
  | nil => exact ⟨.refl _, hh⟩
  | cons x l ih =>
    obtain ⟨hperm, hheap⟩ := ih (q.isHeap_heappush (x := x) hh)
    refine ⟨hperm.trans ?_, hheap⟩
    exact ((q.heappush_perm h x).append_left l).trans List.perm_middle

/-- Sorted lists are heaps: one implementation, with which examples can be computed. -/
def ofSorted (le : α → α → Prop) [DecidableRel le] [Std.Total le] [IsTrans α le] :
    Heapq α le where
  IsHeap h := h.Pairwise le
  heappush h x := h.orderedInsert le x
  heappop
    | [] => none
    | x :: h => some (x, h)
  isHeap_nil := .nil
  isHeap_heappush h := h.orderedInsert _ _
  heappush_perm h x := h.perm_orderedInsert le x
  head_le h := (List.pairwise_cons.1 h).1
  heappop_cons h := ⟨_, rfl, .refl _, (List.pairwise_cons.1 h).2⟩

end Heapq
