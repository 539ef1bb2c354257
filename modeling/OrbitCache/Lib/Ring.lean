import Mathlib.Logic.Function.Basic
import Mathlib.Data.List.Basic
import Mathlib.Data.Nat.ModEq

/-!
# Ring buffers as lists

A ring buffer keeps its elements in the slots `0 .. cap - 1` of an array, from a front pointer on,
wrapping at `cap`. `Ring.toList` is the queue it stands for; the lemmas say what a write at the rear
(`toList_push`), a read at the front (`toList_pop`) and a write at any slot outside the occupied arc
(`toList_update`) do to that queue, and `wrap_succ` that a pointer that is reset at `cap - 1` counts
modulo `cap`.
-/

namespace Ring

variable {α : Type*} {cap front len : Nat} {slot : Nat → α}

/-- The queue a ring buffer holds: `len` slots from `front` on, modulo `cap`. The slots are a
function, so the buffer may be a part of a larger array. -/
def toList (cap : Nat) (slot : Nat → α) (front len : Nat) : List α :=
  (List.range len).map fun j => slot ((front + j) % cap)

/-- The queue has as many elements as slots are occupied. -/
@[simp] theorem length_toList : (toList cap slot front len).length = len := by
  simp [toList]

/-- With no slot occupied the queue is empty. -/
@[simp] theorem toList_zero : toList cap slot front 0 = [] := rfl

/-- The `j`-th element of the queue is in the `j`-th slot after the front. -/
theorem getElem?_toList {j : Nat} (hj : j < len) :
    (toList cap slot front len)[j]? = some (slot ((front + j) % cap)) := by
  simp [toList, hj]

/-- Two buffers that agree on the occupied slots hold the same queue. -/
theorem toList_congr {slot' : Nat → α}
    (h : ∀ j, j < len → slot' ((front + j) % cap) = slot ((front + j) % cap)) :
    toList cap slot' front len = toList cap slot front len :=
  List.map_congr_left fun j hj => h j (List.mem_range.1 hj)

/-- Offsets below the capacity fall into different slots, which is why a write at one place leaves
the others alone. -/
theorem offset_inj {i j : Nat} (hi : i < cap) (hj : j < cap)
    (h : (front + i) % cap = (front + j) % cap) : i = j := by
  have h' : i ≡ j [MOD cap] := Nat.ModEq.add_left_cancel' front h
  rwa [Nat.ModEq, Nat.mod_eq_of_lt hi, Nat.mod_eq_of_lt hj] at h'

variable (front slot) in
/-- A write outside the occupied arc does not change the queue. -/
theorem toList_update {off : Nat} (a : α) (hoff : off < cap) (hlen : len ≤ off) :
    toList cap (Function.update slot ((front + off) % cap) a) front len =
      toList cap slot front len := by
  refine toList_congr fun j hj => Function.update_of_ne (fun h => ?_) _ _
  have := offset_inj (by omega) hoff h
  omega

/-- A write at the rear of a buffer with room appends to the queue. The rear is the first slot
outside the occupied arc. -/
theorem toList_push (a : α) (hlen : len < cap) :
    toList cap (Function.update slot ((front + len) % cap) a) front (len + 1) =
      toList cap slot front len ++ [a] := by
  have hold := toList_update front slot a hlen (Nat.le_refl len)
  simp only [toList, List.range_succ, List.map_append, List.map_cons, List.map_nil] at hold ⊢
  rw [hold, Function.update_self]

/-- The queue of a non-empty buffer is the front slot and the queue from the next slot on. -/
theorem toList_pop :
    toList cap slot front (len + 1) =
      slot (front % cap) :: toList cap slot ((front + 1) % cap) len := by
  simp only [toList, List.range_succ_eq_map, List.map_cons, List.map_map, Nat.add_zero,
    List.cons.injEq, true_and]
  refine List.map_congr_left fun j _ => ?_
  simp only [Function.comp_apply, Nat.mod_add_mod]
  congr 2
  omega

/-- Clearing the front slot does not change the queue behind it. -/
theorem toList_clear_front (a : α) (hlen : len < cap) (hfront : front < cap) :
    toList cap (Function.update slot front a) ((front + 1) % cap) len =
      toList cap slot ((front + 1) % cap) len := by
  have hoff : ((front + 1) % cap + (cap - 1)) % cap = front := by
    rw [Nat.mod_add_mod, show front + 1 + (cap - 1) = front + cap by omega, Nat.add_mod_right,
      Nat.mod_eq_of_lt hfront]
  have hlt : cap - 1 < cap := by omega
  have hle : len ≤ cap - 1 := by omega
  have h := toList_update ((front + 1) % cap) slot a hlt hle
  rwa [hoff] at h

/-- A pointer that is reset at the last slot counts modulo the capacity, as hardware does that has
no division. -/
theorem wrap_succ {p : Nat} (hp : p < cap) :
    (if p = cap - 1 then 0 else p + 1) = (p + 1) % cap := by
  split
  · next h => rw [h, Nat.sub_add_cancel (by omega), Nat.mod_self]
  · next h => rw [Nat.mod_eq_of_lt (by omega)]

end Ring
