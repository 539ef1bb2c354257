import OrbitCache.Switch.Ingress
import OrbitCache.Lib.Ring

/-!
# The request table

The request table is spread over eight registers: the state, the length and the two pointers of each
cache index, and four data registers that all indices share. A `Line` is what they hold for one
index, its validity and its queue of pending reads, and `Registers.WF` says that the registers of an
index describe such a line. The operations a pass performs on the registers (`Registers.push`,
`pop`, `setState`) keep every index well formed and do to the lines what their names say.
-/

namespace OrbitCache

/-- What the request table remembers of a READ: all that the answer needs and the cache packet has
not. -/
structure Pending where
  clientIP : BitVec 32
  udpPort : BitVec 16
  seq : BitVec 32
  latency : BitVec 32
  deriving DecidableEq, Repr

/-- A cache index as an abstract queue. The proofs about runs are about lines; which registers make
up a line, only this module knows. -/
structure Line where
  /-- The state is VALID. -/
  isValid : Bool
  /-- The pending reads, oldest first. -/
  queue : List Pending
  deriving DecidableEq, Repr

/-! ## Slots -/

/-- The flat index of the `j`-th slot of a cache index, computed as the control computes it. -/
def slotIdx (c : BitVec 32) (j : Nat) : BitVec 32 := c <<< numBitshift + BitVec.ofNat 32 j

/-- The slots of an index are the eight cells from `c * 8` on, as long as the shift does not
overflow. -/
theorem toNat_slotIdx {c : BitVec 32} {j : Nat} (hc : c.toNat < maxCacheSize)
    (hj : j < maxQueueSizePerKey) :
    (slotIdx c j).toNat = c.toNat * maxQueueSizePerKey + j := by
  simp only [maxCacheSize, maxQueueSizePerKey] at hc hj ⊢
  rw [slotIdx, BitVec.toNat_add, BitVec.toNat_shiftLeft, BitVec.toNat_ofNat, Nat.shiftLeft_eq,
    numBitshift]
  omega

/-- Slots of installed indices do not overlap, so what is written for one key is never read for
another. -/
theorem slotIdx_inj {c c' : BitVec 32} {j j' : Nat} (hc : c.toNat < maxCacheSize)
    (hc' : c'.toNat < maxCacheSize) (hj : j < maxQueueSizePerKey) (hj' : j' < maxQueueSizePerKey)
    (h : slotIdx c j = slotIdx c' j') : c = c' ∧ j = j' := by
  have h := congrArg BitVec.toNat h
  rw [toNat_slotIdx hc hj, toNat_slotIdx hc' hj'] at h
  simp only [maxQueueSizePerKey] at hj hj' h
  exact ⟨BitVec.eq_of_toNat_eq (by omega), by omega⟩

namespace Registers

/-- The entry in the `j`-th slot of a cache index, over the four data registers, which are always
written and read together. -/
def slot (r : Registers) (c : BitVec 32) (j : Nat) : Pending :=
  ⟨r.clientIP (slotIdx c j), r.udpPort (slotIdx c j), r.seq (slotIdx c j), r.latency (slotIdx c j)⟩

/-- The queue of a cache index, oldest entry first: the slots from the front pointer on, round the
end, as many as the length register says. -/
def pending (r : Registers) (c : BitVec 32) : List Pending :=
  Ring.toList maxQueueSizePerKey (r.slot c) (r.ptrFront c).toNat (r.qlen c).toNat

/-- What the registers hold for a cache index: whether it is VALID, and its pending READs. -/
def line (r : Registers) (c : BitVec 32) : Line := ⟨r.cacheState c == valid, r.pending c⟩

/-- The queue of a line is the pending queue of the registers. -/
theorem queue_line (r : Registers) (c : BitVec 32) : (r.line c).queue = r.pending c := rfl

/-- Write the four data registers at one slot. Both the actions that append and those that remove do
this. -/
def writeSlot (r : Registers) (c : BitVec 32) (j : Nat) (e : Pending) : Registers :=
  { r with
    clientIP := Function.update r.clientIP (slotIdx c j) e.clientIP
    udpPort := Function.update r.udpPort (slotIdx c j) e.udpPort
    seq := Function.update r.seq (slotIdx c j) e.seq
    latency := Function.update r.latency (slotIdx c j) e.latency }

/-- Append an entry to the queue of a cache index: what `incr_qlen`, `incr_ptr_rear` and the four
updates do together. -/
def push (r : Registers) (c : BitVec 32) (e : Pending) : Registers :=
  { r.writeSlot c (r.ptrRear c).toNat e with
    qlen := Function.update r.qlen c (r.qlen c + 1)
    ptrRear := Function.update r.ptrRear c (RegisterAction.incrPtr (r.ptrRear c)).1 }

/-- Remove the oldest entry of a cache index and clear its slot: what `decr_qlen`, `incr_ptr_front`
and the four reads do together. -/
def pop (r : Registers) (c : BitVec 32) : Registers :=
  { r.writeSlot c (r.ptrFront c).toNat ⟨0, 0, 0, 0⟩ with
    qlen := Function.update r.qlen c (r.qlen c - 1)
    ptrFront := Function.update r.ptrFront c (RegisterAction.incrPtr (r.ptrFront c)).1 }

/-- Set the state of a cache index and leave its queue as it is: pending READs stay when a key
becomes INVALID. -/
def setState (r : Registers) (c : BitVec 32) (v : BitVec 8) : Registers :=
  { r with cacheState := Function.update r.cacheState c v }

/-- Count a READ of a cached key: at its index and in the total. -/
def countRead (r : Registers) (c : BitVec 32) : Registers :=
  { r with
    cacheCounter := Function.update r.cacheCounter c (r.cacheCounter c + 1)
    totalCache := r.totalCache + 1 }

/-- Count an overflow of a queue, in the one cell for all keys. -/
def countMiss (r : Registers) : Registers := { r with missCounter := r.missCounter + 1 }

/-- The registers of a cache index describe a bounded queue: the length and the pointers are in
range and agree, and the state is one of the two the control knows. -/
structure WF (r : Registers) (c : BitVec 32) : Prop where
  qlen_le : (r.qlen c).toNat ≤ maxQueueSizePerKey
  front_lt : (r.ptrFront c).toNat < maxQueueSizePerKey
  rear_eq : (r.ptrRear c).toNat = ((r.ptrFront c).toNat + (r.qlen c).toNat) % maxQueueSizePerKey
  state : r.cacheState c = valid ∨ r.cacheState c = invalid

variable {r : Registers} {c c' : BitVec 32} {e : Pending}

/-! ## Reading a line -/

/-- The address the control computes for the rear slot: the shifted index plus the pointer it got.
-/
theorem slotIdx_rear (r : Registers) (c : BitVec 32) :
    slotIdx c (r.ptrRear c).toNat = c <<< numBitshift + r.ptrRear c := by
  simp [slotIdx]

/-- The address the control computes for the front slot, in the same way. -/
theorem slotIdx_front (r : Registers) (c : BitVec 32) :
    slotIdx c (r.ptrFront c).toNat = c <<< numBitshift + r.ptrFront c := by
  simp [slotIdx]

/-- The length register is the length of the queue, by the definition of the queue. -/
@[simp] theorem length_pending (r : Registers) (c : BitVec 32) :
    (r.pending c).length = (r.qlen c).toNat := by
  simp [pending]

/-- The oldest entry is in the front slot, where the dequeue actions take it from. -/
theorem pending_eq_cons {q : List Pending} (hfront : (r.ptrFront c).toNat < maxQueueSizePerKey)
    (h : r.pending c = e :: q) : e = r.slot c (r.ptrFront c).toNat := by
  have hlen : (r.qlen c).toNat = q.length + 1 := by rw [← length_pending, h]; rfl
  rw [pending, hlen, Ring.toList_pop, Nat.mod_eq_of_lt hfront] at h
  exact (List.cons.inj h).1.symm

/-- A queue is empty exactly when its length register is 0, which is what the control tests. -/
theorem pending_eq_nil_iff : r.pending c = [] ↔ r.qlen c = 0 := by
  rw [← List.length_eq_zero_iff, length_pending]
  bv_omega

/-- A queue has room exactly when its length register is not at the limit: the control tests for
equality, so the length must never be above it. -/
theorem WF.room_iff (h : r.WF c) :
    (r.pending c).length < maxQueueSizePerKey ↔ r.qlen c ≠ BitVec.ofNat 16 maxQueueSizePerKey := by
  have hle := h.qlen_le
  rw [length_pending]
  simp only [maxQueueSizePerKey] at hle ⊢
  bv_omega

/-- The length register does not wrap, so the value that `incr_qlen` returns for an admitted READ is
positive. -/
theorem WF.qlen_succ_pos (h : r.WF c) : r.qlen c + 1 > 0 := by
  have hle := h.qlen_le
  simp only [maxQueueSizePerKey] at hle
  bv_omega

/-- A pointer in range is advanced modulo the size of the queue: the test for the last slot does the
work of the modulus. -/
theorem toNat_incrPtr {p : BitVec 32} (hp : p.toNat < maxQueueSizePerKey) :
    (RegisterAction.incrPtr p).1.toNat = (p.toNat + 1) % maxQueueSizePerKey := by
  rw [← Ring.wrap_succ hp]
  simp only [maxQueueSizePerKey, RegisterAction.incrPtr] at hp ⊢
  split <;> split <;> bv_omega

/-! ## Other lines -/

/-- A line depends on nothing but the cells of its own index, so it stays well formed when these are
the same. -/
theorem WF.congr (h : r.WF c) {r' : Registers} (hq : r'.qlen c = r.qlen c)
    (hf : r'.ptrFront c = r.ptrFront c) (hr : r'.ptrRear c = r.ptrRear c)
    (hs : r'.cacheState c = r.cacheState c) : r'.WF c :=
  ⟨hq ▸ h.qlen_le, hf ▸ h.front_lt, by rw [hr, hf, hq, h.rear_eq], hs ▸ h.state⟩

/-- A write of one slot, seen from another one, whether of the same index or not. -/
theorem slot_writeSlot_of_ne {j j' : Nat} (h : slotIdx c' j' ≠ slotIdx c j) :
    (r.writeSlot c j e).slot c' j' = r.slot c' j' := by
  simp only [slot, writeSlot, Function.update_of_ne h]

/-- A write of one slot leaves the queue of every other index as it was: the slots of installed
indices are disjoint. -/
theorem toList_writeSlot_of_ne (hc : c.toNat < maxCacheSize) (hc' : c'.toNat < maxCacheSize)
    (hne : c' ≠ c) {j : Nat} (hj : j < maxQueueSizePerKey) (front len : Nat) :
    Ring.toList maxQueueSizePerKey ((r.writeSlot c j e).slot c') front len =
      Ring.toList maxQueueSizePerKey (r.slot c') front len :=
  Ring.toList_congr fun _ _ => slot_writeSlot_of_ne fun h =>
    hne (slotIdx_inj hc' hc (Nat.mod_lt _ (by decide)) hj h).1

/-- A write of one slot updates the slots of its index, and no other slot of it. -/
theorem toList_writeSlot (hc : c.toNat < maxCacheSize) {j : Nat} (hj : j < maxQueueSizePerKey)
    (front len : Nat) :
    Ring.toList maxQueueSizePerKey ((r.writeSlot c j e).slot c) front len =
      Ring.toList maxQueueSizePerKey (Function.update (r.slot c) j e) front len := by
  refine Ring.toList_congr fun i _ => ?_
  have hi : (front + i) % maxQueueSizePerKey < maxQueueSizePerKey := Nat.mod_lt _ (by decide)
  by_cases h : (front + i) % maxQueueSizePerKey = j
  · rw [h, Function.update_self]
    simp only [slot, writeSlot, Function.update_self]
  · rw [Function.update_of_ne h]
    exact slot_writeSlot_of_ne fun h' => h (slotIdx_inj hc hc hi hj h').2

/-! ## Appending -/

/-- Appending keeps a line with room well formed: the rear pointer stays the front pointer plus the
length. -/
theorem WF.push (h : r.WF c) (hroom : (r.pending c).length < maxQueueSizePerKey) :
    (r.push c e).WF c := by
  have hrear : (r.ptrRear c).toNat < maxQueueSizePerKey := by
    rw [h.rear_eq]; exact Nat.mod_lt _ (by decide)
  rw [length_pending] at hroom
  have hlen : (r.qlen c + 1).toNat = (r.qlen c).toNat + 1 := by
    simp only [maxQueueSizePerKey] at hroom
    bv_omega
  refine ⟨?_, h.front_lt, ?_, h.state⟩
  · simp only [Registers.push, Function.update_self, hlen]
    exact hroom
  · simp only [Registers.push, Function.update_self, hlen, toNat_incrPtr hrear, h.rear_eq]
    rw [Nat.mod_add_mod]
    rfl

/-- Appending at one index keeps the lines of the others well formed. -/
theorem WF.push_of_ne (h : r.WF c') (hne : c' ≠ c) : (r.push c e).WF c' :=
  h.congr (Function.update_of_ne hne _ _) rfl (Function.update_of_ne hne _ _) rfl

/-- A queue with room grows by one entry at its end, and what was in it stays in its order. -/
theorem pending_push (h : r.WF c) (hc : c.toNat < maxCacheSize)
    (hroom : (r.pending c).length < maxQueueSizePerKey) :
    (r.push c e).pending c = r.pending c ++ [e] := by
  have hrear : (r.ptrRear c).toNat < maxQueueSizePerKey := by
    rw [h.rear_eq]; exact Nat.mod_lt _ (by decide)
  rw [length_pending] at hroom
  have hlen : (r.qlen c + 1).toNat = (r.qlen c).toNat + 1 := by
    simp only [maxQueueSizePerKey] at hroom
    bv_omega
  calc (r.push c e).pending c
      = Ring.toList maxQueueSizePerKey ((r.writeSlot c (r.ptrRear c).toNat e).slot c)
          (r.ptrFront c).toNat ((r.qlen c).toNat + 1) := by
        rw [← hlen, pending]
        simp only [Registers.push, Function.update_self]
        rfl
    _ = r.pending c ++ [e] := by
        rw [toList_writeSlot hc hrear, h.rear_eq, Ring.toList_push e hroom]
        rfl

/-- Appending at one index does not touch the queue of another one. -/
theorem pending_push_of_ne (h : r.WF c) (hc : c.toNat < maxCacheSize)
    (hc' : c'.toNat < maxCacheSize) (hne : c' ≠ c) :
    (r.push c e).pending c' = r.pending c' := by
  have hrear : (r.ptrRear c).toNat < maxQueueSizePerKey := by
    rw [h.rear_eq]; exact Nat.mod_lt _ (by decide)
  rw [pending, show (r.push c e).qlen c' = r.qlen c' from Function.update_of_ne hne _ _]
  exact toList_writeSlot_of_ne hc hc' hne hrear _ _

/-! ## Removing -/

/-- Removing keeps a line that is not empty well formed: front pointer and length move together. -/
theorem WF.pop (h : r.WF c) (hne : r.pending c ≠ []) : (r.pop c).WF c := by
  have hpos : (r.qlen c).toNat ≠ 0 := by
    rw [← length_pending]; exact fun h0 => hne (List.length_eq_zero_iff.1 h0)
  have hlen : (r.qlen c - 1).toNat = (r.qlen c).toNat - 1 := by bv_omega
  have hle := h.qlen_le
  refine ⟨?_, ?_, ?_, h.state⟩
  · simp only [Registers.pop, Function.update_self, hlen]
    exact Nat.le_trans (Nat.sub_le _ _) hle
  · simp only [Registers.pop, Function.update_self, toNat_incrPtr h.front_lt]
    exact Nat.mod_lt _ (by decide)
  · simp only [Registers.pop, Function.update_self, hlen, toNat_incrPtr h.front_lt]
    rw [Nat.mod_add_mod, Nat.add_assoc, Nat.add_sub_cancel' (Nat.one_le_iff_ne_zero.2 hpos)]
    exact h.rear_eq

/-- Removing at one index keeps the lines of the others well formed. -/
theorem WF.pop_of_ne (h : r.WF c') (hne : c' ≠ c) : (r.pop c).WF c' :=
  h.congr (Function.update_of_ne hne _ _) (Function.update_of_ne hne _ _) rfl rfl

/-- A queue that is not empty loses its oldest entry; the slot that is cleared is not in the queue
any more. -/
theorem pending_pop (h : r.WF c) (hc : c.toNat < maxCacheSize) {q : List Pending}
    (hq : r.pending c = e :: q) : (r.pop c).pending c = q := by
  have hlen : (r.qlen c).toNat = q.length + 1 := by rw [← length_pending, hq]; rfl
  have hlen' : (r.qlen c - 1).toNat = q.length := by bv_omega
  have hle := h.qlen_le
  rw [pending, hlen, Ring.toList_pop, Nat.mod_eq_of_lt h.front_lt] at hq
  calc (r.pop c).pending c
      = Ring.toList maxQueueSizePerKey
          ((r.writeSlot c (r.ptrFront c).toNat ⟨0, 0, 0, 0⟩).slot c)
          (((r.ptrFront c).toNat + 1) % maxQueueSizePerKey) q.length := by
        rw [← hlen', ← toNat_incrPtr h.front_lt, pending]
        simp only [Registers.pop, Function.update_self]
        rfl
    _ = Ring.toList maxQueueSizePerKey (r.slot c)
          (((r.ptrFront c).toNat + 1) % maxQueueSizePerKey) q.length := by
        rw [toList_writeSlot hc h.front_lt, Ring.toList_clear_front _ (by omega) h.front_lt]
    _ = q := (List.cons.inj hq).2

/-- Removing at one index does not touch the queue of another one. -/
theorem pending_pop_of_ne (h : r.WF c) (hc : c.toNat < maxCacheSize)
    (hc' : c'.toNat < maxCacheSize) (hne : c' ≠ c) : (r.pop c).pending c' = r.pending c' := by
  rw [pending, show (r.pop c).qlen c' = r.qlen c' from Function.update_of_ne hne _ _,
    show (r.pop c).ptrFront c' = r.ptrFront c' from Function.update_of_ne hne _ _]
  exact toList_writeSlot_of_ne hc hc' hne h.front_lt _ _

/-! ## Setting the state -/

/-- Setting a state keeps every line well formed, as there are only these two states. -/
theorem WF.setState (h : r.WF c') {v : BitVec 8} (hv : v = valid ∨ v = invalid) :
    (r.setState c v).WF c' := by
  refine ⟨h.qlen_le, h.front_lt, h.rear_eq, ?_⟩
  by_cases hc : c' = c
  · subst hc; simpa [Registers.setState] using hv
  · simpa [Registers.setState, hc] using h.state

end Registers

end OrbitCache
