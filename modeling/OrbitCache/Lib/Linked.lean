import Mathlib.Data.List.Nodup
import Mathlib.Logic.Function.Basic

/-!
# Linked lists in memory

A memory of doubly linked nodes, one function for each link. `Links.Chain` says that nodes are
linked to each other in the order of a list, `Links.Linked` that they form a list whose first node
points back to the last one. A chain is a matter of its own nodes (`Chain.congr`), and it is put
together from its parts (`chain_append`).
-/

variable {A : Type*}

/-- The two links of every node, as a memory: a node is an address, and the links of all nodes are
there, linked or not. Changes are assignments, so a list is changed in place. -/
structure Links (A : Type*) where
  next : A → Option A
  prev : A → Option A

namespace Links

section
variable [DecidableEq A]

/-- An assignment to the `next` link of a node. -/
def setNext (m : Links A) (x : A) (v : Option A) : Links A :=
  { m with next := Function.update m.next x v }

/-- An assignment to the `prev` link of a node. -/
def setPrev (m : Links A) (x : A) (v : Option A) : Links A :=
  { m with prev := Function.update m.prev x v }

variable (m : Links A) {x y : A} (v : Option A)

/-- It leaves all `prev` links. -/
@[simp] theorem prev_setNext : (m.setNext x v).prev = m.prev := rfl

/-- It leaves all `next` links. -/
@[simp] theorem next_setPrev : (m.setPrev x v).next = m.next := rfl

/-- The link reads as it was set. -/
@[simp] theorem next_setNext_self : (m.setNext x v).next x = v := Function.update_self ..

/-- The same for the other link. -/
@[simp] theorem prev_setPrev_self : (m.setPrev x v).prev x = v := Function.update_self ..

/-- The links of other nodes are not changed. -/
theorem next_setNext_of_ne (h : y ≠ x) : (m.setNext x v).next y = m.next y :=
  Function.update_of_ne h ..

/-- The same for the other links. -/
theorem prev_setPrev_of_ne (h : y ≠ x) : (m.setPrev x v).prev y = m.prev y :=
  Function.update_of_ne h ..

end

/-- The links of a node are the same in two memories: the frame condition of the operations. -/
def SameAt (m m' : Links A) (x : A) : Prop := m'.next x = m.next x ∧ m'.prev x = m.prev x

/-- A memory agrees with itself. -/
theorem SameAt.refl (m : Links A) (x : A) : SameAt m m x := ⟨rfl, rfl⟩

/-- Agreement at a node goes through a third memory. -/
theorem SameAt.trans {m m' m'' : Links A} {x : A} (h : SameAt m m' x) (h' : SameAt m' m'' x) :
    SameAt m m'' x :=
  ⟨h'.1.trans h.1, h'.2.trans h.2⟩

/-- The nodes are linked in this order, the first of them back to `p` and the last one on to `s`. A
list is a chain, and so is any part of one. -/
def Chain (m : Links A) : Option A → List A → Option A → Prop
  | _, [], _ => True
  | p, x :: l, s => m.prev x = p ∧ m.next x = l.head?.or s ∧ Chain m (some x) l s

/-- A list: its nodes are linked in order, and the first one back to the last, so the tail is
reached from the head in one step. -/
structure Linked (m : Links A) (head : Option A) (l : List A) : Prop where
  head : head = l.head?
  nodup : l.Nodup
  chain : Chain m l.getLast? l none

variable {m m' : Links A} {p s head : Option A} {l l' : List A} {x : A}

/-- No nodes are linked in any memory. -/
@[simp] theorem chain_nil : Chain m p [] s := trivial

/-- The links of the first node, and the chain behind it. -/
theorem chain_cons : Chain m p (x :: l) s ↔
    m.prev x = p ∧ m.next x = l.head?.or s ∧ Chain m (some x) l s := Iff.rfl

/-- A chain is split anywhere into two that lead to each other. It is what an operation in the
middle of a list starts with. -/
theorem chain_append : Chain m p (l ++ l') s ↔
    Chain m p l (l'.head?.or s) ∧ Chain m (l.getLast?.or p) l' s := by
  induction l generalizing p with
  | nil => simp
  | cons x l ih =>
    have hlast : l.getLast?.or (some x) = (x :: l).getLast?.or p := by
      rw [List.getLast?_cons]
      cases l.getLast? <;> rfl
    rw [List.cons_append, chain_cons, chain_cons, ih, hlast, List.head?_append, Option.or_assoc,
      and_assoc, and_assoc]

/-- The chain in front of the last node, and its links. -/
theorem chain_concat : Chain m p (l ++ [x]) s ↔
    Chain m p l (some x) ∧ m.prev x = l.getLast?.or p ∧ m.next x = s := by
  rw [chain_append, chain_cons]
  simp

/-- The first node is linked back to where the chain comes from. -/
theorem Chain.prev_head (h : Chain m p l s) (hx : l.head? = some x) : m.prev x = p := by
  cases l with
  | nil => cases hx
  | cons y l =>
    obtain rfl := Option.some.inj hx
    exact h.1

/-- A chain is a matter of its own nodes, so changes elsewhere keep it. -/
theorem Chain.congr (h : Chain m p l s) (hsame : ∀ x ∈ l, SameAt m m' x) : Chain m' p l s := by
  induction l generalizing p with
  | nil => trivial
  | cons x l ih =>
    obtain ⟨hnext, hprev⟩ := hsame x List.mem_cons_self
    obtain ⟨hp, hn, hl⟩ := h
    exact ⟨hprev.trans hp, hnext.trans hn, ih hl fun y hy => hsame y (List.mem_cons_of_mem x hy)⟩

/-- A list with a head has a last node. -/
theorem Linked.exists_last (h : Linked m (some x) l) : ∃ t, l.getLast? = some t := by
  have hl : l ≠ [] := by
    rintro rfl
    cases h.head
  exact ⟨l.getLast hl, List.getLast?_eq_some_getLast hl⟩

/-- A list is a matter of its own nodes as well. -/
theorem Linked.congr (h : Linked m head l) (hsame : ∀ x ∈ l, SameAt m m' x) : Linked m' head l :=
  ⟨h.head, h.nodup, h.chain.congr hsame⟩

/-- The empty list has no head. -/
@[simp] theorem linked_nil : Linked m head [] ↔ head = none := by
  constructor
  · exact fun h => h.head
  · rintro rfl
    exact ⟨rfl, List.nodup_nil, trivial⟩

section
variable [DecidableEq A]

/-- An assignment changes nothing at other nodes. -/
theorem sameAt_setNext {y : A} (h : y ≠ x) (v : Option A) : SameAt m (m.setNext x v) y :=
  ⟨next_setNext_of_ne m v h, rfl⟩

/-- Nor does one to the other link. -/
theorem sameAt_setPrev {y : A} (h : y ≠ x) (v : Option A) : SameAt m (m.setPrev x v) y :=
  ⟨rfl, prev_setPrev_of_ne m v h⟩

/-- An assignment to a node outside of a chain keeps the chain. -/
theorem Chain.setNext_of_notMem (h : Chain m p l s) (hx : x ∉ l) (v : Option A) :
    Chain (m.setNext x v) p l s :=
  h.congr fun _ hy => sameAt_setNext (ne_of_mem_of_not_mem hy hx) v

/-- So does one to its other link. -/
theorem Chain.setPrev_of_notMem (h : Chain m p l s) (hx : x ∉ l) (v : Option A) :
    Chain (m.setPrev x v) p l s :=
  h.congr fun _ hy => sameAt_setPrev (ne_of_mem_of_not_mem hy hx) v

/-- Another node in front of a chain: the first node is linked back to it. -/
theorem Chain.setPrev_head (h : Chain m p l s) (hl : l.Nodup) (hx : l.head? = some x)
    (q : Option A) : Chain (m.setPrev x q) q l s := by
  obtain ⟨r, rfl⟩ : ∃ r, l = x :: r := by
    cases l with
    | nil => cases hx
    | cons y r => exact ⟨r, by rw [Option.some.inj hx]⟩
  have hr : x ∉ r := (List.nodup_cons.mp hl).1
  exact ⟨prev_setPrev_self m q, h.2.1, h.2.2.setPrev_of_notMem hr q⟩

/-- Another node behind a chain: the last node is linked on to it. -/
theorem Chain.setNext_last (h : Chain m p l s) (hl : l.Nodup) (hx : l.getLast? = some x)
    (t : Option A) : Chain (m.setNext x t) p l t := by
  obtain ⟨r, rfl⟩ := List.getLast?_eq_some_iff.mp hx
  have hr : x ∉ r := fun hmem => (List.nodup_append.mp hl).2.2 x hmem x (by simp) rfl
  rw [chain_concat] at h ⊢
  exact ⟨h.1.setNext_of_notMem hr t, h.2.1, next_setNext_self m t⟩

end

/-! ## Following the links -/

/-- The nodes that the `next` links lead to from `j`, up to the null pointer: what a loop over the
nodes sees, which does not look at the `prev` links. -/
inductive Follows (m : Links A) : Option A → List A → Prop
  | nil : Follows m none []
  | cons {x : A} {l : List A} : Follows m (m.next x) l → Follows m (some x) (x :: l)

/-- A chain that ends with a null pointer is what its links lead to. -/
theorem Chain.follows (h : Chain m p l none) : Follows m l.head? l := by
  induction l generalizing p with
  | nil => exact .nil
  | cons x l ih =>
    have hl := ih h.2.2
    refine .cons ?_
    rw [h.2.1, Option.or_none]
    exact hl

/-- From the head of a list, the links lead to its nodes. -/
theorem Linked.follows (h : Linked m head l) : Follows m head l := by
  rw [h.head]
  exact h.chain.follows

/-- What the links lead to does not depend on other nodes, so a loop may change what it has left
behind. -/
theorem Follows.congr {j : Option A} (h : Follows m j l) (hsame : ∀ x ∈ l, SameAt m m' x) :
    Follows m' j l := by
  induction h with
  | nil => exact .nil
  | @cons x l _ ih =>
    refine .cons ?_
    rw [(hsame x List.mem_cons_self).1]
    exact ih fun y hy => hsame y (List.mem_cons_of_mem x hy)

end Links
