import OrbitCache.Lib.Linked

/-!
# `tommylist.h`

The lists of the buckets. The address of a node is an `A`, the null pointer `none`; a function that
reads through a null pointer has no result. A function that writes the list `*list` takes the
pointer that is there and gives back the one that it leaves there. Every operation is specified by
the list of nodes that it makes of one, and by the nodes that it leaves as they are.
-/

namespace OrbitCache.Tommy

open Links

variable {A : Type*} [DecidableEq A]

/-- `tommy_list_insert_first`, into an empty list: the node is its own tail. -/
def listInsertFirst (m : Links A) (node : A) : Links A × Option A :=
  ((m.setPrev node (some node)).setNext node none, some node)

/-- `tommy_list_insert_tail_not_empty`. The `prev` of the head is the tail of the list. -/
def listInsertTailNotEmpty (m : Links A) (head node : A) : Option (Links A) :=
  let m := m.setPrev node (m.prev head)
  let m := m.setPrev head (some node)
  let m := m.setNext node none
  do
    let tail ← m.prev node
    return m.setNext tail (some node)

/-- `tommy_list_insert_tail`, without the assignment of the data. -/
def listInsertTail (m : Links A) (list : Option A) (node : A) : Option (Links A × Option A) :=
  match list with
  | some head => do
    let m ← listInsertTailNotEmpty m head node
    return (m, some head)
  | none => return listInsertFirst m node

/-- `tommy_list_remove_existing`. There is no value where it would follow a null pointer. -/
def listRemoveExisting (m : Links A) (list : Option A) (node : A) :
    Option (Links A × Option A) := do
  let m ← match m.next node with
    | some next => pure (m.setPrev next (m.prev node))
    | none => do
      let head ← list
      pure (m.setPrev head (m.prev node))
  if list = some node then
    return (m, m.next node)
  else
    let prev ← m.prev node
    return (m.setNext prev (m.next node), list)

/-- `tommy_list_concat`, which leaves `*second` as it is, so that the list it points to is no longer
one. -/
def listConcat (m : Links A) (first second : Option A) : Option (Links A × Option A) :=
  match second with
  | none => return (m, first)
  | some secondHead =>
    match first with
    | none => return (m, second)
    | some firstHead => do
      let firstTail := m.prev firstHead
      let m := m.setPrev firstHead (m.prev secondHead)
      let m := m.setPrev secondHead firstTail
      let firstTail ← firstTail
      return (m.setNext firstTail (some secondHead), first)

variable {m : Links A} {list list' : Option A} {l l' a b : List A} {x y t : A}

/-! ## Insertion -/

/-- The list of the one node is linked. -/
theorem listInsertFirst_linked (m : Links A) (x : A) :
    Linked (listInsertFirst m x).1 (listInsertFirst m x).2 [x] where
  head := rfl
  nodup := List.nodup_singleton x
  chain := ⟨by simp [listInsertFirst], by simp [listInsertFirst], trivial⟩

/-- The links of other nodes stay as they are. -/
theorem listInsertFirst_sameAt (m : Links A) (h : y ≠ x) : SameAt m (listInsertFirst m x).1 y :=
  (sameAt_setPrev h _).trans (sameAt_setNext h _)

/-- The links after an insertion behind the last node `t`, written out in the order in which they
are set. -/
theorem listInsertTailNotEmpty_eq (hx : y ≠ x) (ht : m.prev y = some t) :
    listInsertTailNotEmpty m y x =
      some ((((m.setPrev x (some t)).setPrev y (some x)).setNext x none).setNext t (some x)) := by
  have hprev : (((m.setPrev x (some t)).setPrev y (some x)).setNext x none).prev x = some t := by
    rw [prev_setNext, prev_setPrev_of_ne _ _ hx.symm, prev_setPrev_self]
  simp [listInsertTailNotEmpty, ht, hprev]

/-- A node that is inserted behind the others is the last of the list, and the links of nodes
outside stay as they are. -/
theorem listInsertTailNotEmpty_linked (h : Linked m (some y) l) (hx : x ∉ l) :
    ∃ m', listInsertTailNotEmpty m y x = some m' ∧ Linked m' (some y) (l ++ [x]) ∧
      ∀ z, z ∉ l → z ≠ x → SameAt m m' z := by
  have hy : l.head? = some y := h.head.symm
  have hyl : y ∈ l := List.mem_of_head? hy
  obtain ⟨t, ht⟩ := h.exists_last
  have htl : t ∈ l := List.mem_of_getLast? ht
  have hxy : y ≠ x := ne_of_mem_of_not_mem hyl hx
  have hxt : x ≠ t := (ne_of_mem_of_not_mem htl hx).symm
  have hprev : m.prev y = some t := (h.chain.prev_head hy).trans ht
  refine ⟨_, listInsertTailNotEmpty_eq hxy hprev, ⟨?_, ?_, ?_⟩, fun z hz hzx => ?_⟩
  · simp [hy]
  · exact h.nodup.append (List.nodup_singleton x) (List.disjoint_singleton.mpr hx)
  · have hchain := h.chain.setPrev_of_notMem hx (some t)
    have hchain := hchain.setPrev_head h.nodup hy (some x)
    have hchain := hchain.setNext_of_notMem hx none
    rw [chain_concat]
    refine ⟨?_, ?_, ?_⟩
    · rw [List.getLast?_concat]
      exact hchain.setNext_last h.nodup ht (some x)
    · rw [prev_setNext, prev_setNext, prev_setPrev_of_ne _ _ hxy.symm, prev_setPrev_self, ht]
      rfl
    · rw [next_setNext_of_ne _ _ hxt, next_setNext_self]
  · have hzy : z ≠ y := (ne_of_mem_of_not_mem hyl hz).symm
    have hzt : z ≠ t := (ne_of_mem_of_not_mem htl hz).symm
    exact (((sameAt_setPrev hzx _).trans (sameAt_setPrev hzy _)).trans
      (sameAt_setNext hzx _)).trans (sameAt_setNext hzt _)

/-- The same for a list that may be empty. -/
theorem listInsertTail_linked (h : Linked m list l) (hx : x ∉ l) :
    ∃ m' list', listInsertTail m list x = some (m', list') ∧ Linked m' list' (l ++ [x]) ∧
      ∀ z, z ∉ l → z ≠ x → SameAt m m' z := by
  cases list with
  | none =>
    have hl : l = [] := List.head?_eq_none_iff.mp h.head.symm
    rw [hl]
    exact ⟨_, _, rfl, listInsertFirst_linked m x, fun z _ hz => listInsertFirst_sameAt m hz⟩
  | some y =>
    obtain ⟨m', hm', hlinked, hsame⟩ := listInsertTailNotEmpty_linked h hx
    exact ⟨m', some y, by simp [listInsertTail, hm'], hlinked, hsame⟩

/-! ## Removal -/

/-- The removal of the first node, whose `prev` goes to the next one: it is the tail. -/
theorem listRemoveExisting_head (h : Linked m list (x :: b)) :
    ∃ m' list', listRemoveExisting m list x = some (m', list') ∧ Linked m' list' b ∧
      ∀ z, z ∉ b → z ≠ x → SameAt m m' z := by
  obtain ⟨hlist, hnodup, hprev, hnext, hb⟩ := h
  obtain rfl : list = some x := hlist
  rw [Option.or_none] at hnext
  cases b with
  | nil =>
    refine ⟨m.setPrev x (m.prev x), none, ?_, by simp, fun z _ hz => sameAt_setPrev hz _⟩
    simp [listRemoveExisting, hnext]
  | cons n b =>
    have hb' := hb.setPrev_head (List.nodup_cons.mp hnodup).2 rfl (m.prev x)
    refine ⟨m.setPrev n (m.prev x), some n, ?_, ⟨rfl, (List.nodup_cons.mp hnodup).2, ?_⟩,
      fun z hz _ => sameAt_setPrev (List.ne_of_not_mem_cons hz) _⟩
    · simp [listRemoveExisting, hnext]
    · rw [hprev, List.getLast?_cons_cons] at hb'
      rw [hprev, List.getLast?_cons_cons]
      exact hb'

/-- The removal of a node behind `t`, which is then linked to what follows. -/
theorem listRemoveExisting_after (h : Linked m list (a ++ x :: b)) (ht : a.getLast? = some t) :
    ∃ m', listRemoveExisting m list x = some (m', list) ∧ Linked m' list (a ++ b) ∧
      ∀ z, z ∉ a → z ∉ b → SameAt m m' z := by
  have hmid : (a ++ b).Nodup ∧ x ∉ a ++ b :=
    List.nodup_cons.mp (List.nodup_middle.mp h.nodup) |>.symm
  obtain ⟨hnodup, hx⟩ := hmid
  obtain ⟨ha, hb⟩ := chain_append.mp h.chain
  rw [chain_cons, Option.or_none, ht] at hb
  obtain ⟨hprev, hnext, hb⟩ := hb
  have hta : t ∈ a := List.mem_of_getLast? ht
  obtain ⟨y, hy⟩ : ∃ y, a.head? = some y := by
    cases a with
    | nil => cases ht
    | cons y a => exact ⟨y, rfl⟩
  have hya : y ∈ a := List.mem_of_head? hy
  have hlist : list = some y := by
    rw [h.head, List.head?_append, hy]
    rfl
  have hxy : y ≠ x := ne_of_mem_of_not_mem (List.mem_append_left b hya) hx
  have hna : a.Nodup := hnodup.of_append_left
  have hnb : b.Nodup := hnodup.of_append_right
  have hdisj : a.Disjoint b := List.disjoint_of_nodup_append hnodup
  have hhead : list = (a ++ b).head? := by
    rw [hlist, List.head?_append, hy]
    rfl
  cases b with
  | nil =>
    refine ⟨(m.setPrev y (some t)).setNext t none, ?_, ⟨hhead, hnodup, ?_⟩, fun z hz _ => ?_⟩
    · have hprev' : (m.setPrev y (some t)).prev x = some t := by
        rw [prev_setPrev_of_ne m _ hxy.symm]
        exact hprev
      simp [listRemoveExisting, hnext, hlist, hxy, hprev, hprev']
    · rw [List.append_nil, ht]
      exact (ha.setPrev_head hna hy (some t)).setNext_last hna ht none
    · have hzy : z ≠ y := (ne_of_mem_of_not_mem hya hz).symm
      have hzt : z ≠ t := (ne_of_mem_of_not_mem hta hz).symm
      exact (sameAt_setPrev hzy _).trans (sameAt_setNext hzt _)
  | cons n b =>
    have hxn : x ≠ n := fun heq => hx (by simp [heq])
    have hnta : n ∉ a := fun hmem => hdisj hmem List.mem_cons_self
    refine ⟨(m.setPrev n (some t)).setNext t (some n), ?_, ⟨hhead, hnodup, ?_⟩,
      fun z hz hzb => ?_⟩
    · have hprev' : (m.setPrev n (some t)).prev x = some t := by
        rw [prev_setPrev_of_ne m _ hxn]
        exact hprev
      simp [listRemoveExisting, hnext, hlist, hxy, hprev, hprev']
    · rw [List.getLast?_append, List.getLast?_cons_cons] at ha
      rw [chain_append, ht, List.getLast?_append]
      constructor
      · exact (ha.setPrev_of_notMem hnta (some t)).setNext_last hna ht (some n)
      · exact (hb.setPrev_head hnb rfl (some t)).setNext_of_notMem (hdisj hta) (some n)
    · have hzn : z ≠ n := List.ne_of_not_mem_cons hzb
      have hzt : z ≠ t := (ne_of_mem_of_not_mem hta hz).symm
      exact (sameAt_setPrev hzn _).trans (sameAt_setNext hzt _)

/-- The list after a removal, where the nodes `a` precede the node and `b` follow it. The links of
nodes outside stay as they are. -/
theorem listRemoveExisting_linked (h : Linked m list (a ++ x :: b)) :
    ∃ m' list', listRemoveExisting m list x = some (m', list') ∧ Linked m' list' (a ++ b) ∧
      ∀ z, z ∉ a ++ x :: b → SameAt m m' z := by
  rcases List.eq_nil_or_concat' a with rfl | ⟨a, t, rfl⟩
  · obtain ⟨m', list', hm', hlinked, hsame⟩ := listRemoveExisting_head h
    exact ⟨m', list', hm', hlinked, fun z hz =>
      hsame z (List.not_mem_of_not_mem_cons hz) (List.ne_of_not_mem_cons hz)⟩
  · obtain ⟨m', hm', hlinked, hsame⟩ := listRemoveExisting_after h List.getLast?_concat
    exact ⟨m', list, hm', hlinked, fun z hz =>
      hsame z (fun hmem => hz (List.mem_append_left _ hmem))
        fun hmem => hz (List.mem_append_right _ (List.mem_cons_of_mem x hmem))⟩

/-! ## Concatenation -/

/-- Two lists without a common node become one, in their order, and the links of nodes outside stay
as they are. -/
theorem listConcat_linked {first second : Option A} (h : Linked m first l)
    (h' : Linked m second l') (hdisj : l.Disjoint l') :
    ∃ m' first', listConcat m first second = some (m', first') ∧ Linked m' first' (l ++ l') ∧
      ∀ z, z ∉ l → z ∉ l' → SameAt m m' z := by
  cases second with
  | none =>
    have hl' : l' = [] := List.head?_eq_none_iff.mp h'.head.symm
    refine ⟨m, first, rfl, ?_, fun z _ _ => .refl m z⟩
    rw [hl', List.append_nil]
    exact h
  | some y' =>
    cases first with
    | none =>
      have hl : l = [] := List.head?_eq_none_iff.mp h.head.symm
      refine ⟨m, some y', rfl, ?_, fun z _ _ => .refl m z⟩
      rw [hl, List.nil_append]
      exact h'
    | some y =>
      obtain ⟨t, ht⟩ := h.exists_last
      obtain ⟨t', ht'⟩ := h'.exists_last
      have hy : y ∈ l := List.mem_of_head? h.head.symm
      have hy' : y' ∈ l' := List.mem_of_head? h'.head.symm
      have htl : t ∈ l := List.mem_of_getLast? ht
      have hprev : m.prev y = some t := (h.chain.prev_head h.head.symm).trans ht
      have hprev' : m.prev y' = some t' := (h'.chain.prev_head h'.head.symm).trans ht'
      refine ⟨((m.setPrev y (some t')).setPrev y' (some t)).setNext t (some y'), some y,
        by simp [listConcat, hprev, hprev'], ⟨?_, ?_, ?_⟩, fun z hz hz' => ?_⟩
      · simp [← h.head]
      · exact h.nodup.append h'.nodup hdisj
      · rw [chain_append, ← h'.head, ht, List.getLast?_append, ht']
        constructor
        · have hchain := h.chain.setPrev_head h.nodup h.head.symm (some t')
          have hchain := hchain.setPrev_of_notMem (fun hmem => hdisj hmem hy') (some t)
          exact hchain.setNext_last h.nodup ht (some y')
        · have hchain := h'.chain.setPrev_of_notMem (hdisj hy) (some t')
          have hchain := hchain.setPrev_head h'.nodup h'.head.symm (some t)
          exact hchain.setNext_of_notMem (hdisj htl) (some y')
      · have hzy : z ≠ y := (ne_of_mem_of_not_mem hy hz).symm
        have hzy' : z ≠ y' := (ne_of_mem_of_not_mem hy' hz').symm
        have hzt : z ≠ t := (ne_of_mem_of_not_mem htl hz).symm
        exact ((sameAt_setPrev hzy _).trans (sameAt_setPrev hzy' _)).trans (sameAt_setNext hzt _)

end OrbitCache.Tommy
