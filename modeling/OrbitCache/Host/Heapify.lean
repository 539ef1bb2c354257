import OrbitCache.Host.TopK

/-!
# Heapify

`heapify` restores the heap order of a subtree and leaves the rest of the array alone
(`heapify_restores`). `heapifyAt` is the function on an array of the program, with its reads and its
`int` indices: it stays inside of the array and computes `heapify`, as long as the indices of the
children are values of an `int` (`heapifyAt_eq`), and so it restores the array of the program
(`heapifyAt_restores_array`).
-/

namespace OrbitCache

/-! ## The subtree -/

/-- The entries of an array that are within its first `length` places, as a list. -/
def items (topK : Nat → TopKItem) (length : Nat) : List TopKItem := (List.range length).map topK

/-- A rearrangement of the first places rearranges their entries, if it maps these places to
themselves. -/
theorem items_perm {a : Nat → TopKItem} {σ : Equiv.Perm Nat} {length : Nat}
    (h : ∀ k, σ k < length ↔ k < length) : (items (a ∘ σ) length).Perm (items a length) := by
  have hrange : ((List.range length).map σ).Perm (List.range length) := by
    refine (List.perm_ext_iff_of_nodup (List.nodup_range.map σ.injective) List.nodup_range).2 ?_
    intro k
    rw [List.mem_map, List.mem_range]
    constructor
    · rintro ⟨j, hj, rfl⟩
      exact (h j).2 (List.mem_range.1 hj)
    · intro hk
      exact ⟨σ.symm k, List.mem_range.2 ((h _).1 (by simpa using hk)), σ.apply_symm_apply k⟩
  have hmap := hrange.map a
  rwa [List.map_map] at hmap

/-- `heapify` only rearranges the entries of the array: each step is an exchange of two places in
use. -/
theorem items_heapify_perm (topK : Nat → TopKItem) {length topKCount : Nat}
    (hlength : topKCount ≤ length) (i : Nat) :
    (items (heapify topK topKCount i) length).Perm (items topK length) := by
  obtain ⟨σ, hσ, hfix⟩ := Sift.exists_perm_below TopKItem.weight topK topKCount i
  have hlt : ∀ k, σ k < length ↔ k < length :=
    Sift.perm_iff fun k hk => hfix k fun h => hk (h.2.trans_le hlength)
  rw [heapify, hσ]
  exact items_perm hlt

/-- `heapify` puts the subtree of `i` in order when only its root can be out of place. -/
theorem heapBelow_heapify {topK : Nat → TopKItem} {topKCount i : Nat}
    (hleft : Sift.HeapBelow TopKItem.weight topK topKCount (2 * i + 1))
    (hright : Sift.HeapBelow TopKItem.weight topK topKCount (2 * i + 2)) :
    Sift.HeapBelow TopKItem.weight (heapify topK topKCount i) topKCount i := by
  refine Sift.heapBelow_down fun c hpos hparent => ?_
  rcases Sift.child_eq hpos hparent with rfl | rfl
  · exact hleft
  · exact hright

/-- `heapify` permutes an array, changes no place outside of the subtree of `i`, and restores the
order of the subtree when the subtrees of the two children are in order. It is the rule for sifting
down, instantiated with the weights of the items. -/
theorem heapify_restores (topK : Nat → TopKItem) {length topKCount : Nat}
    (hlength : topKCount ≤ length) (i : Nat) :
    (items (heapify topK topKCount i) length).Perm (items topK length) ∧
    (∀ k, ¬ (Sift.Below i k ∧ k < topKCount) → heapify topK topKCount i k = topK k) ∧
    (Sift.HeapBelow TopKItem.weight topK topKCount (2 * i + 1) →
      Sift.HeapBelow TopKItem.weight topK topKCount (2 * i + 2) →
      Sift.HeapBelow TopKItem.weight (heapify topK topKCount i) topKCount i) :=
  ⟨items_heapify_perm topK hlength i, fun _ hk => Sift.down_of_not_below hk, heapBelow_heapify⟩

/-- Three entries in use, the heaviest first: the order is violated at the root and nowhere else. -/
def threeItems (k : Nat) : TopKItem := ⟨[], if k = 0 then 9 else BitVec.ofNat 32 k⟩

/-- The heaviest entry sinks, and the array of four places keeps its entries. -/
theorem heapify_restores_three :
    (items (heapify threeItems 3 0) 4).Perm (items threeItems 4) ∧
      Sift.HeapBelow TopKItem.weight (heapify threeItems 3 0) 3 0 := by
  obtain ⟨hperm, -, hheap⟩ := heapify_restores threeItems (by decide : 3 ≤ 4) 0
  exact ⟨hperm, hheap (Sift.heapBelow_leaf (by decide)) (Sift.heapBelow_leaf (by decide))⟩

/-! ## The array -/

/-- The value of an expression of type `int`; there is none when it overflows. -/
def cInt (x : Int) : Option Int := if -2 ^ 31 ≤ x ∧ x < 2 ^ 31 then some x else none

/-- `topK[i]`; there is nothing outside of the array. -/
def itemAt (topK : Array TopKItem) (i : Int) : Option TopKItem :=
  if 0 ≤ i then topK[i.toNat]? else none

/-- `if (child < topKCount && topK[child].popularity < topK[smallest].popularity)`: the new value of
`smallest`. -/
def lighterAt (topK : Array TopKItem) (topKCount child smallest : Int) : Option Int :=
  if child < topKCount then do
    let c ← itemAt topK child
    let s ← itemAt topK smallest
    pure (if c.popularity.toInt < s.popularity.toInt then child else smallest)
  else some smallest

/-- `smallest` after both tests: the left child first, then the right one against the lighter of the
two. -/
def smallestAt (topK : Array TopKItem) (topKCount i : Int) : Option Int := do
  let left ← cInt (2 * i + 1)
  let right ← cInt (2 * i + 2)
  let smallest ← lighterAt topK topKCount left i
  lighterAt topK topKCount right smallest

/-- A test returns one of the two places that it compares. -/
theorem lighterAt_eq_some {topK : Array TopKItem} {topKCount child smallest s : Int}
    (h : lighterAt topK topKCount child smallest = some s) :
    s = smallest ∨ s = child ∧ child < topKCount ∧ 0 ≤ smallest := by
  unfold lighterAt at h
  split at h
  · next hlt =>
    simp only [Option.bind_eq_bind, Option.bind_eq_some_iff, Option.pure_def,
      Option.some.injEq] at h
    obtain ⟨c, -, e, he, rfl⟩ := h
    have hpos : 0 ≤ smallest := by
      by_contra hneg
      rw [itemAt, if_neg hneg] at he
      cases he
    split
    · exact .inr ⟨rfl, hlt, hpos⟩
    · exact .inl rfl
  · exact .inl (Option.some.inj h).symm

/-- A recursive call is for a later place before `topKCount`, so the recursion ends. -/
theorem smallestAt_eq_some {topK : Array TopKItem} {topKCount i s : Int}
    (h : smallestAt topK topKCount i = some s) (hne : s ≠ i) : i < s ∧ s < topKCount := by
  simp only [smallestAt, cInt, Option.bind_eq_bind, Option.bind_eq_some_iff,
    Option.ite_none_right_eq_some, Option.some.injEq] at h
  obtain ⟨left, ⟨-, rfl⟩, right, ⟨-, rfl⟩, s', hleft, hright⟩ := h
  rcases lighterAt_eq_some hleft with rfl | ⟨rfl, hlt, hpos⟩
  · rcases lighterAt_eq_some hright with rfl | ⟨rfl, hlt', hpos'⟩
    · exact absurd rfl hne
    · omega
  · rcases lighterAt_eq_some hright with rfl | ⟨rfl, hlt', -⟩
    · omega
    · omega

/-- `heapify`, on an array: there is no result on an access outside of it or on an overflow of an
`int`. -/
def heapifyAt (topK : Array TopKItem) (topKCount i : Int) : Option (Array TopKItem) :=
  match _h : smallestAt topK topKCount i with
  | none => none
  | some smallest =>
    if _hne : smallest ≠ i then
      heapifyAt (topK.swapIfInBounds i.toNat smallest.toNat) topKCount smallest
    else some topK
termination_by (topKCount - i).toNat
decreasing_by
  have hlt := smallestAt_eq_some _h _hne
  omega

/-- The entries of an array, as a function; outside of the array the value is arbitrary. -/
def contents (topK : Array TopKItem) (k : Nat) : TopKItem := topK.getD k ⟨[], 0⟩

section
variable {topK : Array TopKItem} {topKCount i : Nat}

/-- Within the array the function gives the entry. -/
theorem contents_of_lt (h : i < topK.size) : contents topK i = topK[i] := by
  rw [contents, Array.getD, dif_pos h]
  rfl

/-- Outside of the array it gives the arbitrary value. -/
theorem contents_of_ge (h : topK.size ≤ i) : contents topK i = ⟨[], 0⟩ := by
  rw [contents, Array.getD, dif_neg (Nat.not_lt.2 h)]

/-- An access within the array reads what the function gives. -/
theorem itemAt_natCast (h : i < topK.size) : itemAt topK i = some (contents topK i) := by
  rw [itemAt, if_pos (Int.natCast_nonneg i), Int.toNat_natCast, contents_of_lt h]
  exact Array.getElem?_eq_getElem h

/-- A test reads places of the array only, since a child that is compared is before `topKCount`. -/
theorem lighterAt_natCast {child smallest : Nat} (hsize : topKCount ≤ topK.size)
    (hsmallest : smallest < topK.size) :
    lighterAt topK topKCount child smallest = some ((if child < topKCount ∧
      (contents topK child).weight < (contents topK smallest).weight then child else smallest
        : Nat) : Int) := by
  unfold lighterAt
  split
  · next hlt =>
    have hchild : child < topKCount := by exact_mod_cast hlt
    rw [itemAt_natCast (hchild.trans_le hsize), itemAt_natCast hsmallest]
    simp only [Option.bind_eq_bind, Option.bind_some, Option.pure_def, hchild, true_and,
      TopKItem.weight]
    split_ifs <;> rfl
  · next hge =>
    rw [if_neg fun h => hge (by exact_mod_cast h.1)]

/-- The C code finds the place that `Sift.smallest` is: with fewer than `2 ^ 30` places in use, the
two products do not overflow. -/
theorem smallestAt_natCast (hi : i < topKCount) (hsize : topKCount ≤ topK.size)
    (hint : topKCount < 2 ^ 30) :
    smallestAt topK topKCount i =
      some (Sift.smallest TopKItem.weight (contents topK) topKCount i : Int) := by
  have hleft : cInt (2 * (i : Int) + 1) = some ((2 * i + 1 : Nat) : Int) := by
    rw [cInt, if_pos (by omega)]
    rfl
  have hright : cInt (2 * (i : Int) + 2) = some ((2 * i + 2 : Nat) : Int) := by
    rw [cInt, if_pos (by omega)]
    rfl
  have hlt : (if 2 * i + 1 < topKCount ∧ (contents topK (2 * i + 1)).weight <
      (contents topK i).weight then 2 * i + 1 else i) < topK.size := by
    split
    · next h => exact h.1.trans_le hsize
    · exact hi.trans_le hsize
  simp only [smallestAt, hleft, hright, Option.bind_eq_bind, Option.bind_some]
  rw [lighterAt_natCast hsize (hi.trans_le hsize), Option.bind_some,
    lighterAt_natCast hsize hlt, Sift.smallest]

/-- The exchange of two entries of an array exchanges what the function gives. -/
theorem contents_swap {j : Nat} (hi : i < topK.size) (hj : j < topK.size) :
    contents (topK.swapIfInBounds i j) = Sift.swap (contents topK) i j := by
  funext k
  rcases eq_or_ne k i with rfl | hki
  · rw [Sift.swap_left, contents_of_lt hj, contents_of_lt (by simpa using hi)]
    exact Array.getElem_swapIfInBounds_left hj _
  rcases eq_or_ne k j with rfl | hkj
  · rw [Sift.swap_right, contents_of_lt hi, contents_of_lt (by simpa using hj)]
    exact Array.getElem_swapIfInBounds_right hi _
  rw [Sift.swap_of_ne hki hkj]
  rcases Nat.lt_or_ge k topK.size with hk | hk
  · rw [contents_of_lt hk, contents_of_lt (by simpa using hk)]
    exact Array.getElem_swapIfInBounds_of_ne_of_ne hki hkj _
  · rw [contents_of_ge hk, contents_of_ge (by simpa using hk)]

/-- One call of the function, once the smallest place is known. -/
theorem heapifyAt_of_smallestAt {topKCount i s : Int} (h : smallestAt topK topKCount i = some s) :
    heapifyAt topK topKCount i = if s ≠ i then
      heapifyAt (topK.swapIfInBounds i.toNat s.toNat) topKCount s else some topK := by
  rw [heapifyAt]
  split
  · next hnone =>
    rw [h] at hnone
    cases hnone
  · next s' hsome =>
    obtain rfl : s = s' := Option.some.inj (h.symm.trans hsome)
    rfl

/-- On an array of the program with fewer than `2 ^ 30` places in use, the C code returns what
`heapify` is. -/
theorem heapifyAt_eq (hi : i < topKCount) (hsize : topKCount ≤ topK.size)
    (hint : topKCount < 2 ^ 30) :
    ∃ result, heapifyAt topK topKCount i = some result ∧ result.size = topK.size ∧
      contents result = heapify (contents topK) topKCount i := by
  induction hm : topKCount - i using Nat.strongRecOn generalizing topK i with
  | ind m ih =>
    rw [heapifyAt_of_smallestAt (smallestAt_natCast hi hsize hint), heapify, Sift.down]
    by_cases hs : Sift.smallest TopKItem.weight (contents topK) topKCount i = i
    · rw [dif_pos hs, hs, if_neg fun hne => hne rfl]
      exact ⟨topK, rfl, rfl, rfl⟩
    · have hlt := (Sift.smallest_child hs).1
      have hgt := Sift.lt_smallest hs
      have hless : topKCount - Sift.smallest TopKItem.weight (contents topK) topKCount i < m := by
        omega
      rw [dif_neg hs, if_pos fun heq => hs (by exact_mod_cast heq),
        ← contents_swap (hi.trans_le hsize) (hlt.trans_le hsize)]
      obtain ⟨result, hresult, hsame, hcontents⟩ := ih _ hless hlt
        (hsize.trans_eq Array.size_swapIfInBounds.symm) rfl
      exact ⟨result, hresult, hsame.trans Array.size_swapIfInBounds, hcontents⟩

/-- The entries of an array, in order. -/
theorem items_contents (topK : Array TopKItem) : items (contents topK) topK.size = topK.toList := by
  refine List.ext_getElem (by simp [items]) fun k hk _ => ?_
  have hlt : k < topK.size := by simpa [items] using hk
  simp [items, contents_of_lt hlt]

/-- On an array of the program with fewer than `2 ^ 30` places in use, the C code returns an array
with the same entries, the same ones outside of the subtree of `i`, and that subtree in order when
the subtrees of the two children were. -/
theorem heapifyAt_restores_array (hi : i < topKCount) (hsize : topKCount ≤ topK.size)
    (hint : topKCount < 2 ^ 30) :
    ∃ result, heapifyAt topK topKCount i = some result ∧ result.toList.Perm topK.toList ∧
      (∀ k, ¬ (Sift.Below i k ∧ k < topKCount) → contents result k = contents topK k) ∧
      (Sift.HeapBelow TopKItem.weight (contents topK) topKCount (2 * i + 1) →
        Sift.HeapBelow TopKItem.weight (contents topK) topKCount (2 * i + 2) →
        Sift.HeapBelow TopKItem.weight (contents result) topKCount i) := by
  obtain ⟨result, hresult, hsame, hcontents⟩ := heapifyAt_eq hi hsize hint
  refine ⟨result, hresult, ?_, fun k hk => ?_, fun hleft hright => ?_⟩
  · rw [← items_contents, ← items_contents, hsame, hcontents]
    exact items_heapify_perm (contents topK) hsize i
  · rw [hcontents]
    exact Sift.down_of_not_below hk
  · rw [hcontents]
    exact heapBelow_heapify hleft hright

end

end OrbitCache
