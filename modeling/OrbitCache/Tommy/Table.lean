import OrbitCache.Tommy.Balance

/-!
# The operations of the table

Every operation is specified on the list of the nodes in the table, in the order of their insertion.
`Valid` is the invariant that all of them keep.
-/

namespace OrbitCache.Tommy.Hashlin

open Links LinearHash

variable {A D : Type} {t t' : Hashlin A D} {n : Nat} {xs : List A} {x : A}

/-- The table holds the nodes `xs`, in the order of their insertion, and its sizes suit their
number. It is what every operation keeps. -/
structure Valid (t : Hashlin A D) (xs : List A) : Prop where
  stores : t.Stores xs
  nodup : xs.Nodup
  balanced : t.Balanced xs.length
  count : t.count = xs.length

/-- The balance is a matter of the sizes and the state alone. -/
theorem Balanced.congr (h : t.Balanced n) (hbit : t'.bucketBit = t.bucketBit)
    (hmax : t'.bucketMax = t.bucketMax) (hmask : t'.bucketMask = t.bucketMask)
    (hlow : t'.lowMax = t.lowMax) (hlowMask : t'.lowMask = t.lowMask)
    (hsplit : t'.split = t.split) (hstate : t'.state = t.state) : t'.Balanced n := by
  have hsized : ∀ {k bit}, t.Sized k bit → t'.Sized k bit := fun hs =>
    ⟨hs.six_le, hs.bit_le, hbit.trans hs.bucketBit, hmax.trans hs.bucketMax,
      hmask.trans hs.bucketMask, hlow.trans hs.lowMax, hlowMask.trans hs.lowMask⟩
  cases h with
  | stable k hs h₁ h₂ h₃ h₄ =>
    exact .stable k (hsized hs) (hstate.trans h₁) (hsplit.trans h₂) (hlow ▸ h₃) (hlow ▸ h₄)
  | grow k hs h₁ h₂ h₃ h₄ h₅ =>
    exact .grow k (hsized hs) (hstate.trans h₁) (hsplit ▸ h₂) (by rwa [hsplit, hlow])
      (by rwa [hsplit, hlow]) (hlow ▸ h₅)
  | shrink k hs h₁ h₂ h₃ h₄ h₅ =>
    exact .shrink k (hsized hs) (hstate.trans h₁) (hsplit ▸ h₂) (by rwa [hsplit, hlow])
      (hlow ▸ h₄) (by rwa [hsplit, hlow])

/-! ## The bucket of a hash -/

/-- The position the code computes with its two masks is the address of linear hashing. -/
theorem bucketPos_of_mask {k : Nat} (hlow : t.lowMax = 2 ^ k) (hlowMask : t.lowMask = 2 ^ k - 1)
    (hmask : t.split = 0 ∨ t.bucketMask = 2 ^ (k + 1) - 1) (hash : BitVec 32) :
    t.bucketPos hash = addr t.lowMax t.split hash.toNat := by
  rw [bucketPos, addr, hlow, hlowMask, Nat.and_two_pow_sub_one_eq_mod]
  split
  · next hlt =>
    have hne : t.split ≠ 0 := (Nat.zero_lt_of_lt hlt).ne'
    rw [hmask.resolve_left hne, Nat.and_two_pow_sub_one_eq_mod, Nat.pow_succ']
  · rfl

/-- The same in each of the three states. -/
theorem Balanced.bucketPos_eq (h : t.Balanced n) (hash : BitVec 32) :
    t.bucketPos hash = addr t.lowMax t.split hash.toNat := by
  cases h with
  | stable k hs _ hsplit _ _ => exact bucketPos_of_mask hs.lowMax hs.lowMask (.inl hsplit) hash
  | grow k hs _ _ _ _ _ => exact bucketPos_of_mask hs.lowMax hs.lowMask (.inr hs.bucketMask) hash
  | shrink k hs _ _ _ _ _ => exact bucketPos_of_mask hs.lowMax hs.lowMask (.inr hs.bucketMask) hash

/-- There is always a bucket. -/
theorem Balanced.lowMax_pos (h : t.Balanced n) : 0 < t.lowMax := by
  cases h with
  | stable k hs => rw [hs.lowMax]; exact Nat.two_pow_pos k
  | grow k hs => rw [hs.lowMax]; exact Nat.two_pow_pos k
  | shrink k hs => rw [hs.lowMax]; exact Nat.two_pow_pos k

/-- A table never has room for more than 2 ^ 30 buckets, so no shift overflows. -/
theorem Balanced.bucketBit_le (h : t.Balanced n) : t.bucketBit ≤ 30 := by
  cases h with
  | stable k hs => exact hs.bucketBit ▸ hs.bit_le
  | grow k hs => exact hs.bucketBit ▸ hs.bit_le
  | shrink k hs => exact hs.bucketBit ▸ hs.bit_le

/-- The first segment is always there. -/
theorem Balanced.six_le (h : t.Balanced n) : hashlinBit ≤ t.bucketBit := by
  cases h with
  | stable k hs => exact hs.bucketBit ▸ hs.six_le
  | grow k hs => exact hs.bucketBit ▸ hs.six_le.trans (Nat.le_succ k)
  | shrink k hs => exact hs.bucketBit ▸ hs.six_le.trans (Nat.le_succ k)

/-- There is a segment for every bucket in use, whether the table grows, shrinks or is stable. -/
theorem Balanced.room (h : t.Balanced n) : t.lowMax + t.split ≤ 2 ^ t.bucketBit := by
  cases h with
  | stable k hs _ hsplit _ _ => rw [hs.lowMax, hs.bucketBit, hsplit, Nat.add_zero]
  | grow k hs _ _ hsplit _ _ =>
    have hpow : 2 ^ t.bucketBit = t.lowMax + t.lowMax := by
      rw [hs.bucketBit, hs.lowMax, Nat.pow_succ, Nat.mul_two]
    omega
  | shrink k hs _ _ hsplit _ _ =>
    have hpow : 2 ^ t.bucketBit = t.lowMax + t.lowMax := by
      rw [hs.bucketBit, hs.lowMax, Nat.pow_succ, Nat.mul_two]
    omega

/-- The bucket of a hash can be reached: it is one in use, there is memory for it, and its head can
be read. -/
theorem Valid.bucketRef {seg : Nat → Nat} {B : Nat → List A} (h : t.Valid xs)
    (hB : t.Holds seg B xs) (hash : BitVec 32) :
    ∃ p ptr, p = addr t.lowMax t.split hash.toNat ∧ p < t.lowMax + t.split ∧
      t.pos p = some ptr ∧ t.bucketRef hash = some ptr ∧ t.load ptr = some (t.slotAt p) ∧
      p < 2 ^ t.bucketBit := by
  have hlt : addr t.lowMax t.split hash.toNat < t.lowMax + t.split := addr_lt h.balanced.lowMax_pos
  have hroom := hlt.trans_le h.balanced.room
  have hpos := hB.layout.pos_eq hroom
  refine ⟨_, _, rfl, hlt, hpos, ?_, hB.layout.load hroom hpos, hroom⟩
  rw [Hashlin.bucketRef, h.balanced.bucketPos_eq]
  exact hpos

/-! ## Reading -/

/-- Hashes are equal if their values are. -/
theorem toNat_key_eq (t : Hashlin A D) (hash : BitVec 32) (r : A → Bool) (l : List A) :
    (l.find? fun x => (t.key x).toNat = hash.toNat ∧ r x) =
      l.find? fun x => t.key x = hash ∧ r x := by
  simp only [BitVec.toNat_inj]

/-- What an operation looks for in its bucket is the first in the table, since the nodes of one hash
are all in one bucket and in their order. -/
theorem Holds.find?_bucket {seg : Nat → Nat} {B : Nat → List A} (hB : t.Holds seg B xs)
    (hash : BitVec 32) (cmp : D → Bool) :
    (B (addr t.lowMax t.split hash.toNat)).find? (fun x => t.key x = hash ∧ cmp (t.data x)) =
      xs.find? fun x => t.key x = hash ∧ cmp (t.data x) := by
  rw [← toNat_key_eq, ← toNat_key_eq]
  exact hB.distributed.find?_eq hash.toNat fun x => cmp (t.data x)

/-- The loop of a search goes through the bucket until the comparison finds its node or reads a null
pointer. -/
theorem searchLoop_eq {j : Option A} {l : List A} (hj : Follows t.links j l)
    (cmp : D → Option Bool) (hash : BitVec 32) :
    t.searchLoop cmp hash j = (l.findM? (t.isMatch cmp hash)).map (Option.map t.data) := by
  induction hj with
  | nil => rw [searchLoop]; rfl
  | @cons x l hj ih =>
    rw [searchLoop, List.findM?]
    cases t.isMatch cmp hash x with
    | none => rfl
    | some found =>
      cases found with
      | false => exact ih
      | true => rfl

/-- A search looks at the nodes of the table with its hash in the order of their insertion: it
returns the data of the first one that the comparison accepts, or nothing when the comparison reads
a null pointer before. -/
theorem searchWith_spec (h : t.Valid xs) (cmp : D → Option Bool) (hash : BitVec 32) :
    t.searchWith cmp hash = (xs.findM? (t.isMatch cmp hash)).map (Option.map t.data) := by
  obtain ⟨seg, B, hB⟩ := h.stores
  obtain ⟨p, ptr, hp, hlt, -, href, hload, -⟩ := h.bucketRef hB hash
  have hother : ∀ x, (t.key x).toNat ≠ hash.toNat → t.isMatch cmp hash x = some false :=
    fun x hx => if_neg fun heq => hx (congrArg BitVec.toNat heq)
  have hloop := searchLoop_eq (hB.linked p hlt).follows cmp hash
  rw [hp, hB.distributed.findM?_eq hash.toNat hother, ← hp] at hloop
  simp only [searchWith, href, hload, Option.bind_eq_bind, Option.bind_some]
  exact hloop

/-- Where the comparison reads no null pointer, a search always ends, with the first node in the
order of insertion that has the hash and that the comparison accepts. -/
theorem search_spec (h : t.Valid xs) (cmp : D → Bool) (hash : BitVec 32) :
    t.search cmp hash =
      some ((xs.find? fun x => t.key x = hash ∧ cmp (t.data x)).map t.data) := by
  have hmatch : t.isMatch (fun data => some (cmp data)) hash =
      fun x => some (decide (t.key x = hash ∧ cmp (t.data x) = true)) := by
    funext x
    rw [isMatch]
    split <;> simp [*]
  rw [search, searchWith_spec h, hmatch]
  exact congrArg (Option.map (Option.map t.data)) (List.findM?_pure _ xs)

/-- The inner loop goes through the nodes of a bucket. -/
theorem foreachLoop_eq {j : Option A} {l : List A} (hj : Follows t.links j l) :
    t.foreachLoop j = some (l.map t.data) := by
  induction hj with
  | nil => rw [foreachLoop]; rfl
  | @cons x l hj ih => rw [foreachLoop, ih]; rfl

/-- A list of computations that all have a value has the list of their values. -/
theorem mapM_eq_some_map {α β : Type} {f : α → Option β} {g : α → β} {l : List α}
    (h : ∀ a ∈ l, f a = some (g a)) : l.mapM f = some (l.map g) := by
  induction l with
  | nil => rfl
  | cons a l ih =>
    rw [List.mapM_cons, h a List.mem_cons_self, ih fun b hb => h b (List.mem_cons_of_mem a hb)]
    rfl

/-- `tommy_hashlin_foreach` calls the function for every element once, bucket by bucket, so in
another order than that of insertion. -/
theorem foreach_spec (h : t.Valid xs) : ∃ l, t.foreach = some l ∧ l.Perm (xs.map t.data) := by
  obtain ⟨seg, B, hB⟩ := h.stores
  have hroom := h.balanced.room
  have hperm := hB.distributed.perm h.balanced.lowMax_pos
    (fun p hp => (hB.linked p hp).nodup) h.nodup
  refine ⟨(((List.range (t.lowMax + t.split)).map fun p => (B p).map t.data)).flatten, ?_, ?_⟩
  · have hpow : 2 ^ t.bucketBit ≤ 2 ^ 30 := Nat.pow_le_pow_right (by decide) h.balanced.bucketBit_le
    have hu32 : u32 (t.lowMax + t.split) = t.lowMax + t.split := u32_of_lt (by omega)
    have hmap : (List.range (t.lowMax + t.split)).mapM (fun p => do
        t.foreachLoop (← t.load (← t.pos p))) =
          some ((List.range (t.lowMax + t.split)).map fun p => (B p).map t.data) := by
      refine mapM_eq_some_map fun p hp => ?_
      have hlt := List.mem_range.mp hp
      have hpos := hB.layout.pos_eq (hlt.trans_le hroom)
      simp only [hpos, hB.layout.load (hlt.trans_le hroom) hpos, Option.bind_eq_bind,
        Option.bind_some]
      exact foreachLoop_eq (hB.linked p hlt).follows
    rw [foreach, hu32, hmap]
    rfl
  · rw [← List.flatMap_def, ← List.map_flatMap]
    exact hperm.map t.data

/-! ## Insertion -/

variable [DecidableEq A] (junk : Nat → Nat → Option A)

/-- `tommy_hashlin_insert` of a node that is not in the table puts it behind the others, with its
data and its hash, and keeps the invariant, whatever step of growing falls to it. -/
theorem insert_spec (h : t.Valid xs) (hx : x ∉ xs) (hmax : xs.length + 1 < 2 ^ 29) (data : D)
    (hash : BitVec 32) :
    ∃ t', t.insert junk x data hash = some t' ∧ t'.Valid (xs ++ [x]) ∧
      t'.data = Function.update t.data x data ∧ t'.key = Function.update t.key x hash := by
  obtain ⟨seg, B, hB⟩ := h.stores
  obtain ⟨p, ptr, hp, hlt, hpos, href, hload, hroom⟩ := h.bucketRef hB hash
  have hd := hB.distributed
  have hxB : ∀ q, x ∉ B q := fun q hq => hx (hd.mem_iff.mp hq).1
  obtain ⟨links, list, hinsert, hlinked, hsame⟩ := listInsertTail_linked (hB.linked p hlt) (hxB p)
  obtain ⟨blocks, hstore, hl, hslots⟩ := (hB.layout.withLinks links).store hroom hpos list
  have hkey : ∀ z ∈ xs, (Function.update t.key x hash z).toNat = (t.key z).toNat := fun z hz => by
    rw [Function.update_of_ne (ne_of_mem_of_not_mem hz hx)]
  have hd' := (hd.congr hkey).insert x
  rw [Function.update_self, ← hp] at hd'
  have hcount : u32 (t.count + 1) = xs.length + 1 := by
    rw [h.count]
    exact u32_of_lt (by omega)
  let t₁ : Hashlin A D := { t with
    blocks, links
    data := Function.update t.data x data
    key := Function.update t.key x hash
    count := xs.length + 1 }
  have hB₁ : t₁.Holds seg (insertAt p x B) (xs ++ [x]) := by
    refine ⟨hl.congr rfl rfl, fun q hq => ?_, hd'⟩
    have hq' : q < t.lowMax + t.split := hq
    have hslot : t₁.slotAt q = if q = p then list else t.slotAt q :=
      hslots q (hq'.trans_le h.balanced.room)
    rw [insertAt, hslot]
    split
    · exact hlinked
    · next hne =>
      refine (hB.linked q hq').congr fun z hz => hsame z ?_ ?_
      · exact fun hz' => hd.disjoint hne hz hz'
      · exact ne_of_mem_of_not_mem hz (hxB q)
  have hbalanced : t₁.Balanced xs.length := h.balanced.congr rfl rfl rfl rfl rfl rfl rfl
  obtain ⟨t', hgrow, hsame', hstores', hbalanced'⟩ :=
    growStep_spec junk hbalanced rfl hmax ⟨seg, _, hB₁⟩
  refine ⟨t', ?_, ⟨hstores', ?_, ?_, ?_⟩, hsame'.2.1, hsame'.2.2⟩
  · simp only [insert, href, hload, hinsert, hstore, hcount, Option.bind_eq_bind, Option.bind_some]
    exact hgrow
  · exact h.nodup.append (List.nodup_singleton x) (List.disjoint_singleton.mpr hx)
  · rw [List.length_append]
    exact hbalanced'
  · rw [List.length_append]
    exact hsame'.1

/-! ## Removal -/

/-- What both removals do with a node of the list at `letPtr`: the list is relinked, its head is
written back, and the table may shrink. -/
def unlink (t : Hashlin A D) (letPtr : SlotPtr) (node : A) : Option (Hashlin A D) := do
  let (links, list) ← listRemoveExisting t.links (← t.load letPtr) node
  let t ← store { t with links } letPtr list
  shrinkStep { t with count := u32Pred t.count }

/-- `tommy_hashlin_remove_existing` is the unlinking of the node from the bucket of its hash. -/
theorem removeExisting_eq (t : Hashlin A D) (node : A) : t.removeExisting node = do
    let p ← t.bucketRef (t.key node)
    let t ← t.unlink p node
    return (t, t.data node) := by
  simp [removeExisting, unlink, Option.bind_assoc]

/-- The nodes without one of them are those before it and those behind it. -/
theorem filter_ne_middle {a b : List A} (h : (a ++ x :: b).Nodup) :
    (a ++ x :: b).filter (· ≠ x) = a ++ b := by
  obtain ⟨hx, -⟩ := List.nodup_cons.mp (List.nodup_middle.mp h)
  rw [List.filter_append, List.filter_cons_of_neg (by simp), ← List.filter_append]
  exact List.filter_eq_self.mpr fun z hz => decide_eq_true (ne_of_mem_of_not_mem hz hx)

/-- A node of the table is taken out of its bucket, and the invariant holds for the others. -/
theorem unlink_spec (h : t.Valid xs) (hx : x ∈ xs) (hmax : xs.length < 2 ^ 29) {ptr : SlotPtr}
    (hptr : t.bucketRef (t.key x) = some ptr) :
    ∃ t', t.unlink ptr x = some t' ∧ t'.Valid (xs.filter (· ≠ x)) ∧ t'.data = t.data ∧
      t'.key = t.key := by
  obtain ⟨seg, B, hB⟩ := h.stores
  obtain ⟨p, ptr', hp, hlt, hpos, href, hload, hroom⟩ := h.bucketRef hB (t.key x)
  obtain rfl := Option.some.inj (hptr.symm.trans href)
  have hd := hB.distributed
  have hxp : x ∈ B p := hd.mem_iff.mpr ⟨hx, hp.symm⟩
  obtain ⟨a, b, hab⟩ := List.append_of_mem hxp
  have hlinked := hB.linked p hlt
  rw [hab] at hlinked
  obtain ⟨links, list, hremove, hlinked', hsame⟩ := listRemoveExisting_linked hlinked
  obtain ⟨blocks, hstore, hl, hslots⟩ := (hB.layout.withLinks links).store hroom hpos list
  obtain ⟨n, hn⟩ : ∃ n, xs.length = n + 1 :=
    ⟨xs.length - 1, by have := List.length_pos_of_mem hx; omega⟩
  have hlen : (xs.filter (· ≠ x)).length = n := by
    have hfilter : xs.filter (· ≠ x) = xs.erase x := by
      rw [h.nodup.erase_eq_filter]
      exact List.filter_congr fun z _ => by grind
    rw [hfilter, List.length_erase_of_mem hx, hn, Nat.add_sub_cancel]
  have hcount : u32Pred t.count = n := by
    rw [h.count, u32Pred_of_pos (by omega) (by omega), hn, Nat.add_sub_cancel]
  let t₁ : Hashlin A D := { t with blocks, links, count := n }
  have hB₁ : t₁.Holds seg (fun q => (B q).filter (· ≠ x)) (xs.filter (· ≠ x)) := by
    refine ⟨hl.congr rfl rfl, fun q hq => ?_, hd.erase x⟩
    have hq' : q < t.lowMax + t.split := hq
    have hslot : t₁.slotAt q = if q = p then list else t.slotAt q :=
      hslots q (hq'.trans_le h.balanced.room)
    rw [hslot]
    split
    · next hqp =>
      rw [hqp, hab, filter_ne_middle (hab ▸ (hB.linked p hlt).nodup)]
      exact hlinked'
    · next hne =>
      have hxq : x ∉ B q := hd.disjoint (Ne.symm hne) hxp
      rw [List.filter_eq_self.mpr fun z hz => decide_eq_true (ne_of_mem_of_not_mem hz hxq)]
      refine (hB.linked q hq').congr fun z hz => hsame z fun hz' => ?_
      exact hd.disjoint hne hz (hab ▸ hz')
  have hbalanced : t₁.Balanced (n + 1) := hn ▸ h.balanced.congr rfl rfl rfl rfl rfl rfl rfl
  obtain ⟨t', hshrink, hsame', hstores', hbalanced'⟩ :=
    shrinkStep_spec hbalanced rfl (by omega) ⟨seg, _, hB₁⟩
  refine ⟨t', ?_, ⟨hstores', h.nodup.filter _, hlen ▸ hbalanced', hlen ▸ hsame'.1⟩, hsame'.2.1,
    hsame'.2.2⟩
  simp only [unlink, hload, hremove, hstore, hcount, Option.bind_eq_bind, Option.bind_some]
  exact hshrink

/-- `tommy_hashlin_remove_existing` of a node of the table takes out that node only and returns its
data; the invariant holds, whatever step of shrinking falls to it. -/
theorem removeExisting_spec (h : t.Valid xs) (hx : x ∈ xs) (hmax : xs.length < 2 ^ 29) :
    ∃ t', t.removeExisting x = some (t', t.data x) ∧ t'.Valid (xs.filter (· ≠ x)) ∧
      t'.data = t.data ∧ t'.key = t.key := by
  obtain ⟨seg, B, hB⟩ := h.stores
  obtain ⟨p, ptr, -, -, -, href, -⟩ := h.bucketRef hB (t.key x)
  obtain ⟨t', hunlink, hvalid, hdata, hkey⟩ := unlink_spec h hx hmax href
  refine ⟨t', ?_, hvalid, hdata, hkey⟩
  simp only [removeExisting_eq, href, hunlink, Option.bind_eq_bind, Option.bind_some, hdata]
  rfl

/-- The loop stops at the first node that it looks for and unlinks it. -/
theorem removeLoop_eq {j : Option A} {l : List A} (hj : Follows t.links j l) (cmp : D → Bool)
    (hash : BitVec 32) (letPtr : SlotPtr) :
    t.removeLoop cmp hash letPtr j =
      match l.find? fun x => t.key x = hash ∧ cmp (t.data x) with
      | none => some (t, none)
      | some x => (t.unlink letPtr x).bind fun t => some (t, some (t.data x)) := by
  induction hj with
  | nil => rw [removeLoop]; rfl
  | @cons x l hj ih =>
    rw [removeLoop, List.find?_cons]
    split
    · next hx =>
      rw [decide_eq_true hx]
      simp [unlink, Option.bind_assoc]
    · next hx =>
      rw [decide_eq_false hx]
      exact ih

/-- `tommy_hashlin_remove` takes out the node that a search with the same arguments finds and
returns its data; where a search finds nothing, the table stays as it is. -/
theorem remove_spec (h : t.Valid xs) (hmax : xs.length < 2 ^ 29) (cmp : D → Bool)
    (hash : BitVec 32) :
    match xs.find? fun x => t.key x = hash ∧ cmp (t.data x) with
    | none => t.remove cmp hash = some (t, none)
    | some x => ∃ t', t.remove cmp hash = some (t', some (t.data x)) ∧
        t'.Valid (xs.filter (· ≠ x)) ∧ t'.data = t.data ∧ t'.key = t.key := by
  obtain ⟨seg, B, hB⟩ := h.stores
  obtain ⟨p, ptr, hp, hlt, -, href, hload, -⟩ := h.bucketRef hB hash
  have hloop := removeLoop_eq (hB.linked p hlt).follows cmp hash ptr
  rw [hp, hB.find?_bucket] at hloop
  have hremove : t.remove cmp hash = t.removeLoop cmp hash ptr (t.slotAt p) := by
    simp only [remove, href, hload, Option.bind_eq_bind, Option.bind_some]
  rw [hremove, hp, hloop]
  cases hfind : xs.find? fun x => t.key x = hash ∧ cmp (t.data x) with
  | none => rfl
  | some x =>
    have hx := List.find?_some hfind
    rw [decide_eq_true_eq] at hx
    obtain ⟨t', hunlink, hvalid, hdata, hkey⟩ :=
      unlink_spec h (List.mem_of_find?_eq_some hfind) hmax (hx.1 ▸ href)
    refine ⟨t', ?_, hvalid, hdata, hkey⟩
    simp only [hunlink, Option.bind_some, hdata]

end OrbitCache.Tommy.Hashlin
