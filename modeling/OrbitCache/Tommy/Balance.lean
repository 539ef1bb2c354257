import OrbitCache.Tommy.Resize

/-!
# The load of the table

`Balanced` is what the sizes have to do with the number of elements between two operations, in each
of the three states. It is an invariant of `hashlin_grow_step` after an insertion (`growStep_spec`)
and of `hashlin_shrink_step` after a removal (`shrinkStep_spec`), as long as there are so few
elements that `8 * count` does not overflow. A reallocation has then always finished when the next
one in the same direction starts.
-/

namespace OrbitCache.Tommy.Hashlin

open LinearHash

variable {A D : Type} {t : Hashlin A D} {k n : Nat} {xs : List A}

/-- The sizes of a table with `n` elements, in each of its three states: how far the split has come,
and how full the buckets in use may be. This is the part of the invariant that bounds the load and
the memory. -/
inductive Balanced (t : Hashlin A D) (n : Nat) : Prop
  | stable (k : Nat) (hs : t.Sized k k) (hstate : t.state = .stable) (hsplit : t.split = 0)
      (hfull : n ≤ t.lowMax / 2 + 1) (hload : k = hashlinBit ∨ t.lowMax ≤ 8 * n)
  | grow (k : Nat) (hs : t.Sized k (k + 1)) (hstate : t.state = .grow) (hzero : 0 < t.split)
      (hsplit : t.split < t.lowMax) (hfull : 2 * n ≤ t.lowMax + t.split)
      (hload : 2 * t.lowMax ≤ 8 * n)
  | shrink (k : Nat) (hs : t.Sized k (k + 1)) (hstate : t.state = .shrink) (hzero : 0 < t.split)
      (hsplit : t.split < t.lowMax) (hfull : n ≤ t.lowMax) (hload : t.lowMax + t.split ≤ 8 * n)

/-- The low half is a whole number of first segments, so its halves and eighths come out even. -/
theorem Sized.lowMax_eq {bit : Nat} (hs : t.Sized k bit) : ∃ m, t.lowMax = 64 * m ∧ 0 < m := by
  obtain ⟨d, rfl⟩ : ∃ d, k = hashlinBit + d := ⟨k - hashlinBit, by have := hs.six_le; omega⟩
  exact ⟨2 ^ d, by rw [hs.lowMax, Nat.pow_add]; rfl, Nat.two_pow_pos d⟩

/-- While the table is resized it has twice as many buckets as its low half. -/
theorem Sized.bucketMax_eq (hs : t.Sized k (k + 1)) : t.bucketMax = 2 * t.lowMax := by
  rw [hs.bucketMax, hs.lowMax, Nat.pow_succ']

/-- There are never more elements than buckets in use, so a chain has one element on average at
most. -/
theorem Balanced.le_buckets (h : Balanced t n) : n ≤ t.lowMax + t.split := by
  cases h with
  | stable k hs _ _ hfull _ =>
    obtain ⟨m, hm, _⟩ := hs.lowMax_eq
    omega
  | grow k hs _ _ _ hfull _ => omega
  | shrink k hs _ _ _ hfull _ => omega

/-- There are never more than eight buckets in use for an element, beyond the first segment: a table
that empties gives its buckets back. -/
theorem Balanced.buckets_le (h : Balanced t n) : t.lowMax + t.split ≤ max 64 (8 * n) := by
  cases h with
  | stable k hs _ hsplit _ hload =>
    rcases hload with rfl | hload
    · have hlow : t.lowMax = 64 := hs.lowMax
      omega
    · omega
  | grow k hs _ _ hsplit _ hload => omega
  | shrink k hs _ _ _ _ hload => omega

/-- There are never more than sixteen places for an element, beyond the first segment. The factor
two is that of the segment that is being split or put together. -/
theorem Balanced.bucketMax_le (h : Balanced t n) : t.bucketMax ≤ max 64 (16 * n) := by
  have hle := h.buckets_le
  cases h with
  | stable k hs _ hsplit _ _ =>
    have hmax : t.bucketMax = t.lowMax := hs.bucketMax.trans hs.lowMax.symm
    omega
  | grow k hs _ _ hsplit _ hload =>
    have hmax := hs.bucketMax_eq
    omega
  | shrink k hs _ _ _ _ hload =>
    have hmax := hs.bucketMax_eq
    omega

variable (junk : Nat → Nat → Option A)

/-! ## After an insertion -/

/-- The state of the table says nothing about what is stored. -/
theorem Stores.withState (h : t.Stores xs) (state : HashlinState) :
    Stores { t with state } xs := by
  obtain ⟨seg, B, hB⟩ := h
  exact ⟨seg, B, hB.layout.congr rfl rfl, hB.linked, hB.distributed⟩

/-- Nor about the sizes of its segments. -/
theorem Sized.withState {bit : Nat} (hs : t.Sized k bit) (state : HashlinState) :
    Sized { t with state } k bit :=
  ⟨hs.six_le, hs.bit_le, hs.bucketBit, hs.bucketMax, hs.bucketMask, hs.lowMax, hs.lowMask⟩

/-- A new segment, for twice as many buckets: none of them is in use yet, so the contents stay. -/
theorem growSetup_spec (hs : t.Sized k k) (hk : k < 30) (hsplit : t.split = 0) (h : t.Stores xs) :
    ∃ t', t.growSetup junk = some t' ∧ SameNodes t t' ∧ t'.Stores xs ∧ t'.Sized k (k + 1) ∧
      t'.split = 0 ∧ t'.lowMax = t.lowMax := by
  obtain ⟨seg, B, hB⟩ := h
  have hl := hB.layout
  have hd := hB.distributed
  have hlinked := hB.linked
  have hmax : t.bucketMax = t.lowMax := hs.bucketMax.trans hs.lowMax.symm
  have hpow : t.bucketMax = 2 ^ t.bucketBit := hs.bucketMax.trans (by rw [hs.bucketBit])
  have hbit : t.bucketBit < hashlinBitMax := by
    rw [hs.bucketBit]
    exact hk.trans (by decide)
  have hshift : shiftOne (t.bucketBit + 1) = some (2 ^ (k + 1)) := by
    rw [hs.bucketBit]
    exact shiftOne_of_lt (by omega)
  have hsix : hashlinBit ≤ t.bucketBit := hs.bucketBit ▸ hs.six_le
  rw [hsplit] at hd hlinked
  let t' : Hashlin A D := { t with
    lowMax := t.bucketMax
    lowMask := t.bucketMask
    blocks := t.blocks ++ [some ((List.range t.bucketMax).map (junk t.blocks.length))]
    bucket := t.bucket.set t.bucketBit (some ⟨t.blocks.length, 0 - t.bucketMax⟩)
    bucketBit := t.bucketBit + 1
    bucketMax := 2 ^ (k + 1)
    bucketMask := 2 ^ (k + 1) - 1
    split := 0 }
  have hcontent :
      ((List.range t.bucketMax).map (junk t.blocks.length)).length = 2 ^ t.bucketBit := by
    rw [List.length_map, List.length_range, hpow]
  obtain ⟨hl', hslots⟩ := hl.push (u := t') hbit hsix hcontent
    (by rw [← hpow, ← Int.zero_sub]) rfl
  refine ⟨t', ?_, ⟨rfl, rfl, rfl⟩, ⟨_, B, hl', fun p hp => ?_, ?_⟩, ?_, rfl, hmax⟩
  · simp only [growSetup, malloc, dif_pos hbit, hshift, Option.bind_eq_bind, Option.bind_some]
    rfl
  · have hp' : p < t.bucketMax + 0 := hp
    rw [hslots p (by omega)]
    exact hlinked p (by omega)
  · rw [← hmax] at hd
    exact hd
  · exact ⟨hs.six_le, hk, congrArg (· + 1) hs.bucketBit, rfl, rfl, hs.bucketMax, hs.bucketMask⟩

/-- The start of a growth, if there is one: all buckets that are still to be split are in the low
half. A table that was shrinking turns round where it is. -/
theorem growBegin_spec (h : t.Balanced n) (hcount : t.count = n + 1) (hmax : n + 1 < 2 ^ 29)
    (hstores : t.Stores xs) :
    ∃ t', t.growBegin junk = some t' ∧ SameNodes t t' ∧ t'.Stores xs ∧
      (t'.state ≠ .grow ∧ t'.Balanced (n + 1) ∨
        t'.state = .grow ∧ ∃ k, t'.Sized k (k + 1) ∧ t'.split < t'.lowMax ∧ n ≤ t'.lowMax ∧
          (0 < t'.split ∨ t'.lowMax < 2 * (n + 1)) ∧ 2 * t'.lowMax ≤ 8 * (n + 1)) := by
  cases h with
  | stable k hs hstate hsplit hfull hload =>
    have hbucketMax : t.bucketMax = t.lowMax := hs.bucketMax.trans hs.lowMax.symm
    obtain ⟨m, hm, hmpos⟩ := hs.lowMax_eq
    by_cases hgrow : t.count > t.bucketMax / 2
    · have hk : k < 30 := by
        by_contra hk
        have hpow : 2 ^ 30 ≤ 2 ^ k := Nat.pow_le_pow_right (by decide) (Nat.le_of_not_lt hk)
        have hlow := hs.lowMax
        omega
      obtain ⟨t', hsetup, hsame, hstores', hs', hsplit', hlow'⟩ :=
        growSetup_spec junk hs hk hsplit hstores
      refine ⟨{ t' with state := .grow }, ?_, hsame, hstores'.withState _,
        .inr ⟨rfl, k, hs'.withState _, ?_⟩⟩
      · simp [growBegin, hstate, hgrow, hsetup]
      · change t'.split < t'.lowMax ∧ n ≤ t'.lowMax ∧ _ ∧ 2 * t'.lowMax ≤ _
        refine ⟨by omega, by omega, .inr ?_, by omega⟩
        change t'.lowMax < _
        omega
    · refine ⟨t, by simp [growBegin, hgrow], .refl t, hstores, .inl ⟨by simp [hstate], ?_⟩⟩
      exact .stable k hs hstate hsplit (by omega) (hload.imp_right fun h => by omega)
  | grow k hs hstate hzero hsplit hfull hload =>
    exact ⟨t, by simp [growBegin, hstate], .refl t, hstores,
      .inr ⟨hstate, k, hs, hsplit, by omega, .inl hzero, by omega⟩⟩
  | shrink k hs hstate hzero hsplit hfull hload =>
    have hbucketMax := hs.bucketMax_eq
    by_cases hgrow : t.count > t.bucketMax / 2
    · refine ⟨{ t with state := .grow }, by simp [growBegin, hstate, hgrow], ⟨rfl, rfl, rfl⟩,
        hstores.withState _, .inr ⟨rfl, k, hs.withState _, hsplit, hfull, .inl hzero, ?_⟩⟩
      change 2 * t.lowMax ≤ _
      omega
    · refine ⟨t, by simp [growBegin, hgrow], .refl t, hstores, .inl ⟨by simp [hstate], ?_⟩⟩
      exact .shrink k hs hstate hzero hsplit (by omega) (by omega)

/-- `hashlin_grow_step` after the insertion of an element keeps the contents and brings the sizes
back into balance. -/
theorem growStep_spec [DecidableEq A] (h : t.Balanced n) (hcount : t.count = n + 1)
    (hmax : n + 1 < 2 ^ 29) (hstores : t.Stores xs) :
    ∃ t', t.growStep junk = some t' ∧ SameNodes t t' ∧ t'.Stores xs ∧ t'.Balanced (n + 1) := by
  obtain ⟨t₁, hbegin, hsame₁, hstores₁, hcases⟩ := growBegin_spec junk h hcount hmax hstores
  have hu32 : u32 (2 * t₁.count) = 2 * (n + 1) := by
    rw [hsame₁.1, hcount]
    exact u32_of_lt (by omega)
  simp only [growStep, hbegin, Option.bind_eq_bind, Option.bind_some, hu32]
  rcases hcases with ⟨hstate, hbalanced⟩ | ⟨hstate, k, hs, hsplit, hle, hzero, hload⟩
  · exact ⟨t₁, if_neg hstate, hsame₁, hstores₁, hbalanced⟩
  · obtain ⟨t', ht', hsame, hstores', hend⟩ := growLoop_spec (2 * (n + 1)) hs hstate hsplit hstores₁
    refine ⟨t', (if_pos hstate).trans ht', hsame₁.trans hsame, hstores', ?_⟩
    rcases hend with ⟨hs', hstate', hmono, hsplit', hend⟩ | ⟨hs', hstate', hsplit'⟩
    · have hlow : t'.lowMax = t₁.lowMax := hs'.lowMax.trans hs.lowMax.symm
      exact .grow k hs' hstate' (by omega) hsplit' (by omega) (by omega)
    · have hlow : t'.lowMax = 2 * t₁.lowMax := by rw [hs'.lowMax, hs.lowMax, Nat.pow_succ']
      exact .stable (k + 1) hs' hstate' hsplit' (by omega) (.inr (by omega))

/-! ## After a removal -/

/-- A stable table at the start of a shrinking, where the upper half of the buckets is the one that
is to go. -/
def halved (t : Hashlin A D) : Hashlin A D :=
  { t with
    lowMax := t.bucketMax / 2
    lowMask := t.bucketMask / 2
    split := t.bucketMax / 2
    state := .shrink }

/-- Every bucket of the low half then counts as split, so an element is still found where it was. -/
theorem Stores.halved (hs : t.Sized (k + 1) (k + 1)) (hk : hashlinBit ≤ k) (hsplit : t.split = 0)
    (h : t.Stores xs) : t.halved.Stores xs ∧ t.halved.Sized k (k + 1) := by
  obtain ⟨seg, B, hB⟩ := h
  have hpos : 0 < 2 ^ k := Nat.two_pow_pos k
  have hhalf : t.bucketMax / 2 = 2 ^ k := by
    rw [hs.bucketMax, Nat.pow_succ, Nat.mul_div_cancel _ (by decide)]
  have hlow : t.lowMax = 2 * 2 ^ k := by rw [hs.lowMax, Nat.pow_succ']
  have hmask : t.bucketMask / 2 = 2 ^ k - 1 := by
    rw [hs.bucketMask, Nat.pow_succ]
    omega
  refine ⟨⟨seg, B, hB.layout.congr rfl rfl, fun p hp => ?_, ?_⟩,
    hk, hs.bit_le, hs.bucketBit, hs.bucketMax, hs.bucketMask, hhalf, hmask⟩
  · have hp' : p < t.bucketMax / 2 + t.bucketMax / 2 := hp
    exact hB.linked p (by omega)
  · have hd := hB.distributed
    rw [hsplit, hlow, distributed_two_mul hpos, ← hhalf] at hd
    exact hd

/-- The start of a shrinking, if there is one: there is something to put together. The first segment
is never given back. -/
theorem shrinkBegin_spec (h : t.Balanced (n + 1)) (hcount : t.count = n) (hstores : t.Stores xs) :
    ∃ t', t.shrinkBegin = t' ∧ SameNodes t t' ∧ t'.Stores xs ∧
      (t'.state ≠ .shrink ∧ t'.Balanced n ∨
        t'.state = .shrink ∧ ∃ k, t'.Sized k (k + 1) ∧ 0 < t'.split ∧ t'.split ≤ t'.lowMax ∧
          n ≤ t'.lowMax ∧ t'.lowMax ≤ 8 * n ∧ (t'.split < t'.lowMax ∨ 8 * n < 2 * t'.lowMax)) := by
  cases h with
  | stable k hs hstate hsplit hfull hload =>
    have hbucketMax : t.bucketMax = t.lowMax := hs.bucketMax.trans hs.lowMax.symm
    obtain ⟨m, hm, hmpos⟩ := hs.lowMax_eq
    by_cases hshrink : t.count < t.bucketMax / 8 ∧ t.bucketBit > hashlinBit
    · obtain ⟨hcount', hbit⟩ := hshrink
      rw [hs.bucketBit] at hbit
      obtain ⟨j, rfl⟩ : ∃ j, k = j + 1 := ⟨k - 1, by omega⟩
      obtain ⟨hstores', hs'⟩ := hstores.halved hs (Nat.le_of_lt_succ hbit) hsplit
      have hload' : t.lowMax ≤ 8 * (n + 1) := hload.resolve_left (by omega)
      refine ⟨t.halved, ?_, ⟨rfl, rfl, rfl⟩, hstores', .inr ⟨rfl, j, hs', ?_⟩⟩
      · simp [shrinkBegin, halved, hstate, hcount', hs.bucketBit, hbit]
      · change 0 < t.bucketMax / 2 ∧ t.bucketMax / 2 ≤ t.bucketMax / 2 ∧ n ≤ t.bucketMax / 2 ∧
          t.bucketMax / 2 ≤ 8 * n ∧ (_ ∨ 8 * n < 2 * (t.bucketMax / 2))
        exact ⟨by omega, le_rfl, by omega, by omega, .inr (by omega)⟩
    · refine ⟨t, ?_, .refl t, hstores, .inl ⟨by simp [hstate], ?_⟩⟩
      · rw [shrinkBegin]
        split
        · next hlt => rw [if_neg fun hbit => hshrink ⟨hlt.2, hbit⟩]
        · rfl
      · refine .stable k hs hstate hsplit (by omega) ?_
        have hbit := hs.bucketBit
        have hsix := hs.six_le
        by_cases hk : k = hashlinBit
        · exact .inl hk
        · exact .inr (by omega)
  | grow k hs hstate hzero hsplit hfull hload =>
    have hbucketMax := hs.bucketMax_eq
    obtain ⟨m, hm, hmpos⟩ := hs.lowMax_eq
    have hbit : t.bucketBit > hashlinBit := by
      rw [hs.bucketBit]
      exact Nat.lt_succ_of_le hs.six_le
    by_cases hshrink : t.count < t.bucketMax / 8
    · refine ⟨{ t with state := .shrink }, by simp [shrinkBegin, hstate, hshrink, hbit],
        ⟨rfl, rfl, rfl⟩, hstores.withState _, .inr ⟨rfl, k, hs.withState _, hzero, hsplit.le, ?_⟩⟩
      change n ≤ t.lowMax ∧ t.lowMax ≤ 8 * n ∧ (t.split < t.lowMax ∨ _)
      exact ⟨by omega, by omega, .inl hsplit⟩
    · refine ⟨t, by simp [shrinkBegin, hshrink], .refl t, hstores, .inl ⟨by simp [hstate], ?_⟩⟩
      exact .grow k hs hstate hzero hsplit (by omega) (by omega)
  | shrink k hs hstate hzero hsplit hfull hload =>
    obtain ⟨m, hm, hmpos⟩ := hs.lowMax_eq
    exact ⟨t, by simp [shrinkBegin, hstate], .refl t, hstores,
      .inr ⟨hstate, k, hs, hzero, hsplit.le, by omega, by omega, .inl hsplit⟩⟩

/-- `hashlin_shrink_step` after the removal of an element keeps the contents and brings the sizes
back into balance. -/
theorem shrinkStep_spec [DecidableEq A] (h : t.Balanced (n + 1)) (hcount : t.count = n)
    (hmax : n < 2 ^ 29) (hstores : t.Stores xs) :
    ∃ t', t.shrinkStep = some t' ∧ SameNodes t t' ∧ t'.Stores xs ∧ t'.Balanced n := by
  obtain ⟨t₁, hbegin, hsame₁, hstores₁, hcases⟩ := shrinkBegin_spec h hcount hstores
  have hu32 : u32 (8 * t₁.count) = 8 * n := by
    rw [hsame₁.1, hcount]
    exact u32_of_lt (by omega)
  simp only [shrinkStep, hbegin, hu32]
  rcases hcases with ⟨hstate, hbalanced⟩ | ⟨hstate, k, hs, hzero, hsplit, hle, hload, hroom⟩
  · exact ⟨t₁, if_neg hstate, hsame₁, hstores₁, hbalanced⟩
  · obtain ⟨t', ht', hsame, hstores', hend⟩ :=
      shrinkLoop_spec (8 * n) hs hstate hzero hsplit hstores₁
    refine ⟨t', (if_pos hstate).trans ht', hsame₁.trans hsame, hstores', ?_⟩
    rcases hend with ⟨hs', hstate', hzero', hmono, hend⟩ | ⟨hs', hstate', hsplit', hend⟩
    · have hlow : t'.lowMax = t₁.lowMax := hs'.lowMax.trans hs.lowMax.symm
      exact .shrink k hs' hstate' hzero' (by omega) (by omega) (by omega)
    · have hlow : t'.lowMax = t₁.lowMax := hs'.lowMax.trans hs.lowMax.symm
      exact .stable k hs' hstate' hsplit' (by omega) (.inr (by omega))

end OrbitCache.Tommy.Hashlin
