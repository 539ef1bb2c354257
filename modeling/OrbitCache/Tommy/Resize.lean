import OrbitCache.Lib.LinearHash
import OrbitCache.Tommy.Segments

/-!
# Reallocation

One step of `hashlin_grow_step` and `hashlin_shrink_step` splits a bucket or puts two together.
-/

namespace OrbitCache.Tommy.Hashlin

open Links LinearHash

variable {A D : Type} {t : Hashlin A D} {bit : Nat} {seg : Nat → Nat} {l : List A} {x : A}

/-- Other links of the nodes leave the segments as they are. -/
theorem Layout.withLinks (h : Layout t bit seg) (links : Links A) :
    Layout { t with links } bit seg := h.congr rfl rfl

variable [DecidableEq A]

/-! ## Flushing a bucket -/

/-- The bit of a node's key that a flush looks at: whether the node goes to the upper of the two
buckets. -/
def maskBit (key : A → BitVec 32) (mask : Nat) (x : A) : Bool := (key x).toNat &&& mask ≠ 0

section
variable {P : Bool → Nat} {ptr : Bool → SlotPtr} {L : Bool → List A} (mask : Nat) {j : Option A}

/-- The first node of the rest goes to the end of the bucket of its bit, and the other bucket stays.
-/
theorem flush_some (hl : Layout t bit seg) (hP : ∀ c, P c < 2 ^ bit)
    (hptr : ∀ c, t.pos (P c) = some (ptr c))
    (hL : Linked t.links (t.slotAt (P (maskBit t.key mask x))) l) (hx : x ∉ l) :
    ∃ blocks links,
      t.flush (ptr false) (ptr true) mask (some x) =
        flush (ptr false) (ptr true) mask (t.links.next x) { t with blocks, links } ∧
      Layout { t with blocks, links } bit seg ∧
      (∀ q < 2 ^ bit, q ≠ P (maskBit t.key mask x) →
        slotAt { t with blocks, links } q = t.slotAt q) ∧
      Linked links (slotAt { t with blocks, links } (P (maskBit t.key mask x))) (l ++ [x]) ∧
      ∀ z, z ∉ l → z ≠ x → SameAt t.links links z := by
  have hc := hP (maskBit t.key mask x)
  have hpos := hptr (maskBit t.key mask x)
  have hload := hl.load hc hpos
  have hsplit : (if (t.key x).toNat &&& mask ≠ 0 then ptr true else ptr false) =
      ptr (maskBit t.key mask x) := by
    rw [maskBit]
    split <;> simp_all
  rw [flush]
  simp only [hsplit, hload, Option.bind_eq_bind, Option.bind_some]
  cases hslot : t.slotAt (P (maskBit t.key mask x)) with
  | some head =>
    rw [hslot] at hL
    obtain ⟨links, hinsert, hlinked, hsame⟩ := listInsertTailNotEmpty_linked hL hx
    refine ⟨t.blocks, links, ?_, hl.withLinks links, fun _ _ _ => rfl, ?_, hsame⟩
    · simp only [hinsert, Option.bind_some]
    · have hslot' : slotAt { t with links } (P (maskBit t.key mask x)) = some head := hslot
      rw [hslot']
      exact hlinked
  | none =>
    rw [hslot] at hL
    obtain rfl : l = [] := List.head?_eq_none_iff.mp hL.head.symm
    obtain ⟨blocks, hstore, hl', hslots⟩ :=
      (hl.withLinks (listInsertFirst t.links x).1).store hc hpos (listInsertFirst t.links x).2
    refine ⟨blocks, _, ?_, hl', fun q hq hne => ?_, ?_, fun z _ hz => listInsertFirst_sameAt _ hz⟩
    · simp only [hstore, Option.bind_some]
    · rw [hslots q hq, if_neg hne]
      rfl
    · rw [hslots _ hc, if_pos rfl]
      exact listInsertFirst_linked t.links x

/-- The nodes that `j` leads to are all put behind the nodes of the two buckets, each in its own and
in their order. The induction is on the list of nodes, with what the two buckets hold as the
invariant. -/
theorem flush_spec (hl : Layout t bit seg) (hP : ∀ c, P c < 2 ^ bit) (hne : P false ≠ P true)
    (hptr : ∀ c, t.pos (P c) = some (ptr c)) (hj : Follows t.links j l)
    (hL : ∀ c, Linked t.links (t.slotAt (P c)) (L c)) (hnodup : l.Nodup)
    (hdisj : ∀ c, l.Disjoint (L c)) (hLdisj : ∀ c, (L c).Disjoint (L !c)) :
    ∃ blocks links,
      t.flush (ptr false) (ptr true) mask j = some { t with blocks, links } ∧
      Layout { t with blocks, links } bit seg ∧
      (∀ q < 2 ^ bit, (∀ c, q ≠ P c) → slotAt { t with blocks, links } q = t.slotAt q) ∧
      (∀ c, Linked links (slotAt { t with blocks, links } (P c))
        (L c ++ l.filter (maskBit t.key mask · = c))) ∧
      ∀ z, z ∉ l → (∀ c, z ∉ L c) → SameAt t.links links z := by
  induction l generalizing t j L with
  | nil =>
    obtain rfl : j = none := by
      cases hj
      rfl
    refine ⟨t.blocks, t.links, by rw [flush], hl, fun _ _ _ => rfl, fun c => ?_,
      fun z _ _ => .refl _ z⟩
    rw [List.filter_nil, List.append_nil]
    exact hL c
  | cons x l ih =>
    obtain ⟨hxl, hnodup⟩ := List.nodup_cons.mp hnodup
    have hxL : ∀ c, x ∉ L c := fun c => (List.disjoint_cons_left.mp (hdisj c)).1
    obtain ⟨hj, hfollows⟩ : j = some x ∧ Follows t.links (t.links.next x) l := by
      cases hj with
      | cons h => exact ⟨rfl, h⟩
    subst hj
    obtain ⟨blocks, links, hflush, hl', hslots, hlinked, hsame⟩ :=
      flush_some mask hl hP hptr (hL _) (hxL _)
    have hPne : ∀ c, c ≠ maskBit t.key mask x → P c ≠ P (maskBit t.key mask x) := by
      intro c hc
      cases hc' : maskBit t.key mask x <;> cases c <;> simp_all [Ne.symm]
    -- the node is now the last of its bucket
    have hL' : ∀ c, Linked links (slotAt { t with blocks, links } (P c))
        (if c = maskBit t.key mask x then L c ++ [x] else L c) := by
      intro c
      split
      · next hc =>
        rw [hc]
        exact hlinked
      · next hc =>
        rw [hslots _ (hP c) (hPne c hc)]
        have hc' : c = !maskBit t.key mask x := by
          cases c <;> cases h : maskBit t.key mask x <;> simp_all
        refine (hL c).congr fun z hz => hsame z (fun hz' => ?_) fun heq => hxL c (heq ▸ hz)
        exact hLdisj _ hz' (hc' ▸ hz)
    have hmem : ∀ c z, z ∈ (if c = maskBit t.key mask x then L c ++ [x] else L c) →
        z ∈ L c ∨ z = x := by
      intro c z hz
      split at hz
      · simpa using hz
      · exact .inl hz
    have hdisj' : ∀ c, l.Disjoint (if c = maskBit t.key mask x then L c ++ [x] else L c) := by
      intro c z hz hzL
      rcases hmem c z hzL with hzL | rfl
      · exact hdisj c (List.mem_cons_of_mem x hz) hzL
      · exact hxl hz
    have hLdisj' : ∀ c, (if c = maskBit t.key mask x then L c ++ [x] else L c).Disjoint
        (if (!c) = maskBit t.key mask x then L (!c) ++ [x] else L !c) := by
      intro c z hz hz'
      by_cases hc : c = maskBit t.key mask x
      · rw [if_neg (by cases c <;> simp_all)] at hz'
        rcases hmem c z hz with hz | rfl
        · exact hLdisj c hz hz'
        · exact hxL _ hz'
      · rw [if_neg hc] at hz
        rcases hmem _ z hz' with hz' | rfl
        · exact hLdisj c hz hz'
        · exact hxL _ hz
    obtain ⟨blocks', links', hflush', hl'', hslots', hlinked', hsame'⟩ :=
      ih hl' hptr (hfollows.congr fun z hz =>
        hsame z (fun hzL => hdisj _ (List.mem_cons_of_mem x hz) hzL)
          (ne_of_mem_of_not_mem hz hxl)) hL' hnodup hdisj' hLdisj'
    refine ⟨blocks', links', hflush.trans hflush', hl'', fun q hq hqP => ?_, fun c => ?_,
      fun z hz hzL => ?_⟩
    · exact (hslots' q hq hqP).trans (hslots q hq (hqP _))
    · have hc := hlinked' c
      rw [List.filter_cons]
      split at hc
      · next heq =>
        rw [if_pos (by simp [heq])]
        rwa [List.append_assoc] at hc
      · next heq =>
        rw [if_neg (by simpa using Ne.symm heq)]
        exact hc
    · have hzx : z ≠ x := List.ne_of_not_mem_cons hz
      refine (hsame z (hzL _) hzx).trans
        (hsame' z (List.not_mem_of_not_mem_cons hz) fun c hzc => ?_)
      rcases hmem c z hzc with hzc | heq
      · exact hzL c hzc
      · exact hzx heq

end

/-! ## The buckets in use -/

/-- The sizes and masks, with `2 ^ k` buckets in the low half and segments for `2 ^ bit` of them.
While the table is resized `bit` is `k + 1`, and otherwise `k`. -/
structure Sized (t : Hashlin A D) (k bit : Nat) : Prop where
  six_le : hashlinBit ≤ k
  bit_le : bit ≤ 30
  bucketBit : t.bucketBit = bit
  bucketMax : t.bucketMax = 2 ^ bit
  bucketMask : t.bucketMask = 2 ^ bit - 1
  lowMax : t.lowMax = 2 ^ k
  lowMask : t.lowMask = 2 ^ k - 1

/-- The buckets in use are the lists `B`, which hold the nodes `xs`: each node is in the bucket of
its hash, and a bucket has its nodes in the order of their insertion. -/
structure Holds (t : Hashlin A D) (seg : Nat → Nat) (B : Nat → List A) (xs : List A) : Prop where
  layout : Layout t t.bucketBit seg
  linked : ∀ p < t.lowMax + t.split, Linked t.links (t.slotAt p) (B p)
  distributed : Distributed (fun x => (t.key x).toNat) t.lowMax t.split B xs

variable {k n s : Nat} {B : Nat → List A} {xs : List A}

/-- Where the split of the bucket `s` puts the nodes with the bit `c`, in the low half or in the
upper one. -/
def half (s n : Nat) (c : Bool) : Nat := if c then s + n else s

/-- Nodes without the bit stay in the low bucket. -/
@[simp] theorem half_false : half s n false = s := rfl

/-- Nodes with the bit go to the bucket as far behind as there are buckets in the low half. -/
@[simp] theorem half_true : half s n true = s + n := rfl

/-- The mask of a flush is a power of two, so it tests one bit. -/
theorem and_two_pow_ne_zero {n k : Nat} : n &&& 2 ^ k ≠ 0 ↔ n.testBit k := by
  constructor
  · intro h
    obtain ⟨i, hi⟩ := Nat.exists_testBit_of_ne_zero h
    rw [Nat.testBit_and, Bool.and_eq_true, Nat.testBit_two_pow, decide_eq_true_eq] at hi
    exact hi.2 ▸ hi.1
  · intro h h0
    have hbit : (n &&& 2 ^ k).testBit k = true := by
      rw [Nat.testBit_and, h, Nat.testBit_two_pow_self]
      rfl
    rw [h0, Nat.zero_testBit] at hbit
    cases hbit

omit [DecidableEq A] in
/-- That bit is the one by which the address of a split bucket is refined. -/
theorem maskBit_two_pow (key : A → BitVec 32) (k : Nat) (x : A) :
    maskBit key (2 ^ k) x = high (2 ^ k) (key x).toNat := by
  rw [maskBit, high, ← Nat.testBit_eq_decide_div_mod_eq]
  simp only [and_two_pow_ne_zero, Bool.decide_eq_true]

/-- One round of the loop of `hashlin_grow_step` splits the next bucket, and the table holds the
same nodes in their new buckets. -/
theorem splitBucket_spec (hs : t.Sized k (k + 1)) (hsplit : t.split < t.lowMax)
    (h : t.Holds seg B xs) :
    ∃ blocks links, t.splitBucket = some { t with blocks, links, split := t.split + 1 } ∧
      Holds { t with blocks, links, split := t.split + 1 } seg
        (splitAt (fun x => (t.key x).toNat) t.lowMax t.split B) xs := by
  have hl := h.layout
  have hd := h.distributed
  have hroom : 2 ^ t.bucketBit = t.lowMax + t.lowMax := by
    rw [hs.bucketBit, hs.lowMax, Nat.pow_succ, Nat.mul_two]
  have hbound : 2 ^ t.bucketBit ≤ 2 ^ 30 :=
    Nat.pow_le_pow_right (by decide) (hs.bucketBit ▸ hs.bit_le)
  have hu32 : u32 (t.split + t.lowMax) = t.split + t.lowMax := u32_of_lt (by omega)
  have hu32' : u32 (t.split + 1) = t.split + 1 := u32_of_lt (by omega)
  have hlow : t.split < 2 ^ t.bucketBit := by omega
  have hhigh : t.split + t.lowMax < 2 ^ t.bucketBit := by omega
  have hne : t.split ≠ t.split + t.lowMax := by omega
  have hlinked := h.linked t.split (by omega)
  obtain ⟨blocks₁, hstore₁, hl₁, hslots₁⟩ := hl.store hlow (hl.pos_eq hlow) none
  obtain ⟨blocks₂, hstore₂, hl₂, hslots₂⟩ := hl₁.store hhigh (hl.pos_eq hhigh) none
  have hP : ∀ c, half t.split t.lowMax c < 2 ^ t.bucketBit := by
    intro c
    cases c
    · exact hlow
    · exact hhigh
  -- both buckets are empty before the nodes of the low one are put back
  have hempty : ∀ c, Linked t.links
      (slotAt { t with blocks := blocks₂ } (half t.split t.lowMax c)) [] := by
    intro c
    rw [linked_nil, hslots₂ _ (hP c)]
    cases c
    · rw [half_false, if_neg hne, hslots₁ _ hlow, if_pos rfl]
    · rw [half_true, if_pos rfl]
  obtain ⟨blocks, links, hflush, hl₃, hslots₃, hlinked₃, hsame⟩ :=
    flush_spec (t := { t with blocks := blocks₂ }) t.lowMax hl₂ hP hne
      (fun c => hl.pos_eq (hP c)) hlinked.follows hempty hlinked.nodup
      (fun c => List.disjoint_nil_right _) (fun c => List.disjoint_nil_left _)
  refine ⟨blocks, links, ?_, ?_⟩
  · simp only [splitBucket, hu32, hl.pos_eq hlow, hl.pos_eq hhigh, Option.bind_eq_bind,
      Option.bind_some, hl.load hlow (hl.pos_eq hlow), hstore₁, hstore₂]
    rw [half_false, half_true] at hflush
    rw [hflush]
    simp only [Option.bind_some, hu32']
    rfl
  · have hbit : ∀ x, maskBit t.key t.lowMax x = high t.lowMax (t.key x).toNat := by
      intro x
      rw [hs.lowMax]
      exact maskBit_two_pow t.key k x
    have hlinks : ∀ p, p < t.lowMax + (t.split + 1) →
        Linked links (slotAt { t with blocks, links } p)
          (splitAt (fun x => (t.key x).toNat) t.lowMax t.split B p) := by
      intro p hp
      rw [splitAt]
      split
      · next hps =>
        have hlink := hlinked₃ true
        rw [hps]
        simpa [← hbit] using hlink
      · next hps =>
        split
        · next hps' =>
          have hlink := hlinked₃ false
          rw [hps']
          simpa [← hbit] using hlink
        · next hps' =>
          have hpP : ∀ c, p ≠ half t.split t.lowMax c := by
            intro c
            cases c
            · exact hps'
            · exact hps
          have hp' : p < 2 ^ t.bucketBit := by omega
          have hslot := hslots₃ p hp' hpP
          rw [hslots₂ p hp', if_neg hps, hslots₁ p hp', if_neg hps'] at hslot
          have hslot' : slotAt { t with blocks, links } p = t.slotAt p := hslot
          rw [hslot']
          refine (h.linked p (by omega)).congr fun z hz => hsame z ?_ fun c => List.not_mem_nil
          exact fun hz' => hd.disjoint hps' hz hz'
    exact ⟨hl₃.congr rfl rfl, hlinks, hd.split hsplit⟩

/-- The table holds the nodes `xs`, wherever its segments and buckets are. -/
def Stores (t : Hashlin A D) (xs : List A) : Prop := ∃ seg B, t.Holds seg B xs

/-- What a reallocation leaves as it is: the number of the nodes, their data and their hashes. -/
def SameNodes (t t' : Hashlin A D) : Prop := t'.count = t.count ∧ t'.data = t.data ∧ t'.key = t.key

omit [DecidableEq A] in
/-- Nothing was reallocated. -/
theorem SameNodes.refl (t : Hashlin A D) : SameNodes t t := ⟨rfl, rfl, rfl⟩

omit [DecidableEq A] in
/-- One reallocation after another. -/
theorem SameNodes.trans {t t' t'' : Hashlin A D} (h : SameNodes t t') (h' : SameNodes t' t'') :
    SameNodes t t'' :=
  ⟨h'.1.trans h.1, h'.2.1.trans h.2.1, h'.2.2.trans h.2.2⟩

omit [DecidableEq A] in
/-- When every bucket has been split, the table is in the stable state with twice as many: the
larger mask then addresses every node where the split has put it. -/
theorem Holds.grown (h : t.Holds seg B xs) (hs : t.Sized k (k + 1)) (hsplit : t.split = t.lowMax) :
    t.stable.Holds seg B xs ∧ t.stable.Sized (k + 1) (k + 1) := by
  have hmax : t.bucketMax = 2 * t.lowMax := by rw [hs.bucketMax, hs.lowMax, Nat.pow_succ']
  refine ⟨⟨h.layout.congr rfl rfl, fun p hp => ?_, ?_⟩, ?_⟩
  · have hp' : p < t.bucketMax + 0 := hp
    exact h.linked p (by omega)
  · have hd := h.distributed
    rw [hsplit] at hd
    have hpos : 0 < t.lowMax := by
      rw [hs.lowMax]
      exact Nat.two_pow_pos k
    rw [← distributed_two_mul hpos, ← hmax] at hd
    exact hd
  · exact ⟨hs.six_le.trans (Nat.le_succ k), hs.bit_le, hs.bucketBit, hs.bucketMax, hs.bucketMask,
      hs.bucketMax, hs.bucketMask⟩

/-- The loop of `hashlin_grow_step` ends at the split target, or when every bucket is split. In both
cases the nodes are the same. The induction is on the number of buckets that are still to be split.
-/
theorem growLoop_spec (target : Nat) (hs : t.Sized k (k + 1)) (hstate : t.state = .grow)
    (hsplit : t.split < t.lowMax) (h : t.Stores xs) :
    ∃ t', t.growLoop target = some t' ∧ SameNodes t t' ∧ t'.Stores xs ∧
      (t'.Sized k (k + 1) ∧ t'.state = .grow ∧ t.split ≤ t'.split ∧ t'.split < t'.lowMax ∧
          target ≤ t'.split + t'.lowMax ∨
        t'.Sized (k + 1) (k + 1) ∧ t'.state = .stable ∧ t'.split = 0) := by
  induction hd : t.lowMax - t.split generalizing t with
  | zero => omega
  | succ d ih =>
    obtain ⟨seg, B, hB⟩ := h
    have hroom : 2 ^ (k + 1) = t.lowMax + t.lowMax := by rw [hs.lowMax, Nat.pow_succ, Nat.mul_two]
    have hbound : 2 ^ (k + 1) ≤ 2 ^ 30 := Nat.pow_le_pow_right (by decide) hs.bit_le
    have hu32 : u32 (t.split + t.lowMax) = t.split + t.lowMax := u32_of_lt (by omega)
    rw [growLoop, hu32]
    split
    · obtain ⟨blocks, links, hbody, hB'⟩ := splitBucket_spec hs hsplit hB
      have hs' : Sized { t with blocks, links, split := t.split + 1 } k (k + 1) :=
        ⟨hs.six_le, hs.bit_le, hs.bucketBit, hs.bucketMax, hs.bucketMask, hs.lowMax, hs.lowMask⟩
      simp only [hbody, Option.bind_eq_bind, Option.bind_some]
      split
      · next hfull =>
        obtain ⟨hstable, hsized⟩ := hB'.grown hs' hfull
        exact ⟨_, rfl, ⟨rfl, rfl, rfl⟩, ⟨seg, _, hstable⟩, .inr ⟨hsized, rfl, rfl⟩⟩
      · next hfull =>
        have hlt : t.split + 1 < t.lowMax := Nat.lt_of_le_of_ne hsplit hfull
        have hd' : t.lowMax - (t.split + 1) = d := by omega
        obtain ⟨t', ht', hsame, hstores, hend⟩ :=
          ih (t := { t with blocks, links, split := t.split + 1 }) hs' hstate hlt ⟨seg, _, hB'⟩ hd'
        refine ⟨t', ht', hsame, hstores, hend.imp_left ?_⟩
        rintro ⟨hs', hstate', hle, hend⟩
        exact ⟨hs', hstate', (Nat.le_succ _).trans hle, hend⟩
    · next hdone =>
      exact ⟨t, rfl, .refl t, ⟨seg, B, hB⟩,
        .inl ⟨hs, hstate, le_rfl, hsplit, Nat.le_of_not_lt hdone⟩⟩

/-! ## Merging buckets -/

/-- The predecessor does not wrap except at 0. -/
theorem u32Pred_of_pos {n : Nat} (h : 0 < n) (hn : n < 2 ^ 32) : u32Pred n = n - 1 := by
  rw [u32Pred, u32]
  omega

/-- The shift does not overflow for a table of at most 2 ^ 30 buckets. -/
theorem shiftOne_of_lt {n : Nat} (h : n < 31) : shiftOne n = some (2 ^ n) := by
  rw [shiftOne, if_pos h, Nat.one_shiftLeft]

/-- One round of the loop of `hashlin_shrink_step` puts the last split back together; the nodes of
the upper bucket follow those of the lower one. -/
theorem mergeBuckets_spec (hs : t.Sized k (k + 1)) (hzero : 0 < t.split)
    (hsplit : t.split ≤ t.lowMax) (h : t.Holds seg B xs) :
    ∃ blocks links, t.mergeBuckets = some { t with blocks, links, split := t.split - 1 } ∧
      Holds { t with blocks, links, split := t.split - 1 } seg
        (mergeAt t.lowMax (t.split - 1) B) xs := by
  have hl := h.layout
  obtain ⟨s, hss⟩ : ∃ s, t.split = s + 1 := ⟨t.split - 1, by omega⟩
  have hroom : 2 ^ t.bucketBit = t.lowMax + t.lowMax := by
    rw [hs.bucketBit, hs.lowMax, Nat.pow_succ, Nat.mul_two]
  have hbound : 2 ^ t.bucketBit ≤ 2 ^ 30 :=
    Nat.pow_le_pow_right (by decide) (hs.bucketBit ▸ hs.bit_le)
  have hpred : u32Pred t.split = s := by
    rw [u32Pred_of_pos hzero (by omega), hss, Nat.add_sub_cancel]
  have hu32 : u32 (s + t.lowMax) = s + t.lowMax := u32_of_lt (by omega)
  have hlow : s < 2 ^ t.bucketBit := by omega
  have hhigh : s + t.lowMax < 2 ^ t.bucketBit := by omega
  have hd := h.distributed
  rw [hss] at hd
  obtain ⟨links, list, hconcat, hlinked, hsame⟩ := listConcat_linked (h.linked s (by omega))
    (h.linked (s + t.lowMax) (by omega)) (hd.disjoint (by omega))
  have hl' : Layout { t with split := s, links } t.bucketBit seg := hl.congr rfl rfl
  obtain ⟨blocks, hstore, hl'', hslots⟩ := hl'.store hlow (hl.pos_eq hlow) list
  have hsub : t.split - 1 = s := by omega
  rw [hsub]
  refine ⟨blocks, links, ?_, hl''.congr rfl rfl, fun p hp => ?_, hd.merge (by omega)⟩
  · have hpos : ∀ p, pos { t with split := s } p = t.pos p := fun _ => rfl
    have hload : ∀ p, load { t with split := s } p = t.load p := fun _ => rfl
    simp only [mergeBuckets, hpred, hpos, hload, hu32, hl.pos_eq hlow, hl.pos_eq hhigh,
      hl.load hlow (hl.pos_eq hlow), hl.load hhigh (hl.pos_eq hhigh), hconcat, Option.bind_eq_bind,
      Option.bind_some]
    exact hstore
  · have hp' : p < t.lowMax + s := hp
    have hslot : slotAt { t with blocks, links, split := s } p =
        if p = s then list else t.slotAt p := hslots p (by omega)
    rw [mergeAt, if_neg (by omega), hslot]
    split
    · exact hlinked
    · next hps =>
      refine (h.linked p (by omega)).congr fun z hz => hsame z ?_ ?_
      · exact fun hz' => hd.disjoint hps hz hz'
      · exact fun hz' => hd.disjoint (by omega) hz hz'

omit [DecidableEq A] in
/-- When no split is left, the last segment is given back, and no bucket in use was in it. -/
theorem shrinkFinish_spec (hs : t.Sized k (k + 1)) (hsplit : t.split = 0) (h : t.Holds seg B xs) :
    ∃ t', t.shrinkFinish = some t' ∧ SameNodes t t' ∧ t'.Stores xs ∧ t'.Sized k k ∧
      t'.state = .stable ∧ t'.split = 0 := by
  have hl := h.layout
  rw [hs.bucketBit] at hl
  have hbit := hs.bit_le
  have hpred : u32Pred t.bucketBit = k := by
    rw [hs.bucketBit, u32Pred_of_pos (Nat.succ_pos k) (by omega)]
    rfl
  obtain ⟨segment, hsegment, hfree⟩ := hl.free hs.six_le
  have hd := h.distributed
  rw [hsplit, hs.lowMax] at hd
  have hlinked := h.linked
  rw [hsplit, hs.lowMax] at hlinked
  have hshift : shiftOne k = some (2 ^ k) := shiftOne_of_lt (by omega)
  refine ⟨stable { t with
      blocks := t.blocks.set (seg k) none
      bucketBit := k
      bucketMax := 2 ^ k
      bucketMask := 2 ^ k - 1 }, ?_, ⟨rfl, rfl, rfl⟩, ⟨seg, B, ?_⟩,
    ⟨hs.six_le, by omega, rfl, rfl, rfl, rfl, rfl⟩, rfl, rfl⟩
  · simp only [shrinkFinish, hpred, hshift, hsegment, hfree, Option.bind_eq_bind, Option.bind_some]
    rfl
  · obtain ⟨hl', hslots⟩ := hl.pop (u := stable { t with
      blocks := t.blocks.set (seg k) none
      bucketBit := k
      bucketMax := 2 ^ k
      bucketMask := 2 ^ k - 1 }) hs.six_le rfl rfl
    refine ⟨hl', fun p hp => ?_, hd⟩
    have hp' : p < 2 ^ k + 0 := hp
    rw [hslots p hp']
    exact hlinked p hp'

/-- The loop of `hashlin_shrink_step` ends at the split target, or when no split is left. In both
cases the nodes are the same. The induction is on the split. -/
theorem shrinkLoop_spec (target : Nat) (hs : t.Sized k (k + 1)) (hstate : t.state = .shrink)
    (hzero : 0 < t.split) (hsplit : t.split ≤ t.lowMax) (h : t.Stores xs) :
    ∃ t', t.shrinkLoop target = some t' ∧ SameNodes t t' ∧ t'.Stores xs ∧
      (t'.Sized k (k + 1) ∧ t'.state = .shrink ∧ 0 < t'.split ∧ t'.split ≤ t.split ∧
          t'.split + t'.lowMax ≤ target ∨
        t'.Sized k k ∧ t'.state = .stable ∧ t'.split = 0 ∧ target ≤ t'.lowMax) := by
  induction hd : t.split generalizing t with
  | zero => omega
  | succ d ih =>
    obtain ⟨seg, B, hB⟩ := h
    have hroom : 2 ^ (k + 1) = t.lowMax + t.lowMax := by rw [hs.lowMax, Nat.pow_succ, Nat.mul_two]
    have hbound : 2 ^ (k + 1) ≤ 2 ^ 30 := Nat.pow_le_pow_right (by decide) hs.bit_le
    have hu32 : u32 (t.split + t.lowMax) = t.split + t.lowMax := u32_of_lt (by omega)
    rw [shrinkLoop, hu32]
    split
    · obtain ⟨blocks, links, hbody, hB'⟩ := mergeBuckets_spec hs hzero hsplit hB
      have hs' : Sized { t with blocks, links, split := t.split - 1 } k (k + 1) :=
        ⟨hs.six_le, hs.bit_le, hs.bucketBit, hs.bucketMax, hs.bucketMask, hs.lowMax, hs.lowMask⟩
      simp only [hbody, Option.bind_eq_bind, Option.bind_some]
      split
      · next hempty =>
        obtain ⟨t', ht', hsame, hstores, hs', hstate', hsplit'⟩ := shrinkFinish_spec hs' hempty hB'
        have hempty' : t.split - 1 = 0 := hempty
        refine ⟨t', ht', hsame, hstores, .inr ⟨hs', hstate', hsplit', ?_⟩⟩
        rw [hs'.lowMax, ← hs.lowMax]
        omega
      · next hempty =>
        have hd' : t.split - 1 = d := by omega
        have hle : t.split - 1 ≤ t.lowMax := by omega
        obtain ⟨t', ht', hsame, hstores, hend⟩ :=
          ih (t := { t with blocks, links, split := t.split - 1 }) hs' hstate
            (Nat.pos_of_ne_zero hempty) hle ⟨seg, _, hB'⟩ hd'
        refine ⟨t', ht', hsame, hstores, hend.imp_left ?_⟩
        rintro ⟨hs', hstate', hzero', hle', hend⟩
        exact ⟨hs', hstate', hzero', hle'.trans (Nat.le_succ d), hend⟩
    · next hdone =>
      exact ⟨t, rfl, .refl t, ⟨seg, B, hB⟩,
        .inl ⟨hs, hstate, hzero, hd.le, Nat.le_of_not_lt hdone⟩⟩

end OrbitCache.Tommy.Hashlin
