import Mathlib.Algebra.Order.Group.Nat
import OrbitCache.Tommy.Hashlin

/-!
# The segments of the table

Where `tommy_hashlin_pos` leads. `Layout` says which block each of the first pointers of `bucket`
points into: the first six into the one segment of 64 places, the others into one of their own, and
no block is in use beside these. Then every position below `2 ^ bucket_bit` is a place of its own
(`Layout.load`, `Layout.store`), and a segment can be added behind the last (`Layout.push`) or taken
away again (`Layout.pop`).
-/

namespace OrbitCache.Tommy

/-! ## The highest bit -/

/-- A number that fits is the value it is. -/
theorem u32_of_lt {n : Nat} (h : n < 2 ^ 32) : u32 n = n := Nat.mod_eq_of_lt h

/-- `tommy_ilog2_u32` is the logarithm, for what fits. -/
theorem ilog2U32_eq {value : Nat} (h : value < 2 ^ 32) : ilog2U32 value = value.log2 := by
  have hlt : value.log2 < 32 := by
    by_cases hz : value = 0
    · simp [hz]
    · exact (Nat.log2_lt hz).mpr h
  have hxor : ∀ k < 32, (31 - k) ^^^ 31 = k := by decide
  exact hxor _ hlt

/-- The segment of a position: the entry of `bucket` that `tommy_hashlin_pos` takes. -/
def segIndex (pos : Nat) : Nat := (pos ||| 1).log2

/-- The first position that `bucket[i]` is used for, where it does not share a segment. The first
six entries share one. -/
def segBase (i : Nat) : Nat := if i < hashlinBit then 0 else 2 ^ i

/-- The size of the segment that `bucket[i]` is used for. Each is as large as all those in front of
it. -/
def segSize (i : Nat) : Nat := if i < hashlinBit then 2 ^ hashlinBit else 2 ^ i

variable {bit i p q : Nat}

/-- A position below `2 ^ bit` has one of the first `bit` entries. -/
theorem segIndex_lt (hbit : 0 < bit) (hp : p < 2 ^ bit) : segIndex p < bit := by
  have hor : p ||| 1 < 2 ^ bit := Nat.or_lt_two_pow hp (Nat.one_lt_two_pow hbit.ne')
  have hne : p ||| 1 ≠ 0 := by
    have hle : 1 ≤ p ||| 1 := Nat.right_le_or
    omega
  exact (Nat.log2_lt hne).mpr hor

/-- A position is below twice the power of two that its segment starts at. -/
theorem lt_two_pow_segIndex (p : Nat) : p < 2 ^ (segIndex p + 1) :=
  Nat.lt_of_le_of_lt Nat.left_le_or Nat.lt_log2_self

/-- And it is not below that power, except with the first entry. -/
theorem two_pow_segIndex_le (h : 0 < segIndex p) : 2 ^ segIndex p ≤ p := by
  by_contra hlt
  have hself := segIndex_lt h (Nat.lt_of_not_le hlt)
  exact Nat.lt_irrefl _ hself

/-- A position is not before its segment. -/
theorem segBase_le (p : Nat) : segBase (segIndex p) ≤ p := by
  rw [segBase]
  split
  · exact Nat.zero_le p
  · next h => exact two_pow_segIndex_le (Nat.zero_lt_of_lt (Nat.le_of_not_lt h))

/-- A position is a place of its segment, and not behind the end of it. -/
theorem sub_segBase_lt (p : Nat) : p - segBase (segIndex p) < segSize (segIndex p) := by
  have hlt := lt_two_pow_segIndex p
  rw [segBase, segSize]
  split
  · next h =>
    have hpow : 2 ^ (segIndex p + 1) ≤ 2 ^ hashlinBit := Nat.pow_le_pow_right (by decide) h
    omega
  · rw [Nat.pow_succ] at hlt
    omega

namespace Hashlin

variable {A D : Type} {t t' u : Hashlin A D} {seg : Nat → Nat} {ptr : SlotPtr}

/-- The pointers below `bit` point into the blocks `seg`, and no other block is in use: every
segment was allocated once and has not been freed. -/
structure Layout (t : Hashlin A D) (bit : Nat) (seg : Nat → Nat) : Prop where
  bit_pos : 0 < bit
  bit_le : bit ≤ hashlinBitMax
  first : ∀ i < hashlinBit, seg i = seg 0
  bucket_eq : ∀ i < bit, t.bucket[i]?.join = some ⟨seg i, -segBase i⟩
  block : ∀ i < bit, ∃ b, t.blocks[seg i]? = some (some b) ∧ b.length = segSize i
  base_eq : ∀ i < bit, ∀ j < bit, seg i = seg j → segBase i = segBase j
  in_use : ∀ k b, t.blocks[k]? = some (some b) → ∃ i < bit, seg i = k

/-- The pointer to a position, in the block of its segment. -/
def slotPtr (seg : Nat → Nat) (p : Nat) : SlotPtr :=
  ⟨seg (segIndex p), (p - segBase (segIndex p) : Nat)⟩

/-- The pointer at a position, which is the head of the bucket there. -/
def slotAt (t : Hashlin A D) (p : Nat) : Option A := (do t.load (← t.pos p)).join

namespace Layout

variable (hl : Layout t bit seg)
include hl

/-- The layout is a matter of `bucket` and the blocks alone. -/
theorem congr (hbucket : t'.bucket = t.bucket) (hblocks : t'.blocks = t.blocks) :
    Layout t' bit seg where
  bit_pos := hl.bit_pos
  bit_le := hl.bit_le
  first := hl.first
  bucket_eq := by rw [hbucket]; exact hl.bucket_eq
  block := by rw [hblocks]; exact hl.block
  base_eq := hl.base_eq
  in_use := by rw [hblocks]; exact hl.in_use

/-- `tommy_hashlin_pos` leads to the block of the segment, since what the pointer was set back by is
added again. -/
theorem pos_eq (hp : p < 2 ^ bit) : t.pos p = some (slotPtr seg p) := by
  have hlt : p < 2 ^ 32 := hp.trans_le (Nat.pow_le_pow_right (by decide) hl.bit_le)
  have hor : p ||| 1 < 2 ^ 32 := Nat.or_lt_two_pow hlt (by decide)
  have hbase := segBase_le p
  have hoffset : -(segBase (segIndex p) : Int) + p = ((p - segBase (segIndex p) : Nat) : Int) := by
    omega
  have hbucket := hl.bucket_eq _ (segIndex_lt hl.bit_pos hp)
  rw [segIndex] at hbucket hoffset
  simp [pos, slotPtr, segIndex, ilog2U32_eq hor, hbucket, hoffset]

/-- The block is in use, and the place is in it. -/
theorem exists_block (hp : p < 2 ^ bit) :
    ∃ b, t.blocks[seg (segIndex p)]? = some (some b) ∧ p - segBase (segIndex p) < b.length := by
  obtain ⟨b, hb, hlen⟩ := hl.block _ (segIndex_lt hl.bit_pos hp)
  exact ⟨b, hb, hlen ▸ sub_segBase_lt p⟩

omit hl in
/-- What is read there is what the block has at the place. -/
theorem load_eq {b : List (Option A)} (hb : t.blocks[seg (segIndex p)]? = some (some b)) :
    t.load (slotPtr seg p) = b[p - segBase (segIndex p)]? := by
  rw [slotPtr]
  simp only [load, hb, Option.join_some, Option.bind_eq_bind, Option.bind_some, Int.toNat_natCast]
  rw [if_neg (Int.not_lt.mpr (Int.natCast_nonneg _))]

/-- So is the pointer at the position. -/
theorem slotAt_eq {b : List (Option A)} (hp : p < 2 ^ bit)
    (hb : t.blocks[seg (segIndex p)]? = some (some b)) :
    t.slotAt p = b[p - segBase (segIndex p)]?.join := by
  rw [slotAt, hl.pos_eq hp, ← load_eq hb]
  rfl

/-- What `tommy_hashlin_pos` leads to can be read: there is no bucket below `2 ^ bit` without
memory. -/
theorem load (hp : p < 2 ^ bit) (hptr : t.pos p = some ptr) :
    t.load ptr = some (t.slotAt p) := by
  obtain ⟨b, hb, hlt⟩ := hl.exists_block hp
  obtain rfl := Option.some.inj (hptr.symm.trans (hl.pos_eq hp))
  rw [hl.slotAt_eq hp hb, load_eq hb, List.getElem?_eq_getElem hlt]
  rfl

/-- Different positions are different places, also in the block that six entries share. -/
theorem place_inj (hp : p < 2 ^ bit) (hq : q < 2 ^ bit)
    (hseg : seg (segIndex p) = seg (segIndex q))
    (hplace : p - segBase (segIndex p) = q - segBase (segIndex q)) : p = q := by
  have hbase := hl.base_eq _ (segIndex_lt hl.bit_pos hp) _ (segIndex_lt hl.bit_pos hq) hseg
  have hlep := segBase_le p
  have hleq := segBase_le q
  omega

/-- A block of the table with other pointers in it is a block of the same size. -/
theorem set_block {b b' : List (Option A)} {blocks : List (Option (List (Option A)))}
    (hi : i < bit) (hb : t.blocks[seg i]? = some (some b)) (hlen : b'.length = b.length)
    (hblocks : blocks = t.blocks.set (seg i) (some b')) : Layout { t with blocks } bit seg := by
  refine ⟨hl.bit_pos, hl.bit_le, hl.first, hl.bucket_eq, fun j hj => ?_, hl.base_eq,
    fun k c hk => ?_⟩
  · obtain ⟨c, hc, hlenc⟩ := hl.block j hj
    rw [hblocks]
    by_cases hseg : seg j = seg i
    · rw [hseg, hb] at hc
      obtain rfl := Option.some.inj (Option.some.inj hc)
      obtain ⟨hlt, -⟩ := List.getElem?_eq_some_iff.mp hb
      refine ⟨b', ?_, hlen.trans hlenc⟩
      rw [hseg]
      exact List.getElem?_set_self hlt
    · refine ⟨c, ?_, hlenc⟩
      rw [← hc]
      exact List.getElem?_set_ne (Ne.symm hseg)
  · rw [hblocks] at hk
    by_cases hseg : seg i = k
    · exact ⟨i, hi, hseg⟩
    · rw [List.getElem?_set_ne hseg] at hk
      exact hl.in_use k c hk

/-- What `tommy_hashlin_pos` leads to can be written, and nothing else is written there: the other
buckets keep their heads. -/
theorem store (hp : p < 2 ^ bit) (hptr : t.pos p = some ptr) (v : Option A) :
    ∃ blocks, t.store ptr v = some { t with blocks } ∧ Layout { t with blocks } bit seg ∧
      ∀ q < 2 ^ bit, slotAt { t with blocks } q = if q = p then v else t.slotAt q := by
  obtain ⟨b, hb, hlt⟩ := hl.exists_block hp
  obtain rfl := Option.some.inj (hptr.symm.trans (hl.pos_eq hp))
  have hip := segIndex_lt hl.bit_pos hp
  obtain ⟨hblocks, -⟩ := List.getElem?_eq_some_iff.mp hb
  have hlen : (b.set (p - segBase (segIndex p)) v).length = b.length := List.length_set
  have hl' := hl.set_block hip hb hlen rfl
  refine ⟨_, ?_, hl', fun q hq => ?_⟩
  · rw [slotPtr]
    simp only [Hashlin.store, hb, Option.join_some, Option.bind_eq_bind, Option.bind_some,
      Int.toNat_natCast]
    exact if_pos ⟨Int.natCast_nonneg _, hlt⟩
  · obtain ⟨c, hc, hltc⟩ := hl.exists_block hq
    rw [hl.slotAt_eq hq hc]
    by_cases hseg : seg (segIndex q) = seg (segIndex p)
    · rw [hseg, hb] at hc
      obtain rfl := Option.some.inj (Option.some.inj hc)
      rw [hl'.slotAt_eq hq (by rw [hseg]; exact List.getElem?_set_self hblocks)]
      by_cases hqp : q = p
      · rw [hqp, List.getElem?_set_self hlt, if_pos rfl]
        rfl
      · have hplace : p - segBase (segIndex p) ≠ q - segBase (segIndex q) := fun heq =>
          hqp (hl.place_inj hq hp hseg heq.symm)
        rw [if_neg hqp, List.getElem?_set_ne hplace]
    · have hqp : q ≠ p := fun heq => hseg (by rw [heq])
      rw [if_neg hqp]
      refine hl'.slotAt_eq hq ?_
      rw [← hc]
      exact List.getElem?_set_ne (Ne.symm hseg)

/-- A segment behind the last one, in a new block, doubles the number of positions and leaves the
buckets in front as they are. -/
theorem push (hbit : bit < hashlinBitMax) (hsix : hashlinBit ≤ bit)
    {content : List (Option A)} (hcontent : content.length = 2 ^ bit)
    (hbucket : u.bucket = t.bucket.set bit (some ⟨t.blocks.length, -(2 ^ bit : Nat)⟩))
    (hblocks : u.blocks = t.blocks ++ [some content]) :
    Layout u (bit + 1) (fun i => if i = bit then t.blocks.length else seg i) ∧
      ∀ q < 2 ^ bit, u.slotAt q = t.slotAt q := by
  have hbase : segBase bit = 2 ^ bit := if_neg (Nat.not_lt.mpr hsix)
  have hsize : segSize bit = 2 ^ bit := if_neg (Nat.not_lt.mpr hsix)
  have hlt : ∀ i < bit, seg i < t.blocks.length := fun i hi => by
    obtain ⟨b, hb, -⟩ := hl.block i hi
    exact (List.getElem?_eq_some_iff.mp hb).1
  have hl' : Layout u (bit + 1) (fun i => if i = bit then t.blocks.length else seg i) := by
    refine ⟨Nat.succ_pos _, hbit, fun i hi => ?_, fun i hi => ?_, fun i hi => ?_,
      fun i hi j hj heq => ?_, fun k b hk => ?_⟩
    · rw [if_neg (hi.trans_le hsix).ne, if_neg hl.bit_pos.ne]
      exact hl.first i hi
    · by_cases hib : i = bit
      · rw [hbucket, hib, if_pos rfl, hbase]
        simp [hbit]
      · have hi' : i < bit := by omega
        rw [hbucket, if_neg hib, ← hl.bucket_eq i hi', Vector.getElem?_set_ne _ (Ne.symm hib)]
    · by_cases hib : i = bit
      · refine ⟨content, ?_, by rw [hcontent, hib, hsize]⟩
        rw [hblocks, if_pos hib, List.getElem?_concat_length]
      · have hi' : i < bit := by omega
        obtain ⟨b, hb, hlen⟩ := hl.block i hi'
        refine ⟨b, ?_, hlen⟩
        rw [hblocks, if_neg hib, List.getElem?_append_left (hlt i hi'), hb]
    · by_cases hib : i = bit <;> by_cases hjb : j = bit
      · rw [hib, hjb]
      · have hlt' := hlt j (by omega)
        rw [if_pos hib, if_neg hjb] at heq
        omega
      · have hlt' := hlt i (by omega)
        rw [if_neg hib, if_pos hjb] at heq
        omega
      · rw [if_neg hib, if_neg hjb] at heq
        exact hl.base_eq i (by omega) j (by omega) heq
    · rw [hblocks, List.getElem?_append] at hk
      split at hk
      · obtain ⟨i, hi, hseg⟩ := hl.in_use k b hk
        exact ⟨i, by omega, by rw [if_neg hi.ne]; exact hseg⟩
      · have hk' : k = t.blocks.length := by
          have := (List.getElem?_eq_some_iff.mp hk).1
          simp at this
          omega
        exact ⟨bit, Nat.lt_succ_self bit, by rw [if_pos rfl, hk']⟩
  refine ⟨hl', fun q hq => ?_⟩
  obtain ⟨b, hb, -⟩ := hl.exists_block hq
  have hiq := segIndex_lt hl.bit_pos hq
  rw [hl.slotAt_eq hq hb]
  refine hl'.slotAt_eq (hq.trans (Nat.pow_lt_pow_right (by decide) (Nat.lt_succ_self bit))) ?_
  rw [hblocks, if_neg hiq.ne, List.getElem?_append_left (hlt _ hiq), hb]

omit hl in
/-- The last segment is taken away, which halves the number of positions and leaves the buckets in
front as they are. -/
theorem pop (hl : Layout t (bit + 1) seg) (hsix : hashlinBit ≤ bit)
    (hbucket : u.bucket = t.bucket) (hblocks : u.blocks = t.blocks.set (seg bit) none) :
    Layout u bit seg ∧ ∀ q < 2 ^ bit, u.slotAt q = t.slotAt q := by
  have hpos : 0 < bit := Nat.zero_lt_of_lt hsix
  have hne : ∀ i < bit, seg i ≠ seg bit := fun i hi heq => by
    have hbase := hl.base_eq i (by omega) bit (Nat.lt_succ_self bit) heq
    have hpow : 2 ^ i < 2 ^ bit := Nat.pow_lt_pow_right (by decide) hi
    have hzero : 0 < 2 ^ bit := Nat.two_pow_pos bit
    rw [segBase, segBase, if_neg (Nat.not_lt.mpr hsix)] at hbase
    split at hbase <;> omega
  have hget : ∀ i < bit, u.blocks[seg i]? = t.blocks[seg i]? := fun i hi => by
    rw [hblocks, List.getElem?_set_ne (hne i hi).symm]
  have hl' : Layout u bit seg := by
    refine ⟨hpos, (Nat.le_succ bit).trans hl.bit_le, hl.first, fun i hi => ?_, fun i hi => ?_,
      fun i hi j hj => hl.base_eq i (by omega) j (by omega), fun k b hk => ?_⟩
    · rw [hbucket]
      exact hl.bucket_eq i (by omega)
    · rw [hget i hi]
      exact hl.block i (by omega)
    · rw [hblocks] at hk
      by_cases hseg : seg bit = k
      · rw [hseg, List.getElem?_set] at hk
        grind
      · rw [List.getElem?_set_ne hseg] at hk
        obtain ⟨i, hi, hik⟩ := hl.in_use k b hk
        have hib : i ≠ bit := fun heq => hseg (by rw [← heq, hik])
        exact ⟨i, by omega, hik⟩
  refine ⟨hl', fun q hq => ?_⟩
  have hq' : q < 2 ^ (bit + 1) := hq.trans (Nat.pow_lt_pow_right (by decide) (Nat.lt_succ_self bit))
  obtain ⟨b, hb, -⟩ := hl.exists_block hq'
  rw [hl.slotAt_eq hq' hb]
  refine hl'.slotAt_eq hq ?_
  rw [hget _ (segIndex_lt hpos hq), hb]

omit hl in
/-- The last segment is given back where it starts: what the pointer was set back by is added before
it is freed. -/
theorem free (hl : Layout t (bit + 1) seg) (hsix : hashlinBit ≤ bit) :
    ∃ segment, t.bucket[bit]?.join = some segment ∧
      t.free { segment with offset := segment.offset + 2 ^ bit } =
        some { t with blocks := t.blocks.set (seg bit) none } := by
  have hbase : segBase bit = 2 ^ bit := if_neg (Nat.not_lt.mpr hsix)
  obtain ⟨b, hb, -⟩ := hl.block bit (Nat.lt_succ_self bit)
  refine ⟨_, hl.bucket_eq bit (Nat.lt_succ_self bit), ?_⟩
  simp [Hashlin.free, hb, hbase]

end Layout

/-! ## The first and the last state -/

variable {bucket : Vector (Option SlotPtr) hashlinBitMax} {links : Links A} {data : A → D}
  {key : A → BitVec 32}

/-- `tommy_hashlin_init` allocates the one block of the first six entries. -/
theorem layout_init : Layout (init bucket links data key) hashlinBit fun _ => 0 where
  bit_pos := by decide
  bit_le := by decide
  first _ _ := rfl
  bucket_eq i hi := by
    have hlt : i < hashlinBitMax := hi.trans (by decide)
    simp [init, stable, segBase, hi, hlt]
  block i hi := ⟨List.replicate (2 ^ hashlinBit) none, rfl, by simp [segSize, hi]⟩
  base_eq i hi j hj _ := by simp [segBase, hi, hj]
  in_use k b hk := by
    have hk' : k = 0 := by
      obtain ⟨hlt, -⟩ := List.getElem?_eq_some_iff.mp hk
      exact Nat.lt_one_iff.mp hlt
    exact ⟨0, by decide, hk'.symm⟩

/-- Its buckets are empty, as `tommy_calloc` leaves them. -/
theorem slotAt_init (hp : p < 2 ^ hashlinBit) : (init bucket links data key).slotAt p = none := by
  rw [layout_init.slotAt_eq (b := List.replicate (2 ^ hashlinBit) none) hp rfl]
  rw [List.getElem?_replicate]
  split <;> rfl

/-- The segments from `bucket[i]` on are the blocks in use, each of them once: the invariant of the
loop of `tommy_hashlin_done`. -/
structure Pending (t : Hashlin A D) (bit : Nat) (seg : Nat → Nat) (i : Nat) : Prop where
  bucket_eq : ∀ j < bit, i ≤ j → t.bucket[j]?.join = some ⟨seg j, -(2 ^ j : Nat)⟩
  block : ∀ j < bit, i ≤ j → ∃ b, t.blocks[seg j]? = some (some b)
  inj : ∀ j < bit, i ≤ j → ∀ j' < bit, i ≤ j' → seg j = seg j' → j = j'
  in_use : ∀ k b, t.blocks[k]? = some (some b) → ∃ j < bit, i ≤ j ∧ seg j = k

/-- The loop frees every segment that is left. The induction is on their number. -/
theorem doneLoop_spec (n : Nat) (h : Pending t bit seg i) (hn : i + n = bit) :
    ∃ t', doneLoop n i t = some t' ∧ ∀ b ∈ t'.blocks, b = none := by
  induction n generalizing i t with
  | zero =>
    refine ⟨t, rfl, fun b hb => Option.eq_none_iff_forall_ne_some.mpr fun c hc => ?_⟩
    obtain ⟨k, hk⟩ := List.mem_iff_getElem?.mp hb
    obtain ⟨j, hj, hij, -⟩ := h.in_use k c (hc ▸ hk)
    omega
  | succ n ih =>
    have hi : i < bit := by omega
    obtain ⟨b, hb⟩ := h.block i hi le_rfl
    have hfree : free t ⟨seg i, -(2 ^ i : Nat) + 2 ^ i⟩ =
        some { t with blocks := t.blocks.set (seg i) none } := by
      simp [free, hb]
    have hnext : Pending { t with blocks := t.blocks.set (seg i) none } bit seg (i + 1) := by
      refine ⟨fun j hj hij => h.bucket_eq j hj (by omega), fun j hj hij => ?_,
        fun j hj hij j' hj' hij' => h.inj j hj (by omega) j' hj' (by omega), fun k c hk => ?_⟩
      · obtain ⟨c, hc⟩ := h.block j hj (by omega)
        have hne : seg i ≠ seg j := fun heq => by
          have := h.inj i hi le_rfl j hj (by omega) heq
          omega
        refine ⟨c, ?_⟩
        rw [← hc]
        exact List.getElem?_set_ne hne
      · by_cases hseg : seg i = k
        · rw [hseg, List.getElem?_set] at hk
          grind
        · rw [List.getElem?_set_ne hseg] at hk
          obtain ⟨j, hj, hij, hjk⟩ := h.in_use k c hk
          have hji : j ≠ i := fun heq => hseg (by rw [← heq, hjk])
          exact ⟨j, hj, by omega, hjk⟩
    obtain ⟨t', ht', hblocks⟩ := ih hnext (by omega)
    refine ⟨t', ?_, hblocks⟩
    simp only [doneLoop, h.bucket_eq i hi le_rfl, Option.bind_eq_bind, Option.bind_some]
    rw [hfree]
    exact ht'

/-- `tommy_hashlin_done` gives every segment back, each of them once. -/
theorem done_spec (hl : Layout t t.bucketBit seg) (hsix : hashlinBit ≤ t.bucketBit) :
    ∃ t', t.done = some t' ∧ ∀ b ∈ t'.blocks, b = none := by
  have hzero : 0 < t.bucketBit := Nat.zero_lt_of_lt hsix
  obtain ⟨b, hb, -⟩ := hl.block 0 hzero
  have hfree : t.free ⟨seg 0, 0⟩ = some { t with blocks := t.blocks.set (seg 0) none } := by
    simp [free, hb]
  have hbase : ∀ j, hashlinBit ≤ j → segBase j = 2 ^ j := fun j hj =>
    if_neg (Nat.not_lt.mpr hj)
  have hne : ∀ j < t.bucketBit, hashlinBit ≤ j → seg 0 ≠ seg j := fun j hj hj6 heq => by
    have h := hl.base_eq 0 hzero j hj heq
    have hpow : 0 < 2 ^ j := Nat.two_pow_pos j
    rw [hbase j hj6, segBase, if_pos (by decide)] at h
    omega
  have hpending :
      Pending { t with blocks := t.blocks.set (seg 0) none } t.bucketBit seg hashlinBit := by
    refine ⟨fun j hj hj6 => ?_, fun j hj hj6 => ?_, fun j hj hj6 j' hj' hj6' heq => ?_,
      fun k c hk => ?_⟩
    · rw [← hbase j hj6]
      exact hl.bucket_eq j hj
    · obtain ⟨c, hc, -⟩ := hl.block j hj
      refine ⟨c, ?_⟩
      rw [← hc]
      exact List.getElem?_set_ne (hne j hj hj6)
    · have h := hl.base_eq j hj j' hj' heq
      rw [hbase j hj6, hbase j' hj6'] at h
      exact Nat.pow_right_injective le_rfl h
    · by_cases hseg : seg 0 = k
      · rw [hseg, List.getElem?_set] at hk
        grind
      · rw [List.getElem?_set_ne hseg] at hk
        obtain ⟨j, hj, hjk⟩ := hl.in_use k c hk
        have hj6 : hashlinBit ≤ j := by
          by_contra hlt
          exact hseg ((hl.first j (Nat.lt_of_not_le hlt)).symm.trans hjk)
        exact ⟨j, hj, hj6, hjk⟩
  obtain ⟨t', ht', hblocks⟩ := doneLoop_spec (t.bucketBit - hashlinBit) hpending (by omega)
  refine ⟨t', ?_, hblocks⟩
  have hbucket : t.bucket[0]?.join = some ⟨seg 0, 0⟩ :=
    (hl.bucket_eq 0 hzero).trans (by simp [segBase])
  simp only [done, hbucket, Option.bind_eq_bind, Option.bind_some]
  rw [hfree]
  exact ht'

end Hashlin

end OrbitCache.Tommy
