import Mathlib.Algebra.Group.Int.Defs
import Mathlib.Algebra.Order.Group.Nat
import OrbitCache.Tommy.List

/-!
# `tommyhashlin.c`

The hash table of a server worker, with the memory that it works on: the nodes that its user owns,
and the segments of bucket pointers that it allocates itself. A pointer into a segment is a block
and a place relative to its start, which may lie outside it: `bucket[i]` points `2 ^ i` places
before its segment. The operations have no result where the code would read or write outside a
block, in one that is free, through a null pointer, or would shift into the sign bit.
-/

namespace OrbitCache.Tommy

/-- `TOMMY_HASHLIN_BIT`. -/
abbrev hashlinBit : Nat := 6
/-- `TOMMY_HASHLIN_BIT_MAX`. -/
abbrev hashlinBitMax : Nat := 32

/-- `TOMMY_HASHLIN_STATE_STABLE`, `TOMMY_HASHLIN_STATE_GROW` and `TOMMY_HASHLIN_STATE_SHRINK`, the
phases of a table. -/
inductive HashlinState
  | stable
  | grow
  | shrink
  deriving DecidableEq, Repr

/-- A pointer into a block. The offset may be negative, since a segment is stored as a pointer to
where its first bucket would be if the table began there. -/
structure SlotPtr where
  block : Nat
  offset : Int
  deriving DecidableEq, Repr

/-- `tommy_hashlin`, and the memory behind it. -/
structure Hashlin (A D : Type) where
  bucket : Vector (Option SlotPtr) hashlinBitMax
  bucketBit : Nat
  bucketMax : Nat
  bucketMask : Nat
  lowMax : Nat
  lowMask : Nat
  split : Nat
  count : Nat
  state : HashlinState
  /-- The blocks that were allocated, `none` for one that is free again. -/
  blocks : List (Option (List (Option A)))
  /-- The `next` and `prev` of the nodes. -/
  links : Links A
  /-- The `data` of the nodes. -/
  data : A → D
  /-- The `key` of the nodes. -/
  key : A → BitVec 32

/-- A value of type `uint32_t`, whose arithmetic wraps. -/
def u32 (n : Nat) : Nat := n % 2 ^ 32

/-- The predecessor of a `uint32_t`, where that of 0 is the greatest. -/
def u32Pred (n : Nat) : Nat := u32 (n + (2 ^ 32 - 1))

/-- `1 << bit`, an `int`: there is no value where the shift overflows. -/
def shiftOne (bit : Nat) : Option Nat := if bit < 31 then some (1 <<< bit) else none

/-- `__builtin_clz`, for a value that is not zero. -/
def builtinClz (value : Nat) : Nat := 31 - value.log2

/-- `tommy_ilog2_u32`, the position of the highest bit. -/
def ilog2U32 (value : Nat) : Nat := builtinClz value ^^^ 31

namespace Hashlin

variable {A D : Type}

/-! ## Memory -/

/-- `*p`. There is no value for a pointer outside its block, or into a block that was freed. -/
def load (t : Hashlin A D) (p : SlotPtr) : Option (Option A) := do
  let block ← t.blocks[p.block]?.join
  if p.offset < 0 then none else block[p.offset.toNat]?

/-- `*p = v`, to a place in a block that was not freed. -/
def store (t : Hashlin A D) (p : SlotPtr) (v : Option A) : Option (Hashlin A D) := do
  let block ← t.blocks[p.block]?.join
  if 0 ≤ p.offset ∧ p.offset.toNat < block.length then
    some { t with blocks := t.blocks.set p.block (some (block.set p.offset.toNat v)) }
  else
    none

/-- `tommy_malloc` of `size` pointers, with what the block happens to hold. -/
def malloc (junk : Nat → Nat → Option A) (t : Hashlin A D) (size : Nat) :
    SlotPtr × Hashlin A D :=
  (⟨t.blocks.length, 0⟩,
    { t with blocks := t.blocks ++ [some ((List.range size).map (junk t.blocks.length))] })

/-- `tommy_free` of a pointer that `tommy_malloc` returned; a block may not be freed twice. -/
def free (t : Hashlin A D) (p : SlotPtr) : Option (Hashlin A D) := do
  let _ ← t.blocks[p.block]?.join
  if p.offset = 0 then some { t with blocks := t.blocks.set p.block none } else none

/-! ## Buckets -/

/-- `tommy_hashlin_pos`: the segment of the bucket, by the highest bit of its position, and the
bucket in it. -/
def pos (t : Hashlin A D) (pos : Nat) : Option SlotPtr := do
  let bsr := ilog2U32 (pos ||| 1)
  let p ← t.bucket[bsr]?.join
  return { p with offset := p.offset + pos }

/-- The position in `tommy_hashlin_bucket_ref`: buckets in front of `split` have been split already.
-/
def bucketPos (t : Hashlin A D) (hash : BitVec 32) : Nat :=
  let pos := hash.toNat &&& t.lowMask
  let highPos := hash.toNat &&& t.bucketMask
  if pos < t.split then highPos else pos

/-- `tommy_hashlin_bucket_ref`, the pointer to the bucket of a hash. -/
def bucketRef (t : Hashlin A D) (hash : BitVec 32) : Option SlotPtr := t.pos (t.bucketPos hash)

/-- `tommy_hashlin_stable`, the end of a growth or of a shrinking. -/
def stable (t : Hashlin A D) : Hashlin A D :=
  { t with state := .stable, lowMax := t.bucketMax, lowMask := t.bucketMask, split := 0 }

/-- `tommy_hashlin_init`. The other entries of `bucket` are as they were. -/
def init (bucket : Vector (Option SlotPtr) hashlinBitMax) (links : Links A) (data : A → D)
    (key : A → BitVec 32) : Hashlin A D :=
  stable
    { bucket := Vector.ofFn fun i =>
        if i.val < hashlinBit then some ⟨0, 0⟩ else bucket[i]
      bucketBit := hashlinBit
      bucketMax := 2 ^ hashlinBit
      bucketMask := 2 ^ hashlinBit - 1
      lowMax := 0
      lowMask := 0
      split := 0
      count := 0
      state := .stable
      blocks := [some (List.replicate (2 ^ hashlinBit) none)]
      links, data, key }

/-- The loop of `tommy_hashlin_done`, over the segments behind the first. -/
def doneLoop : Nat → Nat → Hashlin A D → Option (Hashlin A D)
  | 0, _, t => some t
  | n + 1, i, t => do
    let segment ← t.bucket[i]?.join
    let t ← t.free { segment with offset := segment.offset + 2 ^ i }
    doneLoop n (i + 1) t

/-- `tommy_hashlin_done`, which frees all segments. The first six entries of `bucket` share one
block. -/
def done (t : Hashlin A D) : Option (Hashlin A D) := do
  let segment ← t.bucket[0]?.join
  let t ← t.free segment
  doneLoop (t.bucketBit - hashlinBit) hashlinBit t

/-! ## Growing -/

variable [DecidableEq A]

/-- The loop of `hashlin_grow_step` that flushes a bucket, from the node `j` on: each node goes to
the end of one of the two buckets, by the bit of its hash that the larger mask adds. -/
def flush (split₀ split₁ : SlotPtr) (mask : Nat) (j : Option A) (t : Hashlin A D) :
    Option (Hashlin A D) :=
  match j with
  | none => some t
  | some j => do
    let jNext := t.links.next j
    let split := if (t.key j).toNat &&& mask ≠ 0 then split₁ else split₀
    match ← t.load split with
    | some head => do
      let links ← listInsertTailNotEmpty t.links head j
      { t with links } |>.flush split₀ split₁ mask jNext
    | none => do
      let (links, list) := listInsertFirst t.links j
      let t ← store { t with links } split list
      t |>.flush split₀ split₁ mask jNext
partial_fixpoint

/-- The loop body of `hashlin_grow_step`, up to `++hashlin->split`. -/
def splitBucket (t : Hashlin A D) : Option (Hashlin A D) := do
  let split₀ ← t.pos t.split
  let split₁ ← t.pos (u32 (t.split + t.lowMax))
  let j ← t.load split₀
  let t ← t.store split₀ none
  let t ← t.store split₁ none
  let mask := t.lowMax
  let t ← t.flush split₀ split₁ mask j
  return { t with split := u32 (t.split + 1) }

/-- The loop of `hashlin_grow_step`, which splits buckets until there are two for each element. -/
def growLoop (splitTarget : Nat) (t : Hashlin A D) : Option (Hashlin A D) :=
  if u32 (t.split + t.lowMax) < splitTarget then do
    let t ← t.splitBucket
    if t.split = t.lowMax then return t.stable else t |>.growLoop splitTarget
  else
    some t
partial_fixpoint

variable (junk : Nat → Nat → Option A)

/-- The allocation of the new segment in `hashlin_grow_step`. The pointer to it is set back by the
buckets in front of it. -/
def growSetup (t : Hashlin A D) : Option (Hashlin A D) :=
  let t := { t with lowMax := t.bucketMax, lowMask := t.bucketMask }
  let (segment, t) := t.malloc junk t.lowMax
  if h : t.bucketBit < hashlinBitMax then do
    let segment := { segment with offset := segment.offset - t.lowMax }
    let bucketBit := t.bucketBit + 1
    let bucketMax ← shiftOne bucketBit
    return { t with
      bucket := t.bucket.set t.bucketBit (some segment)
      bucketBit, bucketMax
      bucketMask := bucketMax - 1
      split := 0 }
  else
    none

/-- The first part of `hashlin_grow_step`: grow if more than 50% full. -/
def growBegin (t : Hashlin A D) : Option (Hashlin A D) :=
  if t.state ≠ .grow ∧ t.count > t.bucketMax / 2 then do
    let t ← if t.state = .stable then t.growSetup junk else some t
    return { t with state := .grow }
  else
    some t

/-- `hashlin_grow_step`, after every insertion. -/
def growStep (t : Hashlin A D) : Option (Hashlin A D) := do
  let t ← t.growBegin junk
  if t.state = .grow then t.growLoop (u32 (2 * t.count)) else return t

/-! ## Shrinking -/

omit [DecidableEq A] in
/-- The first part of `hashlin_shrink_step`: shrink if less than 12.5% full. -/
def shrinkBegin (t : Hashlin A D) : Hashlin A D :=
  if t.state ≠ .shrink ∧ t.count < t.bucketMax / 8 then
    -- avoid to shrink the first bucket
    if t.bucketBit > hashlinBit then
      let t :=
        if t.state = .stable then
          { t with
            lowMax := t.bucketMax / 2
            lowMask := t.bucketMask / 2
            split := t.bucketMax / 2 }
        else t
      { t with state := .shrink }
    else t
  else t

/-- The loop body of `hashlin_shrink_step`, up to the test whether it has finished: the two buckets
that a split has made become one again. -/
def mergeBuckets (t : Hashlin A D) : Option (Hashlin A D) := do
  let t := { t with split := u32Pred t.split }
  let split₀ ← t.pos t.split
  let split₁ ← t.pos (u32 (t.split + t.lowMax))
  let (links, list) ← listConcat t.links (← t.load split₀) (← t.load split₁)
  store { t with links } split₀ list

omit [DecidableEq A] in
/-- The end of a reallocation in `hashlin_shrink_step`, where the last segment is freed. -/
def shrinkFinish (t : Hashlin A D) : Option (Hashlin A D) := do
  let bucketBit := u32Pred t.bucketBit
  let bucketMax ← shiftOne bucketBit
  let segment ← t.bucket[bucketBit]?.join
  let t ← t.free { segment with offset := segment.offset + 2 ^ bucketBit }
  return stable { t with bucketBit, bucketMax, bucketMask := bucketMax - 1 }

/-- The loop of `hashlin_shrink_step`, which merges buckets as long as there are more than eight for
each element. -/
def shrinkLoop (splitTarget : Nat) (t : Hashlin A D) : Option (Hashlin A D) :=
  if u32 (t.split + t.lowMax) > splitTarget then do
    let t ← t.mergeBuckets
    if t.split = 0 then t.shrinkFinish else t |>.shrinkLoop splitTarget
  else
    some t
partial_fixpoint

/-- `hashlin_shrink_step`, after every removal. -/
def shrinkStep (t : Hashlin A D) : Option (Hashlin A D) :=
  let t := t.shrinkBegin
  if t.state = .shrink then t.shrinkLoop (u32 (8 * t.count)) else some t

/-! ## Operations -/

/-- `tommy_hashlin_insert`: the node goes to the end of its bucket, and the table may grow. -/
def insert (t : Hashlin A D) (node : A) (data : D) (hash : BitVec 32) :
    Option (Hashlin A D) := do
  let p ← t.bucketRef hash
  let (links, list) ← listInsertTail t.links (← t.load p) node
  let t ← store { t with links } p list
  let t := { t with data := Function.update t.data node data }
  let t := { t with key := Function.update t.key node hash }
  growStep junk { t with count := u32 (t.count + 1) }

/-- `tommy_hashlin_remove_existing`: the node leaves its bucket, and the table may shrink. The datum
of the node is returned. -/
def removeExisting (t : Hashlin A D) (node : A) : Option (Hashlin A D × D) := do
  let p ← t.bucketRef (t.key node)
  let (links, list) ← listRemoveExisting t.links (← t.load p) node
  let t ← store { t with links } p list
  let t ← shrinkStep { t with count := u32Pred t.count }
  return (t, t.data node)

/-- The loop of `tommy_hashlin_remove`, along the nodes of a bucket. -/
def removeLoop (t : Hashlin A D) (cmp : D → Bool) (hash : BitVec 32) (letPtr : SlotPtr)
    (node : Option A) : Option (Hashlin A D × Option D) :=
  match node with
  | none => some (t, none)
  | some node =>
    if t.key node = hash ∧ cmp (t.data node) then do
      let (links, list) ← listRemoveExisting t.links (← t.load letPtr) node
      let t ← store { t with links } letPtr list
      let t ← shrinkStep { t with count := u32Pred t.count }
      return (t, some (t.data node))
    else
      t |>.removeLoop cmp hash letPtr (t.links.next node)
partial_fixpoint

/-- `tommy_hashlin_remove`, with `cmp data` for `cmp(cmp_arg, data) == 0`. -/
def remove (t : Hashlin A D) (cmp : D → Bool) (hash : BitVec 32) :
    Option (Hashlin A D × Option D) := do
  let letPtr ← t.bucketRef hash
  t.removeLoop cmp hash letPtr (← t.load letPtr)

omit [DecidableEq A]

/-- `i->key == hash && cmp(cmp_arg, i->data) == 0`: the comparison, which may read a null pointer,
is not made for a node with another hash. -/
def isMatch (t : Hashlin A D) (cmp : D → Option Bool) (hash : BitVec 32) (i : A) : Option Bool :=
  if t.key i = hash then cmp (t.data i) else some false

/-- The loop of `tommy_hashlin_search`, along the nodes of a bucket. -/
def searchLoop (t : Hashlin A D) (cmp : D → Option Bool) (hash : BitVec 32) (i : Option A) :
    Option (Option D) :=
  match i with
  | none => some none
  | some i => do
    if ← t.isMatch cmp hash i then return some (t.data i)
    else t |>.searchLoop cmp hash (t.links.next i)
partial_fixpoint

/-- `tommy_hashlin_search`, with `cmp data` for `cmp(cmp_arg, data) == 0` and nothing where that
reads a null pointer. -/
def searchWith (t : Hashlin A D) (cmp : D → Option Bool) (hash : BitVec 32) :
    Option (Option D) := do
  t.searchLoop cmp hash (← t.load (← t.bucketRef hash))

/-- `tommy_hashlin_search` with a comparison that reads no null pointer. -/
def search (t : Hashlin A D) (cmp : D → Bool) (hash : BitVec 32) : Option (Option D) :=
  t.searchWith (fun data => some (cmp data)) hash

/-- The inner loop of `tommy_hashlin_foreach`, along the nodes of a bucket. -/
def foreachLoop (t : Hashlin A D) (node : Option A) : Option (List D) :=
  match node with
  | none => some []
  | some node => do
    let rest ← t |>.foreachLoop (t.links.next node)
    return t.data node :: rest
partial_fixpoint

/-- `tommy_hashlin_foreach`: what `func` is called with, one after another. -/
def foreach (t : Hashlin A D) : Option (List D) := do
  let buckets ← (List.range (u32 (t.lowMax + t.split))).mapM fun pos => do
    t.foreachLoop (← t.load (← t.pos pos))
  return buckets.flatten

end Hashlin

end OrbitCache.Tommy
