import Mathlib.Data.List.Induction
import OrbitCache.Host.Server
import OrbitCache.Host.Wire

/-!
# Start-up of a server worker

The buffer that `tostring_key` fills, and the insertion of the items of a partition by
`tommy_put_init`, which does not look for the key. `tostringKey_unique`: different items have
different keys, so the table has no key twice; from then on `tommy_put` is an update of the function
that `tommy_get` is (`get_put`).
-/

namespace OrbitCache

/-! ## `tostring_key` on a buffer -/

/-- A buffer of `KEY_SIZE` characters, the local array of the start-up loop, which is used again for
each item. -/
abbrev KeyBuffer : Type := Vector (BitVec 8) keySize

/-- The loop of `tostring_key` below the index `i`, which writes the buffer from its end to its
start: the last character is the lowest digit. -/
def writeKey : (i : Nat) → i ≤ keySize → BitVec 64 → KeyBuffer → KeyBuffer
  | 0, _, _, key => key
  | i + 1, hi, transformedNumber, key =>
    writeKey i (by omega) (transformedNumber / BitVec.ofNat 64 charsetSize)
      (key.set i (charByte (transformedNumber % BitVec.ofNat 64 charsetSize).toNat))

/-- `tostring_key` with what the buffer holds before: the terminator is written first, then the
characters. -/
def tostringKeyBuffer (number : BitVec 64) (key : KeyBuffer) : KeyBuffer :=
  writeKey (keySize - 1) (by decide) (complexTransform number) (key.set (keySize - 1) 0)

/-- A write at the start of what is looked at. -/
theorem drop_set_self {α : Type*} {l : List α} {i : Nat} (h : i < l.length) (a : α) :
    (l.set i a).drop i = a :: l.drop (i + 1) := by
  rw [List.drop_set, if_neg (Nat.lt_irrefl i), Nat.sub_self, List.drop_eq_getElem_cons h,
    List.set_cons_zero]

/-- The loop leaves the characters of `tostringKeyLoop` in front of what it does not reach. The
induction is on the index. -/
theorem toList_writeKey (i : Nat) (hi : i ≤ keySize) (t : BitVec 64) (key : KeyBuffer) :
    (writeKey i hi t key).toList = tostringKeyLoop i t (key.toList.drop i) := by
  induction i generalizing t key with
  | zero => rfl
  | succ i ih =>
    have hlen : i < key.toList.length := by
      rw [Vector.length_toList]
      exact hi
    rw [writeKey, tostringKeyLoop, ih, Vector.toList_set, drop_set_self hlen]

/-- What stands behind the characters stays there. -/
theorem tostringKeyLoop_append (i : Nat) (t : BitVec 64) (key rest : Bytes) :
    tostringKeyLoop i t (key ++ rest) = tostringKeyLoop i t key ++ rest := by
  induction i generalizing t key with
  | zero => rfl
  | succ i ih => rw [tostringKeyLoop, tostringKeyLoop, ← List.cons_append, ih]

/-- The buffer holds the key and its terminator, and nothing of what it held before. -/
theorem toList_tostringKeyBuffer (number : BitVec 64) (key : KeyBuffer) :
    (tostringKeyBuffer number key).toList = tostringKey number ++ [0] := by
  have hlen : key.toList.length = keySize - 1 + 1 := key.length_toList
  have hdrop : (key.set (keySize - 1) 0).toList.drop (keySize - 1) = [0] := by
    rw [Vector.toList_set, drop_set_self (hlen ▸ Nat.lt_succ_self _),
      List.drop_of_length_le hlen.le]
  rw [tostringKeyBuffer, toList_writeKey, hdrop, tostringKey, ← tostringKeyLoop_append,
    List.nil_append]

/-- No character of a key ends the string. -/
theorem ne_zero_of_mem_tostringKey {n : BitVec 64} {b : BitVec 8} (h : b ∈ tostringKey n) :
    b ≠ 0 := by
  rintro rfl
  exact Nat.lt_irrefl 0 (mem_tostringKey h).1

/-- The string in the buffer is the key, since its first zero byte is the terminator. -/
theorem cString_tostringKeyBuffer (number : BitVec 64) (key : KeyBuffer) :
    cString (tostringKeyBuffer number key).toList = tostringKey number := by
  rw [toList_tostringKeyBuffer, cString, List.takeWhile_append_of_pos]
  · simp
  · exact fun b hb => decide_eq_true (ne_zero_of_mem_tostringKey hb)

/-! ## The hash table -/

/-- `struct kv_hdr`: the two strings; the node of the table is left to the model of the table. -/
structure KvHdr where
  key : Bytes
  value : Bytes
  deriving DecidableEq, Repr

/-- A `tommy_hashlin`: its nodes in the order of their insertion. A search goes through a bucket in
this order, and all nodes with the hash that it looks for are in that bucket. -/
abbrev TommyHashlin : Type := List KvHdr

namespace TommyHashlin

/-- `tommy_put_init`; without memory for the node nothing is inserted. There is no search for the
key before. -/
def putInit (malloc : Bool) (t : TommyHashlin) (key value : Bytes) : TommyHashlin :=
  if malloc then t ++ [⟨key, value⟩] else t

/-- `tommy_hashlin_search` with the hash of the key: the first node whose key compares equal, in the
order of insertion. -/
def search (t : TommyHashlin) (key : Bytes) : Option KvHdr := t.find? fun kv => kv.key = key

/-- `tommy_get`: the value of the node that the search finds. -/
def get (t : TommyHashlin) (key : Bytes) : Option Bytes := (t.search key).map KvHdr.value

/-- The assignment to the node that `tommy_hashlin_search` finds, which is the first one with the
key. -/
def setValue (key value : Bytes) : TommyHashlin → TommyHashlin
  | [] => []
  | kv :: t => if kv.key = key then { kv with value := value } :: t else kv :: setValue key value t

/-- `tommy_put`, where there is memory: a key that is stored gets the new value, any other a new
node. -/
def put (t : TommyHashlin) (key value : Bytes) : TommyHashlin :=
  if (t.search key).isSome then setValue key value t else t ++ [⟨key, value⟩]

/-- The keys of the nodes, one for each node. -/
def keys (t : TommyHashlin) : List Bytes := t.map KvHdr.key

/-- After the assignment, the key has the new value and all other keys have theirs. Later nodes with
the same key are not reached. -/
theorem get_setValue {t : TommyHashlin} {key : Bytes} (h : (t.search key).isSome)
    (value key' : Bytes) :
    (setValue key value t).get key' = if key' = key then some value else t.get key' := by
  induction t with
  | nil => cases h
  | cons kv t ih =>
    rw [setValue]
    by_cases hkv : kv.key = key
    · by_cases hkey' : key' = key
      · simp [hkv, get, search, hkey']
      · have hne : ¬ key = key' := fun heq => hkey' heq.symm
        simp [hkv, get, search, hkey', hne]
    · have htail : (search t key).isSome := by simpa [search, hkv] using h
      rw [if_neg hkv]
      by_cases hkv' : kv.key = key'
      · have hkey' : ¬ key' = key := fun heq => hkv (hkv'.trans heq)
        simp [get, search, hkv', hkey']
      · simpa [get, search, hkv'] using ih htail

/-- `tommy_put` is the update of the function that `tommy_get` is, so a worker may be modelled by
that function. -/
theorem get_put (t : TommyHashlin) (key value : Bytes) :
    (t.put key value).get = Function.update t.get key (some value) := by
  funext key'
  rw [put, Function.update_apply]
  split
  · next h => exact get_setValue h value key'
  · next h =>
    have hnone : t.search key = none := by simpa using h
    by_cases hkey' : key' = key
    · subst hkey'
      rw [search, List.find?_eq_none] at hnone
      simp only [decide_eq_true_eq] at hnone
      rw [if_pos rfl, get, search, List.find?_append, List.find?_eq_none.2 (by simpa using hnone)]
      simp
    · have hne : ¬ key = key' := fun heq => hkey' heq.symm
      simp [get, search, List.find?_append, hkey', hne]

/-- The assignment changes no key. -/
theorem keys_setValue (key value : Bytes) (t : TommyHashlin) :
    (setValue key value t).keys = t.keys := by
  induction t with
  | nil => rfl
  | cons kv t ih =>
    rw [setValue]
    split
    · rfl
    · rw [keys, keys, List.map_cons, List.map_cons, ← keys, ← keys, ih]

/-- `tommy_put` does not put a key in twice. -/
theorem put_nodup {t : TommyHashlin} (h : t.keys.Nodup) (key value : Bytes) :
    (t.put key value).keys.Nodup := by
  rw [put]
  split
  · rwa [keys_setValue]
  · next hnone =>
    have hkey : key ∉ t.keys := by simpa [search, keys] using hnone
    rw [keys, List.map_append, List.map_singleton, ← List.concat_eq_append, List.nodup_concat]
    exact ⟨hkey, h⟩

/-- A search finds an inserted node of a table that has no key twice. -/
theorem get_of_mem {t : TommyHashlin} (h : t.keys.Nodup) {kv : KvHdr} (hkv : kv ∈ t) :
    t.get kv.key = some kv.value := by
  induction t with
  | nil => cases hkv
  | cons kv' t ih =>
    obtain ⟨hnot, h⟩ := List.nodup_cons.1 h
    rcases List.mem_cons.1 hkv with rfl | hkv
    · simp [get, search]
    · have hne : ¬ kv'.key = kv.key := fun heq => hnot (heq ▸ List.mem_map_of_mem hkv)
      simpa [get, search, hne] using ih h hkv

end TommyHashlin

/-! ## The items of a partition -/

/-- `SMALL_VALUE`. -/
abbrev smallValue : Nat := 64
/-- `LARGE_VALUE`. -/
abbrev largeValue : Nat := 1024

/-- The value of a new item, by the outcome of `rand() % 100 >= LRATIO`. -/
def initialValue (small : Bool) : Bytes :=
  List.replicate (if small then smallValue else largeValue) byteA

/-- The turn of the start-up loop for the item `i`: an item of another partition is skipped. -/
def startUpStep (malloc small : Nat → Bool) (numWorkers : Nat) (ipaddr : BitVec 32)
    (partitionId : Nat) (t : TommyHashlin) (i : Nat) : TommyHashlin :=
  let keyStr := tostringKey (BitVec.ofNat 64 i)
  if inPartition numWorkers ipaddr partitionId keyStr then
    t.putInit (malloc i) keyStr (initialValue (small i))
  else t

/-- The table of a worker after the start-up loop, by what `malloc` and `rand` return for each item.
-/
def startUp (malloc small : Nat → Bool) (numWorkers : Nat) (ipaddr : BitVec 32)
    (partitionId : Nat) : TommyHashlin :=
  (List.range datasetSize).foldl (startUpStep malloc small numWorkers ipaddr partitionId) []

section
variable (malloc small : Nat → Bool) (numWorkers : Nat) (ipaddr : BitVec 32) (partitionId : Nat)

/-- The nodes are those of the items of the partition for which there was memory, in order. By
induction on the items. -/
theorem startUp_eq :
    startUp malloc small numWorkers ipaddr partitionId =
      ((List.range datasetSize).filter fun i =>
        inPartition numWorkers ipaddr partitionId (tostringKey (BitVec.ofNat 64 i)) && malloc i).map
        fun i => ⟨tostringKey (BitVec.ofNat 64 i), initialValue (small i)⟩ := by
  rw [startUp]
  induction List.range datasetSize using List.reverseRecOn with
  | nil => rfl
  | append_singleton l i ih =>
    rw [List.foldl_concat, ih, startUpStep, List.filter_append, List.map_append]
    simp only [TommyHashlin.putInit]
    split
    · split <;> simp [*]
    · simp [*]

/-- No key is put in twice, and only keys of the partition are: the keys are some of those of the
partition, in the same order. -/
theorem keys_startUp_sublist :
    (startUp malloc small numWorkers ipaddr partitionId).keys.Sublist
      (partitionKeys numWorkers ipaddr partitionId) := by
  rw [startUp_eq, TommyHashlin.keys, partitionKeys, List.map_map, List.filter_map]
  refine List.Sublist.map _ (List.monotone_filter_right _ fun i hi => ?_)
  exact (Bool.and_eq_true_iff.1 hi).1

/-- The keys of a partition are distinct, so those of its worker are: `tommy_put_init` need not look
for a key before it inserts it. -/
theorem keys_startUp_nodup : (startUp malloc small numWorkers ipaddr partitionId).keys.Nodup :=
  (partitionKeys_nodup numWorkers ipaddr partitionId).sublist
    (keys_startUp_sublist malloc small numWorkers ipaddr partitionId)

/-- A worker finds the items of its partition, each with the value that the loop has given it. -/
theorem get_startUp {i : Nat} (hi : i < datasetSize) (hmalloc : malloc i = true)
    (hpart : inPartition numWorkers ipaddr partitionId (tostringKey (BitVec.ofNat 64 i)) = true) :
    (startUp malloc small numWorkers ipaddr partitionId).get (tostringKey (BitVec.ofNat 64 i)) =
      some (initialValue (small i)) := by
  have hmem : ⟨tostringKey (BitVec.ofNat 64 i), initialValue (small i)⟩ ∈
      startUp malloc small numWorkers ipaddr partitionId := by
    rw [startUp_eq]
    refine List.mem_map.2 ⟨i, List.mem_filter.2 ⟨List.mem_range.2 hi, ?_⟩, rfl⟩
    rw [hpart, hmalloc, Bool.and_self]
  have hget := TommyHashlin.get_of_mem
    (keys_startUp_nodup malloc small numWorkers ipaddr partitionId) hmem
  exact hget

end

/-- The table of a worker stays the function that the worker's steps are stated with: a WRITE
changes both alike. -/
theorem TommyHashlin.put_refines {w : Worker} {t : TommyHashlin} (h : w.hashlin = t.get)
    (junk : Bytes) (b : Payload) :
    (w.put junk b).hashlin =
      (t.put b.orgKey (List.replicate b.value.length byteA ++ junk)).get := by
  rw [Worker.put, get_put, h]

/-- The characters of `CHARSET`. -/
def charsetBytes : Bytes := charset.map fun c => BitVec.ofNat 8 c.toNat

/-- The characters of a key are characters of `CHARSET`. -/
theorem tostringKey_subset (n : BitVec 64) : tostringKey n ⊆ charsetBytes := by
  have hchars : ∀ j < charsetSize, charByte j ∈ charsetBytes := by decide
  intro b hb
  rcases mem_tostringKeyLoop _ hb with hnil | ⟨j, hj, rfl⟩
  · cases hnil
  · exact hchars j hj

/-- Items have different keys of `KEY_SIZE - 1` characters of the charset and a terminator, and a
worker starts with no key stored twice. The characters are the digits of the transformed number, and
both steps can be undone for 64 bits. -/
theorem tostringKey_unique :
    (∀ a b key key', cString (tostringKeyBuffer a key).toList =
        cString (tostringKeyBuffer b key').toList ↔ a = b) ∧
    (∀ number key, ∃ chars : Bytes, (tostringKeyBuffer number key).toList = chars ++ [0] ∧
      chars.length = keySize - 1 ∧ chars ⊆ charsetBytes) ∧
    ∀ malloc small numWorkers ipaddr partitionId,
      (startUp malloc small numWorkers ipaddr partitionId).keys.Nodup := by
  refine ⟨fun a b key key' => ?_, fun number key => ?_, keys_startUp_nodup⟩
  · rw [cString_tostringKeyBuffer, cString_tostringKeyBuffer]
    exact tostringKey_injective.eq_iff
  · exact ⟨tostringKey number, toList_tostringKeyBuffer number key, length_tostringKey number,
      tostringKey_subset number⟩

end OrbitCache
