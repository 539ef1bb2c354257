import Mathlib.Data.Int.Order.Basic
import Mathlib.Data.List.Induction
import OrbitCache.Host.Key
import OrbitCache.Lib.Sift

/-!
# The hot key report

The count-min sketch and the table of the `TOP_K_SIZE` keys with the highest estimates that a worker
keeps for its report. An `int` is a 32-bit word that is read as a signed number. The table is kept
in heap order by `heapify` after every change, but a new entry is only sunk, never raised: when its
estimate is smaller than the entry above its place, the first entry need not be the least one.
`keepsHeaviest` excludes such entries.
-/

namespace OrbitCache

/-! ## The sketch -/

/-- `TOP_K_SIZE`. -/
abbrev topKSize : Nat := 10
/-- `HASH_FUNCTIONS`. -/
abbrev hashFunctions : Nat := 5
/-- `SKETCH_WIDTH`. -/
abbrev sketchWidth : Nat := 65536
/-- `INT_MAX`. -/
abbrev intMax : BitVec 32 := 0x7FFFFFFF

/-- `HASH_SALTS`, one for each row. -/
def hashSalts (i : Nat) : BitVec 32 := [0xAAAA, 0xBBBB, 0xCCCC, 0xDDDD, 0xEEEE].getD i 0

/-- `murmurHash3`, which does not use its seed, so every salt gives the same hash. -/
def murmurHash3 (key _seed : BitVec 32) : BitVec 32 :=
  let key := key ^^^ (key >>> 16)
  let key := key * 0x85ebca6b
  let key := key ^^^ (key >>> 13)
  let key := key * 0xc2b2ae35
  key ^^^ (key >>> 16)

/-- `hash2`, which does not use its function index; the characters of the key are signed. -/
def hash2 (_functionIndex : Nat) (key : Bytes) (salt : BitVec 32) : Nat :=
  let hash := key.foldl (fun hash c => murmurHash3 (hash * 31 + c.signExtend 32) salt) 0
  (hash.toInt.tmod sketchWidth).natAbs

/-- `CountMinSketch`, by row and column. -/
structure CountMinSketch where
  count : Nat → Nat → BitVec 32

/-- The column of a key in a row, with the salt of that row. -/
def column (key : Bytes) (i : Nat) : Nat := hash2 i key (hashSalts i)

/-- `count[i][idx]++`. -/
def CountMinSketch.increment (cms : CountMinSketch) (i idx : Nat) : CountMinSketch :=
  ⟨Function.update cms.count i (Function.update (cms.count i) idx (cms.count i idx + 1))⟩

/-- `updateCMS`: the key is counted once in each row, in the column of the row. -/
def updateCMS (cms : CountMinSketch) (key : Bytes) : CountMinSketch :=
  (List.range hashFunctions).foldl (fun cms i => cms.increment i (column key i)) cms

/-- `getPopularity`: the least counter of the key, compared as signed numbers from `INT_MAX` on. -/
def getPopularity (cms : CountMinSketch) (key : Bytes) : BitVec 32 :=
  (List.range hashFunctions).foldl (fun minFreq i =>
    if (cms.count i (column key i)).toInt < minFreq.toInt then cms.count i (column key i)
    else minFreq) intMax

/-- The counters of a key are below `INT_MAX`, so counting the key once more does not overflow. -/
def CountMinSketch.Fits (cms : CountMinSketch) (key : Bytes) : Prop :=
  ∀ i < hashFunctions, (cms.count i (column key i)).toInt < intMax.toInt

/-- Counting below `INT_MAX` adds one. -/
theorem toInt_add_one {x : BitVec 32} (h : x.toInt < intMax.toInt) :
    (x + 1).toInt = x.toInt + 1 := by
  have hmax : intMax.toInt = 2147483647 := by decide
  have hone : (1 : BitVec 32).toInt = 1 := by decide
  have hlow := BitVec.le_toInt x
  rw [BitVec.toInt_add, hone, Int.bmod_eq_of_le] <;> omega

/-- Counting in a cell changes that cell alone. -/
theorem count_increment (cms : CountMinSketch) (i idx i' c : Nat) :
    (cms.increment i idx).count i' c =
      if i' = i ∧ c = idx then cms.count i' c + 1 else cms.count i' c := by
  rw [CountMinSketch.increment]
  by_cases hi : i' = i
  · subst hi
    by_cases hc : c = idx
    · subst hc
      simp
    · simp [hc]
  · simp [hi]

/-- `updateCMS` counts in the key's column of each row and nowhere else. -/
theorem count_updateCMS (cms : CountMinSketch) (key : Bytes) (i c : Nat) :
    (updateCMS cms key).count i c =
      if i < hashFunctions ∧ c = column key i then cms.count i c + 1 else cms.count i c := by
  rw [updateCMS]
  induction hashFunctions with
  | zero => rfl
  | succ n ih =>
    rw [List.range_succ, List.foldl_concat, count_increment, ih]
    by_cases hi : i = n
    · subst hi
      simp
    · have hlt : i < n + 1 ↔ i < n := by omega
      simp only [hi, hlt, false_and, if_false]

/-- `getPopularity` is the least counter of the key: what is below it is below all of them. -/
theorem le_getPopularity_iff {cms : CountMinSketch} {key : Bytes} {x : Int} :
    x ≤ (getPopularity cms key).toInt ↔
      x ≤ intMax.toInt ∧ ∀ i < hashFunctions, x ≤ (cms.count i (column key i)).toInt := by
  rw [getPopularity]
  induction hashFunctions with
  | zero => simp
  | succ n ih =>
    rw [List.range_succ, List.foldl_concat]
    have hsucc : (∀ i < n + 1, x ≤ (cms.count i (column key i)).toInt) ↔
        (∀ i < n, x ≤ (cms.count i (column key i)).toInt) ∧
          x ≤ (cms.count n (column key n)).toInt :=
      Nat.forall_lt_succ_right
    rw [hsucc, ← and_assoc, ← ih]
    split <;> omega

/-- The estimates do not fall when a key is counted. -/
theorem getPopularity_le_updateCMS {cms : CountMinSketch} {key : Bytes} (h : cms.Fits key)
    (k : Bytes) : (getPopularity cms k).toInt ≤ (getPopularity (updateCMS cms key) k).toInt := by
  obtain ⟨hmax, hcount⟩ := le_getPopularity_iff.1 (le_refl (getPopularity cms k).toInt)
  refine le_getPopularity_iff.2 ⟨hmax, fun i hi => (hcount i hi).trans ?_⟩
  rw [count_updateCMS]
  split
  · next hcol =>
    rw [hcol.2, toInt_add_one (h i hi)]
    omega
  · exact le_rfl

/-- The estimate of the key that is counted grows by one, since its counter in each row does. -/
theorem getPopularity_updateCMS {cms : CountMinSketch} {key : Bytes} (h : cms.Fits key) :
    (getPopularity (updateCMS cms key) key).toInt = (getPopularity cms key).toInt + 1 := by
  have hcount (i : Nat) (hi : i < hashFunctions) :
      ((updateCMS cms key).count i (column key i)).toInt =
        (cms.count i (column key i)).toInt + 1 := by
    rw [count_updateCMS, if_pos ⟨hi, rfl⟩, toInt_add_one (h i hi)]
  apply le_antisymm
  · obtain ⟨hmax, hle⟩ :=
      le_getPopularity_iff.1 (le_refl (getPopularity (updateCMS cms key) key).toInt)
    have hpred :
        (getPopularity (updateCMS cms key) key).toInt - 1 ≤ (getPopularity cms key).toInt := by
      refine le_getPopularity_iff.2 ⟨by omega, fun i hi => ?_⟩
      have hi' := hle i hi
      rw [hcount i hi] at hi'
      omega
    omega
  · obtain ⟨-, hle⟩ := le_getPopularity_iff.1 (le_refl (getPopularity cms key).toInt)
    refine le_getPopularity_iff.2 ⟨?_, fun i hi => ?_⟩
    · have h0 := hle 0 (by decide)
      have hlt := h 0 (by decide)
      omega
    · rw [hcount i hi]
      have hi' := hle i hi
      omega

/-! ## The table -/

/-- `TopKItem`. The key is what the C string in `char key[KEY_SIZE]` is. Only the `strcpy` of
`updateTopK` puts keys there, and `Report.put` asks whether the string fits in front of the
popularity. -/
structure TopKItem where
  key : Bytes
  popularity : BitVec 32
  deriving DecidableEq

/-- The popularity of an entry as a signed number. -/
def TopKItem.weight (e : TopKItem) : Int := e.popularity.toInt

/-- `heapify`, on the entries as a function; it sinks the entry at `i` among the first `topKCount`.
-/
def heapify (topK : Nat → TopKItem) (topKCount i : Nat) : Nat → TopKItem :=
  Sift.down TopKItem.weight topK topKCount i

/-- `cms`, `topK` and `topKCount` of a worker, and whether a key has overrun its field. -/
structure Report where
  cms : CountMinSketch
  topK : Nat → TopKItem
  topKCount : Nat
  /-- A `strcpy` wrote past the `key` of an entry; nothing is known of the table from then on. -/
  overrun : Bool

/-- The place of a key in the table, if it has one: the loop with `strcmp` stops at the first. -/
def Report.find (r : Report) (key : Bytes) : Option Nat :=
  (List.range r.topKCount).find? fun i => (r.topK i).key == key

/-- `strcpy(topK[p].key, key)`, the popularity, and `heapify` from `p` on a table of `n` entries. A
key that does not fit its field runs over the popularity behind it. -/
def Report.put (r : Report) (p n : Nat) (key : Bytes) (freq : BitVec 32) : Report :=
  if key.length < keySize then
    { r with topK := heapify (Function.update r.topK p ⟨key, freq⟩) n p, topKCount := n }
  else { r with overrun := true }

/-- `updateTopK`: a key in the table gets its new popularity, and any other one takes a free place,
or the first place if it is more popular than the entry there. -/
def updateTopK (r : Report) (key : Bytes) : Report :=
  let freq := getPopularity r.cms key
  match r.find key with
  | some i =>
    { r with
      topK :=
        heapify (Function.update r.topK i { r.topK i with popularity := freq }) r.topKCount i }
  | none =>
    if r.topKCount < topKSize then r.put r.topKCount (r.topKCount + 1) key freq
    else if freq.toInt > (r.topK 0).popularity.toInt then r.put 0 r.topKCount key freq
    else r

/-- `resetReport`: all counters are zero and no place is in use. -/
def resetReport : Report := ⟨⟨fun _ _ => 0⟩, fun _ => ⟨[], 0⟩, 0, false⟩

namespace Report

/-- `updateCMS` and `updateTopK` for one key, as the worker calls them for each request. -/
def step (r : Report) (key : Bytes) : Report :=
  updateTopK { r with cms := updateCMS r.cms key } key

/-- The report after a stream of keys, from a report that was reset. -/
def process (stream : List Bytes) : Report := stream.foldl step resetReport

/-- The last key of a stream is processed on the report of those before it. -/
theorem process_concat (stream : List Bytes) (key : Bytes) :
    process (stream ++ [key]) = (process stream).step key := List.foldl_concat ..

/-- The estimate `updateTopK` gets for a key that is processed next, after it was counted. -/
def estimate (r : Report) (key : Bytes) : Int := (getPopularity (updateCMS r.cms key) key).toInt

/-- A key is in the table. -/
def InTable (r : Report) (key : Bytes) : Prop := ∃ i < r.topKCount, (r.topK i).key = key

/-- The entry of a key in the table. -/
def Recorded (r : Report) (key : Bytes) (popularity : Int) : Prop :=
  ∃ i < r.topKCount, (r.topK i).key = key ∧ (r.topK i).weight = popularity

/-! ## One step -/

/-- The place that is found is in use and has the key. -/
theorem find_eq_some {r : Report} {key : Bytes} {i : Nat} (h : r.find key = some i) :
    i < r.topKCount ∧ (r.topK i).key = key :=
  ⟨List.mem_range.1 (List.mem_of_find?_eq_some h), by simpa using List.find?_some h⟩

/-- A key that is not found is not in the table, since the loop looks at every entry. -/
theorem find_eq_none {r : Report} {key : Bytes} (h : r.find key = none) : ¬ r.InTable key := by
  rintro ⟨i, hi, hkey⟩
  have hne := List.find?_eq_none.1 h i (List.mem_range.2 hi)
  simp [hkey] at hne

/-- The place `p` where a step writes the key, and the number `n` of entries after it: the key's own
place, the first free one, or that of a lighter entry. -/
inductive Place (r : Report) (key : Bytes) : Nat → Nat → Prop
  | hit {p} : p < r.topKCount → (r.topK p).key = key → Place r key p r.topKCount
  | insert : ¬ r.InTable key → r.topKCount < topKSize → Place r key r.topKCount (r.topKCount + 1)
  | replace : ¬ r.InTable key → topKSize ≤ r.topKCount → (r.topK 0).weight < r.estimate key →
      Place r key 0 r.topKCount

/-- The entry a step writes: the key, with its new estimate. -/
def newEntry (r : Report) (key : Bytes) : TopKItem := ⟨key, getPopularity (updateCMS r.cms key) key⟩

/-- It has the key, -/
@[simp] theorem newEntry_key (r : Report) (key : Bytes) : (r.newEntry key).key = key := rfl

/-- and the estimate as its weight. -/
@[simp] theorem newEntry_weight (r : Report) (key : Bytes) :
    (r.newEntry key).weight = r.estimate key := by
  rw [TopKItem.weight, newEntry, estimate]

/-- The estimate is one more than before the step. -/
theorem estimate_eq {r : Report} {key : Bytes} (h : r.cms.Fits key) :
    r.estimate key = (getPopularity r.cms key).toInt + 1 := getPopularity_updateCMS h

/-- A step with a key that fits its field counts the key; then it leaves a full table of entries
that are not lighter as it is, or writes an entry and sinks it. -/
theorem step_cases (r : Report) {key : Bytes} (hkey : IsKey key) :
    (¬ r.InTable key ∧ topKSize ≤ r.topKCount ∧ r.estimate key ≤ (r.topK 0).weight ∧
      r.step key = { r with cms := updateCMS r.cms key }) ∨
    ∃ p n, Place r key p n ∧ r.step key =
      ⟨updateCMS r.cms key, heapify (Function.update r.topK p (r.newEntry key)) n p, n,
        r.overrun⟩ := by
  have hfits := hkey.length_lt
  have hfind : Report.find { r with cms := updateCMS r.cms key } key = r.find key := rfl
  rw [step, updateTopK, hfind]
  cases hf : r.find key with
  | some i =>
    obtain ⟨hi, hsame⟩ := find_eq_some hf
    refine Or.inr ⟨_, _, .hit hi hsame, ?_⟩
    simp only [newEntry, hsame]
  | none =>
    have hnot := find_eq_none hf
    simp only [put, if_pos hfits]
    split
    · next hlt => exact Or.inr ⟨_, _, .insert hnot hlt, rfl⟩
    · next hfull =>
      split
      · next hgt => exact Or.inr ⟨_, _, .replace hnot (Nat.le_of_not_lt hfull) hgt, rfl⟩
      · next hle => exact Or.inl ⟨hnot, Nat.le_of_not_lt hfull, Int.not_lt.1 hle, rfl⟩

/-- `heapify` rearranges the table, so a property of all its entries stays true, and holds only if
it held before. -/
theorem forall_heapify {a : Nat → TopKItem} {n i : Nat} {P : TopKItem → Prop} :
    (∀ j < n, P (heapify a n i j)) ↔ ∀ j < n, P (a j) := by
  obtain ⟨σ, hσ, hlt⟩ := Sift.exists_perm TopKItem.weight a n i
  rw [heapify, hσ]
  constructor
  · intro h j hj
    have hj' := h (σ.symm j) (by rwa [← hlt, Equiv.apply_symm_apply])
    rwa [Function.comp_apply, Equiv.apply_symm_apply] at hj'
  · intro h j hj
    exact h _ ((hlt j).2 hj)

/-- A step counts the key in the sketch, whatever it does to the table. -/
theorem step_cms (r : Report) {key : Bytes} (hkey : IsKey key) :
    (r.step key).cms = updateCMS r.cms key := by
  rcases r.step_cases hkey with ⟨-, -, -, hstep⟩ | ⟨p, n, h, hstep⟩
  all_goals rw [hstep]

/-- A step with a key that fits its field writes nothing past it. -/
theorem step_overrun (r : Report) {key : Bytes} (hkey : IsKey key) :
    (r.step key).overrun = r.overrun := by
  rcases r.step_cases hkey with ⟨-, -, -, hstep⟩ | ⟨p, n, h, hstep⟩
  all_goals rw [hstep]

/-- A table of at most `TOP_K_SIZE` different keys: the part of the invariant that does not need the
weights, and so holds of every stream whose keys fit. -/
structure Keys (r : Report) : Prop where
  count_le : r.topKCount ≤ topKSize
  keys_inj : ∀ i < r.topKCount, ∀ j < r.topKCount, (r.topK i).key = (r.topK j).key → i = j

section
variable {r : Report} {key : Bytes} {p n : Nat}

namespace Place

/-- The place is within the new table. -/
theorem lt (h : Place r key p n) : p < n := by
  cases h with
  | hit hp => exact hp
  | insert => exact Nat.lt_succ_self _
  | replace _ hfull => exact Nat.lt_of_lt_of_le (by decide) hfull

/-- The new table is not larger than the array. -/
theorem le_size (h : Place r key p n) (hr : r.Keys) : n ≤ topKSize := by
  cases h with
  | hit | replace => exact hr.count_le
  | insert _ hlt => exact hlt

/-- The other entries stay, with keys of their own, none of them the key that is written. -/
theorem others (h : Place r key p n) (hr : r.Keys) {j : Nat} (hj : j < n) (hne : j ≠ p) :
    j < r.topKCount ∧ (r.topK j).key ≠ key := by
  cases h with
  | hit hp hkey => exact ⟨hj, fun h => hne (hr.keys_inj j hj p hp (h.trans hkey.symm))⟩
  | insert hnot =>
    have hlt : j < r.topKCount := by omega
    exact ⟨hlt, fun h => hnot ⟨j, hlt, h⟩⟩
  | replace hnot => exact ⟨hj, fun h => hnot ⟨j, hj, h⟩⟩

/-- An old entry stays, unless it is the first one of a full table that makes room. -/
theorem stays (h : Place r key p n) {j : Nat} (hj : j < r.topKCount) (hne : (r.topK j).key ≠ key) :
    (j < n ∧ j ≠ p) ∨
      (j = 0 ∧ p = 0 ∧ topKSize ≤ r.topKCount ∧ (r.topK 0).weight < r.estimate key) := by
  cases h with
  | hit hp hkey => exact Or.inl ⟨hj, fun h => hne (h ▸ hkey)⟩
  | insert => exact Or.inl ⟨by omega, by omega⟩
  | replace _ hfull hlt =>
    by_cases h0 : j = 0
    · exact Or.inr ⟨h0, rfl, hfull, hlt⟩
    · exact Or.inl ⟨hj, h0⟩

/-- The keys are different after a change at `p`, since the key was not in the table elsewhere. -/
theorem keys_inj (h : Place r key p n) (hr : r.Keys) {i j : Nat} (hi : i < n) (hj : j < n)
    (hk : (Function.update r.topK p (r.newEntry key) i).key =
      (Function.update r.topK p (r.newEntry key) j).key) : i = j := by
  by_cases hip : i = p
  · by_cases hjp : j = p
    · rw [hip, hjp]
    · rw [hip, Function.update_self, Function.update_of_ne hjp] at hk
      exact absurd hk.symm (h.others hr hj hjp).2
  · by_cases hjp : j = p
    · rw [hjp, Function.update_self, Function.update_of_ne hip] at hk
      exact absurd hk (h.others hr hi hip).2
    · rw [Function.update_of_ne hip, Function.update_of_ne hjp] at hk
      exact hr.keys_inj i (h.others hr hi hip).1 j (h.others hr hj hjp).1 hk

end Place

/-- A report that was reset has no entries. -/
theorem keys_reset : resetReport.Keys where
  count_le := Nat.zero_le _
  keys_inj i hi := absurd hi (Nat.not_lt_zero i)

/-- A step keeps the keys different, in each of its ways, whether its key was in the table or not.
-/
theorem Keys.step (hr : r.Keys) (hkey : IsKey key) : (r.step key).Keys := by
  rcases r.step_cases hkey with ⟨-, -, -, hstep⟩ | ⟨p, n, h, hstep⟩
  · rw [hstep]
    exact ⟨hr.count_le, hr.keys_inj⟩
  · rw [hstep]
    refine ⟨h.le_size hr, fun i hi j hj hk => ?_⟩
    obtain ⟨σ, hσ, hlt⟩ := Sift.exists_perm TopKItem.weight
      (Function.update r.topK p (r.newEntry key)) n p
    simp only [heapify, hσ, Function.comp_apply] at hk
    exact σ.injective (h.keys_inj hr ((hlt i).2 hi) ((hlt j).2 hj) hk)

/-- The entries after a step: the key's new one, and old ones of other keys. It is the rule by which
facts about the entries are carried over a step. -/
theorem forall_step (hr : r.Keys) (hkey : IsKey key) {P : TopKItem → Prop}
    (hnew : P (r.newEntry key))
    (hold : ∀ j < r.topKCount, (r.topK j).key ≠ key → P (r.topK j)) :
    ∀ j < (r.step key).topKCount, P ((r.step key).topK j) := by
  rcases r.step_cases hkey with ⟨hnot, -, -, hstep⟩ | ⟨p, n, h, hstep⟩
  · rw [hstep]
    exact fun j hj => hold j hj fun hk => hnot ⟨j, hj, hk⟩
  · rw [hstep, forall_heapify]
    intro j hj
    by_cases hjp : j = p
    · rw [hjp, Function.update_self]
      exact hnew
    · rw [Function.update_of_ne hjp]
      obtain ⟨hj', hne⟩ := h.others hr hj hjp
      exact hold j hj' hne

/-- The keys of a table that was changed at `p`: the new one and those of the other entries. -/
theorem Place.inTable (h : Place r key p n) {k : Bytes}
    (hk : k = key ∨ ∃ j < n, j ≠ p ∧ (r.topK j).key = k) :
    (⟨updateCMS r.cms key, heapify (Function.update r.topK p (r.newEntry key)) n p, n,
      r.overrun⟩ : Report).InTable k := by
  by_contra hout
  have hall : ∀ j < n, (heapify (Function.update r.topK p (r.newEntry key)) n p j).key ≠ k :=
    fun j hj hk => hout ⟨j, hj, hk⟩
  rw [forall_heapify (P := fun e => e.key ≠ k)] at hall
  rcases hk with rfl | ⟨j, hj, hjp, hk⟩
  · have hnew := hall p h.lt
    rw [Function.update_self] at hnew
    exact hnew rfl
  · have hold := hall j hj
    rw [Function.update_of_ne hjp] at hold
    exact hold hk

/-- A key that is not in the table right after it was processed was too light for a full table. -/
theorem rejected (hkey : IsKey key) (hout : ¬ (r.step key).InTable key) :
    topKSize ≤ r.topKCount ∧ r.estimate key ≤ (r.topK 0).weight := by
  rcases r.step_cases hkey with ⟨-, hfull, hlight, -⟩ | ⟨p, n, h, hstep⟩
  · exact ⟨hfull, hlight⟩
  · rw [hstep] at hout
    exact absurd (h.inTable (Or.inl rfl)) hout

/-- A key that leaves the table was recorded in the first entry of a full table, which was lighter
than the key that was processed. -/
theorem leaves {k : Bytes} {e : Int} (hkey : IsKey key) (hrec : r.Recorded k e)
    (hout : ¬ (r.step key).InTable k) :
    e = (r.topK 0).weight ∧ topKSize ≤ r.topKCount ∧ (r.topK 0).weight < r.estimate key := by
  obtain ⟨j, hj, hk, he⟩ := hrec
  rcases r.step_cases hkey with ⟨-, -, -, hstep⟩ | ⟨p, n, h, hstep⟩
  · rw [hstep] at hout
    exact absurd ⟨j, hj, hk⟩ hout
  · rw [hstep] at hout
    have hne : k ≠ key := fun hk => hout (h.inTable (Or.inl hk))
    rcases h.stays hj (hk ▸ hne) with ⟨hjn, hjp⟩ | ⟨rfl, -, hfull, hlt⟩
    · exact absurd (h.inTable (Or.inr ⟨j, hjn, hjp, hk⟩)) hout
    · exact ⟨he.symm, hfull, hlt⟩

end

end Report

end OrbitCache
