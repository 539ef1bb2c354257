import Mathlib.Data.Finset.Max
import Mathlib.Data.Finset.Range
import Mathlib.Order.Bounds.Basic
import OrbitCache.Host.TopK

/-!
# The count-min sketch

What the sketch counts for a stream of keys, and what `getPopularity` makes of it. An estimate is
the least count of a row (`sketch_estimates`). `murmurHash3` uses neither the salt nor the function
index it is given, so all rows have the same columns and the other rows add nothing to one
(`not_rowsIndependent`).
-/

namespace OrbitCache

/-- The sketch after `resetReport` and a stream of keys, each of which was counted once. -/
def sketch (stream : List Bytes) : CountMinSketch := stream.foldl updateCMS resetReport.cms

/-- The elements of a stream that share the column of a key in a row. -/
def rowCount (stream : List Bytes) (key : Bytes) (i : Nat) : Nat :=
  stream.countP fun k => column k i = column key i

/-- The last key of a stream is counted in the sketch of those before it. -/
theorem sketch_concat (stream : List Bytes) (key : Bytes) :
    sketch (stream ++ [key]) = updateCMS (sketch stream) key := List.foldl_concat ..

/-- A remainder by `SKETCH_WIDTH` is a column, whatever the sign of the hash. -/
theorem hash2_lt (functionIndex : Nat) (key : Bytes) (salt : BitVec 32) :
    hash2 functionIndex key salt < sketchWidth := by
  rw [hash2, Int.natAbs_tmod]
  exact Nat.mod_lt _ (by decide)

/-- The column of a key is within its row. -/
theorem column_lt (key : Bytes) (i : Nat) : column key i < sketchWidth := hash2_lt i key _

/-! ## Counts -/

/-- One more key shares the column or does not. -/
theorem rowCount_concat (stream : List Bytes) (k key : Bytes) (i : Nat) :
    rowCount (stream ++ [k]) key i =
      rowCount stream key i + if column k i = column key i then 1 else 0 := by
  rw [rowCount, List.countP_append, List.countP_singleton, ← rowCount]
  simp only [decide_eq_true_eq]

/-- No more keys share a column than there are. -/
theorem rowCount_le_length (stream : List Bytes) (key : Bytes) (i : Nat) :
    rowCount stream key i ≤ stream.length := List.countP_le_length

/-- A key shares the column with itself. -/
theorem count_le_rowCount (stream : List Bytes) (key : Bytes) (i : Nat) :
    stream.count key ≤ rowCount stream key i := by
  rw [List.count, rowCount]
  refine List.countP_mono_left fun k _ hk => ?_
  rw [beq_iff_eq.1 hk, decide_eq_true_eq]

/-- Counts do not fall as the stream goes on. -/
theorem rowCount_append_le (stream more : List Bytes) (key : Bytes) (i : Nat) :
    rowCount stream key i ≤ rowCount (stream ++ more) key i := by
  rw [rowCount, rowCount, List.countP_append]
  exact Nat.le_add_right _ _

/-- A counter holds the count of its row, as a 32-bit word, by induction on the stream. -/
theorem count_sketch (stream : List Bytes) (key : Bytes) {i : Nat} (hi : i < hashFunctions) :
    (sketch stream).count i (column key i) = BitVec.ofNat 32 (rowCount stream key i) := by
  induction stream using List.reverseRecOn with
  | nil => rfl
  | append_singleton stream k ih =>
    rw [sketch_concat, count_updateCMS, rowCount_concat, ih]
    by_cases hcol : column k i = column key i
    · rw [if_pos ⟨hi, hcol.symm⟩, if_pos hcol, BitVec.ofNat_add]
      rfl
    · rw [if_neg fun h => hcol h.2.symm, if_neg hcol, Nat.add_zero]

/-- As long as the stream is shorter than `2 ^ 31`, the counter is that count. -/
theorem toInt_count_sketch {stream : List Bytes} (h : stream.length < 2 ^ 31) (key : Bytes)
    {i : Nat} (hi : i < hashFunctions) :
    ((sketch stream).count i (column key i)).toInt = rowCount stream key i := by
  have hle := rowCount_le_length stream key i
  rw [count_sketch stream key hi, BitVec.toInt_eq_toNat_of_lt, BitVec.toNat_ofNat]
  · rw [Nat.mod_eq_of_lt (by omega)]
  · rw [BitVec.toNat_ofNat]
    omega

/-! ## Estimates -/

/-- The estimate of a key is the least count of a row; a least one exists, since there are five
rows. -/
theorem getPopularity_sketch {stream : List Bytes} (h : stream.length < 2 ^ 31) (key : Bytes) :
    IsLeast {x : Int | ∃ i < hashFunctions, x = rowCount stream key i}
      (getPopularity (sketch stream) key).toInt := by
  have hmax : intMax.toInt = 2147483647 := by decide
  obtain ⟨hle, hrows⟩ := le_getPopularity_iff.1 (le_refl (getPopularity (sketch stream) key).toInt)
  have hlower : ∀ i < hashFunctions,
      (getPopularity (sketch stream) key).toInt ≤ rowCount stream key i := fun i hi => by
    rw [← toInt_count_sketch h key hi]
    exact hrows i hi
  obtain ⟨i, hi, hmin⟩ := (Finset.range hashFunctions).exists_min_image (rowCount stream key)
    (Finset.nonempty_range_iff.2 (by decide))
  have hi := Finset.mem_range.1 hi
  have hcount := rowCount_le_length stream key i
  refine ⟨⟨i, hi, le_antisymm (hlower i hi) (le_getPopularity_iff.2 ⟨by omega, fun j hj => ?_⟩)⟩,
    ?_⟩
  · rw [toInt_count_sketch h key hj]
    exact_mod_cast hmin j (Finset.mem_range.2 hj)
  · rintro x ⟨j, hj, rfl⟩
    exact hlower j hj

/-- The sketch never underestimates: its columns are in range, an estimate is the least count of a
row, which lies between the occurrences of the key and the length of the stream, and estimates do
not fall. -/
theorem sketch_estimates {stream : List Bytes} (h : stream.length < 2 ^ 31) (key : Bytes) :
    (∀ i, column key i < sketchWidth) ∧
    IsLeast {x : Int | ∃ i < hashFunctions, x = rowCount stream key i}
      (getPopularity (sketch stream) key).toInt ∧
    stream.count key ≤ (getPopularity (sketch stream) key).toInt ∧
    (getPopularity (sketch stream) key).toInt ≤ stream.length ∧
    ∀ more : List Bytes, (stream ++ more).length < 2 ^ 31 →
      (getPopularity (sketch stream) key).toInt ≤
        (getPopularity (sketch (stream ++ more)) key).toInt := by
  obtain ⟨⟨i, hi, hrow⟩, hlower⟩ := getPopularity_sketch h key
  refine ⟨column_lt key, getPopularity_sketch h key, ?_, ?_, fun more hmore => ?_⟩
  · rw [hrow]
    exact_mod_cast count_le_rowCount stream key i
  · rw [hrow]
    exact_mod_cast rowCount_le_length stream key i
  · obtain ⟨⟨j, hj, hrow'⟩, -⟩ := getPopularity_sketch hmore key
    rw [hrow']
    refine (hlower ⟨j, hj, rfl⟩).trans ?_
    exact_mod_cast rowCount_append_le stream more key j

/-- The estimate after one key, and after another one that follows it. -/
theorem sketch_estimates_one : (getPopularity (sketch [[65]]) [65]).toInt = 1 ∧
    1 ≤ (getPopularity (sketch [[65], [66]]) [65]).toInt := by
  have hlen : ([[65]] : List Bytes).length < 2 ^ 31 := by decide
  obtain ⟨-, -, hcount, hlength, hmore⟩ := sketch_estimates hlen [65]
  have hone := le_antisymm hlength hcount
  exact ⟨hone, hone.symm.trans_le (hmore [[66]] (by decide))⟩

/-! ## Rows -/

/-- Two rows have different column functions, as the salts and the function index suggest. -/
def RowsDiffer (i j : Nat) : Prop :=
  (fun key => hash2 i key (hashSalts i)) ≠ fun key => hash2 j key (hashSalts j)

/-- Some keys collide in one row and not in the other. -/
def RowsSeparate (i j : Nat) : Prop :=
  ∃ key key', column key i = column key' i ∧ column key j ≠ column key' j

/-- For some stream and key the estimate is below the counter of a row. -/
def BelowRow (i : Nat) : Prop :=
  ∃ stream key, (getPopularity (sketch stream) key).toInt <
    ((sketch stream).count i (column key i)).toInt

/-- The function index and the salt have no effect: `murmurHash3` does not use its seed either. -/
theorem hash2_eq (i j : Nat) (key : Bytes) (salt salt' : BitVec 32) :
    hash2 i key salt = hash2 j key salt' := rfl

/-- A key has the same column in every row. -/
theorem column_eq (key : Bytes) (i j : Nat) : column key i = column key j := hash2_eq i j key _ _

/-- So the counts of all rows are the same. -/
theorem rowCount_eq (stream : List Bytes) (key : Bytes) (i j : Nat) :
    rowCount stream key i = rowCount stream key j := by
  rw [rowCount, rowCount, column_eq key i j]
  simp only [column_eq _ i j]

/-- All counters of a key are equal, so none is above the estimate. -/
theorem count_le_getPopularity (stream : List Bytes) (key : Bytes) {i : Nat}
    (hi : i < hashFunctions) :
    ((sketch stream).count i (column key i)).toInt ≤ (getPopularity (sketch stream) key).toInt := by
  have hmax : intMax.toInt = 2147483647 := by decide
  refine le_getPopularity_iff.2 ⟨?_, fun j hj => ?_⟩
  · have hlt := BitVec.toInt_lt (x := (sketch stream).count i (column key i))
    omega
  · rw [count_sketch stream key hi, count_sketch stream key hj, rowCount_eq stream key i j]

/-- The rows of the sketch are copies of one row: they neither differ nor separate keys, and no
estimate is below a row's counter. The hash of a row ignores which row it is for. -/
theorem not_rowsIndependent (i j : Fin hashFunctions) :
    ¬ RowsDiffer i j ∧ ¬ RowsSeparate i j ∧ ¬ BelowRow i := by
  refine ⟨fun h => h (funext fun key => column_eq key i j), ?_, ?_⟩
  · rintro ⟨key, key', heq, hne⟩
    exact hne (by rwa [column_eq key j i, column_eq key' j i])
  · rintro ⟨stream, key, hlt⟩
    exact Int.not_lt.2 (count_le_getPopularity stream key i.isLt) hlt

/-- The first two rows have one column function. -/
theorem not_rowsDiffer_zero_one :
    ¬ ∀ i j : Fin hashFunctions, i ≠ j → RowsDiffer i j := by
  intro h
  exact h 0 1 (by decide) (funext fun key => column_eq key 0 1)

end OrbitCache
