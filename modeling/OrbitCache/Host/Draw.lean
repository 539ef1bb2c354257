import Mathlib.Algebra.BigOperators.Field
import Mathlib.Algebra.Order.BigOperators.Group.Finset
import Mathlib.Algebra.Order.Field.Basic
import Mathlib.Data.Rat.Cast.Order
import Mathlib.Logic.Equiv.Basic
import Mathlib.Order.Bounds.Basic
import OrbitCache.Host.Placement
import OrbitCache.Lib.Search

/-!
# Drawing the items of requests

`get_key` and `get_reverse_key`: the item of a request is found by a bisection of a distribution's
table, here in exact arithmetic. A draw `rand() / RAND_MAX` can be 1, which is above no entry:
`inDataset_iff` says that then, and only then, an item outside of the data set is returned.
-/

namespace OrbitCache

/-- The keys of a data set of `n` items, in the order of the items. -/
def datasetKeys (n : Nat) : List Bytes :=
  (List.range n).map fun i => tostringKey (BitVec.ofNat 64 i)

section
variable {α : Type*} [Field α] [LinearOrder α] {n : Nat}

/-! ## Tables -/

/-- A cumulative distribution over `n` items: nondecreasing, between 0 and 1, and 1 at its end. The
values are of any ordered field, so nothing depends on the rounding of doubles. -/
structure CdfTable (α : Type*) [Field α] [LinearOrder α] (n : Nat) where
  entry : Fin n → α
  nonempty : 0 < n
  mono : Monotone entry
  mem_unit : ∀ i, 0 ≤ entry i ∧ entry i ≤ 1
  last : entry ⟨n - 1, Nat.sub_one_lt_of_lt nonempty⟩ = 1

/-- A read of the array; there is nothing outside of its bounds. -/
def CdfTable.read (cdf : CdfTable α n) (i : Int) : Option α :=
  if h : 0 ≤ i ∧ i < n then some (cdf.entry ⟨i.toNat, by omega⟩) else none

/-- The search that `get_key` and `get_reverse_key` make in their tables: a bisection of the signed
indices from 0 to `n - 1`. -/
def CdfTable.draw (cdf : CdfTable α n) (r : α) : Option Int :=
  bisect (fun mid => (cdf.read mid).map fun c => decide (r < c)) 0 (n - 1)

/-- `cdf` and `reverse_cdf`, the two tables of a client. -/
structure DrawTables (α : Type*) [Field α] [LinearOrder α] (n : Nat) where
  cdf : CdfTable α n
  reverseCdf : CdfTable α n

/-- `get_key`, where `rand()` returned `rand`: the draw is the quotient by `RAND_MAX`, which can be
1. -/
def DrawTables.getKey (t : DrawTables α n) (randMax rand : Nat) : Option Int :=
  t.cdf.draw ((rand : α) / randMax)

/-- `get_reverse_key`, where `rand()` returned `rand`, after the popularities were reversed. -/
def DrawTables.getReverseKey (t : DrawTables α n) (randMax rand : Nat) : Option Int :=
  t.reverseCdf.draw ((rand : α) / randMax)

/-- The search returned the least index whose entry is above `r`, an item of the data set. -/
def CdfTable.Draws (cdf : CdfTable α n) (r : α) (result : Option Int) : Prop :=
  ∃ i : Fin n, result = some (i : Int) ∧ IsLeast {j | r < cdf.entry j} i ∧
    tostringKey (BitVec.ofNat 64 i) ∈ datasetKeys n

/-! ## The search -/

namespace CdfTable

/-- A read within the bounds gives the entry. -/
theorem read_eq (cdf : CdfTable α n) (i : Fin n) : cdf.read i = some (cdf.entry i) := by
  rw [read, dif_pos (by omega)]
  simp

/-- The entries from the result on are above `r`, the ones before it are not. The result is `n` if
no entry is above `r`. -/
theorem draw_spec (cdf : CdfTable α n) (r : α) :
    ∃ m : Nat, cdf.draw r = some (m : Int) ∧ m ≤ n ∧ ∀ i : Fin n, r < cdf.entry i ↔ m ≤ i := by
  have hindex (i : Int) (hi : 0 ≤ i) (hi' : i ≤ n - 1) : ∃ j : Fin n, i = (j : Int) :=
    ⟨⟨i.toNat, by omega⟩, by simp [hi]⟩
  have hread : ∀ i : Int, 0 ≤ i → i ≤ n - 1 →
      ((cdf.read i).map fun c => decide (r < c)) = some (decide ((cdf.read i).any (r < ·))) := by
    intro i hi hi'
    obtain ⟨j, rfl⟩ := hindex i hi hi'
    simp [read_eq]
  have hup : UpClosed (fun i => (cdf.read i).any (r < ·)) 0 (n - 1) := by
    intro i j hi hij hj hpi
    obtain ⟨a, rfl⟩ := hindex i hi (by omega)
    obtain ⟨b, rfl⟩ := hindex j (by omega) hj
    simp only [read_eq, Option.any_some, decide_eq_true_eq] at hpi ⊢
    exact hpi.trans_le (cdf.mono (by omega))
  obtain ⟨m, hm, hlow, hhigh, hnot, hall⟩ := bisect_spec hread hup (by omega)
  lift m to Nat using hlow
  refine ⟨m, hm, by omega, fun i => ⟨fun hi => ?_, fun hi => ?_⟩⟩
  · by_contra hlt
    exact hnot i (by omega) (by omega) (by simpa [read_eq] using hi)
  · simpa [read_eq] using hall i (by omega) (by omega)

/-- A draw below 1 finds an item. -/
theorem draws_of_lt_one (cdf : CdfTable α n) {r : α} (h : r < 1) : cdf.Draws r (cdf.draw r) := by
  obtain ⟨m, hm, -, hiff⟩ := cdf.draw_spec r
  have hmn : m < n := by
    have hlast := (hiff ⟨n - 1, Nat.sub_one_lt_of_lt cdf.nonempty⟩).1 (cdf.last ▸ h)
    have hpos := cdf.nonempty
    simp only at hlast
    omega
  refine ⟨⟨m, hmn⟩, hm, ⟨(hiff ⟨m, hmn⟩).2 le_rfl, fun j hj => (hiff j).1 hj⟩, ?_⟩
  exact List.mem_map.2 ⟨m, List.mem_range.2 hmn, rfl⟩

/-- A draw of 1 is above no entry, so no result is right for it. -/
theorem not_draws_one (cdf : CdfTable α n) (result : Option Int) : ¬ cdf.Draws 1 result := by
  rintro ⟨i, -, hi, -⟩
  exact (cdf.mem_unit i).2.not_gt hi.1

/-- The search for a draw of 1 returns the index after the last one, without a read outside of the
table. -/
theorem draw_one (cdf : CdfTable α n) : cdf.draw 1 = some (n : Int) := by
  obtain ⟨m, hm, hle, hiff⟩ := cdf.draw_spec 1
  have hn : n ≤ m := by
    by_contra hlt
    exact (cdf.mem_unit ⟨m, by omega⟩).2.not_gt ((hiff ⟨m, by omega⟩).2 le_rfl)
  rw [hm, Nat.le_antisymm hle hn]

end CdfTable

/-- Every key that a worker stores is one of the data set, and every key of it is stored. -/
theorem mem_datasetKeys_iff {numWorkers : Nat} (h : 0 < numWorkers) (hmax : numWorkers ≤ maxWorkers)
    (key : Bytes) :
    key ∈ datasetKeys datasetSize ↔
      ∃ srv < numSrv, ∃ worker < numWorkers, key ∈ partitionKeys numWorkers (dstIp srv) worker := by
  constructor
  · intro hkey
    obtain ⟨i, hi, rfl⟩ := List.mem_map.1 hkey
    exact ⟨_, dstAddr_lt _, _, parId_lt numWorkers _ h hmax,
      (mem_partitionKeys (dstAddr_lt _) (List.mem_range.1 hi)).2 ⟨rfl, rfl⟩⟩
  · rintro ⟨srv, -, worker, -, hkey⟩
    exact (List.mem_filter.1 hkey).1

/-- The item after the last one is not in the data set, since keys of different items differ. -/
theorem notMem_datasetKeys {n : Nat} (h : n < 2 ^ 64) :
    tostringKey (BitVec.ofNat 64 n) ∉ datasetKeys n := by
  intro hmem
  obtain ⟨i, hi, heq⟩ := List.mem_map.1 hmem
  have hi := List.mem_range.1 hi
  have hnat := congrArg BitVec.toNat (tostringKey_injective heq)
  rw [BitVec.toNat_ofNat, BitVec.toNat_ofNat] at hnat
  omega

/-! ## The tables of a client -/

/-- The probabilities of `n` items: none is negative, and they add up to 1. -/
structure IsPmf (pmf : Nat → α) (n : Nat) : Prop where
  nonneg : ∀ i < n, 0 ≤ pmf i
  sum_eq_one : ∑ i ∈ Finset.range n, pmf i = 1

/-- `pmf`; the weight of the rank `i` is `1.0 / pow(i, s)`, and the sum of all weights is the
divisor. -/
def initializePmf (weight : Nat → α) (n i : Nat) : α :=
  weight (i + 1) / ∑ j ∈ Finset.range n, weight (j + 1)

/-- The exchange of the first `numHotkeys` items with the last ones, in `reverse_pmf`, one pair
after the other. -/
def reverseHotkeys (numHotkeys n : Nat) (pmf : Nat → α) : Nat → α :=
  (List.range numHotkeys).foldl (fun pmf i => pmf ∘ Equiv.swap i (n - numHotkeys + i)) pmf

/-- The sums that `initialize_pmf` and `initialize_reverse_pmf` enter in their tables, each from the
one before it. -/
def cumulative (pmf : Nat → α) : Nat → α
  | 0 => pmf 0
  | i + 1 => cumulative pmf i + pmf (i + 1)

omit [LinearOrder α] in
/-- The entries are partial sums of the probabilities. -/
theorem cumulative_eq_sum (pmf : Nat → α) (i : Nat) :
    cumulative pmf i = ∑ j ∈ Finset.range (i + 1), pmf j := by
  induction i with
  | zero => simp [cumulative]
  | succ i ih => rw [cumulative, ih, Finset.sum_range_succ _ (i + 1)]

/-- An exchange of two items keeps the probabilities as a whole. -/
theorem IsPmf.comp_swap {pmf : Nat → α} (h : IsPmf pmf n) {i j : Nat} (hi : i < n) (hj : j < n) :
    IsPmf (pmf ∘ Equiv.swap i j) n := by
  have hlt (k : Nat) : Equiv.swap i j k < n ↔ k < n := by
    rw [Equiv.swap_apply_def]
    split <;> [skip; split] <;> omega
  refine ⟨fun k hk => h.nonneg _ ((hlt k).2 hk), ?_⟩
  rw [← h.sum_eq_one]
  exact Finset.sum_equiv (Equiv.swap i j) (fun k => by simp [hlt]) fun _ _ => rfl

/-- Reversing the popularities gives probabilities again, by induction on the exchanges. -/
theorem isPmf_reverseHotkeys {pmf : Nat → α} (h : IsPmf pmf n) {numHotkeys : Nat}
    (hhot : numHotkeys ≤ n) : IsPmf (reverseHotkeys numHotkeys n pmf) n := by
  refine List.foldlRecOn (motive := fun pmf => IsPmf pmf n) _ _ h fun p hp i hi => ?_
  have hi := List.mem_range.1 hi
  exact hp.comp_swap (by omega) (by omega)

variable [IsStrictOrderedRing α]

/-- The table of the sums of probabilities: it is nondecreasing because no probability is negative,
and ends at 1 because they add up to it. -/
def CdfTable.ofPmf (pmf : Nat → α) (hn : 0 < n) (h : IsPmf pmf n) : CdfTable α n where
  entry i := cumulative pmf i
  nonempty := hn
  mono i j hij := by
    simp only [cumulative_eq_sum]
    refine Finset.sum_le_sum_of_subset_of_nonneg (Finset.range_subset_range.2 (by omega)) ?_
    exact fun k hk _ => h.nonneg k (by have := Finset.mem_range.1 hk; omega)
  mem_unit i := by
    simp only [cumulative_eq_sum]
    refine ⟨Finset.sum_nonneg fun k hk => ?_, ?_⟩
    · exact h.nonneg k (by have := Finset.mem_range.1 hk; omega)
    · rw [← h.sum_eq_one]
      exact Finset.sum_le_sum_of_subset_of_nonneg (Finset.range_subset_range.2 (by omega))
        fun k hk _ => h.nonneg k (Finset.mem_range.1 hk)
  last := by
    simp only [cumulative_eq_sum]
    rw [Nat.sub_add_cancel hn, h.sum_eq_one]

/-- Positive weights, divided by their sum, are probabilities. -/
theorem isPmf_initializePmf {weight : Nat → α} (h : ∀ i, 0 < weight i) (hn : 0 < n) :
    IsPmf (initializePmf weight n) n := by
  have hpos : 0 < ∑ j ∈ Finset.range n, weight (j + 1) :=
    Finset.sum_pos (fun j _ => h (j + 1)) (Finset.nonempty_range_iff.2 hn.ne')
  refine ⟨fun i _ => (div_pos (h (i + 1)) hpos).le, ?_⟩
  simp only [initializePmf]
  rw [← Finset.sum_div, div_self hpos.ne']

/-- The tables of a client after `initialize_pmf` and `initialize_reverse_pmf`, with exact sums. -/
def initTables (weight : Nat → α) (h : ∀ i, 0 < weight i) (hn : 0 < n) {numHotkeys : Nat}
    (hhot : numHotkeys ≤ n) : DrawTables α n where
  cdf := .ofPmf (initializePmf weight n) hn (isPmf_initializePmf h hn)
  reverseCdf := .ofPmf (reverseHotkeys numHotkeys n (initializePmf weight n)) hn
    (isPmf_reverseHotkeys (isPmf_initializePmf h hn) hhot)

/-! ## The draws of a client -/

/-- The draw is below 1 unless `rand()` returned its largest value. -/
theorem div_lt_one_iff_lt {randMax rand : Nat} (h : 0 < randMax) :
    (rand : α) / randMax < 1 ↔ rand < randMax := by
  rw [div_lt_one (by exact_mod_cast h)]
  exact Nat.cast_lt

/-- A search finds an item of the data set exactly for a draw below 1. -/
theorem CdfTable.draws_iff (cdf : CdfTable α n) {randMax rand : Nat} (h : 0 < randMax)
    (hrand : rand ≤ randMax) :
    cdf.Draws ((rand : α) / randMax) (cdf.draw ((rand : α) / randMax)) ↔ rand < randMax := by
  refine ⟨fun hdraws => ?_, fun hlt => cdf.draws_of_lt_one ((div_lt_one_iff_lt h).2 hlt)⟩
  by_contra hge
  have hne : (randMax : α) ≠ 0 := by exact_mod_cast h.ne'
  rw [show rand = randMax by omega, div_self hne] at hdraws
  exact cdf.not_draws_one _ hdraws

/-- Both searches find an item of the data set unless `rand()` returned `RAND_MAX`. The tables are
those of any two distributions, and the arithmetic is that of any ordered field. -/
theorem DrawTables.inDataset_iff (t : DrawTables α n) {randMax rand : Nat} (h : 0 < randMax)
    (hrand : rand ≤ randMax) :
    t.cdf.Draws ((rand : α) / randMax) (t.getKey randMax rand) ∧
        t.reverseCdf.Draws ((rand : α) / randMax) (t.getReverseKey randMax rand) ↔
      rand < randMax := by
  rw [getKey, getReverseKey, t.cdf.draws_iff h hrand, t.reverseCdf.draws_iff h hrand, and_self]

end

/-- The tables of five items, of which each is less popular than the one before it, and those of the
same items after the first two have changed places with the last two. -/
def fiveItemTables : DrawTables ℚ 5 :=
  initTables (fun i => 1 / (i + 1)) (fun i => one_div_pos.2 (Nat.cast_add_one_pos i)) (by decide)
    (by decide : 2 ≤ 5)

/-- The largest draw below `RAND_MAX` finds the last item in both tables, while a draw in the middle
finds different items in them. -/
theorem inDataset_last :
    (fiveItemTables.cdf.Draws ((2147483646 : ℕ) / (2147483647 : ℕ))
        (fiveItemTables.getKey 2147483647 2147483646) ∧
      fiveItemTables.reverseCdf.Draws ((2147483646 : ℕ) / (2147483647 : ℕ))
        (fiveItemTables.getReverseKey 2147483647 2147483646)) ∧
    fiveItemTables.getKey 2147483647 2147483646 = some 4 ∧
    fiveItemTables.getReverseKey 2147483647 2147483646 = some 4 ∧
    fiveItemTables.getKey 2147483647 1000000000 = some 1 ∧
    fiveItemTables.getReverseKey 2147483647 1000000000 = some 3 :=
  ⟨(fiveItemTables.inDataset_iff (by decide) (by decide)).2 (by decide), by decide +kernel⟩

/-- The tables of a data set of one item: a single entry, which is 1. -/
def oneItemTables : DrawTables ℚ 1 :=
  initTables (fun _ => 1) (fun _ => one_pos) one_pos (Nat.zero_le 1)

/-- At `RAND_MAX` the client asks for the item after the last one. -/
theorem getKey_randMax :
    oneItemTables.getKey 2147483647 2147483647 = some 1 ∧
      tostringKey (BitVec.ofNat 64 1) ∉ datasetKeys 1 ∧
      ¬ oneItemTables.cdf.Draws ((2147483647 : ℕ) / (2147483647 : ℕ))
        (oneItemTables.getKey 2147483647 2147483647) := by
  have hone : ((2147483647 : ℕ) : ℚ) / (2147483647 : ℕ) = 1 := div_self (by norm_num)
  rw [DrawTables.getKey, hone]
  exact ⟨oneItemTables.cdf.draw_one, notMem_datasetKeys (by decide),
    oneItemTables.cdf.not_draws_one _⟩

end OrbitCache
