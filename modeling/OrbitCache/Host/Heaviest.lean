import OrbitCache.Host.TopK
import OrbitCache.Lib.Run

/-!
# The heaviest keys

What the table of the hot key report holds after a stream of keys. `HeaviestAfter` says what is
expected after each step: the first entry is a least one, a key only makes room for a heavier one,
and a full table holds every key whose last estimate exceeds its least entry. `keepsHeaviest` proves
it for the streams in which no new entry is lighter than the entry above its place.
-/

namespace OrbitCache

namespace Report

/-- The estimate a key had when the stream processed it last. A key that the stream does not contain
has none. -/
def LastEstimate (stream : List Bytes) (key : Bytes) (e : Int) : Prop :=
  ∃ older newer, stream = older ++ key :: newer ∧ key ∉ newer ∧ (process older).estimate key = e

/-- The popularity a key was recorded with when a step of the stream evicted it: it was in the table
before the step, and is not after it. -/
def EvictedWith (stream : List Bytes) (key : Bytes) (e : Int) : Prop :=
  ∃ older next newer, stream = older ++ next :: newer ∧ (process older).Recorded key e ∧
    ¬ (process (older ++ [next])).InTable key

/-- What the table is expected to hold after `key` was processed behind the stream `older`, which it
can hold only if no key was written past its field. -/
structure HeaviestAfter (older : List Bytes) (key : Bytes) : Prop where
  defined : (process (older ++ [key])).overrun = false
  root_least : ∀ i < (process (older ++ [key])).topKCount,
    ((process (older ++ [key])).topK 0).weight ≤ ((process (older ++ [key])).topK i).weight
  evicted_least : ∀ k e, (process older).Recorded k e → ¬ (process (older ++ [key])).InTable k →
    (∀ i < (process older).topKCount, e ≤ ((process older).topK i).weight) ∧
      e < (process older).estimate key
  absent_light : (process (older ++ [key])).topKCount = topKSize →
    ∀ k e, ¬ (process (older ++ [key])).InTable k →
      LastEstimate (older ++ [key]) k e ∨ EvictedWith (older ++ [key]) k e →
      ∀ i < topKSize, e ≤ ((process (older ++ [key])).topK i).weight

/-- The table holds what is expected after every step of a stream, and not only at its end. -/
def KeepsHeaviest (stream : List Bytes) : Prop :=
  ∀ older key newer, stream = older ++ key :: newer → HeaviestAfter older key

/-- The key fits its field, its counters do not overflow, and a new key that takes a free place is
not lighter than the entry above that place. -/
structure InOrder (r : Report) (key : Bytes) : Prop where
  isKey : IsKey key
  fits : r.cms.Fits key
  above : ¬ r.InTable key → r.topKCount < topKSize → 0 < r.topKCount →
    (r.topK (Sift.parent r.topKCount)).weight ≤ (getPopularity r.cms key).toInt + 1

/-! ## The invariant -/

/-- What holds of the table behind a stream: it is a heap, its entries are not above the counters,
and whatever is not in it is not heavier than what is. -/
structure TableInv (stream : List Bytes) (r : Report) : Prop extends r.Keys where
  defined : r.overrun = false
  heap : Sift.Heap TopKItem.weight r.topK r.topKCount
  weight_le : ∀ i < r.topKCount, (r.topK i).weight ≤ (getPopularity r.cms (r.topK i).key).toInt
  last_le : ∀ i < r.topKCount, ∀ e, LastEstimate stream (r.topK i).key e → e ≤ (r.topK i).weight
  /-- What is not in the table is not heavier than the entries of the full table. -/
  absent : ∀ k e, ¬ r.InTable k → LastEstimate stream k e →
    r.topKCount = topKSize ∧ ∀ i < r.topKCount, e ≤ (r.topK i).weight
  evicted : ∀ k e, EvictedWith stream k e →
    r.topKCount = topKSize ∧ ∀ i < r.topKCount, e ≤ (r.topK i).weight

namespace Place

variable {stream : List Bytes} {r : Report} {key : Bytes} {p n : Nat}

/-- The new entry is not lighter than the one it replaces: a counter does not go down, and an
evicted entry was lighter. -/
theorem raises (h : Place r key p n) (hr : TableInv stream r) (hfits : r.cms.Fits key)
    (hp : p < r.topKCount) : (r.topK p).weight ≤ (r.newEntry key).weight := by
  rw [newEntry_weight]
  cases h with
  | hit _ hkey =>
    have hle := hr.weight_le p hp
    rw [hkey] at hle
    rw [estimate_eq hfits]
    omega
  | insert => exact absurd hp (Nat.lt_irrefl _)
  | replace _ _ hlt => exact Int.le_of_lt hlt

/-- The new entry may sink: the heap is in order but for its place, and it is not lighter than the
entry above it. -/
theorem sinkOrder (h : Place r key p n) (hr : TableInv stream r) (hin : r.InOrder key) :
    Sift.SinkOrder TopKItem.weight (Function.update r.topK p (r.newEntry key)) n p := by
  have hraise := h.raises hr hin.fits
  cases h with
  | hit hp hkey => exact hr.heap.sinkOrder_update hp (hraise hp)
  | insert hnot hlt =>
    refine (hr.heap.push fun hpos => ?_).sinkOrder _
    rw [newEntry_weight, estimate_eq hin.fits]
    exact hin.above hnot hlt hpos
  | replace hnot hfull hlt =>
    have hpos : 0 < r.topKCount := Nat.lt_of_lt_of_le (by decide) hfull
    exact hr.heap.sinkOrder_update hpos (hraise hpos)

end Place

/-! ## Histories -/

/-- The estimate of a key after one more step: the key of the step has its new one, all others have
theirs. -/
theorem lastEstimate_concat {stream : List Bytes} {key k : Bytes} {e : Int}
    (h : LastEstimate (stream ++ [key]) k e) :
    (k = key ∧ (process stream).estimate key = e) ∨ (k ≠ key ∧ LastEstimate stream k e) := by
  obtain ⟨older, newer, hsplit, hnot, he⟩ := h
  rcases concat_eq_split hsplit with ⟨rfl, rfl, -⟩ | ⟨newer', rfl, rfl⟩
  · exact Or.inl ⟨rfl, he⟩
  · rw [List.mem_append, List.mem_singleton, not_or] at hnot
    exact Or.inr ⟨hnot.2, older, newer', rfl, hnot.1, he⟩

/-- What was evicted after one more step: it was evicted before, or this step has evicted it. -/
theorem evictedWith_concat {stream : List Bytes} {key k : Bytes} {e : Int}
    (h : EvictedWith (stream ++ [key]) k e) :
    EvictedWith stream k e ∨
      ((process stream).Recorded k e ∧ ¬ ((process stream).step key).InTable k) := by
  obtain ⟨older, next, newer, hsplit, hrec, hout⟩ := h
  rcases concat_eq_split hsplit with ⟨rfl, rfl, -⟩ | ⟨newer', rfl, rfl⟩
  · rw [process_concat] at hout
    exact Or.inr ⟨hrec, hout⟩
  · exact Or.inl ⟨older, next, newer', rfl, hrec, hout⟩

/-! ## The step -/

section
variable {stream : List Bytes} {r : Report} {key : Bytes}

/-- The step keeps the heap: the new entry sinks from its place. -/
theorem TableInv.heap_step (hr : TableInv stream r) (hin : r.InOrder key) :
    Sift.Heap TopKItem.weight (r.step key).topK (r.step key).topKCount := by
  rcases r.step_cases hin.isKey with ⟨-, -, -, hstep⟩ | ⟨p, n, h, hstep⟩
  · rw [hstep]
    exact hr.heap
  · rw [hstep]
    exact Sift.heap_down (h.sinkOrder hr hin)

/-- What is below all entries of a full table stays below them, since a step replaces an entry by a
heavier one only. -/
theorem TableInv.light_step (hr : TableInv stream r) (hin : r.InOrder key) {e : Int}
    (hfull : topKSize ≤ r.topKCount) (he : ∀ i < r.topKCount, e ≤ (r.topK i).weight) :
    (r.step key).topKCount = topKSize ∧
      ∀ i < (r.step key).topKCount, e ≤ ((r.step key).topK i).weight := by
  rcases r.step_cases hin.isKey with ⟨-, -, -, hstep⟩ | ⟨p, n, h, hstep⟩
  · rw [hstep]
    exact ⟨Nat.le_antisymm hr.count_le hfull, he⟩
  · have hn : n = r.topKCount := by
      cases h with
      | hit | replace => rfl
      | insert _ hlt => omega
    have hp : p < r.topKCount := hn ▸ h.lt
    rw [hstep]
    refine ⟨hn.trans (Nat.le_antisymm hr.count_le hfull), ?_⟩
    rw [forall_heapify (P := fun x => e ≤ x.weight)]
    intro j hj
    by_cases hjp : j = p
    · rw [hjp, Function.update_self]
      exact (he p hp).trans (h.raises hr hin.fits hp)
    · rw [Function.update_of_ne hjp]
      exact he j (hn ▸ hj)

/-- What is evicted is a least entry and lighter than the new key: it was at the root of the heap.
-/
theorem TableInv.evicted_least (hr : TableInv stream r) (hkey : IsKey key) {k : Bytes} {e : Int}
    (hrec : r.Recorded k e) (hout : ¬ (r.step key).InTable k) :
    (∀ i < r.topKCount, e ≤ (r.topK i).weight) ∧ e < r.estimate key := by
  obtain ⟨rfl, -, hlt⟩ := leaves hkey hrec hout
  exact ⟨fun i hi => hr.heap.root_le hi, hlt⟩

/-- A key that is absent after a step was not heavier than the entries of the full table before. -/
theorem TableInv.absent_step (hr : TableInv stream r) (hstream : process stream = r)
    (hkey : IsKey key) {k : Bytes} {e : Int} (hout : ¬ (r.step key).InTable k)
    (he : LastEstimate (stream ++ [key]) k e) :
    topKSize ≤ r.topKCount ∧ ∀ i < r.topKCount, e ≤ (r.topK i).weight := by
  have hroot (i : Nat) (hi : i < r.topKCount) : (r.topK 0).weight ≤ (r.topK i).weight :=
    hr.heap.root_le hi
  rcases lastEstimate_concat he with ⟨rfl, he'⟩ | ⟨-, he'⟩
  · obtain ⟨hfull, hlight⟩ := rejected hkey hout
    rw [hstream] at he'
    exact ⟨hfull, fun i hi => he' ▸ hlight.trans (hroot i hi)⟩
  · by_cases hk : r.InTable k
    · obtain ⟨j, hj, rfl⟩ := hk
      obtain ⟨hw, hfull, -⟩ := leaves hkey ⟨j, hj, rfl, rfl⟩ hout
      exact ⟨hfull, fun i hi => (hr.last_le j hj e he').trans (hw ▸ hroot i hi)⟩
    · obtain ⟨hfull, hle⟩ := hr.absent k e hk he'
      exact ⟨Nat.le_of_eq hfull.symm, hle⟩

/-- What was evicted is not heavier than the entries of the full table before the step. -/
theorem TableInv.evicted_step (hr : TableInv stream r) (hstream : process stream = r)
    (hkey : IsKey key) {k : Bytes} {e : Int} (he : EvictedWith (stream ++ [key]) k e) :
    topKSize ≤ r.topKCount ∧ ∀ i < r.topKCount, e ≤ (r.topK i).weight := by
  rcases evictedWith_concat he with he' | ⟨hrec, hout⟩
  · obtain ⟨hfull, hle⟩ := hr.evicted k e he'
    exact ⟨Nat.le_of_eq hfull.symm, hle⟩
  · rw [hstream] at hrec hout
    obtain ⟨-, hfull, -⟩ := leaves hkey hrec hout
    exact ⟨hfull, (hr.evicted_least hkey hrec hout).1⟩

/-- The invariant after a step, field by field from the lemmas above. -/
theorem TableInv.step (hr : TableInv stream r) (hstream : process stream = r)
    (hin : r.InOrder key) :
    TableInv (stream ++ [key]) (r.step key) where
  toKeys := hr.toKeys.step hin.isKey
  defined := (r.step_overrun hin.isKey).trans hr.defined
  heap := hr.heap_step hin
  weight_le := by
    refine forall_step hr.toKeys hin.isKey
      (P := fun x => x.weight ≤ (getPopularity (r.step key).cms x.key).toInt) ?_ fun j hj _ => ?_
    · rw [step_cms r hin.isKey, newEntry_key, newEntry_weight, estimate]
    · rw [step_cms r hin.isKey]
      exact (hr.weight_le j hj).trans (getPopularity_le_updateCMS hin.fits _)
  last_le := by
    refine forall_step hr.toKeys hin.isKey
      (P := fun x => ∀ e, LastEstimate (stream ++ [key]) x.key e → e ≤ x.weight) ?_ ?_
    · intro e he
      rcases lastEstimate_concat he with ⟨-, he'⟩ | ⟨hne, -⟩
      · rw [newEntry_weight, ← he', hstream]
      · exact absurd rfl hne
    · intro j hj hne e he
      rcases lastEstimate_concat he with ⟨hk, -⟩ | ⟨-, he'⟩
      · exact absurd hk hne
      · exact hr.last_le j hj e he'
  absent k e hout he := by
    obtain ⟨hfull, hle⟩ := hr.absent_step hstream hin.isKey hout he
    exact hr.light_step hin hfull hle
  evicted k e he := by
    obtain ⟨hfull, hle⟩ := hr.evicted_step hstream hin.isKey he
    exact hr.light_step hin hfull hle

end

/-! ## Streams -/

/-- Nothing is in the table and nothing was evicted. -/
theorem tableInv_reset : TableInv [] resetReport where
  toKeys := keys_reset
  defined := rfl
  heap c _ hc := absurd hc (Nat.not_lt_zero c)
  weight_le i hi := absurd hi (Nat.not_lt_zero i)
  last_le i hi := absurd hi (Nat.not_lt_zero i)
  absent k e _ he := by
    obtain ⟨older, newer, hsplit, -⟩ := he
    exact absurd hsplit (by simp)
  evicted k e he := by
    obtain ⟨older, next, newer, hsplit, -⟩ := he
    exact absurd hsplit (by simp)

/-- Every step of a stream is in order, on the table that the steps before have left. -/
def AllInOrder (stream : List Bytes) : Prop :=
  ∀ older key newer, stream = older ++ key :: newer → (process older).InOrder key

/-- The empty stream has no steps. -/
theorem allInOrder_nil : AllInOrder [] := by
  intro older key newer hsplit
  exact absurd hsplit (by simp)

/-- One more step: the stream before was in order, and so is the step. -/
theorem allInOrder_concat {stream : List Bytes} {key : Bytes} :
    AllInOrder (stream ++ [key]) ↔ AllInOrder stream ∧ (process stream).InOrder key := by
  constructor
  · intro h
    refine ⟨fun older k newer hsplit => ?_, h stream key [] rfl⟩
    exact h older k (newer ++ [key]) (by rw [hsplit, List.append_assoc, List.cons_append])
  · rintro ⟨hstream, hkey⟩ older k newer hsplit
    rcases concat_eq_split hsplit with ⟨rfl, rfl, -⟩ | ⟨newer', -, hsplit'⟩
    · exact hkey
    · exact hstream older k newer' hsplit'

/-- The invariant after a stream, by induction from its end. -/
theorem tableInv_process {stream : List Bytes} (h : AllInOrder stream) :
    TableInv stream (process stream) := by
  induction stream using List.reverseRecOn with
  | nil => exact tableInv_reset
  | append_singleton stream key ih =>
    obtain ⟨hstream, hkey⟩ := allInOrder_concat.1 h
    rw [process_concat]
    exact (ih hstream).step rfl hkey

/-- The table keeps the heaviest keys of every stream whose steps are in order. The step that is not
is that of a new key with less weight than the entry above its place: `heapify` only looks downwards
and leaves it there. -/
theorem keepsHeaviest {stream : List Bytes} (h : AllInOrder stream) : KeepsHeaviest stream := by
  intro older key newer hsplit
  have holder : AllInOrder older := by
    intro older' k newer' hsplit'
    exact h older' k (newer' ++ key :: newer)
      (by rw [hsplit, hsplit', List.append_assoc, List.cons_append])
  have hr := tableInv_process holder
  have hin := h older key newer hsplit
  have hr' := hr.step rfl hin
  constructor
  · rw [process_concat]
    exact hr'.defined
  · intro i hi
    rw [process_concat] at hi ⊢
    exact hr'.heap.root_le hi
  · intro k e hrec hout
    rw [process_concat] at hout
    exact hr.evicted_least hin.isKey hrec hout
  · intro hfull k e hout he i hi
    rw [← hfull] at hi
    rw [process_concat] at hfull hout hi ⊢
    rcases he with he | he
    · exact (hr'.absent k e hout he).2 i hi
    · exact (hr'.evicted k e he).2 i hi

/-- Two keys of the same weight: the second one takes a free place below the first. -/
theorem keepsHeaviest_two : KeepsHeaviest [tostringKey 0, tostringKey 1] := by
  have hfirst : (process []).InOrder (tostringKey 0) :=
    ⟨isKey_tostringKey 0, by unfold CountMinSketch.Fits; decide +kernel,
      fun _ _ h => absurd h (Nat.lt_irrefl 0)⟩
  have hsecond : (process [tostringKey 0]).InOrder (tostringKey 1) :=
    ⟨isKey_tostringKey 1, by unfold CountMinSketch.Fits; decide +kernel,
      fun _ _ _ => by decide +kernel⟩
  exact keepsHeaviest (allInOrder_concat.2 ⟨allInOrder_concat.2 ⟨allInOrder_nil, hfirst⟩, hsecond⟩)

/-- A key that comes once after another came twice stays behind it: it takes the last place,
although it is lighter than the root, and the heap is not in order. -/
theorem not_keepsHeaviest_lighter :
    ¬ KeepsHeaviest [tostringKey 0, tostringKey 0, tostringKey 1] := by
  intro h
  have hroot := (h [tostringKey 0, tostringKey 0] (tostringKey 1) [] rfl).root_least 1
    (by decide +kernel)
  revert hroot
  decide +kernel

end Report

end OrbitCache
