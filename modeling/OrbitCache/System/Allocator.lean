import OrbitCache.System.Eviction

/-!
# The index allocator

What `available_indexes` has to do with the indices of the cached keys. `get_next_index` takes an
index out of the set; the eviction branch puts the index of the evicted key back with
`release_index` and hands it to the new key without taking it out again. The indices of the cached
keys and the free ones therefore partition `range(MAX_HOTKEY)` exactly as long as no key was evicted
(`partitioned_iff`).
-/

namespace OrbitCache

open Controller (numHotkey maxHotkey HotKey Str RoundState getNextIndex)

/-- The indices that `cache_idx` gives to the cached keys, as a set: a key that is listed twice, or
two keys with one index, count once. -/
def Controller.RoundState.assigned (r : RoundState) : Finset Nat :=
  (r.keys.filterMap r.cacheIdx.lookup).toFinset

/-- The free indices and those of the cached keys partition the index space of `MAX_HOTKEY` indices:
no index is lost, and none is given out while a key has it. -/
structure Controller.RoundState.Partitioned (r : RoundState) : Prop where
  disjoint : Disjoint r.available r.assigned
  union : r.available ∪ r.assigned = Finset.range maxHotkey
  /-- The next index is one that no cached key has. -/
  next : ∀ i available, getNextIndex r.available = some (i, available) → i ∉ r.assigned

/-- The next reported key takes the eviction branch of `update_cache`: it is not in the heap of the
last round, all `NUM_HOTKEY` indices are in use, and it is more popular than the least popular hot
key. It is a condition on the state before the step. -/
def DynState.Evicts (s : DynState) : Prop :=
  ∃ e ∈ s.todo.head?, e.1 ∉ s.previousHotkeyList.map Prod.snd ∧
    numHotkey ≤ s.round.hotkeyList.length ∧
    ∃ least ∈ s.round.hotkeyList.head?, least.1 < e.2

/-- The condition on a step: it does not take the eviction branch. Only the steps that take a
reported key can, and the steps of the network never do. -/
def DynState.Keeps (s : DynState) : DynAction → Prop
  | .admitKey => ¬ s.Evicts
  | .net _ | .begin _ | .place | .fetch .. => True

instance (s : DynState) : Decidable s.Evicts := inferInstanceAs (Decidable (∃ e ∈ s.todo.head?, _))

instance (s : DynState) : ∀ a, Decidable (s.Keeps a)
  | .admitKey => inferInstanceAs (Decidable (¬ s.Evicts))
  | .net _ | .begin _ | .place | .fetch .. => inferInstanceAs (Decidable True)

namespace Controller

section
variable {r : RoundState} {i : Nat}

/-- An index is assigned when `cache_idx` has it for a cached key. -/
theorem RoundState.mem_assigned :
    i ∈ r.assigned ↔ ∃ key ∈ r.keys, r.cacheIdx.lookup key = some i := by
  rw [assigned, List.mem_toFinset, List.mem_filterMap]

/-- Disjoint sets that cover the index space are all there is to it: the next index is a free one,
so it is no cached key's. -/
theorem RoundState.Partitioned.mk' (hdisj : Disjoint r.available r.assigned)
    (hunion : r.available ∪ r.assigned = Finset.range maxHotkey) : r.Partitioned := by
  refine ⟨hdisj, hunion, fun i available hnext => ?_⟩
  unfold getNextIndex at hnext
  split at hnext
  · next hne =>
    cases hnext
    exact Finset.disjoint_left.1 hdisj (Finset.min'_mem _ hne)
  · cases hnext

/-- The cached keys have as many indices as there are keys, since in a consistent table no two keys
share one. -/
theorem LookupConsistent.card_assigned (h : LookupConsistent r.keys r.cacheIdx r.lookup) :
    r.assigned.card = r.keys.length := by
  have hinj : ∀ key ∈ r.keys, ∀ key' ∈ r.keys, ∀ b, r.cacheIdx.lookup key = some b →
      r.cacheIdx.lookup key' = some b → key = key' :=
    fun key hk key' hk' b hb hb' => h.idx_inj key hk key' hk' (hb.trans hb'.symm)
  have hnodup : (r.keys.filterMap r.cacheIdx.lookup).Nodup := by
    refine (List.pairwise_filterMap).2 ?_
    refine h.nodup.imp_of_mem ?_
    intro key key' hk hk' hne b hb b' hb' heq
    exact hne (hinj key hk key' hk' b hb (heq ▸ hb'))
  have hsome : ∀ key ∈ r.keys, (r.cacheIdx.lookup key).isSome = true := by
    intro key hk
    obtain ⟨i, -, hi⟩ := h.idx_lt key hk
    rw [hi]
    rfl
  rw [RoundState.assigned, List.toFinset_card_of_nodup hnodup, List.length_filterMap_eq_countP,
    List.countP_eq_length.2 hsome]

/-- They are below `NUM_HOTKEY`, the part of the index space that keys ever get. -/
theorem LookupConsistent.assigned_subset (h : LookupConsistent r.keys r.cacheIdx r.lookup) :
    r.assigned ⊆ Finset.range numHotkey := by
  intro i hi
  obtain ⟨key, hk, hidx⟩ := RoundState.mem_assigned.1 hi
  obtain ⟨j, hj, hidx'⟩ := h.idx_lt key hk
  rw [hidx, Option.some.injEq] at hidx'
  exact Finset.mem_range.2 (hidx' ▸ hj)

/-- A full cache uses all of them: `NUM_HOTKEY` different indices below `NUM_HOTKEY`. -/
theorem LookupConsistent.assigned_full (h : LookupConsistent r.keys r.cacheIdx r.lookup)
    (hfull : numHotkey ≤ r.keys.length) : r.assigned = Finset.range numHotkey := by
  refine Finset.eq_of_subset_of_card_le h.assigned_subset ?_
  rw [h.card_assigned, Finset.card_range]
  exact hfull

/-- As long as no key was evicted the free indices are those behind the cached keys, and the keys
have the indices from 0 on. -/
structure RoundState.InOrder (r : RoundState) : Prop where
  available_eq : r.available = Finset.Ico r.keys.length maxHotkey
  assigned_eq : r.assigned = Finset.range r.keys.length
  length_le : r.keys.length ≤ numHotkey

/-- So they partition the index space, as an initial segment and the rest of it do. -/
theorem RoundState.InOrder.partitioned (h : r.InOrder) : r.Partitioned := by
  have hle := h.length_le
  have hmax : numHotkey ≤ maxHotkey := by decide
  refine .mk' ?_ ?_
  · rw [h.available_eq, h.assigned_eq, Finset.disjoint_left]
    intro i hi hi'
    rw [Finset.mem_Ico] at hi
    rw [Finset.mem_range] at hi'
    omega
  · rw [h.available_eq, h.assigned_eq]
    ext i
    simp only [Finset.mem_union, Finset.mem_Ico, Finset.mem_range]
    omega

/-- A free index is in use, in a full cache: an eviction has released the index of the old key and
then given that same index to the new one. -/
structure RoundState.Leaked (r : RoundState) : Prop where
  full : numHotkey ≤ r.keys.length
  index : ∃ i < numHotkey, i ∈ r.available

/-- That is no partition, since a full cache uses every index below `NUM_HOTKEY`. -/
theorem RoundState.Leaked.not_partitioned (h : r.Leaked)
    (hcons : LookupConsistent r.keys r.cacheIdx r.lookup) : ¬ r.Partitioned := by
  obtain ⟨i, hi, hmem⟩ := h.index
  intro hpart
  refine Finset.disjoint_left.1 hpart.disjoint hmem ?_
  rw [hcons.assigned_full h.full]
  exact Finset.mem_range.2 hi

/-- The order of the keys does not matter, so the heap may be rebuilt at the start of a round. -/
theorem RoundState.InOrder.perm (h : r.InOrder) {r' : RoundState} (hkeys : r'.keys.Perm r.keys)
    (hidx : r'.cacheIdx = r.cacheIdx) (havailable : r'.available = r.available) : r'.InOrder := by
  have hassigned : r'.assigned = r.assigned := by
    ext i
    simp only [RoundState.mem_assigned, hkeys.mem_iff, hidx]
  refine ⟨?_, ?_, ?_⟩
  · rw [havailable, hkeys.length_eq]
    exact h.available_eq
  · rw [hassigned, hkeys.length_eq]
    exact h.assigned_eq
  · rw [hkeys.length_eq]
    exact h.length_le

/-- A key that gets a free index gets the next one, because `get_next_index` takes the smallest. -/
theorem RoundState.InOrder.insertKey (h : r.InOrder) {heapq : Heapq HotKey HotKey.le} {key : Str}
    {popularity : Nat} {r' : RoundState}
    (hr : Controller.insertKey heapq r key popularity = some r')
    (hnew : key ∉ r.keys) (hlen : r.hotkeyList.length < numHotkey) : r'.InOrder := by
  have hkeys : r.keys.length = r.hotkeyList.length := List.length_map _
  have hmax : r.keys.length < maxHotkey := by
    rw [hkeys]
    exact Nat.lt_trans hlen (by decide)
  obtain ⟨⟨idx, available⟩, hnext, hr⟩ := Option.bind_eq_some_iff.1 hr
  obtain ⟨lookup, -, hr⟩ := Option.bind_eq_some_iff.1 hr
  rw [h.available_eq, getNextIndex_Ico hmax, Option.some.injEq, Prod.mk.injEq] at hnext
  obtain ⟨rfl, rfl⟩ := hnext
  obtain ⟨hlist, hidx, havailable⟩ : r'.hotkeyList = heapq.heappush r.hotkeyList (popularity, key) ∧
      r'.cacheIdx = r.cacheIdx.insert key r.keys.length ∧
      r'.available = Finset.Ico (r.keys.length + 1) maxHotkey := by
    cases hr
    exact ⟨rfl, rfl, rfl⟩
  have hperm : r'.keys.Perm (key :: r.keys) := by
    rw [RoundState.keys, hlist]
    exact (heapq.heappush_perm r.hotkeyList (popularity, key)).map Prod.snd
  have hlength := hperm.length_eq
  rw [List.length_cons] at hlength
  refine ⟨by rw [havailable, hlength], ?_, by rw [hlength, hkeys]; exact hlen⟩
  rw [hlength, Finset.range_add_one, ← h.assigned_eq]
  ext i
  rw [Finset.mem_insert, RoundState.mem_assigned, RoundState.mem_assigned, hidx]
  constructor
  · rintro ⟨key', hk', hi⟩
    rcases List.mem_cons.1 (hperm.mem_iff.1 hk') with rfl | hk'
    · rw [AList.lookup_insert, Option.some.injEq] at hi
      exact .inl hi.symm
    · rw [AList.lookup_insert_ne (ne_of_mem_of_not_mem hk' hnew)] at hi
      exact .inr ⟨key', hk', hi⟩
  · rintro (rfl | ⟨key', hk', hi⟩)
    · exact ⟨key, hperm.mem_iff.2 List.mem_cons_self, AList.lookup_insert _⟩
    · refine ⟨key', hperm.mem_iff.2 (List.mem_cons_of_mem _ hk'), ?_⟩
      rw [AList.lookup_insert_ne (ne_of_mem_of_not_mem hk' hnew)]
      exact hi

end

end Controller

open Controller (LookupConsistent)

namespace DynState

section
variable {D : Deployment} {heapq : Heapq HotKey HotKey.le} {fetchTo : Str → Endpoint}
variable {s s' : DynState}

/-- The eviction branch is the one that leaves an index to be handed on, so that the condition on
the state before the step is exactly that the step stops between `table_del` and `table_add`. -/
theorem evicts_iff (h : dynStep D heapq fetchTo s .admitKey = some s') :
    s.Evicts ↔ s'.placing ≠ none := by
  obtain ⟨_, hguard, h⟩ := Option.bind_eq_some_iff.1 h
  have hnone : s.placing = none := Option.isNone_iff_eq_none.1 ((Option.guard_eq_some' _).1 hguard)
  unfold DynState.admitKey at h
  unfold DynState.Evicts
  split at h
  · cases h
  · next e todo htodo =>
    have hhead : ∀ e', e' ∈ s.todo.head? ↔ e' = e := by
      intro e'
      rw [htodo, List.head?_cons, Option.mem_some]
      exact eq_comm
    simp only [hhead, exists_eq_left]
    dsimp only at h
    split at h
    · next hprev =>
      cases h
      exact iff_of_false (fun hevicts => hevicts.1 hprev) (not_not.2 hnone)
    · next hprev =>
      split at h
      · next hlen =>
        obtain ⟨r, -, h⟩ := Option.bind_eq_some_iff.1 h
        cases h
        exact iff_of_false (fun hevicts => Nat.not_lt.2 hevicts.2.1 hlen) (not_not.2 hnone)
      · next hlen =>
        split at h
        · cases h
        · next least hleast =>
          split at h
          · next hpop =>
            obtain ⟨r, -, h⟩ := Option.bind_eq_some_iff.1 h
            cases h
            exact iff_of_true ⟨hprev, Nat.not_lt.1 hlen, least, hleast, hpop⟩
              (Option.some_ne_none _)
          · next hpop =>
            cases h
            refine iff_of_false ?_ (not_not.2 hnone)
            rintro ⟨-, -, least', hleast', hpop'⟩
            rw [hleast, Option.mem_some] at hleast'
            exact hpop (hleast' ▸ hpop')

/-- No key was evicted so far: the controller is between two decisions and its indices are in order.
-/
structure Kept (s : DynState) : Prop where
  idle : s.placing = none
  inOrder : s.round.InOrder

/-- A key was evicted: its index is free and, once the new key is placed, in use as well. -/
structure Leaky (s : DynState) : Prop where
  index : ∃ i < numHotkey, i ∈ s.round.available
  full : s.placing = none → numHotkey ≤ s.round.keys.length

/-- The keys at the start of a round are those of the last one in another order, since the rebuilt
heap has an entry for each. -/
theorem Inv.begin_keys (hinv : s.Inv D heapq) (hplacing : s.placing = none)
    {cacheCounter : Nat → Nat} {cached : List (Str × Nat)}
    (hcached : Controller.readPopularity s.controller cacheCounter = some cached) :
    ((Controller.rebuild heapq cached).map Prod.snd).Perm s.round.keys := by
  obtain ⟨cached', hcached', hperm, -⟩ := Controller.readPopularity_rebuild heapq
    (s := s.controller) (hinv.idle hplacing).toLookupConsistent cacheCounter
  rw [hcached, Option.some.injEq] at hcached'
  subst hcached'
  exact hperm

/-- A step that takes no eviction branch keeps the order, by the cases of a step. -/
theorem Kept.step (hinv : s.Inv D heapq) (h : s.Kept) {a : DynAction} (hkeeps : s.Keeps a)
    (hstep : dynStep D heapq fetchTo s a = some s') : s'.Kept := by
  cases dynStep_case hstep with
  | net | fetch | skip => exact ⟨h.idle, h.inOrder⟩
  | begin hplacing hcached =>
    exact ⟨h.idle, h.inOrder.perm (hinv.begin_keys hplacing hcached) rfl rfl⟩
  | insert hplacing hlen hr =>
    have hnew := (hinv.idle hplacing).toLookupConsistent.not_mem
      (Controller.insertKey_fresh heapq hr)
    exact ⟨h.idle, h.inOrder.insertKey hr hnew hlen⟩
  | evict => exact absurd ((evicts_iff hstep).2 (Option.some_ne_none _)) hkeeps
  | place hplacing =>
    rw [h.idle] at hplacing
    cases hplacing

/-- The index that `release_index` gives back is below `NUM_HOTKEY`, and it is free from then on. -/
theorem Inv.released (hinv : s.Inv D heapq) (hplacing : s.placing = none)
    (hlen : numHotkey ≤ s.round.hotkeyList.length) {head : HotKey}
    (hhead : s.round.hotkeyList.head? = some head) {r : RoundState} {least : HotKey} {idx : Nat}
    (hr : Controller.evictLeast heapq s.round = some (r, least, idx)) :
    idx < numHotkey ∧ idx ∈ r.available := by
  obtain ⟨r', idx', hr', hres, -⟩ := (hinv.idle hplacing).evictLeast heapq hinv.heap hlen hhead
  rw [hr, Option.some.injEq] at hr'
  cases hr'
  refine ⟨hres.free_lt, ?_⟩
  obtain ⟨⟨least, hotkeyList⟩, -, hr⟩ := Option.bind_eq_some_iff.1 hr
  obtain ⟨tempIdx, -, hr⟩ := Option.bind_eq_some_iff.1 hr
  obtain ⟨available, hrelease, hr⟩ := Option.bind_eq_some_iff.1 hr
  obtain ⟨lookup, -, hr⟩ := Option.bind_eq_some_iff.1 hr
  cases hr
  unfold Controller.releaseIndex at hrelease
  split at hrelease
  · cases hrelease
    exact Finset.mem_insert_self _ _
  · cases hrelease

/-- No step repairs it: an index leaves the free set only when a key is inserted, which a full cache
does not do, and every further eviction releases another one. -/
theorem Leaky.step (hinv : s.Inv D heapq) (h : s.Leaky) {a : DynAction}
    (hstep : dynStep D heapq fetchTo s a = some s') : s'.Leaky := by
  cases dynStep_case hstep with
  | net | fetch | skip => exact ⟨h.index, h.full⟩
  | begin hplacing hcached =>
    refine ⟨h.index, fun hnone => ?_⟩
    have hlength := (hinv.begin_keys hplacing hcached).length_eq
    have hfull := h.full hplacing
    rw [← hlength] at hfull
    exact hfull
  | insert hplacing hlen =>
    have hfull := h.full hplacing
    rw [RoundState.keys, List.length_map] at hfull
    omega
  | @evict _ _ _ _ r _ idx hplacing hlen hhead _ hr =>
    obtain ⟨hlt, hmem⟩ := hinv.released hplacing hlen hhead hr
    exact ⟨⟨idx, hlt, hmem⟩, fun hnone => by cases hnone⟩
  | @place p r hplacing hr =>
    have hres := hinv.placing p hplacing
    obtain ⟨r', hr', -, hperm, -⟩ :=
      hres.placeKey heapq (Controller.placeKey_fresh heapq hr) p.least
      p.popularity
    rw [hr, Option.some.injEq] at hr'
    subst hr'
    obtain ⟨i, hi, hmem⟩ := h.index
    obtain ⟨lookup, -, hr⟩ := Option.bind_eq_some_iff.1 hr
    cases hr
    refine ⟨⟨i, hi, hmem⟩, fun _ => ?_⟩
    have hlength := hperm.length_eq
    rw [List.length_cons, hres.length_eq] at hlength
    exact hlength.ge

/-- An eviction is the end of the order, from its first half on. -/
theorem leaky_of_evicts (hinv : s.Inv D heapq) (hevicts : s.Evicts)
    (hstep : dynStep D heapq fetchTo s .admitKey = some s') : s'.Leaky := by
  have hplacing := (evicts_iff hstep).1 hevicts
  cases dynStep_case hstep with
  | skip hnone | insert hnone => exact absurd hnone hplacing
  | @evict _ _ _ _ r _ idx hnone hlen hhead _ hr =>
    obtain ⟨hlt, hmem⟩ := hinv.released hnone hlen hhead hr
    exact ⟨⟨idx, hlt, hmem⟩, fun hnone => by cases hnone⟩

/-- The start: no key is cached and every index is free. -/
theorem kept_start (regs : Registers) (workers : Endpoint → Worker) :
    (DynState.start regs workers).Kept := by
  refine ⟨rfl, Finset.range_eq_Ico _, ?_, Nat.zero_le _⟩
  rfl

end

end DynState

section
variable {D : Deployment} {heapq : Heapq HotKey HotKey.le} {fetchTo : Str → Endpoint} {s : DynState}

/-- A run either never evicted a key, and is then a run of steps that meet the condition, or has
given an index twice. The induction is on the run, with the invariant of the system beside it. -/
theorem kept_or_leaky (hD : D.Wired) {regs : Registers} {workers : Endpoint → Worker}
    (h : Run (dynStep D heapq fetchTo) (fun _ _ => True) (.start regs workers) s) :
    s.Inv D heapq ∧ (s.Kept ∧ Run (dynStep D heapq fetchTo) DynState.Keeps (.start regs workers) s ∨
      s.Leaky) := by
  refine h.invariant (fun s => s.Inv D heapq ∧ (s.Kept ∧
    Run (dynStep D heapq fetchTo) DynState.Keeps (.start regs workers) s ∨ s.Leaky))
    ⟨.start D heapq regs workers, .inl ⟨DynState.kept_start regs workers, .refl⟩⟩ ?_
  rintro t a u ⟨hinv, hfate⟩ - hstep
  refine ⟨hinv.step hD hstep, ?_⟩
  rcases hfate with ⟨hkept, hrun⟩ | hleaky
  · by_cases hkeeps : t.Keeps a
    · exact .inl ⟨hkept.step hinv hkeeps hstep, hrun.tail ⟨a, hkeeps, hstep⟩⟩
    · cases a with
      | admitKey => exact .inr (DynState.leaky_of_evicts hinv (not_not.1 hkeeps) hstep)
      | net | begin | place | fetch => exact absurd trivial hkeeps
  · exact .inr (hleaky.step hinv hstep)

/-- In every run, the indices of the cached keys and the free indices partition the index space
between any two decisions of the controller if and only if no step took the eviction branch. -/
theorem partitioned_iff (hD : D.Wired) {regs : Registers} {workers : Endpoint → Worker}
    (h : Run (dynStep D heapq fetchTo) (fun _ _ => True) (.start regs workers) s)
    (hidle : s.placing = none) :
    s.round.Partitioned ↔
      Run (dynStep D heapq fetchTo) DynState.Keeps (.start regs workers) s := by
  obtain ⟨hinv, hfate⟩ := kept_or_leaky hD h
  constructor
  · intro hpart
    rcases hfate with ⟨-, hrun⟩ | hleaky
    · exact hrun
    · have hleaked : s.round.Leaked := ⟨hleaky.full hidle, hleaky.index⟩
      exact absurd hpart (hleaked.not_partitioned (hinv.idle hidle).toLookupConsistent)
  · intro hrun
    have hkept : s.Inv D heapq ∧ s.Kept := hrun.invariant (fun s => s.Inv D heapq ∧ s.Kept)
      ⟨.start D heapq regs workers, DynState.kept_start regs workers⟩ fun _ _ _ hinv hguard hstep =>
        ⟨hinv.1.step hD hstep, hinv.2.step hinv.1 hguard hstep⟩
    exact hkept.2.inOrder.partitioned

end

/-- The first key is installed without an eviction, and the sets partition the index space after it.
-/
theorem partitioned_hotRound :
    ∃ s : DynState, s.round.hotkeyList.length = 1 ∧ s.round.Partitioned := by
  have hD : (cluster 8).Wired := cluster_wired (by decide) (by decide)
  have hexec : (Run.exec (dynStep (cluster 8) (.ofSorted HotKey.le) clusterFetchTo)
      (fun s a => decide (s.Keeps a)) dynamicStart [.begin hotRound, .admitKey]).any
        (fun s => decide (s.round.hotkeyList.length = 1) && s.placing.isNone) = true := by
    decide +kernel
  obtain ⟨s, hrun, hs⟩ := Run.exists_of_exec (fun _ _ => of_decide_eq_true) _ _ hexec
  simp only [Bool.and_eq_true, decide_eq_true_eq, Option.isNone_iff_eq_none] at hs
  rw [← dynamicStart_eq] at hrun
  exact ⟨s, hs.1, (partitioned_iff hD hrun.unguarded hs.2).2 hrun⟩

/-- The 129th report is of a more popular key than the cached ones; after its eviction the sets
overlap. -/
theorem not_partitioned_evicted :
    ∃ s, Run (dynStep (cluster 8) (.ofSorted HotKey.le) clusterFetchTo) (fun _ _ => True)
        (.start Controller.zeroRegisters fullWorkers) s ∧ s.todo = [] ∧ s.placing = none ∧
      ¬ s.round.Partitioned := by
  have hD : (cluster 8).Wired := cluster_wired (by decide) (by decide)
  have hexec : (Run.exec (dynStep (cluster 8) (.ofSorted HotKey.le) clusterFetchTo)
      (fun _ _ => true) filled [.admitKey, .place]).any (fun s => s.todo.isEmpty &&
        s.placing.isNone && decide (128 ≤ s.round.hotkeyList.length ∧ 127 ∈ s.round.available)) =
          true := by
    decide +kernel
  obtain ⟨s, hrun, hs⟩ := Run.exists_of_exec_true _ _ hexec
  simp only [Bool.and_eq_true, List.isEmpty_iff, Option.isNone_iff_eq_none, decide_eq_true_eq] at hs
  obtain ⟨⟨htodo, hplacing⟩, hfull, havailable⟩ := hs
  have hrun := run_filled.unguarded.trans hrun
  have hleaked : s.round.Leaked :=
    ⟨by rwa [RoundState.keys, List.length_map], 127, by decide, havailable⟩
  have hcons := (kept_or_leaky hD hrun).1.idle hplacing
  exact ⟨s, hrun, htodo, hplacing, hleaked.not_partitioned hcons.toLookupConsistent⟩

end OrbitCache
