import Mathlib.Data.Char
import Mathlib.Data.List.Lex
import OrbitCache.Controller.Static
import OrbitCache.Lib.Heapq

/-!
# The dynamic controller

The loop of `controller.py` for `DYNAMIC != 0`. Every round reads the popularity of the cached keys,
rebuilds the heap of hot keys from them and admits the keys the servers reported: into a free index
while there is one, else by evicting the least popular hot key. The table, `cache_idx` and the free
indices persist. `Consistent` is what holds of them between the steps of a round, and
`run_consistent` that it holds after any number of rounds.
-/

namespace OrbitCache.Controller

/-! ## The loop -/

/-- An element of the heap: a popularity and a key, compared as a Python tuple. -/
abbrev HotKey : Type := Nat × Str

/-- The order of Python tuples of an integer and a string: by popularity, and by key where
popularities are equal. -/
def HotKey.le (a b : HotKey) : Prop := a.1 < b.1 ∨ (a.1 = b.1 ∧ a.2 ≤ b.2)

instance : DecidableRel HotKey.le := fun a b =>
  inferInstanceAs (Decidable (a.1 < b.1 ∨ (a.1 = b.1 ∧ a.2 ≤ b.2)))

instance : Std.Total HotKey.le where
  total a b := by
    rcases Nat.lt_trichotomy a.1 b.1 with h | h | h
    · exact .inl (.inl h)
    · exact (le_total a.2 b.2).imp (fun hle => .inr ⟨h, hle⟩) fun hle => .inr ⟨h.symm, hle⟩
    · exact .inr (.inl h)

instance : IsTrans HotKey HotKey.le where
  trans a b c := by
    rintro (h | ⟨h, hle⟩) (h' | ⟨h', hle'⟩)
    · exact .inl (Nat.lt_trans h h')
    · exact .inl (h' ▸ h)
    · exact .inl (h ▸ h')
    · exact .inr ⟨h.trans h', le_trans hle hle'⟩

/-- A change of the cached keys, with the popularities by which an eviction was decided. -/
inductive Decision where
  /-- The key gets a free index. -/
  | insert (key : Str) (idx : Nat)
  /-- The key replaces the least popular hot key at its index. -/
  | evict (evicted : Str) (evictedPopularity : Nat) (key : Str) (popularity : Nat) (idx : Nat)
  deriving DecidableEq, Repr

/-- The change of the lookup table a decision makes. It fails where the controller would raise an
exception. -/
def Decision.apply (t : LookupTable) : Decision → Option LookupTable
  | .insert key idx => tableAdd t (hkey key) idx
  | .evict evicted _ key _ idx => do tableAdd (← tableDel t (hkey evicted)) (hkey key) idx

/-- What persists between rounds: the hot list, `cache_idx`, the free indices and the lookup table
of the switch. -/
structure ControllerState where
  previousHotkeyList : List HotKey
  cacheIdx : AList fun _ : Str => Nat
  available : Finset Nat
  lookup : LookupTable

/-- The state before the first round: nothing is cached and all indices are free. -/
def ControllerState.init : ControllerState := ⟨[], ∅, Finset.range maxHotkey, ∅⟩

/-- What the controller takes in during a round: the counter of each index, as `reg_get` reads it,
and the dictionary of reported keys. -/
structure RoundInput where
  cacheCounter : Nat → Nat
  unCachedKeyPopularity : AList fun _ : Str => Nat

instance (key : Str) (l : List Str) : Decidable (key ∈ l) := List.instDecidableMemOfLawfulBEq key l

/-- Assignment to a key of a Python dictionary, which keeps the order of insertion: a key that is
there keeps its place. -/
def dictSet (d : List (Str × Nat)) (key : Str) (v : Nat) : List (Str × Nat) :=
  if key ∈ d.map Prod.fst then d.map fun e => if e.1 = key then (key, v) else e
  else d ++ [(key, v)]

/-- `cachedKeyPopularity`: the counters of the previous hot keys, each at the index that `cache_idx`
has for it. -/
def readPopularity (s : ControllerState) (cacheCounter : Nat → Nat) : Option (List (Str × Nat)) :=
  s.previousHotkeyList.foldlM (fun d e => do
    let idx ← s.cacheIdx.lookup e.2
    pure (dictSet d e.2 (cacheCounter idx))) []

/-- The state of a round while it admits the reported keys, with the decisions made so far. -/
structure RoundState where
  hotkeyList : List HotKey
  cacheIdx : AList fun _ : Str => Nat
  available : Finset Nat
  lookup : LookupTable
  /-- The decisions of the round so far, oldest first. -/
  decisions : List Decision

section
variable (heapq : Heapq HotKey HotKey.le)

/-- The heap of the hot keys that are already cached, pushed one by one with their new popularities.
-/
def rebuild (cached : List (Str × Nat)) : List HotKey :=
  cached.foldl (fun hotkeyList e =>
    if hotkeyList.length < numHotkey then heapq.heappush hotkeyList (e.2, e.1) else hotkeyList) []

/-- A reported key that gets a free index: it enters the heap, `cache_idx` and the table. -/
def insertKey (s : RoundState) (key : Str) (popularity : Nat) : Option RoundState := do
  let (idx, available) ← getNextIndex s.available
  let lookup ← tableAdd s.lookup (hkey key) idx
  pure {
    hotkeyList := heapq.heappush s.hotkeyList (popularity, key)
    cacheIdx := s.cacheIdx.insert key idx
    available := available
    lookup := lookup
    decisions := s.decisions ++ [.insert key idx] }

/-- The eviction branch up to `table_del`: the least popular hot key and its index, which is
released. -/
def evictLeast (s : RoundState) : Option (RoundState × HotKey × Nat) := do
  let (least, hotkeyList) ← heapq.heappop s.hotkeyList
  let tempIdx ← s.cacheIdx.lookup least.2
  let available ← releaseIndex s.available tempIdx
  let lookup ← tableDel s.lookup (hkey least.2)
  pure ({ s with hotkeyList := hotkeyList, available := available, lookup := lookup },
    least, tempIdx)

/-- The eviction branch from there on: the new key at the index of the evicted one. The index is
used without `get_next_index`, so it also stays among the free ones. -/
def placeKey (s : RoundState) (least : HotKey) (tempIdx : Nat) (key : Str) (popularity : Nat) :
    Option RoundState := do
  let lookup ← tableAdd s.lookup (hkey key) tempIdx
  pure { s with
    hotkeyList := heapq.heappush s.hotkeyList (popularity, key)
    cacheIdx := s.cacheIdx.insert key tempIdx
    lookup := lookup
    decisions := s.decisions ++ [.evict least.2 least.1 key popularity tempIdx] }

/-- A reported key that replaces the least popular hot key: `table_del`, then `table_add`. -/
def evictKey (s : RoundState) (key : Str) (popularity : Nat) : Option RoundState := do
  let (s, least, tempIdx) ← evictLeast heapq s
  placeKey heapq s least tempIdx key popularity

/-- One reported key: skipped if it was hot before, inserted while there is room, and otherwise
admitted if it is strictly more popular than the least popular hot key. -/
def admitKey (previousHotkeyList : List HotKey) (s : RoundState) (key : Str) (popularity : Nat) :
    Option RoundState :=
  if key ∈ previousHotkeyList.map Prod.snd then some s
  else if s.hotkeyList.length < numHotkey then insertKey heapq s key popularity
  else match s.hotkeyList.head? with
    | none => none
    | some least => if popularity > least.1 then evictKey heapq s key popularity else some s

/-- One round: the state after it and its decisions. There is no result if an exception is raised on
the way. -/
def round (s : ControllerState) (inp : RoundInput) : Option (ControllerState × List Decision) := do
  let cached ← readPopularity s inp.cacheCounter
  let r ← inp.unCachedKeyPopularity.entries.foldlM
    (fun r e => admitKey heapq s.previousHotkeyList r e.1 e.2)
    ⟨rebuild heapq cached, s.cacheIdx, s.available, s.lookup, []⟩
  pure (⟨r.hotkeyList, r.cacheIdx, r.available, r.lookup⟩, r.decisions)

/-- Any number of rounds, as long as none raises an exception. -/
def run (s : ControllerState) (inps : List RoundInput) : Option ControllerState :=
  inps.foldlM (fun s inp => Prod.fst <$> round heapq s inp) s

end

/-! ## What holds between the steps of a round -/

/-- The lookup table holds the given keys and nothing else, each at its own index of `cache_idx`,
below `NUM_HOTKEY`. -/
structure LookupConsistent (keys : List Str) (cacheIdx : AList fun _ : Str => Nat)
    (lookup : LookupTable) : Prop where
  nodup : keys.Nodup
  length_le : keys.length ≤ numHotkey
  lookup_iff : ∀ h c, lookup.lookup h = some c ↔
    ∃ key ∈ keys, ∃ i, h = hkey key ∧ cacheIdx.lookup key = some i ∧ c = BitVec.ofNat 32 i
  idx_lt : ∀ key ∈ keys, ∃ i < numHotkey, cacheIdx.lookup key = some i
  idx_inj : ∀ key ∈ keys, ∀ key' ∈ keys, cacheIdx.lookup key = cacheIdx.lookup key' → key = key'

/-- The invariant of the loop. As long as an index is free no key was evicted, so the indices in use
are the first ones; once all are in use `get_next_index` is not called again. -/
structure Consistent (keys : List Str) (cacheIdx : AList fun _ : Str => Nat)
    (available : Finset Nat) (lookup : LookupTable) : Prop
    extends LookupConsistent keys cacheIdx lookup where
  available_eq : keys.length < numHotkey → available = Finset.Ico keys.length maxHotkey
  idx_lt_length : keys.length < numHotkey →
    ∀ key ∈ keys, ∃ i < keys.length, cacheIdx.lookup key = some i

section
variable {keys : List Str} {cacheIdx : AList fun _ : Str => Nat} {available : Finset Nat}
variable {lookup : LookupTable}

/-- Before the first round nothing is cached and the invariant holds. -/
theorem consistent_init : Consistent [] ∅ (Finset.range maxHotkey) ∅ where
  nodup := .nil
  length_le := Nat.zero_le _
  lookup_iff h c := by simp
  idx_lt := by simp
  idx_inj := by simp
  available_eq _ := Finset.range_eq_Ico _
  idx_lt_length := by simp

/-- The order of the keys does not matter, so the heap may be rearranged. -/
theorem LookupConsistent.perm (h : LookupConsistent keys cacheIdx lookup) {keys' : List Str}
    (hp : keys'.Perm keys) : LookupConsistent keys' cacheIdx lookup where
  nodup := hp.nodup_iff.2 h.nodup
  length_le := hp.length_eq ▸ h.length_le
  lookup_iff h' c := by simp only [h.lookup_iff, hp.mem_iff]
  idx_lt key hk := h.idx_lt key (hp.mem_iff.1 hk)
  idx_inj key hk key' hk' := h.idx_inj key (hp.mem_iff.1 hk) key' (hp.mem_iff.1 hk')

/-- Nor does it for the whole invariant, which speaks of the number of keys. -/
theorem Consistent.perm (h : Consistent keys cacheIdx available lookup) {keys' : List Str}
    (hp : keys'.Perm keys) : Consistent keys' cacheIdx available lookup where
  toLookupConsistent := h.toLookupConsistent.perm hp
  available_eq hlt := by rw [hp.length_eq] at hlt ⊢; exact h.available_eq hlt
  idx_lt_length hlt key hk := by
    rw [hp.length_eq] at hlt ⊢
    exact h.idx_lt_length hlt key (hp.mem_iff.1 hk)

/-- Once all indices are in use, the table is all that counts. -/
theorem LookupConsistent.consistent (h : LookupConsistent keys cacheIdx lookup)
    (hfull : ¬ keys.length < numHotkey) : Consistent keys cacheIdx available lookup :=
  ⟨h, fun hlt => absurd hlt hfull, fun hlt => absurd hlt hfull⟩

/-- The table holds exactly the hashes of the cached keys. -/
theorem LookupConsistent.mem_lookup (h : LookupConsistent keys cacheIdx lookup) {k : Hkey} :
    k ∈ lookup ↔ ∃ key ∈ keys, k = hkey key := by
  rw [← AList.lookup_isSome, Option.isSome_iff_exists]
  simp only [h.lookup_iff]
  constructor
  · rintro ⟨c, key, hk, i, heq, -, -⟩
    exact ⟨key, hk, heq⟩
  · rintro ⟨key, hk, rfl⟩
    obtain ⟨i, -, hi⟩ := h.idx_lt key hk
    exact ⟨_, key, hk, i, rfl, hi, rfl⟩

/-- Cached keys have distinct hashes. -/
theorem LookupConsistent.hkey_inj (h : LookupConsistent keys cacheIdx lookup) {key key' : Str}
    (hk : key ∈ keys) (hk' : key' ∈ keys) (heq : hkey key = hkey key') : key = key' := by
  obtain ⟨i, hi, hidx⟩ := h.idx_lt key hk
  obtain ⟨i', hi', hidx'⟩ := h.idx_lt key' hk'
  have hlookup := (h.lookup_iff (hkey key) _).2 ⟨key, hk, i, rfl, hidx, rfl⟩
  rw [(h.lookup_iff (hkey key) _).2 ⟨key', hk', i', heq, hidx', rfl⟩, Option.some.injEq] at hlookup
  have hsame : i' = i := by
    have := congrArg BitVec.toNat hlookup
    rwa [BitVec.toNat_ofNat, BitVec.toNat_ofNat,
      Nat.mod_eq_of_lt (Nat.lt_trans hi' (by decide)),
      Nat.mod_eq_of_lt (Nat.lt_trans hi (by decide))] at this
  exact h.idx_inj key hk key' hk' (by rw [hidx, hidx', hsame])

/-- A table of cached keys gives each its own index. -/
theorem LookupConsistent.staticTable (h : LookupConsistent keys cacheIdx lookup) :
    StaticTable lookup where
  below k c hc := by
    obtain ⟨key, hk, i, -, hidx, rfl⟩ := (h.lookup_iff k c).1 hc
    obtain ⟨i', hi', hidx'⟩ := h.idx_lt key hk
    rw [hidx, Option.some.injEq] at hidx'
    rw [hidx', BitVec.toNat_ofNat]
    exact Nat.lt_of_le_of_lt (Nat.mod_le _ _) hi'
  inj k k' c hc hc' := by
    obtain ⟨key, hk, i, rfl, hidx, rfl⟩ := (h.lookup_iff k c).1 hc
    obtain ⟨key', hk', i', rfl, hidx', heq⟩ := (h.lookup_iff k' _).1 hc'
    obtain ⟨j, hj, hj'⟩ := h.idx_lt key hk
    obtain ⟨l, hl, hl'⟩ := h.idx_lt key' hk'
    rw [hidx, Option.some.injEq] at hj'
    rw [hidx', Option.some.injEq] at hl'
    have hsame : i = i' := by
      have := congrArg BitVec.toNat heq
      rwa [BitVec.toNat_ofNat, BitVec.toNat_ofNat,
        Nat.mod_eq_of_lt (Nat.lt_trans (hj' ▸ hj) (by decide)),
        Nat.mod_eq_of_lt (Nat.lt_trans (hl' ▸ hl) (by decide))] at this
    rw [h.idx_inj key hk key' hk' (by rw [hidx, hidx', hsame])]

/-- A key at an index that no other key has, with a hash that the table does not hold, is added to
both tables. -/
theorem LookupConsistent.cons (h : LookupConsistent keys cacheIdx lookup) {key : Str} {i : Nat}
    (hnew : key ∉ keys) (hlen : keys.length < numHotkey) (hi : i < numHotkey)
    (hfree : ∀ key' ∈ keys, cacheIdx.lookup key' ≠ some i) (hfresh : hkey key ∉ lookup) :
    LookupConsistent (key :: keys) (cacheIdx.insert key i)
      (lookup.insert (hkey key) (BitVec.ofNat 32 i)) where
  nodup := List.nodup_cons.2 ⟨hnew, h.nodup⟩
  length_le := hlen
  lookup_iff h' c := by
    by_cases hh : h' = hkey key
    · subst hh
      rw [AList.lookup_insert]
      constructor
      · intro heq
        exact ⟨key, List.mem_cons_self, i, rfl, AList.lookup_insert _, (Option.some.inj heq).symm⟩
      · rintro ⟨key', hk', j, heq, hj, rfl⟩
        rcases List.mem_cons.1 hk' with rfl | hk'
        · rw [AList.lookup_insert] at hj
          rw [Option.some.inj hj]
        · obtain ⟨j', -, hj'⟩ := h.idx_lt key' hk'
          have hin := (h.lookup_iff (hkey key) _).2 ⟨key', hk', j', heq, hj', rfl⟩
          exact absurd (AList.lookup_isSome.1 (by rw [hin]; rfl)) hfresh
    · rw [AList.lookup_insert_ne hh, h.lookup_iff]
      constructor
      · rintro ⟨key', hk', j, heq, hj, hc⟩
        refine ⟨key', List.mem_cons_of_mem _ hk', j, heq, ?_, hc⟩
        rwa [AList.lookup_insert_ne (ne_of_mem_of_not_mem hk' hnew)]
      · rintro ⟨key', hk', j, heq, hj, hc⟩
        rcases List.mem_cons.1 hk' with rfl | hk'
        · exact absurd heq hh
        · rw [AList.lookup_insert_ne (ne_of_mem_of_not_mem hk' hnew)] at hj
          exact ⟨key', hk', j, heq, hj, hc⟩
  idx_lt key' hk' := by
    rcases List.mem_cons.1 hk' with rfl | hk'
    · exact ⟨i, hi, AList.lookup_insert _⟩
    · rw [AList.lookup_insert_ne (ne_of_mem_of_not_mem hk' hnew)]
      exact h.idx_lt key' hk'
  idx_inj key' hk' key'' hk'' heq := by
    rcases List.mem_cons.1 hk' with rfl | hm' <;> rcases List.mem_cons.1 hk'' with rfl | hm''
    · rfl
    · rw [AList.lookup_insert, AList.lookup_insert_ne (ne_of_mem_of_not_mem hm'' hnew)] at heq
      exact absurd heq.symm (hfree key'' hm'')
    · rw [AList.lookup_insert, AList.lookup_insert_ne (ne_of_mem_of_not_mem hm' hnew)] at heq
      exact absurd heq (hfree key' hm')
    · rw [AList.lookup_insert_ne (ne_of_mem_of_not_mem hm' hnew),
        AList.lookup_insert_ne (ne_of_mem_of_not_mem hm'' hnew)] at heq
      exact h.idx_inj key' hm' key'' hm'' heq

/-- Removing a key: its entry goes, and its index in `cache_idx` is no longer looked at. -/
theorem LookupConsistent.tail {key : Str} (h : LookupConsistent (key :: keys) cacheIdx lookup) :
    LookupConsistent keys cacheIdx (lookup.erase (hkey key)) where
  nodup := (List.nodup_cons.1 h.nodup).2
  length_le := Nat.le_of_succ_le h.length_le
  lookup_iff h' c := by
    have hne : ∀ key' ∈ keys, hkey key' ≠ hkey key := by
      intro key' hk' heq
      have hsame := h.hkey_inj (List.mem_cons_of_mem _ hk') List.mem_cons_self heq
      exact (List.nodup_cons.1 h.nodup).1 (hsame ▸ hk')
    by_cases hh : h' = hkey key
    · subst hh
      rw [AList.lookup_erase]
      refine ⟨fun heq => (Option.some_ne_none _ heq.symm).elim, ?_⟩
      rintro ⟨key', hk', -, heq, -⟩
      exact absurd heq.symm (hne key' hk')
    · rw [AList.lookup_erase_ne hh, h.lookup_iff]
      constructor
      · rintro ⟨key', hk', j, heq, hj⟩
        rcases List.mem_cons.1 hk' with rfl | hk'
        · exact absurd heq hh
        · exact ⟨key', hk', j, heq, hj⟩
      · rintro ⟨key', hk', j, heq, hj⟩
        exact ⟨key', List.mem_cons_of_mem _ hk', j, heq, hj⟩
  idx_lt key' hk' := h.idx_lt key' (List.mem_cons_of_mem _ hk')
  idx_inj key' hk' key'' hk'' :=
    h.idx_inj key' (List.mem_cons_of_mem _ hk') key'' (List.mem_cons_of_mem _ hk'')

/-- No other key has the index of a key, so the index is free once the key is removed. -/
theorem LookupConsistent.idx_free {key : Str} {i : Nat}
    (h : LookupConsistent (key :: keys) cacheIdx lookup) (hidx : cacheIdx.lookup key = some i) :
    ∀ key' ∈ keys, cacheIdx.lookup key' ≠ some i := by
  intro key' hk' heq
  have hsame := h.idx_inj key' (List.mem_cons_of_mem _ hk') key List.mem_cons_self
    (heq.trans hidx.symm)
  exact (List.nodup_cons.1 h.nodup).1 (hsame ▸ hk')

/-- A key that the table does not hold is not cached. -/
theorem LookupConsistent.not_mem (h : LookupConsistent keys cacheIdx lookup) {key : Str}
    (hfresh : hkey key ∉ lookup) : key ∉ keys :=
  fun hk => hfresh (h.mem_lookup.2 ⟨key, hk, rfl⟩)

/-- Giving a new key a free index. As long as there is room, the least free index is the number of
keys. -/
theorem Consistent.insert (h : Consistent keys cacheIdx available lookup) {key : Str}
    (hfresh : hkey key ∉ lookup) (hlen : keys.length < numHotkey) :
    getNextIndex available = some (keys.length, Finset.Ico (keys.length + 1) maxHotkey) ∧
      Consistent (key :: keys) (cacheIdx.insert key keys.length)
        (Finset.Ico (keys.length + 1) maxHotkey)
        (lookup.insert (hkey key) (BitVec.ofNat 32 keys.length)) := by
  have hmax : keys.length < maxHotkey := Nat.lt_trans hlen (by decide)
  have hnew := h.not_mem hfresh
  have hfree : ∀ key' ∈ keys, cacheIdx.lookup key' ≠ some keys.length := by
    intro key' hk' heq
    obtain ⟨i, hi, hi'⟩ := h.idx_lt_length hlen key' hk'
    rw [hi', Option.some.injEq] at heq
    omega
  refine ⟨by rw [h.available_eq hlen, getNextIndex_Ico hmax], ?_⟩
  refine ⟨h.toLookupConsistent.cons hnew hlen hlen hfree hfresh, fun _ => rfl,
    fun _ key' hk' => ?_⟩
  rcases List.mem_cons.1 hk' with rfl | hk'
  · exact ⟨keys.length, Nat.lt_succ_self _, AList.lookup_insert _⟩
  · obtain ⟨i, hi, hi'⟩ := h.idx_lt_length hlen key' hk'
    rw [AList.lookup_insert_ne (ne_of_mem_of_not_mem hk' hnew)]
    exact ⟨i, Nat.lt_succ_of_lt hi, hi'⟩

end

/-! ## Reading the counters and rebuilding the heap -/

/-- Assigning to a new key appends it at the end. -/
theorem dictSet_new {d : List (Str × Nat)} {key : Str} (h : key ∉ d.map Prod.fst) (v : Nat) :
    dictSet d key v = d ++ [(key, v)] := if_neg h

/-- The loop over the previous hot keys makes an entry for each of them. -/
theorem readPopularity_loop (cacheIdx : AList fun _ : Str => Nat) (cacheCounter : Nat → Nat)
    (l : List HotKey) (d : List (Str × Nat)) (hidx : ∀ e ∈ l, ∃ i, cacheIdx.lookup e.2 = some i)
    (hnodup : (d.map Prod.fst ++ l.map Prod.snd).Nodup) :
    ∃ d', l.foldlM (fun d e => do
        let idx ← cacheIdx.lookup e.2
        pure (dictSet d e.2 (cacheCounter idx))) d = some d' ∧
      d'.map Prod.fst = d.map Prod.fst ++ l.map Prod.snd := by
  induction l generalizing d with
  | nil => exact ⟨d, rfl, by simp⟩
  | cons e l ih =>
    obtain ⟨i, hi⟩ := hidx e List.mem_cons_self
    have hnew : e.2 ∉ d.map Prod.fst := fun hin =>
      (List.nodup_append.1 hnodup).2.2 _ hin _ List.mem_cons_self rfl
    obtain ⟨d', hd', hkeys⟩ := ih (d ++ [(e.2, cacheCounter i)])
      (fun e' he' => hidx e' (List.mem_cons_of_mem _ he'))
      (by simpa [List.append_assoc] using hnodup)
    refine ⟨d', ?_, by rw [hkeys]; simp⟩
    rw [List.foldlM_cons, hi]
    simpa [dictSet_new hnew] using hd'

section
variable (heapq : Heapq HotKey HotKey.le)

/-- As long as the cached keys fit, the test of the heap's size does nothing and the loop is a plain
sequence of pushes. -/
theorem rebuild_loop (cached : List (Str × Nat)) (h : List HotKey)
    (hlen : h.length + cached.length ≤ numHotkey) :
    cached.foldl (fun hotkeyList e =>
      if hotkeyList.length < numHotkey then heapq.heappush hotkeyList (e.2, e.1)
      else hotkeyList) h = (cached.map fun e => (e.2, e.1)).foldl heapq.heappush h := by
  induction cached generalizing h with
  | nil => rfl
  | cons e cached ih =>
    rw [List.length_cons] at hlen
    rw [List.foldl_cons, if_pos (by omega), List.map_cons, List.foldl_cons]
    refine ih _ ?_
    rw [(heapq.heappush_perm h _).length_eq, List.length_cons]
    omega

/-- The rebuilt heap holds the cached keys, in some order. -/
theorem rebuild_keys {cached : List (Str × Nat)} (hlen : cached.length ≤ numHotkey) :
    ((rebuild heapq cached).map Prod.snd).Perm (cached.map Prod.fst) ∧
      heapq.IsHeap (rebuild heapq cached) := by
  rw [rebuild, rebuild_loop heapq cached [] (by simpa using hlen)]
  obtain ⟨hperm, hheap⟩ := heapq.foldl_heappush (l := cached.map fun e => (e.2, e.1))
    heapq.isHeap_nil
  refine ⟨?_, hheap⟩
  have hkeys := hperm.map Prod.snd
  rwa [List.append_nil, List.map_map] at hkeys

/-- A round starts with a heap of the previous hot keys. -/
theorem readPopularity_rebuild {s : ControllerState}
    (h : LookupConsistent (s.previousHotkeyList.map Prod.snd) s.cacheIdx s.lookup)
    (cacheCounter : Nat → Nat) :
    ∃ cached, readPopularity s cacheCounter = some cached ∧
      ((rebuild heapq cached).map Prod.snd).Perm (s.previousHotkeyList.map Prod.snd) ∧
      heapq.IsHeap (rebuild heapq cached) := by
  obtain ⟨cached, hcached, hkeys⟩ := readPopularity_loop s.cacheIdx cacheCounter
    s.previousHotkeyList [] (fun e he => by
      obtain ⟨i, -, hi⟩ := h.idx_lt e.2 (List.mem_map_of_mem he)
      exact ⟨i, hi⟩) (by simpa using h.nodup)
  rw [List.map_nil, List.nil_append] at hkeys
  have hlen : cached.length ≤ numHotkey := by
    have := h.length_le
    rwa [← hkeys, List.length_map] at this
  obtain ⟨hperm, hheap⟩ := rebuild_keys heapq hlen
  rw [hkeys] at hperm
  exact ⟨cached, hcached, hperm, hheap⟩

/-! ## Admitting the reported keys -/

/-- An eviction is for a strictly more popular key. -/
def Decision.Justified : Decision → Prop
  | .insert _ _ => True
  | .evict _ evictedPopularity _ popularity _ => evictedPopularity < popularity

/-- The hot keys of a round. -/
def RoundState.keys (r : RoundState) : List Str := r.hotkeyList.map Prod.snd

/-- The invariant of the loop, on the state of a round: the keys are those of its heap. -/
def RoundState.Consistent (r : RoundState) : Prop :=
  Controller.Consistent r.keys r.cacheIdx r.available r.lookup

/-- The invariant between `table_del` and `table_add` of an eviction: an index that no key has is
set aside for the new key. -/
structure RoundState.Reserved (r : RoundState) (idx : Nat) : Prop
    extends LookupConsistent r.keys r.cacheIdx r.lookup where
  free_lt : idx < numHotkey
  free : ∀ key ∈ r.keys, r.cacheIdx.lookup key ≠ some idx
  length_eq : r.keys.length + 1 = numHotkey

section
variable {r : RoundState}

/-- A key that the table does not hold gets a free index, and the invariant holds with one key more.
-/
theorem RoundState.Consistent.insertKey (h : r.Consistent) {key : Str}
    (hfresh : hkey key ∉ r.lookup) (hlen : r.hotkeyList.length < numHotkey) (popularity : Nat) :
    ∃ r', Controller.insertKey heapq r key popularity = some r' ∧ r'.Consistent ∧
      r'.keys.Perm (key :: r.keys) ∧
      r'.hotkeyList = heapq.heappush r.hotkeyList (popularity, key) ∧
      r'.lookup = r.lookup.insert (hkey key) (BitVec.ofNat 32 r.hotkeyList.length) ∧
      r'.decisions = r.decisions ++ [.insert key r.hotkeyList.length] := by
  have hkeys : r.keys.length = r.hotkeyList.length := List.length_map _
  obtain ⟨hnext, hcons⟩ := Controller.Consistent.insert h hfresh (by rwa [hkeys])
  rw [hkeys] at hnext hcons
  have hperm := (heapq.heappush_perm r.hotkeyList (popularity, key)).map Prod.snd
  have hstep : Controller.insertKey heapq r key popularity = some
      { hotkeyList := heapq.heappush r.hotkeyList (popularity, key)
        cacheIdx := r.cacheIdx.insert key r.hotkeyList.length
        available := Finset.Ico (r.hotkeyList.length + 1) maxHotkey
        lookup := r.lookup.insert (hkey key) (BitVec.ofNat 32 r.hotkeyList.length)
        decisions := r.decisions ++ [.insert key r.hotkeyList.length] } := by
    simp [Controller.insertKey, hnext, tableAdd, hfresh]
  exact ⟨_, hstep, hcons.perm hperm, hperm, rfl, rfl, rfl⟩

/-- The least popular hot key of a full heap leaves its index, which is then set aside for the new
key. -/
theorem RoundState.Consistent.evictLeast (h : r.Consistent) (hheap : heapq.IsHeap r.hotkeyList)
    (hlen : numHotkey ≤ r.hotkeyList.length) {least : HotKey}
    (hleast : r.hotkeyList.head? = some least) :
    ∃ r' idx, Controller.evictLeast heapq r = some (r', least, idx) ∧ r'.Reserved idx ∧
      r.keys.Perm (least.2 :: r'.keys) ∧ heapq.IsHeap r'.hotkeyList ∧
      r.lookup.lookup (hkey least.2) = some (BitVec.ofNat 32 idx) ∧
      r.cacheIdx.lookup least.2 = some idx ∧
      r'.lookup = r.lookup.erase (hkey least.2) ∧ r'.decisions = r.decisions := by
  obtain ⟨rest, hrest⟩ := List.head?_eq_some_iff.1 hleast
  obtain ⟨rest', hheappop, hrest', hheap'⟩ := heapq.heappop_cons (hrest ▸ hheap)
  have hkeys : r.keys.Perm (least.2 :: rest'.map Prod.snd) := by
    rw [RoundState.keys, hrest, List.map_cons]
    exact (hrest'.symm.map Prod.snd).cons _
  have hcons : LookupConsistent (least.2 :: rest'.map Prod.snd) r.cacheIdx r.lookup :=
    h.toLookupConsistent.perm hkeys.symm
  obtain ⟨idx, hidx, hlookup⟩ := hcons.idx_lt least.2 List.mem_cons_self
  have hmem : hkey least.2 ∈ r.lookup := hcons.mem_lookup.2 ⟨_, List.mem_cons_self, rfl⟩
  have hstep : Controller.evictLeast heapq r = some
      ({ r with
          hotkeyList := rest'
          available := Insert.insert idx r.available
          lookup := r.lookup.erase (hkey least.2) }, least, idx) := by
    simp [Controller.evictLeast, hrest, hheappop, hlookup, releaseIndex,
      Nat.lt_trans hidx (show numHotkey < maxHotkey by decide), tableDel, hmem]
  have hfull : (rest'.map Prod.snd).length + 1 = numHotkey := by
    have hlength := hkeys.length_eq
    rw [RoundState.keys, List.length_map, List.length_cons] at hlength
    have hle := hcons.length_le
    rw [List.length_cons] at hle
    omega
  exact ⟨_, idx, hstep, ⟨hcons.tail, hidx, hcons.idx_free hlookup, hfull⟩, hkeys, hheap',
    (hcons.lookup_iff _ _).2 ⟨_, List.mem_cons_self, idx, rfl, hlookup, rfl⟩, hlookup, rfl, rfl⟩

/-- A key that the table does not hold takes the index that was left, and the cache is full again.
-/
theorem RoundState.Reserved.placeKey {idx : Nat} (h : r.Reserved idx) {key : Str}
    (hfresh : hkey key ∉ r.lookup) (least : HotKey) (popularity : Nat) :
    ∃ r', Controller.placeKey heapq r least idx key popularity = some r' ∧ r'.Consistent ∧
      r'.keys.Perm (key :: r.keys) ∧
      r'.hotkeyList = heapq.heappush r.hotkeyList (popularity, key) ∧
      r'.lookup = r.lookup.insert (hkey key) (BitVec.ofNat 32 idx) ∧
      r'.decisions = r.decisions ++ [.evict least.2 least.1 key popularity idx] := by
  have hperm := (heapq.heappush_perm r.hotkeyList (popularity, key)).map Prod.snd
  have hlt : r.keys.length < numHotkey := Nat.lt_of_succ_le h.length_eq.le
  have hstep : Controller.placeKey heapq r least idx key popularity = some
      { r with
        hotkeyList := heapq.heappush r.hotkeyList (popularity, key)
        cacheIdx := r.cacheIdx.insert key idx
        lookup := r.lookup.insert (hkey key) (BitVec.ofNat 32 idx)
        decisions := r.decisions ++ [.evict least.2 least.1 key popularity idx] } := by
    simp [Controller.placeKey, tableAdd, hfresh]
  have hcons := h.toLookupConsistent.cons (h.not_mem hfresh) hlt h.free_lt h.free hfresh
  have hfull : ¬ (key :: r.keys).length < numHotkey := Nat.not_lt.2 h.length_eq.ge
  exact ⟨_, hstep, (hcons.consistent hfull).perm hperm, hperm, rfl, rfl, rfl⟩

end

/-- `table_add` succeeds for new keys only. -/
theorem tableAdd_eq_some {t t' : LookupTable} {k : Hkey} {i : Nat}
    (h : tableAdd t k i = some t') : k ∉ t := by
  unfold tableAdd at h
  split at h
  · cases h
  · assumption

/-- A key that got a free index was not in the table. -/
theorem insertKey_fresh {r r' : RoundState} {key : Str} {popularity : Nat}
    (h : Controller.insertKey heapq r key popularity = some r') : hkey key ∉ r.lookup := by
  obtain ⟨_, -, h⟩ := Option.bind_eq_some_iff.1 h
  obtain ⟨_, hadd, -⟩ := Option.bind_eq_some_iff.1 h
  exact tableAdd_eq_some hadd

/-- Nor was a key that took the place of another. -/
theorem placeKey_fresh {r r' : RoundState} {least : HotKey} {idx : Nat} {key : Str}
    {popularity : Nat} (h : Controller.placeKey heapq r least idx key popularity = some r') :
    hkey key ∉ r.lookup := by
  obtain ⟨_, hadd, -⟩ := Option.bind_eq_some_iff.1 h
  exact tableAdd_eq_some hadd

/-- The decision of a key that got a free index. -/
theorem insertKey_decisions {r r' : RoundState} {key : Str} {popularity : Nat}
    (h : Controller.insertKey heapq r key popularity = some r') :
    ∃ idx, r'.decisions = r.decisions ++ [.insert key idx] := by
  obtain ⟨⟨idx, _⟩, -, h⟩ := Option.bind_eq_some_iff.1 h
  obtain ⟨_, -, h⟩ := Option.bind_eq_some_iff.1 h
  cases h
  exact ⟨idx, rfl⟩

/-- The decision of an eviction. -/
theorem evictKey_decisions {r r₁ r' : RoundState} {least : HotKey} {idx : Nat} {key : Str}
    {popularity : Nat} (hevict : Controller.evictLeast heapq r = some (r₁, least, idx))
    (hplace : Controller.placeKey heapq r₁ least idx key popularity = some r') :
    r'.decisions = r.decisions ++ [.evict least.2 least.1 key popularity idx] := by
  obtain ⟨_, -, h⟩ := Option.bind_eq_some_iff.1 hevict
  obtain ⟨_, -, h⟩ := Option.bind_eq_some_iff.1 h
  obtain ⟨_, -, h⟩ := Option.bind_eq_some_iff.1 h
  obtain ⟨_, -, h⟩ := Option.bind_eq_some_iff.1 h
  cases h
  obtain ⟨_, -, h⟩ := Option.bind_eq_some_iff.1 hplace
  cases h
  rfl

/-- What holds while a round admits keys: the invariant of the loop, and that the decisions account
for the table and for the previous keys that are gone. -/
structure RoundInv (reported : Str → Prop) (previousKeys : List Str) (lookup₀ : LookupTable)
    (r : RoundState) : Prop where
  consistent : r.Consistent
  reported_keys : ∀ key ∈ r.keys, reported key
  heap : heapq.IsHeap r.hotkeyList
  replay : r.decisions.foldlM Decision.apply lookup₀ = some r.lookup
  justified : ∀ d ∈ r.decisions, d.Justified
  removed : ∀ key ∈ previousKeys, key ∉ r.keys →
    ∃ p key' p' i, Decision.evict key p key' p' i ∈ r.decisions

variable {heapq} {reported : Str → Prop}
  (hinj : ∀ k k', reported k → reported k' → hkey k = hkey k' → k = k')
include hinj

/-- A reported key that is not cached has no entry in the table. -/
theorem RoundInv.fresh {previousKeys : List Str} {lookup₀ : LookupTable} {r : RoundState}
    (h : RoundInv heapq reported previousKeys lookup₀ r) {key : Str} (hkey : reported key)
    (hnew : key ∉ r.keys) : Controller.hkey key ∉ r.lookup := by
  intro hin
  obtain ⟨key', hk', heq⟩ := h.consistent.mem_lookup.1 hin
  exact hnew (hinj _ _ hkey (h.reported_keys key' hk') heq ▸ hk')

/-- A new key is given a free index: the step of the invariant while there is room. -/
theorem RoundInv.insertKey {previousKeys : List Str} {lookup₀ : LookupTable} {r : RoundState}
    (h : RoundInv heapq reported previousKeys lookup₀ r) {key : Str} (hkey : reported key)
    (hnew : key ∉ r.keys) (hlen : r.hotkeyList.length < numHotkey) (popularity : Nat) :
    ∃ r', Controller.insertKey heapq r key popularity = some r' ∧
      RoundInv heapq reported previousKeys lookup₀ r' ∧
      ∀ k ∈ r'.keys, k = key ∨ k ∈ r.keys := by
  have hfresh := h.fresh hinj hkey hnew
  obtain ⟨r', hstep, hcons, hperm, hheap, hlookup, hdecisions⟩ :=
    h.consistent.insertKey heapq hfresh hlen popularity
  have hmem : ∀ k ∈ r'.keys, k = key ∨ k ∈ r.keys := fun k hk =>
    List.mem_cons.1 (hperm.mem_iff.1 hk)
  refine ⟨r', hstep, ⟨hcons, fun k hk => ?_, ?_, ?_, fun d hd => ?_, fun k hk hgone => ?_⟩, hmem⟩
  · rcases hmem k hk with rfl | hk
    · exact hkey
    · exact h.reported_keys k hk
  · rw [hheap]
    exact heapq.isHeap_heappush h.heap
  · simp [hdecisions, List.foldlM_append, h.replay, Decision.apply, tableAdd, hfresh, hlookup]
  · rw [hdecisions] at hd
    rcases List.mem_append.1 hd with hd | hd
    · exact h.justified d hd
    · rw [List.mem_singleton.1 hd]
      trivial
  · have hgone : k ∉ r.keys := fun hin => hgone (hperm.mem_iff.2 (List.mem_cons_of_mem _ hin))
    obtain ⟨p, key', p', i, hd⟩ := h.removed k hk hgone
    exact ⟨p, key', p', i, hdecisions ▸ List.mem_append_left _ hd⟩

/-- A new key replaces the least popular hot key: the step of the invariant when the cache is full.
-/
theorem RoundInv.evictKey {previousKeys : List Str} {lookup₀ : LookupTable} {r : RoundState}
    (h : RoundInv heapq reported previousKeys lookup₀ r) {key : Str} (hkey : reported key)
    (hnew : key ∉ r.keys) (hlen : numHotkey ≤ r.hotkeyList.length)
    {popularity : Nat} {least : HotKey} (hleast : r.hotkeyList.head? = some least)
    (hpop : least.1 < popularity) :
    ∃ r', Controller.evictKey heapq r key popularity = some r' ∧
      RoundInv heapq reported previousKeys lookup₀ r' ∧
      ∀ k ∈ r'.keys, k = key ∨ k ∈ r.keys := by
  have hfresh := h.fresh hinj hkey hnew
  obtain ⟨r₁, idx, hevict, hres, hkeys, hheap₁, hlookup₁, hidx, herase, hdec₁⟩ :=
    h.consistent.evictLeast heapq h.heap hlen hleast
  have hfresh₁ : Controller.hkey key ∉ r₁.lookup := by
    rw [herase]
    exact fun hin => hfresh (AList.mem_erase.1 hin).2
  obtain ⟨r', hplace, hcons, hperm, hheap, hlookup, hdec⟩ :=
    hres.placeKey heapq hfresh₁ least popularity
  have hdecisions : r'.decisions = r.decisions ++ [.evict least.2 least.1 key popularity idx] := by
    rw [hdec, hdec₁]
  have hmem : ∀ k ∈ r'.keys, k = key ∨ k ∈ r.keys := fun k hk =>
    (List.mem_cons.1 (hperm.mem_iff.1 hk)).imp_right fun hk =>
      hkeys.mem_iff.2 (List.mem_cons_of_mem _ hk)
  have hleastmem : Controller.hkey least.2 ∈ r.lookup :=
    AList.lookup_isSome.1 (Option.isSome_iff_exists.2 ⟨_, hlookup₁⟩)
  refine ⟨r', by simp [Controller.evictKey, hevict, hplace],
    ⟨hcons, fun k hk => ?_, ?_, ?_, fun d hd => ?_, fun k hk hgone => ?_⟩, hmem⟩
  · rcases hmem k hk with rfl | hk
    · exact hkey
    · exact h.reported_keys k hk
  · rw [hheap]
    exact heapq.isHeap_heappush hheap₁
  · simp [hdecisions, List.foldlM_append, h.replay, Decision.apply, tableDel, tableAdd, hleastmem,
      ← herase, hfresh₁, hlookup]
  · rw [hdecisions] at hd
    rcases List.mem_append.1 hd with hd | hd
    · exact h.justified d hd
    · rw [List.mem_singleton.1 hd]
      exact hpop
  · by_cases hold : k ∈ r.keys
    · rcases List.mem_cons.1 (hkeys.mem_iff.1 hold) with rfl | hin
      · exact ⟨_, _, _, _, hdecisions ▸ List.mem_append_right _ (List.mem_singleton.2 rfl)⟩
      · exact absurd (hperm.mem_iff.2 (List.mem_cons_of_mem _ hin)) hgone
    · obtain ⟨p, key', p', i, hd⟩ := h.removed k hk hold
      exact ⟨p, key', p', i, hdecisions ▸ List.mem_append_left _ hd⟩

/-- Admitting one reported key, by the three branches of the code: skipped, inserted, or tried
against the least popular one. -/
theorem RoundInv.admitKey {previous : List HotKey} {lookup₀ : LookupTable} {r : RoundState}
    (h : RoundInv heapq reported (previous.map Prod.snd) lookup₀ r) {key : Str}
    (hkey : reported key) (hnew : key ∉ previous.map Prod.snd → key ∉ r.keys) (popularity : Nat) :
    ∃ r', Controller.admitKey heapq previous r key popularity = some r' ∧
      RoundInv heapq reported (previous.map Prod.snd) lookup₀ r' ∧
      ∀ k ∈ r'.keys, k = key ∨ k ∈ r.keys := by
  unfold Controller.admitKey
  split
  · exact ⟨r, rfl, h, fun k hk => .inr hk⟩
  · next hprev =>
    split
    · next hlen => exact h.insertKey hinj hkey (hnew hprev) hlen popularity
    · next hlen =>
      have hlen := Nat.not_lt.1 hlen
      cases hleast : r.hotkeyList.head? with
      | none =>
        rw [List.head?_eq_none_iff.1 hleast] at hlen
        exact absurd hlen (by decide)
      | some least =>
        dsimp only
        split
        · next hpop => exact h.evictKey hinj hkey (hnew hprev) hlen hleast hpop
        · exact ⟨r, rfl, h, fun k hk => .inr hk⟩

/-- Admitting the reported keys one by one, by induction. No key is reported twice, so a key that is
still to come is not in the heap yet. -/
theorem RoundInv.admitAll {previous : List HotKey} {lookup₀ : LookupTable}
    (l : List (Sigma fun _ : Str => Nat)) {r : RoundState}
    (h : RoundInv heapq reported (previous.map Prod.snd) lookup₀ r)
    (hreported : ∀ e ∈ l, reported e.1) (hnodup : (l.map Sigma.fst).Nodup)
    (hnew : ∀ e ∈ l, e.1 ∉ previous.map Prod.snd → e.1 ∉ r.keys) :
    ∃ r', l.foldlM (fun r e => Controller.admitKey heapq previous r e.1 e.2) r = some r' ∧
      RoundInv heapq reported (previous.map Prod.snd) lookup₀ r' := by
  induction l generalizing r with
  | nil => exact ⟨r, rfl, h⟩
  | cons e l ih =>
    rw [List.map_cons, List.nodup_cons] at hnodup
    obtain ⟨r₁, hr₁, hinv, hkeys⟩ := h.admitKey hinj (hreported e List.mem_cons_self)
      (hnew e List.mem_cons_self) e.2
    obtain ⟨r', hr', hinv'⟩ := ih hinv (fun e' he' => hreported e' (List.mem_cons_of_mem _ he'))
      hnodup.2 fun e' he' hprev hin => by
        rcases hkeys _ hin with heq | hin
        · exact hnodup.1 (heq ▸ List.mem_map_of_mem he')
        · exact hnew e' (List.mem_cons_of_mem _ he') hprev hin
    refine ⟨r', ?_, hinv'⟩
    rw [List.foldlM_cons, hr₁]
    exact hr'

/-! ## Rounds -/

/-- The keys of the hot list of a state, without their popularities. -/
def ControllerState.hotKeys (s : ControllerState) : List Str := s.previousHotkeyList.map Prod.snd

/-- The invariant of the loop, on its state between two rounds. -/
structure ControllerState.Inv (reported : Str → Prop) (s : ControllerState) : Prop where
  consistent : Consistent s.hotKeys s.cacheIdx s.available s.lookup
  reported_keys : ∀ key ∈ s.hotKeys, reported key

omit hinj in
variable (heapq) in
/-- A round starts with the previous keys and the table as they were. -/
theorem roundInv_start {s : ControllerState}
    (h : s.Inv reported) (cacheCounter : Nat → Nat) :
    ∃ cached, readPopularity s cacheCounter = some cached ∧
      ((rebuild heapq cached).map Prod.snd).Perm s.hotKeys ∧
      RoundInv heapq reported s.hotKeys s.lookup
        ⟨rebuild heapq cached, s.cacheIdx, s.available, s.lookup, []⟩ := by
  obtain ⟨cached, hcached, hperm, hheap⟩ :=
    readPopularity_rebuild heapq h.consistent.toLookupConsistent cacheCounter
  exact ⟨cached, hcached, hperm, h.consistent.perm hperm,
    fun key hk => h.reported_keys key (hperm.mem_iff.1 hk), hheap, rfl, by simp,
    fun key hk hgone => absurd (hperm.mem_iff.2 hk) hgone⟩

/-- The decisions of a round account for every change of the table: replaying them gives the new
table, each eviction is for a strictly more popular key, and a cached key that is gone was
evicted. -/
structure Accounts (s s' : ControllerState) (ds : List Decision) : Prop where
  replay : ds.foldlM Decision.apply s.lookup = some s'.lookup
  justified : ∀ d ∈ ds, d.Justified
  removed : ∀ key ∈ s.hotKeys, key ∉ s'.hotKeys →
    ∃ p key' p' i, Decision.evict key p key' p' i ∈ ds

variable (heapq) in
/-- A round raises no exception, keeps the invariant and accounts for what it changes. -/
theorem round_inv {s : ControllerState} (h : s.Inv reported) {inp : RoundInput}
    (hreported : ∀ key ∈ inp.unCachedKeyPopularity, reported key) :
    ∃ s' ds, round heapq s inp = some (s', ds) ∧ s'.Inv reported ∧ Accounts s s' ds := by
  obtain ⟨cached, hcached, hperm, hstart⟩ := roundInv_start heapq h inp.cacheCounter
  obtain ⟨r, hr, hinv⟩ := hstart.admitAll hinj inp.unCachedKeyPopularity.entries
    (fun e he => hreported _ (List.mem_map_of_mem he))
    inp.unCachedKeyPopularity.nodupKeys
    fun e _ hprev hin => hprev (hperm.mem_iff.1 hin)
  refine ⟨⟨r.hotkeyList, r.cacheIdx, r.available, r.lookup⟩, r.decisions, ?_,
    ⟨hinv.consistent, hinv.reported_keys⟩, hinv.replay, hinv.justified, hinv.removed⟩
  simp [round, hcached, hr]

variable (heapq) in
/-- Any number of rounds raise no exception and keep the invariant. -/
theorem run_inv {s : ControllerState} (h : s.Inv reported) (inps : List RoundInput)
    (hreported : ∀ inp ∈ inps, ∀ key ∈ inp.unCachedKeyPopularity, reported key) :
    ∃ s', run heapq s inps = some s' ∧ s'.Inv reported := by
  induction inps generalizing s with
  | nil => exact ⟨s, rfl, h⟩
  | cons inp inps ih =>
    obtain ⟨s₁, ds, hround, hinv, -⟩ := round_inv heapq hinj h
      (hreported inp List.mem_cons_self)
    obtain ⟨s', hs', hinv'⟩ := ih hinv fun inp' hinp' =>
      hreported inp' (List.mem_cons_of_mem _ hinp')
    refine ⟨s', ?_, hinv'⟩
    rw [run, List.foldlM_cons, hround]
    exact hs'

end

/-- Whatever the counters say and whatever is reported, after any number of rounds the lookup table
holds exactly the keys of the hot list, each at its own index below `NUM_HOTKEY`, and the next round
raises no exception, keeps this and removes a key only by evicting it for a strictly more popular
one. -/
theorem dynamic_lookupConsistent (heapq : Heapq HotKey HotKey.le) (reported : Str → Prop)
    (hinj : ∀ k k', reported k → reported k' → hkey k = hkey k' → k = k')
    (inps : List RoundInput)
    (hreported : ∀ inp ∈ inps, ∀ key ∈ inp.unCachedKeyPopularity, reported key) :
    ∃ s, run heapq .init inps = some s ∧ LookupConsistent s.hotKeys s.cacheIdx s.lookup ∧
      ∀ inp : RoundInput, (∀ key ∈ inp.unCachedKeyPopularity, reported key) →
        ∃ s' ds, round heapq s inp = some (s', ds) ∧
          LookupConsistent s'.hotKeys s'.cacheIdx s'.lookup ∧ Accounts s s' ds := by
  have hinit : ∀ key ∈ ControllerState.init.hotKeys, reported key := by
    simp [ControllerState.hotKeys, ControllerState.init]
  obtain ⟨s, hs, hinv⟩ := run_inv heapq hinj (s := .init) ⟨consistent_init, hinit⟩ inps hreported
  refine ⟨s, hs, hinv.consistent.toLookupConsistent, fun inp hinp => ?_⟩
  obtain ⟨s', ds, hround, hinv', haccounts⟩ := round_inv heapq hinj hinv hinp
  exact ⟨s', ds, hround, hinv'.consistent.toLookupConsistent, haccounts⟩

/-- Two reported keys, and a third one a round later, over heaps that are sorted lists: the first
two stay in the table at their indices, with their counters as popularities. -/
theorem dynamic_lookupConsistent_two :
    let inps : List RoundInput :=
      [⟨fun _ => 0, (AList.singleton ['A'] 200).insert ['B'] 300⟩,
        ⟨fun i => 40 + i, AList.singleton ['C'] 30⟩]
    ∃ s, run (.ofSorted HotKey.le) .init inps = some s ∧
      LookupConsistent s.hotKeys s.cacheIdx s.lookup ∧
      s.previousHotkeyList = [(30, ['C']), (40, ['B']), (41, ['A'])] ∧
      s.lookup.lookup (hkey ['B']) = some 0 ∧ s.lookup.lookup (hkey ['A']) = some 1 ∧
      s.lookup.lookup (hkey ['C']) = some 2 := by
  intro inps
  have heval : (run (.ofSorted HotKey.le) .init inps).any (fun s =>
      decide (s.previousHotkeyList = [(30, ['C']), (40, ['B']), (41, ['A'])] ∧
        s.lookup.lookup (hkey ['B']) = some 0 ∧ s.lookup.lookup (hkey ['A']) = some 1 ∧
        s.lookup.lookup (hkey ['C']) = some 2)) = true := by
    decide +kernel
  have hmem : ∀ inp ∈ inps, ∀ key ∈ inp.unCachedKeyPopularity,
      key = ['A'] ∨ key = ['B'] ∨ key = ['C'] := by
    intro inp hinp key hkey
    rcases List.mem_pair.1 hinp with rfl | rfl
    · exact ((AList.mem_insert _).1 hkey).elim (fun h => .inr (.inl h))
        fun h => .inl (List.mem_singleton.1 h)
    · exact .inr (.inr (List.mem_singleton.1 hkey))
  obtain ⟨s, hs, hcons, -⟩ := dynamic_lookupConsistent (.ofSorted HotKey.le)
    (fun key => key = ['A'] ∨ key = ['B'] ∨ key = ['C'])
    (by rintro _ _ (rfl | rfl | rfl) (rfl | rfl | rfl) <;> decide) inps hmem
  rw [hs] at heval
  exact ⟨s, hs, hcons, of_decide_eq_true heval⟩

end OrbitCache.Controller
