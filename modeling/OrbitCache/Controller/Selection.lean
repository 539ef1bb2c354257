import OrbitCache.Controller.Dynamic
import OrbitCache.Lib.Selection

/-!
# What a round selects

A round of the dynamic controller sees the previous hot keys with their counters and then the
reported keys that were not hot, in the order of the dictionary. It keeps `NUM_HOTKEY` of the most
popular ones (`round_selects`).
-/

namespace OrbitCache.Controller

/-! ## The candidates -/

/-- The previous hot keys with their counters, as the round reads them. -/
def cachedCandidates (s : ControllerState) (cacheCounter : Nat → Nat) : List HotKey :=
  s.previousHotkeyList.filterMap fun e => (s.cacheIdx.lookup e.2).map fun i => (cacheCounter i, e.2)

/-- The reported keys that were not hot, with the popularity that was reported for them. -/
def reportedCandidates (previousHotkeyList : List HotKey)
    (l : List (Sigma fun _ : Str => Nat)) : List HotKey :=
  (l.filter fun e => e.1 ∉ previousHotkeyList.map Prod.snd).map fun e => (e.2, e.1)

/-- The keys a round can choose from: those that are cached and those that are reported for the
first time. -/
def candidates (s : ControllerState) (inp : RoundInput) : List HotKey :=
  cachedCandidates s inp.cacheCounter ++
    reportedCandidates s.previousHotkeyList inp.unCachedKeyPopularity.entries

/-- A key is a candidate once: a reported key that is cached counts with its counter only. -/
theorem candidates_nodup {s : ControllerState} (h : s.hotKeys.Nodup) (inp : RoundInput) :
    ((candidates s inp).map Prod.snd).Nodup := by
  have hcached : ((cachedCandidates s inp.cacheCounter).map Prod.snd).Sublist s.hotKeys := by
    have hmap : (cachedCandidates s inp.cacheCounter).map Prod.snd =
        (s.previousHotkeyList.filter fun e => (s.cacheIdx.lookup e.2).isSome).map Prod.snd := by
      rw [cachedCandidates]
      induction s.previousHotkeyList with
      | nil => rfl
      | cons e l ih =>
        cases he : s.cacheIdx.lookup e.2 with
        | none => simpa [he] using ih
        | some i => simpa [he] using ih
    rw [hmap]
    exact List.filter_sublist.map _
  have hreported : ((reportedCandidates s.previousHotkeyList
      inp.unCachedKeyPopularity.entries).map Prod.snd).Nodup := by
    have hkeys : (inp.unCachedKeyPopularity.entries.map Sigma.fst).Nodup :=
      inp.unCachedKeyPopularity.nodupKeys
    rw [reportedCandidates, List.map_map]
    exact hkeys.sublist (List.filter_sublist.map Sigma.fst)
  rw [candidates, List.map_append]
  refine List.nodup_append.2 ⟨h.sublist hcached, hreported, ?_⟩
  rintro key hkey _ hkey' rfl
  obtain ⟨e, he, rfl⟩ := List.mem_map.1 hkey'
  obtain ⟨e', he', rfl⟩ := List.mem_map.1 he
  exact of_decide_eq_true (List.mem_filter.1 he').2 (hcached.subset hkey)

/-! ## The heap of a round -/

section
variable (heapq : Heapq HotKey HotKey.le)

/-- The counters that are read are those of the candidates, in the order of the hot list. -/
theorem readPopularity_eq (cacheIdx : AList fun _ : Str => Nat) (cacheCounter : Nat → Nat)
    (l : List HotKey) {d d' : List (Str × Nat)} (hnodup : (d.map Prod.fst ++ l.map Prod.snd).Nodup)
    (h : l.foldlM (fun d e => do
        let idx ← cacheIdx.lookup e.2
        pure (dictSet d e.2 (cacheCounter idx))) d = some d') :
    d' = d ++ l.filterMap fun e => (cacheIdx.lookup e.2).map fun i => (e.2, cacheCounter i) := by
  induction l generalizing d with
  | nil =>
    cases h
    exact (List.append_nil _).symm
  | cons e l ih =>
    rw [List.foldlM_cons] at h
    obtain ⟨d₁, hd₁, h⟩ := Option.bind_eq_some_iff.1 h
    obtain ⟨i, hi, hd₁⟩ := Option.bind_eq_some_iff.1 hd₁
    have hnew : e.2 ∉ d.map Prod.fst := fun hin =>
      (List.nodup_append.1 hnodup).2.2 _ hin _ List.mem_cons_self rfl
    rw [dictSet_new hnew] at hd₁
    cases hd₁
    rw [ih (by simpa [List.append_assoc] using hnodup) h]
    simp [hi]

/-- The heap at the start of a round selects from the cached candidates. -/
theorem rebuild_selects {s : ControllerState} (hnodup : s.hotKeys.Nodup)
    (hlen : s.hotKeys.length ≤ numHotkey) {cacheCounter : Nat → Nat} {cached : List (Str × Nat)}
    (h : readPopularity s cacheCounter = some cached) :
    Selects numHotkey Prod.fst (rebuild heapq cached) (cachedCandidates s cacheCounter) ∧
      heapq.IsHeap (rebuild heapq cached) := by
  have hcached := readPopularity_eq s.cacheIdx cacheCounter s.previousHotkeyList (d := [])
    (by simpa [ControllerState.hotKeys] using hnodup) h
  have hmap : cached.map (fun e => (e.2, e.1)) = cachedCandidates s cacheCounter := by
    rw [hcached, List.nil_append, List.map_filterMap, cachedCandidates]
    congr 1
    funext e
    cases s.cacheIdx.lookup e.2 <;> rfl
  have hle : cached.length ≤ numHotkey := by
    rw [hcached, List.nil_append]
    refine (List.length_filterMap_le _ _).trans ?_
    rw [ControllerState.hotKeys, List.length_map] at hlen
    exact hlen
  obtain ⟨hperm, hheap⟩ := heapq.foldl_heappush (l := cached.map fun e => (e.2, e.1))
    heapq.isHeap_nil
  rw [List.append_nil, hmap] at hperm
  rw [rebuild, rebuild_loop heapq cached [] (by simpa using hle)]
  refine ⟨?_, hheap⟩
  refine (Selects.all ?_).perm (hmap ▸ hperm) (.refl _)
  rw [← hmap, List.length_map]
  exact hle

/-- The candidates after one more report: a report of a key that was hot is skipped. -/
def offer (previousHotkeyList : List HotKey) (seen : List HotKey) (e : Sigma fun _ : Str => Nat) :
    List HotKey :=
  if e.1 ∈ previousHotkeyList.map Prod.snd then seen else (e.2, e.1) :: seen

/-- Reports are candidates unless the key was hot: the candidates that the loop has seen at its end.
-/
theorem foldl_offer (previousHotkeyList seen : List HotKey) (l : List (Sigma fun _ : Str => Nat)) :
    (l.foldl (offer previousHotkeyList) seen).Perm
      (seen ++ reportedCandidates previousHotkeyList l) := by
  induction l generalizing seen with
  | nil => simp [reportedCandidates]
  | cons e l ih =>
    rw [List.foldl_cons]
    refine (ih _).trans ?_
    by_cases hprev : e.1 ∈ previousHotkeyList.map Prod.snd
    · simp [offer, reportedCandidates, hprev]
    · simp only [offer, reportedCandidates, List.filter_cons, hprev, not_false_eq_true,
        decide_true, if_true, List.map_cons]
      exact List.perm_middle.symm

/-- The eviction branch replaces the first element of the heap, which is the least, by the new key.
-/
theorem evictKey_heap {r r' : RoundState} {key : Str} {popularity : Nat} {head : HotKey}
    (hheap : heapq.IsHeap r.hotkeyList) (hhead : r.hotkeyList.head? = some head)
    (hr : Controller.evictKey heapq r key popularity = some r') :
    ∃ rest, r.hotkeyList.Perm (head :: rest) ∧ (∀ y ∈ rest, HotKey.le head y) ∧
      r'.hotkeyList.Perm ((popularity, key) :: rest) ∧ heapq.IsHeap r'.hotkeyList := by
  obtain ⟨tail, htail⟩ := List.head?_eq_some_iff.1 hhead
  rw [htail] at hheap
  obtain ⟨rest, hpop, hperm, hheap'⟩ := heapq.heappop_cons hheap
  obtain ⟨⟨r₁, least, idx⟩, hevict, hplace⟩ := Option.bind_eq_some_iff.1 hr
  obtain ⟨⟨least', hotkeyList⟩, hpop', hevict⟩ := Option.bind_eq_some_iff.1 hevict
  rw [htail, hpop, Option.some.injEq] at hpop'
  cases hpop'
  obtain ⟨_, -, hevict⟩ := Option.bind_eq_some_iff.1 hevict
  obtain ⟨_, -, hevict⟩ := Option.bind_eq_some_iff.1 hevict
  obtain ⟨_, -, hevict⟩ := Option.bind_eq_some_iff.1 hevict
  cases hevict
  obtain ⟨_, -, hplace⟩ := Option.bind_eq_some_iff.1 hplace
  cases hplace
  refine ⟨rest, ?_, fun y hy => heapq.head_le hheap y (hperm.mem_iff.1 hy),
    heapq.heappush_perm _ _, heapq.isHeap_heappush hheap'⟩
  rw [htail]
  exact hperm.symm.cons head

/-- Admitting one reported key keeps a selection of the candidates seen so far. The three cases are
those of `Selects`: room is left, the least one is replaced, or the new one is not more popular. -/
theorem admitKey_selects {previous : List HotKey} {r r' : RoundState} {seen : List HotKey}
    {e : Sigma fun _ : Str => Nat} (hheap : heapq.IsHeap r.hotkeyList)
    (h : Selects numHotkey Prod.fst r.hotkeyList seen)
    (hr : admitKey heapq previous r e.1 e.2 = some r') :
    heapq.IsHeap r'.hotkeyList ∧
      Selects numHotkey Prod.fst r'.hotkeyList (offer previous seen e) := by
  unfold admitKey at hr
  unfold offer
  split at hr
  · next hprev =>
    cases hr
    rw [if_pos hprev]
    exact ⟨hheap, h⟩
  · next hprev =>
    rw [if_neg hprev]
    split at hr
    · next hroom =>
      obtain ⟨_, -, hr⟩ := Option.bind_eq_some_iff.1 hr
      obtain ⟨_, -, hr⟩ := Option.bind_eq_some_iff.1 hr
      cases hr
      exact ⟨heapq.isHeap_heappush hheap, h.push hroom (heapq.heappush_perm _ _)⟩
    · next hfull =>
      have hfull := Nat.not_lt.1 hfull
      split at hr
      · cases hr
      · next least hleast =>
        have hle : ∀ {y : HotKey}, HotKey.le least y → least.1 ≤ y.1 := fun hy =>
          hy.elim Nat.le_of_lt fun hy => hy.1.le
        split at hr
        · next hpop =>
          obtain ⟨rest, hperm, hlower, hperm', hheap'⟩ := evictKey_heap heapq hheap hleast hr
          refine ⟨hheap', h.replace hfull hperm (fun y hy => hle (hlower y hy)) ?_ hperm'⟩
          exact Nat.le_of_lt hpop
        · next hpop =>
          cases hr
          obtain ⟨tail, htail⟩ := List.head?_eq_some_iff.1 hleast
          refine ⟨hheap, h.skip hfull (fun y hy => ?_) (Nat.not_lt.1 hpop)⟩
          rw [htail] at hy hheap
          rcases List.mem_cons.1 hy with rfl | hy
          · exact Nat.le_refl _
          · exact hle (heapq.head_le hheap y hy)

/-- Admitting the reported keys one by one, by induction on the reports. -/
theorem admitKeys_selects {previous : List HotKey} {l : List (Sigma fun _ : Str => Nat)}
    {r r' : RoundState} {seen : List HotKey} (hheap : heapq.IsHeap r.hotkeyList)
    (h : Selects numHotkey Prod.fst r.hotkeyList seen)
    (hr : l.foldlM (fun r e => admitKey heapq previous r e.1 e.2) r = some r') :
    Selects numHotkey Prod.fst r'.hotkeyList (l.foldl (offer previous) seen) := by
  induction l generalizing r seen with
  | nil =>
    cases hr
    exact h
  | cons e l ih =>
    rw [List.foldlM_cons] at hr
    obtain ⟨r₁, hr₁, hr⟩ := Option.bind_eq_some_iff.1 hr
    obtain ⟨hheap₁, h₁⟩ := admitKey_selects heapq hheap h hr₁
    exact ih hheap₁ h₁ hr

/-! ## Rounds that return -/

/-- Admitting a key keeps the table consistent, whatever the hashes are, if nothing is raised. -/
theorem RoundState.Consistent.admitKey {previous : List HotKey} {r r' : RoundState} {key : Str}
    {popularity : Nat} (h : r.Consistent) (hheap : heapq.IsHeap r.hotkeyList)
    (hr : Controller.admitKey heapq previous r key popularity = some r') :
    r'.Consistent ∧ heapq.IsHeap r'.hotkeyList := by
  unfold Controller.admitKey at hr
  split at hr
  · cases hr
    exact ⟨h, hheap⟩
  · split at hr
    · next hroom =>
      obtain ⟨r'', hr'', hcons, -, hlist, -⟩ := h.insertKey heapq (insertKey_fresh heapq hr) hroom
        popularity
      rw [hr, Option.some.injEq] at hr''
      subst hr''
      refine ⟨hcons, ?_⟩
      rw [hlist]
      exact heapq.isHeap_heappush hheap
    · next hfull =>
      split at hr
      · cases hr
      · next least hleast =>
        split at hr
        · next hpop =>
          obtain ⟨-, -, -, -, hheap'⟩ := evictKey_heap heapq hheap hleast hr
          obtain ⟨⟨r₁, least', idx⟩, hevict, hplace⟩ := Option.bind_eq_some_iff.1 hr
          obtain ⟨r₂, idx', hevict', hres, -⟩ :=
            h.evictLeast heapq hheap (Nat.not_lt.1 hfull) hleast
          rw [hevict, Option.some.injEq] at hevict'
          cases hevict'
          obtain ⟨r₃, hplace', hcons, -⟩ :=
            hres.placeKey heapq (placeKey_fresh heapq hplace) least popularity
          have hplace : Controller.placeKey heapq r₁ least idx key popularity = some r' := hplace
          rw [hplace, Option.some.injEq] at hplace'
          subst hplace'
          exact ⟨hcons, hheap'⟩
        · cases hr
          exact ⟨h, hheap⟩

/-- A round that returns keeps the table consistent, without an assumption on the hashes: a
collision would have raised an exception. -/
theorem round_consistent {s s' : ControllerState} {inp : RoundInput} {ds : List Decision}
    (h : Consistent s.hotKeys s.cacheIdx s.available s.lookup)
    (hround : round heapq s inp = some (s', ds)) :
    Consistent s'.hotKeys s'.cacheIdx s'.available s'.lookup := by
  obtain ⟨cached, hcached, hround⟩ := Option.bind_eq_some_iff.1 hround
  obtain ⟨r, hr, hround⟩ := Option.bind_eq_some_iff.1 hround
  cases hround
  obtain ⟨cached', hcached', hperm, hheap⟩ :=
    readPopularity_rebuild heapq h.toLookupConsistent inp.cacheCounter
  rw [hcached, Option.some.injEq] at hcached'
  subst hcached'
  have hstart : RoundState.Consistent
      ⟨rebuild heapq cached, s.cacheIdx, s.available, s.lookup, []⟩ := h.perm hperm
  have hloop : ∀ (l : List (Sigma fun _ : Str => Nat)) (r₀ : RoundState), r₀.Consistent →
      heapq.IsHeap r₀.hotkeyList →
      l.foldlM (fun r e => Controller.admitKey heapq s.previousHotkeyList r e.1 e.2) r₀ = some r →
        r.Consistent := by
    intro l
    induction l with
    | nil =>
      intro r₀ hcons _ hr
      cases hr
      exact hcons
    | cons e l ih =>
      intro r₀ hcons hheap hr
      rw [List.foldlM_cons] at hr
      obtain ⟨r₁, hr₁, hr⟩ := Option.bind_eq_some_iff.1 hr
      obtain ⟨hcons₁, hheap₁⟩ := hcons.admitKey heapq hheap hr₁
      exact ih r₁ hcons₁ hheap₁ hr
  exact hloop _ _ hstart hheap hr

/-- So do any number of rounds, by induction. -/
theorem run_consistent {s s' : ControllerState} {inps : List RoundInput}
    (h : Consistent s.hotKeys s.cacheIdx s.available s.lookup)
    (hrun : run heapq s inps = some s') :
    Consistent s'.hotKeys s'.cacheIdx s'.available s'.lookup := by
  induction inps generalizing s with
  | nil =>
    cases hrun
    exact h
  | cons inp inps ih =>
    rw [run, List.foldlM_cons] at hrun
    obtain ⟨s₁, hs₁, hrun⟩ := Option.bind_eq_some_iff.1 hrun
    obtain ⟨⟨s₁', ds⟩, hround, rfl⟩ := Option.map_eq_some_iff.1 hs₁
    exact ih (round_consistent heapq h hround) hrun

/-- The hot list after a round selects from the candidates: the heap at the start does, and each
report keeps it so. -/
theorem round_selects_candidates {s s' : ControllerState} {inp : RoundInput} {ds : List Decision}
    (h : Consistent s.hotKeys s.cacheIdx s.available s.lookup)
    (hround : round heapq s inp = some (s', ds)) :
    Selects numHotkey Prod.fst s'.previousHotkeyList (candidates s inp) := by
  obtain ⟨cached, hcached, hround⟩ := Option.bind_eq_some_iff.1 hround
  obtain ⟨r, hr, hround⟩ := Option.bind_eq_some_iff.1 hround
  cases hround
  obtain ⟨hselects, hheap⟩ := rebuild_selects heapq h.nodup h.length_le hcached
  have hall := admitKeys_selects heapq (r := ⟨rebuild heapq cached, s.cacheIdx, s.available,
    s.lookup, []⟩) hheap hselects hr
  exact hall.perm (.refl _) (foldl_offer _ _ _).symm

end

/-! ## A full cache -/

/-- The item after the static ones, which the controller does not install at the start. -/
def newItem : Nat := numHotkey

/-- The static keys, each less popular than the one before it. -/
def staticReports : List (Sigma fun _ : Str => Nat) :=
  staticKeys.zipIdx.map fun e => ⟨e.1, 1000 - e.2⟩

/-- A more popular key that is reported after them, when all indices are taken. -/
def newReport : Sigma fun _ : Str => Nat := ⟨tostringKey newItem, 2000⟩

/-- The keys reported first are those that the static controller installs. -/
theorem staticReports_fst : staticReports.map Sigma.fst = staticKeys := by
  rw [staticReports, List.map_map]
  exact List.zipIdx_map_fst 0 staticKeys

/-- The new key has a hash of its own. -/
theorem newReport_fresh : hkey newReport.1 ∉ staticKeys.map hkey := by
  decide +kernel

/-- No key is reported twice, as the keys of a Python dictionary are distinct. -/
theorem reports_nodupKeys : (staticReports ++ [newReport]).NodupKeys := by
  have hnodup : ((staticReports ++ [newReport]).map Sigma.fst).Nodup := by
    rw [List.map_append, staticReports_fst, List.nodup_append]
    refine ⟨.of_map _ staticKeys_nodup, List.nodup_singleton _, ?_⟩
    rintro key hkey _ hnew rfl
    rw [List.mem_singleton.1 hnew] at hkey
    exact newReport_fresh (List.mem_map_of_mem hkey)
  exact hnodup

/-- What the servers report in the first round. -/
def firstRound : RoundInput := ⟨fun _ => 0, ⟨staticReports ++ [newReport], reports_nodupKeys⟩⟩

/-- The hashes of all reported keys are distinct. -/
theorem reports_hkey {k k' : Str} (h : k ∈ firstRound.unCachedKeyPopularity)
    (h' : k' ∈ firstRound.unCachedKeyPopularity) (heq : hkey k = hkey k') : k = k' := by
  have hkeys : firstRound.unCachedKeyPopularity.keys = staticKeys ++ [newReport.1] := by
    rw [← staticReports_fst]
    exact List.map_append
  have hnodup : ((staticKeys ++ [newReport.1]).map hkey).Nodup := by
    rw [List.map_append, List.nodup_append]
    refine ⟨staticKeys_nodup, List.nodup_singleton _, ?_⟩
    rintro h hstatic _ hnew rfl
    rw [List.map_singleton, List.mem_singleton] at hnew
    exact newReport_fresh (hnew ▸ hstatic)
  rw [AList.mem_keys, hkeys] at h h'
  exact List.inj_on_of_nodup_map hnodup h h' heq

/-- The key that does not fit: the last of the static ones, with the lowest popularity. -/
def coldest : HotKey := (1000 - 127, tostringKey 127)

/-- In the first round all reported keys are candidates. -/
theorem candidates_firstRound :
    candidates .init firstRound = (staticReports ++ [newReport]).map fun e => (e.2, e.1) := by
  simp [candidates, cachedCandidates, reportedCandidates, ControllerState.init, firstRound]

/-- They are one more than the cache has room for. -/
theorem length_candidates_firstRound : (candidates .init firstRound).length = numHotkey + 1 := by
  simp [candidates_firstRound, staticReports, staticKeys]

/-- The last static key is less popular than every other candidate. -/
theorem coldest_lt {e : HotKey} (h : e ∈ candidates .init firstRound) (hne : e ≠ coldest) :
    coldest.1 < e.1 := by
  rw [candidates_firstRound, List.map_append, List.mem_append] at h
  rcases h with h | h
  · obtain ⟨_, hmem, rfl⟩ := List.mem_map.1 h
    obtain ⟨⟨key, i⟩, hi, rfl⟩ := List.mem_map.1 hmem
    obtain ⟨hlt, hkey⟩ := List.mem_zipIdx' hi
    simp only [staticKeys, List.length_map, List.length_range, List.getElem_map,
      List.getElem_range, numHotkey] at hlt hkey
    have h127 : i ≠ 127 := by
      rintro rfl
      exact hne (by rw [coldest, hkey])
    simp only [coldest]
    omega
  · rw [List.map_singleton, List.mem_singleton] at h
    subst h
    simp [coldest, newReport]

/-! ## The selection -/

/-- Whatever the rounds before have left, whatever the counters say and whatever is reported, a
round keeps `NUM_HOTKEY` of the most popular candidates, or all of them, and the popularities it
keeps are those of any other round with the same candidates in any order. Distinct hashes are all it
takes to raise no exception. -/
theorem round_selects (heapq : Heapq HotKey HotKey.le) {inps : List RoundInput}
    {s : ControllerState} (hs : run heapq .init inps = some s) (inp : RoundInput) :
    ((∀ k k', k ∈ s.hotKeys ∨ k ∈ inp.unCachedKeyPopularity →
        k' ∈ s.hotKeys ∨ k' ∈ inp.unCachedKeyPopularity → hkey k = hkey k' → k = k') →
      (round heapq s inp).isSome = true) ∧
    ∀ s' ds, round heapq s inp = some (s', ds) →
      Selects numHotkey Prod.fst s'.previousHotkeyList (candidates s inp) ∧ s'.hotKeys.Nodup ∧
      ∀ inps₂ s₂ inp₂ s₂' ds₂, run heapq .init inps₂ = some s₂ →
        (candidates s₂ inp₂).Perm (candidates s inp) → round heapq s₂ inp₂ = some (s₂', ds₂) →
          (s₂'.previousHotkeyList.map Prod.fst).Perm (s'.previousHotkeyList.map Prod.fst) := by
  have hcons := run_consistent heapq (s := .init) consistent_init hs
  refine ⟨fun hinj => ?_, fun s' ds hround => ?_⟩
  · have hreported : ∀ key ∈ inp.unCachedKeyPopularity,
        key ∈ s.hotKeys ∨ key ∈ inp.unCachedKeyPopularity := fun key hk => .inr hk
    obtain ⟨s', ds, hround, -⟩ := round_inv heapq hinj ⟨hcons, fun key hk => .inl hk⟩ hreported
    rw [hround]
    rfl
  · have hselects := round_selects_candidates heapq hcons hround
    refine ⟨hselects, (round_consistent heapq hcons hround).nodup, ?_⟩
    intro inps₂ s₂ inp₂ s₂' ds₂ hs₂ hperm hround₂
    have hcons₂ := run_consistent heapq (s := .init) consistent_init hs₂
    exact hselects.map_perm (round_selects_candidates heapq hcons₂ hround₂) hperm

/-- The first round, when one key more is reported than fits: the least popular one is left out,
although all indices were taken before the most popular one was seen. -/
theorem round_selects_full :
    ∃ s ds, round (.ofSorted HotKey.le) .init firstRound = some (s, ds) ∧
      Selects numHotkey Prod.fst s.previousHotkeyList (candidates .init firstRound) ∧
      (candidates .init firstRound).length = numHotkey + 1 ∧
      s.previousHotkeyList.length = numHotkey ∧ coldest ∉ s.previousHotkeyList := by
  have hrun : run (.ofSorted HotKey.le) .init [] = some .init := rfl
  have hmem : ∀ {key}, key ∈ ControllerState.init.hotKeys ∨
      key ∈ firstRound.unCachedKeyPopularity → key ∈ firstRound.unCachedKeyPopularity :=
    fun h => h.elim (fun hinit => absurd hinit List.not_mem_nil) id
  have hsome : (round (.ofSorted HotKey.le) .init firstRound).isSome = true :=
    (round_selects (.ofSorted HotKey.le) hrun firstRound).1 fun k k' hk hk' heq =>
      reports_hkey (hmem hk) (hmem hk') heq
  obtain ⟨⟨s, ds⟩, hround⟩ := Option.isSome_iff_exists.1 hsome
  obtain ⟨hselects, -⟩ := (round_selects (.ofSorted HotKey.le) hrun firstRound).2 s ds hround
  have hfull : numHotkey < (candidates .init firstRound).length := by
    rw [length_candidates_firstRound]
    exact Nat.lt_succ_self _
  have hinit : ControllerState.init.hotKeys.Nodup := consistent_init.nodup
  have hnodup : (candidates .init firstRound).Nodup := .of_map _ (candidates_nodup hinit firstRound)
  refine ⟨s, ds, hround, hselects, length_candidates_firstRound, ?_,
    hselects.notMem_of_least hfull hnodup fun e => coldest_lt⟩
  rw [hselects.length_eq]
  exact Nat.min_eq_left hfull.le

end OrbitCache.Controller
