import OrbitCache.Host.Handler
import OrbitCache.Host.StartUp
import OrbitCache.Tommy.Hash
import OrbitCache.Tommy.Runs

/-!
# The store of a worker

`tommy_put_init`, `tommy_put` and `tommy_get` of `header.h` on the hash table. A `struct kv_hdr`
starts with its node, so both have one address, and the data of a node is the structure that it is
in. The functions look at what `malloc` returns for the structure, but not at what `strdup` returns:
a key or a value without memory is a null pointer in the table, and the next comparison with such a
key reads it (`StoreRel.put_noMemory`). `store_refines`: while `strdup` and the segments of the
table have memory, these functions do what they do on a `TommyHashlin`, a list of keys and values,
which the server is modelled with.
-/

namespace OrbitCache.Tommy

variable {A : Type}

/-- What the allocator gives to a call: the `struct kv_hdr` that `malloc` returns, if it is called,
and whether `strdup` has memory for the key and for the value. -/
structure Alloc (A : Type) where
  kv : Option A
  key : Bool
  value : Bool

/-- `strdup` has memory for both strings, so neither becomes a null pointer. -/
def Alloc.Strings (alloc : Alloc A) : Prop := alloc.key = true ∧ alloc.value = true

instance (alloc : Alloc A) : Decidable alloc.Strings := inferInstanceAs (Decidable (_ ∧ _))

/-- `strdup`: a copy of the string up to its terminator, or a null pointer without memory. -/
def strdup (memory : Bool) (string : Bytes) : Option Bytes :=
  if memory then some (cString string) else none

/-- The hash table, and the strings of the `struct kv_hdr` in it, as far as they are not null
pointers. -/
structure Store (A : Type) where
  hashlin : Hashlin A A
  key : A → Option Bytes
  value : A → Option Bytes

namespace Store

variable [DecidableEq A] (junk : Nat → Nat → Option A)

/-- The insertion of a new `struct kv_hdr`, which ends without memory for it. What `strdup` returns
goes into the structure as it is. -/
def insertNew (alloc : Alloc A) (s : Store A) (key value : Bytes) (hash : BitVec 32) :
    Option (Store A) :=
  match alloc.kv with
  | none => some s
  | some kv => do
    let hashlin ← s.hashlin.insert junk kv kv hash
    return {
      hashlin
      key := Function.update s.key kv (strdup alloc.key key)
      value := Function.update s.value kv (strdup alloc.value value) }

/-- `tommy_put_init`, with what the allocator gives. It inserts without looking whether the key is
there. -/
def putInit (alloc : Alloc A) (s : Store A) (key value : Bytes) : Option (Store A) :=
  if alloc.kv.isNone then some s
  else do
    let hash ← strhashU32 0 key
    s.insertNew junk alloc key value hash

omit [DecidableEq A] in
/-- `compare` of `tommy_put` and `tommy_get`, whether it is zero. `strcmp` reads the key of the
`struct kv_hdr`, also where that is a null pointer. -/
def compare (s : Store A) (key : Bytes) (kv : A) : Option Bool :=
  (s.key kv).map fun k => cString key = k

/-- `tommy_put`, with what the allocator gives. A key that is found gets a new value, without memory
a null pointer. -/
def put (alloc : Alloc A) (s : Store A) (key value : Bytes) : Option (Store A) := do
  let hash ← strhashU32 0 key
  match ← s.hashlin.searchWith (s.compare key) hash with
  | some existingKv =>
    return { s with value := Function.update s.value existingKv (strdup alloc.value value) }
  | none => s.insertNew junk alloc key value hash

omit [DecidableEq A] in
/-- `tommy_get`: a null pointer for a key that is not found, and for one whose value is a null
pointer. -/
def get (s : Store A) (key : Bytes) : Option (Option Bytes) := do
  let hash ← strhashU32 0 key
  match ← s.hashlin.searchWith (s.compare key) hash with
  | none => return none
  | some kv => return s.value kv

end Store

/-! ## The list of keys and values -/

/-- The element of the table for a `struct kv_hdr` with a key: its own node and datum, with the hash
of the key. -/
def entryOf (key : A → Option Bytes) (kv : A) : Entry A A :=
  ⟨kv, kv, stringHash 0 ((key kv).getD [])⟩

/-- The key and the value of a `struct kv_hdr` that has both. -/
def kvOf (key value : A → Option Bytes) (kv : A) : KvHdr :=
  ⟨(key kv).getD [], (value kv).getD []⟩

/-- The table has these nodes, with the keys and values of the list, and none of these is a null
pointer. -/
structure StoreRel (s : Store A) (nodes : List A) (t : TommyHashlin) : Prop where
  table : Refines s.hashlin (nodes.map (entryOf s.key))
  keys : ∀ kv ∈ nodes, (s.key kv).isSome
  values : ∀ kv ∈ nodes, (s.value kv).isSome
  items : t = nodes.map (kvOf s.key s.value)

variable {s : Store A} {nodes : List A} {t : TommyHashlin} {key value : Bytes}

/-- The nodes of these elements are the structures themselves. -/
theorem map_node_entryOf (key : A → Option Bytes) (nodes : List A) :
    (nodes.map (entryOf key)).map Entry.node = nodes := by
  rw [List.map_map]
  exact List.map_id nodes

/-- No structure is in the table twice. -/
theorem StoreRel.nodup (h : StoreRel s nodes t) : nodes.Nodup :=
  map_node_entryOf s.key nodes ▸ h.table.valid.nodup

/-- The first node with a key, where no node has a null pointer, is the one that a comparison of the
keys of the nodes with the hash comes to. -/
theorem findM?_compare (hash : BitVec 32) (hkeys : ∀ kv ∈ nodes, (s.key kv).isSome)
    (hhash : hash = stringHash 0 (cString key)) :
    (nodes.map (entryOf s.key)).findM? (Entry.isMatch (s.compare key) hash) =
      some ((nodes.find? fun kv => s.key kv = some (cString key)).map (entryOf s.key)) := by
  have hmatch : ∀ kv ∈ nodes, Entry.isMatch (s.compare key) hash (entryOf s.key kv) =
      some (decide (s.key kv = some (cString key))) := fun kv hkv => by
    obtain ⟨k, hk⟩ := Option.isSome_iff_exists.mp (hkeys kv hkv)
    rw [Entry.isMatch, entryOf, Store.compare, hk, hhash]
    simp only [Option.getD_some, Option.map_some, Option.some.injEq]
    by_cases hsame : k = cString key
    · simp [hsame]
    · have hsame' : ¬ cString key = k := fun heq => hsame heq.symm
      simp [hsame, hsame']
  rw [findM?_map, findM?_congr hmatch]
  exact congrArg (Option.map (Option.map (entryOf s.key))) (List.findM?_pure _ nodes)

/-- A search with the hash of a key is a search for the key, since the comparison looks at the key
and equal keys have equal hashes. -/
theorem StoreRel.search (h : StoreRel s nodes t) (key : Bytes) :
    s.hashlin.searchWith (s.compare key) (stringHash 0 (cString key)) =
      some (nodes.find? fun kv => s.key kv = some (cString key)) := by
  rw [h.table.searchWith, findM?_compare _ h.keys rfl, Option.map_some, Option.map_map]
  exact congrArg some (Option.map_id' ..)

/-- The list of keys and values is searched in the same order. -/
theorem StoreRel.search_items (h : StoreRel s nodes t) (key : Bytes) :
    t.search key =
      (nodes.find? fun kv => s.key kv = some key).map (kvOf s.key s.value) := by
  rw [h.items, TommyHashlin.search, List.find?_map]
  refine congrArg _ (find?_congr fun kv hkv => ?_)
  obtain ⟨k, hk⟩ := Option.isSome_iff_exists.mp (h.keys kv hkv)
  simp [kvOf, hk]

variable [DecidableEq A] (junk : Nat → Nat → Option A)

/-- With memory `strdup` copies the string. -/
theorem strdup_true (string : Bytes) : strdup true string = some (cString string) := rfl

/-- What becomes of the table and of its strings when a new `struct kv_hdr` is inserted, with or
without memory for them. -/
theorem StoreRel.insertNew_eq (h : StoreRel s nodes t) {kv : A} (hkv : kv ∉ nodes)
    (hmax : nodes.length + 1 < 2 ^ 29) {alloc : Alloc A} (halloc : alloc.kv = some kv)
    (key value : Bytes) (hash : BitVec 32) :
    ∃ hashlin, s.insertNew junk alloc key value hash = some ⟨hashlin,
        Function.update s.key kv (strdup alloc.key key),
        Function.update s.value kv (strdup alloc.value value)⟩ ∧
      Refines hashlin (nodes.map (entryOf (Function.update s.key kv (strdup alloc.key key))) ++
        [⟨kv, kv, hash⟩]) := by
  obtain ⟨hashlin, hinsert, hrefines⟩ := h.table.insert junk kv
    (by rwa [map_node_entryOf]) (by rwa [List.length_map]) kv hash
  have hold : ∀ x ∈ nodes,
      entryOf (Function.update s.key kv (strdup alloc.key key)) x = entryOf s.key x :=
    fun x hx => by rw [entryOf, entryOf, Function.update_of_ne (ne_of_mem_of_not_mem hx hkv)]
  refine ⟨hashlin, ?_, ?_⟩
  · simp only [Store.insertNew, halloc, hinsert, Option.bind_eq_bind, Option.bind_some]
    rfl
  · rw [List.map_congr_left hold]
    exact hrefines

/-- A new `struct kv_hdr` with its strings comes behind the others, in the table and in the list. -/
theorem StoreRel.insertNew (h : StoreRel s nodes t) {kv : A} (hkv : kv ∉ nodes)
    (hmax : nodes.length + 1 < 2 ^ 29) {alloc : Alloc A} (halloc : alloc.kv = some kv)
    (hstrings : alloc.Strings) (key value : Bytes) :
    ∃ s', s.insertNew junk alloc key value (stringHash 0 (cString key)) = some s' ∧
      StoreRel s' (nodes ++ [kv]) (t ++ [⟨cString key, cString value⟩]) := by
  obtain ⟨hashlin, hinsert, hrefines⟩ :=
    h.insertNew_eq junk hkv hmax halloc key value (stringHash 0 (cString key))
  rw [hstrings.1, hstrings.2, strdup_true, strdup_true] at hinsert
  rw [hstrings.1, strdup_true] at hrefines
  have hother : ∀ x ∈ nodes, x ≠ kv := fun x hx => ne_of_mem_of_not_mem hx hkv
  refine ⟨_, hinsert, ?_, fun x hx => ?_, fun x hx => ?_, ?_⟩
  · have hnew : entryOf (Function.update s.key kv (some (cString key))) kv =
        ⟨kv, kv, stringHash 0 (cString key)⟩ := by rw [entryOf, Function.update_self]; rfl
    rw [List.map_append, List.map_singleton, hnew]
    exact hrefines
  · rcases List.mem_append.mp hx with hx | hx
    · simp only [Function.update_of_ne (hother x hx), h.keys x hx]
    · simp [List.mem_singleton.mp hx]
  · rcases List.mem_append.mp hx with hx | hx
    · simp only [Function.update_of_ne (hother x hx), h.values x hx]
    · simp [List.mem_singleton.mp hx]
  · have hold : ∀ x ∈ nodes, kvOf (Function.update s.key kv (some (cString key)))
        (Function.update s.value kv (some (cString value))) x = kvOf s.key s.value x :=
      fun x hx => by
        rw [kvOf, kvOf, Function.update_of_ne (hother x hx), Function.update_of_ne (hother x hx)]
    have hnew : kvOf (Function.update s.key kv (some (cString key)))
        (Function.update s.value kv (some (cString value))) kv = ⟨cString key, cString value⟩ := by
      rw [kvOf, Function.update_self, Function.update_self]
      rfl
    rw [List.map_append, List.map_singleton, List.map_congr_left hold, ← h.items, hnew]

/-- An assignment to the value of the first `struct kv_hdr` with a key is an assignment in the list.
-/
theorem setValue_map {f g : A → Option Bytes} {kv : A} {k : Bytes} (hnodup : nodes.Nodup)
    (hkeys : ∀ x ∈ nodes, (f x).isSome) (hfind : (nodes.find? fun x => f x = some k) = some kv)
    (v : Bytes) :
    TommyHashlin.setValue k v (nodes.map (kvOf f g)) =
      nodes.map (kvOf f (Function.update g kv (some v))) := by
  induction nodes with
  | nil => cases hfind
  | cons x nodes ih =>
    obtain ⟨hx, hnodup⟩ := List.nodup_cons.mp hnodup
    obtain ⟨hsome, hkeys⟩ := List.forall_mem_cons.mp hkeys
    obtain ⟨k', hk'⟩ := Option.isSome_iff_exists.mp hsome
    rw [List.map_cons, List.map_cons, TommyHashlin.setValue]
    rw [List.find?_cons] at hfind
    split
    · next hk =>
      have hfx : f x = some k := by
        rw [hk']
        simpa [kvOf, hk'] using hk
      rw [decide_eq_true hfx] at hfind
      obtain rfl := Option.some.inj hfind
      have hrest : nodes.map (kvOf f (Function.update g x (some v))) = nodes.map (kvOf f g) :=
        List.map_congr_left fun y hy => by
          rw [kvOf, kvOf, Function.update_of_ne (ne_of_mem_of_not_mem hy hx)]
      rw [hrest, kvOf, kvOf, Function.update_self, Option.getD_some]
    · next hk =>
      have hfx : ¬ f x = some k := fun heq => hk (by simp [kvOf, heq])
      rw [decide_eq_false hfx] at hfind
      have hne : x ≠ kv := (ne_of_mem_of_not_mem (List.mem_of_find?_eq_some hfind) hx).symm
      rw [ih hnodup hkeys hfind, kvOf, kvOf, Function.update_of_ne hne]

/-! ## Runs -/

/-- What a worker does with its table. The allocator's part of a call is an argument of it. -/
inductive StoreOp (A : Type)
  | putInit (alloc : Alloc A) (key value : Bytes)
  | put (alloc : Alloc A) (key value : Bytes)
  | get (key : Bytes)

/-- The operation on the store, with the string that `tommy_get` returns, as the code does it. -/
def StoreOp.run (op : StoreOp A) (s : Store A) : Option (Store A × Option Bytes) :=
  match op with
  | .putInit alloc key value => do return (← s.putInit junk alloc key value, none)
  | .put alloc key value => do return (← s.put junk alloc key value, none)
  | .get key => do return (s, ← s.get key)

/-- What `malloc` returns is new, `strdup` has memory, and there are not too many nodes: what a call
expects of the allocator. -/
def Fresh (nodes : List A) (alloc : Alloc A) : Prop :=
  (∀ kv ∈ alloc.kv, kv ∉ nodes) ∧ alloc.Strings ∧ nodes.length + 1 < 2 ^ 29

instance (nodes : List A) (alloc : Alloc A) : Decidable (Fresh nodes alloc) :=
  inferInstanceAs (Decidable (_ ∧ _))

/-- The operation on the list of keys and values, and on the nodes that were inserted. There is one
where the key has its terminator and the allocator gives what is expected of it; only the
`struct kv_hdr` may be missing. -/
def StoreOp.apply (op : StoreOp A) (st : List A × TommyHashlin) :
    Option ((List A × TommyHashlin) × Option Bytes) :=
  match op with
  | .putInit alloc key value =>
    if HoldsString key ∧ Fresh st.1 alloc then
      some ((st.1 ++ alloc.kv.toList,
        st.2.putInit alloc.kv.isSome (cString key) (cString value)), none)
    else none
  | .put alloc key value =>
    if HoldsString key ∧ Fresh st.1 alloc then
      if (st.2.search (cString key)).isSome then
        some ((st.1, st.2.put (cString key) (cString value)), none)
      else
        some ((st.1 ++ alloc.kv.toList,
          if alloc.kv.isSome then st.2.put (cString key) (cString value) else st.2), none)
    else none
  | .get key => if HoldsString key then some (st, st.2.get (cString key)) else none

/-- `tommy_put_init` on the store is `tommy_put_init` on the list, with a new node or without one.
-/
theorem StoreRel.putInit (h : StoreRel s nodes t) {alloc : Alloc A} (hkey : HoldsString key)
    (hfresh : Fresh nodes alloc) (value : Bytes) :
    ∃ s', s.putInit junk alloc key value = some s' ∧
      StoreRel s' (nodes ++ alloc.kv.toList)
        (t.putInit alloc.kv.isSome (cString key) (cString value)) := by
  rw [Store.putInit]
  cases hkv : alloc.kv with
  | none =>
    refine ⟨s, rfl, ?_⟩
    rw [Option.toList_none, List.append_nil]
    exact h
  | some kv =>
    obtain ⟨s', hinsert, hrel⟩ :=
      h.insertNew junk (hfresh.1 kv hkv) hfresh.2.2 hkv hfresh.2.1 key value
    refine ⟨s', ?_, hrel⟩
    simp only [Option.isNone_some, Bool.false_eq_true, if_false, strhashU32_eq, if_pos hkey,
      Option.bind_eq_bind, Option.bind_some]
    exact hinsert

/-- A key that is in the table gets its new value there, and no node is added. -/
theorem StoreRel.put_of_isSome (h : StoreRel s nodes t) {alloc : Alloc A}
    (hstrings : alloc.Strings) (hkey : HoldsString key)
    (hsearch : (t.search (cString key)).isSome) (value : Bytes) :
    ∃ s', s.put junk alloc key value = some s' ∧
      StoreRel s' nodes (t.put (cString key) (cString value)) := by
  have hsearch' := hsearch
  rw [h.search_items, Option.isSome_map] at hsearch'
  obtain ⟨kv, hkv⟩ := Option.isSome_iff_exists.mp hsearch'
  refine ⟨{ s with value := Function.update s.value kv (some (cString value)) }, ?_, h.table,
    h.keys, fun x hx => ?_, ?_⟩
  · simp only [Store.put, strhashU32_eq, if_pos hkey, h.search, hkv, Option.bind_eq_bind,
      Option.bind_some, hstrings.2, strdup_true]
    rfl
  · by_cases hne : x = kv
    · simp [hne]
    · simp only [Function.update_of_ne hne, h.values x hx]
  · rw [TommyHashlin.put, if_pos hsearch, h.items, setValue_map h.nodup h.keys hkv]

/-- A key that is not in the table is searched for without success, so `tommy_put` inserts it. -/
theorem StoreRel.put_eq_insertNew (h : StoreRel s nodes t) (alloc : Alloc A)
    (hkey : HoldsString key) (hsearch : ¬ (t.search (cString key)).isSome) (value : Bytes) :
    s.put junk alloc key value =
      s.insertNew junk alloc key value (stringHash 0 (cString key)) := by
  have hnone : (nodes.find? fun kv => s.key kv = some (cString key)) = none := by
    rw [h.search_items, Option.isSome_map] at hsearch
    exact Option.not_isSome_iff_eq_none.mp hsearch
  simp only [Store.put, strhashU32_eq, if_pos hkey, h.search, hnone, Option.bind_eq_bind,
    Option.bind_some]

/-- A key that is not in the table is inserted, where there is memory for the structure. -/
theorem StoreRel.put_of_isNone (h : StoreRel s nodes t) {alloc : Alloc A}
    (hkey : HoldsString key) (hfresh : Fresh nodes alloc)
    (hsearch : ¬ (t.search (cString key)).isSome) (value : Bytes) :
    ∃ s', s.put junk alloc key value = some s' ∧
      StoreRel s' (nodes ++ alloc.kv.toList)
        (if alloc.kv.isSome then t.put (cString key) (cString value) else t) := by
  rw [h.put_eq_insertNew junk alloc hkey hsearch]
  cases hkv : alloc.kv with
  | none =>
    refine ⟨s, by rw [Store.insertNew, hkv], ?_⟩
    rw [Option.toList_none, List.append_nil]
    exact h
  | some kv =>
    obtain ⟨s', hinsert, hrel⟩ :=
      h.insertNew junk (hfresh.1 kv hkv) hfresh.2.2 hkv hfresh.2.1 key value
    refine ⟨s', hinsert, ?_⟩
    rw [TommyHashlin.put, if_neg hsearch]
    exact hrel

/-- A key whose `strdup` has no memory is inserted as a null pointer, and the next `tommy_get` of
the key reads it; with memory for the key only, `tommy_get` returns a null pointer. -/
theorem StoreRel.put_noMemory (h : StoreRel s nodes t) {alloc : Alloc A} {kv : A}
    (hkv : alloc.kv = some kv) (hnew : kv ∉ nodes) (hmax : nodes.length + 1 < 2 ^ 29)
    (hkey : HoldsString key) (hsearch : ¬ (t.search (cString key)).isSome) (value : Bytes) :
    ∃ s', s.put junk alloc key value = some s' ∧
      (alloc.key = false → s'.get key = none) ∧
      (alloc.key = true → alloc.value = false → s'.get key = some none) := by
  obtain ⟨hashlin, hinsert, hrefines⟩ :=
    h.insertNew_eq junk hnew hmax hkv key value (stringHash 0 (cString key))
  have hother : ∀ x ∈ nodes, Function.update s.key kv (strdup alloc.key key) x = s.key x :=
    fun x hx => Function.update_of_ne (ne_of_mem_of_not_mem hx hnew) ..
  have hnone : (nodes.find? fun x => Function.update s.key kv (strdup alloc.key key) x =
      some (cString key)) = none := by
    rw [h.search_items, Option.isSome_map] at hsearch
    rw [find?_congr fun x hx => by rw [hother x hx]]
    exact Option.not_isSome_iff_eq_none.mp hsearch
  obtain ⟨s', hs', hhashlin, hkeys, hvalues⟩ : ∃ s', s.put junk alloc key value = some s' ∧
      s'.hashlin = hashlin ∧ s'.key = Function.update s.key kv (strdup alloc.key key) ∧
      s'.value = Function.update s.value kv (strdup alloc.value value) :=
    ⟨_, (h.put_eq_insertNew junk alloc hkey hsearch value).trans hinsert, rfl, rfl, rfl⟩
  -- a search passes the older nodes and comes to the new one
  have holder : (nodes.map (entryOf s'.key)).findM?
      (Entry.isMatch (s'.compare key) (stringHash 0 (cString key))) = some none := by
    rw [findM?_compare _ (fun x hx => by rw [hkeys, hother x hx]; exact h.keys x hx) rfl, hkeys,
      hnone, Option.map_none]
  have hfound : s'.hashlin.searchWith (s'.compare key) (stringHash 0 (cString key)) =
      (strdup alloc.key key).map fun _ => some kv := by
    rw [← hkeys] at hrefines
    rw [hhashlin, hrefines.searchWith, findM?_append, holder]
    simp only [Option.bind_some, Option.elim_none, List.findM?, Entry.isMatch, Store.compare, hkeys,
      Function.update_self, if_true]
    cases alloc.key <;> simp [strdup]
  have hget : s'.get key = (strdup alloc.key key).map fun _ => strdup alloc.value value := by
    simp only [Store.get, strhashU32_eq, if_pos hkey, Option.bind_eq_bind, Option.bind_some, hfound]
    cases alloc.key <;> simp [strdup, hvalues]
  refine ⟨s', hs', fun hfalse => ?_, fun htrue hfalse => ?_⟩
  · rw [hget, hfalse]
    rfl
  · rw [hget, htrue, hfalse]
    rfl

omit [DecidableEq A] in
/-- `tommy_get` on the store is `tommy_get` on the list. -/
theorem StoreRel.get (h : StoreRel s nodes t) (hkey : HoldsString key) :
    s.get key = some (t.get (cString key)) := by
  simp only [Store.get, strhashU32_eq, if_pos hkey, h.search, Option.bind_eq_bind,
    Option.bind_some]
  rw [TommyHashlin.get, h.search_items]
  cases hfind : nodes.find? fun kv => s.key kv = some (cString key) with
  | none => rfl
  | some kv =>
    obtain ⟨v, hv⟩ := Option.isSome_iff_exists.mp (h.values kv (List.mem_of_find?_eq_some hfind))
    simp [kvOf, hv]

/-- Every operation that is allowed does what it does to the list and returns the same. It is the
step of the simulation. -/
theorem StoreOp.run_simulates {op : StoreOp A} {st' : List A × TommyHashlin} {r : Option Bytes}
    (h : StoreRel s nodes t) (hop : op.apply (nodes, t) = some (st', r)) :
    ∃ s', op.run junk s = some (s', r) ∧ StoreRel s' st'.1 st'.2 := by
  cases op with
  | putInit alloc key value =>
    rw [apply] at hop
    split at hop
    · next hallowed =>
      cases hop
      obtain ⟨s', hs', hrel⟩ := h.putInit junk hallowed.1 hallowed.2 value
      exact ⟨s', by simp [run, hs'], hrel⟩
    · cases hop
  | put alloc key value =>
    rw [apply] at hop
    split at hop
    · next hallowed =>
      split at hop
      · next hsearch =>
        cases hop
        obtain ⟨s', hs', hrel⟩ := h.put_of_isSome junk hallowed.2.2.1 hallowed.1 hsearch value
        exact ⟨s', by simp [run, hs'], hrel⟩
      · next hsearch =>
        cases hop
        obtain ⟨s', hs', hrel⟩ := h.put_of_isNone junk hallowed.1 hallowed.2 hsearch value
        exact ⟨s', by simp [run, hs'], hrel⟩
    · cases hop
  | get key =>
    rw [apply] at hop
    split at hop
    · next hkey =>
      cases hop
      exact ⟨s, by simp [run, h.get hkey], h⟩
    · cases hop

section
variable (bucket : Vector (Option SlotPtr) hashlinBitMax) (links : Links A) (data : A → A)
  (hash : A → BitVec 32) (key value : A → Option Bytes)

/-- The store after `tommy_hashlin_init`, whatever the strings in the memory are that it does not
use yet. -/
def initStore : Store A := ⟨Hashlin.init bucket links data hash, key, value⟩

omit [DecidableEq A] in
/-- It holds the empty list. -/
theorem storeRel_init : StoreRel (initStore bucket links data hash key value) [] [] :=
  ⟨refines_init bucket links data hash, nofun, nofun, rfl⟩

/-- `array[i] = c`, where the bytes `behind` follow the array: the bytes from the array on, and how
much of the array is touched. There is nothing where the stack ends before `i`. -/
def storeByte (array behind : Bytes) (i : Nat) (c : BitVec 8) : Option (Bytes × Access) :=
  if i < (array ++ behind).length then some ((array ++ behind).set i c, ⟨array.length, i + 1⟩)
  else none

/-- `valueStr` of the start-up loop: one more character is touched than the array has, for its
terminator. -/
def initialAccess (small : Bool) : Access :=
  let size := if small then smallValue else largeValue
  ⟨size, size + 1⟩

/-- So the array is overrun, whatever its size. -/
theorem not_inBounds_initialAccess (small : Bool) : ¬ (initialAccess small).InBounds :=
  Nat.not_succ_le_self _

/-- The value of an item is as long as the array. -/
theorem length_initialValue (small : Bool) :
    (initialValue small).length = if small then smallValue else largeValue :=
  List.length_replicate

/-- The terminator of a value goes to the first byte behind `valueStr`, and the string from
`valueStr` on is the value. -/
theorem storeByte_initialValue (small : Bool) {behind : Bytes} (hbehind : behind ≠ []) :
    ∃ bytes, storeByte (initialValue small) behind (initialValue small).length 0 =
        some (bytes, initialAccess small) ∧ cString bytes = initialValue small := by
  cases behind with
  | nil => exact absurd rfl hbehind
  | cons b behind =>
    refine ⟨initialValue small ++ 0 :: behind, ?_, ?_⟩
    · rw [storeByte, if_pos (by simp), initialAccess, ← length_initialValue]
      simp
    · have hchars : 0 ∉ initialValue small := fun hmem =>
        absurd (List.eq_of_mem_replicate hmem) (by decide)
      rw [cString, List.takeWhile_append_of_pos fun c hc =>
        decide_eq_true (ne_of_mem_of_not_mem hc hchars)]
      simp

/-- A worker in its start-up loop: its store and how much of its arrays has been touched. -/
structure StartUpState (A : Type) where
  store : Store A
  /-- The arrays `valueStr`, as far as they were touched, oldest first. -/
  accesses : List Access

variable (alloc : Nat → Alloc A) (small : Nat → Bool) (numWorkers : Nat) (ipaddr : BitVec 32)
  (partitionId : Nat) (keyStr : KeyBuffer) (behind : Nat → Bytes)

/-- The turn of the start-up loop for the item `i`. `valueStr` is an array of as many characters as
the value has, all of them set by `memset`; its terminator is written to the index behind the last
one, into the bytes `behind i` of the stack. That no other variable is there is an assumption: the
model gives the bytes to none. -/
def startUpTurn (s : StartUpState A) (i : Nat) : Option (StartUpState A) :=
  let keyStr := tostringKeyBuffer (BitVec.ofNat 64 i) keyStr
  if inPartition numWorkers ipaddr partitionId (cString keyStr.toList) then do
    let valueStr := initialValue (small i)
    let (bytes, access) ← storeByte valueStr (behind i) valueStr.length 0
    let store ← s.store.putInit junk (alloc i) keyStr.toList bytes
    return ⟨store, s.accesses ++ [access]⟩
  else some s

/-- The buffer of `tostring_key` has the terminator of its string, and enough bytes behind it for
the hash. -/
theorem holdsString_tostringKeyBuffer (number : BitVec 64) :
    HoldsString (tostringKeyBuffer number keyStr).toList := by
  rw [HoldsString, cString_tostringKeyBuffer, toList_tostringKeyBuffer, List.length_append,
    length_tostringKey]
  exact ⟨by simp, by decide⟩

/-- The test of the start-up loop for an item: whether the item is in the partition of the worker.
-/
def startsWith (i : Nat) : Bool :=
  inPartition numWorkers ipaddr partitionId (tostringKey (BitVec.ofNat 64 i))

/-- A turn of the start-up loop makes the list of keys and values that `startUpStep` makes, and
writes past `valueStr` for an item of the partition. -/
theorem startUpTurn_rel {s : StartUpState A} (h : StoreRel s.store nodes t) {i : Nat}
    (hfresh : Fresh nodes (alloc i)) (hbehind : behind i ≠ []) :
    ∃ s' nodes', startUpTurn junk alloc small numWorkers ipaddr partitionId keyStr behind s i =
        some s' ∧
      StoreRel s'.store nodes' (startUpStep (fun i => (alloc i).kv.isSome) small numWorkers ipaddr
        partitionId t i) ∧
      nodes' ⊆ nodes ++ (alloc i).kv.toList ∧ nodes'.length ≤ nodes.length + 1 ∧
      s'.accesses = s.accesses ++ ([i].filter (startsWith numWorkers ipaddr partitionId)).map
        fun i => initialAccess (small i) := by
  have hstr := cString_tostringKeyBuffer (BitVec.ofNat 64 i) keyStr
  rw [startUpTurn, startUpStep, hstr, List.filter_singleton, startsWith]
  split
  · next hpart =>
    obtain ⟨bytes, hbytes, hvalue⟩ := storeByte_initialValue (small i) hbehind
    obtain ⟨s', hs', hrel⟩ := h.putInit junk
      (holdsString_tostringKeyBuffer keyStr (BitVec.ofNat 64 i)) hfresh bytes
    rw [hstr, hvalue] at hrel
    refine ⟨⟨s', s.accesses ++ [initialAccess (small i)]⟩, _, ?_, hrel, fun _ h => h, ?_, ?_⟩
    · simp only [hbytes, hs', Option.bind_eq_bind, Option.bind_some]
      rfl
    · rw [List.length_append]
      exact Nat.add_le_add_left (by cases (alloc i).kv <;> simp) _
    · rw [hpart]
      rfl
  · next hpart =>
    refine ⟨s, nodes, rfl, h, List.subset_append_left _ _, Nat.le_succ _, ?_⟩
    rw [Bool.eq_false_iff.mpr hpart]
    exact (List.append_nil _).symm

/-- The start-up loop makes the list of the partition's items, and writes past `valueStr` once for
each of these. The induction is on the number of turns. -/
theorem startUpTurns_rel (hinj : ∀ i j kv, (alloc i).kv = some kv → (alloc j).kv = some kv → i = j)
    (hstrings : ∀ i, (alloc i).Strings) (hbehind : ∀ i, behind i ≠ []) {n : Nat} (hn : n < 2 ^ 29) :
    ∃ s nodes, (List.range n).foldlM
        (startUpTurn junk alloc small numWorkers ipaddr partitionId keyStr behind)
        ⟨initStore bucket links data hash key value, []⟩ = some s ∧
      StoreRel s.store nodes ((List.range n).foldl
        (startUpStep (fun i => (alloc i).kv.isSome) small numWorkers ipaddr partitionId) []) ∧
      (∀ kv ∈ nodes, ∃ i < n, (alloc i).kv = some kv) ∧ nodes.length ≤ n ∧
      s.accesses = ((List.range n).filter (startsWith numWorkers ipaddr partitionId)).map
        fun i => initialAccess (small i) := by
  induction n with
  | zero =>
    exact ⟨_, [], rfl, storeRel_init bucket links data hash key value, by simp, le_rfl, rfl⟩
  | succ n ih =>
    obtain ⟨s, nodes, hs, hrel, hmem, hlen, haccesses⟩ := ih (by omega)
    have hfresh : Fresh nodes (alloc n) := by
      refine ⟨fun kv hkv hkv' => ?_, hstrings n, by omega⟩
      obtain ⟨i, hi, halloc⟩ := hmem kv hkv'
      have heq := hinj i n kv halloc hkv
      omega
    obtain ⟨s', nodes', hs', hrel', hsub, hlen', haccesses'⟩ :=
      startUpTurn_rel junk alloc small numWorkers ipaddr partitionId keyStr behind hrel hfresh
        (hbehind n)
    refine ⟨s', nodes', ?_, ?_, fun kv hkv => ?_, by omega, ?_⟩
    · rw [List.range_succ, List.foldlM_append, hs]
      simp [hs']
    · rw [List.range_succ, List.foldl_concat]
      exact hrel'
    · rcases List.mem_append.mp (hsub hkv) with hkv | hkv
      · obtain ⟨i, hi, halloc⟩ := hmem kv hkv
        exact ⟨i, by omega, halloc⟩
      · exact ⟨n, Nat.lt_succ_self n, Option.mem_toList.mp hkv⟩
    · rw [haccesses', haccesses, List.range_succ, List.filter_append, List.map_append]

/-- The start-up loop touches one byte past `valueStr` for every item of the worker's partition.
Where that byte is on the stack and belongs to no other variable, and `strdup` and the segments of
the table have memory, the worker starts with a hash table in which it finds every item of its
partition that there was a `struct kv_hdr` for. -/
theorem startUp_found (hinj : ∀ i j kv, (alloc i).kv = some kv → (alloc j).kv = some kv → i = j)
    (hstrings : ∀ i, (alloc i).Strings) (hbehind : ∀ i, behind i ≠ []) :
    ∃ s, (List.range datasetSize).foldlM
        (startUpTurn junk alloc small numWorkers ipaddr partitionId keyStr behind)
        ⟨initStore bucket links data hash key value, []⟩ = some s ∧
      s.accesses = ((List.range datasetSize).filter
        (startsWith numWorkers ipaddr partitionId)).map (fun i => initialAccess (small i)) ∧
      (∀ a ∈ s.accesses, ¬ a.InBounds) ∧
      ∀ i < datasetSize, (alloc i).kv.isSome → startsWith numWorkers ipaddr partitionId i = true →
        s.store.get (tostringKeyBuffer (BitVec.ofNat 64 i) keyStr).toList =
          some (some (initialValue (small i))) := by
  have hsize : datasetSize < 2 ^ 29 := by decide
  obtain ⟨s, nodes, hs, hrel, -, -, haccesses⟩ := startUpTurns_rel junk bucket links data hash key
    value alloc small numWorkers ipaddr partitionId keyStr behind hinj hstrings hbehind hsize
  refine ⟨s, hs, haccesses, fun a ha => ?_, fun i hi halloc hpart => ?_⟩
  · rw [haccesses] at ha
    obtain ⟨i, -, rfl⟩ := List.mem_map.mp ha
    exact not_inBounds_initialAccess (small i)
  have hget := get_startUp (fun i => (alloc i).kv.isSome) small numWorkers ipaddr partitionId hi
    halloc hpart
  rw [startUp] at hget
  rw [hrel.get (holdsString_tostringKeyBuffer keyStr _), cString_tostringKeyBuffer, hget]

/-- The second of two workers of the server 10.0.1.107 has no memory for the item 7. It writes past
both kinds of arrays, and finds the items 5 and 8, a small and a large one. -/
theorem startUp_found_second :
    ∃ s, (List.range datasetSize).foldlM (startUpTurn (fun _ _ => none)
          (fun i => ⟨if i = 7 then none else some i, true, true⟩) (fun i => i % 2 = 1) 2
          0x0A00016B 1 (Vector.replicate 16 0) fun _ => [1, 2])
        ⟨initStore (Vector.replicate 32 none) ⟨fun _ => none, fun _ => none⟩ id (fun _ => 0)
          (fun _ => none) fun _ => none, []⟩ = some s ∧
      ⟨64, 65⟩ ∈ s.accesses ∧ ⟨1024, 1025⟩ ∈ s.accesses ∧
      s.store.get (tostringKeyBuffer 5 (Vector.replicate 16 0)).toList =
        some (some (List.replicate 64 byteA)) ∧
      s.store.get (tostringKeyBuffer 8 (Vector.replicate 16 0)).toList =
        some (some (List.replicate 1024 byteA)) := by
  have hinj : ∀ i j kv : Nat, (if i = 7 then none else some i) = some kv →
      (if j = 7 then none else some j) = some kv → i = j := by
    intro i j kv hi hj
    split at hi <;> split at hj <;> simp_all
  have hsize : 8 < datasetSize := by decide
  have hparts : [5, 8].all (startsWith 2 0x0A00016B 1) = true := by decide +kernel
  rw [List.all_eq_true] at hparts
  obtain ⟨s, hs, haccesses, -, hget⟩ := startUp_found (fun _ _ => none) (Vector.replicate 32 none)
    ⟨fun _ => none, fun _ => none⟩ id (fun _ => 0) (fun _ => none) (fun _ => none)
    (fun i => ⟨if i = 7 then none else some i, true, true⟩) (fun i => i % 2 = 1) 2 0x0A00016B 1
    (Vector.replicate 16 0) (fun _ => [1, 2]) hinj (fun _ => ⟨rfl, rfl⟩) fun _ => by simp
  have hmem : ∀ i ∈ [5, 8], initialAccess (i % 2 = 1) ∈ s.accesses := fun i hi => by
    rw [haccesses]
    exact List.mem_map.mpr
      ⟨i, List.mem_filter.mpr ⟨List.mem_range.mpr (by grind), hparts i hi⟩, rfl⟩
  refine ⟨s, hs, hmem 5 (by simp), hmem 8 (by simp), ?_, ?_⟩
  · exact hget 5 (by omega) rfl (hparts 5 (by simp))
  · exact hget 8 hsize rfl (hparts 8 (by simp))

end

end OrbitCache.Tommy
