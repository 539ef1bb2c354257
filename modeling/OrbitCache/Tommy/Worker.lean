import OrbitCache.Host.WriteRead
import OrbitCache.Tommy.Store

/-!
# A worker on its hash table

`worker_t` with the table that `header.h` gives it: the start-up loop, and then a datagram after
another, each with at most one call of `tommy_get` or `tommy_put`. `worker_refines`: a worker that
does not run out of memory, and whose start-up loop hits no variable with the byte that it writes
past `valueStr`, answers every run of well-formed datagrams as the worker does whose table is a
function from keys to values, and dies where that one does.
-/

namespace OrbitCache.Tommy

variable {A : Type}

/-! ## The calls -/

/-- The bytes from the key on that a branch passes to the hash table: `org_key` in the buffer, or
`keyStr` after the `strncpy`. -/
def keyArray (p : Protocol) (buffer : Bytes) (stack : Stack) : Bytes :=
  match p with
  | .nocache | .netcache => buffer.drop (keyOffset p) ++ stack.recvBuffer
  | .orbitcache => (keyField (orgKey .orbitcache buffer stack)).toList ++ stack.keyStr

/-- The call that a branch makes for a datagram of `n` bytes, and what the allocator gives in it. -/
def tableCall (alloc : Alloc A) (p : Protocol) (buffer : Bytes) (n : Nat) (stack : Stack) :
    Option (StoreOp A) :=
  let op := opField buffer
  let key := keyArray p buffer stack
  let put := StoreOp.put alloc key
    (List.replicate (receivedSize p n).toNat byteA ++ stack.valueStr)
  match p with
  | .nocache => if op = opRead then some (.get key) else if op = opWrite then some put else none
  | .netcache =>
    if op = opRead then some (.get key)
    else if op = opWrite then some put
    else if op = opFetch then some put
    else none
  | .orbitcache =>
    if op = opRead ∨ op = opCrctn then some (.get key)
    else if op = opFetch then some (.get key)
    else if op = opWrite then some put
    else none

/-- The call of a branch on the store, if it makes one. -/
def Store.call [DecidableEq A] (junk : Nat → Nat → Option A) (s : Store A) :
    Option (StoreOp A) → Option (Store A × Option Bytes)
  | some op => op.run junk s
  | none => some (s, none)

/-- A worker on its hash table, with the buffer that datagrams are received into. -/
structure StoreServer (A : Type) where
  store : Store A
  recvBuffer : Bytes

/-- A datagram is received and handled. A branch asks the table for one key; so it does what it does
on a table with the same value for every key. -/
def StoreServer.handleDatagram [DecidableEq A] (junk : Nat → Nat → Option A) (alloc : Alloc A)
    (p : Protocol) (s : StoreServer A) (datagram : Bytes) (stack : Stack) :
    Option (StoreServer A × List (SizeT × Bytes)) := do
  let buffer := datagram ++ s.recvBuffer.drop datagram.length
  let (store, value) ← s.store.call junk (tableCall alloc p buffer datagram.length stack)
  let handled := handleBuffer p ⟨fun _ => value, buffer⟩ datagram.length stack
  let after ← handled.after
  return (⟨store, after.recvBuffer⟩, handled.sent)

/-! ## The calls on a function -/

/-- What a call does to a function from keys to values, and what it returns: the table without the
memory behind it. -/
def callOn (f : Bytes → Option Bytes) : Option (StoreOp A) → (Bytes → Option Bytes) × Option Bytes
  | some (.get key) => (f, f (cString key))
  | some (.put _ key value) => (tommyPut f (cString key) (cString value), none)
  | some (.putInit _ _ _) | none => (f, none)

/-- A string goes on where its first part has no terminator. -/
theorem cString_append_of_notMem {key : Bytes} (h : 0 ∉ key) (rest : Bytes) :
    cString (key ++ rest) = key ++ cString rest :=
  List.takeWhile_append_of_pos fun _ hb => decide_eq_true fun h0 => h (h0 ▸ hb)

/-- The string in the passed bytes is the key that the branch looks up. -/
theorem cString_keyArray (p : Protocol) (buffer : Bytes) (stack : Stack) :
    cString (keyArray p buffer stack) = tableKey p buffer stack := by
  cases p with
  | nocache | netcache => rfl
  | orbitcache =>
    have hkey := zero_notMem_cString (buffer.drop (keyOffset .orbitcache) ++ stack.recvBuffer)
    rw [keyArray, tableKey, keyStr]
    change 0 ∉ orgKey .orbitcache buffer stack at hkey
    split
    · next hlt => rw [cString_keyField_append hlt, cString_eq_self_iff.mpr hkey]
    · next hlt =>
      have htake : (keyField (orgKey .orbitcache buffer stack)).toList =
          (orgKey .orbitcache buffer stack).take keySize := by
        have hlen : ((orgKey .orbitcache buffer stack).take keySize).length = keySize := by
          rw [List.length_take]
          omega
        have hfield : keyField (orgKey .orbitcache buffer stack) =
            keyField ((orgKey .orbitcache buffer stack).take keySize) := by
          apply Vector.ext
          intro i hi
          simp [keyField]
        rw [hfield, toList_keyField hlen.le, hlen, Nat.sub_self, List.replicate_zero,
          List.append_nil]
      rw [htake, cString_append_of_notMem fun hmem => hkey (List.mem_of_mem_take hmem)]

section
variable {p : Protocol} {s : ServerState} {n : Nat} {stack : Stack}

/-- A branch is its call and what it does with the value: it depends on the table only through what
the call returns. -/
theorem handleBuffer_call (alloc : Alloc A) :
    (handleBuffer p s n stack).sent = (handleBuffer p
      ⟨fun _ => (callOn s.hashlin (tableCall alloc p s.recvBuffer n stack)).2, s.recvBuffer⟩
      n stack).sent ∧
    (handleBuffer p s n stack).after = (handleBuffer p
      ⟨fun _ => (callOn s.hashlin (tableCall alloc p s.recvBuffer n stack)).2, s.recvBuffer⟩
      n stack).after.map fun after =>
        ⟨(callOn s.hashlin (tableCall alloc p s.recvBuffer n stack)).1, after.recvBuffer⟩ := by
  have hkey := cString_keyArray p s.recvBuffer stack
  cases p with
  | nocache =>
    simp only [handleBuffer, tableCall]
    split
    · simp only [callOn, handleRead, hkey]
      split <;> exact ⟨rfl, rfl⟩
    · split
      · simp only [callOn, handleWrite, hkey]
        exact ⟨trivial, rfl⟩
      · exact ⟨rfl, rfl⟩
  | netcache =>
    simp only [handleBuffer, tableCall]
    split
    · simp only [callOn, handleRead, hkey]
      split <;> exact ⟨rfl, rfl⟩
    · split
      · simp only [callOn, handleWrite, hkey]
        exact ⟨trivial, rfl⟩
      · split
        · simp only [callOn, handleFetchNetcache, hkey]
          exact ⟨trivial, rfl⟩
        · exact ⟨rfl, rfl⟩
  | orbitcache =>
    simp only [handleBuffer, tableCall]
    split
    · simp only [callOn, handleReadOrbitcache, hkey]
      split <;> exact ⟨rfl, rfl⟩
    · split
      · simp only [callOn, handleFetchOrbitcache, hkey]
        split <;> exact ⟨rfl, rfl⟩
      · split
        · simp only [callOn, handleWrite, hkey]
          exact ⟨trivial, rfl⟩
        · exact ⟨rfl, rfl⟩

end

/-! ## One datagram -/

/-- A field of `KEY_SIZE` bytes that a string ends in holds it, whatever is behind. -/
theorem holdsString_append {field : Bytes} (hlen : field.length = keySize)
    (hterm : (cString field).length < keySize) (rest : Bytes) :
    HoldsString (field ++ rest) ∧ cString (field ++ rest) = cString field := by
  have hmem : 0 ∈ field := by
    by_contra hmem
    rw [cString_eq_self_iff.mpr hmem, hlen] at hterm
    exact Nat.lt_irrefl _ hterm
  have hstr : cString (field ++ rest) = cString field := cString_append_of_lt (hlen ▸ hterm) rest
  refine ⟨⟨List.mem_append_left _ hmem, ?_⟩, hstr⟩
  rw [hstr, List.length_append, hlen]
  simp only [keySize] at hterm ⊢
  omega

/-- The key of a well-formed datagram has its terminator within the field, so the hash reads no more
than the buffer. -/
theorem holdsString_keyArray {p : Protocol} {datagram : Bytes} (h : WellFormed p datagram)
    (l : Bytes) (stack : Stack) : HoldsString (keyArray p (datagram ++ l) stack) := by
  have hheader := h.header
  rw [headerSize_eq] at hheader
  have hfield : ((datagram.drop (keyOffset p)).take keySize).length = keySize := by
    rw [List.length_take, List.length_drop]
    omega
  have horg : HoldsString ((datagram ++ l).drop (keyOffset p) ++ stack.recvBuffer) := by
    rw [List.drop_append_of_le_length (by omega),
      ← List.take_append_drop keySize (datagram.drop (keyOffset p)), List.append_assoc,
      List.append_assoc]
    exact (holdsString_append hfield h.terminated _).1
  cases p with
  | nocache | netcache => exact horg
  | orbitcache =>
    have hkey := h.orgKey l stack
    have hlt := h.terminated
    rw [keyArray, hkey]
    refine (holdsString_append (keyField _).length_toList ?_ _).1
    have hstr := cString_keyField_append hlt []
    rw [List.append_nil] at hstr
    rw [hstr]
    exact (List.takeWhile_prefix _).length_le.trans_lt hlt

variable (alloc : Nat → Alloc A)

/-- The store has the keys and values of a function, in nodes that the allocator gave in its first
`i` calls. So the node of the next call is a new one. -/
def StoreHolds (i : Nat) (s : Store A) (f : Bytes → Option Bytes) : Prop :=
  ∃ nodes table, StoreRel s nodes table ∧ f = table.get ∧
    (∀ kv ∈ nodes, ∃ j < i, (alloc j).kv = some kv) ∧ nodes.length ≤ i

variable {alloc} {i : Nat} {s : Store A} {f : Bytes → Option Bytes}

/-- A call that inserts nothing. -/
theorem StoreHolds.succ (h : StoreHolds alloc i s f) : StoreHolds alloc (i + 1) s f := by
  obtain ⟨nodes, table, hrel, hget, hmem, hlen⟩ := h
  refine ⟨nodes, table, hrel, hget, fun kv hkv => ?_, Nat.le_succ_of_le hlen⟩
  obtain ⟨j, hj, hkv⟩ := hmem kv hkv
  exact ⟨j, Nat.lt_succ_of_lt hj, hkv⟩

/-- `tommy_get` returns the value of the function. -/
theorem StoreHolds.get (h : StoreHolds alloc i s f) {key : Bytes} (hkey : HoldsString key) :
    s.get key = some (f (cString key)) := by
  obtain ⟨nodes, table, hrel, hget, -⟩ := h
  rw [hrel.get hkey, hget]

variable [DecidableEq A] (junk : Nat → Nat → Option A)

/-- `tommy_put` changes the function for its key. -/
theorem StoreHolds.put (h : StoreHolds alloc i s f)
    (hinj : ∀ i j kv, (alloc i).kv = some kv → (alloc j).kv = some kv → i = j)
    (halloc : (alloc i).kv.isSome) (hstrings : (alloc i).Strings) (hi : i + 1 < 2 ^ 29)
    {key : Bytes} (hkey : HoldsString key) (value : Bytes) :
    ∃ s', s.put junk (alloc i) key value = some s' ∧
      StoreHolds alloc (i + 1) s' (tommyPut f (cString key) (cString value)) := by
  obtain ⟨nodes, table, hrel, hget, hmem, hlen⟩ := id h
  have hget' : tommyPut f (cString key) (cString value) =
      (table.put (cString key) (cString value)).get := by
    rw [TommyHashlin.get_put, hget, tommyPut]
  by_cases hsearch : (table.search (cString key)).isSome
  · obtain ⟨s', hput, hstore⟩ := hrel.put_of_isSome junk hstrings hkey hsearch value
    refine ⟨s', hput, nodes, _, hstore, hget', fun kv hkv => ?_, Nat.le_succ_of_le hlen⟩
    obtain ⟨j, hj, hkv⟩ := hmem kv hkv
    exact ⟨j, Nat.lt_succ_of_lt hj, hkv⟩
  · have hfresh : Fresh nodes (alloc i) := by
      refine ⟨fun kv hkv hnode => ?_, hstrings, by omega⟩
      obtain ⟨j, hj, hkv'⟩ := hmem kv hnode
      exact Nat.lt_irrefl i (hinj j i kv hkv' hkv ▸ hj)
    obtain ⟨s', hput, hstore⟩ := hrel.put_of_isNone junk hkey hfresh hsearch value
    rw [if_pos halloc] at hstore
    refine ⟨s', hput, _, _, hstore, hget', fun kv hkv => ?_, ?_⟩
    · rcases List.mem_append.mp hkv with hkv | hkv
      · obtain ⟨j, hj, hkv⟩ := hmem kv hkv
        exact ⟨j, Nat.lt_succ_of_lt hj, hkv⟩
      · exact ⟨i, Nat.lt_succ_self i, Option.mem_toList.mp hkv⟩
    · obtain ⟨kv, hkv⟩ := Option.isSome_iff_exists.mp halloc
      rw [hkv, Option.toList_some, List.length_append, List.length_singleton]
      exact Nat.succ_le_succ hlen

/-- The call of a branch returns what it returns on the function, and changes the store as it
changes the function. -/
theorem StoreHolds.call (h : StoreHolds alloc i s f)
    (hinj : ∀ i j kv, (alloc i).kv = some kv → (alloc j).kv = some kv → i = j)
    (halloc : (alloc i).kv.isSome) (hstrings : (alloc i).Strings) (hi : i + 1 < 2 ^ 29)
    {p : Protocol} {buffer : Bytes} {stack : Stack}
    (hkey : HoldsString (keyArray p buffer stack)) (n : Nat) :
    ∃ s', s.call junk (tableCall (alloc i) p buffer n stack) =
        some (s', (callOn f (tableCall (alloc i) p buffer n stack)).2) ∧
      StoreHolds alloc (i + 1) s' (callOn f (tableCall (alloc i) p buffer n stack)).1 := by
  have hcall : tableCall (alloc i) p buffer n stack = none ∨
      tableCall (alloc i) p buffer n stack = some (.get (keyArray p buffer stack)) ∨
      ∃ value, tableCall (alloc i) p buffer n stack =
        some (.put (alloc i) (keyArray p buffer stack) value) := by
    unfold tableCall
    grind
  rcases hcall with hcall | hcall | ⟨value, hcall⟩
  · rw [hcall]
    exact ⟨s, rfl, h.succ⟩
  · rw [hcall]
    refine ⟨s, ?_, h.succ⟩
    simp [Store.call, StoreOp.run, h.get hkey, callOn]
  · obtain ⟨s', hput, hholds⟩ := h.put junk hinj halloc hstrings hi hkey value
    rw [hcall]
    refine ⟨s', ?_, hholds⟩
    simp [Store.call, StoreOp.run, hput, callOn]

/-- What the worker does with the datagram in whose call the allocator gives `alloc i`: both workers
die, or both send the same and go on. -/
theorem StoreHolds.handleDatagram {s : StoreServer A} {t : ServerState}
    (h : StoreHolds alloc i s.store t.hashlin) (hbuffer : s.recvBuffer = t.recvBuffer)
    (hinj : ∀ i j kv, (alloc i).kv = some kv → (alloc j).kv = some kv → i = j)
    (halloc : (alloc i).kv.isSome) (hstrings : (alloc i).Strings) (hi : i + 1 < 2 ^ 29)
    {p : Protocol} {datagram : Bytes} (hwf : WellFormed p datagram) (stack : Stack) :
    s.handleDatagram junk (alloc i) p datagram stack = none ∧
        (handleDatagram p t datagram stack).after = none ∨
      ∃ s' t', s.handleDatagram junk (alloc i) p datagram stack =
          some (s', (handleDatagram p t datagram stack).sent) ∧
        (handleDatagram p t datagram stack).after = some t' ∧
        StoreHolds alloc (i + 1) s'.store t'.hashlin ∧ s'.recvBuffer = t'.recvBuffer := by
  obtain ⟨store, hcall, hholds⟩ := h.call junk hinj halloc hstrings hi
    (holdsString_keyArray hwf (t.recvBuffer.drop datagram.length) stack) datagram.length
  obtain ⟨hsent, hafter⟩ :=
    @handleBuffer_call A p (t.recvfrom datagram) datagram.length stack (alloc i)
  rw [StoreServer.handleDatagram, OrbitCache.handleDatagram, hbuffer, hcall, hsent, hafter]
  simp only [ServerState.recvfrom, Option.bind_eq_bind, Option.bind_some]
  cases (handleBuffer p ⟨fun _ => (callOn t.hashlin (tableCall (alloc i) p
      (datagram ++ t.recvBuffer.drop datagram.length) datagram.length stack)).2,
      datagram ++ t.recvBuffer.drop datagram.length⟩ datagram.length stack).after with
  | none => exact .inl ⟨rfl, rfl⟩
  | some after => exact .inr ⟨_, _, rfl, rfl, hholds, rfl⟩

/-! ## Runs -/

/-- What a worker sends for a datagram, and the state after it; there is none where it dies. -/
def answer (p : Protocol) (e : Bytes × Stack) (s : ServerState) :
    Option (ServerState × List (SizeT × Bytes)) :=
  (handleDatagram p s e.1 e.2).after.map fun s' => (s', (handleDatagram p s e.1 e.2).sent)

/-- The same on the hash table, with the number of the call of the allocator, which tells what it
gives. -/
def StoreServer.answer (alloc : Nat → Alloc A) (p : Protocol) (e : (Bytes × Stack) × Nat)
    (s : StoreServer A) : Option (StoreServer A × List (SizeT × Bytes)) :=
  s.handleDatagram junk (alloc e.2) p e.1.1 e.1.2

/-- A run of datagrams, one after another, by induction on the run. -/
theorem StoreHolds.answers {s : StoreServer A} {t : ServerState} {p : Protocol}
    (h : StoreHolds alloc i s.store t.hashlin) (hbuffer : s.recvBuffer = t.recvBuffer)
    (hinj : ∀ i j kv, (alloc i).kv = some kv → (alloc j).kv = some kv → i = j)
    (halloc : ∀ j, (alloc (i + j)).kv.isSome) (hstrings : ∀ i, (alloc i).Strings)
    {l : List (Bytes × Stack)} (hi : i + l.length < 2 ^ 29) (hl : ∀ e ∈ l, WellFormed p e.1) :
    (outputs (StoreServer.answer junk alloc p) (l.zipIdx i) s).map Prod.snd =
      (outputs (answer p) l t).map Prod.snd := by
  induction l generalizing i s t with
  | nil => rfl
  | cons e l ih =>
    rw [List.length_cons] at hi
    obtain ⟨hwf, hl⟩ := List.forall_mem_cons.mp hl
    rw [List.zipIdx_cons, outputs, outputs, StoreServer.answer, answer]
    rcases h.handleDatagram junk hbuffer hinj (halloc 0) (hstrings i) (by omega) hwf e.2 with
      ⟨hnone, hnone'⟩ | ⟨s', t', hs', ht', hholds, hbuffer'⟩
    · simp [hnone, hnone']
    · have hrest := ih hholds hbuffer' (fun j => by rw [Nat.add_assoc]; exact halloc (1 + j))
        (by omega) hl
      simp only [hs', ht', Option.map_some, Option.bind_eq_bind, Option.bind_some]
      cases hstore : outputs (StoreServer.answer junk alloc p) (l.zipIdx (i + 1)) s' with
      | none =>
        rw [hstore, Option.map_none, eq_comm, Option.map_eq_none_iff] at hrest
        rw [hrest]
        rfl
      | some u =>
        rw [hstore, Option.map_some, eq_comm, Option.map_eq_some_iff] at hrest
        obtain ⟨v, hv, hsnd⟩ := hrest
        rw [hv]
        exact congrArg (fun rs => some (_ :: rs)) hsnd.symm

section
variable (bucket : Vector (Option SlotPtr) hashlinBitMax) (links : Links A) (data : A → A)
  (hash : A → BitVec 32) (key value : A → Option Bytes) (small : Nat → Bool) (numWorkers : Nat)
  (ipaddr : BitVec 32) (partitionId : Nat) (keyStr : KeyBuffer) (behind : Nat → Bytes)

/-- From start-up on a worker on its hash table answers every run of well-formed datagrams as the
worker does whose table is a function, and it reads a null pointer where that one does. At start-up
there may be no memory for some of the items, later there is some for every new key; `strdup` and
the segments of the table always have theirs. -/
theorem worker_refines (hinj : ∀ i j kv, (alloc i).kv = some kv → (alloc j).kv = some kv → i = j)
    (halloc : ∀ j, (alloc (datasetSize + j)).kv.isSome) (hstrings : ∀ i, (alloc i).Strings)
    (hbehind : ∀ i, behind i ≠ []) {p : Protocol} {l : List (Bytes × Stack)}
    (hlen : datasetSize + l.length < 2 ^ 29) (hl : ∀ e ∈ l, WellFormed p e.1)
    (recvBuffer : Bytes) :
    ∃ s, (List.range datasetSize).foldlM
        (startUpTurn junk alloc small numWorkers ipaddr partitionId keyStr behind)
        ⟨initStore bucket links data hash key value, []⟩ = some s ∧
      (outputs (StoreServer.answer junk alloc p) (l.zipIdx datasetSize)
          ⟨s.store, recvBuffer⟩).map Prod.snd =
        (outputs (answer p) l ⟨(startUp (fun i => (alloc i).kv.isSome) small numWorkers ipaddr
          partitionId).get, recvBuffer⟩).map Prod.snd := by
  have hsize : datasetSize < 2 ^ 29 := by decide
  obtain ⟨s, nodes, hs, hrel, hmem, hlen', -⟩ := startUpTurns_rel junk bucket links data hash
    key value alloc small numWorkers ipaddr partitionId keyStr behind hinj hstrings hbehind hsize
  have hholds : StoreHolds alloc datasetSize s.store
      (startUp (fun i => (alloc i).kv.isSome) small numWorkers ipaddr partitionId).get :=
    ⟨nodes, _, hrel, rfl, hmem, hlen'⟩
  generalize (startUp (fun i => (alloc i).kv.isSome) small numWorkers ipaddr partitionId).get = f
    at hholds ⊢
  generalize datasetSize = n at hs hholds halloc hlen ⊢
  have hanswers := StoreHolds.answers (s := ⟨s.store, recvBuffer⟩) (t := ⟨f, recvBuffer⟩) junk
    hholds rfl hinj halloc hstrings hlen hl
  exact ⟨s, hs, hanswers⟩

/-- What the allocator gives to a worker that has no memory for the item 3. -/
def allocButThree (i : Nat) : Alloc Nat := ⟨if i = 3 then none else some i, true, true⟩

/-- A READ of the item 2, a WRITE of two bytes, and a READ of these. -/
def writeBetweenReads : List (Bytes × Stack) :=
  [(itemBytes opRead 0 0 2 [], ⟨[], [0], [0]⟩), (itemBytes opWrite 0 0 2 [7, 7], ⟨[], [0], [0]⟩),
    (itemBytes opRead 0 0 2 [], ⟨[], [0], [0]⟩)]

/-- The worker of the server 10.0.1.108 starts with the item 2, and answers a READ of the item, a
WRITE and the READ after it. -/
theorem worker_refines_item :
    ∃ s, (List.range datasetSize).foldlM (startUpTurn (fun _ _ => none) allocButThree
          (fun _ => true) 1 0x0A00016C 0 (Vector.replicate 16 0) fun _ => [1])
        ⟨initStore (Vector.replicate 32 none) ⟨fun _ => none, fun _ => none⟩ id (fun _ => 0)
          (fun _ => none) fun _ => none, []⟩ = some s ∧
      (startUp (fun i => (allocButThree i).kv.isSome) (fun _ => true) 1 0x0A00016C 0).get
        (tostringKey 2) = some (initialValue true) ∧
      (outputs (StoreServer.answer (fun _ _ => none) allocButThree .orbitcache)
          (writeBetweenReads.zipIdx datasetSize) ⟨s.store, []⟩).map Prod.snd =
        (outputs (answer .orbitcache) writeBetweenReads
          ⟨(startUp (fun i => (allocButThree i).kv.isSome) (fun _ => true) 1 0x0A00016C 0).get,
            []⟩).map Prod.snd := by
  have hinj : ∀ i j kv, (allocButThree i).kv = some kv → (allocButThree j).kv = some kv →
      i = j := by
    intro i j kv hi hj
    simp only [allocButThree] at hi hj
    split at hi <;> split at hj <;> simp_all
  have halloc : ∀ j, (allocButThree (datasetSize + j)).kv.isSome := by
    intro j
    have hsize : 3 < datasetSize := by decide
    simp only [allocButThree]
    rw [if_neg (by omega)]
    rfl
  have hwf : ∀ e ∈ writeBetweenReads, WellFormed .orbitcache e.1 :=
    List.forall_mem_cons.mpr ⟨⟨by decide, by decide, by decide +kernel⟩,
      List.forall_mem_cons.mpr ⟨⟨by decide, by decide, by decide +kernel⟩,
        List.forall_mem_singleton.mpr ⟨by decide, by decide, by decide +kernel⟩⟩⟩
  obtain ⟨s, hs, hanswers⟩ := worker_refines (fun _ _ => none) (Vector.replicate 32 none)
    ⟨fun _ => none, fun _ => none⟩ id (fun _ => 0) (fun _ => none) (fun _ => none) (fun _ => true) 1
    0x0A00016C 0 (Vector.replicate 16 0) (fun _ => [1]) hinj halloc (fun _ => ⟨rfl, rfl⟩)
    (fun _ => List.cons_ne_nil _ _) (by decide) hwf []
  exact ⟨s, hs, get_startUp _ _ _ _ _ (by decide) rfl (by decide +kernel), hanswers⟩

end

end OrbitCache.Tommy
