import OrbitCache.Lib.Simulation
import OrbitCache.Tommy.Table

/-!
# Runs of the table

What the table is for: a collection of elements in the order of their insertion, in which the first
element with a hash can be found. `run_refines`: as long as its user inserts no node twice, removes
only nodes that are in the table and keeps to fewer than `2 ^ 29` of them, the table does what this
collection does and no access to memory goes wrong. The table does not look at what `malloc` returns
for a segment; that there is memory for every segment is assumed, what the memory holds is not.
-/

namespace OrbitCache.Tommy

variable {A D : Type}

/-- An element of the table: its node, its datum and its hash, as they were given to the insertion.
-/
structure Entry (A D : Type) where
  node : A
  data : D
  hash : BitVec 32
  deriving DecidableEq

/-- An operation that changes the table, with its arguments. The comparison of
`tommy_hashlin_remove` is a predicate on the data. -/
inductive TableOp (A D : Type)
  | insert (node : A) (data : D) (hash : BitVec 32)
  | removeExisting (node : A)
  | remove (cmp : D → Bool) (hash : BitVec 32)

variable [DecidableEq A]

/-- The operation on the table, with the data that it returns, as the code does it. -/
def TableOp.run (junk : Nat → Nat → Option A) (op : TableOp A D) (t : Hashlin A D) :
    Option (Hashlin A D × Option D) :=
  match op with
  | .insert node data hash => do return (← t.insert junk node data hash, none)
  | .removeExisting node => do
    let (t, data) ← t.removeExisting node
    return (t, some data)
  | .remove cmp hash => t.remove cmp hash

/-- The operation on the elements, where its user may call it: a node is inserted once, and a node
that is to be taken out is in the table. -/
def TableOp.apply (op : TableOp A D) (es : List (Entry A D)) :
    Option (List (Entry A D) × Option D) :=
  match op with
  | .insert node data hash =>
    if node ∉ es.map Entry.node ∧ es.length + 1 < 2 ^ 29 then
      some (es ++ [⟨node, data, hash⟩], none)
    else
      none
  | .removeExisting node =>
    match es.find? fun e => e.node = node with
    | some e => some (es.filter (·.node ≠ node), some e.data)
    | none => none
  | .remove cmp hash =>
    match es.find? fun e => e.hash = hash ∧ cmp e.data with
    | some e => some (es.filter (·.node ≠ e.node), some e.data)
    | none => some (es, none)

/-- The table holds these elements, in the order of their insertion, with their data and hashes. -/
structure Refines (t : Hashlin A D) (es : List (Entry A D)) : Prop where
  valid : t.Valid (es.map Entry.node)
  few : es.length < 2 ^ 29
  hash : ∀ e ∈ es, t.key e.node = e.hash
  data : ∀ e ∈ es, t.data e.node = e.data

variable {t : Hashlin A D} {es es' : List (Entry A D)} {r : Option D}

/-- What a search finds depends on the test for the elements only. -/
theorem find?_congr {α : Type} {l : List α} {p q : α → Bool} (h : ∀ a ∈ l, p a = q a) :
    l.find? p = l.find? q := by
  induction l with
  | nil => rfl
  | cons a l ih =>
    rw [List.find?_cons, List.find?_cons, h a List.mem_cons_self,
      ih fun b hb => h b (List.mem_cons_of_mem a hb)]

/-- A search of elements that are images is a search of what they are the images of. -/
theorem findM?_map {α β : Type} (f : α → β) (p : β → Option Bool) (l : List α) :
    (l.map f).findM? p = (l.findM? fun a => p (f a)).map (Option.map f) := by
  induction l with
  | nil => rfl
  | cons a l ih =>
    rw [List.map_cons, List.findM?, List.findM?]
    cases p (f a) with
    | none => rfl
    | some found =>
      cases found with
      | false => exact ih
      | true => rfl

/-- A search goes through the first list, then through the second one. -/
theorem findM?_append {α : Type} (p : α → Option Bool) (l l' : List α) :
    (l ++ l').findM? p =
      (l.findM? p).bind fun r => r.elim (l'.findM? p) fun a => some (some a) := by
  induction l with
  | nil => rfl
  | cons a l ih =>
    rw [List.cons_append, List.findM?, List.findM?]
    cases p a with
    | none => rfl
    | some found =>
      cases found with
      | false => exact ih
      | true => rfl

/-- What a search finds is an element of the list. -/
theorem mem_of_findM? {α : Type} {p : α → Option Bool} {a : α} {l : List α}
    (h : l.findM? p = some (some a)) : a ∈ l := by
  induction l with
  | nil => cases h
  | cons b l ih =>
    rw [List.findM?] at h
    cases hb : p b with
    | none =>
      rw [hb] at h
      cases h
    | some found =>
      rw [hb] at h
      cases found with
      | false => exact List.mem_cons_of_mem b (ih h)
      | true =>
        cases h
        exact List.mem_cons_self

/-- The same for a search whose test may fail. -/
theorem findM?_congr {α : Type} {l : List α} {p q : α → Option Bool} (h : ∀ a ∈ l, p a = q a) :
    l.findM? p = l.findM? q := by
  induction l with
  | nil => rfl
  | cons a l ih =>
    rw [List.findM?, List.findM?, h a List.mem_cons_self,
      ih fun b hb => h b (List.mem_cons_of_mem a hb)]

/-- The test of a search for an element, which compares the data only where the hashes are equal. -/
def Entry.isMatch (cmp : D → Option Bool) (hash : BitVec 32) (e : Entry A D) : Option Bool :=
  if e.hash = hash then cmp e.data else some false

omit [DecidableEq A] in
/-- A search whose comparison may read a null pointer finds the first element with the hash that the
comparison accepts, unless one before it has the null pointer. -/
theorem Refines.searchWith (h : Refines t es) (cmp : D → Option Bool) (hash : BitVec 32) :
    t.searchWith cmp hash = (es.findM? (Entry.isMatch cmp hash)).map (Option.map Entry.data) := by
  have hmatch : es.findM? (fun e => t.isMatch cmp hash e.node) =
      es.findM? (Entry.isMatch cmp hash) :=
    findM?_congr fun e he => by rw [Hashlin.isMatch, Entry.isMatch, h.hash e he, h.data e he]
  have hdata : ∀ x, es.findM? (Entry.isMatch cmp hash) = some (some x) → t.data x.node = x.data :=
    fun x hx => h.data x (mem_of_findM? hx)
  rw [Hashlin.searchWith_spec h.valid, findM?_map, hmatch, Option.map_map]
  rcases hfind : es.findM? (Entry.isMatch cmp hash) with - | - | x
  · rfl
  · rfl
  · simp [hdata x hfind]

omit [DecidableEq A] in
/-- A search for a node is a search for its element, which has the same datum and hash. -/
theorem Refines.find? (h : Refines t es) (cmp : D → Bool) (hash : BitVec 32) :
    ((es.map Entry.node).find? fun x => t.key x = hash ∧ cmp (t.data x)) =
      (es.find? fun e => e.hash = hash ∧ cmp e.data).map Entry.node := by
  rw [List.find?_map]
  congr 1
  refine find?_congr fun e he => ?_
  simp [h.hash e he, h.data e he]

omit [DecidableEq A] in
/-- A search finds the first element with the hash that the comparison accepts. -/
theorem Refines.search (h : Refines t es) (cmp : D → Bool) (hash : BitVec 32) :
    t.search cmp hash = some ((es.find? fun e => e.hash = hash ∧ cmp e.data).map Entry.data) := by
  rw [Hashlin.search_spec h.valid, h.find?, Option.map_map]
  cases hfind : es.find? fun e => e.hash = hash ∧ cmp e.data with
  | none => rfl
  | some e => simp [h.data e (List.mem_of_find?_eq_some hfind)]

/-! ## The first table -/

omit [DecidableEq A] in
/-- The table after `tommy_hashlin_init` has no elements. -/
theorem refines_init (bucket : Vector (Option SlotPtr) hashlinBitMax) (links : Links A)
    (data : A → D) (key : A → BitVec 32) :
    Refines (Hashlin.init bucket links data key) [] where
  valid := by
    have hs : (Hashlin.init bucket links data key).Sized hashlinBit hashlinBit :=
      ⟨le_rfl, by decide, rfl, rfl, rfl, rfl, rfl⟩
    refine ⟨⟨_, fun _ => [], Hashlin.layout_init, fun p hp => ?_, LinearHash.distributed_nil⟩,
      List.nodup_nil, .stable hashlinBit hs rfl rfl (Nat.zero_le _) (.inl rfl), rfl⟩
    rw [Hashlin.slotAt_init hp]
    exact Links.linked_nil.mpr rfl
  few := Nat.two_pow_pos 29
  hash e he := nomatch he
  data e he := nomatch he

/-! ## One operation -/

variable (junk : Nat → Nat → Option A)

omit [DecidableEq A] in
/-- The elements but for one node, after an operation that has taken it out. -/
theorem Refines.removed {t' : Hashlin A D} [DecidableEq A] (h : Refines t es) {x : A}
    (hvalid : t'.Valid ((es.map Entry.node).filter (· ≠ x))) (hdata : t'.data = t.data)
    (hkey : t'.key = t.key) : Refines t' (es.filter (·.node ≠ x)) := by
  have hsub : ∀ e ∈ es.filter (·.node ≠ x), e ∈ es := fun e he => (List.mem_filter.mp he).1
  refine ⟨?_, (List.length_filter_le _ _).trans_lt h.few, fun e he => ?_, fun e he => ?_⟩
  · rw [List.filter_map] at hvalid
    exact hvalid
  · rw [hkey, h.hash e (hsub e he)]
  · rw [hdata, h.data e (hsub e he)]

/-- A node that is inserted is the last element. -/
theorem Refines.insert (h : Refines t es) (node : A) (hnode : node ∉ es.map Entry.node)
    (hmax : es.length + 1 < 2 ^ 29) (data : D) (hash : BitVec 32) :
    ∃ t', t.insert junk node data hash = some t' ∧ Refines t' (es ++ [⟨node, data, hash⟩]) := by
  obtain ⟨t', hinsert, hvalid, hdata, hkey⟩ :=
    Hashlin.insert_spec junk h.valid hnode (by rwa [List.length_map]) data hash
  have hne : ∀ e ∈ es, e.node ≠ node := fun e he heq => hnode (heq ▸ List.mem_map_of_mem he)
  refine ⟨t', hinsert, ?_, ?_, fun e he => ?_, fun e he => ?_⟩
  · rw [List.map_append]
    exact hvalid
  · rw [List.length_append]
    exact hmax
  · rw [hkey]
    rcases List.mem_append.mp he with he | he
    · rw [Function.update_of_ne (hne e he), h.hash e he]
    · rw [List.mem_singleton.mp he, Function.update_self]
  · rw [hdata]
    rcases List.mem_append.mp he with he | he
    · rw [Function.update_of_ne (hne e he), h.data e he]
    · rw [List.mem_singleton.mp he, Function.update_self]

/-- Every operation that is allowed does what it does to the elements and returns the same. It is
the step of the simulation. -/
theorem TableOp.run_simulates {op : TableOp A D} (h : Refines t es)
    (hop : op.apply es = some (es', r)) :
    ∃ t', op.run junk t = some (t', r) ∧ Refines t' es' := by
  have hlen : (es.map Entry.node).length < 2 ^ 29 := by
    rw [List.length_map]
    exact h.few
  cases op with
  | insert node data hash =>
    rw [apply] at hop
    split at hop
    · next hfresh =>
      cases hop
      obtain ⟨t', hinsert, hrefines⟩ := h.insert junk node hfresh.1 hfresh.2 data hash
      exact ⟨t', by simp [run, hinsert], hrefines⟩
    · cases hop
  | removeExisting node =>
    rw [apply] at hop
    split at hop
    · next e he =>
      cases hop
      have hmem := List.mem_of_find?_eq_some he
      have hnode : e.node = node := by simpa using List.find?_some he
      have hmem' : node ∈ es.map Entry.node := List.mem_map.mpr ⟨e, hmem, hnode⟩
      obtain ⟨t', hremove, hvalid, hdata, hkey⟩ := Hashlin.removeExisting_spec h.valid hmem' hlen
      refine ⟨t', ?_, h.removed hvalid hdata hkey⟩
      have hdata' : t.data node = e.data := hnode ▸ h.data e hmem
      simp [run, hremove, hdata']
    · cases hop
  | remove cmp hash =>
    have hspec := Hashlin.remove_spec h.valid hlen cmp hash
    rw [h.find?] at hspec
    rw [apply] at hop
    split at hop
    · next e he =>
      cases hop
      rw [he] at hspec
      obtain ⟨t', hremove, hvalid, hdata, hkey⟩ := hspec
      refine ⟨t', ?_, h.removed hvalid hdata hkey⟩
      have hdata' := h.data e (List.mem_of_find?_eq_some he)
      rw [run, hremove, hdata']
    · next he =>
      cases hop
      rw [he] at hspec
      exact ⟨t, hspec, h⟩

/-! ## Runs -/

section
variable (bucket : Vector (Option SlotPtr) hashlinBitMax) (links : Links A) (data : A → D)
  (key : A → BitVec 32) {ops : List (TableOp A D)} {rs : List (Option D)}

/-- Operations that are allowed do to the table what they do to the elements, one after another. -/
theorem exists_refines (h : outputs TableOp.apply ops [] = some (es, rs)) :
    ∃ t, outputs (TableOp.run junk) ops (Hashlin.init bucket links data key) = some (t, rs) ∧
      Refines t es := by
  have hsim : ∀ (op : TableOp A D) t es es' r, Refines t es → op.apply es = some (es', r) →
      ∃ t', op.run junk t = some (t', r) ∧ Refines t' es' :=
    fun op t es es' r hrel hop => TableOp.run_simulates junk hrel hop
  exact outputs_simulates hsim (refines_init bucket links data key) h

/-- A table that was never used otherwise than allowed finds the first element with a hash, visits
every element once, and knows how many there are. No operation reads or writes outside the segments,
and none fails to end. -/
theorem run_refines (h : outputs TableOp.apply ops [] = some (es, rs)) :
    ∃ t, outputs (TableOp.run junk) ops (Hashlin.init bucket links data key) = some (t, rs) ∧
      (∀ cmp hash, t.search cmp hash =
        some ((es.find? fun e => e.hash = hash ∧ cmp e.data).map Entry.data)) ∧
      (∃ l, t.foreach = some l ∧ l.Perm (es.map Entry.data)) ∧ t.count = es.length := by
  obtain ⟨t, hrun, hend⟩ := exists_refines junk bucket links data key h
  have hdata : ∀ e ∈ es, t.data e.node = e.data := hend.data
  refine ⟨t, hrun, hend.search, ?_, ?_⟩
  · obtain ⟨l, hl, hperm⟩ := Hashlin.foreach_spec hend.valid
    have hmap : (es.map Entry.node).map t.data = es.map Entry.data := by
      rw [List.map_map]
      exact List.map_congr_left fun e he => hdata e he
    exact ⟨l, hl, hmap ▸ hperm⟩
  · rw [hend.valid.count, List.length_map]

/-- Two elements with one hash, of which the first is taken out again: a search then finds the
second. -/
theorem run_refines_two :
    ∃ t, outputs (TableOp.run fun _ _ => none)
        [.insert 1 10 7, .insert 2 20 7, .remove (fun d => d = 10) 7]
        (Hashlin.init (Vector.replicate 32 none) ⟨fun _ => none, fun _ => none⟩
          (fun _ : Nat => (0 : Nat)) fun _ => 0) = some (t, [none, none, some 10]) ∧
      t.search (fun _ => true) 7 = some (some 20) ∧ t.count = 1 := by
  obtain ⟨t, hrun, hsearch, -, hcount⟩ := run_refines (fun _ _ => none) (Vector.replicate 32 none)
    ⟨fun _ => none, fun _ => none⟩ (fun _ : Nat => (0 : Nat)) (fun _ => 0)
    (rfl : outputs TableOp.apply [.insert 1 10 7, .insert 2 20 7, .remove (fun d => d = 10) 7] [] =
      some ([⟨2, 20, 7⟩], [none, none, some 10]))
  exact ⟨t, hrun, hsearch _ _, hcount⟩

/-- The number of buckets follows the number of elements, and so does the memory for them, after any
run of insertions and removals. The table is never more than full, and it gives memory back when
most of its elements are gone. -/
theorem run_load (h : outputs TableOp.apply ops [] = some (es, rs)) :
    ∃ t, outputs (TableOp.run junk) ops (Hashlin.init bucket links data key) = some (t, rs) ∧
      es.length ≤ t.lowMax + t.split ∧ t.lowMax + t.split ≤ max 64 (8 * es.length) ∧
      t.bucketMax ≤ max 64 (16 * es.length) := by
  obtain ⟨t, hrun, hend⟩ := exists_refines junk bucket links data key h
  have hbalanced := hend.valid.balanced
  rw [List.length_map] at hbalanced
  exact ⟨t, hrun, hbalanced.le_buckets, hbalanced.buckets_le, hbalanced.bucketMax_le⟩

/-- The insertion of `n` elements, then the removal of the first `k`. -/
def fillAndDrain (n k : Nat) : List (TableOp Nat Nat) :=
  (List.range n).map (fun i => .insert i (i + 1) (BitVec.ofNat 32 i)) ++
    (List.range k).map .removeExisting

/-- A hundred elements, of which twenty are removed again: for the other eighty the table has more
buckets than the 64 that it starts with. -/
theorem run_load_eighty :
    ∃ t, outputs (TableOp.run fun _ _ => none) (fillAndDrain 100 20)
        (Hashlin.init (Vector.replicate 32 none) ⟨fun _ => none, fun _ => none⟩
          (fun _ : Nat => (0 : Nat)) fun _ => 0) =
        some (t, List.replicate 100 none ++ (List.range 20).map fun i => some (i + 1)) ∧
      80 ≤ t.lowMax + t.split ∧ t.lowMax + t.split ≤ 640 ∧ t.bucketMax ≤ 1280 :=
  run_load (fun _ _ => none) (Vector.replicate 32 none) ⟨fun _ => none, fun _ => none⟩
    (fun _ : Nat => (0 : Nat)) (fun _ => 0)
    (show outputs TableOp.apply (fillAndDrain 100 20) [] =
      some ((List.range' 20 80).map fun i => ⟨i, i + 1, BitVec.ofNat 32 i⟩,
        List.replicate 100 none ++ (List.range 20).map fun i => some (i + 1)) by decide +kernel)

/-- At the end `tommy_hashlin_done` gives back every segment that was ever allocated and is not yet
free, and each of them once. -/
theorem run_done (h : outputs TableOp.apply ops [] = some (es, rs)) :
    ∃ t t', outputs (TableOp.run junk) ops (Hashlin.init bucket links data key) = some (t, rs) ∧
      t.done = some t' ∧ ∀ b ∈ t'.blocks, b = none := by
  obtain ⟨t, hrun, hend⟩ := exists_refines junk bucket links data key h
  obtain ⟨seg, B, hB⟩ := hend.valid.stores
  obtain ⟨t', hdone, hblocks⟩ := Hashlin.done_spec hB.layout hend.valid.balanced.six_le
  exact ⟨t, t', hrun, hdone, hblocks⟩

/-- The table grows for a hundred elements and shrinks until five of them are left. -/
theorem run_done_five :
    ∃ t t', outputs (TableOp.run fun _ _ => none) (fillAndDrain 100 95)
        (Hashlin.init (Vector.replicate 32 none) ⟨fun _ => none, fun _ => none⟩
          (fun _ : Nat => (0 : Nat)) fun _ => 0) =
        some (t, List.replicate 100 none ++ (List.range 95).map fun i => some (i + 1)) ∧
      t.done = some t' ∧ ∀ b ∈ t'.blocks, b = none :=
  run_done (fun _ _ => none) (Vector.replicate 32 none) ⟨fun _ => none, fun _ => none⟩
    (fun _ : Nat => (0 : Nat)) (fun _ => 0)
    (show outputs TableOp.apply (fillAndDrain 100 95) [] =
      some ((List.range' 95 5).map fun i => ⟨i, i + 1, BitVec.ofNat 32 i⟩,
        List.replicate 100 none ++ (List.range 95).map fun i => some (i + 1)) by decide +kernel)

end

end OrbitCache.Tommy
