import Mathlib.Data.List.AList
import Mathlib.Data.Finset.Max
import Mathlib.Order.Interval.Finset.Nat
import OrbitCache.Switch.Fifo
import OrbitCache.Controller.Key

/-!
# The static controller

The tables and registers `controller.py` leaves behind before traffic starts when `DYNAMIC == 0`:
the registers of the first `NUM_HOTKEY` cache indices are zeroed and the keys of the first
`NUM_HOTKEY` items are installed. An operation that raises an exception returns `none`.
-/

namespace OrbitCache.Controller

/-- `NUM_HOTKEY`, the number of cached keys. -/
abbrev numHotkey : Nat := 128
/-- `MAX_HOTKEY`. -/
abbrev maxHotkey : Nat := 1024

/-! ## The index allocator -/

/-- `get_next_index`, on `available_indexes`: the least free index is taken out of the set. There is
no result when nothing is free. -/
def getNextIndex (available : Finset Nat) : Option (Nat × Finset Nat) :=
  if h : available.Nonempty then some (available.min' h, available.erase (available.min' h))
  else none

/-- `release_index`: the index is free again. An index from `MAX_HOTKEY` on raises an exception. -/
def releaseIndex (available : Finset Nat) (index : Nat) : Option (Finset Nat) :=
  if index < maxHotkey then some (insert index available) else none

/-- As long as nothing is released, indices are handed out in order, without a gap. -/
theorem getNextIndex_Ico {n m : Nat} (h : n < m) :
    getNextIndex (Finset.Ico n m) = some (n, Finset.Ico (n + 1) m) := by
  have hne : (Finset.Ico n m).Nonempty := Finset.nonempty_Ico.2 h
  have hmin : (Finset.Ico n m).min' hne = n :=
    le_antisymm (Finset.min'_le _ _ (Finset.left_mem_Ico.2 h))
      (Finset.le_min' _ _ _ fun i hi => (Finset.mem_Ico.1 hi).1)
  rw [getNextIndex, dif_pos hne, hmin]
  congr 2
  ext i
  simp only [Finset.mem_erase, Finset.mem_Ico]
  omega

/-! ## The lookup table -/

/-- `cacheLookup_table`: the cache index of each key hash. -/
abbrev LookupTable : Type := AList fun _ : Hkey => BitVec 32

/-- `table_add` on `cacheLookup_table`; adding an entry that exists is an error, which ends the
controller. -/
def tableAdd (t : LookupTable) (k : Hkey) (idx : Nat) : Option LookupTable :=
  if k ∈ t then none else some (t.insert k (BitVec.ofNat 32 idx))

/-- `table_del` on `cacheLookup_table`; deleting an entry that does not exist is an error as well.
-/
def tableDel (t : LookupTable) (k : Hkey) : Option LookupTable :=
  if k ∈ t then some (t.erase k) else none

/-- The tables of the switch with the controller's lookup table: the rest of the configuration does
not depend on the keys. -/
def withLookup (t : Tables) (lookup : LookupTable) : Tables :=
  { t with cacheLookup := fun k => lookup.lookup k }

/-! ## Static initialisation -/

/-- `reg_mod` of one cell, at the index as the 32-bit word that the switch uses. -/
def regMod {w : Nat} (r : Register w) (i : Nat) (v : BitVec w) : Register w :=
  Function.update r (BitVec.ofNat 32 i) v

/-- Zero the queue registers of an index: the body of the first loop. -/
def resetQueue (r : Registers) (i : Nat) : Registers :=
  { r with
    qlen := regMod r.qlen i 0
    ptrRear := regMod r.ptrRear i 0
    ptrFront := regMod r.ptrFront i 0
    cacheState := regMod r.cacheState i 0 }

/-- Zero the data registers of a slot: the body of the second loop. -/
def resetSlot (r : Registers) (i : Nat) : Registers :=
  { r with
    clientIP := regMod r.clientIP i 0
    udpPort := regMod r.udpPort i 0
    seq := regMod r.seq i 0
    latency := regMod r.latency i 0 }

/-- The loop over the queues, for the indices below `NUM_HOTKEY`. -/
def resetQueues (r : Registers) : Registers := (List.range numHotkey).foldl resetQueue r

/-- The loop over the slots, for all slots of these indices. -/
def resetSlots (r : Registers) : Registers :=
  (List.range (maxQueueSizePerKey * numHotkey)).foldl resetSlot r

/-- The registers after initialisation. The counters are not among those that it zeroes. -/
def initRegisters (r : Registers) : Registers := resetSlots (resetQueues r)

/-- One round of the installation loop: the next index for a key and its entry in the table. -/
def installKey (s : LookupTable × Finset Nat) (key : Str) : Option (LookupTable × Finset Nat) := do
  let (idx, available) ← getNextIndex s.2
  let t ← tableAdd s.1 (hkey key) idx
  pure (t, available)

/-- The keys the static controller installs: the keys of the items below `NUM_HOTKEY`. -/
def staticKeys : List Str := (List.range numHotkey).map tostringKey

/-- The lookup table of the static controller and the indices that it leaves free. -/
def installStatic : Option (LookupTable × Finset Nat) :=
  staticKeys.foldlM installKey (∅, Finset.range maxHotkey)

/-! ## What initialisation leaves -/

/-- Writing 0 to the first `n` cells of a register, in a loop: each of these cells is 0 at the end,
whatever it was. -/
theorem foldl_regMod_zero {w : Nat} (n : Nat) (r : Register w) {c : BitVec 32} (hc : c.toNat < n) :
    (List.range n).foldl (fun r i => regMod r i 0) r c = 0 := by
  induction n with
  | zero => omega
  | succ n ih =>
    rw [List.range_succ, List.foldl_append, List.foldl_cons, List.foldl_nil, regMod]
    by_cases hn : c = BitVec.ofNat 32 n
    · rw [hn, Function.update_self]
    · rw [Function.update_of_ne hn]
      refine ih (Nat.lt_of_le_of_ne (Nat.le_of_lt_succ hc) fun h => hn ?_)
      rw [← h, BitVec.ofNat_toNat, BitVec.setWidth_eq]

/-- A field of the registers that a loop updates on its own. The loops over the registers are
reduced to loops over one of them. -/
theorem foldl_field {β : Type} (field : Registers → β) {f : Registers → Nat → Registers}
    {g : β → Nat → β} (h : ∀ r i, field (f r i) = g (field r) i) (l : List Nat) (r : Registers) :
    field (l.foldl f r) = l.foldl g (field r) :=
  (List.foldl_hom field fun r i => (h r i).symm).symm

/-- What the loop over the slots does not touch: every field that its body leaves alone. -/
theorem resetSlots_frame {β : Type} (field : Registers → β)
    (h : ∀ r i, field (resetSlot r i) = field r) (r : Registers) :
    field (resetSlots r) = field r :=
  (foldl_field field (g := fun b _ => b) h _ r).trans (List.foldl_fixed _)

/-- A queue register that the first loop zeroes and the second does not touch. -/
theorem initRegisters_zero {w : Nat} (field : Registers → Register w)
    (hslot : ∀ r i, field (resetSlot r i) = field r)
    (hqueue : ∀ r i, field (resetQueue r i) = regMod (field r) i 0) (r : Registers)
    {c : BitVec 32} (hc : c.toNat < numHotkey) : field (initRegisters r) c = 0 := by
  rw [initRegisters, resetSlots_frame field hslot, resetQueues,
    foldl_field field (g := fun q i => regMod q i 0) hqueue]
  exact foldl_regMod_zero _ _ hc

/-- Initialisation leaves the first indices well formed: their queues are empty, with both pointers
at the first slot. -/
theorem initRegisters_wfBelow (r : Registers) : (initRegisters r).WFBelow numHotkey := by
  intro c hc
  have hqlen := initRegisters_zero Registers.qlen (fun _ _ => rfl) (fun _ _ => rfl) r hc
  have hrear := initRegisters_zero Registers.ptrRear (fun _ _ => rfl) (fun _ _ => rfl) r hc
  have hfront := initRegisters_zero Registers.ptrFront (fun _ _ => rfl) (fun _ _ => rfl) r hc
  have hstate := initRegisters_zero Registers.cacheState (fun _ _ => rfl) (fun _ _ => rfl) r hc
  exact ⟨by rw [hqlen]; decide, by rw [hfront]; decide, by rw [hrear, hfront, hqlen]; rfl,
    .inr hstate⟩

/-- Initialisation leaves the first indices INVALID with empty queues. -/
theorem initRegisters_line (r : Registers) {c : BitVec 32} (hc : c.toNat < numHotkey) :
    (initRegisters r).line c = ⟨false, []⟩ := by
  have hqlen := initRegisters_zero Registers.qlen (fun _ _ => rfl) (fun _ _ => rfl) r hc
  have hstate := initRegisters_zero Registers.cacheState (fun _ _ => rfl) (fun _ _ => rfl) r hc
  rw [Registers.line, Registers.pending_eq_nil_iff.2 hqlen, hstate]
  rfl

/-- The registers of a switch that was just started. -/
def zeroRegisters : Registers where
  totalCache := 0
  missCounter := 0
  cacheState _ := 0
  cacheCounter _ := 0
  ptrRear _ := 0
  ptrFront _ := 0
  qlen _ := 0
  clientIP _ := 0
  udpPort _ := 0
  seq _ := 0
  latency _ := 0

/-- Initialisation does nothing to them, so the runs of a switch may start with either. -/
theorem initRegisters_zeroRegisters : initRegisters zeroRegisters = zeroRegisters := by
  have hmod : ∀ (w i : Nat), regMod (w := w) (fun _ => 0) i 0 = fun _ => 0 :=
    fun w i => Function.update_eq_self (BitVec.ofNat 32 i) (fun _ => (0 : BitVec w))
  have hqueue : ∀ i, resetQueue zeroRegisters i = zeroRegisters := fun i => by
    simp only [resetQueue, zeroRegisters, hmod]
  have hslot : ∀ i, resetSlot zeroRegisters i = zeroRegisters := fun i => by
    simp only [resetSlot, zeroRegisters, hmod]
  rw [initRegisters, resetQueues, List.foldl_fixed' hqueue, resetSlots, List.foldl_fixed' hslot]

attribute [irreducible] initRegisters

/-- The entries of keys with consecutive indices, the latest first, as insertion at the front leaves
them. -/
def installEntries (keys : List Str) (n : Nat) : List (Sigma fun _ : Hkey => BitVec 32) :=
  ((keys.zipIdx n).map fun p => ⟨hkey p.1, BitVec.ofNat 32 p.2⟩).reverse

/-- Installing keys whose hashes are distinct and new gives them consecutive indices. The induction
is on the keys, with the indices that are left as an interval. -/
theorem foldlM_installKey {keys : List Str} {t : LookupTable} {n : Nat}
    (hlen : n + keys.length ≤ maxHotkey) (hnodup : (keys.map hkey).Nodup)
    (hnew : ∀ key ∈ keys, hkey key ∉ t) :
    ∃ t', keys.foldlM installKey (t, Finset.Ico n maxHotkey) =
        some (t', Finset.Ico (n + keys.length) maxHotkey) ∧
      t'.entries = installEntries keys n ++ t.entries := by
  induction keys generalizing t n with
  | nil => exact ⟨t, rfl, rfl⟩
  | cons key keys ih =>
    rw [List.length_cons] at hlen
    rw [List.map_cons, List.nodup_cons] at hnodup
    have hfresh := hnew key List.mem_cons_self
    have hstep : installKey (t, Finset.Ico n maxHotkey) key =
        some (t.insert (hkey key) (BitVec.ofNat 32 n), Finset.Ico (n + 1) maxHotkey) := by
      simp [installKey, getNextIndex_Ico (show n < maxHotkey by omega), tableAdd, hfresh]
    have hfresh' : ∀ key' ∈ keys, hkey key' ∉ t.insert (hkey key) (BitVec.ofNat 32 n) := by
      intro key' hmem hin
      rcases (AList.mem_insert _).1 hin with heq | hin
      · exact hnodup.1 (heq ▸ List.mem_map_of_mem hmem)
      · exact hnew key' (List.mem_cons_of_mem _ hmem) hin
    obtain ⟨t', ht', hentries⟩ := ih (n := n + 1) (by omega) hnodup.2 hfresh'
    refine ⟨t', ?_, ?_⟩
    · rw [List.foldlM_cons, hstep, List.length_cons, ← Nat.add_assoc, Nat.add_right_comm]
      exact ht'
    · rw [hentries, AList.entries_insert_of_notMem hfresh, installEntries, installEntries,
        List.zipIdx_cons, List.map_cons, List.reverse_cons, List.append_assoc]
      rfl

/-- The hashes of the static keys are distinct. This is computed, key by key. -/
theorem staticKeys_nodup : (staticKeys.map hkey).Nodup := by
  decide +kernel

/-- The keys of the static entries are distinct, so the entries are a table. -/
theorem installEntries_nodupKeys : (installEntries staticKeys 0).NodupKeys := by
  have hkeys : (installEntries staticKeys 0).keys = (staticKeys.map hkey).reverse := by
    rw [installEntries, List.keys, List.map_reverse, List.map_map,
      ← congrArg (List.map hkey) (List.zipIdx_map_fst 0 staticKeys), List.map_map]
    rfl
  rw [List.NodupKeys, hkeys]
  exact List.nodup_reverse.2 staticKeys_nodup

/-- The table of the static controller: its 128 entries, without running the installation. -/
def staticTable : LookupTable := ⟨installEntries staticKeys 0, installEntries_nodupKeys⟩

/-- The static controller raises no exception and installs its table, and the indices from
`NUM_HOTKEY` on stay free. -/
theorem installStatic_eq : installStatic = some (staticTable, Finset.Ico numHotkey maxHotkey) := by
  have hlen : staticKeys.length = numHotkey := by simp [staticKeys]
  obtain ⟨t, ht, hentries⟩ := foldlM_installKey (t := ∅) (n := 0) (by rw [hlen]; decide)
    staticKeys_nodup fun _ _ => AList.notMem_empty _
  rw [hlen, Nat.zero_add] at ht
  rw [installStatic, Finset.range_eq_Ico, ht,
    show t = staticTable from AList.ext (hentries.trans (List.append_nil _))]

/-- The `i`-th key has the index `i`, and the table has no other entries. -/
theorem lookup_staticTable {k : Hkey} {c : BitVec 32} : staticTable.lookup k = some c ↔
    ∃ i < numHotkey, k = hkey (tostringKey i) ∧ c = BitVec.ofNat 32 i := by
  have hmem : staticTable.lookup k = some c ↔ ⟨k, c⟩ ∈ installEntries staticKeys 0 :=
    AList.mem_lookup_iff
  rw [hmem, installEntries, List.mem_reverse, List.mem_map]
  constructor
  · rintro ⟨⟨key, i⟩, hp, heq⟩
    cases heq
    have hget := List.mk_mem_zipIdx_iff_getElem?.1 hp
    rw [staticKeys, List.getElem?_map, Option.map_eq_some_iff] at hget
    obtain ⟨j, hj, rfl⟩ := hget
    obtain ⟨hi, rfl⟩ := List.getElem?_eq_some_iff.1 hj
    rw [List.getElem_range]
    exact ⟨i, by simpa using hi, rfl, rfl⟩
  · rintro ⟨i, hi, rfl, rfl⟩
    exact ⟨(tostringKey i, i), List.mk_mem_zipIdx_iff_getElem?.2 (by simp [staticKeys, hi]), rfl⟩

/-- A table that gives each of its keys an index of its own among the first `NUM_HOTKEY`. It is all
that the runs of the system need to know of the lookup table. -/
structure StaticTable (lookup : LookupTable) : Prop where
  below : ∀ k c, lookup.lookup k = some c → c.toNat < numHotkey
  inj : ∀ k k' c, lookup.lookup k = some c → lookup.lookup k' = some c → k = k'

/-- The table of the static controller is one: its indices are consecutive. -/
theorem staticTable_staticTable : StaticTable staticTable := by
  have hsize {i : Nat} (hi : i < numHotkey) : (BitVec.ofNat 32 i).toNat = i := by
    rw [BitVec.toNat_ofNat]
    exact Nat.mod_eq_of_lt (Nat.lt_trans hi (by decide))
  refine ⟨fun k c hc => ?_, fun k k' c hc hc' => ?_⟩
  · obtain ⟨i, hi, -, rfl⟩ := lookup_staticTable.1 hc
    rwa [hsize hi]
  · obtain ⟨i, hi, rfl, rfl⟩ := lookup_staticTable.1 hc
    obtain ⟨j, hj, rfl, hij⟩ := lookup_staticTable.1 hc'
    rw [show i = j by rw [← hsize hi, ← hsize hj, hij]]

/-- In the tables of the switch, every cached key has an index below `NUM_HOTKEY`. -/
theorem StaticTable.indexBelow {lookup : LookupTable} (h : StaticTable lookup) (t : Tables) :
    (withLookup t lookup).IndexBelow numHotkey := h.below

/-- After static initialisation, whatever the registers held before, every installed index is a
bounded queue over every sequence of packets: empty at first, and changed by each packet as a
bounded queue is. The queue is the abstract one; the registers of the request table refine it one
packet at a time, and the run is by induction on the packets. -/
theorem requestTable_refines_fifo {π : Type} (t : Tables) (regs : Registers) :
    ∃ lookup available, installStatic = some (lookup, available) ∧
      let run := switchRun (withLookup t lookup) (initRegisters regs)
      ∃ queue : List (BitVec 9 × Packet π) → BitVec 32 → List Pending,
        ∀ c, (∃ k, lookup.lookup k = some c) →
          queue [] c = [] ∧ ∀ ps, (run ps).Holds c (queue ps c) ∧
            ∀ port pkt, QueueStep (withLookup t lookup) port (run ps) pkt c (queue ps c)
              (queue (ps ++ [(port, pkt)]) c) := by
  have ht := staticTable_staticTable.indexBelow t
  have hwf := initRegisters_wfBelow regs
  have hn : numHotkey ≤ maxCacheSize := by decide
  refine ⟨staticTable, _, installStatic_eq,
    fun ps => (switchRun (withLookup t staticTable) (initRegisters regs) ps).pending, ?_⟩
  rintro c ⟨k, hk⟩
  have hc := ht k c hk
  have hempty : (initRegisters regs).pending c = [] := by
    rw [← Registers.queue_line, initRegisters_line regs hc]
  generalize initRegisters regs = r at hwf hempty ⊢
  refine ⟨hempty, fun ps => ⟨?_, fun port pkt => ?_⟩⟩
  · exact (switchRun_wfBelow ht hwf ps c hc).holds (Nat.lt_of_lt_of_le hc hn)
  · exact switchRun_queueStep ht hn hwf ps port pkt hc

/-! ## A queue that is used -/

/-- Routes and groups of a switch whose recirculation port is 68. -/
def loopTables : Tables where
  ipv4Exact _ := some 1
  cacheLookup _ := none
  readCacheRecirculationPort _ := some (68, 0)
  getCrecircId _ _ := some 1
  getCrecircId2 _ _ := some 1
  updateDstMAC _ := none
  mgid _ := [1, 68]

/-- A message about the first static key, whose client waits for `seq`. -/
def firstKeyPacket (op : BitVec 8) (seq : BitVec 32) : Packet Unit where
  ethernet := ⟨0xB, 0xA, typeIpv4⟩
  ipv4 := ⟨typeUdp, 0x0A000165, 0x0A000166⟩
  udp := ⟨3001, 3000, 0⟩
  orbitcache := ⟨op, seq, (hkey (tostringKey 0)).1, (hkey (tostringKey 0)).2, 0, 0, 7⟩
  payload := ()

/-- A W_REPLY makes the index of the key VALID, two READs wait there, and each time that the cache
packet comes back it takes the older one along. -/
example :
    let run := switchRun (withLookup loopTables staticTable) (initRegisters zeroRegisters)
    let ps : List (BitVec 9 × Packet Unit) :=
      [(1, firstKeyPacket opWReply 0), (1, firstKeyPacket opRead 1), (1, firstKeyPacket opRead 2),
        (68, firstKeyPacket opWReply 0), (68, firstKeyPacket opRReply 1)]
    let first : Pending := ⟨0x0A000165, 3001, 1, 7⟩
    let second : Pending := ⟨0x0A000165, 3001, 2, 7⟩
    (ps.inits.map fun l => ((run l).cacheState 0, (run l).pending 0)) =
      [(invalid, []), (valid, []), (valid, [first]), (valid, [first, second]), (valid, [second]),
        (valid, [])] := by
  decide +kernel

end OrbitCache.Controller
