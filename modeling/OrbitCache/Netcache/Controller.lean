import OrbitCache.Controller.Agreement
import OrbitCache.Controller.Static
import OrbitCache.Netcache.History
import OrbitCache.Netcache.Wire

/-!
# The controller of NetCache

The tables and registers `netcache/controller.py` leaves behind: one entry for every item of the
file, at the index with the item's number, whose state is set to VALID. No register holds a value of
an item, and the states of items that an earlier start-up has installed are not cleared.
`startUp_answers` says which READs of a client the switch then answers, and with what, over every
run of packets.
-/

namespace OrbitCache.Netcache.Controller

open OrbitCache.Controller (Str LookupTable tableAdd)

/-- `MAX_OBJ` of `netcache.p4`, the number of entries of a register. -/
abbrev maxObj : Nat := 65536

/-! ## Keys -/

/-- `complex_transform`; it, `tostring_key`, `hash64_str` and `hash64_str2` have the text of the
functions of the other controller. -/
def complexTransform (number : Nat) : Nat := OrbitCache.Controller.complexTransform number

/-- `tostring_key`. -/
def tostringKey (number : Nat) : Str := OrbitCache.Controller.tostringKey number

/-- `hash64_str`, which is `hash64_hi` of the other controller. -/
def hash64Str (s : Str) : Nat := OrbitCache.Controller.hash64Hi s

/-- `hash64_str2`, which is `hash64_lo` there. -/
def hash64Str2 (s : Str) : Nat := OrbitCache.Controller.hash64Lo s

/-- The match key of an item in `read_cache_table`: the two hashes of its key. -/
def itemHkey (i : Nat) : Hkey :=
  let key := tostringKey i
  (BitVec.ofNat 64 (hash64Str key), BitVec.ofNat 64 (hash64Str2 key))

/-! ## Start-up -/

/-- `ip_list`, the hosts by address. -/
def ipList : List (BitVec 32) :=
  [0x0A000165, 0x0A000166, 0x0A000167, 0x0A000168, 0x0A000169, 0x0A00016A, 0x0A00016B, 0x0A00016C,
    0x0A000179, 0x0A00016F]

/-- `port_list`, their ports on the switch. -/
def portList : List (BitVec 9) := [48, 52, 0, 4, 16, 20, 32, 36, 40, controllerPort]

/-- `NUM_SRV_CTRL`. -/
abbrev numSrvCtrl : Nat := 10

/-- `cache_state.entry_mod` with the value 1; an index that the register has not is an error. -/
def entryMod (r : Registers) (i : Nat) : Option Registers :=
  if i < maxObj then some (r.setState (BitVec.ofNat 32 i) 1) else none

/-- One round of the loop over `sampled_keys`: an item is installed at the index of its own number.
-/
def installItem (s : LookupTable × Registers) (i : Nat) : Option (LookupTable × Registers) := do
  let table ← tableAdd s.1 (itemHkey i) i
  let regs ← entryMod s.2 i
  return (table, regs)

/-- The tables with the routes and the entries of `read_cache_table`, as they stay after start-up.
-/
def withItems (table : LookupTable) : Tables where
  ipv4Exact addr := List.lookup addr ((ipList.zip portList).take numSrvCtrl)
  readCache k := table.lookup k

/-- The controller with the items of its file, on registers that hold whatever they hold. -/
def startUp (sampledKeys : List Nat) (r : Registers) : Option (Tables × Registers) := do
  let (table, regs) ← sampledKeys.foldlM installItem (∅, r)
  return (withItems table, regs)

/-! ## The loop -/

/-- What the loop has made of a table and registers: the entries of its items, and the state of
their indices. The words are not written. -/
structure Installed (sampledKeys : List Nat) (s s' : LookupTable × Registers) : Prop where
  lookup : ∀ k c, s'.1.lookup k = some c ↔
    s.1.lookup k = some c ∨ ∃ i ∈ sampledKeys, k = itemHkey i ∧ c = BitVec.ofNat 32 i
  below : ∀ i ∈ sampledKeys, i < maxObj
  valid : ∀ i ∈ sampledKeys, s'.2.cacheState (BitVec.ofNat 32 i) = valid
  kept : ∀ c, (∀ i ∈ sampledKeys, c ≠ BitVec.ofNat 32 i) → s'.2.cacheState c = s.2.cacheState c
  value : s'.2.value = s.2.value

/-- Without items nothing is changed. -/
theorem installed_nil (s : LookupTable × Registers) : Installed [] s s where
  lookup k c := by simp
  below i h := by cases h
  valid i h := by cases h
  kept c _ := rfl
  value := rfl

/-- A round succeeds if the hash is new and the index exists. -/
theorem installItem_eq_some {s s' : LookupTable × Registers} {i : Nat} :
    installItem s i = some s' ↔ itemHkey i ∉ s.1 ∧ i < maxObj ∧
      s' = (s.1.insert (itemHkey i) (BitVec.ofNat 32 i), s.2.setState (BitVec.ofNat 32 i) 1) := by
  unfold installItem tableAdd entryMod
  split
  · next hmem => simp [hmem]
  · next hmem =>
    split
    · next hlt => simp [hmem, hlt, eq_comm]
    · next hlt => simp [hlt]

/-- The entries of a table with a new one. -/
theorem lookup_insert_new {t : LookupTable} {k : Hkey} (hnew : k ∉ t) (c : BitVec 32) (k' : Hkey)
    (c' : BitVec 32) :
    (t.insert k c).lookup k' = some c' ↔ t.lookup k' = some c' ∨ k' = k ∧ c' = c := by
  rcases eq_or_ne k' k with rfl | hne
  · rw [AList.lookup_insert, AList.lookup_eq_none.2 hnew]
    simp [eq_comm]
  · rw [AList.lookup_insert_ne hne]
    simp [hne]

/-- One more item before the others: its index stays VALID, since the others set states to VALID
only. -/
theorem Installed.cons {s u s' : LookupTable × Registers} {i : Nat} {l : List Nat}
    (hstep : installItem s i = some u) (h : Installed l u s') : Installed (i :: l) s s' := by
  obtain ⟨hnew, hlt, rfl⟩ := installItem_eq_some.1 hstep
  exact {
    lookup := by
      intro k c
      rw [h.lookup, lookup_insert_new hnew, or_assoc]
      simp
    below := List.forall_mem_cons.2 ⟨hlt, h.below⟩
    valid := by
      refine List.forall_mem_cons.2 ⟨?_, h.valid⟩
      by_cases hlater : ∃ j ∈ l, BitVec.ofNat 32 i = BitVec.ofNat 32 j
      · obtain ⟨j, hj, heq⟩ := hlater
        rw [heq, h.valid j hj]
      · rw [h.kept _ fun j hj heq => hlater ⟨j, hj, heq⟩]
        exact cacheState_setState
    kept := by
      intro c hc
      rw [List.forall_mem_cons] at hc
      rw [h.kept c hc.2]
      exact (sameAt_setState hc.1 _).cacheState
    value := h.value }

/-- The loop over any list of items, by induction. -/
theorem installed_of_foldlM {l : List Nat} {s s' : LookupTable × Registers}
    (h : l.foldlM installItem s = some s') : Installed l s s' := by
  induction l generalizing s with
  | nil =>
    cases h
    exact installed_nil _
  | cons i l ih =>
    rw [List.foldlM_cons] at h
    obtain ⟨u, hstep, hrest⟩ := Option.bind_eq_some_iff.1 h
    exact (ih hrest).cons hstep

/-- The loop succeeds exactly if every round does: the hashes are distinct and new, and all numbers
are indices. -/
theorem foldlM_isSome_iff {l : List Nat} {s : LookupTable × Registers} :
    (l.foldlM installItem s).isSome ↔
      (l.map itemHkey).Nodup ∧ (∀ i ∈ l, itemHkey i ∉ s.1) ∧ ∀ i ∈ l, i < maxObj := by
  induction l generalizing s with
  | nil => simp
  | cons i l ih =>
    rw [List.foldlM_cons, List.map_cons, List.nodup_cons, List.forall_mem_cons,
      List.forall_mem_cons]
    constructor
    · intro h
      obtain ⟨s', hs'⟩ := Option.isSome_iff_exists.1 h
      obtain ⟨u, hstep, hrest⟩ := Option.bind_eq_some_iff.1 hs'
      obtain ⟨hnew, hlt, rfl⟩ := installItem_eq_some.1 hstep
      obtain ⟨hnodup, hfresh, hbelow⟩ := ih.1 (Option.isSome_of_eq_some hrest)
      simp only [AList.mem_insert, not_or] at hfresh
      refine ⟨⟨fun hmem => ?_, hnodup⟩, ⟨hnew, fun j hj => (hfresh j hj).2⟩, hlt, hbelow⟩
      obtain ⟨j, hj, heq⟩ := List.mem_map.1 hmem
      exact (hfresh j hj).1 heq
    · rintro ⟨⟨hdistinct, hnodup⟩, ⟨hnew, hfresh⟩, hlt, hbelow⟩
      have hstep := installItem_eq_some.2 ⟨hnew, hlt, rfl⟩
      rw [hstep]
      refine ih.2 ⟨hnodup, fun j hj hmem => ?_, hbelow⟩
      rcases (AList.mem_insert _).1 hmem with heq | hmem
      · exact hdistinct (heq ▸ List.mem_map_of_mem hj)
      · exact hfresh j hj hmem

/-- The controller raises no exception exactly on items with different hashes whose numbers are
indices. -/
theorem startUp_isSome_iff (sampledKeys : List Nat) (r : Registers) :
    (startUp sampledKeys r).isSome ↔
      (sampledKeys.map itemHkey).Nodup ∧ ∀ i ∈ sampledKeys, i < maxObj := by
  have hloop := foldlM_isSome_iff (l := sampledKeys) (s := (∅, r))
  simp only [AList.notMem_empty, not_false_eq_true, implies_true, true_and] at hloop
  rw [← hloop, startUp]
  cases sampledKeys.foldlM installItem (∅, r) <;> rfl

/-- Start-up is the loop on an empty table. -/
theorem installed_of_startUp {sampledKeys : List Nat} {r r' : Registers} {t : Tables}
    (h : startUp sampledKeys r = some (t, r')) :
    ∃ table, Installed sampledKeys (∅, r) (table, r') ∧ t = withItems table := by
  obtain ⟨⟨table, regs⟩, hloop, heq⟩ := Option.bind_eq_some_iff.1 h
  cases heq
  exact ⟨table, installed_of_foldlM hloop, rfl⟩

/-- The entries of `read_cache_table` are the items of the file, each at its number. -/
theorem readCache_startUp {sampledKeys : List Nat} {r r' : Registers} {t : Tables}
    (h : startUp sampledKeys r = some (t, r')) {k : Hkey} {c : BitVec 32} :
    t.readCache k = some c ↔ ∃ i ∈ sampledKeys, k = itemHkey i ∧ c = BitVec.ofNat 32 i := by
  obtain ⟨table, hinstalled, rfl⟩ := installed_of_startUp h
  have hlookup := hinstalled.lookup k c
  rwa [AList.lookup_empty, or_iff_right (by simp)] at hlookup

/-! ## The READs of clients -/

/-- Controller and client hash the key of an item alike, so a READ of the item matches its entry. -/
theorem itemHkey_toNat (n : BitVec 64) :
    itemHkey n.toNat = hostHash (OrbitCache.tostringKey n) :=
  OrbitCache.Controller.hkey_eq_hostHash (OrbitCache.Controller.tostringKey_toNat n)

section
variable {numWorkers : Nat} {keyValue : BitVec 64} {latency : BitVec 32} {pkt : Packet Bytes}

/-- The READ of a client enters the NetCache block. -/
theorem isNetcache_of_isRead (h : IsRead numWorkers keyValue latency pkt) (hpos : 0 < numWorkers)
    (hmax : numWorkers ≤ maxWorkers) : pkt.IsNetcache := by
  refine ⟨h.etherType, h.protocol, .inl ?_⟩
  rw [show pkt.udp.dstPort = _ from congrArg Prod.snd h.target]
  exact netcachePort_txDestination hpos hmax _

/-- Its hash is that of its item. -/
theorem hkey_of_isRead (h : IsRead numWorkers keyValue latency pkt) :
    pkt.netcache.hkey = itemHkey keyValue.toNat := by
  rw [itemHkey_toNat, h.parsed.1, hkey_readHdr]

/-- A packet gives an index no other state than VALID or INVALID. -/
theorem setsState_eq {π : Type} {x : Arrival π} {c : BitVec 32} {state : BitVec 8}
    (h : x.setsState c = some state) : state = invalid ∨ state = valid := by
  unfold Arrival.setsState at h
  dsimp only at h
  split_ifs at h
  · exact .inl (Option.some.inj h).symm
  · exact .inr (Option.some.inj h).symm

/-- The state of an index that was VALID at first: it is VALID as long as the last change was not to
INVALID. -/
theorem stateAfter_eq_valid_iff {π : Type} {r : Registers} {c : BitVec 32}
    (h : r.cacheState c = valid) (xs : List (Arrival π)) : stateAfter r xs c = valid ↔
      (xs.filterMap fun x => x.setsState c).getLast? ≠ some invalid := by
  have hne : ¬ invalid = valid := by decide
  rw [stateAfter, h]
  cases hlast : (xs.filterMap fun x => x.setsState c).getLast? with
  | none => simp
  | some state =>
    obtain ⟨x, -, hx⟩ := List.mem_filterMap.1 (List.mem_of_getLast? hlast)
    rcases setsState_eq hx with rfl | rfl <;> simp

/-- After start-up on any registers, and any run of packets, a READ of a client is answered exactly
when an item of the file has the hashes of its key, the last packet that set the state at the index
of that item was no WRITE, and its sender is routable. The first READ of the VALID entry gets the
words that the registers held before start-up, every later one `EMPTY` words. -/
theorem startUp_answers {sampledKeys : List Nat} {r r' : Registers} {t : Tables}
    (h : startUp sampledKeys r = some (t, r')) (hpos : 0 < numWorkers)
    (hmax : numWorkers ≤ maxWorkers) (hread : IsRead numWorkers keyValue latency pkt)
    (pkts : List (Packet Bytes)) (p : BitVec 9) (e : Emitted Bytes) :
    (switchPass t (afterPackets t r' pkts) pkt).2 = some (p, e) ∧ e.values ≠ [] ↔
      ∃ i ∈ sampledKeys, itemHkey keyValue.toNat = itemHkey i ∧
        let c := BitVec.ofNat 32 i
        let run : List (Arrival Bytes) := pkts.map fun pkt => ⟨t, pkt⟩
        (run.filterMap fun x => x.setsState c).getLast? ≠ some invalid ∧
          t.ipv4Exact pkt.ipv4.srcAddr = some p ∧
          (¬ Taken r' run c ∧ e = pkt.reply r c ∨
            Taken r' run c ∧ e = pkt.reply (r.clear (List.finRange 16) c) c) := by
  obtain ⟨table, hinstalled, -⟩ := installed_of_startUp h
  have hvalue : r'.value = r.value := hinstalled.value
  have hreply (c : BitVec 32) : pkt.reply r' c = pkt.reply r c :=
    reply_congr (fun n => by rw [hvalue]) pkt
  have hclear (c : BitVec 32) : pkt.reply (r'.clear (List.finRange 16) c) c =
      pkt.reply (r.clear (List.finRange 16) c) c :=
    reply_congr (fun n => (emptied_answer r' c n).trans (emptied_answer r c n).symm) pkt
  have hidx (c : BitVec 32) : Arrival.IsOp ⟨t, pkt⟩ opRead c ↔
      ∃ i ∈ sampledKeys, itemHkey keyValue.toNat = itemHkey i ∧ c = BitVec.ofNat 32 i := by
    have hop : pkt.netcache.op = opRead := by rw [hread.parsed.1]; rfl
    have hnetcache := isNetcache_of_isRead hread hpos hmax
    simp only [Arrival.IsOp, hop, true_and, ownIdx_eq_some_iff, hnetcache, readCache_startUp h,
      hkey_of_isRead hread]
  have hhistory :=
    answered_after_iff r' (pkts.map fun pkt => (⟨t, pkt⟩ : Arrival Bytes)) ⟨t, pkt⟩ p e
  simp only [hreply, hclear, hidx] at hhistory
  rw [afterPackets, hhistory]
  constructor
  · rintro ⟨c, ⟨i, hi, hhash, rfl⟩, hstate, hrest⟩
    exact ⟨i, hi, hhash, (stateAfter_eq_valid_iff (hinstalled.valid i hi) _).1 hstate, hrest⟩
  · rintro ⟨i, hi, hhash, hstate, hrest⟩
    exact ⟨_, ⟨i, hi, hhash, rfl⟩, (stateAfter_eq_valid_iff (hinstalled.valid i hi) _).2 hstate,
      hrest⟩

end

/-! ## One item of three -/

/-- The registers when the program is loaded: the words of `Value1` to `Value16` are initialised to
1. -/
def loadRegisters : Registers := ⟨fun _ => 0, fun _ => 0, fun _ _ => 1⟩

/-- A READ of item 0 from the first host of `ip_list`. -/
def listedRead : Packet Bytes := { readPacket with ipv4.srcAddr := 0x0A000165 }

/-- It is a READ of a client, with eight workers on a server. -/
theorem isRead_listedRead : IsRead 8 0 7 listedRead :=
  ⟨isRead_readPacket.etherType, isRead_readPacket.protocol, isRead_readPacket.target,
    isRead_readPacket.totalLen, isRead_readPacket.len, isRead_readPacket.datagram⟩

/-- A packet of item 0 with another operation, from the same host. -/
def listed (op : BitVec 8) : Packet Bytes := { listedRead with netcache.op := op }

/-- The parser takes it into the NetCache block, whatever its operation is. -/
theorem isNetcache_listed (op : BitVec 8) : (listed op).IsNetcache := by
  have hread : listedRead.IsNetcache :=
    isNetcache_of_isRead isRead_listedRead (by decide) (by decide)
  exact hread

/-- With the item at index 0, a WRITE makes the index INVALID and an `OP_F_REPLY` makes it VALID,
while a READ leaves its state as it is. -/
theorem setsState_listed {t : Tables} (h : t.readCache listedRead.netcache.hkey = some 0)
    (op : BitVec 8) : (⟨t, listed op⟩ : Arrival Bytes).setsState 0 =
      if op = opWrite then some invalid else if op = opFReply then some valid else none := by
  have hlookup : t.readCache (listed op).netcache.hkey = some 0 := h
  have hop : (listed op).netcache.op = op := rfl
  simp only [Arrival.setsState, if_pos (isNetcache_listed op), hlookup, hop, Option.getD_some,
    and_true]

/-- Three items are installed, and one of them is read, written and validated again. The first READ
took the words of the loaded program, so the next one is answered with `EMPTY` words. -/
theorem startUp_answers_rewritten :
    ∃ t r', startUp [5, 0, 9] loadRegisters = some (t, r') ∧
      (switchPass t (afterPackets t r' [listed opRead, listed opWrite, listed opFReply])
          listedRead).2 =
        some (48, listedRead.reply (loadRegisters.clear (List.finRange 16) 0) 0) := by
  have hsome : (startUp [5, 0, 9] loadRegisters).isSome :=
    (startUp_isSome_iff _ _).2 ⟨by decide +kernel, by decide⟩
  obtain ⟨⟨t, r'⟩, h⟩ := Option.isSome_iff_exists.1 hsome
  obtain ⟨table, hinstalled, ht⟩ := installed_of_startUp h
  have hroute : t.ipv4Exact 0x0A000165 = some 48 := by
    rw [ht]
    rfl
  have hlookup : t.readCache listedRead.netcache.hkey = some 0 :=
    (readCache_startUp h).2 ⟨0, by simp, (hkey_of_isRead isRead_listedRead).trans rfl, rfl⟩
  let pkts := [listed opRead, listed opWrite, listed opFReply]
  let run : List (Arrival Bytes) := pkts.map fun pkt => ⟨t, pkt⟩
  have hstates : run.filterMap (fun x => x.setsState 0) = [invalid, valid] := by
    simp only [run, pkts, List.map_cons, List.map_nil, List.filterMap_cons, List.filterMap_nil,
      setsState_listed hlookup]
    rfl
  have htaken : Taken r' run 0 := by
    refine ⟨[], ⟨t, listed opRead⟩, ⟨_, rfl⟩, ⟨rfl, ?_⟩, hinstalled.valid 0 (by simp)⟩
    exact ownIdx_eq_some_iff.2 ⟨isNetcache_listed opRead, hlookup⟩
  have hanswers := startUp_answers h (by decide) (by decide) isRead_listedRead pkts 48
    (listedRead.reply (loadRegisters.clear (List.finRange 16) 0) 0)
  refine ⟨t, r', h, (hanswers.2 ⟨0, by simp, rfl, fun hlast => ?_, hroute, .inr ⟨htaken, rfl⟩⟩).1⟩
  have hvalid : some valid = some invalid := by
    rw [← hlast]
    exact (congrArg List.getLast? hstates).symm
  cases hvalid

end OrbitCache.Netcache.Controller
