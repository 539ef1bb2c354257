import OrbitCache.Host.Key

/-!
# Placement of keys

Which server worker holds a key and where the client sends the requests for it. Both sides take the
server from `fnv1_16_str` and the partition from `hash64_str`, but each adds the partition to base
ports of its own: `reachesOwner_iff` says for which protocols they agree.
-/

namespace OrbitCache

/-- The protocol ids that server and client accept, each with a branch of its own in both programs.
-/
inductive Protocol where
  | nocache
  | netcache
  | orbitcache
  deriving DecidableEq, Repr

/-- `dst_ip`, as addresses; the entries from 4 on belong to no server. -/
def dstIp (i : Nat) : BitVec 32 :=
  [0x0A00016C, 0x0A00016B, 0x0A00016A, 0x0A000169, 0x0A000168, 0x0A000167].getD i 0

/-- `fnv1_16_str(key) % NUM_SRV`, the server of a key, as an index into `dst_ip`. -/
def dstAddr (key : Bytes) : Nat := (fnv116Str key).toNat % numSrv

/-- `par_id`: `(hash64_str(key) + 0x12345678) % g_num_srv_workers`, as `uint8_t`, the partition of a
key on its server. -/
def parId (numWorkers : Nat) (key : Bytes) : BitVec 8 :=
  ((hash64Str key + 0x12345678) % BitVec.ofNat 64 numWorkers).setWidth 8

/-! ## The server -/

/-- The base port a worker binds to: NetCache workers use that of OrbitCache. -/
def workerBasePort : Protocol → Nat
  | .nocache => nocacheBasePort
  | .netcache => orbitcacheBasePort
  | .orbitcache => orbitcacheBasePort

/-- The port the worker `i` is bound to, one for each partition. -/
def workerPort (protocolId : Protocol) (i : Nat) : BitVec 16 :=
  BitVec.ofNat 16 (workerBasePort protocolId + i)

/-- The test for the keys of a worker: the partition `partitionId` of the server with the address
`ipaddr`. -/
def inPartition (numWorkers : Nat) (ipaddr : BitVec 32) (partitionId : Nat) (keyStr : Bytes) :
    Bool :=
  dstIp (dstAddr keyStr) == ipaddr && (parId numWorkers keyStr).toNat == partitionId

/-- The keys a worker inserts at start-up, in order: those of the data set that pass its test. -/
def partitionKeys (numWorkers : Nat) (ipaddr : BitVec 32) (partitionId : Nat) : List Bytes :=
  ((List.range datasetSize).map fun i => tostringKey (BitVec.ofNat 64 i)).filter
    (inPartition numWorkers ipaddr partitionId)

/-! ## The client -/

/-- The address and port computed from a key and a base port, as `tx_t` and `rx_t` both compute
them. -/
def destination (basePort numWorkers : Nat) (key : Bytes) : BitVec 32 × BitVec 16 :=
  (dstIp (dstAddr key), BitVec.ofNat 16 (basePort + (parId numWorkers key).toNat))

/-- Where `tx_t` sends the requests for a key, with the base port of its protocol. It is the same
for READs and WRITEs. -/
def txDestination (protocolId : Protocol) (numWorkers : Nat) (key : Bytes) :
    BitVec 32 × BitVec 16 :=
  match protocolId with
  | .nocache => destination nocacheBasePort numWorkers key
  | .netcache => destination netcacheBasePort numWorkers key
  | .orbitcache => destination orbitcacheBasePort numWorkers key

/-- Where `rx_t` sends the correction of a key; it is for OrbitCache only. -/
def crctnDestination (numWorkers : Nat) (key : Bytes) : BitVec 32 × BitVec 16 :=
  destination orbitcacheBasePort numWorkers key

/-! ## Owners -/

/-- The address of a worker of one of the servers, as the program binds its socket. -/
def workerAddress (protocolId : Protocol) (srv worker : Nat) : BitVec 32 × BitVec 16 :=
  (dstIp srv, workerPort protocolId worker)

/-- Exactly one worker inserts the key of an item, once, and every request for the key goes to the
address of that worker. -/
def ReachesOwner (protocolId : Protocol) (numWorkers n : Nat) : Prop :=
  let key := tostringKey (BitVec.ofNat 64 n)
  ∃ srv < numSrv, ∃ worker < numWorkers,
    (partitionKeys numWorkers (dstIp srv) worker).count key = 1 ∧
    (∀ srv' < numSrv, ∀ worker' < numWorkers,
      key ∈ partitionKeys numWorkers (dstIp srv') worker' → srv' = srv ∧ worker' = worker) ∧
    txDestination protocolId numWorkers key = workerAddress protocolId srv worker ∧
    (protocolId = .orbitcache →
      crctnDestination numWorkers key = workerAddress protocolId srv worker)

/-- The index is that of a server. -/
theorem dstAddr_lt (key : Bytes) : dstAddr key < numSrv := Nat.mod_lt _ (by decide)

/-- The servers have different addresses. -/
theorem dstIp_inj : ∀ i < numSrv, ∀ j < numSrv, dstIp i = dstIp j → i = j := by decide

/-- The partition is that of a worker: with at most 16 of them the conversion to `uint8_t` loses
nothing. -/
theorem parId_lt (numWorkers : Nat) (key : Bytes) (h : 0 < numWorkers)
    (hmax : numWorkers ≤ maxWorkers) : (parId numWorkers key).toNat < numWorkers := by
  have hsize : (BitVec.ofNat 64 numWorkers).toNat = numWorkers := by
    rw [BitVec.toNat_ofNat]
    simp only [maxWorkers] at hmax
    omega
  rw [parId, BitVec.toNat_setWidth, BitVec.toNat_umod, hsize]
  exact Nat.lt_of_le_of_lt (Nat.mod_le _ _) (Nat.mod_lt _ h)

/-- The test for the keys of a worker, on the two indices of the key: servers with different indices
have different addresses. -/
theorem inPartition_iff {numWorkers srv worker : Nat} {key : Bytes} (hsrv : srv < numSrv) :
    inPartition numWorkers (dstIp srv) worker key = true ↔
      dstAddr key = srv ∧ (parId numWorkers key).toNat = worker := by
  rw [inPartition, Bool.and_eq_true, beq_iff_eq, beq_iff_eq]
  exact and_congr_left fun _ => ⟨dstIp_inj _ (dstAddr_lt _) _ hsrv, fun h => by rw [h]⟩

/-- The keys of the data set are different, since those of different items are. -/
theorem datasetKeys_nodup :
    ((List.range datasetSize).map fun i => tostringKey (BitVec.ofNat 64 i)).Nodup := by
  refine List.Nodup.map_on (fun i hi j hj h => ?_) List.nodup_range
  have hi := List.mem_range.1 hi
  have hj := List.mem_range.1 hj
  have hij := congrArg BitVec.toNat (tostringKey_injective h)
  simp only [datasetSize] at hi hj
  rw [BitVec.toNat_ofNat, BitVec.toNat_ofNat] at hij
  omega

/-- A worker inserts the keys of its own partition and no others, so the partitions of all workers
share the data set. -/
theorem mem_partitionKeys {numWorkers srv worker n : Nat} (hsrv : srv < numSrv)
    (hn : n < datasetSize) :
    tostringKey (BitVec.ofNat 64 n) ∈ partitionKeys numWorkers (dstIp srv) worker ↔
      dstAddr (tostringKey (BitVec.ofNat 64 n)) = srv ∧
        (parId numWorkers (tostringKey (BitVec.ofNat 64 n))).toNat = worker := by
  have hmem : tostringKey (BitVec.ofNat 64 n) ∈
      (List.range datasetSize).map fun i => tostringKey (BitVec.ofNat 64 i) :=
    List.mem_map.2 ⟨n, List.mem_range.2 hn, rfl⟩
  rw [partitionKeys, List.mem_filter, inPartition_iff hsrv]
  exact and_iff_right hmem

/-- A worker inserts no key twice, since no item comes twice in the loop. -/
theorem partitionKeys_nodup (numWorkers : Nat) (ip : BitVec 32) (worker : Nat) :
    (partitionKeys numWorkers ip worker).Nodup :=
  datasetKeys_nodup.filter _

/-- The NetCache client sends to ports no worker is bound to: at most 16 ports from 1000 on, against
those from 3000 on. -/
theorem netcache_port_ne {numWorkers worker : Nat} (h : 0 < numWorkers)
    (hmax : numWorkers ≤ maxWorkers) (hworker : worker < numWorkers) (srv : Nat) (key : Bytes) :
    txDestination .netcache numWorkers key ≠ workerAddress .netcache srv worker := by
  intro heq
  have hpar := parId_lt numWorkers key h hmax
  have hport := congrArg (fun a => a.2.toNat) heq
  simp only [txDestination, destination, workerAddress, workerPort, workerBasePort,
    netcacheBasePort, orbitcacheBasePort, BitVec.toNat_ofNat] at hport
  simp only [maxWorkers] at hmax
  omega

/-- Except for NetCache the client uses the base port of the workers, so the address is that of the
worker of the key's partition. -/
theorem txDestination_eq {protocolId : Protocol} (h : protocolId ≠ .netcache) (numWorkers : Nat)
    (key : Bytes) :
    txDestination protocolId numWorkers key =
      workerAddress protocolId (dstAddr key) (parId numWorkers key).toNat := by
  cases protocolId with
  | nocache | orbitcache => rfl
  | netcache => exact absurd rfl h

/-- Requests reach the partition that owns the key exactly when the protocol is not NetCache, whose
workers are bound to the ports of OrbitCache while its client sends to those of NetCache. It holds
of every item and for every number of workers. -/
theorem reachesOwner_iff (protocolId : Protocol) (numWorkers n : Nat) (h : 0 < numWorkers)
    (hmax : numWorkers ≤ maxWorkers) (hn : n < datasetSize) :
    ReachesOwner protocolId numWorkers n ↔ protocolId ≠ .netcache := by
  constructor
  · rintro ⟨srv, -, worker, hworker, -, -, htx, -⟩ rfl
    exact netcache_port_ne h hmax hworker srv _ htx
  · intro hproto
    let key := tostringKey (BitVec.ofNat 64 n)
    have howner :
        key ∈ partitionKeys numWorkers (dstIp (dstAddr key)) (parId numWorkers key).toNat :=
      (mem_partitionKeys (dstAddr_lt _) hn).2 ⟨rfl, rfl⟩
    refine ⟨_, dstAddr_lt _, _, parId_lt numWorkers _ h hmax,
      List.count_eq_one_of_mem (partitionKeys_nodup _ _ _) howner, ?_,
      txDestination_eq hproto _ _, ?_⟩
    · intro srv' hsrv' worker' _ hmem
      obtain ⟨hsrv, hworker⟩ := (mem_partitionKeys hsrv' hn).1 hmem
      exact ⟨hsrv.symm, hworker.symm⟩
    · rintro rfl
      rfl

/-- The requests of an OrbitCache client for item 5 reach their worker. -/
theorem reachesOwner_orbitcache : Protocol.orbitcache ≠ .netcache ∧ ReachesOwner .orbitcache 8 5 :=
  have hproto : Protocol.orbitcache ≠ .netcache := by decide
  ⟨hproto, (reachesOwner_iff .orbitcache 8 5 (by decide) (by decide) (by decide)).2 hproto⟩

/-- With eight workers the requests of a NetCache client for item 0 reach no worker. -/
theorem not_reachesOwner_netcache : ¬ ReachesOwner .netcache 8 0 := by
  rintro ⟨srv, -, worker, hworker, -, -, htx, -⟩
  exact netcache_port_ne (by decide) (by decide) hworker srv _ htx

end OrbitCache
