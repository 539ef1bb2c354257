import OrbitCache.Host.Placement
import OrbitCache.System.State

/-!
# The cluster

The laws of a deployment whose hosts and ports are in the controller's tables (`Deployment.Wired`),
and the deployment `controller.py` and `header.h` describe: its forwarding, recirculation, multicast
and MAC tables, the hash functions and the sockets of workers and clients.
-/

namespace OrbitCache

/-- What the controller's tables say about the hosts and ports that are used: the laws that the
results about runs assume, which the tables of the repository satisfy. -/
structure Deployment.Wired (D : Deployment) : Prop where
  /-- Every listed port recirculates on the one recirculation port. -/
  entry : ∀ port e, D.tables.readCacheRecirculationPort port = some e → e = (D.recirc, 0)
  recirc_listed : D.tables.readCacheRecirculationPort D.recirc = some (D.recirc, 0)
  /-- A host is not on the recirculation port, and its multicast group is its port and that one. -/
  host : ∀ ip port, D.tables.ipv4Exact ip = some port → port ≠ D.recirc ∧
    ∃ g, g ≠ 0 ∧ D.tables.getCrecircId ip 0 = some g ∧ D.tables.getCrecircId2 ip 0 = some g ∧
      D.tables.mgid g = [port, D.recirc]
  dest_server : ∀ key, D.isServer (D.dest key) = true
  server_ingress : ∀ ep, D.isServer ep = true → (D.tables.ingress ep.ip).isSome = true
  client_ingress : ∀ ep, D.isClient ep = true → (D.tables.ingress ep.ip).isSome = true
  /-- Workers and clients bind to ports the parser knows. -/
  server_port : ∀ ep, D.isServer ep = true → orbitcachePort ep.port = true
  client_port : ∀ ep, D.isClient ep = true → orbitcachePort ep.port = true
  disjoint : ∀ ep, D.isServer ep = true → D.isClient ep = false

/-! ## The tables of the controller -/

namespace Controller

/-- `ip_list`. -/
def ipList : List (BitVec 32) :=
  [0x0A000165, 0x0A000166, 0x0A000167, 0x0A000168, 0x0A000169, 0x0A00016A, 0x0A00016B, 0x0A00016C,
   0x0A000179, 0x0A00017A, 0x0A00017B, 0x0A00017C, 0x0A00017D, 0x0A00017E, 0x0A000183, 0x0A000184,
   0x0A000185, 0x0A00016F]

/-- `port_list`. -/
def portList : List (BitVec 9) :=
  [48, 52, 0, 4, 16, 20, 32, 36, 40, 24, 28, 444, 440, 428, 12, 8, 44, 64]

/-- `mac_list`. -/
def macList : List (BitVec 48) :=
  [0x0c42a12f12e6, 0x0c42a12f11c6, 0x1070fd1cd4b8, 0x1070fd0dd54c, 0x1070fd1ccab8, 0x1070fd1ccab4,
   0x1070fd1cc2c8, 0x1070fd1cd40c, 0x1070fd1ccabc, 0x1070fd31e86c, 0x1070fd0dd4bc, 0x1070fdb37aa6,
   0x1070fdb34d9e, 0x1070fde55ad8, 0x1070fde55ac0, 0x1070fde7bdc4, 0x1070fde55b20, 0x84c78f036d82]

/-- `dps_0`, the ports that recirculate, with the port of the controller appended as the controller
does. -/
def dps0 : List (BitVec 9) :=
  [48, 52, 0, 4, 16, 20, 32, 36, 60, 12, 8, 28, 24, 44, 40, 56, 68, 64]

/-- `C_RECIRC_PRT_0`. -/
abbrev cRecircPrt0 : BitVec 9 := 56

/-- The multicast groups of the hosts: the position of the host in `ip_list`, from 1 on. -/
def recircIds : List (BitVec 16) :=
  (List.range ipList.length).map fun i => BitVec.ofNat 16 (i + 1)

/-- The tables the controller fills before it installs keys. A miss is `none`, and a multicast group
that was not created has no ports. -/
def tables : Tables where
  ipv4Exact ip := (ipList.zip portList).lookup ip
  cacheLookup _ := none
  readCacheRecirculationPort dp := if dp ∈ dps0 then some (cRecircPrt0, 0) else none
  getCrecircId ip pnum := if pnum = 0 then (ipList.zip recircIds).lookup ip else none
  getCrecircId2 ip pnum := if pnum = 0 then (ipList.zip recircIds).lookup ip else none
  updateDstMAC ip := (ipList.zip macList).lookup ip
  mgid g := ((recircIds.zip portList).lookup g).toList.flatMap fun port => [port, cRecircPrt0]

end Controller

/-- The deployment of the repository, with `numWorkers` workers on each server and a client on every
other host. Keys are hashed and sent to the servers as the client program does. -/
def cluster (numWorkers : Nat) : Deployment where
  tables := Controller.tables
  recirc := Controller.cRecircPrt0
  hash key := (hash64Str key, hash64Str2 key)
  dest key :=
    let a := txDestination .orbitcache numWorkers key
    ⟨a.1, a.2⟩
  isServer ep := (List.range numSrv).any fun srv => (List.range numWorkers).any fun worker =>
    ep == ⟨dstIp srv, workerPort .orbitcache worker⟩
  isClient ep := ep.port == BitVec.ofNat 16 orbitcacheBasePort &&
    !((List.range numSrv).any fun srv => ep.ip == dstIp srv) &&
    (Controller.tables.ingress ep.ip).isSome

/-- The sockets of the workers are the addresses of the servers with one port for each worker. -/
theorem cluster_isServer {numWorkers : Nat} {ep : Endpoint} :
    (cluster numWorkers).isServer ep = true ↔
      ∃ srv < numSrv, ∃ worker < numWorkers, ep = ⟨dstIp srv, workerPort .orbitcache worker⟩ := by
  simp only [cluster, List.any_eq_true, List.mem_range, beq_iff_eq]

/-- An entry of the forwarding table has a multicast group with its port and the recirculation port.
It is decided entry by entry. -/
theorem host_entry : ((Controller.ipList.zip Controller.portList).all fun e =>
    decide (e.2 ≠ Controller.cRecircPrt0) && Controller.recircIds.any fun g =>
      decide (g ≠ 0) && decide (Controller.tables.getCrecircId e.1 0 = some g) &&
      decide (Controller.tables.getCrecircId2 e.1 0 = some g) &&
      decide (Controller.tables.mgid g = [e.2, Controller.cRecircPrt0])) = true := by
  decide +kernel

/-- The servers are wired: each of their addresses has a port that the forwarding table knows. -/
theorem server_ingress :
    ∀ srv < numSrv, (Controller.tables.ingress (dstIp srv)).isSome = true := by
  decide +kernel

/-- The controller's tables and the sockets of the programs satisfy the laws, for every number of
workers a server may be started with. -/
theorem cluster_wired {numWorkers : Nat} (h : 0 < numWorkers) (hmax : numWorkers ≤ maxWorkers) :
    (cluster numWorkers).Wired where
  entry port e he := by
    simp only [cluster, Controller.tables] at he
    split at he
    · exact (Option.some.inj he).symm
    · cases he
  recirc_listed := show Controller.tables.readCacheRecirculationPort Controller.cRecircPrt0 =
    some (Controller.cRecircPrt0, 0) by decide
  host ip port hport := by
    obtain ⟨_, _, hzip, _⟩ := List.lookup_eq_some_iff.1 hport
    have hmem : (ip, port) ∈ Controller.ipList.zip Controller.portList := by
      rw [hzip]
      exact List.mem_append_right _ List.mem_cons_self
    have hentry := List.all_eq_true.1 host_entry (ip, port) hmem
    simp only [Bool.and_eq_true, List.any_eq_true, decide_eq_true_eq] at hentry
    obtain ⟨hne, g, -, ⟨⟨hg, hg1⟩, hg2⟩, hmgid⟩ := hentry
    exact ⟨hne, g, hg, hg1, hg2, hmgid⟩
  dest_server key := cluster_isServer.2 ⟨_, dstAddr_lt key, _, parId_lt numWorkers key h hmax,
    congrArg (fun a => Endpoint.mk a.1 a.2) (txDestination_eq (by decide) numWorkers key)⟩
  server_ingress ep hep := by
    obtain ⟨srv, hsrv, _, _, rfl⟩ := cluster_isServer.1 hep
    exact server_ingress srv hsrv
  client_ingress ep hep := by
    simp only [cluster, Bool.and_eq_true] at hep
    exact hep.2
  server_port ep hep := by
    obtain ⟨_, _, worker, hworker, rfl⟩ := cluster_isServer.1 hep
    simp only [orbitcachePort, workerPort, workerBasePort, orbitcacheBasePort, BitVec.toNat_ofNat,
      Bool.and_eq_true, decide_eq_true_eq]
    simp only [maxWorkers] at hmax
    omega
  client_port ep hep := by
    simp only [cluster, Bool.and_eq_true, beq_iff_eq] at hep
    rw [hep.1.1]
    decide
  disjoint ep hep := by
    obtain ⟨srv, hsrv, _, _, rfl⟩ := cluster_isServer.1 hep
    have hany : ((List.range numSrv).any fun s => dstIp srv == dstIp s) = true :=
      List.any_eq_true.2 ⟨srv, List.mem_range.2 hsrv, beq_self_eq_true _⟩
    simp [cluster, hany]

/-! ## The cluster at its start -/

/-- Workers with the value "A" for every key, none of which has been written yet. -/
def fullWorkers : Endpoint → Worker := fun _ => ⟨fun _ => some [byteA], fun _ => 0⟩

/-- The cluster before the first message, after its switch was just started and the static table was
installed. -/
def clusterStart : State where
  regs := Controller.zeroRegisters
  lookup := Controller.staticTable
  loop := []
  wire := []
  uplink := []
  workers := fullWorkers
  clients := fun _ => .init
  trace := []
  sent := []
  receipts := []

/-- It is the start of a run from zeroed registers. -/
theorem clusterStart_eq :
    State.start Controller.zeroRegisters Controller.staticTable fullWorkers = clusterStart := by
  rw [State.start, Controller.initRegisters_zeroRegisters, clusterStart]

/-- The latest of the installed keys, which has the last index. -/
def hotKey : Bytes := tostringKey 127

/-- The socket of a client. -/
def clientA : Endpoint := ⟨0x0A000165, BitVec.ofNat 16 orbitcacheBasePort⟩

/-- The install packet of the key, with the value "A", as the controller program sends it. -/
def preloadHotKey : Action := .preload clientA.ip (dstIp 0) hotKey [byteA]

end OrbitCache
