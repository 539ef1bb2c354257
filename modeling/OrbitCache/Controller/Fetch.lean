import OrbitCache.Host.Message
import OrbitCache.Host.Placement
import OrbitCache.Controller.Key

/-!
# Fetches

The `OP_FETCH` the dynamic controller sends for a key it installs, and where it sends it. It
recomputes the placement of the hosts (`OrbitCache.Host.Placement`) with Python's integers and a
base port of its own.
-/

namespace OrbitCache.Controller

/-- `ORBITCACHE_BASE_PORT` of `controller.py`, which is not the constant of that name in `header.h`.
-/
abbrev orbitcacheBasePort : Nat := 1000

/-- `dst_ip` of `controller.py`: the four servers, in the order in which the keys are spread over
them. -/
def dstIp (i : Nat) : BitVec 32 := [0x0A00016C, 0x0A00016B, 0x0A00016A, 0x0A000169].getD i 0

/-- `PAR_ID`: the partition of a key, computed from the half of its hash. -/
def parId (numSrvWorkers : Nat) (key : Str) : Nat := (hash64Hi key + 0x12345678) % numSrvWorkers

/-- The host and the port of a fetch, as `sendto` gets them. -/
def fetchDestination (numSrvWorkers : Nat) (key : Str) : BitVec 32 × Nat :=
  (dstIp (fnv116Str key % numSrv), orbitcacheBasePort + parId numSrvWorkers key)

/-- The bytes of an ASCII string, which a worker computes its partition of a key from. -/
def encode (key : Str) : Bytes := key.map fun c => BitVec.ofNat 8 c.toNat

/-- A 64-bit field that `struct.pack` wrote with its low byte first, as the switch reads it: in
network order, so with its bytes exchanged. -/
def packed (x : BitVec 64) : BitVec 64 :=
  (List.range 8).foldl (fun acc i => (acc <<< 8) ||| ((x >>> (8 * i)) &&& 0xFF)) 0

/-- The packet of `send_udp_message`. Its hash keys are the ones that the switch finds in it. -/
def fetchMessage (src dst : Endpoint) (key : Str) : Message :=
  datagram src dst
    { op := opFetch
      seq := 0
      hkeyHi := packed (hkey key).1
      hkeyLo := packed (hkey key).2
      flag := 0
      cached := 0
      latency := 0 }
    { orgKey := encode key, value := [], tag := ⟨0, [], 0⟩ }

/-- A fetch goes to the address of the OrbitCache worker whose partition contains the key. -/
def FetchReachesOwner (numSrvWorkers : Nat) (key : Str) : Prop :=
  ∃ srv < numSrv, ∃ worker < numSrvWorkers,
    inPartition numSrvWorkers (OrbitCache.dstIp srv) worker (encode key) = true ∧
    (fetchDestination numSrvWorkers key).1 = OrbitCache.dstIp srv ∧
    (fetchDestination numSrvWorkers key).2 = (workerPort .orbitcache worker).toNat

/-- The ports of fetches are below those of the workers, whatever the key is: at most 16 workers
listen from port 3000 on. -/
theorem fetchDestination_lt {numSrvWorkers : Nat} (h : 0 < numSrvWorkers)
    (hmax : numSrvWorkers ≤ maxWorkers) (key : Str) {worker : Nat}
    (hworker : worker < numSrvWorkers) :
    (fetchDestination numSrvWorkers key).2 < (workerPort .orbitcache worker).toNat := by
  have hpar : parId numSrvWorkers key < numSrvWorkers := Nat.mod_lt _ h
  simp only [fetchDestination, workerPort, workerBasePort, orbitcacheBasePort,
    OrbitCache.orbitcacheBasePort, BitVec.toNat_ofNat]
  simp only [maxWorkers] at hmax
  omega

/-- No fetch reaches the owner of its key: the controller's base port is not the one the workers are
bound to. Fetches go to ports from 1000 on, and at most 16 workers listen from port 3000 on. -/
theorem not_fetchReachesOwner (numSrvWorkers : Nat) (h : 0 < numSrvWorkers)
    (hmax : numSrvWorkers ≤ maxWorkers) (key : Str) : ¬ FetchReachesOwner numSrvWorkers key := by
  rintro ⟨srv, -, worker, hworker, -, -, hport⟩
  exact Nat.ne_of_lt (fetchDestination_lt h hmax key hworker) hport

/-- With eight workers the fetch of item 0 goes to a port below 3000, where no worker listens. -/
theorem not_fetchReachesOwner_eight :
    0 < 8 ∧ 8 ≤ maxWorkers ∧ ¬ FetchReachesOwner 8 (tostringKey 0) :=
  ⟨by decide, by decide, not_fetchReachesOwner 8 (by decide) (by decide) (tostringKey 0)⟩

/-- The fetch of the key `A` with one worker does not reach its owner. -/
theorem not_fetchReachesOwner_A : ¬ FetchReachesOwner 1 ['A'] := by
  rintro ⟨srv, -, worker, hworker, -, -, hport⟩
  exact Nat.ne_of_lt (fetchDestination_lt (by decide) (by decide) ['A'] hworker) hport

end OrbitCache.Controller
