import Mathlib.Logic.Function.Basic
import OrbitCache.Switch.Packet

/-!
# The ingress control

`SwitchIngress` of `orbitcache.p4`: its registers, actions and tables, the `apply` block, and what
the traffic manager makes of the metadata it leaves. Each definition is a function on the state of
the pipeline; a table of size one whose only action is its default action is that action. A packet
runs through the control atomically and starts with zero metadata.
-/

namespace OrbitCache

/-! ## Registers -/

/-- A register array, by its 32-bit index. It is total: the sizes of the arrays are not modelled
here, but as bounds on the indices that are used. -/
abbrev Register (w : Nat) : Type := BitVec 32 → BitVec w

/-- A `RegisterAction`: from the register's value, its new value and the value returned. The
hardware does both in one step. -/
abbrev RegisterAction (w : Nat) : Type := BitVec w → BitVec w × BitVec w

namespace RegisterAction

variable {w : Nat}

/-- `execute`: the action at one index. Every other cell keeps its value, which is all that isolates
the keys from each other. -/
def execute (a : RegisterAction w) (r : Register w) (i : BitVec 32) : Register w × BitVec w :=
  (Function.update r i (a (r i)).1, (a (r i)).2)

/-- `update_clientIP`, `update_UDPPort`, `update_seq`, `update_latency`: overwrite the cell; the
value returned is not used. -/
def overwrite (v : BitVec w) : RegisterAction w := fun _ => (v, 0)

/-- `get_clientIP`, `get_UDPPort`, `get_seq`, `get_latency`: read the cell and clear it to `EMPTY`.
-/
def take : RegisterAction w := fun v => (0, v)

/-- `inc_cache_counter`, `inc_total_cache`, `inc_miss_counter`: add one, modulo `2 ^ 32`. -/
def count : RegisterAction w := fun v => (v + 1, 0)

/-- `read_cacheState`: the state of the index, which stays as it is. -/
def readCacheState : RegisterAction w := fun v => (v, v)

/-- `incr_ptr_rear` and `incr_ptr_front`: return the pointer and advance it, back to 0 at the end of
the queue. -/
def incrPtr : RegisterAction 32 := fun v =>
  (if v = BitVec.ofNat 32 (maxQueueSizePerKey - 1) then 0 else v + 1, v)

/-- `incr_qlen`: 0 when the queue is full, else the new length. The control takes the value for a
test: a READ is admitted when it is positive. -/
def incrQlen : RegisterAction 16 := fun v =>
  if v = BitVec.ofNat 16 maxQueueSizePerKey then (v, 0) else (v + 1, v + 1)

/-- `decr_qlen`: the old length; the register stops at 0. A cache packet serves a READ when the
value is positive. -/
def decrQlen : RegisterAction 16 := fun v => (if v > 0 then v - 1 else v, v)

/-- Overwriting one cell is an update of the array. -/
@[simp] theorem overwrite_execute (v : BitVec w) (r : Register w) (i : BitVec 32) :
    (overwrite v).execute r i = (Function.update r i v, 0) := rfl

/-- Taking a cell is an update with `EMPTY`, and the value is the one that was there. -/
@[simp] theorem take_execute (r : Register w) (i : BitVec 32) :
    take.execute r i = (Function.update r i 0, r i) := rfl

/-- Counting at one index is an update of its cell. -/
@[simp] theorem count_execute (r : Register w) (i : BitVec 32) :
    count.execute r i = (Function.update r i (r i + 1), 0) := rfl

/-- Advancing a pointer gives the place it had, which is the slot that the packet uses. -/
@[simp] theorem incrPtr_execute (r : Register 32) (i : BitVec 32) :
    incrPtr.execute r i = (Function.update r i (incrPtr (r i)).1, r i) := rfl

/-- Reading the state leaves the register as it was. -/
@[simp] theorem readCacheState_execute (r : Register 8) (i : BitVec 32) :
    readCacheState.execute r i = (r, r i) := by
  simp [execute, readCacheState]

/-- A full queue stays as it is, and the packet learns it from the value 0. -/
theorem incrQlen_execute_full {r : Register 16} {i : BitVec 32}
    (h : r i = BitVec.ofNat 16 maxQueueSizePerKey) : incrQlen.execute r i = (r, 0) := by
  rw [execute, incrQlen, if_pos h, Function.update_eq_self]

/-- A queue with room grows by one, and the packet gets the new length. -/
theorem incrQlen_execute_room {r : Register 16} {i : BitVec 32}
    (h : r i ≠ BitVec.ofNat 16 maxQueueSizePerKey) :
    incrQlen.execute r i = (Function.update r i (r i + 1), r i + 1) := by
  rw [execute, incrQlen, if_neg h]

/-- An empty queue stays as it is, so the length cannot wrap below 0. -/
theorem decrQlen_execute_empty {r : Register 16} {i : BitVec 32} (h : r i = 0) :
    decrQlen.execute r i = (r, 0) := by
  rw [execute, decrQlen, if_neg (by rw [h]; decide), Function.update_eq_self, h]

/-- A queue that is not empty shrinks by one, and the packet gets the old length. -/
theorem decrQlen_execute_pos {r : Register 16} {i : BitVec 32} (h : r i ≠ 0) :
    decrQlen.execute r i = (Function.update r i (r i - 1), r i) := by
  have hpos : r i > 0 := by bv_omega
  rw [execute, decrQlen, if_pos hpos]

end RegisterAction

/-- The registers the `apply` block reaches. `total_cache` and `miss_counter` have one cell; the
first three arrays are indexed by a cache index, the others by a pointer or by a slot of the request
table. -/
structure Registers where
  totalCache : BitVec 32
  missCounter : BitVec 32
  cacheState : Register 8
  cacheCounter : Register 32
  ptrRear : Register 32
  ptrFront : Register 32
  qlen : Register 16
  clientIP : Register 32
  udpPort : Register 16
  seq : Register 32
  latency : Register 32

/-! ## Metadata and tables -/

/-- `YES`, the value of `isCached` on a hit in `cacheLookup_table`. -/
abbrev yes : BitVec 32 := 1
/-- `NO`, the value of `isCached` on a miss. -/
abbrev no : BitVec 32 := 0
/-- `INVALID`: the value of a cached key is being written, and its READs go to the server. -/
abbrev invalid : BitVec 8 := 0
/-- `VALID`: there is a cache packet of the key, and its READs wait for it. -/
abbrev valid : BitVec 8 := 1

/-- `metadata_t`, the scratch space of one packet. It starts as zero, so index 0 and group 0 are
what a packet has that no table has matched. -/
structure Metadata where
  isCached : BitVec 32
  cacheState : BitVec 8
  requestIdx : BitVec 32
  offset : BitVec 32
  cacheIdx : BitVec 32
  crecircId : BitVec 16
  cacheRecirculationPort : BitVec 9
  pipeNum : BitVec 4
  qlen : BitVec 16

/-- The fields of `ig_tm_md` that the control sets: where the traffic manager sends the packet. -/
structure TmMd where
  ucastEgressPort : Option (BitVec 9)
  mcastGrpA : BitVec 16
  rid : BitVec 16

/-- The state of the pipeline while a packet is in it: the headers, the metadata and the registers,
which the next packet finds as this one leaves them. -/
structure Ingress where
  hdr : HeaderT
  igMd : Metadata
  regs : Registers
  dropCtl : BitVec 3
  igTmMd : TmMd

/-- The entries of the match-action tables, by match key, and the ports of the multicast groups. The
controller fills them; a packet only reads them. -/
structure Tables where
  ipv4Exact : BitVec 32 → Option (BitVec 9)
  cacheLookup : Hkey → Option (BitVec 32)
  readCacheRecirculationPort : BitVec 9 → Option (BitVec 9 × BitVec 4)
  getCrecircId : BitVec 32 → BitVec 4 → Option (BitVec 16)
  getCrecircId2 : BitVec 32 → BitVec 4 → Option (BitVec 16)
  updateDstMAC : BitVec 32 → Option (BitVec 48)
  mgid : BitVec 16 → List (BitVec 9)

namespace Ingress

/-! ## Actions and tables -/

/-- The pipeline when the parser is done: zero metadata, nothing dropped and no egress port. -/
def start (hdr : HeaderT) (regs : Registers) : Ingress :=
  ⟨hdr, ⟨0, 0, 0, 0, 0, 0, 0, 0, 0⟩, regs, 0, ⟨none, 0, 0⟩⟩

/-- `drop`: set bit 0 of `drop_ctl`. It is a bit that a later action can clear again, and two of
them do. -/
def drop (x : Ingress) : Ingress := { x with dropCtl := 1 }

/-- `ipv4_forward`: the unicast egress port. It does not clear `drop_ctl`. -/
def ipv4Forward (port : BitVec 9) (x : Ingress) : Ingress :=
  { x with igTmMd.ucastEgressPort := some port }

/-- `ipv4_exact`, which routes by the destination address; a miss drops. -/
def ipv4Exact (t : Tables) (x : Ingress) : Ingress :=
  match t.ipv4Exact x.hdr.ipv4.dstAddr with
  | some port => ipv4Forward port x
  | none => drop x

/-- `msg_cloning_table` and `msg_cloning_table2`: a copy for each port of the group, and whatever
has dropped the packet before is undone. -/
def msgCloningAction (x : Ingress) : Ingress :=
  { x with dropCtl := 0, igTmMd.rid := 1, igTmMd.mcastGrpA := x.igMd.crecircId }

/-- `cacheLookup_table`: whether the key is cached, and at which index. After a miss the index is
the zero of the metadata. -/
def cacheLookupTable (t : Tables) (x : Ingress) : Ingress :=
  match t.cacheLookup x.hdr.orbitcache.hkey with
  | some idx => { x with igMd.isCached := yes, igMd.cacheIdx := idx }
  | none => { x with igMd.isCached := no }

/-- `read_CacheRecirculationPort_table`: the recirculation port and the pipe of the ingress port; a
miss drops and leaves both 0. -/
def readCacheRecirculationPortTable (t : Tables) (ingressPort : BitVec 9) (x : Ingress) : Ingress :=
  match t.readCacheRecirculationPort ingressPort with
  | some (port, pnum) => { x with igMd.cacheRecirculationPort := port, igMd.pipeNum := pnum }
  | none => drop x

/-- `get_Crecirc_id_table`: the multicast group of the client that is answered; a miss drops and
leaves the group at 0. -/
def getCrecircIdTable (t : Tables) (x : Ingress) : Ingress :=
  match t.getCrecircId x.hdr.ipv4.dstAddr x.igMd.pipeNum with
  | some g => { x with igMd.crecircId := g }
  | none => drop x

/-- `get_Crecirc_id_table2`: the same for a W_REPLY or an F_REPLY, which goes to its own destination
and to the recirculation port. -/
def getCrecircIdTable2 (t : Tables) (x : Ingress) : Ingress :=
  match t.getCrecircId2 x.hdr.ipv4.dstAddr x.igMd.pipeNum with
  | some g => { x with igMd.crecircId := g }
  | none => drop x

/-- `update_dstMAC_table`: the MAC address of the client that is answered; a miss does nothing, so
the address of the cache packet stays. -/
def updateDstMACTable (t : Tables) (x : Ingress) : Ingress :=
  match t.updateDstMAC x.hdr.ipv4.dstAddr with
  | some mac => { x with hdr.ethernet.dstAddr := mac }
  | none => x

/-- `read_cacheState_action`: the state at the index of the key goes to the metadata. -/
def readCacheStateAction (x : Ingress) : Ingress :=
  let r := RegisterAction.readCacheState.execute x.regs.cacheState x.igMd.cacheIdx
  { x with regs.cacheState := r.1, igMd.cacheState := r.2 }

/-- `valid_cacheState_action`: a W_REPLY or F_REPLY of a cached key brings its value. -/
def validCacheStateAction (x : Ingress) : Ingress :=
  let r := (RegisterAction.overwrite valid).execute x.regs.cacheState x.igMd.cacheIdx
  { x with regs.cacheState := r.1 }

/-- `invalid_cacheState_action`: a WRITE of a cached key makes the value that circulates an old one.
-/
def invalidCacheStateAction (x : Ingress) : Ingress :=
  let r := (RegisterAction.overwrite invalid).execute x.regs.cacheState x.igMd.cacheIdx
  { x with regs.cacheState := r.1 }

/-- `inc_cache_counter_action`: the READs of this key, by which the controller ranks the cached
keys. -/
def incCacheCounterAction (x : Ingress) : Ingress :=
  let r := RegisterAction.count.execute x.regs.cacheCounter x.igMd.cacheIdx
  { x with regs.cacheCounter := r.1 }

/-- `inc_total_cache_action`: the READs of all cached keys, in one cell. -/
def incTotalCacheAction (x : Ingress) : Ingress :=
  { x with regs.totalCache := (RegisterAction.count x.regs.totalCache).1 }

/-- `inc_miss_counter_action`: a READ that did not find room is counted and marked, for the client
to count it too. -/
def incMissCounterAction (x : Ingress) : Ingress :=
  { x with
    regs.missCounter := (RegisterAction.count x.regs.missCounter).1
    hdr.orbitcache.cached := missed }

/-- `incr_qlen_action`: the length of the queue of the key, if there is room, and what it says of
that. -/
def incrQlenAction (x : Ingress) : Ingress :=
  let r := RegisterAction.incrQlen.execute x.regs.qlen x.igMd.cacheIdx
  { x with regs.qlen := r.1, igMd.qlen := r.2 }

/-- `decr_qlen_action`: the length of the queue of the key, and whether a READ was pending. -/
def decrQlenAction (x : Ingress) : Ingress :=
  let r := RegisterAction.decrQlen.execute x.regs.qlen x.igMd.cacheIdx
  { x with regs.qlen := r.1, igMd.qlen := r.2 }

/-- `incr_ptr_rear_action`: the slot behind the last entry, and the rear pointer behind that. The
slots of an index start at the index times the size of a queue. -/
def incrPtrRearAction (x : Ingress) : Ingress :=
  let r := RegisterAction.incrPtr.execute x.regs.ptrRear x.igMd.cacheIdx
  { x with
    regs.ptrRear := r.1
    igMd.offset := r.2
    igMd.requestIdx := x.igMd.cacheIdx <<< numBitshift }

/-- `incr_ptr_front_action`: the slot of the oldest entry, and the front pointer behind that. -/
def incrPtrFrontAction (x : Ingress) : Ingress :=
  let r := RegisterAction.incrPtr.execute x.regs.ptrFront x.igMd.cacheIdx
  { x with
    regs.ptrFront := r.1
    igMd.offset := r.2
    igMd.requestIdx := x.igMd.cacheIdx <<< numBitshift }

/-- `ig_md.requestIdx = ig_md.requestIdx + ig_md.offset`: the flat index of the slot. -/
def addOffset (x : Ingress) : Ingress :=
  { x with igMd.requestIdx := x.igMd.requestIdx + x.igMd.offset }

/-- `update_clientIP_action`: the address that the answer will go to. -/
def updateClientIPAction (x : Ingress) : Ingress :=
  let r := (RegisterAction.overwrite x.hdr.ipv4.srcAddr).execute x.regs.clientIP x.igMd.requestIdx
  { x with regs.clientIP := r.1 }

/-- `update_UDPPort_action`: the port that the answer will go to. -/
def updateUDPPortAction (x : Ingress) : Ingress :=
  let r := (RegisterAction.overwrite x.hdr.udp.srcPort).execute x.regs.udpPort x.igMd.requestIdx
  { x with regs.udpPort := r.1 }

/-- `update_seq_action`: the sequence number by which the client knows its request again. -/
def updateSeqAction (x : Ingress) : Ingress :=
  let r := (RegisterAction.overwrite x.hdr.orbitcache.seq).execute x.regs.seq x.igMd.requestIdx
  { x with regs.seq := r.1 }

/-- `update_latency_action`: the time stamp of the client. -/
def updateLatencyAction (x : Ingress) : Ingress :=
  let r := (RegisterAction.overwrite x.hdr.orbitcache.latency).execute x.regs.latency
    x.igMd.requestIdx
  { x with regs.latency := r.1 }

/-- `get_clientIP_action`: the cache packet goes to the address of the oldest entry. -/
def getClientIPAction (x : Ingress) : Ingress :=
  let r := RegisterAction.take.execute x.regs.clientIP x.igMd.requestIdx
  { x with regs.clientIP := r.1, hdr.ipv4.dstAddr := r.2 }

/-- `get_UDPPort_action`: the cache packet goes to the port of the oldest entry. -/
def getUDPPortAction (x : Ingress) : Ingress :=
  let r := RegisterAction.take.execute x.regs.udpPort x.igMd.requestIdx
  { x with regs.udpPort := r.1, hdr.udp.dstPort := r.2 }

/-- `get_seq_action`: the cache packet carries the sequence number of the oldest entry. -/
def getSeqAction (x : Ingress) : Ingress :=
  let r := RegisterAction.take.execute x.regs.seq x.igMd.requestIdx
  { x with regs.seq := r.1, hdr.orbitcache.seq := r.2 }

/-- `get_latency_action`: the cache packet carries the time stamp of the oldest entry. -/
def getLatencyAction (x : Ingress) : Ingress :=
  let r := RegisterAction.take.execute x.regs.latency x.igMd.requestIdx
  { x with regs.latency := r.1, hdr.orbitcache.latency := r.2 }

/-! ## The apply block -/

/-- A READ that was admitted to the queue: its four fields are written at the rear, and the packet
itself is dropped, as nothing more is needed of it. -/
def enqueue (x : Ingress) : Ingress :=
  drop <| updateLatencyAction <| updateSeqAction <| updateUDPPortAction <| updateClientIPAction <|
    addOffset <| incrPtrRearAction x

/-- A cache packet that found a pending read: it takes the four fields at the front and is cloned
towards the client and the recirculation port. -/
def dequeue (t : Tables) (x : Ingress) : Ingress :=
  msgCloningAction <| getCrecircIdTable t <| updateDstMACTable t <| getLatencyAction <|
    getSeqAction <| getUDPPortAction <| getClientIPAction <| addOffset <| incrPtrFrontAction x

/-- The `OP_READ` branch, after the state of a cached key was read. The counters come before the
tests of the state and of the length, so they count every READ of a cached key. -/
def applyRead (t : Tables) (x : Ingress) : Ingress :=
  let x := if x.igMd.isCached = yes then incTotalCacheAction (incCacheCounterAction x) else x
  if x.igMd.cacheState = valid then
    let x := incrQlenAction x
    if x.igMd.qlen > 0 then enqueue x else ipv4Exact t (incMissCounterAction x)
  else if x.igMd.cacheState = invalid then ipv4Exact t { x with dropCtl := 0 }
  else x

/-- The `OP_R_REPLY` branch, after the state of a cached key was read: a cache packet answers the
oldest READ or goes on circulating, and that of an INVALID key is dropped; a reply of a server is
routed. -/
def applyRReply (t : Tables) (ingressPort : BitVec 9) (x : Ingress) : Ingress :=
  let x := { x with hdr.udp.checksum := 0 }
  if ingressPort = x.igMd.cacheRecirculationPort then
    if x.igMd.cacheState = valid then
      let x := decrQlenAction x
      if x.igMd.qlen > 0 then dequeue t x
      else { x with igTmMd.ucastEgressPort := some ingressPort }
    else if x.igMd.cacheState = invalid then drop x
    else x
  else ipv4Exact t x

/-- The `OP_WRITE` branch: a cached key becomes INVALID, and the flag asks the server for the new
value. -/
def applyWrite (t : Tables) (x : Ingress) : Ingress :=
  let x := if x.igMd.isCached = yes then
      { invalidCacheStateAction x with hdr.orbitcache.flag := fetching }
    else x
  ipv4Exact t x

/-- The `OP_W_REPLY` and `OP_F_REPLY` branch: a cached key becomes VALID, and the packet is cloned
to its receiver and to the recirculation port. -/
def applyWReply (t : Tables) (x : Ingress) : Ingress :=
  if x.igMd.isCached = yes then
    msgCloningAction (getCrecircIdTable2 t (validCacheStateAction x))
  else ipv4Exact t x

/-- A packet that entered on its pipe's recirculation port is an R_REPLY, whatever it was: clones of
W_REPLYs and F_REPLYs come back as cache packets. -/
def rewriteOp (ingressPort : BitVec 9) (x : Ingress) : Ingress :=
  if x.hdr.orbitcache.op ≠ opRReply ∧ ingressPort = x.igMd.cacheRecirculationPort then
    { x with hdr.orbitcache.op := opRReply }
  else x

/-- The steps every OrbitCache packet takes before it is dispatched on its operation: the state
starts as INVALID, and only a cached key gets another one later. -/
def lookupBlock (t : Tables) (ingressPort : BitVec 9) (x : Ingress) : Ingress :=
  rewriteOp ingressPort <| cacheLookupTable t <| readCacheRecirculationPortTable t ingressPort
    { x with igMd.cacheState := invalid, hdr.udp.checksum := 0 }

/-- The `apply` block of `SwitchIngress`, with the branches in the order of the source. Any other
packet is routed as an IPv4 packet. -/
def apply (t : Tables) (ingressPort : BitVec 9) (x : Ingress) : Ingress :=
  if x.hdr.orbitcacheValid then
    let x := lookupBlock t ingressPort x
    if x.hdr.orbitcache.op = opCrctn ∨ x.hdr.orbitcache.op = opFetch then ipv4Exact t x
    else if x.hdr.orbitcache.op = opRead ∨ x.hdr.orbitcache.op = opRReply then
      let x := if x.igMd.isCached = yes then readCacheStateAction x else x
      if x.hdr.orbitcache.op = opRead then applyRead t x
      else if x.hdr.orbitcache.op = opRReply then applyRReply t ingressPort x
      else x
    else if x.hdr.orbitcache.op = opWrite then applyWrite t x
    else if x.hdr.orbitcache.op = opWReply ∨ x.hdr.orbitcache.op = opFReply then applyWReply t x
    else ipv4Exact t x
  else ipv4Exact t x

/-- What the traffic manager does with the packet: nothing when bit 0 of `drop_ctl` is set, else a
copy to the unicast port and one to each port of the multicast group (group 0 is none). -/
def egressPorts (t : Tables) (x : Ingress) : List (BitVec 9) :=
  if x.dropCtl = 0 then
    x.igTmMd.ucastEgressPort.toList ++
      if x.igTmMd.mcastGrpA = 0 then [] else t.mgid x.igTmMd.mcastGrpA
  else []

end Ingress

/-- One packet through the switch: parser, ingress control, deparser and traffic manager. The egress
parser extracts no header, so the egress control changes nothing. -/
def switchPass {π : Type} (t : Tables) (ingressPort : BitVec 9) (regs : Registers)
    (pkt : Packet π) : Registers × List (BitVec 9 × Packet π) :=
  let x := Ingress.apply t ingressPort (.start (switchIngressParser pkt) regs)
  (x.regs, (x.egressPorts t).map fun p => (p, switchIngressDeparser pkt x.hdr))

end OrbitCache
