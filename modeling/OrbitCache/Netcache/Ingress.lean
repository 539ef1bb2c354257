import OrbitCache.Netcache.Packet
import OrbitCache.Switch.Ingress

/-!
# The ingress control of NetCache

`SwitchIngress` of `netcache.p4`: its registers, actions and tables and the `apply` block. A packet
runs through the control atomically and starts with zero metadata; so an action that uses
`cache_idx` without a hit in `read_cache_table` works on index 0.
-/

namespace OrbitCache.Netcache

/-- The registers the `apply` block reaches; `value n` is `Value1` for `n = 0`, up to `Value16`. -/
structure Registers where
  cacheState : Register 8
  cacheCounter : Register 32
  value : Fin 16 → Register 32

/-- `metadata_t`, without the fields that no control uses. -/
structure Metadata where
  isCached : BitVec 32
  cacheState : BitVec 8
  cacheIdx : BitVec 32

/-- The state of the pipeline while a packet is in it. -/
structure Ingress where
  hdr : HeaderT
  igMd : Metadata
  regs : Registers
  dropCtl : BitVec 3
  ucastEgressPort : Option (BitVec 9)

/-- The entries of the match-action tables, as functions; a miss is no entry. -/
structure Tables where
  ipv4Exact : BitVec 32 → Option (BitVec 9)
  readCache : Hkey → Option (BitVec 32)

/-- `CONTROLLER_PORT`. -/
abbrev controllerPort : BitVec 9 := 64

namespace Ingress

/-! ## Actions and tables -/

/-- The pipeline when the parser is done: zero metadata. -/
def start (hdr : HeaderT) (regs : Registers) : Ingress := ⟨hdr, ⟨0, 0, 0⟩, regs, 0, none⟩

/-- `drop` of the ingress control. -/
def drop (x : Ingress) : Ingress := { x with dropCtl := 1 }

/-- `ipv4_forward`: the port of the destination. -/
def ipv4Forward (port : BitVec 9) (x : Ingress) : Ingress := { x with ucastEgressPort := some port }

/-- `ipv4_exact`, on the destination of the packet as it is by then; a miss drops. -/
def ipv4Exact (t : Tables) (x : Ingress) : Ingress :=
  match t.ipv4Exact x.hdr.ipv4.dstAddr with
  | some port => ipv4Forward port x
  | none => drop x

/-- `read_cache_table`: the index of the key, if it is cached. -/
def readCacheTable (t : Tables) (x : Ingress) : Ingress :=
  match t.readCache x.hdr.netcache.hkey with
  | some idx => { x with igMd.isCached := yes, igMd.cacheIdx := idx }
  | none => { x with igMd.isCached := no }

/-- `read_cacheState_action`: the state of the index goes to the metadata. -/
def readCacheStateAction (x : Ingress) : Ingress :=
  let r := RegisterAction.readCacheState.execute x.regs.cacheState x.igMd.cacheIdx
  { x with regs.cacheState := r.1, igMd.cacheState := r.2 }

/-- `valid_cacheState_action`. -/
def validCacheStateAction (x : Ingress) : Ingress :=
  let r := (RegisterAction.overwrite valid).execute x.regs.cacheState x.igMd.cacheIdx
  { x with regs.cacheState := r.1 }

/-- `invalid_cacheState_action`. -/
def invalidCacheStateAction (x : Ingress) : Ingress :=
  let r := (RegisterAction.overwrite invalid).execute x.regs.cacheState x.igMd.cacheIdx
  { x with regs.cacheState := r.1 }

/-- `inc_cache_counter_action`: the hits and the misses of a cached key are counted alike. -/
def incCacheCounterAction (x : Ingress) : Ingress :=
  let r := RegisterAction.count.execute x.regs.cacheCounter x.igMd.cacheIdx
  { x with regs.cacheCounter := r.1 }

/-- `get_Value1` to `get_Value16`: read the register into a header field and clear it to `EMPTY`. -/
def getValueAction (n : Fin 16) (field : HeaderT → BitVec 32 → HeaderT) (x : Ingress) : Ingress :=
  let r := RegisterAction.take.execute (x.regs.value n) x.igMd.cacheIdx
  { x with regs.value := Function.update x.regs.value n r.1, hdr := field x.hdr r.2 }

def getValue1Action := getValueAction 0 fun hdr v => { hdr with value1.val1 := v }
def getValue2Action := getValueAction 1 fun hdr v => { hdr with value1.val2 := v }
def getValue3Action := getValueAction 2 fun hdr v => { hdr with value1.val3 := v }
def getValue4Action := getValueAction 3 fun hdr v => { hdr with value1.val4 := v }
def getValue5Action := getValueAction 4 fun hdr v => { hdr with value2.val1 := v }
def getValue6Action := getValueAction 5 fun hdr v => { hdr with value2.val2 := v }
def getValue7Action := getValueAction 6 fun hdr v => { hdr with value2.val3 := v }
def getValue8Action := getValueAction 7 fun hdr v => { hdr with value2.val4 := v }
def getValue9Action := getValueAction 8 fun hdr v => { hdr with value3.val1 := v }
def getValue10Action := getValueAction 9 fun hdr v => { hdr with value3.val2 := v }
def getValue11Action := getValueAction 10 fun hdr v => { hdr with value3.val3 := v }
def getValue12Action := getValueAction 11 fun hdr v => { hdr with value3.val4 := v }
def getValue13Action := getValueAction 12 fun hdr v => { hdr with value4.val1 := v }
def getValue14Action := getValueAction 13 fun hdr v => { hdr with value4.val2 := v }
def getValue15Action := getValueAction 14 fun hdr v => { hdr with value4.val3 := v }
def getValue16Action := getValueAction 15 fun hdr v => { hdr with value4.val4 := v }

/-! ## The apply block -/

/-- The first value header becomes valid and gets its four words. -/
def getValues1 (x : Ingress) : Ingress :=
  getValue4Action <| getValue3Action <| getValue2Action <| getValue1Action
    { x with hdr.value1Valid := true }

/-- The second value header. -/
def getValues2 (x : Ingress) : Ingress :=
  getValue8Action <| getValue7Action <| getValue6Action <| getValue5Action
    { x with hdr.value2Valid := true }

/-- The third value header. -/
def getValues3 (x : Ingress) : Ingress :=
  getValue12Action <| getValue11Action <| getValue10Action <| getValue9Action
    { x with hdr.value3Valid := true }

/-- The fourth value header. -/
def getValues4 (x : Ingress) : Ingress :=
  getValue16Action <| getValue15Action <| getValue14Action <| getValue13Action
    { x with hdr.value4Valid := true }

/-- The request becomes the reply: the addresses and ports change places. -/
def turnAround (x : Ingress) : Ingress :=
  { x with
    hdr.ipv4.dstAddr := x.hdr.ipv4.srcAddr
    hdr.ipv4.srcAddr := x.hdr.ipv4.dstAddr
    hdr.udp.dstPort := x.hdr.udp.srcPort
    hdr.udp.srcPort := x.hdr.udp.dstPort
    hdr.ethernet.dstAddr := x.hdr.ethernet.srcAddr
    hdr.ethernet.srcAddr := x.hdr.ethernet.dstAddr
    hdr.netcache.cached := 1
    hdr.netcache.op := opRReply }

/-- The `OP_READ` branch, after the state of a cached key was read. -/
def applyRead (t : Tables) (x : Ingress) : Ingress :=
  if x.igMd.cacheState = valid then
    ipv4Exact t <| turnAround <| getValues4 <| getValues3 <| getValues2 <| getValues1 x
  else if x.igMd.cacheState = invalid then ipv4Exact t { x with dropCtl := 0 }
  else x

/-- The `OP_WRITE` branch: a WRITE of a cached key goes on to the server as an `OP_FETCH`. -/
def applyWrite (t : Tables) (x : Ingress) : Ingress :=
  let x := if x.igMd.isCached = yes then
      { invalidCacheStateAction x with hdr.netcache.op := opFetch }
    else x
  ipv4Exact t x

/-- The `OP_F_REPLY` branch; its `if (ig_md.isCached == YES)` is a comment, so a key that is not
cached makes the index in the metadata VALID, which is 0. -/
def applyFReply (t : Tables) (x : Ingress) : Ingress :=
  ipv4Exact t { validCacheStateAction x with ucastEgressPort := some controllerPort }

/-- The steps every NetCache packet takes before it is dispatched on its operation: the UDP checksum
is cleared and the key looked up. -/
def lookupBlock (t : Tables) (x : Ingress) : Ingress :=
  readCacheTable t { x with igMd.cacheState := invalid, hdr.udp.checksum := 0 }

/-- A READ or an R_REPLY before it is told which: for a cached key the state is read and the counter
incremented. -/
def countHit (x : Ingress) : Ingress :=
  if x.igMd.isCached = yes then incCacheCounterAction (readCacheStateAction x) else x

/-- The `apply` block of `SwitchIngress`: the tests of the operation, in the order of the source. -/
def apply (t : Tables) (x : Ingress) : Ingress :=
  if x.hdr.netcacheValid then
    let x := lookupBlock t x
    if x.hdr.netcache.op = opRead ∨ x.hdr.netcache.op = opRReply then
      let x := countHit x
      if x.hdr.netcache.op = opRead then applyRead t x
      else if x.hdr.netcache.op = opRReply then ipv4Exact t x
      else x
    else if x.hdr.netcache.op = opWrite then applyWrite t x
    else if x.hdr.netcache.op = opWReply then ipv4Exact t x
    else if x.hdr.netcache.op = opFReply then applyFReply t x
    else x
  else ipv4Exact t x

/-- Where the traffic manager sends the packet: nowhere when `drop_ctl` is set or no port was. -/
def egressPort (x : Ingress) : Option (BitVec 9) :=
  if x.dropCtl = 0 then x.ucastEgressPort else none

end Ingress

/-- A value header with the words of four registers at an index. -/
def Registers.valueH (r : Registers) (c : BitVec 32) (n₁ n₂ n₃ n₄ : Fin 16) : ValueH :=
  ⟨r.value n₁ c, r.value n₂ c, r.value n₃ c, r.value n₄ c⟩

/-- The words of all registers at an index, as the value headers that hold them. -/
def Registers.values (r : Registers) (c : BitVec 32) : List ValueH :=
  [r.valueH c 0 1 2 3, r.valueH c 4 5 6 7, r.valueH c 8 9 10 11, r.valueH c 12 13 14 15]

/-- One packet through the switch: parser, ingress control, deparser and traffic manager. The egress
parser extracts no header, so the egress control changes nothing. -/
def switchPass {π : Type} (t : Tables) (regs : Registers) (pkt : Packet π) :
    Registers × Option (BitVec 9 × Emitted π) :=
  let x := Ingress.apply t (.start (switchIngressParser pkt) regs)
  (x.regs, x.egressPort.map fun p => (p, switchIngressDeparser pkt x.hdr))

end OrbitCache.Netcache
