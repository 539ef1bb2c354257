import OrbitCache.Host.StartUp
import OrbitCache.Lib.Run
import OrbitCache.Netcache.Controller
import OrbitCache.Netcache.Delivery

/-!
# The NetCache cluster

Clients, switch and workers, with the frames between them as bytes. The clients send to ports from
`NETCACHE_BASE_PORT` on, and the workers are bound to ports from `ORBITCACHE_BASE_PORT` on; so no
worker ever receives what the switch forwards to it. `served_by_switch`: in every run all that a
client gets are replies of the switch without a value, and an entry is answered until the first
WRITE of its key.
-/

namespace OrbitCache.Netcache

/-! ## Requests -/

/-- What `tx_t` draws for a request: the item, READ or WRITE, and the size of the value. -/
structure Request where
  keyValue : BitVec 64
  isWrite : Bool
  isLarge : Bool
  latency : BitVec 32
  deriving DecidableEq, Repr

namespace Request

/-- The `SendBuffer`; the value of a WRITE is zeros, as the buffer is. -/
def hdr (numWorkers : Nat) (q : Request) : NetcacheHdr :=
  { readHdr numWorkers q.keyValue q.latency with op := if q.isWrite then opWrite else opRead }

/-- How many bytes of the value `tx_t` sends; a READ has none. -/
def valueSize (q : Request) : Nat :=
  if q.isWrite then if q.isLarge then largeValue else smallValue else 0

/-- The bytes of the datagram, as `sendto` gets them. -/
def payload (numWorkers : Nat) (q : Request) : Bytes := (q.hdr numWorkers).sent q.valueSize

/-- The datagram of a client, to the address that `tx_t` computes from the key. -/
def datagram (numWorkers : Nat) (client : Endpoint) (macDstAddr : BitVec 48) (q : Request) :
    UdpDatagram where
  macDstAddr := macDstAddr
  srcAddr := client.ip
  dstAddr := (txDestination .netcache numWorkers (tostringKey q.keyValue)).1
  srcPort := client.port
  dstPort := (txDestination .netcache numWorkers (tostringKey q.keyValue)).2
  payload := q.payload numWorkers

end Request

/-! ## The cluster -/

/-- The registers of the switch, the frames in flight, the workers by server and thread, and what
the clients have received. Frames may be taken in any order, and may stay in flight. -/
structure Cluster where
  regs : Registers
  /-- The frames that have passed the switch, oldest first. -/
  passed : List Bytes
  /-- The frames on their way to the switch. -/
  uplink : List Bytes
  /-- The frames on their way to the hosts. -/
  wire : List Bytes
  workers : Nat → Nat → ServerState
  received : List (Endpoint × UdpDatagram)

/-- The steps of the cluster. Frames in flight are named by their position. -/
inductive ClusterAction where
  /-- A client sends a request. -/
  | send (client : Endpoint) (macSrcAddr macDstAddr : BitVec 48) (q : Request)
  /-- A frame passes the switch. -/
  | pass (i : Nat)
  /-- A worker handles a datagram that is addressed to it. -/
  | serve (i srv worker : Nat) (stack : Stack) (macSrcAddr macDstAddr : BitVec 48)
  /-- A client receives a datagram that is addressed to it. -/
  | receive (i : Nat) (client : Endpoint)

/-- A socket of a client: `rx_t` and `tx_t` use ports from `ORBITCACHE_BASE_PORT` on, and `bind`
gives no address to two programs. -/
def IsClient (numWorkers : Nat) (client : Endpoint) : Prop :=
  (∃ i < maxWorkers, client.port = BitVec.ofNat 16 (orbitcacheBasePort + i)) ∧
    ∀ srv < numSrv, ∀ worker < numWorkers,
      (client.ip, client.port) ≠ workerAddress .netcache srv worker

namespace Cluster

/-- The reply of a worker, to the address the datagram has come from. -/
def reply (d : UdpDatagram) (macDstAddr : BitVec 48) (payload : Bytes) : UdpDatagram where
  macDstAddr := macDstAddr
  srcAddr := d.dstAddr
  dstAddr := d.srcAddr
  srcPort := d.dstPort
  dstPort := d.srcPort
  payload := payload

/-- A step; `none` when there is no such frame, or it is not for the host. -/
def step (t : Tables) (numWorkers : Nat) (s : Cluster) : ClusterAction → Option Cluster
  | .send client macSrcAddr macDstAddr q => some { s with
      uplink := s.uplink ++ [sendFrame macSrcAddr (q.datagram numWorkers client macDstAddr)] }
  | .pass i => do
      let frame ← s.uplink[i]?
      let (regs, out) ← frameStep t frame s.regs
      return { s with
        regs := regs
        passed := s.passed ++ [frame]
        uplink := s.uplink.eraseIdx i
        wire := s.wire ++ out.toList.map Prod.snd }
  | .serve i srv worker stack macSrcAddr macDstAddr => do
      let frame ← s.wire[i]?
      let d ← udpReceive frame
      if (d.dstAddr, d.dstPort) = workerAddress .netcache srv worker then
        let h := handleDatagram .netcache (s.workers srv worker) d.payload stack
        let after ← h.after
        return { s with
          wire := s.wire.eraseIdx i
          uplink := s.uplink ++ h.sent.map fun o =>
            sendFrame macSrcAddr (reply d macDstAddr o.2)
          workers := Function.update s.workers srv (Function.update (s.workers srv) worker after) }
      else none
  | .receive i client => do
      let frame ← s.wire[i]?
      let d ← udpReceive frame
      if (d.dstAddr, d.dstPort) = (client.ip, client.port) then
        return { s with wire := s.wire.eraseIdx i, received := s.received ++ [(client, d)] }
      else none

/-- The hosts there are: clients and workers act as such, and the switch may do anything. -/
def Allowed (numWorkers : Nat) (_ : Cluster) : ClusterAction → Prop
  | .send client _ _ _ | .receive _ client => IsClient numWorkers client
  | .serve _ srv worker _ _ _ => srv < numSrv ∧ worker < numWorkers
  | .pass _ => True

/-- The cluster when no frame has been sent, after the start-up of the controller. -/
def start (r : Registers) (workers : Nat → Nat → ServerState) : Cluster :=
  ⟨r, [], [], [], workers, []⟩

end Cluster

/-! ## A request at the switch -/

section
variable {numWorkers : Nat} {t : Tables} {r : Registers} {client : Endpoint}
  {macSrcAddr macDstAddr : BitVec 48} {q : Request}

/-- The bytes behind the header that the switch reads: `par_id`, `org_key` and the value. -/
def Request.behind (numWorkers : Nat) (q : Request) : Bytes :=
  (q.hdr numWorkers).keyBytes ++ (q.hdr numWorkers).value.take q.valueSize

/-- A request is the header that the switch reads and what is behind it. -/
theorem payload_eq (numWorkers : Nat) (q : Request) :
    q.payload numWorkers = (q.hdr numWorkers).netcacheH.bytes ++ q.behind numWorkers := by
  rw [NetcacheHdr.bytes_netcacheH]
  rfl

/-- No value is larger than `LARGE_VALUE`. -/
theorem valueSize_le (q : Request) : q.valueSize ≤ largeValue := by
  unfold Request.valueSize
  split
  · split <;> decide
  · exact Nat.zero_le _

/-- So a request fits into a frame. -/
theorem length_payload_le (numWorkers : Nat) (q : Request) :
    (q.payload numWorkers).length ≤ 43 + largeValue := by
  have hvalue : ((q.hdr numWorkers).value.take q.valueSize).length ≤ largeValue :=
    (List.length_take_le _ _).trans (valueSize_le q)
  rw [Request.payload, NetcacheHdr.sent, List.length_append, List.length_append,
    NetcacheHdr.length_headBytes, NetcacheHdr.length_keyBytes]
  omega

/-- A host that gets the frame of a request finds the request in it. -/
theorem udpReceive_request (q : Request) :
    udpReceive (sendFrame macSrcAddr (q.datagram numWorkers client macDstAddr)) =
      some (q.datagram numWorkers client macDstAddr) := by
  have hlen : (q.payload numWorkers).length ≤ 43 + 1024 := length_payload_le numWorkers q
  refine udpReceive_sendFrame macSrcAddr ?_
  show 28 + (q.payload numWorkers).length < 65536
  omega

/-- And it has room for `NETCACHE_h`. -/
theorem deliverable_request (q : Request) :
    Deliverable (sendFrame macSrcAddr (q.datagram numWorkers client macDstAddr))
      (q.datagram numWorkers client macDstAddr) := by
  refine ⟨udpReceive_request q, ?_⟩
  have hpayload : (q.datagram numWorkers client macDstAddr).payload = q.payload numWorkers := rfl
  rw [hpayload, payload_eq, List.length_append, NetcacheH.length_bytes]
  exact Nat.le_add_right _ _

/-- The packet in the frame of a request is a NetCache packet with the header of the request. -/
theorem decodeFrame_request (q : Request) (hport : netcachePort
    (q.datagram numWorkers client macDstAddr).dstPort = true) : ∃ pkt,
    decodeFrame (sendFrame macSrcAddr (q.datagram numWorkers client macDstAddr)) = some pkt ∧
      pkt.IsNetcache ∧ pkt.netcache = (q.hdr numWorkers).netcacheH := by
  let d := q.datagram numWorkers client macDstAddr
  let headers := sendHeaders macSrcAddr d
  let hdr := HeaderT.parsed headers.ethernet
    { headers.ipv4 with hdrChecksum := headers.ipv4.checksum } true headers.udp true
    (q.hdr numWorkers).netcacheH true
  have hframe : sendFrame macSrcAddr d = hdr.emit ++ q.behind numWorkers := by
    have hpayload : d.payload = (q.hdr numWorkers).netcacheH.bytes ++ q.behind numWorkers :=
      payload_eq numWorkers q
    rw [sendFrame, hpayload]
    simp [hdr, headers, FullHeaderT.deparse, FullHeaderT.emit, sendHeaders, HeaderT.emit,
      HeaderT.parsed, HeaderT.values]
  have hparsed : Parsed hdr := .netcache rfl rfl (.inl hport)
  refine ⟨hdr.packet (q.behind numWorkers), ?_, ⟨rfl, rfl, .inl hport⟩, rfl⟩
  rw [decodeFrame, parseEthernet_iff.2 ⟨hparsed, hframe⟩]
  rfl

/-- The header of a READ is that of `readHdr`. -/
theorem hdr_of_read (numWorkers : Nat) (hread : q.isWrite = false) :
    q.hdr numWorkers = readHdr numWorkers q.keyValue q.latency := by
  rw [Request.hdr, hread]
  rfl

/-- A READ has no value. -/
theorem valueSize_of_read (hread : q.isWrite = false) : q.valueSize = 0 := by
  rw [Request.valueSize, hread]
  rfl

/-- So `par_id` and `org_key` are all that is behind its header. -/
theorem behind_of_read (numWorkers : Nat) (hread : q.isWrite = false) :
    q.behind numWorkers = (readHdr numWorkers q.keyValue q.latency).keyBytes := by
  rw [Request.behind, hdr_of_read numWorkers hread, valueSize_of_read hread, List.take_zero,
    List.append_nil]

/-- The operation is that of the request. -/
theorem op_request (numWorkers : Nat) (q : Request) :
    (q.hdr numWorkers).netcacheH.op = if q.isWrite then opWrite else opRead := rfl

/-- A request with the operation of a READ is one. -/
theorem isWrite_eq_false (hop : (q.hdr numWorkers).netcacheH.op = opRead) : q.isWrite = false := by
  rw [op_request] at hop
  cases hwrite : q.isWrite with
  | false => rfl
  | true => rw [hwrite] at hop; cases hop

/-- A request goes on to the server, or it is a READ of a VALID entry and its reply goes back. In
the first case it keeps its port, which no worker listens on. -/
theorem datagramPass_request {p : BitVec 9} {d' : UdpDatagram} (hpos : 0 < numWorkers)
    (hmax : numWorkers ≤ maxWorkers)
    (h : datagramPass t r macSrcAddr (q.datagram numWorkers client macDstAddr) = some (p, d')) :
    netcachePort d'.dstPort = true ∨ q.isWrite = false ∧ t.ipv4Exact client.ip = some p ∧
      ∃ c, t.readCache (hostHash (tostringKey q.keyValue)) = some c ∧ r.cacheState c = valid ∧
        d' = ⟨macSrcAddr, (q.datagram numWorkers client macDstAddr).dstAddr, client.ip,
          (q.datagram numWorkers client macDstAddr).dstPort, client.port,
          { (readHdr numWorkers q.keyValue q.latency).netcacheH with
            op := opRReply, cached := 1 }.bytes ++
              ((r.values c).flatMap ValueH.bytes).take 17⟩ := by
  have hport : netcachePort (q.datagram numWorkers client macDstAddr).dstPort = true :=
    netcachePort_txDestination hpos hmax _
  have hextract : NetcacheH.extract.run (q.datagram numWorkers client macDstAddr).payload =
      some ((q.hdr numWorkers).netcacheH, q.behind numWorkers) :=
    NetcacheH.extract_iff.2 (payload_eq numWorkers q)
  rw [datagramPass, if_pos (.inl hport), hextract] at h
  simp only [Option.bind_eq_bind, Option.bind_some] at h
  split at h
  · obtain ⟨port, hroute, heq⟩ := Option.map_eq_some_iff.1 h
    obtain ⟨rfl, rfl⟩ := Prod.mk.inj heq
    rw [answerTo] at hroute ⊢
    cases hlookup : t.readCache (q.hdr numWorkers).netcacheH.hkey with
    | none => exact .inl hport
    | some c =>
      rw [hlookup] at hroute
      dsimp only at hroute ⊢
      split
      · next hhit =>
        rw [if_pos hhit] at hroute
        have hread := isWrite_eq_false hhit.1
        rw [hdr_of_read numWorkers hread, hkey_readHdr] at hlookup
        refine .inr ⟨hread, hroute, c, hlookup, hhit.2, ?_⟩
        rw [hdr_of_read numWorkers hread, behind_of_read numWorkers hread,
          NetcacheHdr.length_keyBytes, List.take_append_of_le_length]
        · rfl
        · rw [Registers.length_flatMap_values]
          decide
      · split <;> exact .inl hport
  · cases h

end

/-! ## Runs -/

/-- The frame of a client's request, whichever client has sent it. -/
def IsRequestFrame (numWorkers : Nat) (frame : Bytes) : Prop :=
  ∃ client macSrcAddr macDstAddr q, IsClient numWorkers client ∧
    frame = sendFrame macSrcAddr (Request.datagram numWorkers client macDstAddr q)

/-- The reply of the switch to the READ of a client in a frame. -/
def IsHitReply (numWorkers : Nat) (client : Endpoint) (frame : Bytes) (d' : UdpDatagram) : Prop :=
  ∃ macSrcAddr macDstAddr q hdr words, IsClient numWorkers client ∧ q.isWrite = false ∧
    frame = sendFrame macSrcAddr (Request.datagram numWorkers client macDstAddr q) ∧
    HitReply macSrcAddr (Request.datagram numWorkers client macDstAddr q) d'
      (readHdr numWorkers q.keyValue q.latency) hdr words

/-- The frame has a WRITE of a key that is mapped to the index. -/
def WritesAt (t : Tables) (c : BitVec 32) (frame : Bytes) : Prop :=
  ∃ pkt, decodeFrame frame = some pkt ∧ Arrival.IsOp ⟨t, pkt⟩ opWrite c

namespace Cluster

/-- What holds of the cluster in every run: only requests are on their way to the switch, whatever
leaves it is for a NetCache port or a reply of the switch, and an entry is VALID until a WRITE
passes. -/
structure Inv (t : Tables) (numWorkers : Nat) (r : Registers) (workers : Nat → Nat → ServerState)
    (s : Cluster) : Prop where
  uplink : ∀ f ∈ s.uplink, IsRequestFrame numWorkers f
  wire : ∀ f ∈ s.wire, ∀ d, udpReceive f = some d →
    netcachePort d.dstPort = true ∨ ∃ client, ∃ f' ∈ s.passed, IsHitReply numWorkers client f' d
  entries : ∀ c, r.cacheState c = valid →
    (s.regs.cacheState c = valid ↔ ∀ f ∈ s.passed, ¬ WritesAt t c f)
  workers : s.workers = workers
  received : ∀ e ∈ s.received, ∃ f ∈ s.passed, IsHitReply numWorkers e.1 f e.2

section
variable {t : Tables} {numWorkers : Nat} {r : Registers} {workers : Nat → Nat → ServerState}
  {s s' : Cluster}

/-- Nothing is in flight at first. -/
theorem inv_start (t : Tables) (numWorkers : Nat) (r : Registers)
    (workers : Nat → Nat → ServerState) : Inv t numWorkers r workers (start r workers) where
  uplink _ h := absurd h List.not_mem_nil
  wire _ h := absurd h List.not_mem_nil
  entries _ h := iff_of_true h fun _ hf => absurd hf List.not_mem_nil
  workers := rfl
  received _ h := absurd h List.not_mem_nil

/-- The ports of workers and clients are none of the switch: they start at 3000, and its ports end
at 1063. -/
theorem netcachePort_base {i : Nat} (h : i < maxWorkers) :
    netcachePort (BitVec.ofNat 16 (orbitcacheBasePort + i)) = false := by
  have hport : (BitVec.ofNat 16 (orbitcacheBasePort + i)).toNat = 3000 + i := by
    simp only [maxWorkers] at h
    rw [BitVec.toNat_ofNat, orbitcacheBasePort]
    omega
  rw [netcachePort, hport]
  simp only [Bool.and_eq_false_iff, decide_eq_false_iff_not]
  omega

/-- A reply of the switch is for the client that has sent the READ. -/
theorem isHitReply_addressed {client : Endpoint} {frame : Bytes} {d : UdpDatagram}
    (h : IsHitReply numWorkers client frame d) :
    IsClient numWorkers client ∧ (d.dstAddr, d.dstPort) = (client.ip, client.port) := by
  obtain ⟨macSrcAddr, macDstAddr, q, hdr, words, hclient, -, -, hreply⟩ := h
  exact ⟨hclient, Prod.ext hreply.ipv4.2 hreply.udp.2⟩

/-- No datagram on the wire is for a worker: it is for a NetCache port or for a client. -/
theorem Inv.not_worker (h : Inv t numWorkers r workers s) (hmax : numWorkers ≤ maxWorkers)
    {frame : Bytes} (hframe : frame ∈ s.wire) {d : UdpDatagram} (hd : udpReceive frame = some d)
    {srv worker : Nat} (hsrv : srv < numSrv) (hworker : worker < numWorkers) :
    (d.dstAddr, d.dstPort) ≠ workerAddress .netcache srv worker := by
  intro heq
  rcases h.wire frame hframe d hd with hport | ⟨client, f, -, hreply⟩
  · rw [show d.dstPort = _ from congrArg Prod.snd heq] at hport
    have hbase := netcachePort_base (Nat.lt_of_lt_of_le hworker hmax)
    exact absurd (hbase.symm.trans hport) Bool.false_ne_true
  · obtain ⟨hclient, haddr⟩ := isHitReply_addressed hreply
    exact hclient.2 srv hsrv worker hworker (haddr.symm.trans heq)

/-- So a worker never has anything to handle: no step of a worker is enabled. -/
theorem Inv.serve_eq_none (h : Inv t numWorkers r workers s) (hmax : numWorkers ≤ maxWorkers)
    (i : Nat) {srv worker : Nat} (hsrv : srv < numSrv) (hworker : worker < numWorkers)
    (stack : Stack) (macSrcAddr macDstAddr : BitVec 48) :
    s.step t numWorkers (.serve i srv worker stack macSrcAddr macDstAddr) = none := by
  cases hi : s.wire[i]? with
  | none => simp [Cluster.step, hi]
  | some frame =>
    cases hd : udpReceive frame with
    | none => simp [Cluster.step, hi, hd]
    | some d =>
      have hne := h.not_worker hmax (List.mem_of_getElem? hi) hd hsrv hworker
      simp only [Cluster.step, hi, hd, Option.bind_eq_bind, Option.bind_some, if_neg hne]

/-- A datagram on the wire for a client is a reply of the switch, since clients do not listen on
NetCache ports. -/
theorem Inv.hitReply (h : Inv t numWorkers r workers s) {frame : Bytes} (hframe : frame ∈ s.wire)
    {d : UdpDatagram} (hd : udpReceive frame = some d) {client : Endpoint}
    (hclient : IsClient numWorkers client)
    (haddr : (d.dstAddr, d.dstPort) = (client.ip, client.port)) :
    ∃ f ∈ s.passed, IsHitReply numWorkers client f d := by
  rcases h.wire frame hframe d hd with hport | ⟨client', f, hf, hreply⟩
  · obtain ⟨i, hi, hbound⟩ := hclient.1
    rw [show d.dstPort = _ from congrArg Prod.snd haddr, hbound, netcachePort_base hi] at hport
    exact absurd hport Bool.false_ne_true
  · obtain ⟨-, haddr'⟩ := isHitReply_addressed hreply
    obtain ⟨hip, hport⟩ := Prod.mk.inj (haddr'.symm.trans haddr)
    obtain rfl : client' = client := by
      cases client'
      cases client
      exact congrArg₂ Endpoint.mk hip hport
    exact ⟨f, hf, hreply⟩

/-- What the switch makes of a READ of a VALID entry is its reply, with the first 17 bytes of the
words. -/
theorem isHitReply_of_hit {client : Endpoint} {macSrcAddr macDstAddr : BitVec 48} {q : Request}
    (hclient : IsClient numWorkers client) (hread : q.isWrite = false) (r : Registers)
    (c : BitVec 32) : IsHitReply numWorkers client
      (sendFrame macSrcAddr (q.datagram numWorkers client macDstAddr))
      ⟨macSrcAddr, (q.datagram numWorkers client macDstAddr).dstAddr, client.ip,
        (q.datagram numWorkers client macDstAddr).dstPort, client.port,
        { (readHdr numWorkers q.keyValue q.latency).netcacheH with
          op := opRReply, cached := 1 }.bytes ++
            ((r.values c).flatMap ValueH.bytes).take 17⟩ := by
  obtain ⟨hdr, hreply⟩ := @hitReply_of_words numWorkers q.keyValue q.latency macSrcAddr
    (q.datagram numWorkers client macDstAddr) _ (Registers.length_flatMap_values r c)
  exact ⟨macSrcAddr, macDstAddr, q, hdr, _, hclient, hread, rfl, hreply⟩

/-- The frame that leaves the switch for a request has the datagram that the switch makes of it. -/
theorem datagram_of_request {frame : Bytes} {r' : Registers} {p : BitVec 9} {d : UdpDatagram}
    {client : Endpoint} {macSrcAddr macDstAddr : BitVec 48} {q : Request}
    (hstep : frameStep t (sendFrame macSrcAddr (q.datagram numWorkers client macDstAddr)) r =
      some (r', some (p, frame))) (hd : udpReceive frame = some d) :
    datagramPass t r macSrcAddr (q.datagram numWorkers client macDstAddr) = some (p, d) := by
  obtain ⟨r'', out, hpass, hout⟩ := switchPassBytes_datagram t r
    (@deliverable_request numWorkers client macSrcAddr macDstAddr q)
  rw [frameStep, hpass, Option.some.injEq, Prod.mk.injEq] at hstep
  obtain ⟨-, rfl⟩ := hstep
  rw [macSrcAddr_sendFrame] at hout
  obtain ⟨⟨p', d'⟩, hdatagram, heq⟩ := Option.map_eq_some_iff.1 hout.symm
  obtain ⟨rfl, hreceive⟩ := Prod.mk.inj heq
  obtain rfl := Option.some.inj (hreceive.trans hd)
  exact hdatagram

/-- What leaves the switch for a request is for a NetCache port, or a reply. -/
theorem wire_of_request {frame g : Bytes} {r' : Registers} {p : BitVec 9} {d : UdpDatagram}
    (hpos : 0 < numWorkers) (hmax : numWorkers ≤ maxWorkers)
    (hframe : IsRequestFrame numWorkers frame)
    (hstep : frameStep t frame r = some (r', some (p, g))) (hd : udpReceive g = some d) :
    netcachePort d.dstPort = true ∨ ∃ client, IsHitReply numWorkers client frame d := by
  obtain ⟨client, macSrcAddr, macDstAddr, q, hclient, rfl⟩ := hframe
  have hdatagram := datagram_of_request hstep hd
  rcases datagramPass_request hpos hmax hdatagram with hport | ⟨hread, -, c, -, -, rfl⟩
  · exact .inl hport
  · exact .inr ⟨client, isHitReply_of_hit hclient hread r c⟩

/-- The READ of a client is answered if its entry is VALID and the client has a route, and only
then. -/
theorem answered_read_iff {client : Endpoint} {macSrcAddr macDstAddr : BitVec 48} {q : Request}
    (hpos : 0 < numWorkers) (hmax : numWorkers ≤ maxWorkers)
    (hclient : IsClient numWorkers client) (hread : q.isWrite = false) :
    (∃ r' p frame d,
      frameStep t (sendFrame macSrcAddr (q.datagram numWorkers client macDstAddr)) r =
        some (r', some (p, frame)) ∧
      udpReceive frame = some d ∧ IsHitReply numWorkers client
        (sendFrame macSrcAddr (q.datagram numWorkers client macDstAddr)) d) ↔
      (t.ipv4Exact client.ip).isSome ∧
        ∃ c, t.readCache (hostHash (tostringKey q.keyValue)) = some c ∧ r.cacheState c = valid := by
  constructor
  · rintro ⟨r', p, frame, d, hstep, hd, hreply⟩
    rcases datagramPass_request hpos hmax (datagram_of_request hstep hd) with
      hport | ⟨-, hroute, c, hlookup, hstate, -⟩
    · obtain ⟨-, haddr⟩ := isHitReply_addressed hreply
      obtain ⟨i, hi, hbound⟩ := hclient.1
      rw [(Prod.mk.inj haddr).2, hbound, netcachePort_base hi] at hport
      exact absurd hport Bool.false_ne_true
    · exact ⟨Option.isSome_of_eq_some hroute, c, hlookup, hstate⟩
  · rintro ⟨hroute, c, hlookup, hstate⟩
    obtain ⟨p, hroute⟩ := Option.isSome_iff_exists.1 hroute
    have hpayload : (q.datagram numWorkers client macDstAddr).payload =
        (readHdr numWorkers q.keyValue q.latency).sent 0 := by
      rw [Request.datagram, Request.payload, hdr_of_read numWorkers hread,
        valueSize_of_read hread]
    have hhit := @datagramPass_hit numWorkers q.keyValue q.latency t r c
      (q.datagram numWorkers client macDstAddr) macSrcAddr p hpayload
      (netcachePort_txDestination hpos hmax _) hlookup hstate hroute
    obtain ⟨r', out, hstep, hout⟩ := switchPassBytes_datagram t r
      (@deliverable_request numWorkers client macSrcAddr macDstAddr q)
    rw [macSrcAddr_sendFrame, hhit] at hout
    obtain ⟨⟨p', frame⟩, rfl, heq⟩ := Option.map_eq_some_iff.1 hout
    exact ⟨r', p', frame, _, hstep, (Prod.mk.inj heq).2, isHitReply_of_hit hclient hread r c⟩

/-- What a packet that is no `OP_F_REPLY` does to the state of an index. -/
theorem setsState_of_ne {π : Type} {x : Arrival π} (hop : x.pkt.netcache.op ≠ opFReply)
    (c : BitVec 32) : x.setsState c = if x.IsOp opWrite c then some invalid else none := by
  have hwrites : x.IsOp opWrite c ↔ x.pkt.netcache.op = opWrite ∧ x.pkt.IsNetcache ∧
      x.tables.readCache x.pkt.netcache.hkey = some c :=
    and_congr_right fun _ => ownIdx_eq_some_iff
  by_cases hnetcache : x.pkt.IsNetcache
  · simp only [Arrival.setsState, hwrites, hnetcache, if_true, true_and, hop, false_and, if_false]
  · simp only [Arrival.setsState, hwrites, hnetcache, if_false, false_and, and_false]

/-- The state of an index after a request: no request makes an index VALID, and a WRITE of a key at
it makes it INVALID. -/
theorem cacheState_of_request {frame : Bytes} {r' : Registers}
    {out : Option (BitVec 9 × Bytes)} (hpos : 0 < numWorkers) (hmax : numWorkers ≤ maxWorkers)
    (hframe : IsRequestFrame numWorkers frame) (hstep : frameStep t frame r = some (r', out))
    (c : BitVec 32) :
    r'.cacheState c = valid ↔ r.cacheState c = valid ∧ ¬ WritesAt t c frame := by
  obtain ⟨client, macSrcAddr, macDstAddr, q, -, rfl⟩ := hframe
  obtain ⟨pkt, hdecode, -, hnetcache⟩ := @decodeFrame_request numWorkers client macSrcAddr
    macDstAddr q (netcachePort_txDestination hpos hmax _)
  have hwrites : WritesAt t c (sendFrame macSrcAddr (q.datagram numWorkers client macDstAddr)) ↔
      Arrival.IsOp ⟨t, pkt⟩ opWrite c := by
    simp only [WritesAt, hdecode, Option.some.injEq, exists_eq_left']
  have hop : pkt.netcache.op ≠ opFReply := by
    rw [hnetcache, op_request]
    split <;> decide
  have hregs : (switchPass t r pkt).1 = r' := by
    rw [frameStep_eq, hdecode] at hstep
    exact (Prod.mk.inj (Option.some.inj hstep)).1
  have hne : ¬ invalid = valid := by decide
  rw [hwrites, ← hregs, switchPass_regs, cacheState_regs, setsState_verdict r ⟨t, pkt⟩,
    setsState_of_ne hop]
  split
  · next hwrite => exact iff_of_false hne fun h => h.2 hwrite
  · next hwrite => exact (and_iff_left hwrite).symm

/-- One step of the cluster keeps the invariant: a pass by what the switch makes of a request, a
step of a worker because there is none. -/
theorem Inv.step (hpos : 0 < numWorkers) (hmax : numWorkers ≤ maxWorkers)
    (h : Inv t numWorkers r workers s) {a : ClusterAction} (hallowed : Allowed numWorkers s a)
    (hstep : s.step t numWorkers a = some s') : Inv t numWorkers r workers s' := by
  cases a with
  | send client macSrcAddr macDstAddr q =>
    cases hstep
    exact {
      uplink := List.forall_mem_append.2 ⟨h.uplink, List.forall_mem_singleton.2
        ⟨client, macSrcAddr, macDstAddr, q, hallowed, rfl⟩⟩
      wire := h.wire
      entries := h.entries
      workers := h.workers
      received := h.received }
  | pass i =>
    obtain ⟨frame, hi, hstep⟩ := Option.bind_eq_some_iff.1 hstep
    obtain ⟨⟨regs, out⟩, hpass, hstep⟩ := Option.bind_eq_some_iff.1 hstep
    cases hstep
    have hframe := h.uplink frame (List.mem_of_getElem? hi)
    exact {
      uplink := fun f hf => h.uplink f (List.mem_of_mem_eraseIdx hf)
      wire := by
        intro f hf d hd
        rcases List.mem_append.1 hf with hf | hf
        · refine (h.wire f hf d hd).imp_right ?_
          rintro ⟨client, g, hg, hreply⟩
          exact ⟨client, g, List.mem_append_left _ hg, hreply⟩
        · obtain ⟨⟨p, g⟩, hout, rfl⟩ := List.mem_map.1 hf
          rw [Option.mem_toList] at hout
          rw [Option.mem_def.1 hout] at hpass
          refine (wire_of_request hpos hmax hframe hpass hd).imp_right ?_
          rintro ⟨client, hreply⟩
          exact ⟨client, frame, List.mem_append_right _ (List.mem_singleton_self _), hreply⟩
      entries := by
        intro c hc
        rw [cacheState_of_request hpos hmax hframe hpass, h.entries c hc,
          List.forall_mem_append, List.forall_mem_singleton]
      workers := h.workers
      received := by
        intro e he
        obtain ⟨f, hf, hreply⟩ := h.received e he
        exact ⟨f, List.mem_append_left _ hf, hreply⟩ }
  | serve i srv worker stack macSrcAddr macDstAddr =>
    -- the case that cannot happen: the ports of the workers are not those of the requests
    rw [h.serve_eq_none hmax i hallowed.1 hallowed.2] at hstep
    cases hstep
  | receive i client =>
    obtain ⟨frame, hi, hstep⟩ := Option.bind_eq_some_iff.1 hstep
    obtain ⟨d, hd, hstep⟩ := Option.bind_eq_some_iff.1 hstep
    split at hstep
    · next haddr =>
      cases hstep
      exact {
        uplink := h.uplink
        wire := fun f hf => h.wire f (List.mem_of_mem_eraseIdx hf)
        entries := h.entries
        workers := h.workers
        received := List.forall_mem_append.2 ⟨h.received, List.forall_mem_singleton.2
          (h.hitReply (List.mem_of_getElem? hi) hd hallowed haddr)⟩ }
    · cases hstep

/-- Over a run, by induction. -/
theorem inv_of_run (hpos : 0 < numWorkers) (hmax : numWorkers ≤ maxWorkers)
    (hrun : Run (step t numWorkers) (Allowed numWorkers) (start r workers) s) :
    Inv t numWorkers r workers s :=
  hrun.invariant (Inv t numWorkers r workers) (inv_start t numWorkers r workers)
    fun _ _ _ hinv hallowed hstep => hinv.step hpos hmax hallowed hstep

/-- In every run after the start-up of the controller no worker has handled a datagram and no step
of a worker is enabled, all that a client receives are replies of the switch to its own READs,
without a value, and the READ of a client is answered exactly when the client has a route, an item
of the file has the hashes of the key, and no WRITE at the index of that item has passed the switch.
-/
theorem served_by_switch {sampledKeys : List Nat} {r' : Registers}
    (hstart : Controller.startUp sampledKeys r = some (t, r')) (hpos : 0 < numWorkers)
    (hmax : numWorkers ≤ maxWorkers)
    (hrun : Run (step t numWorkers) (Allowed numWorkers) (start r' workers) s) :
    s.workers = workers ∧
      (∀ i srv worker stack macSrcAddr macDstAddr, srv < numSrv → worker < numWorkers →
        s.step t numWorkers (.serve i srv worker stack macSrcAddr macDstAddr) = none) ∧
      (∀ e ∈ s.received, ∃ f ∈ s.passed, IsHitReply numWorkers e.1 f e.2) ∧
      ∀ client macSrcAddr macDstAddr q, IsClient numWorkers client → q.isWrite = false →
        ((∃ regs p frame d,
          frameStep t (sendFrame macSrcAddr (Request.datagram numWorkers client macDstAddr q))
            s.regs = some (regs, some (p, frame)) ∧
          udpReceive frame = some d ∧ IsHitReply numWorkers client
            (sendFrame macSrcAddr (Request.datagram numWorkers client macDstAddr q)) d) ↔
          (t.ipv4Exact client.ip).isSome ∧ ∃ i ∈ sampledKeys,
            Controller.itemHkey q.keyValue.toNat = Controller.itemHkey i ∧
              ∀ f ∈ s.passed, ¬ WritesAt t (BitVec.ofNat 32 i) f) := by
  have hinv := inv_of_run hpos hmax hrun
  obtain ⟨table, hinstalled, -⟩ := Controller.installed_of_startUp hstart
  refine ⟨hinv.workers, fun i srv worker stack macSrcAddr macDstAddr hsrv hworker =>
    hinv.serve_eq_none hmax i hsrv hworker stack macSrcAddr macDstAddr, hinv.received,
    fun client macSrcAddr macDstAddr q hclient hread => ?_⟩
  rw [answered_read_iff hpos hmax hclient hread, ← Controller.itemHkey_toNat]
  refine and_congr_right fun _ => ?_
  simp only [Controller.readCache_startUp hstart]
  constructor
  · rintro ⟨c, ⟨i, hi, hhash, rfl⟩, hstate⟩
    exact ⟨i, hi, hhash, (hinv.entries _ (hinstalled.valid i hi)).1 hstate⟩
  · rintro ⟨i, hi, hhash, hwrites⟩
    exact ⟨_, ⟨i, hi, hhash, rfl⟩, (hinv.entries _ (hinstalled.valid i hi)).2 hwrites⟩

end

/-! ## A READ and a WRITE -/

instance (numWorkers : Nat) (client : Endpoint) : Decidable (IsClient numWorkers client) :=
  inferInstanceAs (Decidable (_ ∧ _))

instance (numWorkers : Nat) (s : Cluster) : (a : ClusterAction) → Decidable (Allowed numWorkers s a)
  | .send client _ _ _ | .receive _ client => inferInstanceAs (Decidable (IsClient _ client))
  | .serve _ _ _ _ _ _ => inferInstanceAs (Decidable (_ ∧ _))
  | .pass _ => inferInstanceAs (Decidable True)

/-- The frame of a WRITE can be recognised by decoding it. -/
instance (t : Tables) (c : BitVec 32) (frame : Bytes) : Decidable (WritesAt t c frame) :=
  decidable_of_iff ((decodeFrame frame).any (fun pkt => decide (Arrival.IsOp ⟨t, pkt⟩ opWrite c)) =
    true) <| by simp [WritesAt, Option.any_eq_true]

/-- The first host of `ip_list` as a client, at the first port of `rx_t`. -/
def firstClient : Endpoint := ⟨0x0A000165, 3000⟩

/-- Its READ of an item. -/
def readRequest (keyValue : BitVec 64) : Request := ⟨keyValue, false, false, 7⟩

/-- Its WRITE of an item, with a small value. -/
def writeRequest (keyValue : BitVec 64) : Request := ⟨keyValue, true, false, 7⟩

/-- No worker has its address. -/
theorem isClient_firstClient : IsClient 8 firstClient := by
  decide

/-- The workers before anything was stored. -/
def idleWorkers : Nat → Nat → ServerState := fun _ _ => ⟨fun _ => none, []⟩

/-- The client reads item 0 and takes the reply, and then it writes item 5. -/
def readAndWrite : List ClusterAction :=
  [.send firstClient 0xA 0xB (readRequest 0), .pass 0, .receive 0 firstClient,
    .send firstClient 0xA 0xB (writeRequest 5), .pass 0]

/-- The WRITE is on its way to the worker, but no worker gets it; item 0 is still answered, and item
5 is not any more. -/
theorem served_by_switch_readAndWrite : ∃ t r' s,
    Controller.startUp [0, 5] Controller.loadRegisters = some (t, r') ∧
      Run (step t 8) (Allowed 8) (start r' idleWorkers) s ∧
      s.passed.length = 2 ∧ s.wire.length = 1 ∧ s.received.length = 1 ∧ s.workers = idleWorkers ∧
      (∀ srv worker stack, srv < numSrv → worker < 8 →
        s.step t 8 (.serve 0 srv worker stack 0xB 0xA) = none) ∧
      ∀ keyValue ∈ [(0 : BitVec 64), 5],
        ((∃ regs p frame d,
          frameStep t (sendFrame 0xA ((readRequest keyValue).datagram 8 firstClient 0xB)) s.regs =
            some (regs, some (p, frame)) ∧
          udpReceive frame = some d ∧ IsHitReply 8 firstClient
            (sendFrame 0xA ((readRequest keyValue).datagram 8 firstClient 0xB)) d) ↔
          keyValue = 0) := by
  have hexec : (Controller.startUp [0, 5] Controller.loadRegisters).any (fun c =>
      (Run.exec (step c.1 8) (fun s a => decide (Allowed 8 s a)) (start c.2 idleWorkers)
        readAndWrite).any (fun s => decide (s.passed.length = 2 ∧ s.wire.length = 1 ∧
          s.received.length = 1 ∧ (∀ f ∈ s.passed, ¬ WritesAt c.1 0 f) ∧
          ∃ f ∈ s.passed, WritesAt c.1 5 f))) = true := by
    decide +kernel
  obtain ⟨⟨t, r'⟩, hstart, hexec⟩ := (Option.any_eq_true _ _).1 hexec
  obtain ⟨s, hrun, hs⟩ := Run.exists_of_exec (fun _ _ => of_decide_eq_true) _ _ hexec
  obtain ⟨hpassed, hwire, hreceived, hkept, hwritten⟩ := of_decide_eq_true hs
  have hroute : (t.ipv4Exact firstClient.ip).isSome := by
    obtain ⟨table, -, rfl⟩ := Controller.installed_of_startUp hstart
    rfl
  obtain ⟨hworkers, hserve, -, hanswered⟩ :=
    served_by_switch hstart (by decide) (by decide) hrun
  refine ⟨t, r', s, hstart, hrun, hpassed, hwire, hreceived, hworkers,
    fun srv worker stack => hserve 0 srv worker stack 0xB 0xA, fun keyValue hkey => ?_⟩
  rw [hanswered firstClient 0xA 0xB (readRequest keyValue) isClient_firstClient rfl]
  rcases List.mem_pair.1 hkey with rfl | rfl
  · exact iff_of_true ⟨hroute, 0, List.mem_cons_self, rfl, hkept⟩ rfl
  · refine iff_of_false ?_ (by decide)
    rintro ⟨-, i, hi, hhash, hnone⟩
    rcases List.mem_pair.1 hi with rfl | rfl
    · exact absurd hhash (by decide +kernel)
    · obtain ⟨f, hf, hwrites⟩ := hwritten
      exact hnone f hf hwrites

end Cluster

end OrbitCache.Netcache
