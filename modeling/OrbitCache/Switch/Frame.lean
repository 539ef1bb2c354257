import OrbitCache.Lib.Simulation
import OrbitCache.Netcache.Header
import OrbitCache.Switch.Fifo

/-!
# Frames as bytes

`orbitcache.p4` on the bytes of a frame: the states of its parser, the ingress control on the
fields that it reads or writes, the deparser with the checksum it computes. The parser accepts
exactly what the deparser emits (`parseEthernet_iff`), and a pass on bytes is the pass on the packet
that the bytes carry (`switchPassBytes_eq`).
-/

namespace OrbitCache

/-! ## Parser and deparser -/

/-- `header_t` with all fields of its headers, those that the control never touches included, and
the validity bits; `tcp` never becomes valid. -/
structure FullHeaderT where
  ethernet : EthernetH
  ipv4 : Netcache.Ipv4H
  ipv4Valid : Bool
  udp : Netcache.UdpH
  udpValid : Bool
  orbitcache : OrbitcacheH
  orbitcacheValid : Bool
  deriving DecidableEq, Repr

/-- The state `parse_orbitcache`: it extracts `ORBITCACHE_h` and accepts. -/
def parseOrbitcache (hdr : FullHeaderT) : StateT Bytes Option FullHeaderT := do
  let orbitcache ← OrbitcacheH.extract
  return { hdr with orbitcache := orbitcache, orbitcacheValid := true }

/-- The state `parse_udp2`: the select on the source port, for the replies of a server. -/
def parseUdp2 (hdr : FullHeaderT) : StateT Bytes Option FullHeaderT :=
  if orbitcachePort hdr.udp.srcPort then parseOrbitcache hdr else return hdr

/-- The state `parse_udp`: the select on the destination port; a packet that it does not recognise
goes to `parse_udp2`. -/
def parseUdp (hdr : FullHeaderT) : StateT Bytes Option FullHeaderT := do
  let udp ← Netcache.UdpH.extract
  let hdr := { hdr with udp := udp, udpValid := true }
  if orbitcachePort hdr.udp.dstPort then parseOrbitcache hdr else parseUdp2 hdr

/-- The state `parse_ipv4`. TCP and every other protocol are accepted here, without a further
header. -/
def parseIpv4 (hdr : FullHeaderT) : StateT Bytes Option FullHeaderT := do
  let ipv4 ← Netcache.Ipv4H.extract
  let hdr := { hdr with ipv4 := ipv4, ipv4Valid := true }
  if hdr.ipv4.protocol = typeUdp then parseUdp hdr else return hdr

/-- The state `parse_ethernet`: `SwitchIngressParser` from the first byte of a frame. It fails on a
frame that ends within a header. -/
def parseEthernet : StateT Bytes Option FullHeaderT := do
  let ethernet ← EthernetH.extract
  let hdr : FullHeaderT := ⟨ethernet, .zero, false, .zero, false, .zero, false⟩
  if hdr.ethernet.etherType = typeIpv4 then parseIpv4 hdr else return hdr

namespace FullHeaderT

/-- `pkt.emit(hdr)`: the bytes of the valid headers, in the order of the fields of `header_t`. -/
def emit (hdr : FullHeaderT) : Bytes :=
  hdr.ethernet.bytes ++ ((if hdr.ipv4Valid then hdr.ipv4.bytes else []) ++
    ((if hdr.udpValid then hdr.udp.bytes else []) ++
      if hdr.orbitcacheValid then hdr.orbitcache.bytes else []))

/-- `SwitchIngressDeparser`: the IPv4 checksum is computed anew over the header as it is now, and
the bytes that were not parsed follow the headers. -/
def deparse (hdr : FullHeaderT) (rest : Bytes) : Bytes :=
  { hdr with ipv4.hdrChecksum := hdr.ipv4.checksum }.emit ++ rest

/-- The fields that the ingress control reads or writes, as the model of the control has them. -/
def control (hdr : FullHeaderT) : HeaderT where
  ethernet := hdr.ethernet
  ipv4 := ⟨hdr.ipv4.protocol, hdr.ipv4.srcAddr, hdr.ipv4.dstAddr⟩
  ipv4Valid := hdr.ipv4Valid
  udp := ⟨hdr.udp.srcPort, hdr.udp.dstPort, hdr.udp.checksum⟩
  udpValid := hdr.udpValid
  orbitcache := hdr.orbitcache
  orbitcacheValid := hdr.orbitcacheValid

/-- The headers as the ingress control has left them: its fields are written back, the others are
those that were parsed. -/
def update (hdr : FullHeaderT) (c : HeaderT) : FullHeaderT where
  ethernet := c.ethernet
  ipv4 :=
    { hdr.ipv4 with
      protocol := c.ipv4.protocol
      srcAddr := c.ipv4.srcAddr
      dstAddr := c.ipv4.dstAddr }
  ipv4Valid := c.ipv4Valid
  udp :=
    { hdr.udp with
      srcPort := c.udp.srcPort
      dstPort := c.udp.dstPort
      checksum := c.udp.checksum }
  udpValid := c.udpValid
  orbitcache := c.orbitcache
  orbitcacheValid := c.orbitcacheValid

end FullHeaderT

/-- One frame through the switch, from bytes to bytes. The egress parser extracts no header, so the
egress pipeline changes nothing. -/
def switchPassBytes (t : Tables) (ingressPort : BitVec 9) (regs : Registers) (frame : Bytes) :
    Option (Registers × List (BitVec 9 × Bytes)) := do
  let (hdr, rest) ← parseEthernet.run frame
  let x := Ingress.apply t ingressPort (.start hdr.control regs)
  return (x.regs, (x.egressPorts t).map fun p => (p, (hdr.update x.hdr).deparse rest))

/-! ## What the parser accepts -/

/-- The headers that a parse can give: one constructor for each way through the states of the
parser, with the outcome of its selects. -/
inductive Parsed : FullHeaderT → Prop
  | other {ethernet} : ethernet.etherType ≠ typeIpv4 →
      Parsed ⟨ethernet, .zero, false, .zero, false, .zero, false⟩
  | ipv4 {ethernet ipv4} : ethernet.etherType = typeIpv4 → ipv4.protocol ≠ typeUdp →
      Parsed ⟨ethernet, ipv4, true, .zero, false, .zero, false⟩
  | udp {ethernet ipv4 udp} : ethernet.etherType = typeIpv4 → ipv4.protocol = typeUdp →
      ¬ orbitcachePort udp.dstPort → ¬ orbitcachePort udp.srcPort →
      Parsed ⟨ethernet, ipv4, true, udp, true, .zero, false⟩
  | orbitcache {ethernet ipv4 udp orbitcache} : ethernet.etherType = typeIpv4 →
      ipv4.protocol = typeUdp → orbitcachePort udp.dstPort ∨ orbitcachePort udp.srcPort →
      Parsed ⟨ethernet, ipv4, true, udp, true, orbitcache, true⟩

section
variable {hdr hdr' : FullHeaderT} {frame l rest : Bytes}

/-- An extraction and what follows it: the parse succeeds if and only if the bytes begin with a
header from which the rest of the parser goes on. -/
theorem run_bind_iff {α β : Type} {p : StateT Bytes Option α} {bytes : α → Bytes}
    (hp : ∀ {a l rest}, p.run l = some (a, rest) ↔ l = bytes a ++ rest)
    {f : α → StateT Bytes Option β} {l rest : Bytes} {b : β} :
    (p >>= f).run l = some (b, rest) ↔
      ∃ a l', l = bytes a ++ l' ∧ (f a).run l' = some (b, rest) := by
  rw [StateT.run_bind, Option.bind_eq_bind, Option.bind_eq_some_iff]
  constructor
  · rintro ⟨⟨a, l'⟩, ha, hf⟩
    exact ⟨a, l', hp.1 ha, hf⟩
  · rintro ⟨a, l', hl, hf⟩
    exact ⟨(a, l'), hp.2 hl, hf⟩

/-- The bytes of a header end where they end: two headers that begin the same bytes are equal, and
so is what follows them. -/
theorem bytes_append_inj {α : Type} {p : StateT Bytes Option α} {bytes : α → Bytes}
    (hp : ∀ {a l rest}, p.run l = some (a, rest) ↔ l = bytes a ++ rest)
    {a a' : α} {l l' : Bytes} (h : bytes a ++ l = bytes a' ++ l') : a = a' ∧ l = l' := by
  have hrun := hp.2 h
  rw [hp.2 rfl, Option.some.injEq, Prod.mk.injEq] at hrun
  exact hrun

/-- A state that accepts reads nothing. -/
theorem run_pure_iff {α : Type} {a b : α} {l rest : Bytes} :
    (pure a : StateT Bytes Option α).run l = some (b, rest) ↔ b = a ∧ l = rest := by
  rw [StateT.run_pure, Option.pure_def, Option.some.injEq, Prod.mk.injEq, eq_comm]

/-- The state `parse_orbitcache` accepts any 27 bytes. -/
theorem parseOrbitcache_iff : (parseOrbitcache hdr).run l = some (hdr', rest) ↔
    ∃ orbitcache, hdr' = { hdr with orbitcache := orbitcache, orbitcacheValid := true } ∧
      l = orbitcache.bytes ++ rest := by
  rw [parseOrbitcache, run_bind_iff OrbitcacheH.extract_iff]
  constructor
  · rintro ⟨orbitcache, l', rfl, h⟩
    obtain ⟨rfl, rfl⟩ := run_pure_iff.1 h
    exact ⟨orbitcache, rfl, rfl⟩
  · rintro ⟨orbitcache, rfl, rfl⟩
    exact ⟨orbitcache, rest, rfl, rfl⟩

/-- The two port selects, as one: the OrbitCache header is parsed when either port is an OrbitCache
port. -/
theorem parseUdp_iff : (parseUdp hdr).run l = some (hdr', rest) ↔
    ∃ udp l', l = udp.bytes ++ l' ∧
      (if orbitcachePort udp.dstPort ∨ orbitcachePort udp.srcPort then
        parseOrbitcache { hdr with udp := udp, udpValid := true }
      else pure { hdr with udp := udp, udpValid := true }).run l' = some (hdr', rest) := by
  rw [parseUdp, run_bind_iff Netcache.UdpH.extract_iff]
  have hselect (udp : Netcache.UdpH) :
      (if orbitcachePort udp.dstPort then parseOrbitcache { hdr with udp := udp, udpValid := true }
        else parseUdp2 { hdr with udp := udp, udpValid := true }) =
      if orbitcachePort udp.dstPort ∨ orbitcachePort udp.srcPort then
        parseOrbitcache { hdr with udp := udp, udpValid := true }
      else pure { hdr with udp := udp, udpValid := true } := by
    rw [parseUdp2]
    split
    · next h => rw [if_pos (.inl h)]
    · next h => simp only [h, Bool.false_eq_true, false_or]
  simp only [hselect]

/-- The parser accepts exactly what is emitted for the headers of a frame, with whatever follows.
The proofs about frames use the parser through this equivalence alone. -/
theorem parseEthernet_iff : parseEthernet.run frame = some (hdr, rest) ↔
    Parsed hdr ∧ frame = hdr.emit ++ rest := by
  rw [parseEthernet, run_bind_iff EthernetH.extract_iff]
  constructor
  · rintro ⟨ethernet, l, rfl, h⟩
    dsimp only at h
    split at h
    · next hether =>
      rw [parseIpv4, run_bind_iff Netcache.Ipv4H.extract_iff] at h
      obtain ⟨ipv4, l, rfl, h⟩ := h
      dsimp only at h
      split at h
      · next hprotocol =>
        rw [parseUdp_iff] at h
        obtain ⟨udp, l, rfl, h⟩ := h
        dsimp only at h
        split at h
        · next hport =>
          obtain ⟨orbitcache, rfl, rfl⟩ := parseOrbitcache_iff.1 h
          exact ⟨.orbitcache hether hprotocol hport, by simp [FullHeaderT.emit]⟩
        · next hport =>
          obtain ⟨rfl, rfl⟩ := run_pure_iff.1 h
          rw [not_or] at hport
          exact ⟨.udp hether hprotocol hport.1 hport.2, by simp [FullHeaderT.emit]⟩
      · next hprotocol =>
        obtain ⟨rfl, rfl⟩ := run_pure_iff.1 h
        exact ⟨.ipv4 hether hprotocol, by simp [FullHeaderT.emit]⟩
    · next hether =>
      obtain ⟨rfl, rfl⟩ := run_pure_iff.1 h
      exact ⟨.other hether, by simp [FullHeaderT.emit]⟩
  · rintro ⟨hparsed, rfl⟩
    cases hparsed with
    | @other ethernet hether =>
      refine ⟨ethernet, rest, by simp [FullHeaderT.emit], ?_⟩
      rw [if_neg hether]
      rfl
    | @ipv4 ethernet ipv4 hether hprotocol =>
      refine ⟨ethernet, ipv4.bytes ++ rest, by simp [FullHeaderT.emit], ?_⟩
      rw [if_pos hether, parseIpv4, run_bind_iff Netcache.Ipv4H.extract_iff]
      refine ⟨ipv4, rest, rfl, ?_⟩
      rw [if_neg hprotocol]
      rfl
    | @udp ethernet ipv4 udp hether hprotocol hdst hsrc =>
      refine ⟨ethernet, ipv4.bytes ++ (udp.bytes ++ rest), by simp [FullHeaderT.emit], ?_⟩
      rw [if_pos hether, parseIpv4, run_bind_iff Netcache.Ipv4H.extract_iff]
      refine ⟨ipv4, udp.bytes ++ rest, rfl, ?_⟩
      rw [if_pos hprotocol, parseUdp_iff]
      refine ⟨udp, rest, rfl, ?_⟩
      rw [if_neg (not_or.2 ⟨hdst, hsrc⟩)]
      rfl
    | @orbitcache ethernet ipv4 udp orbitcache hether hprotocol hport =>
      refine ⟨ethernet, ipv4.bytes ++ (udp.bytes ++ (orbitcache.bytes ++ rest)),
        by simp [FullHeaderT.emit], ?_⟩
      rw [if_pos hether, parseIpv4, run_bind_iff Netcache.Ipv4H.extract_iff]
      refine ⟨ipv4, udp.bytes ++ (orbitcache.bytes ++ rest), rfl, ?_⟩
      rw [if_pos hprotocol, parseUdp_iff]
      refine ⟨udp, orbitcache.bytes ++ rest, rfl, ?_⟩
      rw [if_pos hport]
      exact parseOrbitcache_iff.2 ⟨orbitcache, rfl, rfl⟩

end

/-! ## What the control keeps -/

/-- The headers `y` are the headers `x` but for the fields that actions of the control write: the
destination, and the OrbitCache header without its key hash. A checksum that was cleared stays so.
-/
structure HeaderT.Keeps (x y : HeaderT) : Prop where
  macSrcAddr : y.ethernet.srcAddr = x.ethernet.srcAddr
  etherType : y.ethernet.etherType = x.ethernet.etherType
  ipv4Valid : y.ipv4Valid = x.ipv4Valid
  protocol : y.ipv4.protocol = x.ipv4.protocol
  srcAddr : y.ipv4.srcAddr = x.ipv4.srcAddr
  udpValid : y.udpValid = x.udpValid
  srcPort : y.udp.srcPort = x.udp.srcPort
  checksum : x.udp.checksum = 0 → y.udp.checksum = 0
  orbitcacheValid : y.orbitcacheValid = x.orbitcacheValid
  hkey : y.orbitcache.hkey = x.orbitcache.hkey

namespace HeaderT.Keeps

variable {x y z : HeaderT}

/-- Headers that no action has touched are kept. -/
theorem refl (x : HeaderT) : x.Keeps x := ⟨rfl, rfl, rfl, rfl, rfl, rfl, rfl, id, rfl, rfl⟩

/-- What two stages of the control keep, the two together keep. -/
theorem trans (h : x.Keeps y) (h' : y.Keeps z) : x.Keeps z where
  macSrcAddr := h'.macSrcAddr.trans h.macSrcAddr
  etherType := h'.etherType.trans h.etherType
  ipv4Valid := h'.ipv4Valid.trans h.ipv4Valid
  protocol := h'.protocol.trans h.protocol
  srcAddr := h'.srcAddr.trans h.srcAddr
  udpValid := h'.udpValid.trans h.udpValid
  srcPort := h'.srcPort.trans h.srcPort
  checksum := h'.checksum ∘ h.checksum
  orbitcacheValid := h'.orbitcacheValid.trans h.orbitcacheValid
  hkey := h'.hkey.trans h.hkey

/-- An action that works on the metadata or the registers keeps all headers. -/
theorem of_eq (h : y = x) : x.Keeps y := h ▸ refl x

end HeaderT.Keeps

namespace Ingress

section
variable (t : Tables) (port : BitVec 9) (x : Ingress)

/-- The forwarding table works on the metadata, whether it forwards or drops. -/
@[simp] theorem hdr_ipv4Exact : (ipv4Exact t x).hdr = x.hdr := by
  unfold ipv4Exact
  split <;> rfl

/-- The lookup table sets the index of the key in the metadata. -/
@[simp] theorem hdr_cacheLookupTable : (cacheLookupTable t x).hdr = x.hdr := by
  unfold cacheLookupTable
  split <;> rfl

/-- The recirculation port goes to the metadata. -/
@[simp] theorem hdr_readCacheRecirculationPortTable :
    (readCacheRecirculationPortTable t port x).hdr = x.hdr := by
  unfold readCacheRecirculationPortTable
  split <;> rfl

/-- The multicast group goes to the intrinsic metadata. -/
@[simp] theorem hdr_getCrecircIdTable : (getCrecircIdTable t x).hdr = x.hdr := by
  unfold getCrecircIdTable
  split <;> rfl

/-- The second table of groups writes the same field as the first one. -/
@[simp] theorem hdr_getCrecircIdTable2 : (getCrecircIdTable2 t x).hdr = x.hdr := by
  unfold getCrecircIdTable2
  split <;> rfl

/-- The hardware address of the destination is rewritten, and no other field. -/
theorem keeps_updateDstMACTable : x.hdr.Keeps (updateDstMACTable t x).hdr := by
  rw [updateDstMACTable_eq]
  exact ⟨rfl, rfl, rfl, rfl, rfl, rfl, rfl, id, rfl, rfl⟩

/-- A reply takes its destination, its `seq` and its `latency` from the request table; the other
headers are kept. -/
theorem keeps_dequeue : x.hdr.Keeps (dequeue t x).hdr := by
  have htaken : x.hdr.Keeps (getLatencyAction <| getSeqAction <| getUDPPortAction <|
      getClientIPAction <| addOffset <| incrPtrFrontAction x).hdr :=
    ⟨rfl, rfl, rfl, rfl, rfl, rfl, rfl, id, rfl, rfl⟩
  have hhdr (y : Ingress) : (msgCloningAction (getCrecircIdTable t y)).hdr = y.hdr :=
    hdr_getCrecircIdTable t y
  rw [dequeue, hhdr]
  exact htaken.trans (keeps_updateDstMACTable t _)

/-- The branch of a READ keeps the headers: it works on the registers and the metadata. -/
theorem keeps_applyRead : x.hdr.Keeps (applyRead t x).hdr := by
  unfold applyRead
  have hcount : (if x.igMd.isCached = yes then incTotalCacheAction (incCacheCounterAction x)
      else x).hdr = x.hdr := by
    split <;> rfl
  generalize (if x.igMd.isCached = yes then incTotalCacheAction (incCacheCounterAction x)
    else x) = y at hcount
  rw [← hcount]
  dsimp only
  split
  · split
    · exact .refl _
    · rw [hdr_ipv4Exact]
      exact ⟨rfl, rfl, rfl, rfl, rfl, rfl, rfl, id, rfl, rfl⟩
  · split
    · rw [hdr_ipv4Exact]
      exact .refl _
    · exact .refl _

/-- The branch of a READ reply keeps the headers, whether it serves a pending READ or not. -/
theorem keeps_applyRReply : x.hdr.Keeps (applyRReply t port x).hdr := by
  have hclear : x.hdr.Keeps { x.hdr with udp.checksum := 0 } :=
    ⟨rfl, rfl, rfl, rfl, rfl, rfl, rfl, fun _ => rfl, rfl, rfl⟩
  unfold applyRReply
  dsimp only
  split
  · split
    · split
      · exact hclear.trans (keeps_dequeue t (decrQlenAction { x with hdr.udp.checksum := 0 }))
      · exact hclear
    · split <;> exact hclear
  · rw [hdr_ipv4Exact]
    exact hclear

/-- The branch of a WRITE keeps the headers: of `ORBITCACHE_h` it sets the flag. -/
theorem keeps_applyWrite : x.hdr.Keeps (applyWrite t x).hdr := by
  rw [applyWrite, hdr_ipv4Exact]
  split
  · exact ⟨rfl, rfl, rfl, rfl, rfl, rfl, rfl, id, rfl, rfl⟩
  · exact .refl _

/-- The branch of a WRITE reply keeps the headers: it works on the state of the key and on the
group. -/
theorem keeps_applyWReply : x.hdr.Keeps (applyWReply t x).hdr := by
  unfold applyWReply
  split
  · exact .of_eq (hdr_getCrecircIdTable2 t (validCacheStateAction x))
  · exact .of_eq (hdr_ipv4Exact t x)

/-- The block behind the lookup keeps the headers, with the UDP checksum cleared. The case split
follows the operation. -/
theorem keeps_lookupBlock :
    { x.hdr with udp.checksum := 0 }.Keeps (lookupBlock t port x).hdr := by
  rw [lookupBlock, rewriteOp_eq]
  simp only [hdr_cacheLookupTable, hdr_readCacheRecirculationPortTable]
  exact ⟨rfl, rfl, rfl, rfl, rfl, rfl, rfl, id, rfl, rfl⟩

/-- The control on a packet with a valid OrbitCache header: it clears the UDP checksum and keeps the
headers otherwise. -/
theorem keeps_apply (h : x.hdr.orbitcacheValid = true) :
    { x.hdr with udp.checksum := 0 }.Keeps (apply t port x).hdr := by
  have hlookup := keeps_lookupBlock t port x
  rw [apply, if_pos h]
  generalize lookupBlock t port x = y at hlookup
  refine hlookup.trans ?_
  dsimp only
  split
  · exact .of_eq (hdr_ipv4Exact t y)
  · split
    · have hstate : (if y.igMd.isCached = yes then readCacheStateAction y else y).hdr = y.hdr := by
        split <;> rfl
      generalize (if y.igMd.isCached = yes then readCacheStateAction y else y) = z at hstate
      rw [← hstate]
      split
      · exact keeps_applyRead t z
      · split
        · exact keeps_applyRReply t port z
        · exact .refl _
    · split
      · exact keeps_applyWrite t y
      · split
        · exact keeps_applyWReply t y
        · exact .of_eq (hdr_ipv4Exact t y)

/-- A packet without an OrbitCache header leaves the control with the headers it came with. -/
theorem hdr_apply_plain (h : x.hdr.orbitcacheValid = false) : (apply t port x).hdr = x.hdr := by
  rw [apply, if_neg (by rw [h]; exact Bool.false_ne_true), hdr_ipv4Exact]

end

end Ingress

/-! ## A pass on bytes and a pass on packets -/

/-- The packet whose headers were parsed, as the model of the pass has it. Its payload is the full
headers and the bytes behind them, so the fields that the control does not see are carried along. -/
def FullHeaderT.packet (hdr : FullHeaderT) (rest : Bytes) : Packet (FullHeaderT × Bytes) :=
  ⟨hdr.control.ethernet, hdr.control.ipv4, hdr.control.udp, hdr.control.orbitcache, (hdr, rest)⟩

/-- The bytes of a packet that leaves the switch: the fields of the packet over those in its
payload, deparsed. -/
def Packet.frame (e : Packet (FullHeaderT × Bytes)) : Bytes :=
  (e.payload.1.update { e.payload.1.control with
    ethernet := e.ethernet
    ipv4 := e.ipv4
    udp := e.udp
    orbitcache := e.orbitcache }).deparse e.payload.2

section
variable {hdr : FullHeaderT} {rest frame : Bytes}

/-- The parser of the packet model, on the packet of a parse, finds the headers that were parsed. -/
theorem Parsed.switchIngressParser (h : Parsed hdr) (rest : Bytes) :
    OrbitCache.switchIngressParser (hdr.packet rest) = hdr.control := by
  unfold OrbitCache.switchIngressParser
  cases h with
  | other hether => exact if_neg hether
  | ipv4 hether hprotocol => exact (if_pos hether).trans (if_neg hprotocol)
  | udp hether hprotocol hdst hsrc =>
    refine (if_pos hether).trans ((if_pos hprotocol).trans (if_neg ?_))
    rw [Bool.or_eq_true, not_or]
    exact ⟨hdst, hsrc⟩
  | orbitcache hether hprotocol hport =>
    refine (if_pos hether).trans ((if_pos hprotocol).trans (if_pos ?_))
    rw [Bool.or_eq_true]
    exact hport

/-- The control makes no header valid or invalid, so the deparser emits the headers that the parser
extracted. -/
theorem valid_apply (t : Tables) (port : BitVec 9) (x : Ingress) :
    (Ingress.apply t port x).hdr.ipv4Valid = x.hdr.ipv4Valid ∧
      (Ingress.apply t port x).hdr.udpValid = x.hdr.udpValid ∧
      (Ingress.apply t port x).hdr.orbitcacheValid = x.hdr.orbitcacheValid := by
  cases h : x.hdr.orbitcacheValid with
  | false =>
    rw [Ingress.hdr_apply_plain t port x h]
    exact ⟨rfl, rfl, h⟩
  | true =>
    have hkeeps := Ingress.keeps_apply t port x h
    exact ⟨hkeeps.ipv4Valid, hkeeps.udpValid, hkeeps.orbitcacheValid.trans h⟩

/-- The two deparsers write the same bytes, for headers whose validity is as it was. -/
theorem frame_switchIngressDeparser {c : HeaderT} (rest : Bytes)
    (hipv4 : c.ipv4Valid = hdr.ipv4Valid) (hudp : c.udpValid = hdr.udpValid)
    (horb : c.orbitcacheValid = hdr.orbitcacheValid) :
    (switchIngressDeparser (hdr.packet rest) c).frame = (hdr.update c).deparse rest := by
  simp only [Packet.frame, switchIngressDeparser, FullHeaderT.packet, FullHeaderT.deparse,
    FullHeaderT.update, FullHeaderT.emit, FullHeaderT.control, hipv4, hudp, horb]
  cases hdr.ipv4Valid <;> cases hdr.udpValid <;> cases hdr.orbitcacheValid <;> rfl

/-- A pass on the bytes of a frame is a pass on the packet that they carry: the registers are the
same, and the frames that leave are the bytes of the packets that leave. -/
theorem switchPassBytes_eq (t : Tables) (port : BitVec 9) (r : Registers)
    (h : parseEthernet.run frame = some (hdr, rest)) :
    switchPassBytes t port r frame = some ((switchPass t port r (hdr.packet rest)).1,
      (switchPass t port r (hdr.packet rest)).2.map fun e => (e.1, e.2.frame)) := by
  have hparsed := (parseEthernet_iff.1 h).1
  obtain ⟨hipv4, hudp, horb⟩ := valid_apply t port (.start hdr.control r)
  have hframe := frame_switchIngressDeparser rest hipv4 hudp horb
  rw [switchPassBytes, h, switchPass, hparsed.switchIngressParser rest, List.map_map]
  simp only [Option.bind_eq_bind, Option.bind_some, Option.pure_def, Function.comp_def, hframe]

/-! ## Runs -/

/-- The packet in a frame that enters on a port, if the parser accepts the frame. -/
def decodeFrame (f : BitVec 9 × Bytes) : Option (BitVec 9 × Packet (FullHeaderT × Bytes)) :=
  (parseEthernet.run f.2).map fun p => (f.1, p.1.packet p.2)

/-- A frame on a port, as a step of the switch: there is no step on a frame that the parser rejects.
-/
def frameStep (t : Tables) (f : BitVec 9 × Bytes) (r : Registers) :
    Option (Registers × List (BitVec 9 × Bytes)) :=
  switchPassBytes t f.1 r f.2

/-- A packet on a port, as a step of the switch. There always is one. -/
def packetStep {π : Type} (t : Tables) (p : BitVec 9 × Packet π) (r : Registers) :
    Option (Registers × List (BitVec 9 × Packet π)) :=
  some (switchPass t p.1 r p.2)

/-- A step on a frame is a step on the packet in it, with the packets that leave written out as
bytes. -/
theorem frameStep_eq (t : Tables) (f : BitVec 9 × Bytes) (r : Registers) :
    frameStep t f r = (decodeFrame f).bind fun p =>
      (packetStep t p r).map fun s => (s.1, s.2.map fun e => (e.1, e.2.frame)) := by
  cases h : parseEthernet.run f.2 with
  | none => rw [frameStep, switchPassBytes, decodeFrame, h]; rfl
  | some p =>
    rw [frameStep, switchPassBytes_eq t f.1 r h, decodeFrame, h]
    rfl

/-- The registers after the steps on packets are those of `switchRun`. -/
theorem outputs_packetStep {π : Type} (t : Tables) (r : Registers)
    (ps : List (BitVec 9 × Packet π)) :
    (outputs (packetStep t) ps r).map Prod.fst = some (switchRun t r ps) :=
  outputs_fst (fun _ _ => rfl) ps r

/-- A run on the bytes of frames goes on as long as the parser accepts them, and it is the run on
the packets in them. So what is proved of packets holds of frames. -/
theorem switchRun_bytes (t : Tables) (r : Registers) (fs : List (BitVec 9 × Bytes)) :
    outputs (frameStep t) fs r = (fs.mapM decodeFrame).bind fun ps =>
      (outputs (packetStep t) ps r).map fun s =>
        (switchRun t r ps, s.2.map (List.map fun e => (e.1, e.2.frame))) := by
  rw [outputs_decode (frameStep_eq t)]
  refine congrArg _ (funext fun ps => ?_)
  have hregs := outputs_packetStep t r ps
  cases hrun : outputs (packetStep t) ps r with
  | none => rfl
  | some s =>
    rw [hrun, Option.map_some, Option.some.injEq] at hregs
    rw [Option.map_some, Option.map_some, hregs]

end

end OrbitCache
