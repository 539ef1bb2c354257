import Mathlib.Tactic.MkIffOfInductiveProp
import OrbitCache.Lib.Run
import OrbitCache.Switch.Frame

/-!
# What arrives of a frame

`udpReceive` says which datagram the network stack of a host takes out of a frame, if the header
checksum, the lengths and the UDP checksum let it. What the switch emits for a frame that a host
would accept is again accepted, and the datagram is the one of the emitted packet
(`udpReceive_switchPass`). Over whole runs no datagram is invented or damaged behind `ORBITCACHE_h`
(`delivered_run`).
-/

namespace OrbitCache

open Netcache (netWords)

/-! ## The receiver -/

/-- A datagram as a host gets it, with the hardware address it was sent to: the data that `recvfrom`
and `sendto` have of it. -/
structure UdpDatagram where
  macDstAddr : BitVec 48
  srcAddr : BitVec 32
  dstAddr : BitVec 32
  srcPort : BitVec 16
  dstPort : BitVec 16
  payload : Bytes
  deriving DecidableEq, Repr

/-- The words that the UDP checksum covers in front of the UDP header: the two addresses, the
protocol and the length. -/
def pseudoHeader (ipv4 : Netcache.Ipv4H) (udp : Netcache.UdpH) : List Nat :=
  [ipv4.srcAddr.toNat / 65536, ipv4.srcAddr.toNat % 65536, ipv4.dstAddr.toNat / 65536,
    ipv4.dstAddr.toNat % 65536, ipv4.protocol.toNat, udp.len.toNat]

/-- The UDP header and the bytes behind it are a datagram that the stack accepts: an unfragmented
IPv4 packet without options, with the right checksums, and of a length that the frame has. -/
@[mk_iff]
structure Accepts (ipv4 : Netcache.Ipv4H) (udp : Netcache.UdpH) (l : Bytes) : Prop where
  version : ipv4.version = 4
  ihl : ipv4.ihl = 5
  verifies : ipv4.Verifies
  moreFragments : ipv4.flags &&& 1 = 0
  fragOffset : ipv4.fragOffset = 0
  le_len : 8 ≤ udp.len.toNat
  len_le : 20 + udp.len.toNat ≤ ipv4.totalLen.toNat
  totalLen_le : ipv4.totalLen.toNat ≤ 28 + l.length
  checksum : udp.checksum = 0 ∨ OnesComplement.sum 65535 (pseudoHeader ipv4 udp ++
    netWords (udp.bytes ++ l.take (udp.len.toNat - 8))) = 65535

instance (ipv4 : Netcache.Ipv4H) (udp : Netcache.UdpH) (l : Bytes) :
    Decidable (Accepts ipv4 udp l) :=
  decidable_of_iff' _ (accepts_iff ipv4 udp l)

/-- The stack on the bytes of a frame: it takes three headers off and hands on as many bytes of the
rest as the UDP length says. -/
def receiveFrame : StateT Bytes Option UdpDatagram := do
  let ethernet ← EthernetH.extract
  let ipv4 ← Netcache.Ipv4H.extract
  let udp ← Netcache.UdpH.extract
  let l ← get
  if ethernet.etherType = typeIpv4 ∧ ipv4.protocol = typeUdp ∧ Accepts ipv4 udp l then
    return {
      macDstAddr := ethernet.dstAddr
      srcAddr := ipv4.srcAddr
      dstAddr := ipv4.dstAddr
      srcPort := udp.srcPort
      dstPort := udp.dstPort
      payload := l.take (udp.len.toNat - 8) }
  else failure

/-- The datagram in a frame, if a host accepts it. A frame that is longer than its datagram has
padding, which is dropped. -/
def udpReceive (frame : Bytes) : Option UdpDatagram := receiveFrame.run' frame

/-- The headers of a frame that carries a datagram, and the bytes behind them. There is at most one
choice of them for a frame. -/
structure Carries (frame : Bytes) (ethernet : EthernetH) (ipv4 : Netcache.Ipv4H)
    (udp : Netcache.UdpH) (l : Bytes) : Prop where
  frame_eq : frame = ethernet.bytes ++ (ipv4.bytes ++ (udp.bytes ++ l))
  etherType : ethernet.etherType = typeIpv4
  protocol : ipv4.protocol = typeUdp
  accepts : Accepts ipv4 udp l

/-- A host finds a datagram in a frame if and only if the frame carries one, and it is the one in
the headers. -/
theorem udpReceive_iff {frame : Bytes} {d : UdpDatagram} : udpReceive frame = some d ↔
    ∃ ethernet ipv4 udp l, Carries frame ethernet ipv4 udp l ∧
      d = ⟨ethernet.dstAddr, ipv4.srcAddr, ipv4.dstAddr, udp.srcPort, udp.dstPort,
        l.take (udp.len.toNat - 8)⟩ := by
  rw [udpReceive, StateT.run'_eq, Option.map_eq_map, Option.map_eq_some_iff, receiveFrame]
  constructor
  · rintro ⟨⟨d', rest⟩, h, rfl⟩
    rw [run_bind_iff EthernetH.extract_iff] at h
    obtain ⟨ethernet, l, rfl, h⟩ := h
    rw [run_bind_iff Netcache.Ipv4H.extract_iff] at h
    obtain ⟨ipv4, l, rfl, h⟩ := h
    rw [run_bind_iff Netcache.UdpH.extract_iff] at h
    obtain ⟨udp, l, rfl, h⟩ := h
    rw [StateT.run_bind, StateT.run_get, Option.pure_def, Option.bind_eq_bind,
      Option.bind_some] at h
    split at h
    · next haccepts =>
      obtain ⟨rfl, rfl⟩ := run_pure_iff.1 h
      exact ⟨ethernet, ipv4, udp, l, ⟨rfl, haccepts.1, haccepts.2.1, haccepts.2.2⟩, rfl⟩
    · cases h
  · rintro ⟨ethernet, ipv4, udp, l, ⟨rfl, hether, hprotocol, haccepts⟩, rfl⟩
    refine ⟨(_, l), ?_, rfl⟩
    rw [run_bind_iff EthernetH.extract_iff]
    refine ⟨ethernet, _, rfl, ?_⟩
    rw [run_bind_iff Netcache.Ipv4H.extract_iff]
    refine ⟨ipv4, _, rfl, ?_⟩
    rw [run_bind_iff Netcache.UdpH.extract_iff]
    refine ⟨udp, l, rfl, ?_⟩
    rw [StateT.run_bind, StateT.run_get, Option.pure_def, Option.bind_eq_bind, Option.bind_some,
      if_pos ⟨hether, hprotocol, haccepts⟩]
    rfl

/-! ## The sender -/

/-- The headers that the network stack of a host puts in front of a datagram, with both lengths and
no fragmentation; it may leave out the UDP checksum. -/
def sendHeaders (macSrcAddr : BitVec 48) (d : UdpDatagram) : FullHeaderT where
  ethernet := ⟨d.macDstAddr, macSrcAddr, typeIpv4⟩
  ipv4 :=
    { Netcache.Ipv4H.zero with
      version := 4
      ihl := 5
      totalLen := BitVec.ofNat 16 (28 + d.payload.length)
      flags := 2
      ttl := 64
      protocol := typeUdp
      srcAddr := d.srcAddr
      dstAddr := d.dstAddr }
  ipv4Valid := true
  udp := ⟨d.srcPort, d.dstPort, BitVec.ofNat 16 (8 + d.payload.length), 0⟩
  udpValid := true
  orbitcache := .zero
  orbitcacheValid := false

/-- The frame of a datagram, with the IPv4 checksum that the stack computes. -/
def sendFrame (macSrcAddr : BitVec 48) (d : UdpDatagram) : Bytes :=
  (sendHeaders macSrcAddr d).deparse d.payload

/-- What one host sends another one receives, for a datagram that fits the 16-bit length of IPv4. -/
theorem udpReceive_sendFrame (macSrcAddr : BitVec 48) {d : UdpDatagram}
    (hlen : 28 + d.payload.length < 65536) : udpReceive (sendFrame macSrcAddr d) = some d := by
  have htotal : (BitVec.ofNat 16 (28 + d.payload.length)).toNat = 28 + d.payload.length :=
    Nat.mod_eq_of_lt hlen
  have hudp : (BitVec.ofNat 16 (8 + d.payload.length)).toNat = 8 + d.payload.length :=
    Nat.mod_eq_of_lt (by omega)
  have haccepts : Accepts
      { (sendHeaders macSrcAddr d).ipv4 with
        hdrChecksum := (sendHeaders macSrcAddr d).ipv4.checksum }
      (sendHeaders macSrcAddr d).udp d.payload := {
    version := rfl
    ihl := rfl
    verifies := (sendHeaders macSrcAddr d).ipv4.verifies_checksum
    moreFragments := (by decide : (2 : BitVec 3) &&& 1 = 0)
    fragOffset := rfl
    le_len := by simp only [sendHeaders, hudp]; omega
    len_le := by simp only [sendHeaders, hudp, htotal]; omega
    totalLen_le := by simp only [sendHeaders, htotal]; omega
    checksum := .inl rfl }
  refine udpReceive_iff.2 ⟨(sendHeaders macSrcAddr d).ethernet, _, _, _,
    ⟨?_, rfl, rfl, haccepts⟩, ?_⟩
  · simp [sendFrame, FullHeaderT.deparse, FullHeaderT.emit, sendHeaders]
  · simp only [sendHeaders, hudp, Nat.add_sub_cancel_left, List.take_length]

/-! ## One pass -/

/-- The bytes behind the UDP header of a frame: `ORBITCACHE_h`, where it was parsed, and the rest.
-/
def FullHeaderT.behind (hdr : FullHeaderT) (rest : Bytes) : Bytes :=
  (if hdr.orbitcacheValid then hdr.orbitcache.bytes else []) ++ rest

/-- The datagram that a packet carries, read off its fields without going through the bytes. -/
def Packet.received (e : Packet (FullHeaderT × Bytes)) : UdpDatagram where
  macDstAddr := e.ethernet.dstAddr
  srcAddr := e.ipv4.srcAddr
  dstAddr := e.ipv4.dstAddr
  srcPort := e.udp.srcPort
  dstPort := e.udp.dstPort
  payload := ({ e.payload.1 with orbitcache := e.orbitcache }.behind e.payload.2).take
    (e.payload.1.udp.len.toNat - 8)

section
variable {hdr : FullHeaderT} {rest frame : Bytes} {d : UdpDatagram}

/-- A datagram found in a frame that was parsed is in the headers of the parse: the parser of the
switch and the stack of a host agree on where the headers end. -/
theorem Parsed.carries (hparsed : Parsed hdr) (h : udpReceive (hdr.emit ++ rest) = some d) :
    hdr.ipv4Valid = true ∧ hdr.udpValid = true ∧
      Carries (hdr.emit ++ rest) hdr.ethernet hdr.ipv4 hdr.udp (hdr.behind rest) ∧
      d = (hdr.packet rest).received := by
  obtain ⟨ethernet, ipv4, udp, l, ⟨hframe, hether, hprotocol, haccepts⟩, rfl⟩ :=
    udpReceive_iff.1 h
  cases hparsed with
  | other hne =>
    simp only [FullHeaderT.emit, List.append_assoc] at hframe
    obtain ⟨rfl, -⟩ := bytes_append_inj EthernetH.extract_iff hframe
    exact absurd hether hne
  | ipv4 _ hne =>
    simp only [FullHeaderT.emit, List.append_assoc, if_true] at hframe
    obtain ⟨rfl, hipv4⟩ := bytes_append_inj EthernetH.extract_iff hframe
    obtain ⟨rfl, -⟩ := bytes_append_inj Netcache.Ipv4H.extract_iff hipv4
    exact absurd hprotocol hne
  | udp | orbitcache =>
    simp only [FullHeaderT.emit, List.append_assoc, if_true] at hframe
    obtain ⟨rfl, hipv4⟩ := bytes_append_inj EthernetH.extract_iff hframe
    obtain ⟨rfl, hudp⟩ := bytes_append_inj Netcache.Ipv4H.extract_iff hipv4
    obtain ⟨rfl, rfl⟩ := bytes_append_inj Netcache.UdpH.extract_iff hudp
    refine ⟨rfl, rfl, ⟨?_, hether, hprotocol, haccepts⟩, rfl⟩
    simp [FullHeaderT.emit, FullHeaderT.behind]

/-- The bytes behind the UDP header are as many as they were: `ORBITCACHE_h` is rewritten in place.
-/
theorem length_behind (hdr : FullHeaderT) (rest : Bytes) {c : HeaderT}
    (h : c.orbitcacheValid = hdr.orbitcacheValid) :
    ((hdr.update c).behind rest).length = (hdr.behind rest).length := by
  simp only [FullHeaderT.behind, FullHeaderT.update, h, List.length_append]
  cases hdr.orbitcacheValid <;> simp

/-- A host accepts the headers that the control has left, with their new checksum: the control
keeps the lengths, and clears the UDP checksum where it changes what that covers. -/
theorem Accepts.update {c : HeaderT} (h : Accepts hdr.ipv4 hdr.udp (hdr.behind rest))
    (horb : c.orbitcacheValid = hdr.orbitcacheValid)
    (hsum : c.udp.checksum = 0 ∨ c = hdr.control) :
    Accepts { (hdr.update c).ipv4 with hdrChecksum := (hdr.update c).ipv4.checksum }
      (hdr.update c).udp ((hdr.update c).behind rest) where
  version := h.version
  ihl := h.ihl
  verifies := (hdr.update c).ipv4.verifies_checksum
  moreFragments := h.moreFragments
  fragOffset := h.fragOffset
  le_len := h.le_len
  len_le := h.len_le
  totalLen_le := by
    rw [length_behind hdr rest horb]
    exact h.totalLen_le
  checksum := by
    rcases hsum with hzero | rfl
    · exact .inl hzero
    · exact h.checksum

/-- A host takes the datagram of a packet out of the frame that the switch emits for it. -/
theorem udpReceive_update {c : HeaderT} (hparsed : Parsed hdr)
    (h : udpReceive (hdr.emit ++ rest) = some d) (hkeeps : hdr.control.Keeps c)
    (hsum : c.udp.checksum = 0 ∨ c = hdr.control) :
    udpReceive ((hdr.update c).deparse rest) =
      some (switchIngressDeparser (hdr.packet rest) c).received := by
  obtain ⟨hipv4, hudp, ⟨-, hether, hprotocol, haccepts⟩, -⟩ := hparsed.carries h
  have hipv4' : c.ipv4Valid = true := hkeeps.ipv4Valid.trans hipv4
  have hudp' : c.udpValid = true := hkeeps.udpValid.trans hudp
  have horb : c.orbitcacheValid = hdr.orbitcacheValid := hkeeps.orbitcacheValid
  refine udpReceive_iff.2 ⟨c.ethernet,
    { (hdr.update c).ipv4 with hdrChecksum := (hdr.update c).ipv4.checksum }, (hdr.update c).udp,
    (hdr.update c).behind rest, ⟨?_, ?_, ?_, haccepts.update horb hsum⟩, ?_⟩
  · simp [FullHeaderT.deparse, FullHeaderT.emit, FullHeaderT.behind, FullHeaderT.update, hipv4',
      hudp']
  · exact hkeeps.etherType.trans hether
  · exact hkeeps.protocol.trans hprotocol
  · simp only [Packet.received, switchIngressDeparser, FullHeaderT.packet, FullHeaderT.behind,
      FullHeaderT.update, hipv4', hudp', horb, if_true]
    cases hdr.orbitcacheValid <;> rfl

/-- What leaves the switch has the headers that the control has left. A packet whose headers were
changed is an OrbitCache packet, and its UDP checksum is cleared. -/
theorem switchPass_keeps {t : Tables} {port : BitVec 9} {r : Registers} (hparsed : Parsed hdr)
    {e : BitVec 9 × Packet (FullHeaderT × Bytes)}
    (he : e ∈ (switchPass t port r (hdr.packet rest)).2) :
    ∃ c, e.2 = switchIngressDeparser (hdr.packet rest) c ∧ hdr.control.Keeps c ∧
      (hdr.orbitcacheValid = true ∧ c.udp.checksum = 0 ∨ c = hdr.control) := by
  rw [switchPass, hparsed.switchIngressParser rest, List.mem_map] at he
  obtain ⟨p, -, rfl⟩ := he
  refine ⟨_, rfl, ?_⟩
  cases hvalid : hdr.orbitcacheValid with
  | false =>
    have hsame := Ingress.hdr_apply_plain t port (.start hdr.control r) hvalid
    exact ⟨.of_eq hsame, .inr hsame⟩
  | true =>
    have hkeeps := Ingress.keeps_apply t port (.start hdr.control r) hvalid
    have hclear : hdr.control.Keeps { hdr.control with udp.checksum := 0 } :=
      ⟨rfl, rfl, rfl, rfl, rfl, rfl, rfl, fun _ => rfl, rfl, rfl⟩
    exact ⟨hclear.trans hkeeps, .inl ⟨rfl, hkeeps.checksum rfl⟩⟩

/-- What a host makes of a frame that leaves the switch is the datagram of the packet. With it the
datagrams of a run are computed on packets. -/
theorem udpReceive_switchPass {t : Tables} {port : BitVec 9} {r : Registers}
    (h : parseEthernet.run frame = some (hdr, rest)) (hreceive : udpReceive frame = some d)
    {e : BitVec 9 × Packet (FullHeaderT × Bytes)}
    (he : e ∈ (switchPass t port r (hdr.packet rest)).2) :
    udpReceive e.2.frame = some e.2.received := by
  obtain ⟨hparsed, rfl⟩ := parseEthernet_iff.1 h
  obtain ⟨c, heq, hkeeps, hsum⟩ := switchPass_keeps hparsed he
  rw [heq, frame_switchIngressDeparser rest hkeeps.ipv4Valid hkeeps.udpValid hkeeps.orbitcacheValid]
  exact udpReceive_update hparsed hreceive hkeeps (hsum.imp_left And.right)

end

/-! ## What stays with a datagram -/

/-- What a datagram says of its item: the key hash, and all that is behind `ORBITCACHE_h`. The
operation, `seq`, the flags and `latency` are left out. -/
def content (payload : Bytes) : Bytes := (payload.drop 5).take 16 ++ payload.drop 27

/-- A frame with a datagram that has room for `ORBITCACHE_h`, as all frames of clients and servers
have. -/
def Deliverable (frame : Bytes) : Prop := ∃ d, udpReceive frame = some d ∧ 27 ≤ d.payload.length

/-- A host accepts both frames, from the same sender and with the same content: the second one is
the first one with another operation or receiver. -/
def CarriesOn (frame frame' : Bytes) : Prop :=
  ∃ d d', udpReceive frame = some d ∧ udpReceive frame' = some d' ∧ 27 ≤ d.payload.length ∧
    d'.srcAddr = d.srcAddr ∧ d'.srcPort = d.srcPort ∧ d'.payload.length = d.payload.length ∧
    content d'.payload = content d.payload

/-- A frame that is emitted as it came carries on itself. -/
theorem CarriesOn.refl {frame : Bytes} (h : Deliverable frame) : CarriesOn frame frame := by
  obtain ⟨d, hd, hlen⟩ := h
  exact ⟨d, d, hd, hd, hlen, rfl, rfl, rfl, rfl⟩

/-- A frame can go round many times: what each pass carries on, all of them carry on. -/
theorem CarriesOn.trans {frame frame' frame'' : Bytes} (h : CarriesOn frame frame')
    (h' : CarriesOn frame' frame'') : CarriesOn frame frame'' := by
  obtain ⟨d, d', hd, hd', hlen, haddr, hport, hlength, hcontent⟩ := h
  obtain ⟨e, e', he, he', -, haddr', hport', hlength', hcontent'⟩ := h'
  obtain rfl := Option.some.inj (hd'.symm.trans he)
  exact ⟨d, e', hd, he', hlen, haddr'.trans haddr, hport'.trans hport, hlength'.trans hlength,
    hcontent'.trans hcontent⟩

/-- A frame that carries on another one is deliverable itself, so it may enter again. -/
theorem CarriesOn.deliverable {frame frame' : Bytes} (h : CarriesOn frame frame') :
    Deliverable frame' := by
  obtain ⟨d, d', -, hd', hlen, -, -, hlength, -⟩ := h
  exact ⟨d', hd', hlength ▸ hlen⟩

/-- The content of a datagram, by its header: the two halves of the hash in network order, and what
is behind the header. -/
theorem content_take {h : OrbitcacheH} {rest : Bytes} {n : Nat} (hn : 27 ≤ n) :
    content ((h.bytes ++ rest).take n) =
      Endian.network 8 h.hkeyHi.toNat ++ Endian.network 8 h.hkeyLo.toNat ++ rest.take (n - 27) := by
  have hlen : h.bytes.length = 27 := h.length_bytes
  have htake : (h.bytes ++ rest).take n = h.bytes ++ rest.take (n - 27) := by
    rw [List.take_append, List.take_of_length_le (by omega), hlen]
  have hhead : (Endian.network 1 h.op.toNat ++ Endian.network 4 h.seq.toNat).length = 5 := by simp
  have hkey : (Endian.network 8 h.hkeyHi.toNat ++ Endian.network 8 h.hkeyLo.toNat).length = 16 := by
    simp
  have hsplit : h.bytes = (Endian.network 1 h.op.toNat ++ Endian.network 4 h.seq.toNat) ++
      ((Endian.network 8 h.hkeyHi.toNat ++ Endian.network 8 h.hkeyLo.toNat) ++
        (Endian.network 1 h.flag.toNat ++ (Endian.network 1 h.cached.toNat ++
          Endian.network 4 h.latency.toNat))) := by
    simp only [OrbitcacheH.bytes, List.append_assoc]
  rw [content, htake, List.drop_left' hlen, hsplit, List.append_assoc, List.drop_left' hhead,
    List.append_assoc, List.take_left' hkey]

section
variable {t : Tables} {port : BitVec 9} {r : Registers} {frame : Bytes}

/-- The parser accepts every frame with a datagram that has room for `ORBITCACHE_h`: each of its
extractions finds enough bytes. -/
theorem Deliverable.parse (h : Deliverable frame) :
    ∃ hdr rest, parseEthernet.run frame = some (hdr, rest) := by
  obtain ⟨d, hd, hlen⟩ := h
  obtain ⟨ethernet, ipv4, udp, l, ⟨rfl, hether, hprotocol, haccepts⟩, rfl⟩ := udpReceive_iff.1 hd
  by_cases hport : orbitcachePort udp.dstPort ∨ orbitcachePort udp.srcPort
  · have hl : 27 ≤ l.length := Nat.le_trans hlen (List.length_take_le' _ _)
    obtain ⟨orbitcache, rest, rfl⟩ := OrbitcacheH.exists_bytes hl
    exact ⟨⟨ethernet, ipv4, true, udp, true, orbitcache, true⟩, rest,
      parseEthernet_iff.2 ⟨.orbitcache hether hprotocol hport, by simp [FullHeaderT.emit]⟩⟩
  · rw [not_or] at hport
    exact ⟨_, l, parseEthernet_iff.2 ⟨.udp hether hprotocol hport.1 hport.2,
      by simp [FullHeaderT.emit]⟩⟩

/-- The emitted packet has the sender and the content of the packet that came, since the control
keeps the fields they are read from. -/
theorem received_switchIngressDeparser {hdr : FullHeaderT} {rest : Bytes} {c : HeaderT}
    (hkeeps : hdr.control.Keeps c) (hsame : hdr.orbitcacheValid = true ∨ c = hdr.control)
    (hlen : 27 ≤ (hdr.packet rest).received.payload.length) :
    let d := (hdr.packet rest).received
    let d' := (switchIngressDeparser (hdr.packet rest) c).received
    d'.srcAddr = d.srcAddr ∧ d'.srcPort = d.srcPort ∧ d'.payload.length = d.payload.length ∧
      content d'.payload = content d.payload := by
  intro d d'
  have haddr : d'.srcAddr = d.srcAddr := by
    cases hv : c.ipv4Valid with
    | false => simp only [d', Packet.received, switchIngressDeparser, hv]; rfl
    | true => simp only [d', Packet.received, switchIngressDeparser, hv]; exact hkeeps.srcAddr
  have hport : d'.srcPort = d.srcPort := by
    cases hv : c.udpValid with
    | false => simp only [d', Packet.received, switchIngressDeparser, hv]; rfl
    | true => simp only [d', Packet.received, switchIngressDeparser, hv]; exact hkeeps.srcPort
  refine ⟨haddr, hport, ?_⟩
  rcases hsame with hvalid | rfl
  · have hvalid' : c.orbitcacheValid = true := hkeeps.orbitcacheValid.trans hvalid
    have hd : d.payload = (hdr.orbitcache.bytes ++ rest).take (hdr.udp.len.toNat - 8) := by
      simp only [d, Packet.received, FullHeaderT.packet, FullHeaderT.behind, hvalid]
      rfl
    have hd' : d'.payload = (c.orbitcache.bytes ++ rest).take (hdr.udp.len.toNat - 8) := by
      simp only [d', Packet.received, switchIngressDeparser, FullHeaderT.packet,
        FullHeaderT.behind, hvalid, hvalid']
      rfl
    have hn : 27 ≤ hdr.udp.len.toNat - 8 := by
      refine Nat.le_trans hlen ?_
      rw [hd]
      exact List.length_take_le _ _
    have hkey := Prod.mk.inj hkeeps.hkey
    rw [hd, hd', content_take hn, content_take hn, hkey.1, hkey.2]
    exact ⟨by simp, rfl⟩
  · have hpayload : d'.payload = d.payload := by
      simp only [d, d', Packet.received, switchIngressDeparser]
      cases hv : hdr.control.orbitcacheValid <;> rfl
    rw [hpayload]
    exact ⟨rfl, rfl⟩

/-- What the switch emits for a frame carries on what the frame carried. -/
theorem Deliverable.carriesOn (h : Deliverable frame) {r' : Registers}
    {outs : List (BitVec 9 × Bytes)} (hpass : switchPassBytes t port r frame = some (r', outs))
    {f : BitVec 9 × Bytes} (hf : f ∈ outs) : CarriesOn frame f.2 := by
  obtain ⟨hdr, rest, hparse⟩ := h.parse
  obtain ⟨d, hd, hlen⟩ := h
  obtain ⟨hparsed, rfl⟩ := parseEthernet_iff.1 hparse
  obtain ⟨-, -, -, rfl⟩ := hparsed.carries hd
  rw [switchPassBytes_eq t port r hparse, Option.some.injEq, Prod.mk.injEq] at hpass
  obtain ⟨-, rfl⟩ := hpass
  obtain ⟨e, he, rfl⟩ := List.mem_map.1 hf
  obtain ⟨c, heq, hkeeps, hsum⟩ := switchPass_keeps hparsed he
  have hsame := received_switchIngressDeparser hkeeps (hsum.imp_left And.left) hlen
  exact ⟨_, _, hd, udpReceive_switchPass hparse hd he, hlen, heq ▸ hsame⟩

end

/-! ## Runs -/

/-- The switch with the frames that hosts have sent to it and the frames it has emitted, in the
order in which they left it. -/
structure Fabric where
  regs : Registers
  sent : List Bytes
  emitted : List Bytes

/-- A frame enters the switch, from a host or because the switch has emitted it before. -/
inductive LinkAction
  /-- A host sends it. -/
  | send (port : BitVec 9) (frame : Bytes)
  /-- It was emitted before: it comes back over the recirculation port, or a host returns it. -/
  | reenter (port : BitVec 9) (i : Nat)

/-- The switch after a frame has entered: the frames that leave are recorded behind those that left
before. There is no step on a frame that the parser rejects. -/
def linkStep (t : Tables) (s : Fabric) : LinkAction → Option Fabric
  | .send port frame => do
    let (regs, outs) ← switchPassBytes t port s.regs frame
    return ⟨regs, s.sent ++ [frame], s.emitted ++ outs.map Prod.snd⟩
  | .reenter port i => do
    let frame ← s.emitted[i]?
    let (regs, outs) ← switchPassBytes t port s.regs frame
    return ⟨regs, s.sent, s.emitted ++ outs.map Prod.snd⟩

/-- Hosts send datagrams that their stacks would accept, and what comes back was emitted. -/
def Sendable (s : Fabric) : LinkAction → Prop
  | .send _ frame => Deliverable frame
  | .reenter _ i => i < s.emitted.length

/-- Every frame that was emitted carries on one that a host has sent: the invariant of the runs. -/
def Fabric.Faithful (s : Fabric) : Prop := ∀ f ∈ s.emitted, ∃ g ∈ s.sent, CarriesOn g f

section
variable {t : Tables} {s s' : Fabric} {r : Registers}

/-- A pass keeps the invariant: the frame that enters carries on one that was sent, and what leaves
carries it on. -/
theorem Fabric.Faithful.step (hs : s.Faithful) {a : LinkAction} (ha : Sendable s a)
    (hstep : linkStep t s a = some s') : s'.Faithful := by
  intro f hf
  cases a with
  | send port frame =>
    obtain ⟨⟨regs, outs⟩, hpass, hstep⟩ := Option.bind_eq_some_iff.1 hstep
    cases hstep
    rcases List.mem_append.1 hf with hf | hf
    · obtain ⟨g, hg, hcarries⟩ := hs f hf
      exact ⟨g, List.mem_append_left _ hg, hcarries⟩
    · obtain ⟨o, ho, rfl⟩ := List.mem_map.1 hf
      exact ⟨frame, by simp, ha.carriesOn hpass ho⟩
  | reenter port i =>
    obtain ⟨frame, hframe, hstep⟩ := Option.bind_eq_some_iff.1 hstep
    obtain ⟨⟨regs, outs⟩, hpass, hstep⟩ := Option.bind_eq_some_iff.1 hstep
    cases hstep
    rcases List.mem_append.1 hf with hf | hf
    · exact hs f hf
    · obtain ⟨o, ho, rfl⟩ := List.mem_map.1 hf
      obtain ⟨g, hg, hcarries⟩ := hs frame (List.mem_of_getElem? hframe)
      exact ⟨g, hg, hcarries.trans (hcarries.deliverable.carriesOn hpass ho)⟩

/-- The parser accepts whatever enters, so there always is a step. -/
theorem Fabric.Faithful.progress (hs : s.Faithful) {a : LinkAction} (ha : Sendable s a) :
    (linkStep t s a).isSome := by
  have hpass {frame : Bytes} (h : Deliverable frame) (port : BitVec 9) :
      ∃ o, switchPassBytes t port s.regs frame = some o := by
    obtain ⟨hdr, rest, hparse⟩ := h.parse
    exact ⟨_, switchPassBytes_eq t port s.regs hparse⟩
  cases a with
  | send port frame =>
    obtain ⟨o, ho⟩ := hpass ha port
    rw [linkStep, ho]
    rfl
  | reenter port i =>
    obtain ⟨g, -, hcarries⟩ := hs s.emitted[i] (List.getElem_mem ha)
    obtain ⟨o, ho⟩ := hpass hcarries.deliverable port
    rw [linkStep, List.getElem?_eq_getElem ha]
    simp only [Option.bind_eq_bind, Option.bind_some, ho]
    rfl

/-- In every run, whatever frames come back, the switch takes every frame, and every frame that it
emits is accepted by a host, from the same sender and with the same key hash, key and value as a
frame that a host has sent. -/
theorem delivered_run (h : Run (linkStep t) Sendable ⟨r, [], []⟩ s) :
    (∀ f ∈ s.emitted, ∃ g ∈ s.sent, CarriesOn g f) ∧
      ∀ a, Sendable s a → (linkStep t s a).isSome := by
  have hfaithful : s.Faithful := by
    refine h.invariant Fabric.Faithful ?_ fun u a v hu ha hstep => hu.step ha hstep
    intro f hf
    cases hf
  exact ⟨hfaithful, fun a ha => hfaithful.progress ha⟩

end

/-! ## A cached key -/

/-- A datagram with room for `ORBITCACHE_h` can be recognised by receiving it. -/
instance (frame : Bytes) : Decidable (Deliverable frame) :=
  decidable_of_iff ((udpReceive frame).any (fun d => decide (27 ≤ d.payload.length)) = true) <| by
    simp [Deliverable, Option.any_eq_true]

instance (s : Fabric) : (a : LinkAction) → Decidable (Sendable s a)
  | .send _ frame => inferInstanceAs (Decidable (Deliverable frame))
  | .reenter _ i => inferInstanceAs (Decidable (i < s.emitted.length))

/-- A message about the key whose hash has the halves 1 and 2: the header, the partition and the 16
bytes of the key, and the value. -/
def keyMessage (op : BitVec 8) (seq latency : BitVec 32) (value : Bytes) : Bytes :=
  OrbitcacheH.bytes ⟨op, seq, 1, 2, 0, 0, latency⟩ ++ (1 :: List.replicate 15 0x41 ++ [0]) ++ value

/-- A READ of that key, which the client at port 5 sends. -/
def readFrame : Bytes :=
  sendFrame 0xC ⟨0xA, 0x0A000165, 0x0A000166, 3001, 3000, keyMessage opRead 1 7 []⟩

/-- The reply to a WRITE of another client, with two bytes of value, which the server at port 6
sends. -/
def writeReplyFrame : Bytes :=
  sendFrame 0xD ⟨0xA, 0x0A000166, 0x0A000167, 3000, 3002, keyMessage opWReply 9 5 [0x42, 0x43]⟩

/-- The key is cached at index 0. The group of each client is its port and the recirculation
port. -/
def cachingTables : Tables where
  ipv4Exact dst := if dst = 0x0A000165 then some 5 else none
  cacheLookup hkey := if hkey = (1, 2) then some 0 else none
  readCacheRecirculationPort _ := some (68, 0)
  getCrecircId dst _ := if dst = 0x0A000165 then some 1 else none
  getCrecircId2 dst _ := if dst = 0x0A000167 then some 2 else none
  updateDstMAC dst := if dst = 0x0A000165 then some 0xC else none
  mgid g := if g = 1 then [5, 68] else if g = 2 then [7, 68] else []

/-- No index is VALID and nothing is pending. -/
def emptyRegisters : Registers :=
  ⟨0, 0, fun _ => invalid, fun _ => 0, fun _ => 0, fun _ => 0, fun _ => 0, fun _ => 0, fun _ => 0,
    fun _ => 0, fun _ => 0⟩

/-- The reply to the WRITE makes the index VALID and leaves a cache packet, a READ waits, the cache
packet comes back and answers it, and its copy comes back once more. -/
def cachingRun : List LinkAction :=
  [.send 6 writeReplyFrame, .send 5 readFrame, .reenter 68 1, .reenter 68 3]

/-- The frame that answers the READ was rewritten in the switch: it has the operation of a reply and
the address, the port, the `seq` and the `latency` of the READ, and the value of the server. -/
theorem delivered_run_cached :
    ∃ s, s.sent = [writeReplyFrame, readFrame] ∧ s.emitted.length = 5 ∧
      s.emitted[2]?.bind udpReceive = some
        ⟨0xC, 0x0A000166, 0x0A000165, 3000, 3001, keyMessage opRReply 1 7 [0x42, 0x43]⟩ ∧
      (∀ f ∈ s.emitted, ∃ g ∈ s.sent, CarriesOn g f) ∧
      ∀ a, Sendable s a → (linkStep cachingTables s a).isSome := by
  have hexec : (Run.exec (linkStep cachingTables) (fun s a => decide (Sendable s a))
      ⟨emptyRegisters, [], []⟩ cachingRun).any (fun s =>
        decide (s.sent = [writeReplyFrame, readFrame] ∧ s.emitted.length = 5 ∧
          s.emitted[2]?.bind udpReceive = some
            ⟨0xC, 0x0A000166, 0x0A000165, 3000, 3001, keyMessage opRReply 1 7 [0x42, 0x43]⟩)) =
        true := by
    decide +kernel
  obtain ⟨s, hrun, hs⟩ := Run.exists_of_exec (fun _ _ => of_decide_eq_true) _ _ hexec
  obtain ⟨hsent, hlen, hanswer⟩ := of_decide_eq_true hs
  exact ⟨s, hsent, hlen, hanswer, delivered_run hrun⟩

end OrbitCache
