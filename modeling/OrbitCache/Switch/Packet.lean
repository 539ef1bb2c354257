import OrbitCache.Config

/-!
# Packets and the ingress parser

The headers `orbitcache.p4` declares, with the fields its controls read or write, and its parser. A
packet is polymorphic in its payload: the bytes behind `ORBITCACHE_h` are never extracted, so the
switch can neither read nor change them. Frames are IPv4 or not by `etherType`, UDP or not by
`protocol`; a header that is not extracted is the zero header.
-/

namespace OrbitCache

/-- `ethernet_h`. The parser looks at `etherType` alone, and a reply from the cache gets a new
`dstAddr`. -/
structure EthernetH where
  dstAddr : BitVec 48
  srcAddr : BitVec 48
  etherType : BitVec 16
  deriving DecidableEq, Repr

/-- `ipv4_h`, without the fields that only the deparser's checksum reads; `Netcache.Ipv4H` has all
of them for the model on bytes. -/
structure Ipv4H where
  protocol : BitVec 8
  srcAddr : BitVec 32
  dstAddr : BitVec 32
  deriving DecidableEq, Repr

/-- `udp_h`, without the length, which no control reads. The checksum is a field that OrbitCache
packets lose: it is set to 0. -/
structure UdpH where
  srcPort : BitVec 16
  dstPort : BitVec 16
  checksum : BitVec 16
  deriving DecidableEq, Repr

/-- `ORBITCACHE_h`, the 27 bytes behind the UDP header that the switch reads: what is behind them,
the partition, the key and the value, it cannot see. -/
structure OrbitcacheH where
  op : BitVec 8
  seq : BitVec 32
  hkeyHi : BitVec 64
  hkeyLo : BitVec 64
  flag : BitVec 8
  cached : BitVec 8
  latency : BitVec 32
  deriving DecidableEq, Repr

/-- A frame on the wire: the four headers and the bytes behind them. The type of these bytes is a
parameter, so that no definition can look at them. -/
structure Packet (π : Type) where
  ethernet : EthernetH
  ipv4 : Ipv4H
  udp : UdpH
  orbitcache : OrbitcacheH
  payload : π
  deriving DecidableEq, Repr

/-- The 128-bit key hash of a header, the match key of `cacheLookup_table`. -/
abbrev Hkey : Type := BitVec 64 × BitVec 64

/-- The key hash a header carries. Two keys with the same hash are the same key for the switch. -/
def OrbitcacheH.hkey (h : OrbitcacheH) : Hkey := (h.hkeyHi, h.hkeyLo)

/-- `header_t` after parsing, with the validity bit of each header behind Ethernet. An invalid
header is the zero header and is not emitted. -/
structure HeaderT where
  ethernet : EthernetH
  ipv4 : Ipv4H
  ipv4Valid : Bool
  udp : UdpH
  udpValid : Bool
  orbitcache : OrbitcacheH
  orbitcacheValid : Bool
  deriving DecidableEq, Repr

/-! ## The parser -/

/-- `TYPE_IPV4`, the EtherType of the frames whose IPv4 header is extracted. -/
abbrev typeIpv4 : BitVec 16 := 0x800
/-- `TYPE_UDP`, the protocol of the packets whose UDP header is extracted. -/
abbrev typeUdp : BitVec 8 := 17

/-- The 64 entries `ORBITCACHE_PORT0 .. ORBITCACHE_PORT63` of the port selects, which are
consecutive: one port for each worker of a server and more. -/
def orbitcachePort (p : BitVec 16) : Bool := 3000 ≤ p.toNat && p.toNat ≤ 3063

/-- The zero header, which stands for an IPv4 header the parser did not extract. -/
def Ipv4H.zero : Ipv4H := ⟨0, 0, 0⟩
/-- The zero header, which stands for a UDP header the parser did not extract. -/
def UdpH.zero : UdpH := ⟨0, 0, 0⟩
/-- The zero header, which stands for an `ORBITCACHE_h` the parser did not extract. -/
def OrbitcacheH.zero : OrbitcacheH := ⟨0, 0, 0, 0, 0, 0, 0⟩

variable {π : Type}

/-- `SwitchIngressParser`: `parse_ethernet`, `parse_ipv4`, `parse_udp` on the destination port and
`parse_udp2` on the source port, `parse_orbitcache`. One of the two ports is enough, so requests and
replies are both taken. -/
def switchIngressParser (pkt : Packet π) : HeaderT :=
  if pkt.ethernet.etherType = typeIpv4 then
    if pkt.ipv4.protocol = typeUdp then
      if orbitcachePort pkt.udp.dstPort || orbitcachePort pkt.udp.srcPort then
        ⟨pkt.ethernet, pkt.ipv4, true, pkt.udp, true, pkt.orbitcache, true⟩
      else
        ⟨pkt.ethernet, pkt.ipv4, true, pkt.udp, true, .zero, false⟩
    else
      ⟨pkt.ethernet, pkt.ipv4, true, .zero, false, .zero, false⟩
  else
    ⟨pkt.ethernet, .zero, false, .zero, false, .zero, false⟩

/-- `SwitchIngressDeparser`: the valid headers are emitted in front of the bytes that were not
parsed, which include the headers that were not extracted. -/
def switchIngressDeparser (pkt : Packet π) (hdr : HeaderT) : Packet π where
  ethernet := hdr.ethernet
  ipv4 := if hdr.ipv4Valid then hdr.ipv4 else pkt.ipv4
  udp := if hdr.udpValid then hdr.udp else pkt.udp
  orbitcache := if hdr.orbitcacheValid then hdr.orbitcache else pkt.orbitcache
  payload := pkt.payload

/-- The packets the parser takes into the OrbitCache block. All that is proved about the cache is
about these; the others are only routed. -/
def Packet.IsOrbitcache (pkt : Packet π) : Prop :=
  pkt.ethernet.etherType = typeIpv4 ∧ pkt.ipv4.protocol = typeUdp ∧
    (orbitcachePort pkt.udp.dstPort ∨ orbitcachePort pkt.udp.srcPort)

instance (pkt : Packet π) : Decidable pkt.IsOrbitcache :=
  inferInstanceAs (Decidable (_ ∧ _ ∧ (_ ∨ _)))

/-- The parser extracts every header of an OrbitCache packet, so the control sees all of them. -/
theorem switchIngressParser_of_isOrbitcache {pkt : Packet π} (h : pkt.IsOrbitcache) :
    switchIngressParser pkt =
      ⟨pkt.ethernet, pkt.ipv4, true, pkt.udp, true, pkt.orbitcache, true⟩ := by
  obtain ⟨he, hp, hport⟩ := h
  rw [switchIngressParser, if_pos he, if_pos hp, if_pos (by simpa using hport)]

/-- Any other packet leaves the parser with an invalid OrbitCache header: the validity bit that
`apply` tests first is a property of the packet. -/
theorem orbitcacheValid_iff {pkt : Packet π} :
    (switchIngressParser pkt).orbitcacheValid = true ↔ pkt.IsOrbitcache := by
  constructor
  · intro h
    unfold switchIngressParser at h
    split at h
    · next he =>
      split at h
      · next hp =>
        split at h
        · next hport => exact ⟨he, hp, by simpa using hport⟩
        · cases h
      · cases h
    · cases h
  · intro h
    rw [switchIngressParser_of_isOrbitcache h]

/-- Deparsing what was parsed gives the packet back: a packet that no action touches leaves as it
came. -/
theorem switchIngressDeparser_switchIngressParser (pkt : Packet π) :
    switchIngressDeparser pkt (switchIngressParser pkt) = pkt := by
  unfold switchIngressDeparser switchIngressParser
  split
  · split
    · split <;> rfl
    · rfl
  · rfl

end OrbitCache
