import OrbitCache.Switch.Packet

/-!
# NetCache packets

The headers of `netcache.p4`, its parser and its deparser. The parser stops behind `NETCACHE_h`, so
`par_id`, `org_key` and the value of a packet are payload; a packet that the switch answers has the
value headers in front of that payload.
-/

namespace OrbitCache.Netcache

/-! ## Headers -/

/-- `ipv4_h`, with all its fields, since the checksum is computed over them. -/
structure Ipv4H where
  version : BitVec 4
  ihl : BitVec 4
  dscp : BitVec 6
  ecn : BitVec 2
  totalLen : BitVec 16
  identification : BitVec 16
  flags : BitVec 3
  fragOffset : BitVec 13
  ttl : BitVec 8
  protocol : BitVec 8
  hdrChecksum : BitVec 16
  srcAddr : BitVec 32
  dstAddr : BitVec 32
  deriving DecidableEq, Repr

/-- `udp_h`. -/
structure UdpH where
  srcPort : BitVec 16
  dstPort : BitVec 16
  len : BitVec 16
  checksum : BitVec 16
  deriving DecidableEq, Repr

/-- `NETCACHE_h`: the header of OrbitCache without the flag. -/
structure NetcacheH where
  op : BitVec 8
  seq : BitVec 32
  hkeyHi : BitVec 64
  hkeyLo : BitVec 64
  cached : BitVec 8
  latency : BitVec 32
  deriving DecidableEq, Repr

/-- `value_h`: four of the sixteen words of a value. -/
structure ValueH where
  val1 : BitVec 32
  val2 : BitVec 32
  val3 : BitVec 32
  val4 : BitVec 32
  deriving DecidableEq, Repr

/-- A frame that enters the switch: the headers, and the bytes that the parser does not reach. -/
structure Packet (π : Type) where
  ethernet : EthernetH
  ipv4 : Ipv4H
  udp : UdpH
  netcache : NetcacheH
  payload : π
  deriving DecidableEq, Repr

/-- A frame that leaves it: with the value headers that were made valid, which are in front of the
payload. -/
structure Emitted (π : Type) extends Packet π where
  values : List ValueH
  deriving DecidableEq, Repr

/-- The key hash a header carries, the match key of `read_cache_table`. -/
def NetcacheH.hkey (h : NetcacheH) : Hkey := (h.hkeyHi, h.hkeyLo)

def Ipv4H.zero : Ipv4H := ⟨0, 0, 0, 0, 0, 0, 0, 0, 0, 0, 0, 0, 0⟩
def UdpH.zero : UdpH := ⟨0, 0, 0, 0⟩
def NetcacheH.zero : NetcacheH := ⟨0, 0, 0, 0, 0, 0⟩
def ValueH.zero : ValueH := ⟨0, 0, 0, 0⟩

/-- `header_t` with the validity bits; `tcp` and `value5` to `value8` never become valid. -/
structure HeaderT where
  ethernet : EthernetH
  ipv4 : Ipv4H
  ipv4Valid : Bool
  udp : UdpH
  udpValid : Bool
  netcache : NetcacheH
  netcacheValid : Bool
  value1 : ValueH
  value1Valid : Bool
  value2 : ValueH
  value2Valid : Bool
  value3 : ValueH
  value3Valid : Bool
  value4 : ValueH
  value4Valid : Bool
  deriving DecidableEq, Repr

/-- The headers of a frame that has no value headers yet. -/
def HeaderT.parsed (ethernet : EthernetH) (ipv4 : Ipv4H) (ipv4Valid : Bool) (udp : UdpH)
    (udpValid : Bool) (netcache : NetcacheH) (netcacheValid : Bool) : HeaderT :=
  ⟨ethernet, ipv4, ipv4Valid, udp, udpValid, netcache, netcacheValid, .zero, false, .zero, false,
    .zero, false, .zero, false⟩

/-! ## Parser and deparser -/

/-- The 64 entries `NETCACHE_PORT0 .. NETCACHE_PORT63` of the port selects. -/
def netcachePort (p : BitVec 16) : Bool := 1000 ≤ p.toNat && p.toNat ≤ 1063

variable {π : Type}

/-- `SwitchIngressParser`: `parse_ethernet`, `parse_ipv4`, `parse_udp` on the destination port and
`parse_udp2` on the source port, `parse_netcache`. -/
def switchIngressParser (pkt : Packet π) : HeaderT :=
  if pkt.ethernet.etherType = typeIpv4 then
    if pkt.ipv4.protocol = typeUdp then
      if netcachePort pkt.udp.dstPort || netcachePort pkt.udp.srcPort then
        .parsed pkt.ethernet pkt.ipv4 true pkt.udp true pkt.netcache true
      else .parsed pkt.ethernet pkt.ipv4 true pkt.udp true .zero false
    else .parsed pkt.ethernet pkt.ipv4 true .zero false .zero false
  else .parsed pkt.ethernet .zero false .zero false .zero false

/-- The 16-bit words of an IPv4 header without its checksum, as the deparser lists them. -/
def Ipv4H.words (h : Ipv4H) : List Nat :=
  [(h.version ++ h.ihl ++ h.dscp ++ h.ecn).toNat, h.totalLen.toNat, h.identification.toNat,
    (h.flags ++ h.fragOffset).toNat, (h.ttl ++ h.protocol).toNat, h.srcAddr.toNat / 65536,
    h.srcAddr.toNat % 65536, h.dstAddr.toNat / 65536, h.dstAddr.toNat % 65536]

/-- `ipv4_checksum.update`: the complement of the ones' complement sum. -/
def Ipv4H.checksum (h : Ipv4H) : BitVec 16 :=
  ~~~ BitVec.ofNat 16 (h.words.foldl (fun sum w => (sum + w) % 65536 + (sum + w) / 65536) 0)

/-- The value headers that are valid. -/
def HeaderT.values (hdr : HeaderT) : List ValueH :=
  (if hdr.value1Valid then [hdr.value1] else []) ++
    (if hdr.value2Valid then [hdr.value2] else []) ++
    (if hdr.value3Valid then [hdr.value3] else []) ++
    (if hdr.value4Valid then [hdr.value4] else [])

/-- `SwitchIngressDeparser`: the valid headers, the IPv4 header with a new checksum, in front of the
bytes that were not parsed. -/
def switchIngressDeparser (pkt : Packet π) (hdr : HeaderT) : Emitted π where
  ethernet := hdr.ethernet
  ipv4 := if hdr.ipv4Valid then { hdr.ipv4 with hdrChecksum := hdr.ipv4.checksum } else pkt.ipv4
  udp := if hdr.udpValid then hdr.udp else pkt.udp
  netcache := if hdr.netcacheValid then hdr.netcache else pkt.netcache
  values := hdr.values
  payload := pkt.payload

/-- The packets the parser takes into the NetCache block: UDP packets with a NetCache port on either
side. -/
def Packet.IsNetcache (pkt : Packet π) : Prop :=
  pkt.ethernet.etherType = typeIpv4 ∧ pkt.ipv4.protocol = typeUdp ∧
    (netcachePort pkt.udp.dstPort ∨ netcachePort pkt.udp.srcPort)

instance (pkt : Packet π) : Decidable pkt.IsNetcache :=
  inferInstanceAs (Decidable (_ ∧ _ ∧ (_ ∨ _)))

/-- The parser extracts every header of a NetCache packet. -/
theorem switchIngressParser_of_isNetcache {pkt : Packet π} (h : pkt.IsNetcache) :
    switchIngressParser pkt =
      .parsed pkt.ethernet pkt.ipv4 true pkt.udp true pkt.netcache true := by
  obtain ⟨he, hp, hport⟩ := h
  rw [switchIngressParser, if_pos he, if_pos hp, if_pos (by simpa using hport)]

/-- Any other packet leaves the parser with an invalid NetCache header, so the control only forwards
it. -/
theorem netcacheValid_of_not_isNetcache {pkt : Packet π} (h : ¬ pkt.IsNetcache) :
    (switchIngressParser pkt).netcacheValid = false := by
  unfold switchIngressParser
  split
  · next he =>
    split
    · next hp =>
      split
      · next hport => exact absurd ⟨he, hp, by simpa using hport⟩ h
      · rfl
    · rfl
  · rfl

/-- A frame gets its value headers from the control, not from the parser. -/
theorem values_switchIngressParser (pkt : Packet π) : (switchIngressParser pkt).values = [] := by
  unfold switchIngressParser
  split
  · split
    · split <;> rfl
    · rfl
  · rfl

end OrbitCache.Netcache
