import OrbitCache.Host.Wire
import OrbitCache.Netcache.Reply

/-!
# NetCache replies as bytes

`struct netcache_hdr` of the hosts, the bytes of a frame that leaves the switch, and what a client
reads from the reply to its READ. In the struct the value stands behind `par_id` and `org_key`; the
deparser emits the value headers in front of these two, which the parser left in the payload, and
both length fields are still those of the request. `not_answeredBy`: no hit is answered as the
client expects.
-/

namespace OrbitCache.Netcache

/-! ## The struct -/

/-- `struct netcache_hdr`; a number is what the host reads in the field, so it was converted by the
program that wrote it. -/
structure NetcacheHdr where
  op : BitVec 8
  seq : BitVec 32
  hkeyHi : BitVec 64
  hkeyLo : BitVec 64
  cached : BitVec 8
  latency : BitVec 32
  parId : BitVec 8
  orgKey : Vector (BitVec 8) keySize
  value : Bytes

/-- The extraction of `NETCACHE_h`, its fields in order; it fails on a short packet. -/
def NetcacheH.extract : StateT Bytes Option NetcacheH := do
  let op ← extractField 1
  let seq ← extractField 4
  let hkeyHi ← extractField 8
  let hkeyLo ← extractField 8
  let cached ← extractField 1
  let latency ← extractField 4
  return {
    op := BitVec.ofNat 8 op
    seq := BitVec.ofNat 32 seq
    hkeyHi := BitVec.ofNat 64 hkeyHi
    hkeyLo := BitVec.ofNat 64 hkeyLo
    cached := BitVec.ofNat 8 cached
    latency := BitVec.ofNat 32 latency }

/-- The bytes of an emitted `NETCACHE_h`: the order in which the parser extracts the fields. -/
def NetcacheH.bytes (h : NetcacheH) : Bytes :=
  Endian.network 1 h.op.toNat ++ (Endian.network 4 h.seq.toNat ++
    (Endian.network 8 h.hkeyHi.toNat ++ (Endian.network 8 h.hkeyLo.toNat ++
      (Endian.network 1 h.cached.toNat ++ Endian.network 4 h.latency.toNat))))

namespace NetcacheHdr

/-- The bytes of the fields that `NETCACHE_h` has, the first 26 of the struct. -/
def headBytes (hdr : NetcacheHdr) : Bytes :=
  Endian.bytes 1 hdr.op.toNat ++ (Endian.bytes 4 hdr.seq.toNat ++
    (Endian.bytes 8 hdr.hkeyHi.toNat ++ (Endian.bytes 8 hdr.hkeyLo.toNat ++
      (Endian.bytes 1 hdr.cached.toNat ++ Endian.bytes 4 hdr.latency.toNat))))

/-- The bytes of `par_id` and `org_key`, which the switch has no header for. -/
def keyBytes (hdr : NetcacheHdr) : Bytes :=
  Endian.bytes 1 hdr.parId.toNat ++ hdr.orgKey.toList

/-- The datagram of `sizeof(SendBuffer) - MAX_VALUE_SIZE + value_size` bytes. -/
def sent (hdr : NetcacheHdr) (valueSize : Nat) : Bytes :=
  hdr.headBytes ++ (hdr.keyBytes ++ hdr.value.take valueSize)

/-- `struct netcache_hdr` over the bytes of a buffer, as a little-endian host reads it. -/
def overlay : StateT Bytes Option NetcacheHdr := do
  let op ← littleField 1
  let seq ← littleField 4
  let hkeyHi ← littleField 8
  let hkeyLo ← littleField 8
  let cached ← littleField 1
  let latency ← littleField 4
  let parId ← littleField 1
  let orgKey ← byteField keySize
  let value ← get
  return {
    op := BitVec.ofNat 8 op
    seq := BitVec.ofNat 32 seq
    hkeyHi := BitVec.ofNat 64 hkeyHi
    hkeyLo := BitVec.ofNat 64 hkeyLo
    cached := BitVec.ofNat 8 cached
    latency := BitVec.ofNat 32 latency
    parId := BitVec.ofNat 8 parId
    orgKey := keyField orgKey
    value := value }

/-- The header the switch reads in front of a struct: the integers of the host in network order. -/
def netcacheH (hdr : NetcacheHdr) : NetcacheH where
  op := hdr.op
  seq := htonl hdr.seq
  hkeyHi := htonll hdr.hkeyHi
  hkeyLo := htonll hdr.hkeyLo
  cached := hdr.cached
  latency := htonl hdr.latency

/-- The switch finds its header at the start of the struct. -/
theorem extract_append (hdr : NetcacheHdr) (rest : Bytes) :
    NetcacheH.extract.run (hdr.headBytes ++ rest) = some (hdr.netcacheH, rest) := by
  simp only [NetcacheH.extract, headBytes, List.append_assoc]
  simp only [StateT.run_bind, extractField_bytes, StateT.run_pure, Option.bind_eq_bind,
    Option.bind_some, Option.pure_def, swap_one, ofNat_swap_eq_htonll]
  rfl

/-- The switch writes the fields as it has read them, so the struct is as it was if no field has
changed. -/
theorem bytes_netcacheH (hdr : NetcacheHdr) : hdr.netcacheH.bytes = hdr.headBytes := by
  simp only [NetcacheH.bytes, netcacheH, toNat_htonl, toNat_htonll, Endian.network_swap]
  rfl

/-- A host reads back the struct that was sent. -/
theorem overlay_append (hdr : NetcacheHdr) :
    overlay.run (hdr.headBytes ++ (hdr.keyBytes ++ hdr.value)) = some (hdr, hdr.value) := by
  have hkey : hdr.orgKey.toList.length = keySize := Vector.length_toList ..
  simp only [overlay, headBytes, keyBytes, List.append_assoc]
  simp only [StateT.run_bind, littleField_byte, littleField_word, littleField_long,
    byteField_append hkey, StateT.run_pure, StateT.run_get, Option.bind_eq_bind, Option.bind_some,
    Option.pure_def, keyField_toList, BitVec.ofNat_toNat, BitVec.setWidth_eq]

/-- These are 26 bytes. -/
@[simp] theorem length_headBytes (hdr : NetcacheHdr) : hdr.headBytes.length = 26 := by
  simp [headBytes]

/-- And these are 17. -/
@[simp] theorem length_keyBytes (hdr : NetcacheHdr) : hdr.keyBytes.length = 17 := by
  rw [keyBytes, List.length_append, Endian.length_bytes, Vector.length_toList]
  rfl

end NetcacheHdr

/-- Any bytes can stand where a struct has `par_id`, `org_key` and the value. -/
theorem exists_keyBytes {l : Bytes} (hlen : 17 ≤ l.length) :
    ∃ (parId : BitVec 8) (orgKey : Vector (BitVec 8) keySize) (value : Bytes),
      l = Endian.bytes 1 parId.toNat ++ orgKey.toList ++ value := by
  cases l with
  | nil => cases hlen
  | cons b l =>
    have hkey : (l.take keySize).length = keySize :=
      List.length_take_of_le (Nat.le_of_succ_le_succ hlen)
    refine ⟨b, keyField (l.take keySize), l.drop keySize, ?_⟩
    rw [toList_keyField hkey.le, hkey, Nat.sub_self, List.replicate_zero, List.append_nil,
      Endian.bytes_byte, List.append_assoc, List.take_append_drop, List.singleton_append]

/-! ## Frames as bytes -/

/-- The bytes of an emitted `ipv4_h`, in which some fields share a byte. -/
def Ipv4H.bytes (h : Ipv4H) : Bytes :=
  Endian.network 1 (h.version ++ h.ihl).toNat ++ (Endian.network 1 (h.dscp ++ h.ecn).toNat ++
    (Endian.network 2 h.totalLen.toNat ++ (Endian.network 2 h.identification.toNat ++
      (Endian.network 2 (h.flags ++ h.fragOffset).toNat ++ (Endian.network 1 h.ttl.toNat ++
        (Endian.network 1 h.protocol.toNat ++ (Endian.network 2 h.hdrChecksum.toNat ++
          (Endian.network 4 h.srcAddr.toNat ++ Endian.network 4 h.dstAddr.toNat))))))))

/-- The bytes of an emitted `udp_h`, four words in network order. -/
def UdpH.bytes (h : UdpH) : Bytes :=
  Endian.network 2 h.srcPort.toNat ++ (Endian.network 2 h.dstPort.toNat ++
    (Endian.network 2 h.len.toNat ++ Endian.network 2 h.checksum.toNat))

/-- An IPv4 header without options has 20 bytes. -/
@[simp] theorem Ipv4H.length_bytes (h : Ipv4H) : h.bytes.length = 20 := by simp [bytes]

/-- A UDP header has 8 bytes. -/
@[simp] theorem UdpH.length_bytes (h : UdpH) : h.bytes.length = 8 := by simp [bytes]

namespace Emitted

/-- What the UDP header of a frame is followed by: the value headers come before the bytes that
were not parsed. -/
def datagram (e : Emitted Bytes) : Bytes := e.netcache.bytes ++ (e.valueBytes ++ e.payload)

/-- The bytes from the UDP header on, which the length of that header should count. -/
def udpBytes (e : Emitted Bytes) : Bytes := e.udp.bytes ++ e.datagram

/-- The bytes from the IPv4 header on, which `total_len` should count. -/
def ipv4Bytes (e : Emitted Bytes) : Bytes := e.ipv4.bytes ++ e.udpBytes

/-- The datagram in the `RecvBuffer` of `rx_t`, read as its struct. -/
def received (e : Emitted Bytes) : Option NetcacheHdr :=
  (NetcacheHdr.overlay.run e.datagram).map Prod.fst

end Emitted

/-! ## A READ and its reply -/

/-- The `SendBuffer` of a READ in `tx_t`: `seq` stays 0 for NetCache. -/
def readHdr (numWorkers : Nat) (keyValue : BitVec 64) (latency : BitVec 32) : NetcacheHdr :=
  let orgKey := keyField (tostringKey keyValue)
  { op := opRead
    seq := 0
    hkeyHi := htonll (hash64Str (cString orgKey.toList))
    hkeyLo := htonll (hash64Str2 (cString orgKey.toList))
    cached := 0
    latency := latency
    parId := parId numWorkers (cString orgKey.toList)
    orgKey := orgKey
    value := List.replicate maxValueSize 0 }

/-- The frame of a READ: the datagram of `tx_t` behind the headers of the network stack. -/
structure IsRead (numWorkers : Nat) (keyValue : BitVec 64) (latency : BitVec 32)
    (pkt : Packet Bytes) : Prop where
  etherType : pkt.ethernet.etherType = typeIpv4
  protocol : pkt.ipv4.protocol = typeUdp
  target : (pkt.ipv4.dstAddr, pkt.udp.dstPort) =
    txDestination .netcache numWorkers (tostringKey keyValue)
  totalLen : pkt.ipv4.totalLen =
    BitVec.ofNat 16 (20 + 8 + ((readHdr numWorkers keyValue latency).sent 0).length)
  len : pkt.udp.len = BitVec.ofNat 16 (8 + ((readHdr numWorkers keyValue latency).sent 0).length)
  datagram : NetcacheH.extract.run ((readHdr numWorkers keyValue latency).sent 0) =
    some (pkt.netcache, pkt.payload)

/-- The fields of a reply that the switch has a header for. -/
structure NetcacheHdr.Echoes (hdr request : NetcacheHdr) : Prop where
  op : hdr.op = opRReply
  cached : hdr.cached = 1
  seq : hdr.seq = request.seq
  hkeyHi : hdr.hkeyHi = request.hkeyHi
  hkeyLo : hdr.hkeyLo = request.hkeyLo
  latency : hdr.latency = request.latency

/-- The other fields of a reply: the key of the request, and the value at the start of `value`. -/
structure NetcacheHdr.Delivers (hdr request : NetcacheHdr) (value : Bytes) : Prop where
  parId : hdr.parId = request.parId
  orgKey : hdr.orgKey = request.orgKey
  value : value <+: hdr.value

/-- Source and destination have changed places, in all three headers. -/
structure TurnedAround (pkt : Packet Bytes) (e : Emitted Bytes) : Prop where
  ethernet : e.ethernet.srcAddr = pkt.ethernet.dstAddr ∧ e.ethernet.dstAddr = pkt.ethernet.srcAddr
  ipv4 : e.ipv4.srcAddr = pkt.ipv4.dstAddr ∧ e.ipv4.dstAddr = pkt.ipv4.srcAddr
  udp : e.udp.srcPort = pkt.udp.dstPort ∧ e.udp.dstPort = pkt.udp.srcPort

/-- A frame that the client reads as the answer to its request: all fields are where the client
looks for them, and the lengths count what is there. -/
structure Answers (request : NetcacheHdr) (pkt : Packet Bytes) (e : Emitted Bytes) : Prop where
  decodes : ∃ hdr, e.received = some hdr ∧ hdr.Echoes request ∧ hdr.Delivers request e.valueBytes
  turnedAround : TurnedAround pkt e
  totalLen : e.ipv4.totalLen.toNat = e.ipv4Bytes.length
  len : e.udp.len.toNat = e.udpBytes.length

/-- The switch answers a request with a frame that the client can read. -/
def AnsweredBy (t : Tables) (r : Registers) (pkt : Packet Bytes) (request : NetcacheHdr) : Prop :=
  ∃ p e, (switchPass t r pkt).2 = some (p, e) ∧ Answers request pkt e

/-- What the client gets instead: the value where `par_id` and `org_key` are expected, these two at
the end, and lengths that leave out the value. -/
structure Misplaced (request : NetcacheHdr) (pkt : Packet Bytes) (e : Emitted Bytes) : Prop where
  decodes : ∃ hdr, e.received = some hdr ∧ hdr.Echoes request ∧
    hdr.keyBytes ++ hdr.value = e.valueBytes ++ request.keyBytes ∧
    ¬ hdr.Delivers request e.valueBytes
  turnedAround : TurnedAround pkt e
  totalLen : e.ipv4.totalLen.toNat + 64 = e.ipv4Bytes.length
  len : e.udp.len.toNat + 64 = e.udpBytes.length

/-- Such a frame is no answer. -/
theorem Misplaced.not_answers {request : NetcacheHdr} {pkt : Packet Bytes} {e : Emitted Bytes}
    (h : Misplaced request pkt e) : ¬ Answers request pkt e := by
  intro hanswers
  have hlen := h.len
  rw [← hanswers.len] at hlen
  omega

/-- Two strings that commute repeat themselves, at the distance of the second one's length. -/
theorem getElem?_of_append_comm {α : Type} {xs ys : List α} (h : xs ++ ys = ys ++ xs) {i : Nat}
    (hi : i < xs.length) : (xs ++ ys)[i + ys.length]? = (xs ++ ys)[i]? := by
  rw [List.getElem?_append_left hi, h, List.getElem?_append_right (Nat.le_add_left _ _),
    Nat.add_sub_cancel]

/-- `par_id`, the fifteen characters of a key and their terminator are the bytes behind the header
of a READ. -/
theorem keyBytes_readHdr (numWorkers : Nat) (keyValue : BitVec 64) (latency : BitVec 32) :
    (readHdr numWorkers keyValue latency).keyBytes =
      (readHdr numWorkers keyValue latency).parId :: (tostringKey keyValue ++ [0]) := by
  have hle : (tostringKey keyValue).length ≤ keySize := by
    rw [length_tostringKey]
    exact Nat.sub_le _ _
  have hpad : (keyField (tostringKey keyValue)).toList = tostringKey keyValue ++ [0] := by
    rw [toList_keyField hle, length_tostringKey]
    rfl
  rw [NetcacheHdr.keyBytes, Endian.bytes_byte, List.singleton_append, readHdr, hpad]

/-- `par_id` and `org_key` in front of a value are never the bytes they are behind it: a character
of the key would be its terminator. -/
theorem keyBytes_append_ne (numWorkers : Nat) (keyValue : BitVec 64) (latency : BitVec 32)
    {value : Bytes} (hlen : value.length = 64) :
    value ++ (readHdr numWorkers keyValue latency).keyBytes ≠
      (readHdr numWorkers keyValue latency).keyBytes ++ value := by
  intro hcomm
  have hkey := keyBytes_readHdr numWorkers keyValue latency
  have hkeylen := (readHdr numWorkers keyValue latency).length_keyBytes
  generalize (readHdr numWorkers keyValue latency).keyBytes = l at hcomm hkey hkeylen
  have hperiod (i : Nat) (hi : i < 64) : (value ++ l)[i + 17]? = (value ++ l)[i]? := by
    rw [← hkeylen]
    exact getElem?_of_append_comm hcomm (hlen ▸ hi)
  have hend : l[16]? = l[12]? := calc
    l[16]? = (value ++ l)[80]? := by rw [List.getElem?_append_right (by omega), hlen]
    _ = (value ++ l)[63]? := hperiod 63 (by decide)
    _ = (value ++ l)[46]? := hperiod 46 (by decide)
    _ = (value ++ l)[29]? := hperiod 29 (by decide)
    _ = (value ++ l)[12]? := hperiod 12 (by decide)
    _ = l[12]? := by rw [hcomm, List.getElem?_append_left (by omega)]
  have hchars : (tostringKey keyValue).length = 15 := length_tostringKey keyValue
  rw [hkey, List.getElem?_cons_succ, List.getElem?_cons_succ,
    List.getElem?_append_right hchars.le, hchars, List.getElem?_append_left (by omega)] at hend
  have hpos := (mem_tostringKey (List.mem_of_getElem? hend.symm)).1
  exact absurd hpos (by decide)

section
variable {numWorkers : Nat} {keyValue : BitVec 64} {latency : BitVec 32} {pkt : Packet Bytes}
  {t : Tables} {r : Registers} {k : Hkey} {c : BitVec 32}

/-- A READ is sent without a value. -/
theorem sent_readHdr (numWorkers : Nat) (keyValue : BitVec 64) (latency : BitVec 32) :
    (readHdr numWorkers keyValue latency).sent 0 =
      (readHdr numWorkers keyValue latency).headBytes ++
        (readHdr numWorkers keyValue latency).keyBytes := by
  rw [NetcacheHdr.sent, List.take_zero, List.append_nil]

/-- A READ has 43 bytes. -/
theorem length_sent_readHdr (numWorkers : Nat) (keyValue : BitVec 64) (latency : BitVec 32) :
    ((readHdr numWorkers keyValue latency).sent 0).length = 43 := by
  simp [sent_readHdr]

/-- The hashes in a READ are those of the key of its item. -/
theorem hkey_readHdr (numWorkers : Nat) (keyValue : BitVec 64) (latency : BitVec 32) :
    (readHdr numWorkers keyValue latency).netcacheH.hkey = hostHash (tostringKey keyValue) := by
  simp only [NetcacheH.hkey, NetcacheHdr.netcacheH, readHdr, htonll_htonll, hostHash,
    cString_keyField_tostringKey]

/-- The client sends to one of the ports that the parser selects, whatever the key is. -/
theorem netcachePort_txDestination (hpos : 0 < numWorkers) (hmax : numWorkers ≤ maxWorkers)
    (key : Bytes) : netcachePort (txDestination .netcache numWorkers key).2 = true := by
  have hpar := parId_lt numWorkers key hpos hmax
  have hport : (txDestination .netcache numWorkers key).2.toNat =
      (netcacheBasePort + (parId numWorkers key).toNat) % 2 ^ 16 := BitVec.toNat_ofNat ..
  simp only [maxWorkers] at hmax
  rw [netcachePort, Bool.and_eq_true, decide_eq_true_eq, decide_eq_true_eq, hport,
    netcacheBasePort]
  omega

/-- The parser leaves `par_id` and `org_key` in the payload, since `NETCACHE_h` ends in front of
them. -/
theorem IsRead.parsed (h : IsRead numWorkers keyValue latency pkt) :
    pkt.netcache = (readHdr numWorkers keyValue latency).netcacheH ∧
      pkt.payload = (readHdr numWorkers keyValue latency).keyBytes := by
  have hdatagram := h.datagram
  rw [sent_readHdr, NetcacheHdr.extract_append, Option.some.injEq, Prod.mk.injEq] at hdatagram
  exact ⟨hdatagram.1.symm, hdatagram.2.symm⟩

/-- The datagram of a reply, with the header of the struct that the client sent. -/
theorem IsRead.datagram_reply (h : IsRead numWorkers keyValue latency pkt) (r : Registers)
    (c : BitVec 32) : (pkt.reply r c).datagram =
      { readHdr numWorkers keyValue latency with op := opRReply, cached := 1 }.headBytes ++
        ((pkt.reply r c).valueBytes ++ (readHdr numWorkers keyValue latency).keyBytes) := by
  obtain ⟨hnetcache, hpayload⟩ := h.parsed
  rw [Emitted.datagram, ← NetcacheHdr.bytes_netcacheH, Packet.reply, hnetcache, ← hpayload]
  rfl

/-- The client finds the fields of `NETCACHE_h` in a datagram, and as the others what follows. -/
theorem Emitted.received_of_datagram {e : Emitted Bytes} {hdr : NetcacheHdr} {l : Bytes}
    (h : e.datagram = hdr.headBytes ++ l) (hlen : 17 ≤ l.length) :
    ∃ parId orgKey value, l = Endian.bytes 1 parId.toNat ++ orgKey.toList ++ value ∧
      e.received = some { hdr with parId := parId, orgKey := orgKey, value := value } := by
  obtain ⟨parId, orgKey, value, rfl⟩ := exists_keyBytes hlen
  refine ⟨parId, orgKey, value, rfl, ?_⟩
  have hoverlay :=
    NetcacheHdr.overlay_append { hdr with parId := parId, orgKey := orgKey, value := value }
  rw [Emitted.received, h]
  exact congrArg (Option.map Prod.fst) hoverlay

/-- The value headers of a reply have 64 bytes. -/
theorem length_valueBytes_reply (r : Registers) (c : BitVec 32) (pkt : Packet Bytes) :
    (pkt.reply r c).valueBytes.length = 64 := by
  rw [valueBytes_reply, Registers.length_flatMap_values]

/-- A reply whose fields behind the header are the value and then the key has the wrong key. -/
theorem not_delivers {hdr : NetcacheHdr} {value : Bytes} (hlen : value.length = 64)
    (hbytes : hdr.keyBytes ++ hdr.value =
      value ++ (readHdr numWorkers keyValue latency).keyBytes) :
    ¬ hdr.Delivers (readHdr numWorkers keyValue latency) value := by
  intro h
  have hkey : hdr.keyBytes = (readHdr numWorkers keyValue latency).keyBytes := by
    rw [NetcacheHdr.keyBytes, NetcacheHdr.keyBytes, h.parId, h.orgKey]
  have hlength := congrArg List.length hbytes
  rw [List.length_append, List.length_append, hkey, Nat.add_comm] at hlength
  have hvalue : value = hdr.value := h.value.eq_of_length (Nat.add_right_cancel hlength).symm
  rw [hkey, ← hvalue] at hbytes
  exact keyBytes_append_ne numWorkers keyValue latency hlen hbytes.symm

/-- What the client gets for a hit. -/
theorem IsRead.misplaced (h : IsRead numWorkers keyValue latency pkt) (hhit : Hit t r k c pkt)
    {p : BitVec 9} {e : Emitted Bytes} (hout : (switchPass t r pkt).2 = some (p, e)) :
    Misplaced (readHdr numWorkers keyValue latency) pkt e := by
  rw [hhit.switchPass] at hout
  obtain ⟨port, -, hreply⟩ := Option.map_eq_some_iff.1 hout
  obtain rfl := (Prod.mk.inj hreply).2
  have hdatagram := h.datagram_reply r c
  have hvalue := length_valueBytes_reply r c pkt
  obtain ⟨parId, orgKey, value, hbytes, hreceived⟩ :=
    Emitted.received_of_datagram hdatagram (by simp [hvalue])
  have hlen : (pkt.reply r c).datagram.length = 107 := by simp [hdatagram, hvalue]
  exact {
    decodes := ⟨_, hreceived, ⟨rfl, rfl, rfl, rfl, rfl, rfl⟩, hbytes.symm,
      not_delivers hvalue hbytes.symm⟩
    turnedAround := ⟨⟨rfl, rfl⟩, ⟨rfl, rfl⟩, ⟨rfl, rfl⟩⟩
    totalLen := by
      have htotal : (pkt.reply r c).ipv4.totalLen = pkt.ipv4.totalLen := rfl
      rw [htotal, h.totalLen, length_sent_readHdr]
      simp [Emitted.ipv4Bytes, Emitted.udpBytes, hlen]
    len := by
      have hudp : (pkt.reply r c).udp.len = pkt.udp.len := rfl
      rw [hudp, h.len, length_sent_readHdr]
      simp [Emitted.udpBytes, hlen] }

/-- No hit is answered as the client expects; in every reply `par_id` and `org_key` are at the end
and the lengths are too small. It holds of every READ of a client that the switch answers, in
whatever state its registers are. -/
theorem not_answeredBy (h : IsRead numWorkers keyValue latency pkt) (hhit : Hit t r k c pkt) :
    ¬ AnsweredBy t r pkt (readHdr numWorkers keyValue latency) ∧
      ∀ p e, (switchPass t r pkt).2 = some (p, e) →
        Misplaced (readHdr numWorkers keyValue latency) pkt e := by
  refine ⟨?_, fun p e hout => h.misplaced hhit hout⟩
  rintro ⟨p, e, hout, hanswers⟩
  exact (h.misplaced hhit hout).not_answers hanswers

end

/-! ## One READ -/

/-- A client's READ of item 0, with eight workers on a server. -/
def readPacket : Packet Bytes where
  ethernet := ⟨0xB, 0xA, typeIpv4⟩
  ipv4 :=
    { Ipv4H.zero with
      version := 4
      ihl := 5
      totalLen := 71
      ttl := 64
      protocol := typeUdp
      srcAddr := 0x0A000001
      dstAddr := (txDestination .netcache 8 (tostringKey 0)).1 }
  udp := ⟨3000, (txDestination .netcache 8 (tostringKey 0)).2, 51, 0⟩
  netcache := (readHdr 8 0 7).netcacheH
  payload := (readHdr 8 0 7).keyBytes

/-- The tables with the key of item 0 at index 0. -/
def readTables : Tables where
  ipv4Exact _ := some 1
  readCache hkey := if hkey = readPacket.netcache.hkey then some 0 else none

theorem isRead_readPacket : IsRead 8 0 7 readPacket where
  etherType := rfl
  protocol := rfl
  target := rfl
  totalLen := by
    rw [length_sent_readHdr]
    rfl
  len := by
    rw [length_sent_readHdr]
    rfl
  datagram := by
    rw [sent_readHdr, NetcacheHdr.extract_append]
    rfl

theorem hit_readPacket :
    Hit readTables filledRegisters readPacket.netcache.hkey 0 readPacket where
  isNetcache := by decide +kernel
  op := rfl
  hkey := rfl
  lookup := by simp [readTables]
  valid := rfl

/-- The reply to it is not what the client expects. -/
theorem not_answeredBy_readPacket :
    ¬ AnsweredBy readTables filledRegisters readPacket (readHdr 8 0 7) ∧
      ∀ p e, (switchPass readTables filledRegisters readPacket).2 = some (p, e) →
        Misplaced (readHdr 8 0 7) readPacket e :=
  not_answeredBy isRead_readPacket hit_readPacket

/-- The switch replies to it, with a frame that does not answer it. -/
theorem readPacket_unanswered : IsRead 8 0 7 readPacket ∧
    Hit readTables filledRegisters readPacket.netcache.hkey 0 readPacket ∧
    ∃ p e, (switchPass readTables filledRegisters readPacket).2 = some (p, e) ∧
      ¬ Answers (readHdr 8 0 7) readPacket e := by
  have hout : (switchPass readTables filledRegisters readPacket).2 =
      some (1, readPacket.reply filledRegisters 0) := by
    rw [hit_readPacket.switchPass, readTables, Option.map_some]
  exact ⟨isRead_readPacket, hit_readPacket, 1, _, hout,
    (isRead_readPacket.misplaced hit_readPacket hout).not_answers⟩

end OrbitCache.Netcache
