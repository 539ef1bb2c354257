import OrbitCache.Host.Tally
import OrbitCache.Netcache.Bytes
import OrbitCache.Netcache.History
import OrbitCache.Netcache.Wire
import OrbitCache.Switch.Delivery

/-!
# What arrives of a NetCache frame

The network stack of a host takes out of a frame no more than the lengths say. The switch puts the
value in front of the bytes it has not parsed and keeps the lengths, so a host gets as many bytes as
were sent, the value where `par_id` and `org_key` were (`datagramPass`). `delivered_after`: what the
switch does to the bytes of frames is this on datagrams, after every run.
-/

namespace OrbitCache.Netcache

/-! ## Datagrams -/

/-- The datagram that the switch makes of one: the reply to a READ of a VALID entry, and otherwise
what goes on to the server, with another operation if it is a WRITE of a cached key. -/
def answerTo (t : Tables) (r : Registers) (macSrcAddr : BitVec 48) (d : UdpDatagram)
    (h : NetcacheH) (rest : Bytes) : UdpDatagram :=
  match t.readCache h.hkey with
  | some c =>
    if h.op = opRead ∧ r.cacheState c = valid then {
      macDstAddr := macSrcAddr
      srcAddr := d.dstAddr
      dstAddr := d.srcAddr
      srcPort := d.dstPort
      dstPort := d.srcPort
      payload := { h with op := opRReply, cached := 1 }.bytes ++
        ((r.values c).flatMap ValueH.bytes ++ rest).take rest.length }
    else if h.op = opWrite then { d with payload := { h with op := opFetch }.bytes ++ rest }
    else d
  | none => d

/-- The operations that reach `ipv4_exact`; a READ of a cached key does so if the state is one of
the two that there are. -/
def NetcacheH.routed (t : Tables) (r : Registers) (h : NetcacheH) : Bool :=
  h.op ∈ [opRReply, opWrite, opWReply, opFReply] ||
    h.op = opRead && (t.readCache h.hkey).all fun c => r.cacheState c ∈ [valid, invalid]

/-- The switch on datagrams: the port it sends one to, and what it makes of it. -/
def datagramPass (t : Tables) (r : Registers) (macSrcAddr : BitVec 48) (d : UdpDatagram) :
    Option (BitVec 9 × UdpDatagram) := do
  if netcachePort d.dstPort ∨ netcachePort d.srcPort then
    let (h, rest) ← NetcacheH.extract.run d.payload
    let out := answerTo t r macSrcAddr d h rest
    if h.routed t r then (t.ipv4Exact out.dstAddr).map fun p => (p, out) else none
  else (t.ipv4Exact d.dstAddr).map fun p => (p, d)

/-! ## Where a frame goes -/

namespace Ingress

section
variable {t : Tables} {x y : Ingress}

/-- The lookup drops nothing. -/
theorem dropCtl_lookupBlock (t : Tables) (x : Ingress) :
    (lookupBlock t x).dropCtl = x.dropCtl := by
  unfold lookupBlock readCacheTable
  split <;> rfl

/-- Nor does the count, -/
theorem dropCtl_countHit (x : Ingress) : (countHit x).dropCtl = x.dropCtl := by
  unfold countHit
  split <;> rfl

/-- nor the reading of a word, -/
@[simp] theorem dropCtl_getValueAction (n : Fin 16) (field : HeaderT → BitVec 32 → HeaderT)
    (x : Ingress) : (getValueAction n field x).dropCtl = x.dropCtl := rfl

/-- nor that of all of them. -/
theorem dropCtl_getValues (x : Ingress) :
    (getValues4 (getValues3 (getValues2 (getValues1 x)))).dropCtl = x.dropCtl := by
  simp only [getValues1, getValues2, getValues3, getValues4, getValue1Action, getValue2Action,
    getValue3Action, getValue4Action, getValue5Action, getValue6Action, getValue7Action,
    getValue8Action, getValue9Action, getValue10Action, getValue11Action, getValue12Action,
    getValue13Action, getValue14Action, getValue15Action, getValue16Action, dropCtl_getValueAction]

/-- A control that ends with `ipv4_exact` sends the packet to the address it has left. -/
theorem egressPort_of_eq (h : apply t x = ipv4Exact t y) (hdrop : y.dropCtl = 0) :
    (apply t x).egressPort = t.ipv4Exact (x.hdr.control t x.regs).ipv4.dstAddr := by
  have hhdr := hdr_apply t x
  rw [h, hdr_ipv4Exact] at hhdr
  rw [h, egressPort_ipv4Exact hdrop, hhdr]

/-- A reply to a WRITE is forwarded behind the lookup. -/
theorem apply_wReply (hvalid : x.hdr.netcacheValid = true) (hop : x.hdr.netcache.op = opWReply) :
    apply t x = ipv4Exact t (lookupBlock t x) := by
  rw [apply, if_pos hvalid]
  simp only [op_lookupBlock, hop]
  rfl

/-- A READ whose entry is neither VALID nor INVALID goes nowhere: the branch has no `else`. -/
theorem egressPort_applyRead_of_ne (hvalid : x.igMd.cacheState ≠ valid)
    (hinvalid : x.igMd.cacheState ≠ invalid) (hucast : x.ucastEgressPort = none) :
    (applyRead t x).egressPort = none := by
  rw [applyRead, if_neg hvalid, if_neg hinvalid, egressPort, hucast, ite_self]

/-- A READ whose entry is INVALID, or that has none, is sent on. -/
theorem applyRead_of_invalid (h : x.igMd.cacheState = invalid) :
    applyRead t x = ipv4Exact t { x with dropCtl := 0 } := by
  have hne : x.igMd.cacheState ≠ valid := by
    rw [h]
    exact (by decide : invalid ≠ valid)
  rw [applyRead, if_neg hne, if_pos h]

/-- Where a READ is sent to: the destination that the control has left it with, if its state is one
of the two. -/
theorem egressPort_apply_read (hvalid : x.hdr.netcacheValid = true)
    (hop : x.hdr.netcache.op = opRead) (hdrop : x.dropCtl = 0) (hucast : x.ucastEgressPort = none)
    (happly : apply t x = applyRead t (countHit (lookupBlock t x))) : (apply t x).egressPort =
      if x.hdr.netcache.routed t x.regs then
        t.ipv4Exact (x.hdr.control t x.regs).ipv4.dstAddr
      else none := by
  have hrouted : x.hdr.netcache.routed t x.regs =
      (t.readCache x.hdr.netcache.hkey).all fun c =>
        decide (x.regs.cacheState c ∈ [valid, invalid]) := by
    rw [NetcacheH.routed, hop]
    rfl
  rw [hrouted]
  cases hlookup : t.readCache x.hdr.netcache.hkey with
  | none =>
    rw [countHit_lookupBlock_miss hlookup, applyRead_of_invalid rfl] at happly
    exact egressPort_of_eq happly rfl
  | some c =>
    rw [Option.all_some]
    rcases eq_or_ne (x.regs.cacheState c) valid with hstate | hstate
    · rw [if_pos (by rw [hstate]; decide)]
      refine egressPort_of_eq (apply_hit hvalid hop hlookup hstate) ?_
      rw [turnAround, dropCtl_getValues]
      exact hdrop
    rcases eq_or_ne (x.regs.cacheState c) invalid with hstate' | hstate'
    · rw [countHit_lookupBlock_hit hlookup, applyRead_of_invalid hstate'] at happly
      rw [if_pos (by rw [hstate']; decide)]
      exact egressPort_of_eq happly rfl
    · rw [if_neg (by simpa using ⟨hstate, hstate'⟩), happly, countHit_lookupBlock_hit hlookup]
      exact egressPort_applyRead_of_ne hstate hstate' hucast

/-- Where a NetCache packet is sent to, in each branch of the control. -/
theorem egressPort_apply (hvalid : x.hdr.netcacheValid = true) (hdrop : x.dropCtl = 0)
    (hucast : x.ucastEgressPort = none) : (apply t x).egressPort =
      if x.hdr.netcache.routed t x.regs then
        t.ipv4Exact (x.hdr.control t x.regs).ipv4.dstAddr
      else none := by
  have hlookup : (lookupBlock t x).dropCtl = 0 := (dropCtl_lookupBlock t x).trans hdrop
  have hcount : (countHit (lookupBlock t x)).dropCtl = 0 := (dropCtl_countHit _).trans hlookup
  have hrouted (op : BitVec 8) (hmem : op ∈ [opRReply, opWrite, opWReply, opFReply])
      (hop : x.hdr.netcache.op = op) : x.hdr.netcache.routed t x.regs = true := by
    rw [NetcacheH.routed, hop, decide_eq_true hmem, Bool.true_or]
  rcases eq_or_ne x.hdr.netcache.op opWReply with hwreply | hwreply
  · rw [if_pos (hrouted _ (by decide) hwreply),
      egressPort_of_eq (apply_wReply hvalid hwreply) hlookup]
  rcases apply_cases (t := t) hvalid with ⟨hop, happly⟩ | ⟨hop, happly⟩ | ⟨hop, happly⟩ |
    ⟨hop, happly⟩ | ⟨hop, happly⟩ | ⟨⟨hread, hreply, hwrite, hfreply⟩, happly⟩
  · exact egressPort_apply_read hvalid hop hdrop hucast happly
  · rw [if_pos (hrouted _ (by decide) hop), egressPort_of_eq happly hcount]
  · rw [if_pos (hrouted _ (by decide) hop), egressPort_of_eq happly]
    split <;> exact hlookup
  · exact absurd hop hwreply
  · rw [if_pos (hrouted _ (by decide) hop), egressPort_of_eq happly]
    exact hlookup
  · have hnone : (lookupBlock t x).ucastEgressPort = none := by
      unfold lookupBlock readCacheTable
      split <;> exact hucast
    have hfalse : x.hdr.netcache.routed t x.regs = false := by
      rw [NetcacheH.routed, decide_eq_false hread, Bool.false_and, Bool.or_false]
      refine decide_eq_false fun hmem => ?_
      simp only [List.mem_cons, List.not_mem_nil, or_false] at hmem
      rcases hmem with h | h | h | h
      · exact hreply h
      · exact hwrite h
      · exact hwreply h
      · exact hfreply h
    rw [hfalse, if_neg Bool.false_ne_true, happly, egressPort, hnone, ite_self]

end

end Ingress

/-! ## What arrives -/

namespace HeaderT

/-- The bytes behind the UDP header of a frame: `NETCACHE_h`, the value headers, and the rest. -/
def behind (hdr : HeaderT) (rest : Bytes) : Bytes :=
  (if hdr.netcacheValid then hdr.netcache.bytes else []) ++
    (hdr.values.flatMap ValueH.bytes ++ rest)

/-- With a valid header, they begin with it. -/
theorem behind_of_valid {hdr : HeaderT} (h : hdr.netcacheValid = true) (rest : Bytes) :
    hdr.behind rest = hdr.netcache.bytes ++ (hdr.values.flatMap ValueH.bytes ++ rest) := by
  rw [behind, if_pos h]

/-- The datagram in a frame with these headers: the UDP length says how much of the rest belongs to
it. -/
def datagram (hdr : HeaderT) (rest : Bytes) : UdpDatagram where
  macDstAddr := hdr.ethernet.dstAddr
  srcAddr := hdr.ipv4.srcAddr
  dstAddr := hdr.ipv4.dstAddr
  srcPort := hdr.udp.srcPort
  dstPort := hdr.udp.dstPort
  payload := (hdr.behind rest).take (hdr.udp.len.toNat - 8)

end HeaderT

section
variable {t : Tables} {r : Registers} {hdr : HeaderT} {rest frame : Bytes} {d : UdpDatagram}

/-- A datagram found in a frame that was parsed is in the headers of the parse. -/
theorem Parsed.carries (hparsed : Parsed hdr) (h : udpReceive (hdr.emit ++ rest) = some d) :
    hdr.ipv4Valid = true ∧ hdr.udpValid = true ∧ hdr.ethernet.etherType = typeIpv4 ∧
      hdr.ipv4.protocol = typeUdp ∧ Accepts hdr.ipv4 hdr.udp (hdr.behind rest) ∧
      d = hdr.datagram rest := by
  obtain ⟨ethernet, ipv4, udp, l, ⟨hframe, hether, hprotocol, haccepts⟩, rfl⟩ :=
    udpReceive_iff.1 h
  cases hparsed with
  | other hne =>
    simp only [HeaderT.emit, List.append_assoc] at hframe
    obtain ⟨rfl, -⟩ := bytes_append_inj EthernetH.extract_iff hframe
    exact absurd hether hne
  | ipv4 _ hne =>
    simp only [HeaderT.emit, HeaderT.parsed, List.append_assoc, if_true] at hframe
    obtain ⟨rfl, hipv4⟩ := bytes_append_inj EthernetH.extract_iff hframe
    obtain ⟨rfl, -⟩ := bytes_append_inj Ipv4H.extract_iff hipv4
    exact absurd hprotocol hne
  | udp | netcache =>
    simp only [HeaderT.emit, HeaderT.parsed, List.append_assoc, if_true] at hframe
    obtain ⟨rfl, hipv4⟩ := bytes_append_inj EthernetH.extract_iff hframe
    obtain ⟨rfl, hudp⟩ := bytes_append_inj Ipv4H.extract_iff hipv4
    obtain ⟨rfl, rfl⟩ := bytes_append_inj UdpH.extract_iff hudp
    exact ⟨rfl, rfl, hether, hprotocol, haccepts, rfl⟩

/-- A host takes the datagram out of a frame with acceptable headers: the deparser writes headers
that the host finds again. -/
theorem udpReceive_deparse (hipv4 : hdr.ipv4Valid = true) (hudp : hdr.udpValid = true)
    (hether : hdr.ethernet.etherType = typeIpv4) (hprotocol : hdr.ipv4.protocol = typeUdp)
    (h : Accepts { hdr.ipv4 with hdrChecksum := hdr.ipv4.checksum } hdr.udp (hdr.behind rest)) :
    udpReceive (hdr.deparse rest) = some (hdr.datagram rest) := by
  refine udpReceive_iff.2 ⟨hdr.ethernet, { hdr.ipv4 with hdrChecksum := hdr.ipv4.checksum },
    hdr.udp, hdr.behind rest, ⟨?_, hether, hprotocol, h⟩, rfl⟩
  simp only [HeaderT.deparse, HeaderT.emit, HeaderT.behind, hipv4, hudp, if_true,
    List.append_assoc]
  rfl

/-- The forms of the headers that the control leaves: as they came, with the checksum cleared, as a
FETCH, or as a reply. -/
theorem control_cases (t : Tables) (r : Registers) (hdr : HeaderT) :
    hdr.control t r = hdr ∨ hdr.control t r = hdr.passed ∨ hdr.control t r = hdr.fetching ∨
      ∃ c, hdr.control t r = hdr.answered r c := by
  unfold HeaderT.control
  split
  · split
    · next c _ =>
      split
      · exact .inr (.inr (.inr ⟨c, rfl⟩))
      · split
        · exact .inr (.inr (.inl rfl))
        · exact .inr (.inl rfl)
    · exact .inr (.inl rfl)
  · exact .inl rfl

/-- The value headers come on top of what was parsed, so there are enough bytes for the length that
the header says. -/
theorem length_behind_answered (r : Registers) (c : BitVec 32) (hvalues : hdr.values = []) :
    (hdr.behind rest).length ≤ ((hdr.answered r c).behind rest).length := by
  have hvalid : (hdr.answered r c).netcacheValid = hdr.netcacheValid := rfl
  simp only [HeaderT.behind, hvalues, hvalid, List.length_append, List.flatMap_nil,
    List.length_nil]
  cases hdr.netcacheValid <;> simp

/-- A FETCH is as long as the WRITE was. -/
theorem length_behind_fetching (hdr : HeaderT) (rest : Bytes) :
    (hdr.fetching.behind rest).length = (hdr.behind rest).length := by
  have hvalid : hdr.fetching.netcacheValid = hdr.netcacheValid := rfl
  have hvalues : hdr.fetching.values = hdr.values := rfl
  simp only [HeaderT.behind, hvalid, hvalues, List.length_append]
  cases hdr.netcacheValid <;> simp

/-- A host accepts what the control has left: the lengths are as they were, and the UDP checksum is
cleared where it would be wrong. -/
theorem udpReceive_control (hparsed : Parsed hdr) (h : udpReceive (hdr.emit ++ rest) = some d) :
    udpReceive ((hdr.control t r).deparse rest) = some ((hdr.control t r).datagram rest) := by
  obtain ⟨hipv4, hudp, hether, hprotocol, haccepts, -⟩ := hparsed.carries h
  have hvalues : hdr.values = [] := by
    cases hparsed <;> rfl
  rcases control_cases t r hdr with heq | heq | heq | ⟨c, heq⟩
  · rw [heq]
    exact udpReceive_deparse hipv4 hudp hether hprotocol
      { haccepts with verifies := hdr.ipv4.verifies_checksum }
  · rw [heq]
    exact udpReceive_deparse hipv4 hudp hether hprotocol
      { haccepts with verifies := hdr.passed.ipv4.verifies_checksum, checksum := .inl rfl }
  · rw [heq]
    exact udpReceive_deparse hipv4 hudp hether hprotocol
      { haccepts with
        verifies := hdr.fetching.ipv4.verifies_checksum
        totalLen_le := (length_behind_fetching hdr rest).symm ▸ haccepts.totalLen_le
        checksum := .inl rfl }
  · rw [heq]
    exact udpReceive_deparse hipv4 hudp hether hprotocol
      { haccepts with
        verifies := (hdr.answered r c).ipv4.verifies_checksum
        totalLen_le :=
          haccepts.totalLen_le.trans (Nat.add_le_add_left (length_behind_answered r c hvalues) 28)
        checksum := .inl rfl }

/-- The bytes behind a header, of a datagram that has room for it. -/
theorem take_append_bytes (h : NetcacheH) (l : Bytes) {n : Nat} (hn : 26 ≤ n) :
    (h.bytes ++ l).take n = h.bytes ++ l.take (n - 26) := by
  rw [List.take_append, List.take_of_length_le (by rw [h.length_bytes]; exact hn), h.length_bytes]

/-- The value stands in front of the bytes that were sent, and as many are cut off at the end. -/
theorem take_words (words l : Bytes) {m : Nat} (hm : m ≤ l.length) :
    (words ++ l).take m = (words ++ l.take m).take (l.take m).length := by
  rw [List.length_take_of_le hm, List.take_append, List.take_append, List.take_take,
    Nat.min_eq_left (Nat.sub_le _ _)]

/-- What is found in the frame that the control has left is what the switch makes of the datagram
that came. -/
theorem datagram_control (hvalid : hdr.netcacheValid = true) (hvalues : hdr.values = [])
    (hlen : 26 ≤ hdr.udp.len.toNat - 8) (hle : hdr.udp.len.toNat - 8 ≤ 26 + rest.length) :
    (hdr.control t r).datagram rest = answerTo t r hdr.ethernet.srcAddr (hdr.datagram rest)
      hdr.netcache (rest.take (hdr.udp.len.toNat - 8 - 26)) := by
  rw [HeaderT.control, if_pos hvalid, answerTo]
  cases t.readCache hdr.netcache.hkey with
  | none => rfl
  | some c =>
    dsimp only
    split
    · have hwords : (hdr.answered r c).behind rest =
          { hdr.netcache with op := opRReply, cached := 1 }.bytes ++
            ((r.values c).flatMap ValueH.bytes ++ rest) :=
        @HeaderT.behind_of_valid (hdr.answered r c) hvalid rest
      have hpayload : ((hdr.answered r c).datagram rest).payload =
          { hdr.netcache with op := opRReply, cached := 1 }.bytes ++
            ((r.values c).flatMap ValueH.bytes ++ rest.take (hdr.udp.len.toNat - 8 - 26)).take
              (rest.take (hdr.udp.len.toNat - 8 - 26)).length := by
        rw [← take_words _ _ (by omega), ← take_append_bytes _ _ hlen, ← hwords]
        rfl
      rw [← hpayload]
      rfl
    · split
      · have hpayload : (hdr.fetching.datagram rest).payload =
            { hdr.netcache with op := opFetch }.bytes ++
              rest.take (hdr.udp.len.toNat - 8 - 26) := by
          have hbehind : hdr.fetching.behind rest =
              { hdr.netcache with op := opFetch }.bytes ++ rest := by
            have hbytes := @HeaderT.behind_of_valid hdr.fetching hvalid rest
            rwa [show hdr.fetching.values = [] from hvalues] at hbytes
          rw [← take_append_bytes _ _ hlen, ← hbehind]
          rfl
        rw [← hpayload]
        rfl
      · rfl

/-- A frame with a datagram that has room for `NETCACHE_h`, as all frames of clients have. -/
structure Deliverable (frame : Bytes) (d : UdpDatagram) : Prop where
  receive : udpReceive frame = some d
  room : 26 ≤ d.payload.length

/-- The hardware address a frame comes from, which the switch sends a reply to. -/
def macSrcAddr (frame : Bytes) : BitVec 48 :=
  ((EthernetH.extract.run frame).map fun p => p.1.srcAddr).getD 0

/-- The hardware address in the frame of a host. -/
theorem macSrcAddr_sendFrame (mac : BitVec 48) (d : UdpDatagram) :
    macSrcAddr (sendFrame mac d) = mac := by
  have hframe : sendFrame mac d =
      (EthernetH.mk d.macDstAddr mac typeIpv4).bytes ++ _ := List.append_assoc ..
  rw [macSrcAddr, hframe, EthernetH.extract_append]
  rfl

/-- The parser accepts a frame with room for the header, and finds it if a port is selected. -/
theorem Deliverable.parse (h : Deliverable frame d) : ∃ hdr rest, Parsed hdr ∧
    frame = hdr.emit ++ rest ∧
      (hdr.netcacheValid = true ↔ netcachePort d.dstPort ∨ netcachePort d.srcPort) := by
  obtain ⟨ethernet, ipv4, udp, l, ⟨rfl, hether, hprotocol, -⟩, rfl⟩ := udpReceive_iff.1 h.receive
  by_cases hport : netcachePort udp.dstPort ∨ netcachePort udp.srcPort
  · have hl : 26 ≤ l.length := Nat.le_trans h.room (List.length_take_le' _ _)
    obtain ⟨netcache, rest, rfl⟩ := NetcacheH.exists_bytes hl
    refine ⟨.parsed ethernet ipv4 true udp true netcache true, rest,
      .netcache hether hprotocol hport, ?_, iff_of_true rfl hport⟩
    simp [HeaderT.emit, HeaderT.parsed, HeaderT.values]
  · refine ⟨.parsed ethernet ipv4 true udp true .zero false, l, .udp hether hprotocol hport, ?_,
      iff_of_false Bool.false_ne_true hport⟩
    simp [HeaderT.emit, HeaderT.parsed, HeaderT.values]

/-- What the switch does to a datagram that has its header, by the headers of the frame. -/
theorem datagramPass_of_valid (hvalid : hdr.netcacheValid = true) (hvalues : hdr.values = [])
    (hport : netcachePort hdr.udp.dstPort ∨ netcachePort hdr.udp.srcPort)
    (hlen : 26 ≤ hdr.udp.len.toNat - 8) (hle : hdr.udp.len.toNat - 8 ≤ 26 + rest.length) :
    datagramPass t r hdr.ethernet.srcAddr (hdr.datagram rest) =
      if hdr.netcache.routed t r then
        (t.ipv4Exact (hdr.control t r).ipv4.dstAddr).map fun p =>
          (p, (hdr.control t r).datagram rest)
      else none := by
  have hextract : NetcacheH.extract.run (hdr.datagram rest).payload =
      some (hdr.netcache, rest.take (hdr.udp.len.toNat - 8 - 26)) := by
    rw [NetcacheH.extract_iff, HeaderT.datagram, HeaderT.behind_of_valid hvalid, hvalues,
      List.flatMap_nil, List.nil_append, take_append_bytes _ _ hlen]
  have hport' : netcachePort (hdr.datagram rest).dstPort ∨
      netcachePort (hdr.datagram rest).srcPort := hport
  rw [datagramPass, if_pos hport', hextract]
  simp only [Option.bind_eq_bind, Option.bind_some]
  rw [← datagram_control hvalid hvalues hlen hle]
  rfl

/-- The switch on the bytes of a frame is the switch on the datagram in it: both send it to the same
port, and a host finds the datagram in the bytes. -/
theorem switchPassBytes_datagram (t : Tables) (r : Registers) (h : Deliverable frame d) :
    ∃ r' out, switchPassBytes t r frame = some (r', out) ∧
      (out.map fun o => (o.1, udpReceive o.2)) =
        (datagramPass t r (macSrcAddr frame) d).map fun o => (o.1, some o.2) := by
  obtain ⟨hdr, rest, hparsed, rfl, hport⟩ := h.parse
  have hparse : parseEthernet.run (hdr.emit ++ rest) = some (hdr, rest) :=
    parseEthernet_iff.2 ⟨hparsed, rfl⟩
  obtain ⟨hipv4, hudp, -, -, haccepts, rfl⟩ := hparsed.carries h.receive
  have hreceive := udpReceive_control (t := t) (r := r) hparsed h.receive
  have hmac : macSrcAddr (hdr.emit ++ rest) = hdr.ethernet.srcAddr := by
    rw [macSrcAddr, HeaderT.emit, List.append_assoc, EthernetH.extract_append]
    rfl
  have hvalues : hdr.values = [] := by
    cases hparsed <;> rfl
  have hhdr : (Ingress.apply t (.start hdr r)).hdr = hdr.control t r := Ingress.hdr_apply t _
  refine ⟨_, _, by rw [switchPassBytes, hparse]; rfl, ?_⟩
  rw [Option.map_map, hmac]
  simp only [Function.comp_def, hhdr, hreceive]
  cases hvalid : hdr.netcacheValid with
  | true =>
    have hlen : 26 ≤ hdr.udp.len.toNat - 8 := Nat.le_trans h.room (List.length_take_le _ _)
    have hle : hdr.udp.len.toNat - 8 ≤ 26 + rest.length := by
      have hbound := haccepts.len_le.trans haccepts.totalLen_le
      rw [HeaderT.behind_of_valid hvalid, hvalues, List.flatMap_nil, List.nil_append,
        List.length_append, NetcacheH.length_bytes] at hbound
      omega
    have hegress : (Ingress.apply t (.start hdr r)).egressPort =
        if hdr.netcache.routed t r then t.ipv4Exact (hdr.control t r).ipv4.dstAddr else none :=
      Ingress.egressPort_apply (x := .start hdr r) hvalid rfl rfl
    rw [hegress, datagramPass_of_valid hvalid hvalues (hport.1 hvalid) hlen hle]
    by_cases hrouted : hdr.netcache.routed t r = true
    · rw [if_pos hrouted, if_pos hrouted, Option.map_map]
      rfl
    · rw [if_neg hrouted, if_neg hrouted]
      rfl
  | false =>
    have hport' : ¬ (netcachePort (hdr.datagram rest).dstPort ∨
        netcachePort (hdr.datagram rest).srcPort) := by
      rw [← hport, hvalid]
      exact Bool.false_ne_true
    have hsame : hdr.control t r = hdr := by
      rw [HeaderT.control, hvalid]
      exact if_neg Bool.false_ne_true
    rw [Ingress.apply_of_not_valid hvalid, Ingress.egressPort_ipv4Exact rfl, hsame, datagramPass,
      if_neg hport', Option.map_map]
    rfl

/-! ## After a run -/

/-- The packets of a run, as they arrive at the tables `t`. -/
def arrivals {π : Type} (t : Tables) (pkts : List (Packet π)) : List (Arrival π) :=
  pkts.map fun pkt => ⟨t, pkt⟩

/-- After every run of frames the registers are those that the packets in them tell, and what the
switch does to the bytes of one more frame is what it does to the datagram in it. -/
theorem delivered_after {fs : List Bytes} {s : Registers} {outs : List (Option (BitVec 9 × Bytes))}
    (hrun : outputs (frameStep t) fs r = some (s, outs)) (h : Deliverable frame d) :
    ∃ pkts s' out, fs.mapM decodeFrame = some pkts ∧
      (∀ c, Recorded r (arrivals t pkts) s c) ∧ frameStep t frame s = some (s', out) ∧
      (out.map fun o => (o.1, udpReceive o.2)) =
        (datagramPass t s (macSrcAddr frame) d).map fun o => (o.1, some o.2) := by
  obtain ⟨pkts, hpkts, rfl⟩ := afterPackets_of_outputs hrun
  obtain ⟨s', out, hstep, hout⟩ := switchPassBytes_datagram t (afterPackets t r pkts) h
  exact ⟨pkts, s', out, hpkts, recorded_after r (arrivals t pkts), hstep, hout⟩

/-! ## The reply to a client -/

/-- What a client gets for a hit: the fields of `NETCACHE_h` as it has sent them, the first bytes of
the value as `par_id` and `org_key`, and no value. -/
structure HitReply (macAddr : BitVec 48) (d d' : UdpDatagram) (request hdr : NetcacheHdr)
    (words : Bytes) : Prop where
  macDstAddr : d'.macDstAddr = macAddr
  ipv4 : d'.srcAddr = d.dstAddr ∧ d'.dstAddr = d.srcAddr
  udp : d'.srcPort = d.dstPort ∧ d'.dstPort = d.srcPort
  decodes : NetcacheHdr.overlay.run d'.payload = some (hdr, [])
  echoes : hdr.Echoes request
  keyBytes : hdr.keyBytes = words.take 17
  value : hdr.value = []
  fromCache : fromCache .netcache d'.payload = true

/-- The words of an index as they are sent, while they are those of the start. -/
theorem flatMap_values_congr {r r' : Registers} {c : BitVec 32}
    (h : ∀ n, r'.value n c = r.value n c) :
    (r'.values c).flatMap ValueH.bytes = (r.values c).flatMap ValueH.bytes := by
  simp only [Registers.flatMap_values, h]

/-- `EMPTY` words are sent as 64 zeros. -/
theorem Registers.Emptied.flatMap_values {r : Registers} {c : BitVec 32} (h : r.Emptied c) :
    (r.values c).flatMap ValueH.bytes = List.replicate 64 0 := by
  have hzero : (fun n : Fin 16 => Endian.network 4 (r.value n c).toNat) =
      fun _ => List.replicate 4 0 := by
    funext n
    rw [h n]
    decide
  rw [Registers.flatMap_values, hzero]
  decide

end

section
variable {numWorkers : Nat} {keyValue : BitVec 64} {latency : BitVec 32}

/-- The operation and the mark of a cached reply, where a host looks for them. -/
theorem fromCache_bytes {h : NetcacheH} (hop : h.op = opRReply) (hcached : h.cached = 1)
    (l : Bytes) : fromCache .netcache (h.bytes ++ l) = true := by
  have hop' : opField (h.bytes ++ l) = opRReply := by
    rw [opField, NetcacheH.bytes, hop]
    rfl
  have hcached' : cachedField .netcache (h.bytes ++ l) = 1 := by
    have hsplit : h.bytes ++ l = (Endian.network 1 h.op.toNat ++ (Endian.network 4 h.seq.toNat ++
        (Endian.network 8 h.hkeyHi.toNat ++ Endian.network 8 h.hkeyLo.toNat))) ++
          (1 :: (Endian.network 4 h.latency.toNat ++ l)) := by
      rw [NetcacheH.bytes, hcached]
      simp only [List.append_assoc]
      rfl
    rw [cachedField, hsplit, List.getD_eq_getElem?_getD,
      List.getElem?_append_right (by simp; decide)]
    simp
    rfl
  rw [fromCache, hop', hcached']
  decide

/-- What a client reads in the reply to a hit: the lengths are those of its own READ, so the value
is cut off behind 17 bytes. -/
theorem hitReply_of_words {macAddr : BitVec 48} {d : UdpDatagram} {words : Bytes}
    (hwords : words.length = 64) :
    ∃ hdr, HitReply macAddr d ⟨macAddr, d.dstAddr, d.srcAddr, d.dstPort, d.srcPort,
        { (readHdr numWorkers keyValue latency).netcacheH with
          op := opRReply, cached := 1 }.bytes ++ words.take 17⟩
      (readHdr numWorkers keyValue latency) hdr words := by
  have hlen : (words.take 17).length = 17 := List.length_take_of_le (by omega)
  obtain ⟨parId, orgKey, value, hkey⟩ := exists_keyBytes hlen.ge
  have hvalue : value = [] := by
    have hsum := congrArg List.length hkey
    rw [hlen, List.length_append, List.length_append, Endian.length_bytes,
      Vector.length_toList] at hsum
    exact List.eq_nil_of_length_eq_zero (by simp only [keySize] at hsum; omega)
  rw [hvalue, List.append_nil] at hkey
  let hdr : NetcacheHdr := { readHdr numWorkers keyValue latency with
    op := opRReply, cached := 1, parId := parId, orgKey := orgKey, value := [] }
  have hbytes : hdr.netcacheH.bytes ++ words.take 17 =
      hdr.headBytes ++ (hdr.keyBytes ++ hdr.value) := by
    rw [NetcacheHdr.bytes_netcacheH, hkey, List.append_nil]
    rfl
  refine ⟨hdr, rfl, ⟨rfl, rfl⟩, ⟨rfl, rfl⟩, ?_, ⟨rfl, rfl, rfl, rfl, rfl, rfl⟩, hkey.symm, rfl,
    fromCache_bytes rfl rfl _⟩
  exact (congrArg NetcacheHdr.overlay.run hbytes).trans hdr.overlay_append

variable {t : Tables} {r s : Registers} {c : BitVec 32} {d : UdpDatagram}

/-- What the switch does to a READ of a VALID entry. -/
theorem datagramPass_hit {macAddr : BitVec 48} {p : BitVec 9}
    (hpayload : d.payload = (readHdr numWorkers keyValue latency).sent 0)
    (hport : netcachePort d.dstPort = true)
    (hlookup : t.readCache (hostHash (tostringKey keyValue)) = some c)
    (hstate : s.cacheState c = valid) (hroute : t.ipv4Exact d.srcAddr = some p) :
    datagramPass t s macAddr d =
      some (p, ⟨macAddr, d.dstAddr, d.srcAddr, d.dstPort, d.srcPort,
        { (readHdr numWorkers keyValue latency).netcacheH with
          op := opRReply, cached := 1 }.bytes ++
            ((s.values c).flatMap ValueH.bytes).take 17⟩) := by
  have hextract : NetcacheH.extract.run d.payload =
      some ((readHdr numWorkers keyValue latency).netcacheH,
        (readHdr numWorkers keyValue latency).keyBytes) := by
    rw [hpayload, sent_readHdr, NetcacheHdr.extract_append]
  have hlookup' : t.readCache (readHdr numWorkers keyValue latency).netcacheH.hkey = some c := by
    rw [hkey_readHdr, hlookup]
  have hrouted : (readHdr numWorkers keyValue latency).netcacheH.routed t s = true := by
    rw [NetcacheH.routed, hlookup', Option.all_some, hstate]
    rfl
  have hwords : ((s.values c).flatMap ValueH.bytes ++
      (readHdr numWorkers keyValue latency).keyBytes).take
        (readHdr numWorkers keyValue latency).keyBytes.length =
      ((s.values c).flatMap ValueH.bytes).take 17 := by
    rw [NetcacheHdr.length_keyBytes, List.take_append_of_le_length]
    rw [Registers.length_flatMap_values]
    decide
  have hanswer : answerTo t s macAddr d (readHdr numWorkers keyValue latency).netcacheH
      (readHdr numWorkers keyValue latency).keyBytes =
        ⟨macAddr, d.dstAddr, d.srcAddr, d.dstPort, d.srcPort,
          { (readHdr numWorkers keyValue latency).netcacheH with
            op := opRReply, cached := 1 }.bytes ++
              ((s.values c).flatMap ValueH.bytes).take 17⟩ := by
    rw [← hwords, answerTo, hlookup']
    exact if_pos ⟨rfl, hstate⟩
  rw [datagramPass, if_pos (.inl hport), hextract]
  simp only [Option.bind_eq_bind, Option.bind_some, hanswer, hrouted, if_true, hroute,
    Option.map_some]

/-- After every run of frames a READ that a client sends for a VALID entry is answered, if the
client is routable, by a frame that the client's host accepts; what the client then reads are its
own fields of `NETCACHE_h`, and the first 17 bytes of the value as `par_id` and `org_key`: of the
words of the start, or zeros once they were taken. -/
theorem hit_decodes {fs : List Bytes} {outs : List (Option (BitVec 9 × Bytes))}
    {macAddr : BitVec 48} {p : BitVec 9} (hrun : outputs (frameStep t) fs r = some (s, outs))
    (hpos : 0 < numWorkers) (hmax : numWorkers ≤ maxWorkers)
    (hpayload : d.payload = (readHdr numWorkers keyValue latency).sent 0)
    (htarget : (d.dstAddr, d.dstPort) =
      txDestination .netcache numWorkers (tostringKey keyValue))
    (hlookup : t.readCache (hostHash (tostringKey keyValue)) = some c)
    (hstate : s.cacheState c = valid) (hroute : t.ipv4Exact d.srcAddr = some p) :
    ∃ pkts s' frame d' hdr words, fs.mapM decodeFrame = some pkts ∧
      frameStep t (sendFrame macAddr d) s = some (s', some (p, frame)) ∧
      udpReceive frame = some d' ∧
      HitReply macAddr d d' (readHdr numWorkers keyValue latency) hdr words ∧
      (¬ Taken r (arrivals t pkts) c ∧ words = (r.values c).flatMap ValueH.bytes ∨
        Taken r (arrivals t pkts) c ∧ words = List.replicate 64 0) := by
  have hlen : d.payload.length = 43 := by rw [hpayload, length_sent_readHdr]
  have hport : netcachePort d.dstPort = true := by
    rw [show d.dstPort = _ from congrArg Prod.snd htarget]
    exact netcachePort_txDestination hpos hmax _
  have hdeliverable : Deliverable (sendFrame macAddr d) d :=
    ⟨udpReceive_sendFrame macAddr (by omega), by omega⟩
  obtain ⟨pkts, hpkts, rfl⟩ := afterPackets_of_outputs hrun
  have hrecorded := recorded_after r (arrivals t pkts)
  obtain ⟨s', out, hstep, hout⟩ :=
    switchPassBytes_datagram t (afterPackets t r pkts) hdeliverable
  rw [macSrcAddr_sendFrame, datagramPass_hit hpayload hport hlookup hstate hroute] at hout
  obtain ⟨⟨p', frame⟩, rfl, heq⟩ := Option.map_eq_some_iff.1 hout
  obtain ⟨rfl, hreceive⟩ := Prod.mk.inj heq
  obtain ⟨hdr, hreply⟩ := @hitReply_of_words numWorkers keyValue latency macAddr d _
    (Registers.length_flatMap_values (afterPackets t r pkts) c)
  refine ⟨pkts, s', frame, _, hdr, _, hpkts, hstep, hreceive, hreply, ?_⟩
  by_cases htaken : Taken r (arrivals t pkts) c
  · exact .inr ⟨htaken, ((hrecorded c).emptied htaken).flatMap_values⟩
  · exact .inl ⟨htaken, flatMap_values_congr ((hrecorded c).fresh htaken)⟩

end

/-! ## Three READs -/

/-- A client's READ of an item, with eight workers on a server. -/
def readOf (keyValue : BitVec 64) : UdpDatagram where
  macDstAddr := 0xB
  srcAddr := 0x0A000001
  dstAddr := (txDestination .netcache 8 (tostringKey keyValue)).1
  srcPort := 3000
  dstPort := (txDestination .netcache 8 (tostringKey keyValue)).2
  payload := (readHdr 8 keyValue 7).sent 0

/-- The items 0 and 5 are cached, each at the index with its number. -/
def twoItemTables : Tables where
  ipv4Exact _ := some 1
  readCache hkey :=
    if hkey = hostHash (tostringKey 0) then some 0
    else if hkey = hostHash (tostringKey 5) then some 5 else none

/-- Each item is read once, so the words of both are taken. -/
def readFrames : List Bytes := [sendFrame 0xA (readOf 5), sendFrame 0xA (readOf 0)]

/-- The frame of each READ is one that the host of the receiver accepts. -/
theorem deliverable_readOf (keyValue : BitVec 64) :
    Deliverable (sendFrame 0xA (readOf keyValue)) (readOf keyValue) := by
  have hlen : (readOf keyValue).payload.length = 43 := length_sent_readHdr 8 keyValue 7
  exact ⟨udpReceive_sendFrame 0xA (by omega), by omega⟩

/-- Both frames are taken, and the first words of both indices are gone. -/
theorem run_readFrames : ∃ s outs,
    outputs (frameStep twoItemTables) readFrames filledRegisters = some (s, outs) ∧
      outs.length = 2 ∧ s.cacheState 0 = valid ∧ s.value ⟨0, by decide⟩ 0 = 0 := by
  have hexec : (outputs (frameStep twoItemTables) readFrames filledRegisters).any (fun s =>
      decide (s.2.length = 2 ∧ s.1.cacheState 0 = valid ∧ s.1.value ⟨0, by decide⟩ 0 = 0)) =
      true := by
    decide +kernel
  obtain ⟨⟨s, outs⟩, hrun, hs⟩ := (Option.any_eq_true _ _).1 hexec
  exact ⟨s, outs, hrun, of_decide_eq_true hs⟩

/-- A third frame after them: what the switch does to its bytes is what it does to its datagram. -/
theorem delivered_after_readFrames : ∃ s outs pkts s' out,
    outputs (frameStep twoItemTables) readFrames filledRegisters = some (s, outs) ∧
      outs.length = 2 ∧ readFrames.mapM decodeFrame = some pkts ∧
      (∀ c, Recorded filledRegisters (arrivals twoItemTables pkts) s c) ∧
      frameStep twoItemTables (sendFrame 0xA (readOf 5)) s = some (s', out) ∧
      (out.map fun o => (o.1, udpReceive o.2)) =
        (datagramPass twoItemTables s 0xA (readOf 5)).map fun o => (o.1, some o.2) := by
  obtain ⟨s, outs, hrun, hlen, -⟩ := run_readFrames
  obtain ⟨pkts, s', out, hpkts, hrecorded, hstep, hout⟩ :=
    delivered_after hrun (deliverable_readOf 5)
  rw [macSrcAddr_sendFrame] at hout
  exact ⟨s, outs, pkts, s', out, hrun, hlen, hpkts, hrecorded, hstep, hout⟩

/-- The second READ of item 0: the client reads zeros where it expects its key. -/
theorem hit_decodes_readFrames : ∃ s outs s' frame d' hdr,
    outputs (frameStep twoItemTables) readFrames filledRegisters = some (s, outs) ∧
      frameStep twoItemTables (sendFrame 0xA (readOf 0)) s = some (s', some (1, frame)) ∧
      udpReceive frame = some d' ∧
      HitReply 0xA (readOf 0) d' (readHdr 8 0 7) hdr (List.replicate 64 0) := by
  obtain ⟨s, outs, hrun, -, hstate, hword⟩ := run_readFrames
  have hlookup : twoItemTables.readCache (hostHash (tostringKey 0)) = some 0 := by
    simp [twoItemTables]
  obtain ⟨pkts, s', frame, d', hdr, words, hpkts, hstep, hreceive, hreply, hwords⟩ :=
    @hit_decodes 8 0 7 twoItemTables filledRegisters s 0 (readOf 0) readFrames outs 0xA 1 hrun
      (by decide) (by decide) rfl rfl hlookup hstate rfl
  have htaken : Taken filledRegisters (arrivals twoItemTables pkts) 0 := by
    by_contra hfresh
    obtain ⟨pkts', hpkts', rfl⟩ := afterPackets_of_outputs hrun
    obtain rfl := Option.some.inj (hpkts.symm.trans hpkts')
    have hkept := (recorded_after filledRegisters (arrivals twoItemTables pkts) 0).fresh hfresh
    have hone : (1 : BitVec 32) = 0 := (hkept ⟨0, by decide⟩).symm.trans hword
    exact absurd hone (by decide)
  rcases hwords with ⟨hfresh, -⟩ | ⟨-, rfl⟩
  · exact absurd htaken hfresh
  · exact ⟨s, outs, s', frame, d', hdr, hrun, hstep, hreceive, hreply⟩

end OrbitCache.Netcache
