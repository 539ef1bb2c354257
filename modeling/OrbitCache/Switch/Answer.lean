import OrbitCache.Switch.Delivery

/-!
# Replies as bytes

A cache packet that finds a pending READ leaves the switch as the reply to it. On the bytes of
frames, after any run: the reply goes to the sender of the oldest READ that waits at the index, and
the client reads from it the struct of the cache packet with `op`, `seq` and `latency` of its own
request (`reply_decodes`).
-/

namespace OrbitCache

/-! ## The struct and the header -/

namespace OrbitcacheHdr

/-- The header the switch reads in front of a struct: the bytes that an integer has in the memory of
a host, taken in network order. -/
def orbitcacheH (hdr : OrbitcacheHdr) : OrbitcacheH where
  op := hdr.op
  seq := htonl hdr.seq
  hkeyHi := htonll hdr.hkeyHi
  hkeyLo := htonll hdr.hkeyLo
  flag := hdr.flag
  cached := hdr.cached
  latency := htonl hdr.latency

/-- The bytes of a struct behind that header: the partition, the key and the value, in which the
switch takes no part. -/
def item (hdr : OrbitcacheHdr) (valueSize : Nat) : Bytes :=
  Endian.bytes 1 hdr.parId.toNat ++ (hdr.orgKey.toList ++ hdr.value.take valueSize)

/-- The bytes of a struct, as the switch divides them. -/
theorem sent_eq (hdr : OrbitcacheHdr) (valueSize : Nat) :
    hdr.sent valueSize = hdr.orbitcacheH.bytes ++ hdr.item valueSize := by
  simp only [sent, fields, OrbitcacheH.bytes, orbitcacheH, item, toNat_htonl, toNat_htonll,
    Endian.network_swap, List.append_assoc]
  rfl

/-- A reply: the struct of the cache packet, with the fields of the request that it answers. This is
what a client should find in the datagram. -/
def answering (hdr request : OrbitcacheHdr) : OrbitcacheHdr :=
  { hdr with op := opRReply, seq := request.seq, latency := request.latency }

/-- The header of a reply, in the fields of the two structs. -/
theorem orbitcacheH_answering (hdr request : OrbitcacheHdr) :
    (hdr.answering request).orbitcacheH =
      { hdr.orbitcacheH with
        op := opRReply
        seq := request.orbitcacheH.seq
        latency := request.orbitcacheH.latency } := rfl

end OrbitcacheHdr

/-! ## The READs that wait -/

section
variable {π : Type} (t : Tables) (port : BitVec 9) (pkt : Packet π) (c : BitVec 32)

instance : Decidable (ReadsAt t port pkt c) := inferInstanceAs (Decidable (_ ∧ _ ∧ _ ∧ _))

instance : Decidable (LoopsAt t port pkt c) := inferInstanceAs (Decidable (_ ∧ _ ∧ _))

/-- The registers and the frames of the READs that wait at an index, after one more frame: a READ of
a VALID key waits if there is room, a cache packet of a VALID key answers the oldest. -/
def awaited (s : Registers × List Bytes) (f : BitVec 9 × Bytes) : Registers × List Bytes :=
  match decodeFrame f with
  | none => s
  | some (port, pkt) =>
    ((switchPass t port s.1 pkt).1,
      if s.1.cacheState c = valid then
        if ReadsAt t port pkt c then
          if s.2.length < maxQueueSizePerKey then s.2 ++ [f.2] else s.2
        else if LoopsAt t port pkt c then s.2.tail
        else s.2
      else s.2)

end

/-- The entry the request table makes of the packet in a frame: its client and its `seq` and
`latency`. -/
def frameEntry (frame : Bytes) : Option Pending :=
  (parseEthernet.run frame).map fun p => (p.1.packet p.2).entry

/-- The request table holds at an index the entries of the frames that wait there, in their order.
This relates the queue of the registers to the requests as the clients sent them. -/
structure Awaits (c : BitVec 32) (n : Nat) (s : Registers × List Bytes) : Prop where
  wf : s.1.WFBelow n
  pending : (s.1.pending c).map some = s.2.map frameEntry
  parsed : ∀ g ∈ s.2, ∃ hdr rest, parseEthernet.run g = some (hdr, rest) ∧
    hdr.orbitcacheValid = true

section
variable {t : Tables} {c : BitVec 32} {n : Nat} {r : Registers}

/-- A frame that is decoded was parsed, and its packet is that of the parse. -/
theorem decodeFrame_eq_some {f : BitVec 9 × Bytes}
    {p : BitVec 9 × Packet (FullHeaderT × Bytes)} (h : decodeFrame f = some p) :
    ∃ hdr rest, parseEthernet.run f.2 = some (hdr, rest) ∧ p = (f.1, hdr.packet rest) := by
  obtain ⟨⟨hdr, rest⟩, hparse, rfl⟩ := Option.map_eq_some_iff.1 h
  exact ⟨hdr, rest, hparse, rfl⟩

/-- An OrbitCache packet comes of a parse with a valid OrbitCache header. -/
theorem orbitcacheValid_of_isOrbitcache {hdr : FullHeaderT} {rest frame : Bytes}
    (hparse : parseEthernet.run frame = some (hdr, rest))
    (h : (hdr.packet rest).IsOrbitcache) : hdr.orbitcacheValid = true := by
  have hparsed := (parseEthernet_iff.1 hparse).1
  have hvalid := orbitcacheValid_iff.2 h
  rw [hparsed.switchIngressParser rest] at hvalid
  exact hvalid

/-- One more frame keeps the frames that wait in step with the request table: both gain it, both
lose their front, or neither changes. -/
theorem Awaits.step (ht : t.IndexBelow n) (hn : n ≤ maxCacheSize) (hc : c.toNat < n)
    {s : Registers × List Bytes} (h : Awaits c n s) (f : BitVec 9 × Bytes) :
    Awaits c n (awaited t c s f) := by
  unfold awaited
  split
  · exact h
  · next port pkt hdecode =>
    obtain ⟨hdr, rest, hparse, hpkt⟩ := decodeFrame_eq_some hdecode
    obtain ⟨-, rfl⟩ := Prod.mk.inj hpkt
    obtain ⟨v, hv, hpass⟩ := switchPass_cases port (hdr.packet rest) ht h.wf
    have hstep := hv.queueStep ht hn h.wf hc
    have hregs : (switchPass t port s.1 (hdr.packet rest)).1 = v.regs s.1 (hdr.packet rest) :=
      congrArg Prod.fst hpass
    have hlen : (s.1.pending c).length = s.2.length := by
      have hlength := congrArg List.length h.pending
      rwa [List.length_map, List.length_map] at hlength
    have hentry : frameEntry f.2 = some (hdr.packet rest).entry := by rw [frameEntry, hparse]; rfl
    refine ⟨switchPass_wfBelow ht h.wf, ?_, ?_⟩
    · simp only [hregs]
      split
      · next hvalid =>
        split
        · next hread =>
          rw [hstep.read hread hvalid, hlen]
          split
          · rw [List.map_append, List.map_append, h.pending, List.map_singleton,
              List.map_singleton, hentry]
          · exact h.pending
        · next hread =>
          split
          · next hloop => rw [(hstep.loop hloop hvalid).1, List.map_tail, h.pending, List.map_tail]
          · next hloop =>
            rw [hstep.other (fun hboth => hread hboth.1) (fun hboth => hloop hboth.1), h.pending]
      · next hvalid =>
        rw [hstep.other (fun hboth => hvalid hboth.2) (fun hboth => hvalid hboth.2), h.pending]
    · intro g hg
      dsimp only at hg
      split at hg
      · split at hg
        · next hread =>
          split at hg
          · rcases List.mem_append.1 hg with hg | hg
            · exact h.parsed g hg
            · rw [List.mem_singleton.1 hg]
              exact ⟨hdr, rest, hparse, orbitcacheValid_of_isOrbitcache hparse hread.1⟩
          · exact h.parsed g hg
        · split at hg
          · exact h.parsed g (List.mem_of_mem_tail hg)
          · exact h.parsed g hg
      · exact h.parsed g hg

/-- Over a sequence of frames, by induction. -/
theorem Awaits.foldl (ht : t.IndexBelow n) (hn : n ≤ maxCacheSize) (hc : c.toNat < n)
    {s : Registers × List Bytes} (h : Awaits c n s) (fs : List (BitVec 9 × Bytes)) :
    Awaits c n (fs.foldl (awaited t c) s) := by
  induction fs generalizing s with
  | nil => exact h
  | cons f fs ih => exact ih (h.step ht hn hc f)

/-- The registers of a run on bytes are those that the frames that wait are computed with. -/
theorem fst_foldl_awaited {s : Registers × List Bytes} {fs : List (BitVec 9 × Bytes)}
    {r' : Registers} {copies : List (List (BitVec 9 × Bytes))}
    (h : outputs (frameStep t) fs s.1 = some (r', copies)) :
    (fs.foldl (awaited t c) s).1 = r' := by
  induction fs generalizing s copies with
  | nil =>
    cases h
    rfl
  | cons f fs ih =>
    obtain ⟨u, outs, rest, hstep, hrest, -⟩ := outputs_cons h
    rw [List.foldl_cons]
    have hnext : (awaited t c s f).1 = u := by
      rw [frameStep_eq] at hstep
      obtain ⟨p, hdecode, hstep⟩ := Option.bind_eq_some_iff.1 hstep
      cases hstep
      simp only [awaited, hdecode]
    exact ih (hnext ▸ hrest)

/-- A cache packet that finds a pending READ leaves as the reply to the oldest one. -/
theorem outputs_serve {π : Type} {port : BitVec 9} {pkt : Packet π} {e : Pending} {q : List Pending}
    (ht : t.IndexBelow n) (hwf : r.WFBelow n) (hloop : LoopsAt t port pkt c)
    (hvalid : r.cacheState c = valid) (hq : r.pending c = e :: q) :
    (switchPass t port r pkt).2 = multicast t (t.getCrecircId e.clientIP (recircEntry t port).2)
      ((pkt.touched t port).answer t e) := by
  obtain ⟨v, hv, hpass⟩ := switchPass_cases port pkt ht hwf
  rw [hpass]
  rcases hv.of_loopsAt hloop (beq_iff_eq.2 hvalid) with ⟨-, hnil⟩ | ⟨e', q', rfl, hcons⟩
  · rw [Registers.queue_line, hq] at hnil
    cases hnil
  · rw [Registers.queue_line, hq, List.cons.injEq] at hcons
    rw [hcons.1]
    rfl

end

/-! ## The reply -/

section
variable {hdr : FullHeaderT} {rest frame : Bytes} {d : UdpDatagram} {h k : OrbitcacheHdr}
  {u v : Nat}

/-- A struct at the start of a datagram is the header that the switch parsed and what follows it, so
the layout of the struct is that of the parser. -/
theorem payload_eq_sent (hvalid : hdr.orbitcacheValid = true)
    (hpayload : (hdr.packet rest).received.payload = h.sent v) :
    27 ≤ hdr.udp.len.toNat - 8 ∧ hdr.orbitcache = h.orbitcacheH ∧
      rest.take (hdr.udp.len.toNat - 8 - 27) = h.item v := by
  have hbehind : (hdr.packet rest).received.payload =
      (hdr.orbitcache.bytes ++ rest).take (hdr.udp.len.toNat - 8) := by
    simp only [Packet.received, FullHeaderT.packet, FullHeaderT.behind, hvalid]
    rfl
  rw [hbehind, OrbitcacheHdr.sent_eq] at hpayload
  have hlen : 27 ≤ hdr.udp.len.toNat - 8 := by
    have hlength := congrArg List.length hpayload
    rw [List.length_take, List.length_append, List.length_append, OrbitcacheH.length_bytes,
      OrbitcacheH.length_bytes] at hlength
    omega
  rw [List.take_append, List.take_of_length_le (by rw [OrbitcacheH.length_bytes]; exact hlen),
    OrbitcacheH.length_bytes] at hpayload
  exact ⟨hlen, bytes_append_inj OrbitcacheH.extract_iff hpayload⟩

/-- The datagram of a cache packet that answers a READ: it goes to the client of the READ, and its
struct is that of the cache packet with the fields of the READ. -/
theorem received_answer {t : Tables} {port : BitVec 9} {e : Pending}
    (hloop : onLoop t port = true) (hvalid : hdr.orbitcacheValid = true)
    (hpayload : (hdr.packet rest).received.payload = h.sent v) (hseq : e.seq = k.orbitcacheH.seq)
    (hlatency : e.latency = k.orbitcacheH.latency) :
    (((hdr.packet rest).touched t port).answer t e).received =
      { macDstAddr := (t.updateDstMAC e.clientIP).getD (hdr.packet rest).received.macDstAddr
        srcAddr := (hdr.packet rest).received.srcAddr
        dstAddr := e.clientIP
        srcPort := (hdr.packet rest).received.srcPort
        dstPort := e.udpPort
        payload := (h.answering k).sent v } := by
  obtain ⟨hlen, horb, hrest⟩ := payload_eq_sent hvalid hpayload
  have hop : effectiveOp t port (hdr.packet rest) = opRReply := if_pos hloop
  have hheader : (((hdr.packet rest).touched t port).answer t e).orbitcache =
      (h.answering k).orbitcacheH := by
    rw [OrbitcacheHdr.orbitcacheH_answering, ← horb, ← hseq, ← hlatency, ← hop]
    rfl
  have hbytes : ((h.answering k).orbitcacheH.bytes ++ rest).take (hdr.udp.len.toNat - 8) =
      (h.answering k).sent v := by
    rw [List.take_append, List.take_of_length_le (by rw [OrbitcacheH.length_bytes]; exact hlen),
      OrbitcacheH.length_bytes, hrest, OrbitcacheHdr.sent_eq]
    rfl
  have hbehind : (((hdr.packet rest).touched t port).answer t e).received.payload =
      ((h.answering k).orbitcacheH.bytes ++ rest).take (hdr.udp.len.toNat - 8) := by
    rw [← hheader]
    simp only [Packet.received, Packet.answer, Packet.touched, FullHeaderT.packet,
      FullHeaderT.behind, hvalid]
    rfl
  rw [← hbytes, ← hbehind]
  rfl

/-- After any run of frames, a cache packet that finds a READ waiting at its index is sent to the
port group of the client, and the client accepts it as a datagram from the sender of the cache
packet, with the struct of the cache packet as the answer to its own request. -/
theorem reply_decodes {t : Tables} {c : BitVec 32} {n : Nat} {r r' : Registers}
    (ht : t.IndexBelow n) (hn : n ≤ maxCacheSize) (hc : c.toNat < n) (hwf : r.WFBelow n)
    (hempty : r.pending c = []) {fs : List (BitVec 9 × Bytes)}
    {copies : List (List (BitVec 9 × Bytes))}
    (hrun : outputs (frameStep t) fs r = some (r', copies))
    {request : Bytes} {q : List Bytes} (hq : (fs.foldl (awaited t c) (r, [])).2 = request :: q)
    {port : BitVec 9} {pkt : Packet (FullHeaderT × Bytes)}
    (hpkt : decodeFrame (port, frame) = some (port, pkt)) (hloop : LoopsAt t port pkt c)
    (hvalid : r'.cacheState c = valid)
    {dRequest : UdpDatagram} (hd : udpReceive frame = some d) (hh : d.payload = h.sent v)
    (hrequest : udpReceive request = some dRequest) (hk : dRequest.payload = k.sent u) :
    ∃ regs outs, switchPassBytes t port r' frame = some (regs, outs) ∧
      outs.map Prod.fst = (multicast t
        (t.getCrecircId dRequest.srcAddr (recircEntry t port).2) pkt).map Prod.fst ∧
      ∀ o ∈ outs, udpReceive o.2 = some
        { macDstAddr := (t.updateDstMAC dRequest.srcAddr).getD d.macDstAddr
          srcAddr := d.srcAddr
          dstAddr := dRequest.srcAddr
          srcPort := d.srcPort
          dstPort := dRequest.srcPort
          payload := (h.answering k).sent v } := by
  have hinit : Awaits c n (r, []) := ⟨hwf, by rw [hempty]; rfl, fun _ hg => by cases hg⟩
  have hawaits := hinit.foldl ht hn hc fs
  rw [← fst_foldl_awaited (s := (r, [])) (c := c) hrun] at hvalid ⊢
  generalize fs.foldl (awaited t c) (r, []) = s at hq hawaits hvalid ⊢
  obtain ⟨hdr, rest, hparse, hpkt⟩ := decodeFrame_eq_some hpkt
  obtain ⟨-, rfl⟩ := Prod.mk.inj hpkt
  have horb := orbitcacheValid_of_isOrbitcache hparse hloop.1
  obtain ⟨hparsed, rfl⟩ := parseEthernet_iff.1 hparse
  obtain ⟨-, -, -, rfl⟩ := hparsed.carries hd
  -- the oldest entry is that of the oldest frame
  obtain ⟨hdr', rest', hparse', horb'⟩ := hawaits.parsed request (by rw [hq]; simp)
  obtain ⟨hparsed', rfl⟩ := parseEthernet_iff.1 hparse'
  obtain ⟨-, -, -, rfl⟩ := hparsed'.carries hrequest
  obtain ⟨-, hheader, -⟩ := payload_eq_sent horb' hk
  have hpending := hawaits.pending
  rw [hq, List.map_cons, frameEntry, hparse', Option.map_some, List.map_eq_cons_iff] at hpending
  obtain ⟨e, es, hpending, he, -⟩ := hpending
  obtain rfl := Option.some.inj he
  have hserve := outputs_serve ht hawaits.wf hloop hvalid hpending
  refine ⟨_, _, switchPassBytes_eq t port s.1 hparse, ?_, fun o ho => ?_⟩
  · rw [hserve, List.map_map]
    simp only [multicast, List.map_map]
    rfl
  · obtain ⟨x, hx, rfl⟩ := List.mem_map.1 ho
    have hreceive := udpReceive_switchPass hparse hd hx
    rw [hserve] at hx
    obtain ⟨p, -, rfl⟩ := List.mem_map.1 hx
    have hanswer := @received_answer hdr rest h k v t port (hdr'.packet rest').entry hloop.2.2 horb
      hh (by rw [← hheader]; rfl) (by rw [← hheader]; rfl)
    rw [hreceive, hanswer]
    rfl

end

/-! ## One reply -/

/-- A READ of item 0 by the client on port 5, with `seq` 1. -/
def readDatagram : UdpDatagram :=
  ⟨0xA, 0x0A000165, 0x0A000166, 3001, 3000, (requestHdr 8 opRead 1 (tostringKey 0) 7).sent 0⟩

/-- The preloaded packet of item 0, with two bytes of its value. -/
def preloadDatagram : UdpDatagram :=
  ⟨0xA, 0x0A000167, 0x0A000168, 3000, 3000, (preloadHdr (tostringKey 0)).sent 2⟩

/-- Item 0 is cached at index 0; group 1 is the port of the client and the recirculation port. -/
def itemTables : Tables where
  ipv4Exact _ := none
  cacheLookup hkey := if hkey = hostHash (tostringKey 0) then some 0 else none
  readCacheRecirculationPort _ := some (68, 0)
  getCrecircId dst _ := if dst = 0x0A000165 then some 1 else none
  getCrecircId2 _ _ := none
  updateDstMAC dst := if dst = 0x0A000165 then some 0xC else none
  mgid g := if g = 1 then [5, 68] else []

/-- Every index is VALID and has no pending reads. -/
def validRegisters : Registers :=
  ⟨0, 0, fun _ => valid, fun _ => 0, fun _ => 0, fun _ => 0, fun _ => 0, fun _ => 0, fun _ => 0,
    fun _ => 0, fun _ => 0⟩

/-- The client gets the preloaded item as the answer to its READ. -/
theorem reply_decodes_preload :
    ∃ r' copies regs outs, outputs (frameStep itemTables) [(5, sendFrame 0xC readDatagram)]
        validRegisters = some (r', copies) ∧
      switchPassBytes itemTables 68 r' (sendFrame 0xB preloadDatagram) = some (regs, outs) ∧
      outs.map Prod.fst = [5, 68] ∧
      ∀ o ∈ outs, udpReceive o.2 = some
        { macDstAddr := 0xC
          srcAddr := 0x0A000167
          dstAddr := 0x0A000165
          srcPort := 3000
          dstPort := 3001
          payload := ((preloadHdr (tostringKey 0)).answering
            (requestHdr 8 opRead 1 (tostringKey 0) 7)).sent 2 } := by
  have hrun : (outputs (frameStep itemTables) [(5, sendFrame 0xC readDatagram)]
      validRegisters).any (fun s => s.1.cacheState 0 == valid) = true := by
    decide +kernel
  obtain ⟨⟨r', copies⟩, hrun, hvalid⟩ := (Option.any_eq_true _ _).1 hrun
  have hq : ([(5, sendFrame 0xC readDatagram)].foldl (awaited itemTables 0)
      (validRegisters, [])).2 = [sendFrame 0xC readDatagram] := by
    decide +kernel
  have hloop : (decodeFrame (68, sendFrame 0xB preloadDatagram)).any
      (fun p => p.1 == 68 && decide (LoopsAt itemTables 68 p.2 0)) = true := by
    decide +kernel
  obtain ⟨⟨port, pkt⟩, hpkt, hloop⟩ := (Option.any_eq_true _ _).1 hloop
  rw [Bool.and_eq_true, decide_eq_true_eq, beq_iff_eq] at hloop
  obtain ⟨rfl, hloop⟩ := hloop
  have hread : readDatagram.payload.length = 44 := by decide +kernel
  have hpreload : preloadDatagram.payload.length = 46 := by decide +kernel
  have hbelow : itemTables.IndexBelow 1 := by
    intro hkey c hc
    simp only [itemTables] at hc
    split at hc
    · cases hc
      decide
    · cases hc
  have hwf : validRegisters.WFBelow 1 := fun c _ =>
    ⟨Nat.zero_le _, Nat.succ_pos 7, rfl, .inl rfl⟩
  obtain ⟨regs, outs, hpass, hports, houts⟩ := reply_decodes (c := 0) hbelow (by decide) (by decide)
    hwf (Registers.pending_eq_nil_iff.2 rfl) hrun hq hpkt hloop (beq_iff_eq.1 hvalid)
    (udpReceive_sendFrame 0xB (by omega)) rfl (udpReceive_sendFrame 0xC (by omega)) rfl
  exact ⟨r', copies, regs, outs, hrun, hpass, hports, houts⟩

end OrbitCache
