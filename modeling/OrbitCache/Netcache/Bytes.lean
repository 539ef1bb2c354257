import OrbitCache.Netcache.Reply
import OrbitCache.Switch.Frame

/-!
# NetCache frames as bytes

`netcache.p4` on the bytes of a frame. All fields of its headers are in `HeaderT`, so parser,
control and deparser work on one type. A pass on bytes is the pass on the packet that the bytes
carry (`switchPassBytes_eq`), also over runs (`afterPackets_of_outputs`).
-/

namespace OrbitCache.Netcache

/-! ## The NetCache header -/

/-- The parser reads back the header that was emitted. -/
theorem NetcacheH.extract_append (h : NetcacheH) (rest : Bytes) :
    extract.run (h.bytes ++ rest) = some (h, rest) := by
  simp only [extract, bytes, List.append_assoc]
  simp only [StateT.run_bind, @extractField_bits 8 1 rfl, @extractField_bits 32 4 rfl,
    @extractField_bits 64 8 rfl, StateT.run_pure, Option.bind_eq_bind, Option.bind_some,
    Option.pure_def, BitVec.ofNat_toNat, BitVec.setWidth_eq]

/-- It accepts exactly the bytes of a header, with whatever follows. -/
theorem NetcacheH.extract_iff {h : NetcacheH} {l rest : Bytes} :
    extract.run l = some (h, rest) ↔ l = h.bytes ++ rest := by
  constructor
  · intro hx
    simp only [extract, extractField_bind_iff] at hx
    obtain ⟨op, _, ⟨hop, rfl⟩, seq, _, ⟨hseq, rfl⟩, hi, _, ⟨hhi, rfl⟩, lo, _, ⟨hlo, rfl⟩,
      cached, _, ⟨hcached, rfl⟩, latency, _, ⟨hlatency, rfl⟩, hx⟩ := hx
    cases hx
    simp only [bytes, BitVec.toNat_ofNat, List.append_assoc]
    rw [Nat.mod_eq_of_lt (b := 2 ^ 8) hop, Nat.mod_eq_of_lt (b := 2 ^ 32) hseq,
      Nat.mod_eq_of_lt (b := 2 ^ 64) hhi, Nat.mod_eq_of_lt (b := 2 ^ 64) hlo,
      Nat.mod_eq_of_lt (b := 2 ^ 8) hcached, Nat.mod_eq_of_lt (b := 2 ^ 32) hlatency]
  · rintro rfl
    exact h.extract_append rest

/-- A NetCache header has 26 bytes. -/
@[simp] theorem NetcacheH.length_bytes (h : NetcacheH) : h.bytes.length = 26 := by simp [bytes]

/-- Enough bytes start with a header. -/
theorem NetcacheH.exists_bytes {l : Bytes} (h : 26 ≤ l.length) :
    ∃ (hdr : NetcacheH) (rest : Bytes), l = hdr.bytes ++ rest := by
  have hsome : (extract.run l).isSome := by
    refine @extractField_bind_isSome _ 1 25 _ _ h fun _ _ h => ?_
    refine @extractField_bind_isSome _ 4 21 _ _ h fun _ _ h => ?_
    refine @extractField_bind_isSome _ 8 13 _ _ h fun _ _ h => ?_
    refine @extractField_bind_isSome _ 8 5 _ _ h fun _ _ h => ?_
    refine @extractField_bind_isSome _ 1 4 _ _ h fun _ _ h => ?_
    exact @extractField_bind_isSome _ 4 0 _ _ h fun _ _ _ => rfl
  obtain ⟨⟨hdr, rest⟩, hrun⟩ := Option.isSome_iff_exists.1 hsome
  exact ⟨hdr, rest, extract_iff.1 hrun⟩

/-! ## Parser and deparser -/

/-- The state `parse_netcache`: it extracts `NETCACHE_h` and accepts. -/
def parseNetcache (hdr : HeaderT) : StateT Bytes Option HeaderT := do
  let netcache ← NetcacheH.extract
  return { hdr with netcache := netcache, netcacheValid := true }

/-- The state `parse_udp2`: the select on the source port, for the replies of a server. -/
def parseUdp2 (hdr : HeaderT) : StateT Bytes Option HeaderT :=
  if netcachePort hdr.udp.srcPort then parseNetcache hdr else return hdr

/-- The state `parse_udp`: the select on the destination port; a packet that it does not recognise
goes to `parse_udp2`. -/
def parseUdp (hdr : HeaderT) : StateT Bytes Option HeaderT := do
  let udp ← UdpH.extract
  let hdr := { hdr with udp := udp, udpValid := true }
  if netcachePort hdr.udp.dstPort then parseNetcache hdr else parseUdp2 hdr

/-- The state `parse_ipv4`. Other protocols than UDP are accepted here, without a further header. -/
def parseIpv4 (hdr : HeaderT) : StateT Bytes Option HeaderT := do
  let ipv4 ← Ipv4H.extract
  let hdr := { hdr with ipv4 := ipv4, ipv4Valid := true }
  if hdr.ipv4.protocol = typeUdp then parseUdp hdr else return hdr

/-- The state `parse_ethernet`: `SwitchIngressParser` from the first byte of a frame. It fails on a
frame that ends within a header. -/
def parseEthernet : StateT Bytes Option HeaderT := do
  let ethernet ← EthernetH.extract
  let hdr := HeaderT.parsed ethernet .zero false .zero false .zero false
  if hdr.ethernet.etherType = typeIpv4 then parseIpv4 hdr else return hdr

namespace HeaderT

/-- `pkt.emit(hdr)`: the bytes of the valid headers, in the order of the fields of `header_t`, with
the value headers last. -/
def emit (hdr : HeaderT) : Bytes :=
  hdr.ethernet.bytes ++ ((if hdr.ipv4Valid then hdr.ipv4.bytes else []) ++
    ((if hdr.udpValid then hdr.udp.bytes else []) ++
      ((if hdr.netcacheValid then hdr.netcache.bytes else []) ++
        hdr.values.flatMap ValueH.bytes)))

/-- `SwitchIngressDeparser`: the checksum is computed anew, and the bytes that were not parsed
follow the headers. -/
def deparse (hdr : HeaderT) (rest : Bytes) : Bytes :=
  { hdr with ipv4.hdrChecksum := hdr.ipv4.checksum }.emit ++ rest

end HeaderT

/-- One frame through the switch, from bytes to bytes. Nothing is emitted for a packet that is
dropped. -/
def switchPassBytes (t : Tables) (regs : Registers) (frame : Bytes) :
    Option (Registers × Option (BitVec 9 × Bytes)) := do
  let (hdr, rest) ← parseEthernet.run frame
  let x := Ingress.apply t (.start hdr regs)
  return (x.regs, x.egressPort.map fun p => (p, x.hdr.deparse rest))

/-! ## What the parser accepts -/

/-- The headers that a parse can give, with the outcome of the selects of the parser. -/
inductive Parsed : HeaderT → Prop
  | other {ethernet} : ethernet.etherType ≠ typeIpv4 →
      Parsed (.parsed ethernet .zero false .zero false .zero false)
  | ipv4 {ethernet ipv4} : ethernet.etherType = typeIpv4 → ipv4.protocol ≠ typeUdp →
      Parsed (.parsed ethernet ipv4 true .zero false .zero false)
  | udp {ethernet ipv4 udp} : ethernet.etherType = typeIpv4 → ipv4.protocol = typeUdp →
      ¬ (netcachePort udp.dstPort ∨ netcachePort udp.srcPort) →
      Parsed (.parsed ethernet ipv4 true udp true .zero false)
  | netcache {ethernet ipv4 udp netcache} : ethernet.etherType = typeIpv4 →
      ipv4.protocol = typeUdp → netcachePort udp.dstPort ∨ netcachePort udp.srcPort →
      Parsed (.parsed ethernet ipv4 true udp true netcache true)

section
variable {hdr hdr' : HeaderT} {frame l rest : Bytes}

/-- A select with one case and the default. -/
theorem run_ite_iff {α : Type} {c : Prop} [Decidable c] {p q : StateT Bytes Option α} {b : α}
    {l rest : Bytes} : (if c then p else q).run l = some (b, rest) ↔
      c ∧ p.run l = some (b, rest) ∨ ¬ c ∧ q.run l = some (b, rest) := by
  split
  · next h => simp [h]
  · next h => simp [h]

/-- The two port selects, as one: the NetCache header is parsed when either port is a NetCache port.
-/
theorem parseUdp_iff : (parseUdp hdr).run l = some (hdr', rest) ↔
    ∃ udp l', l = udp.bytes ++ l' ∧
      ((netcachePort udp.dstPort ∨ netcachePort udp.srcPort) ∧
          (∃ netcache, l' = netcache.bytes ++ rest ∧ hdr' = { hdr with
            udp := udp, udpValid := true, netcache := netcache, netcacheValid := true }) ∨
        ¬ (netcachePort udp.dstPort ∨ netcachePort udp.srcPort) ∧ l' = rest ∧
          hdr' = { hdr with udp := udp, udpValid := true }) := by
  have hnetcache (hdr : HeaderT) (l' : Bytes) : (parseNetcache hdr).run l' = some (hdr', rest) ↔
      ∃ netcache, l' = netcache.bytes ++ rest ∧
        hdr' = { hdr with netcache := netcache, netcacheValid := true } := by
    simp only [parseNetcache, run_bind_iff NetcacheH.extract_iff, run_pure_iff]
    constructor
    · rintro ⟨netcache, _, rfl, rfl, rfl⟩
      exact ⟨netcache, rfl, rfl⟩
    · rintro ⟨netcache, rfl, rfl⟩
      exact ⟨netcache, rest, rfl, rfl, rfl⟩
  simp only [parseUdp, parseUdp2, run_bind_iff UdpH.extract_iff, run_ite_iff, hnetcache,
    run_pure_iff]
  refine exists_congr fun udp => exists_congr fun l' => and_congr_right fun _ => ?_
  by_cases hdst : netcachePort udp.dstPort = true
  · simp [hdst]
  · simp [hdst, and_comm]

/-- The parser accepts exactly what is emitted for the headers of a frame, with whatever follows. -/
theorem parseEthernet_iff : parseEthernet.run frame = some (hdr, rest) ↔
    Parsed hdr ∧ frame = hdr.emit ++ rest := by
  simp only [parseEthernet, parseIpv4, run_bind_iff EthernetH.extract_iff,
    run_bind_iff Ipv4H.extract_iff, run_ite_iff, parseUdp_iff, run_pure_iff]
  constructor
  · rintro ⟨ethernet, l, rfl, ⟨hether, ipv4, l, rfl, ⟨hprotocol, udp, l, rfl,
      ⟨hport, netcache, rfl, rfl⟩ | ⟨hport, rfl, rfl⟩⟩ | ⟨hprotocol, rfl, rfl⟩⟩ |
      ⟨hether, rfl, rfl⟩⟩
    · exact ⟨.netcache hether hprotocol hport,
        by simp [HeaderT.emit, HeaderT.parsed, HeaderT.values]⟩
    · exact ⟨.udp hether hprotocol hport, by simp [HeaderT.emit, HeaderT.parsed, HeaderT.values]⟩
    · exact ⟨.ipv4 hether hprotocol, by simp [HeaderT.emit, HeaderT.parsed, HeaderT.values]⟩
    · exact ⟨.other hether, by simp [HeaderT.emit, HeaderT.parsed, HeaderT.values]⟩
  · rintro ⟨hparsed, rfl⟩
    cases hparsed with
    | @other ethernet hether =>
      exact ⟨ethernet, rest, by simp [HeaderT.emit, HeaderT.parsed, HeaderT.values],
        .inr ⟨hether, rfl, rfl⟩⟩
    | @ipv4 ethernet ipv4 hether hprotocol =>
      exact ⟨ethernet, ipv4.bytes ++ rest, by simp [HeaderT.emit, HeaderT.parsed, HeaderT.values],
        .inl ⟨hether, ipv4, rest, rfl, .inr ⟨hprotocol, rfl, rfl⟩⟩⟩
    | @udp ethernet ipv4 udp hether hprotocol hport =>
      exact ⟨ethernet, ipv4.bytes ++ (udp.bytes ++ rest),
        by simp [HeaderT.emit, HeaderT.parsed, HeaderT.values],
        .inl ⟨hether, ipv4, udp.bytes ++ rest, rfl,
          .inl ⟨hprotocol, udp, rest, rfl, .inr ⟨hport, rfl, rfl⟩⟩⟩⟩
    | @netcache ethernet ipv4 udp netcache hether hprotocol hport =>
      exact ⟨ethernet, ipv4.bytes ++ (udp.bytes ++ (netcache.bytes ++ rest)),
        by simp [HeaderT.emit, HeaderT.parsed, HeaderT.values],
        .inl ⟨hether, ipv4, udp.bytes ++ (netcache.bytes ++ rest), rfl,
          .inl ⟨hprotocol, udp, netcache.bytes ++ rest, rfl,
            .inl ⟨hport, netcache, rfl, rfl⟩⟩⟩⟩

end

/-! ## What the control leaves -/

namespace HeaderT

/-- The headers of a NetCache packet that is not answered: its UDP checksum is cleared. -/
def passed (hdr : HeaderT) : HeaderT := { hdr with udp.checksum := 0 }

/-- The headers of a WRITE of a cached key, which goes on as a FETCH. -/
def fetching (hdr : HeaderT) : HeaderT := { hdr with udp.checksum := 0, netcache.op := opFetch }

/-- The headers of the reply to a READ that is answered with the words at `c`: sender and receiver
change places. -/
def answered (hdr : HeaderT) (r : Registers) (c : BitVec 32) : HeaderT where
  ethernet := { hdr.ethernet with
    dstAddr := hdr.ethernet.srcAddr
    srcAddr := hdr.ethernet.dstAddr }
  ipv4 := { hdr.ipv4 with srcAddr := hdr.ipv4.dstAddr, dstAddr := hdr.ipv4.srcAddr }
  ipv4Valid := hdr.ipv4Valid
  udp := { hdr.udp with
    srcPort := hdr.udp.dstPort
    dstPort := hdr.udp.srcPort
    checksum := 0 }
  udpValid := hdr.udpValid
  netcache := { hdr.netcache with op := opRReply, cached := 1 }
  netcacheValid := hdr.netcacheValid
  value1 := (r.values c).getD 0 .zero
  value1Valid := true
  value2 := (r.values c).getD 1 .zero
  value2Valid := true
  value3 := (r.values c).getD 2 .zero
  value3Valid := true
  value4 := (r.values c).getD 3 .zero
  value4Valid := true

/-- The headers that the control leaves, as a function of those that were parsed and of the
registers. -/
def control (t : Tables) (r : Registers) (hdr : HeaderT) : HeaderT :=
  if hdr.netcacheValid then
    match t.readCache hdr.netcache.hkey with
    | some c =>
      if hdr.netcache.op = opRead ∧ r.cacheState c = valid then hdr.answered r c
      else if hdr.netcache.op = opWrite then hdr.fetching
      else hdr.passed
    | none => hdr.passed
  else hdr

/-- The control makes no header valid or invalid but the value headers. -/
theorem valid_control (t : Tables) (r : Registers) (hdr : HeaderT) :
    (hdr.control t r).ipv4Valid = hdr.ipv4Valid ∧ (hdr.control t r).udpValid = hdr.udpValid ∧
      (hdr.control t r).netcacheValid = hdr.netcacheValid := by
  unfold control
  split
  · split
    · split
      · exact ⟨rfl, rfl, rfl⟩
      · split <;> exact ⟨rfl, rfl, rfl⟩
    · exact ⟨rfl, rfl, rfl⟩
  · exact ⟨rfl, rfl, rfl⟩

end HeaderT

namespace Ingress

section
variable {t : Tables} {x : Ingress}

/-- The lookup clears the UDP checksum. -/
theorem hdr_lookupBlock (t : Tables) (x : Ingress) : (lookupBlock t x).hdr = x.hdr.passed := by
  unfold lookupBlock readCacheTable
  split <;> rfl

/-- A READ that is not answered is forwarded as it is. -/
theorem hdr_applyRead_of_ne (h : x.igMd.cacheState ≠ valid) : (applyRead t x).hdr = x.hdr := by
  rw [applyRead, if_neg h]
  split
  · rw [hdr_ipv4Exact]
  · rfl

/-- A READ of a VALID key becomes the reply. -/
theorem hdr_apply_hit {c : BitVec 32} (hvalid : x.hdr.netcacheValid = true)
    (hop : x.hdr.netcache.op = opRead) (hlookup : t.readCache x.hdr.netcache.hkey = some c)
    (hstate : x.regs.cacheState c = valid) :
    (apply t x).hdr = x.hdr.answered x.regs c := by
  rw [apply_hit hvalid hop hlookup hstate, hdr_ipv4Exact, turnAround, hdr_getValues]
  rfl

/-- A WRITE becomes a FETCH if its key is cached. -/
theorem hdr_applyWrite (t : Tables) (x : Ingress) : (applyWrite t (lookupBlock t x)).hdr =
    match t.readCache x.hdr.netcache.hkey with
    | some _ => x.hdr.fetching
    | none => x.hdr.passed := by
  rw [applyWrite, hdr_ipv4Exact]
  cases hlookup : t.readCache x.hdr.netcache.hkey with
  | some c =>
    rw [lookupBlock_hit hlookup, if_pos rfl]
    rfl
  | none =>
    rw [lookupBlock_miss hlookup, if_neg (by decide : ¬ no = yes)]
    rfl

/-- An operation that is neither a READ nor a WRITE is passed on. -/
theorem control_of_ne (hvalid : x.hdr.netcacheValid = true) (hread : x.hdr.netcache.op ≠ opRead)
    (hwrite : x.hdr.netcache.op ≠ opWrite) : x.hdr.control t x.regs = x.hdr.passed := by
  rw [HeaderT.control, if_pos hvalid]
  split
  · rw [if_neg fun h => hread h.1, if_neg hwrite]
  · rfl

/-- The headers behind the control, by its branches. -/
theorem hdr_apply (t : Tables) (x : Ingress) : (apply t x).hdr = x.hdr.control t x.regs := by
  cases hvalid : x.hdr.netcacheValid with
  | false =>
    rw [apply_of_not_valid hvalid, hdr_ipv4Exact, HeaderT.control,
      if_neg (by rw [hvalid]; exact Bool.false_ne_true)]
  | true =>
    have hcount : (countHit (lookupBlock t x)).hdr = x.hdr.passed := by
      rw [hdr_countHit, hdr_lookupBlock]
    rcases apply_cases (t := t) hvalid with ⟨hop, happly⟩ | ⟨hop, happly⟩ | ⟨hop, happly⟩ |
      ⟨hop, happly⟩ | ⟨hop, happly⟩ | ⟨⟨hread, -, hwrite, -⟩, happly⟩
    · rw [HeaderT.control, if_pos hvalid, happly, hop]
      cases hlookup : t.readCache x.hdr.netcache.hkey with
      | none =>
        have hne : (countHit (lookupBlock t x)).igMd.cacheState ≠ valid := by
          rw [countHit_lookupBlock_miss hlookup]
          exact (by decide : invalid ≠ valid)
        rw [hdr_applyRead_of_ne hne, hcount]
      | some c =>
        dsimp only
        split
        · next h => rw [← happly, hdr_apply_hit hvalid hop hlookup h.2]
        · next h =>
          have hinvalid : (countHit (lookupBlock t x)).igMd.cacheState ≠ valid := by
            rw [countHit_lookupBlock_hit hlookup]
            exact fun hstate => h ⟨rfl, hstate⟩
          rw [hdr_applyRead_of_ne hinvalid, hcount]
          rfl
    · rw [happly, hdr_ipv4Exact, hcount,
        control_of_ne hvalid (by rw [hop]; decide) (by rw [hop]; decide)]
    · have hne : ¬ opWrite = opRead := by decide
      rw [happly, hdr_applyWrite, HeaderT.control, if_pos hvalid, hop]
      simp only [hne, false_and, if_false, if_true]
    · rw [happly, hdr_ipv4Exact, hdr_lookupBlock,
        control_of_ne hvalid (by rw [hop]; decide) (by rw [hop]; decide)]
    · rw [happly, applyFReply, hdr_ipv4Exact,
        control_of_ne hvalid (by rw [hop]; decide) (by rw [hop]; decide)]
      exact hdr_lookupBlock t x
    · rw [happly, hdr_lookupBlock, control_of_ne hvalid hread hwrite]

end

end Ingress

/-! ## A pass on bytes and a pass on packets -/

/-- The packet whose headers were parsed, with the headers that are in the frame as part of its
payload. -/
def HeaderT.packet (hdr : HeaderT) (rest : Bytes) : Packet (HeaderT × Bytes) :=
  ⟨hdr.ethernet, hdr.ipv4, hdr.udp, hdr.netcache, (hdr, rest)⟩

/-- The bytes of a packet that leaves the switch: the headers that were valid in the frame, the
values, and the rest. -/
def Emitted.frame (e : Emitted (HeaderT × Bytes)) : Bytes :=
  e.ethernet.bytes ++ ((if e.payload.1.ipv4Valid then e.ipv4.bytes else []) ++
    ((if e.payload.1.udpValid then e.udp.bytes else []) ++
      ((if e.payload.1.netcacheValid then e.netcache.bytes else []) ++
        (e.valueBytes ++ e.payload.2))))

section
variable {hdr : HeaderT} {frame rest : Bytes} {t : Tables} {r : Registers}

/-- The parser of the packet model, on the packet of a parse, finds the headers that were parsed. -/
theorem Parsed.switchIngressParser (h : Parsed hdr) (rest : Bytes) :
    Netcache.switchIngressParser (hdr.packet rest) = hdr := by
  unfold Netcache.switchIngressParser
  cases h with
  | other hether => exact if_neg hether
  | ipv4 hether hprotocol => exact (if_pos hether).trans (if_neg hprotocol)
  | udp hether hprotocol hport =>
    refine (if_pos hether).trans ((if_pos hprotocol).trans (if_neg ?_))
    rwa [Bool.or_eq_true]
  | netcache hether hprotocol hport =>
    refine (if_pos hether).trans ((if_pos hprotocol).trans (if_pos ?_))
    rwa [Bool.or_eq_true]

/-- The two deparsers write the same bytes, for headers whose validity is as it was. -/
theorem frame_switchIngressDeparser {y : HeaderT} (rest : Bytes)
    (hipv4 : y.ipv4Valid = hdr.ipv4Valid) (hudp : y.udpValid = hdr.udpValid)
    (hnetcache : y.netcacheValid = hdr.netcacheValid) :
    (switchIngressDeparser (hdr.packet rest) y).frame = y.deparse rest := by
  simp only [Emitted.frame, switchIngressDeparser, HeaderT.packet, HeaderT.deparse, HeaderT.emit,
    hipv4, hudp, hnetcache]
  cases hdr.ipv4Valid <;> cases hdr.udpValid <;> cases hdr.netcacheValid <;> simp <;> rfl

/-- A pass on the bytes of a frame is a pass on the packet that they carry, so the results about
packets hold of frames. -/
theorem switchPassBytes_eq (t : Tables) (r : Registers)
    (h : parseEthernet.run frame = some (hdr, rest)) :
    switchPassBytes t r frame = some ((switchPass t r (hdr.packet rest)).1,
      (switchPass t r (hdr.packet rest)).2.map fun e => (e.1, e.2.frame)) := by
  have hparsed := (parseEthernet_iff.1 h).1
  obtain ⟨hipv4, hudp, hnetcache⟩ := hdr.valid_control t r
  have hframe := frame_switchIngressDeparser rest hipv4 hudp hnetcache
  have hhdr : (Ingress.apply t (.start hdr r)).hdr = hdr.control t r := Ingress.hdr_apply t _
  rw [switchPassBytes, h, switchPass, hparsed.switchIngressParser rest, Option.map_map]
  simp only [Option.bind_eq_bind, Option.bind_some, Option.pure_def, Function.comp_def, hhdr,
    hframe]

/-! ## Runs -/

/-- The packet in a frame, if the parser accepts the frame. -/
def decodeFrame (frame : Bytes) : Option (Packet (HeaderT × Bytes)) :=
  (parseEthernet.run frame).map fun p => p.1.packet p.2

/-- A frame, as a step of the switch: there is none on a frame that the parser rejects. -/
def frameStep (t : Tables) (frame : Bytes) (r : Registers) :
    Option (Registers × Option (BitVec 9 × Bytes)) :=
  switchPassBytes t r frame

/-- A packet, as a step of the switch. There always is one. -/
def packetStep {π : Type} (t : Tables) (pkt : Packet π) (r : Registers) :
    Option (Registers × Option (BitVec 9 × Emitted π)) :=
  some (switchPass t r pkt)

/-- A step on a frame is a step on the packet in it. -/
theorem frameStep_eq (t : Tables) (f : Bytes) (r : Registers) :
    frameStep t f r = (decodeFrame f).bind fun p =>
      (packetStep t p r).map fun s => (s.1, s.2.map fun e => (e.1, e.2.frame)) := by
  cases h : parseEthernet.run f with
  | none => rw [frameStep, switchPassBytes, decodeFrame, h]; rfl
  | some p =>
    rw [frameStep, switchPassBytes_eq t r h, decodeFrame, h]
    rfl

/-- The registers after the steps on packets are those of the run. -/
theorem outputs_packetStep {π : Type} (t : Tables) (r : Registers) (ps : List (Packet π)) :
    (outputs (packetStep t) ps r).map Prod.fst = some (afterPackets t r ps) := by
  rw [afterPackets, after, List.foldl_map]
  exact outputs_fst (fun _ _ => rfl) ps r

/-- A run on the bytes of frames leaves the registers that the run on their packets leaves. -/
theorem afterPackets_of_outputs {fs : List Bytes} {s : Registers}
    {outs : List (Option (BitVec 9 × Bytes))} (h : outputs (frameStep t) fs r = some (s, outs)) :
    ∃ ps, fs.mapM decodeFrame = some ps ∧ s = afterPackets t r ps := by
  rw [outputs_decode (frameStep_eq t)] at h
  obtain ⟨ps, hps, h⟩ := Option.bind_eq_some_iff.1 h
  obtain ⟨u, hu, heq⟩ := Option.map_eq_some_iff.1 h
  have hregs := outputs_packetStep t r ps
  rw [hu, Option.map_some, Option.some.injEq] at hregs
  exact ⟨ps, hps, (Prod.mk.inj heq).1.symm.trans hregs⟩

end

end OrbitCache.Netcache
