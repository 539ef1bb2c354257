import OrbitCache.System.Cluster
import OrbitCache.Lib.Run

/-!
# Messages in flight

What holds of every message in flight when the lookup table is static (`Flow`): its headers, its
addresses and its key hash, whatever it went through. With it a pass of the switch is what
`State.Passes` says: a verdict, the registers it leaves, the copies that stay on the recirculation
loop and those that go to hosts.
-/

namespace OrbitCache

open Controller (LookupTable withLookup numHotkey StaticTable)

/-! ## Copies that recirculate and copies that leave -/

section
variable {π : Type} (t : Tables) (port : BitVec 9) (pkt : Packet π)

/-- The copies a verdict leaves on the recirculation loop: the cache packet that entered, or the
clone of a reply. -/
def Verdict.recirculated : Verdict → List (Packet π)
  | .serve _ e => [(pkt.touched t port).answer t e]
  | .idle | .clone _ => [pkt.touched t port]
  | .plain | .absorb _ | .overflow _ | .bypass _ | .uncached | .discard | .forward
  | .invalidate _ => []

/-- The copies a verdict sends to hosts, with the fields that the control has written. -/
def Verdict.delivered : Verdict → List (Packet π)
  | .plain => [pkt]
  | .absorb _ | .idle | .discard => []
  | .overflow _ => [{ pkt.touched t port with orbitcache.cached := missed }]
  | .bypass _ | .uncached | .forward | .clone _ => [pkt.touched t port]
  | .serve _ e => [(pkt.touched t port).answer t e]
  | .invalidate _ => [{ pkt.touched t port with orbitcache.flag := fetching }]

end

section
variable {π : Type} {t : Tables} {port : BitVec 9} {ls : BitVec 32 → Line} {pkt x : Packet π}
variable {v : Verdict} {c : BitVec 32}

/-- A copy that recirculates is an R_REPLY or has the operation of the packet, and has its key hash
and its payload. -/
theorem Verdict.mem_recirculated (hx : x ∈ v.recirculated t port pkt) :
    x.orbitcache.op = effectiveOp t port pkt ∧ x.orbitcache.hkey = pkt.orbitcache.hkey ∧
      x.payload = pkt.payload := by
  cases v with
  | serve | idle | clone =>
    rw [List.mem_singleton.1 hx]
    exact ⟨rfl, rfl, rfl⟩
  | plain | absorb | overflow | bypass | uncached | discard | forward | invalidate => cases hx

/-- So has a copy that leaves for a host: the switch does not change the key or the value. -/
theorem VerdictCase.mem_delivered (hv : VerdictCase t port ls pkt v) (horb : pkt.IsOrbitcache)
    (hx : x ∈ v.delivered t port pkt) :
    x.orbitcache.op = effectiveOp t port pkt ∧ x.orbitcache.hkey = pkt.orbitcache.hkey ∧
      x.payload = pkt.payload := by
  cases hv with
  | plain h => exact absurd horb h
  | overflow | bypass | uncached | forward | serve | clone | invalidate =>
    rw [List.mem_singleton.1 hx]
    exact ⟨rfl, rfl, rfl⟩
  | absorb | idle | discard => cases hx

/-- A packet from a host is cloned, or leaves nothing on the loop. Only a W_REPLY or an F_REPLY of a
cached key is cloned. -/
theorem VerdictCase.host (hv : VerdictCase t port ls pkt v) (hp : onLoop t port = false) :
    (∃ c, v = .clone c ∧ t.cacheLookup pkt.orbitcache.hkey = some c ∧
        (pkt.orbitcache.op = opWReply ∨ pkt.orbitcache.op = opFReply)) ∨
      (∀ c, v ≠ .clone c) ∧ v.recirculated t port pkt = [] := by
  cases hv with
  | plain | absorb | overflow | bypass | uncached | forward | invalidate =>
    exact .inr ⟨by simp, rfl⟩
  | serve _ _ h | idle _ _ h | discard _ h =>
    rw [hp] at h
    cases h
  | clone _ hl _ hop => exact .inl ⟨_, rfl, hl, hop⟩

/-- A cache packet is put back on the loop if its key is VALID, else it leaves nothing. -/
theorem VerdictCase.loop (hv : VerdictCase t port ls pkt v) (horb : pkt.IsOrbitcache)
    (hp : onLoop t port = true) : (∀ c, v ≠ .clone c) ∧
      ((∃ c x, t.cacheLookup pkt.orbitcache.hkey = some c ∧ (ls c).isValid = true ∧
          v.recirculated t port pkt = [x]) ∨
        v.recirculated t port pkt = [] ∧ v.delivered t port pkt = []) := by
  cases hv.loopCase hp with
  | plain h => exact absurd horb h
  | serve hl hvalid | idle hl hvalid =>
    exact ⟨by simp, .inl ⟨_, _, hl, hvalid, rfl⟩⟩
  | discard => exact ⟨by simp, .inr ⟨rfl, rfl⟩⟩

/-- A W_REPLY of a cached key from a host is cloned, whatever the state of the key is. -/
theorem VerdictCase.eq_clone (hv : VerdictCase t port ls pkt v) (horb : pkt.IsOrbitcache)
    (hl : t.cacheLookup pkt.orbitcache.hkey = some c) (hp : onLoop t port = false)
    (hop : pkt.orbitcache.op = opWReply) : v = .clone c := by
  cases hv with
  | plain h => exact absurd horb h
  | absorb _ _ _ h | overflow _ _ _ h | bypass _ _ _ h | uncached _ _ _ h | invalidate _ _ _ h =>
    rw [hop] at h
    exact absurd h (by decide)
  | serve _ _ h | idle _ _ h | discard _ h =>
    rw [hp] at h
    cases h
  | forward _ _ _ h => exact absurd hop (h c hl).2.1
  | clone _ hl' =>
    rw [hl] at hl'
    rw [Option.some.inj hl']

/-- A WRITE of a cached key invalidates it, whatever its state was. -/
theorem VerdictCase.eq_invalidate (hv : VerdictCase t port ls pkt v) (horb : pkt.IsOrbitcache)
    (hl : t.cacheLookup pkt.orbitcache.hkey = some c) (hp : onLoop t port = false)
    (hop : pkt.orbitcache.op = opWrite) : v = .invalidate c := by
  cases hv with
  | plain h => exact absurd horb h
  | absorb _ _ _ h | overflow _ _ _ h | bypass _ _ _ h | uncached _ _ _ h | clone _ _ _ h =>
    rw [hop] at h
    exact absurd h (by decide)
  | serve _ _ h | idle _ _ h | discard _ h =>
    rw [hp] at h
    cases h
  | forward _ _ _ h => exact absurd hop (h c hl).1
  | invalidate _ hl' =>
    rw [hl] at hl'
    rw [Option.some.inj hl']

/-- An index that is VALID after a pass was VALID before or is what the packet was cloned for. -/
theorem Verdict.isValid_lines {e : Pending} (h : (v.lines e ls c).isValid = true) :
    (ls c).isValid = true ∨ v = .clone c := by
  cases v with
  | plain | overflow | bypass | uncached | idle | discard | forward => exact .inl h
  | absorb c' | serve c' | invalidate c' | clone c' =>
    by_cases hc : c = c'
    · subst hc
      simp_all [Verdict.lines]
    · simp only [Verdict.lines, Function.update_of_ne hc] at h
      exact .inl h

end

/-- The address is in the forwarding and multicast tables, so that packets for it leave the switch.
-/
def Deployment.Configured (D : Deployment) (ip : BitVec 32) : Prop :=
  (D.tables.ipv4Exact ip).isSome = true

/-- The ingress port is listed: its packets get the recirculation port and pipe 0. -/
def Deployment.Listed (D : Deployment) (port : BitVec 9) : Prop :=
  D.tables.readCacheRecirculationPort port = some (D.recirc, 0)

section
variable {D : Deployment} {s : State} {port : BitVec 9} {m : Message} {v : Verdict}

/-- A host that can send has an address in the tables and a listed port, which is not that of the
loop. -/
theorem Deployment.Wired.ingress (hD : D.Wired) {ip : BitVec 32} {p : BitVec 9}
    (h : D.tables.ingress ip = some p) : D.Configured ip ∧ D.Listed p ∧ p ≠ D.recirc := by
  obtain ⟨hip, hlisted⟩ := Option.filter_eq_some_iff.1 h
  obtain ⟨e, he⟩ := Option.isSome_iff_exists.1 hlisted
  exact ⟨Option.isSome_of_eq_some hip, he.trans (congrArg some (hD.entry _ _ he)),
    (hD.host _ _ hip).1⟩

/-- The copy of a routed packet leaves on the port of a host. -/
theorem Deployment.Wired.route (hD : D.Wired) {dst : BitVec 32} (hdst : D.Configured dst)
    (lookup : LookupTable) (m : Message) :
    ((route (withLookup D.tables lookup) dst m).filter fun o => o.1 = D.recirc) = [] ∧
      ((route (withLookup D.tables lookup) dst m).filter fun o => o.1 ≠ D.recirc).map Prod.snd
        = [m] := by
  obtain ⟨p, hp⟩ := Option.isSome_iff_exists.1 hdst
  have hne := (hD.host _ _ hp).1
  have hroute : OrbitCache.route (withLookup D.tables lookup) dst m = [(p, m)] := by
    rw [OrbitCache.route, withLookup, hp]
    rfl
  rw [hroute]
  simp [hne]

/-- A multicast goes to the port of a host and to the recirculation port. -/
theorem Deployment.Wired.multicast (hD : D.Wired) {dst : BitVec 32} (hdst : D.Configured dst)
    (lookup : LookupTable) (m : Message) {g : Option (BitVec 16)}
    (hg : g = D.tables.getCrecircId dst 0 ∨ g = D.tables.getCrecircId2 dst 0) :
    ((multicast (withLookup D.tables lookup) g m).filter fun o => o.1 = D.recirc).map Prod.snd
        = [m] ∧
      ((multicast (withLookup D.tables lookup) g m).filter fun o => o.1 ≠ D.recirc).map Prod.snd
        = [m] := by
  obtain ⟨p, hp⟩ := Option.isSome_iff_exists.1 hdst
  obtain ⟨hne, gid, hgid, hg1, hg2, hports⟩ := hD.host _ _ hp
  have hcopies : OrbitCache.multicast (withLookup D.tables lookup) g m =
      [(p, m), (D.recirc, m)] := by
    rw [show g = some gid by rcases hg with h | h <;> rw [h] <;> assumption, OrbitCache.multicast,
      Option.getD_some, if_neg hgid, withLookup, hports]
    rfl
  rw [hcopies]
  simp [hne]

/-- The copies of a packet from a listed port, by what they do next. -/
theorem VerdictCase.outputs_eq (hD : D.Wired) (hport : D.Listed port)
    (hdst : D.Configured m.ipv4.dstAddr) (horb : m.IsOrbitcache)
    (hv : VerdictCase (s.tables D) port s.regs.line m v)
    (hserve : ∀ c e, v = .serve c e → D.Configured e.clientIP) :
    ((v.outputs (s.tables D) port m).filter fun o => o.1 = D.recirc).map Prod.snd =
        v.recirculated (s.tables D) port m ∧
      ((v.outputs (s.tables D) port m).filter fun o => o.1 ≠ D.recirc).map Prod.snd =
        v.delivered (s.tables D) port m := by
  have hlisted : unlisted (s.tables D) port = false := by
    rw [unlisted, show (s.tables D).readCacheRecirculationPort port = some (D.recirc, 0) from hport]
    rfl
  have hentry : recircEntry (s.tables D) port = (D.recirc, 0) := by
    rw [recircEntry,
      show (s.tables D).readCacheRecirculationPort port = some (D.recirc, 0) from hport]
    rfl
  have hroute := fun m' => hD.route hdst s.lookup m'
  cases hv with
  | plain h => exact absurd horb h
  | absorb | discard => exact ⟨rfl, rfl⟩
  | overflow | forward | invalidate =>
    simp only [Verdict.outputs, hlisted, Bool.false_eq_true, if_false]
    exact ⟨congrArg (List.map Prod.snd) (hroute _).1, (hroute _).2⟩
  | bypass | uncached => exact ⟨congrArg (List.map Prod.snd) (hroute _).1, (hroute _).2⟩
  | @serve c e _ =>
    simp only [Verdict.outputs, hentry]
    exact hD.multicast (hserve c e rfl) s.lookup _ (.inl rfl)
  | idle _ _ hp =>
    rw [onLoop, hentry] at hp
    obtain rfl : port = D.recirc := beq_iff_eq.1 hp
    simp [Verdict.outputs, hlisted, Verdict.recirculated, Verdict.delivered]
  | clone =>
    simp only [Verdict.outputs, hentry]
    exact hD.multicast hdst s.lookup _ (.inr rfl)

/-- One packet through the switch, as its verdict says: the registers, the queues, and the copies on
either side. -/
structure State.Passes (D : Deployment) (s : State) (port : BitVec 9) (m : Message)
    (v : Verdict) : Prop where
  case : VerdictCase (s.tables D) port s.regs.line m v
  serve : ∀ c e, v = .serve c e → D.Configured e.clientIP
  regs : (s.pass D port m).regs = v.regs s.regs m
  line : ∀ c, c.toNat < numHotkey →
    (s.pass D port m).regs.line c = v.lines m.entry s.regs.line c
  recirculated : ((s.outputs D port m).filter fun o => o.1 = D.recirc).map Prod.snd =
    (v.recirculated (s.tables D) port m).map (Packet.stamped s.trace.length)
  delivered : ((s.outputs D port m).filter fun o => o.1 ≠ D.recirc).map Prod.snd =
    (v.delivered (s.tables D) port m).map (Packet.stamped s.trace.length)

/-- The verdict on a packet from a listed port: there is one, and the pass is what it says. -/
theorem State.passes (hD : D.Wired) (ht : (s.tables D).IndexBelow numHotkey)
    (hwf : s.regs.WFBelow numHotkey) (hport : D.Listed port) (hdst : D.Configured m.ipv4.dstAddr)
    (horb : m.IsOrbitcache)
    (hpending : ∀ c, c.toNat < numHotkey → ∀ e ∈ s.regs.pending c, D.Configured e.clientIP) :
    ∃ v, s.Passes D port m v := by
  obtain ⟨v, hv, hpass⟩ := switchPass_cases port m ht hwf
  have hserve : ∀ c e, v = .serve c e → D.Configured e.clientIP := by
    rintro c e rfl
    cases hv with
    | serve _ hl _ _ hq =>
      refine hpending c (ht _ _ hl) e ?_
      rw [← Registers.queue_line, hq]
      exact List.mem_cons_self
  have hregs : (s.pass D port m).regs = v.regs s.regs m := by rw [State.pass, hpass]
  obtain ⟨hrecirc, hdeliver⟩ := hv.outputs_eq hD hport hdst horb hserve
  refine ⟨v, hv, hserve, hregs, fun c hc => ?_, ?_, ?_⟩
  · rw [hregs]
    exact hv.line_regs ht (by decide) hwf hc
  · rw [State.outputs, hpass, ← hrecirc]
    simp [List.filter_map, Function.comp_def]
  · rw [State.outputs, hpass, ← hdeliver]
    simp [List.filter_map, Function.comp_def]

/-- The loop port is the recirculation port, for packets from a listed port. -/
theorem onLoop_eq (hport : D.Listed port) : onLoop (s.tables D) port = (port == D.recirc) := by
  rw [onLoop, recircEntry, show (s.tables D).readCacheRecirculationPort port = some (D.recirc, 0)
    from hport]
  rfl

/-- A packet from a host is not on the loop. -/
theorem onLoop_host (hport : D.Listed port) (hp : port ≠ D.recirc) :
    onLoop (s.tables D) port = false := by
  rw [onLoop_eq hport, beq_eq_false_iff_ne.2 hp]

/-- A packet on the recirculation port is. -/
theorem onLoop_recirc (hD : D.Wired) : onLoop (s.tables D) D.recirc = true := by
  rw [onLoop_eq hD.recirc_listed, beq_self_eq_true]

/-- A packet that is on the loop has come from there. -/
theorem eq_recirc_of_onLoop (hport : D.Listed port) (h : onLoop (s.tables D) port = true) :
    port = D.recirc := by
  rw [onLoop_eq hport] at h
  exact beq_iff_eq.1 h

/-- Any other packet has come from a host. -/
theorem ne_recirc_of_onLoop (hport : D.Listed port) (h : onLoop (s.tables D) port = false) :
    port ≠ D.recirc := by
  rw [onLoop_eq hport] at h
  exact beq_eq_false_iff_ne.1 h

/-- The operation of a message from a host is its own; the switch rewrites it on the loop only. -/
theorem effectiveOp_host (hport : D.Listed port) (hp : port ≠ D.recirc) :
    effectiveOp (s.tables D) port m = m.orbitcache.op :=
  if_neg (by rw [onLoop_host hport hp]; decide)

/-- The operation of a cache packet is R_REPLY, whatever its header says. -/
theorem effectiveOp_loop (hD : D.Wired) : effectiveOp (s.tables D) D.recirc m = opRReply :=
  if_pos (onLoop_recirc hD)

/-- A copy that stays on the loop is among the cache packets after the pass. -/
theorem State.Passes.mem_loop {v : Verdict} (hv : s.Passes D port m v) {x : Message}
    (hx : x ∈ v.recirculated (s.tables D) port m) :
    x.stamped s.trace.length ∈ (s.pass D port m).loop := by
  rw [State.pass, hv.recirculated]
  exact List.mem_append_right _ (List.mem_map_of_mem hx)

/-- A copy that leaves for a host is on the wire after the pass, and in the event. -/
theorem State.Passes.mem_outputs {v : Verdict} (hv : s.Passes D port m v) {x : Message}
    (hx : x ∈ v.delivered (s.tables D) port m) :
    ∃ p, (p, x.stamped s.trace.length) ∈ s.outputs D port m ∧
      x.stamped s.trace.length ∈ (s.pass D port m).wire := by
  have hmem : x.stamped s.trace.length ∈
      ((s.outputs D port m).filter fun o => o.1 ≠ D.recirc).map Prod.snd := by
    rw [hv.delivered]
    exact List.mem_map_of_mem hx
  obtain ⟨⟨p, y⟩, ho, rfl⟩ := List.mem_map.1 hmem
  exact ⟨p, List.mem_of_mem_filter ho, List.mem_append_right _ hmem⟩

end

/-! ## Messages of the static system -/

/-- What holds of every message in flight: the parser takes it in, its hosts are in the tables, and
it has the hash of its key. -/
structure MessageOk (D : Deployment) (m : Message) : Prop where
  ipv4 : m.ethernet.etherType = typeIpv4
  udp : m.ipv4.protocol = typeUdp
  srcPort : orbitcachePort m.udp.srcPort = true
  src : D.Configured m.ipv4.srcAddr
  dst : D.Configured m.ipv4.dstAddr
  hkey : m.orbitcache.hkey = D.hash m.payload.orgKey
  op : m.orbitcache.op = opRead ∨ m.orbitcache.op = opRReply ∨ m.orbitcache.op = opWrite ∨
    m.orbitcache.op = opWReply ∨ m.orbitcache.op = opCrctn
  /-- A request is from a client and addressed to the worker of its key. -/
  request : m.orbitcache.op = opRead ∨ m.orbitcache.op = opWrite ∨ m.orbitcache.op = opCrctn →
    m.target = D.dest m.payload.orgKey ∧ D.isClient m.source = true

namespace MessageOk

variable {D : Deployment} {m : Message} {t : Tables} {port : BitVec 9}

/-- The parser takes the message in, by its source port. -/
theorem isOrbitcache (h : MessageOk D m) : m.IsOrbitcache := ⟨h.ipv4, h.udp, .inr h.srcPort⟩

/-- The fields that the control writes on every packet are none of these. -/
theorem touched (h : MessageOk D m) : MessageOk D (m.touched t port) := by
  have hop : (m.touched t port).orbitcache.op = opRReply ∨
      (m.touched t port).orbitcache.op = m.orbitcache.op := by
    show effectiveOp t port m = _ ∨ effectiveOp t port m = _
    unfold effectiveOp
    split
    · exact .inl rfl
    · exact .inr rfl
  refine ⟨h.ipv4, h.udp, h.srcPort, h.src, h.dst, h.hkey, ?_, fun hreq => ?_⟩
  · rcases hop with hop | hop <;> rw [hop]
    · exact .inr (.inl rfl)
    · exact h.op
  · rcases hop with hop | hop <;> rw [hop] at hreq
    · exact absurd hreq (by decide)
    · exact h.request hreq

/-- A message of which only the fields `cached`, `flag` or the history changed. -/
theorem congr (h : MessageOk D m) {m' : Message} (he : m'.ethernet = m.ethernet)
    (hi : m'.ipv4 = m.ipv4) (hu : m'.udp = m.udp) (hop : m'.orbitcache.op = m.orbitcache.op)
    (hk : m'.orbitcache.hkey = m.orbitcache.hkey) (ho : m'.payload.orgKey = m.payload.orgKey) :
    MessageOk D m' where
  ipv4 := he ▸ h.ipv4
  udp := hi ▸ h.udp
  srcPort := hu ▸ h.srcPort
  src := hi ▸ h.src
  dst := hi ▸ h.dst
  hkey := by rw [hk, ho]; exact h.hkey
  op := by rw [hop]; exact h.op
  request := by
    rw [hop, Packet.target, Packet.source, hi, hu, ho]
    exact h.request

/-- An answer to a pending read is one, if the client of the read is in the tables. -/
theorem answer (h : MessageOk D m) {e : Pending} (he : D.Configured e.clientIP)
    (hop : m.orbitcache.op = opRReply) : MessageOk D (m.answer t e) where
  ipv4 := h.ipv4
  udp := h.udp
  srcPort := h.srcPort
  src := h.src
  dst := he
  hkey := h.hkey
  op := h.op
  request hreq := by
    have hreq : m.orbitcache.op = opRead ∨ m.orbitcache.op = opWrite ∨ m.orbitcache.op = opCrctn :=
      hreq
    rw [hop] at hreq
    exact absurd hreq (by decide)

/-- The mark of the pass does not matter. -/
theorem stamped (h : MessageOk D m) (now : Nat) : MessageOk D (m.stamped now) :=
  h.congr rfl rfl rfl rfl rfl rfl

/-- A request of a client, whatever its key is. -/
theorem clientRequest (hD : D.Wired) {client : Endpoint} (hclient : D.isClient client = true)
    {op : BitVec 8} (hop : op = opRead ∨ op = opWrite ∨ op = opCrctn) (seq : BitVec 32)
    (key value : Bytes) (latency : BitVec 32) :
    MessageOk D (Client.request D.hash D.dest client op seq key value latency) where
  ipv4 := rfl
  udp := rfl
  srcPort := hD.client_port _ hclient
  src := by
    obtain ⟨p, hp⟩ := Option.isSome_iff_exists.1 (hD.client_ingress _ hclient)
    exact (hD.ingress hp).1
  dst := by
    obtain ⟨p, hp⟩ := Option.isSome_iff_exists.1 (hD.server_ingress _ (hD.dest_server key))
    exact (hD.ingress hp).1
  hkey := rfl
  op := by
    show op = _ ∨ op = _ ∨ op = _ ∨ op = _ ∨ op = _
    rcases hop with h | h | h <;> simp [h]
  request _ := ⟨rfl, hclient⟩

/-- A packet of the preload tool, between two hosts in the tables. -/
theorem preload (hD : D.Wired) {src target : BitVec 32} {p : BitVec 9}
    (hsrc : D.tables.ingress src = some p) (htarget : D.Configured target) (key value : Bytes) :
    MessageOk D (preloadMessage D.hash src target key value) where
  ipv4 := rfl
  udp := rfl
  srcPort := show orbitcachePort (BitVec.ofNat 16 orbitcacheBasePort) = true by decide
  src := (hD.ingress hsrc).1
  dst := htarget
  hkey := rfl
  op := .inr (.inr (.inr (.inl rfl)))
  request h := absurd h (show ¬ (opWReply = opRead ∨ opWReply = opWrite ∨ opWReply = opCrctn) by
    decide)

/-- The reply of a worker, to the client whose message it answers. -/
theorem reply (hD : D.Wired) (h : MessageOk D m) (hserver : D.isServer m.target = true)
    {w w' : Worker} {junk : Bytes} {rh : OrbitcacheH} {rb : Payload}
    (hcase : w.HandleCase D.hash junk m.orbitcache m.payload w' (some (rh, rb))) :
    MessageOk D (datagram m.target m.source rh rb) := by
  have hdst : D.Configured m.target.ip := by
    obtain ⟨p, hp⟩ := Option.isSome_iff_exists.1 (hD.server_ingress _ hserver)
    exact (hD.ingress hp).1
  have hop : rh.op = opRReply ∨ rh.op = opWReply := by
    cases hcase with
    | read => exact .inl rfl
    | fetch hop =>
      have := h.op
      rw [hop] at this
      exact absurd this (by decide)
    | write | writeNoFetch => exact .inr rfl
  refine ⟨rfl, rfl, hD.server_port _ hserver, hdst, h.src, ?_, ?_, fun hreq => ?_⟩
  · cases hcase with
    | read | write | writeNoFetch => exact h.hkey
    | fetch => rfl
  · rcases hop with hop | hop
    · exact .inr (.inl hop)
    · exact .inr (.inr (.inr (.inl hop)))
  · have hreq : rh.op = opRead ∨ rh.op = opWrite ∨ rh.op = opCrctn := hreq
    rcases hop with hop | hop <;> rw [hop] at hreq <;> exact absurd hreq (by decide)

end MessageOk

/-- The copies of a message are messages of the system, those on the loop and those for hosts. -/
theorem VerdictCase.copies_ok {D : Deployment} {t : Tables} {port : BitVec 9}
    {ls : BitVec 32 → Line} {m : Message} {v : Verdict} (hv : VerdictCase t port ls m v)
    (h : MessageOk D m) (hserve : ∀ c e, v = .serve c e → D.Configured e.clientIP) :
    (∀ m' ∈ v.recirculated t port m, MessageOk D m') ∧
      ∀ m' ∈ v.delivered t port m, MessageOk D m' := by
  have htouched : MessageOk D (m.touched t port) := h.touched
  cases hv with
  | plain horb => exact absurd h.isOrbitcache horb
  | absorb | discard => exact ⟨by simp [Verdict.recirculated], by simp [Verdict.delivered]⟩
  | overflow | invalidate =>
    refine ⟨by simp [Verdict.recirculated], fun m' hm' => ?_⟩
    rw [List.mem_singleton.1 hm']
    exact htouched.congr rfl rfl rfl rfl rfl rfl
  | bypass | uncached | forward | idle | clone =>
    simpa [Verdict.recirculated, Verdict.delivered] using htouched
  | @serve c e _ _ _ hp =>
    have hop : (m.touched t port).orbitcache.op = opRReply := if_pos hp
    simpa [Verdict.recirculated, Verdict.delivered] using htouched.answer (hserve c e rfl) hop

/-- What holds of the static system in every state: the registers are well formed, the table is the
installed one, every message in flight is a message of the system, and every pending read is from a
host in the tables. -/
structure Flow (D : Deployment) (s : State) : Prop where
  wf : s.regs.WFBelow numHotkey
  table : StaticTable s.lookup
  pending : ∀ c, c.toNat < numHotkey → ∀ e ∈ s.regs.pending c, D.Configured e.clientIP
  loop : ∀ m ∈ s.loop, MessageOk D m
  wire : ∀ m ∈ s.wire, MessageOk D m
  uplink : ∀ e ∈ s.uplink, D.Listed e.1 ∧ e.1 ≠ D.recirc ∧ MessageOk D e.2

/-- An entry of a queue after a pass is one of before or that of an absorbed packet. -/
theorem Verdict.mem_queue {v : Verdict} {e x : Pending} {ls : BitVec 32 → Line} {c : BitVec 32}
    (h : x ∈ (v.lines e ls c).queue) : (v = .absorb c ∧ x = e) ∨ x ∈ (ls c).queue := by
  cases v with
  | plain | overflow | bypass | uncached | idle | discard | forward => exact .inr h
  | absorb c' =>
    by_cases hc : c = c'
    · subst hc
      simp only [Verdict.lines, Function.update_self, List.mem_append, List.mem_singleton] at h
      exact h.symm.imp (fun h => ⟨rfl, h⟩) id
    · simp only [Verdict.lines, Function.update_of_ne hc] at h
      exact .inr h
  | serve c' e' =>
    by_cases hc : c = c'
    · subst hc
      simp only [Verdict.lines, Function.update_self] at h
      exact .inr (List.mem_of_mem_tail h)
    · simp only [Verdict.lines, Function.update_of_ne hc] at h
      exact .inr h
  | invalidate c' | clone c' =>
    by_cases hc : c = c'
    · subst hc
      simp only [Verdict.lines, Function.update_self] at h
      exact .inr h
    · simp only [Verdict.lines, Function.update_of_ne hc] at h
      exact .inr h

/-- The verdict on a message of the system: all that a pass asks for is part of the invariant. -/
theorem Flow.passes {D : Deployment} (hD : D.Wired) {s : State} (h : Flow D s) {port : BitVec 9}
    (hport : D.Listed port) {m : Message} (hm : MessageOk D m) : ∃ v, s.Passes D port m v :=
  State.passes hD (h.table.indexBelow D.tables) h.wf hport hm.dst hm.isOrbitcache h.pending

/-- One packet through the switch keeps the invariant. -/
theorem Flow.pass {D : Deployment} (hD : D.Wired) {s : State} (h : Flow D s) {port : BitVec 9}
    (hport : D.Listed port) {m : Message} (hm : MessageOk D m) : Flow D (s.pass D port m) := by
  obtain ⟨v, hv⟩ := h.passes hD hport hm
  obtain ⟨hrecirculated, hdelivered⟩ := hv.case.copies_ok hm hv.serve
  refine ⟨?_, h.table, fun c hc e he => ?_, fun m' hm' => ?_, fun m' hm' => ?_, h.uplink⟩
  · rw [hv.regs]
    exact hv.case.regs_wfBelow h.wf
  · rw [← Registers.queue_line, hv.line c hc] at he
    rcases Verdict.mem_queue he with ⟨-, rfl⟩ | he
    · exact hm.src
    · exact h.pending c hc e he
  · rw [State.pass, hv.recirculated, List.mem_append, List.mem_map] at hm'
    rcases hm' with hm' | ⟨m'', hm'', rfl⟩
    · exact h.loop m' hm'
    · exact (hrecirculated m'' hm'').stamped _
  · rw [State.pass, hv.delivered, List.mem_append, List.mem_map] at hm'
    rcases hm' with hm' | ⟨m'', hm'', rfl⟩
    · exact h.wire m' hm'
    · exact (hdelivered m'' hm'').stamped _

/-- What a step does besides a pass: it may take messages off the channels and put one on an
uplink. -/
theorem Flow.congr {D : Deployment} {s s' : State} (h : Flow D s) (hregs : s'.regs = s.regs)
    (hlookup : s'.lookup = s.lookup) (hloop : s'.loop ⊆ s.loop) (hwire : s'.wire ⊆ s.wire)
    (huplink : ∀ e ∈ s'.uplink, e ∈ s.uplink ∨
      D.Listed e.1 ∧ e.1 ≠ D.recirc ∧ MessageOk D e.2) : Flow D s' where
  wf := hregs ▸ h.wf
  table := hlookup ▸ h.table
  pending := hregs ▸ h.pending
  loop m hm := h.loop m (hloop hm)
  wire m hm := h.wire m (hwire hm)
  uplink e he := (huplink e he).elim (h.uplink e) id

/-- A message that is put on the uplink of a host is on a listed port. -/
theorem Flow.emit {D : Deployment} (hD : D.Wired) {ip : BitVec 32} {port : BitVec 9} {m : Message}
    (hport : D.tables.ingress ip = some port) (hm : MessageOk D m) :
    D.Listed port ∧ port ≠ D.recirc ∧ MessageOk D m :=
  ⟨(hD.ingress hport).2.1, (hD.ingress hport).2.2, hm⟩

/-- The message of a client, a READ or a WRITE. -/
theorem MessageOk.tx {D : Deployment} (hD : D.Wired) {client : Endpoint}
    (hclient : D.isClient client = true) (c : Client) (isWrite : Bool) (key value : Bytes)
    (latency : BitVec 32) :
    MessageOk D (c.tx D.hash D.dest client isWrite key value latency).2 := by
  cases isWrite with
  | false => exact .clientRequest hD hclient (.inl rfl) _ _ _ _
  | true => exact .clientRequest hD hclient (.inr (.inl rfl)) _ _ _ _

/-- The correction of a client: it answers a cache reply whose key is not the one that was asked
for. -/
theorem Client.rx_some {hash : Bytes → Hkey} {dest : Bytes → Endpoint} {self : Endpoint}
    {c : Client} {m : Message} {latency : BitVec 32} {r : Message}
    (h : c.rx hash dest self m latency = some (some r)) :
    m.orbitcache.op = opRReply ∧ m.orbitcache.cached = 1 ∧
      ∃ key, c.seqGet m.orbitcache.seq = some key ∧
        key.take keySize ≠ m.payload.orgKey.take keySize ∧
        r = request hash dest self opCrctn m.orbitcache.seq key [] latency := by
  unfold rx at h
  split at h
  · next hop =>
    obtain ⟨key, hkey, h⟩ := Option.bind_eq_some_iff.1 h
    split at h
    · next hne =>
      cases h
      exact ⟨hop.1, hop.2, key, hkey, hne, rfl⟩
    · cases h
  · cases h

/-- Every step keeps the invariant, by the cases of a step. -/
theorem Flow.step {D : Deployment} (hD : D.Wired) {s s' : State} {a : Action} (h : Flow D s)
    (hstep : OrbitCache.step D s a = some s') : Flow D s' := by
  cases step_case hstep with
  | send hclient _ hport =>
    refine h.congr rfl rfl (List.Subset.refl _) (List.Subset.refl _) fun e he => ?_
    rcases List.mem_append.1 he with he | he
    · exact .inl he
    · rw [List.mem_singleton.1 he]
      exact .inr (Flow.emit hD hport (.tx hD hclient _ _ _ _ _))
  | @pass i port m hm =>
    obtain ⟨hport, -, hok⟩ := h.uplink _ (List.mem_of_getElem? hm)
    have hflow : Flow D { s with uplink := s.uplink.eraseIdx i } :=
      h.congr rfl rfl (List.Subset.refl _) (List.Subset.refl _)
        fun e he => .inl (List.mem_of_mem_eraseIdx he)
    exact hflow.pass hD hport hok
  | @recirculate i m hm =>
    have hok := h.loop _ (List.mem_of_getElem? hm)
    have hflow : Flow D { s with loop := s.loop.eraseIdx i } :=
      h.congr rfl rfl List.eraseIdx_subset (List.Subset.refl _) fun e he => .inl he
    exact hflow.pass hD hD.recirc_listed hok
  | reply hm hserver hcase hport =>
    refine h.congr rfl rfl (List.Subset.refl _) List.eraseIdx_subset fun e he => ?_
    rcases List.mem_append.1 he with he | he
    · exact .inl he
    · rw [List.mem_singleton.1 he]
      exact .inr (Flow.emit hD hport ((h.wire _ (List.mem_of_getElem? hm)).reply hD hserver hcase))
  | ignore | receive =>
    exact h.congr rfl rfl (List.Subset.refl _) List.eraseIdx_subset fun e he => .inl he
  | correct hm hclient hrx hport =>
    obtain ⟨-, -, key, -, -, rfl⟩ := Client.rx_some hrx
    refine h.congr rfl rfl (List.Subset.refl _) List.eraseIdx_subset fun e he => ?_
    rcases List.mem_append.1 he with he | he
    · exact .inl he
    · rw [List.mem_singleton.1 he]
      exact .inr (Flow.emit hD hport (.clientRequest hD hclient (.inr (.inr rfl)) _ _ _ _))
  | preload hport htarget =>
    refine h.congr rfl rfl (List.Subset.refl _) (List.Subset.refl _) fun e he => ?_
    rcases List.mem_append.1 he with he | he
    · exact .inl he
    · rw [List.mem_singleton.1 he]
      exact .inr (Flow.emit hD hport (.preload hD hport htarget _ _))

/-- At the start every installed index is INVALID and has no pending reads. -/
theorem State.start_line (regs : Registers) {lookup : LookupTable} (htable : StaticTable lookup)
    (workers : Endpoint → Worker) {k : Hkey} {c : BitVec 32} (hk : lookup.lookup k = some c) :
    (State.start regs lookup workers).regs.line c = ⟨false, []⟩ :=
  Controller.initRegisters_line regs (htable.below k c hk)

/-- It holds at the start, where nothing is in flight and the queues are empty. -/
theorem Flow.start (D : Deployment) (regs : Registers) {lookup : LookupTable}
    (htable : StaticTable lookup) (workers : Endpoint → Worker) :
    Flow D (.start regs lookup workers) := by
  have hwf := Controller.initRegisters_wfBelow regs
  have hpending : ∀ c, c.toNat < numHotkey → (Controller.initRegisters regs).pending c = [] :=
    fun c hc => by rw [← Registers.queue_line, Controller.initRegisters_line regs hc]
  unfold State.start
  generalize Controller.initRegisters regs = r at hwf hpending
  refine ⟨hwf, htable, fun c hc e he => ?_, ?_, ?_, ?_⟩
  · rw [hpending c hc] at he
    cases he
  all_goals
    intro _ h
    cases h

end OrbitCache
