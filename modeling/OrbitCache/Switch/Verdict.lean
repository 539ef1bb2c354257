import OrbitCache.Switch.RequestTable

/-!
# Verdicts

What becomes of a packet, as a `Verdict`. It is a function of the tables, of the lines of the
request table and of the packet (`verdict`), and determines the registers after the pass
(`Verdict.regs`), the lines (`Verdict.lines`) and the copies that leave the switch
(`Verdict.outputs`). The two views of the registers agree: `Registers.line_regs`.
-/

namespace OrbitCache

/-- What becomes of a packet. The constructors are the leaves of the `apply` block that differ in
the registers or in the copies; the proofs split cases over them and not over the actions. -/
inductive Verdict where
  /-- Not an OrbitCache packet: routed. -/
  | plain
  /-- A READ of a VALID key, recorded at `c` and dropped. -/
  | absorb (c : BitVec 32)
  /-- A READ of a VALID key whose queue is full: marked MISSED and routed. -/
  | overflow (c : BitVec 32)
  /-- A READ of a cached key that is INVALID: routed. -/
  | bypass (c : BitVec 32)
  /-- A READ of a key that is not cached: routed. -/
  | uncached
  /-- A cache packet of a VALID key that answers the oldest pending read of `c`. -/
  | serve (c : BitVec 32) (e : Pending)
  /-- A cache packet of a VALID key without pending reads: recirculated. -/
  | idle
  /-- A cache packet of an INVALID key, or of a key that is not cached: dropped. -/
  | discard
  /-- Routed without any effect. -/
  | forward
  /-- A WRITE of a cached key: `c` becomes INVALID, the packet is flagged FETCHING and routed. -/
  | invalidate (c : BitVec 32)
  /-- A W_REPLY or F_REPLY of a cached key: `c` becomes VALID, the packet is cloned onto the
  recirculation port. -/
  | clone (c : BitVec 32)
  deriving DecidableEq, Repr

section
variable {π : Type} (t : Tables) (port : BitVec 9)

/-- The ingress port has no entry in `read_CacheRecirculationPort_table`, so the miss of that table
drops the packet, unless a later action takes it back. -/
def unlisted : Bool := (t.readCacheRecirculationPort port).isNone

/-- The recirculation port and the pipe number of the ingress port, 0 when it has no entry: then
port 0 counts as the recirculation port. -/
def recircEntry : BitVec 9 × BitVec 4 := (t.readCacheRecirculationPort port).getD (0, 0)

/-- The packet is on the recirculation loop: it entered on the recirculation port of its own pipe.
-/
def onLoop : Bool := port == (recircEntry t port).1

/-- The operation the control dispatches on, which is not the operation of the packet when it is on
the loop. -/
def effectiveOp (pkt : Packet π) : BitVec 8 :=
  if onLoop t port then opRReply else pkt.orbitcache.op

/-- The entry the request table makes of a READ: the sender and the two fields that only this
request has. -/
def Packet.entry (pkt : Packet π) : Pending :=
  ⟨pkt.ipv4.srcAddr, pkt.udp.srcPort, pkt.orbitcache.seq, pkt.orbitcache.latency⟩

/-- The verdict on a packet whose key is cached at `c`, by its operation, by whether it is on the
loop, and by the line at `c`. -/
def hitVerdict (op : BitVec 8) (loop : Bool) (l : Line) (c : BitVec 32) : Verdict :=
  if op = opRead then
    if l.isValid then if l.queue.length < maxQueueSizePerKey then .absorb c else .overflow c
    else .bypass c
  else if op = opRReply then
    if loop then
      if l.isValid then match l.queue with
        | [] => .idle
        | e :: _ => .serve c e
      else .discard
    else .forward
  else if op = opWrite then .invalidate c
  else if op = opWReply ∨ op = opFReply then .clone c
  else .forward

/-- A READ waits, overflows, or goes to the server. -/
theorem hitVerdict_read (loop : Bool) (l : Line) (c : BitVec 32) :
    hitVerdict opRead loop l c =
      if l.isValid then
        if l.queue.length < maxQueueSizePerKey then .absorb c else .overflow c
      else .bypass c := rfl

/-- A cache packet serves, circulates or ends; a reply of a server goes on. -/
theorem hitVerdict_rReply (loop : Bool) (l : Line) (c : BitVec 32) :
    hitVerdict opRReply loop l c =
      if loop then
        if l.isValid then match l.queue with
          | [] => .idle
          | e :: _ => .serve c e
        else .discard
      else .forward := rfl

/-- A WRITE makes the key INVALID, whatever the line was. -/
theorem hitVerdict_write (loop : Bool) (l : Line) (c : BitVec 32) :
    hitVerdict opWrite loop l c = .invalidate c := rfl

/-- A W_REPLY or an F_REPLY makes the key VALID, whatever the line was. -/
theorem hitVerdict_wReply (loop : Bool) (l : Line) (c : BitVec 32) {op : BitVec 8}
    (h : op = opWReply ∨ op = opFReply) : hitVerdict op loop l c = .clone c := by
  rcases h with rfl | rfl <;> rfl

/-- Any other operation, a CRCTN and a FETCH among them, is routed. -/
theorem hitVerdict_other (loop : Bool) (l : Line) (c : BitVec 32) {op : BitVec 8}
    (h0 : op ≠ opRead) (h1 : op ≠ opRReply) (h2 : op ≠ opWrite)
    (h3 : ¬ (op = opWReply ∨ op = opFReply)) : hitVerdict op loop l c = .forward := by
  rw [hitVerdict.eq_def, if_neg h0, if_neg h1, if_neg h2, if_neg h3]

/-- The verdict on a packet whose key is not cached: it is routed, unless it is on the loop, where
the packets of evicted keys end. -/
def missVerdict (op : BitVec 8) (loop : Bool) : Verdict :=
  if op = opRead then .uncached
  else if op = opRReply ∧ loop then .discard
  else .forward

/-- The verdict on a packet, from the lines alone: no register that is not part of a line can change
what becomes of it. -/
def verdict (lines : BitVec 32 → Line) (pkt : Packet π) : Verdict :=
  if pkt.IsOrbitcache then
    match t.cacheLookup pkt.orbitcache.hkey with
    | some c => hitVerdict (effectiveOp t port pkt) (onLoop t port) (lines c) c
    | none => missVerdict (effectiveOp t port pkt) (onLoop t port)
  else .plain

/-- The registers after a pass. The first three verdicts count the READ, also when it is not
absorbed. -/
def Verdict.regs (r : Registers) (pkt : Packet π) : Verdict → Registers
  | .absorb c => (r.countRead c).push c pkt.entry
  | .overflow c => (r.countRead c).countMiss
  | .bypass c => r.countRead c
  | .serve c _ => r.pop c
  | .invalidate c => r.setState c invalid
  | .clone c => r.setState c valid
  | .plain | .uncached | .idle | .discard | .forward => r

/-- The lines after a pass, when the packet's entry is `e`. Only four verdicts change a line, and
each changes that of its own index. -/
def Verdict.lines (e : Pending) (ls : BitVec 32 → Line) : Verdict → BitVec 32 → Line
  | .absorb c => Function.update ls c { ls c with queue := (ls c).queue ++ [e] }
  | .serve c _ => Function.update ls c { ls c with queue := (ls c).queue.tail }
  | .invalidate c => Function.update ls c { ls c with isValid := false }
  | .clone c => Function.update ls c { ls c with isValid := true }
  | .plain | .overflow _ | .bypass _ | .uncached | .idle | .discard | .forward => ls

/-- The packet with the changes every OrbitCache packet gets: no UDP checksum, and on the loop the
operation of a reply. -/
def Packet.touched (pkt : Packet π) : Packet π :=
  { pkt with udp.checksum := 0, orbitcache.op := effectiveOp t port pkt }

/-- A packet as the reply to a pending read: readdressed, with the sequence number and the time
stamp of the READ. Source, key and payload stay those of the cache packet. -/
def Packet.answer (pkt : Packet π) (e : Pending) : Packet π :=
  { pkt with
    ethernet.dstAddr := (t.updateDstMAC e.clientIP).getD pkt.ethernet.dstAddr
    ipv4.dstAddr := e.clientIP
    udp.dstPort := e.udpPort
    orbitcache.seq := e.seq
    orbitcache.latency := e.latency }

/-- The copy that `ipv4_exact` routes to an address, if it has an entry. -/
def route (dst : BitVec 32) (pkt : Packet π) : List (BitVec 9 × Packet π) :=
  (t.ipv4Exact dst).toList.map fun p => (p, pkt)

/-- The copies of a multicast group; a group that was never set is 0 and has none, so the packet is
gone then. -/
def multicast (g : Option (BitVec 16)) (pkt : Packet π) : List (BitVec 9 × Packet π) :=
  (if g.getD 0 = 0 then [] else t.mgid (g.getD 0)).map fun p => (p, pkt)

/-- The copies that leave the switch. An unlisted ingress port makes a difference to four verdicts:
the others clear `drop_ctl` again, or drop the packet anyway. -/
def Verdict.outputs (pkt : Packet π) : Verdict → List (BitVec 9 × Packet π)
  | .plain => route t (switchIngressParser pkt).ipv4.dstAddr pkt
  | .absorb _ | .discard => []
  | .overflow _ =>
    if unlisted t port then []
    else route t pkt.ipv4.dstAddr { pkt.touched t port with orbitcache.cached := missed }
  | .bypass _ | .uncached => route t pkt.ipv4.dstAddr (pkt.touched t port)
  | .serve _ e =>
    multicast t (t.getCrecircId e.clientIP (recircEntry t port).2)
      ((pkt.touched t port).answer t e)
  | .idle => if unlisted t port then [] else [(port, pkt.touched t port)]
  | .forward => if unlisted t port then [] else route t pkt.ipv4.dstAddr (pkt.touched t port)
  | .invalidate _ =>
    if unlisted t port then []
    else route t pkt.ipv4.dstAddr { pkt.touched t port with orbitcache.flag := fetching }
  | .clone _ =>
    multicast t (t.getCrecircId2 pkt.ipv4.dstAddr (recircEntry t port).2) (pkt.touched t port)

end

/-! ## What a verdict says about the packet -/

section
variable {π : Type} (t : Tables) (port : BitVec 9) (ls : BitVec 32 → Line) (pkt : Packet π)

/-- The circumstances under which each verdict is given. Inverting a case gives back what the
control has tested, so no proof has to unfold `verdict`. -/
inductive VerdictCase : Verdict → Prop
  | plain : ¬ pkt.IsOrbitcache → VerdictCase .plain
  | absorb {c} : pkt.IsOrbitcache → t.cacheLookup pkt.orbitcache.hkey = some c →
      onLoop t port = false → pkt.orbitcache.op = opRead → (ls c).isValid = true →
      (ls c).queue.length < maxQueueSizePerKey → VerdictCase (.absorb c)
  | overflow {c} : pkt.IsOrbitcache → t.cacheLookup pkt.orbitcache.hkey = some c →
      onLoop t port = false → pkt.orbitcache.op = opRead → (ls c).isValid = true →
      ¬ (ls c).queue.length < maxQueueSizePerKey → VerdictCase (.overflow c)
  | bypass {c} : pkt.IsOrbitcache → t.cacheLookup pkt.orbitcache.hkey = some c →
      onLoop t port = false → pkt.orbitcache.op = opRead → (ls c).isValid = false →
      VerdictCase (.bypass c)
  | uncached : pkt.IsOrbitcache → t.cacheLookup pkt.orbitcache.hkey = none →
      onLoop t port = false → pkt.orbitcache.op = opRead → VerdictCase .uncached
  | serve {c e q} : pkt.IsOrbitcache → t.cacheLookup pkt.orbitcache.hkey = some c →
      onLoop t port = true → (ls c).isValid = true → (ls c).queue = e :: q →
      VerdictCase (.serve c e)
  | idle {c} : pkt.IsOrbitcache → t.cacheLookup pkt.orbitcache.hkey = some c →
      onLoop t port = true → (ls c).isValid = true → (ls c).queue = [] → VerdictCase .idle
  | discard : pkt.IsOrbitcache → onLoop t port = true →
      (∀ c, t.cacheLookup pkt.orbitcache.hkey = some c → (ls c).isValid = false) →
      VerdictCase .discard
  | forward : pkt.IsOrbitcache → onLoop t port = false → pkt.orbitcache.op ≠ opRead →
      (∀ c, t.cacheLookup pkt.orbitcache.hkey = some c → pkt.orbitcache.op ≠ opWrite ∧
        pkt.orbitcache.op ≠ opWReply ∧ pkt.orbitcache.op ≠ opFReply) → VerdictCase .forward
  | invalidate {c} : pkt.IsOrbitcache → t.cacheLookup pkt.orbitcache.hkey = some c →
      onLoop t port = false → pkt.orbitcache.op = opWrite → VerdictCase (.invalidate c)
  | clone {c} : pkt.IsOrbitcache → t.cacheLookup pkt.orbitcache.hkey = some c →
      onLoop t port = false → pkt.orbitcache.op = opWReply ∨ pkt.orbitcache.op = opFReply →
      VerdictCase (.clone c)

variable {t port pkt}

/-- The verdict on a packet of a cached key that is not on the loop, in each of its cases. -/
theorem verdictCase_hit {c : BitVec 32} (h : pkt.IsOrbitcache)
    (hl : t.cacheLookup pkt.orbitcache.hkey = some c) (hp : onLoop t port = false) :
    VerdictCase t port ls pkt (hitVerdict pkt.orbitcache.op false (ls c) c) := by
  by_cases hread : pkt.orbitcache.op = opRead
  · rw [hread, hitVerdict_read]
    cases hv : (ls c).isValid with
    | false => exact .bypass h hl hp hread hv
    | true =>
      rw [if_pos rfl]
      split
      · next hroom => exact .absorb h hl hp hread hv hroom
      · next hroom => exact .overflow h hl hp hread hv hroom
  by_cases hreply : pkt.orbitcache.op = opRReply
  · rw [hreply, hitVerdict_rReply, if_neg (by decide)]
    refine .forward h hp hread fun _ _ => ?_
    rw [hreply]
    decide
  by_cases hwrite : pkt.orbitcache.op = opWrite
  · rw [hwrite, hitVerdict_write]
    exact .invalidate h hl hp hwrite
  by_cases hwReply : pkt.orbitcache.op = opWReply ∨ pkt.orbitcache.op = opFReply
  · rw [hitVerdict_wReply _ _ _ hwReply]
    exact .clone h hl hp hwReply
  · rw [hitVerdict_other _ _ _ hread hreply hwrite hwReply]
    exact .forward h hp hread fun _ _ => ⟨hwrite, not_or.1 hwReply⟩

/-- The verdict on a packet of a cached key on the loop, which counts as an R_REPLY. -/
theorem verdictCase_loop {c : BitVec 32} (h : pkt.IsOrbitcache)
    (hl : t.cacheLookup pkt.orbitcache.hkey = some c) (hp : onLoop t port = true) :
    VerdictCase t port ls pkt (hitVerdict opRReply true (ls c) c) := by
  rw [hitVerdict_rReply, if_pos rfl]
  cases hv : (ls c).isValid with
  | false =>
    refine .discard h hp fun c' hl' => ?_
    rw [hl] at hl'
    rw [← Option.some.inj hl', hv]
  | true =>
    rw [if_pos rfl]
    split
    · next hq => exact .idle h hl hp hv hq
    · next hq => exact .serve h hl hp hv hq

/-- The verdict on a packet whose key is not cached, on the loop or not. -/
theorem verdictCase_miss (h : pkt.IsOrbitcache) (hl : t.cacheLookup pkt.orbitcache.hkey = none) :
    VerdictCase t port ls pkt (missVerdict (effectiveOp t port pkt) (onLoop t port)) := by
  unfold missVerdict effectiveOp
  cases hp : onLoop t port with
  | true => exact .discard h hp fun c hc => by rw [hl] at hc; cases hc
  | false =>
    simp only [Bool.false_eq_true, if_false, and_false]
    split
    · next hread => exact .uncached h hl hp hread
    · next hread => exact .forward h hp hread fun c hc => by rw [hl] at hc; cases hc

/-- Every packet is in one of the cases: they are the only ones under which `verdict` gives its
value. -/
theorem verdict_case : VerdictCase t port ls pkt (verdict t port ls pkt) := by
  unfold verdict
  split
  · next h =>
    split
    · next c hl =>
      rw [effectiveOp]
      cases hp : onLoop t port with
      | true => exact verdictCase_loop ls h hl hp
      | false => exact verdictCase_hit ls h hl hp
    · next hl => exact verdictCase_miss ls h hl
  · next h => exact .plain h

/-- The circumstances of the verdicts on a packet that comes from the loop. These are fewer, and two
verdicts leave no copy on it. -/
inductive LoopCase (t : Tables) (ls : BitVec 32 → Line) (pkt : Packet π) : Verdict → Prop
  | plain : ¬ pkt.IsOrbitcache → LoopCase t ls pkt .plain
  | serve {c e q} : t.cacheLookup pkt.orbitcache.hkey = some c → (ls c).isValid = true →
      (ls c).queue = e :: q → LoopCase t ls pkt (.serve c e)
  | idle {c} : t.cacheLookup pkt.orbitcache.hkey = some c → (ls c).isValid = true →
      LoopCase t ls pkt .idle
  | discard : (∀ c, t.cacheLookup pkt.orbitcache.hkey = some c → (ls c).isValid = false) →
      LoopCase t ls pkt .discard

variable {ls}

/-- A packet that comes from the loop is in one of these cases, as its operation counts as that of a
reply. -/
theorem VerdictCase.loopCase {v : Verdict} (hv : VerdictCase t port ls pkt v)
    (hp : onLoop t port = true) : LoopCase t ls pkt v := by
  cases hv with
  | plain h => exact .plain h
  | absorb _ _ h | overflow _ _ h | bypass _ _ h | uncached _ _ h | invalidate _ _ h | forward _ h
  | clone _ _ h =>
    rw [hp] at h
    cases h
  | serve _ hl _ hvalid hqueue => exact .serve hl hvalid hqueue
  | idle _ hl _ hvalid => exact .idle hl hvalid
  | discard _ _ h => exact .discard h

end

/-! ## The two views of the registers -/

/-- The registers of the first `n` cache indices are well formed. It is the invariant of all runs:
above `n` nothing was initialised and nothing is used. -/
def Registers.WFBelow (r : Registers) (n : Nat) : Prop := ∀ c : BitVec 32, c.toNat < n → r.WF c

/-- The lookup table hands out the first `n` cache indices only, so no packet reaches a line that is
not well formed. -/
def Tables.IndexBelow (t : Tables) (n : Nat) : Prop :=
  ∀ k c, t.cacheLookup k = some c → c.toNat < n

section
variable {π : Type} {t : Tables} {port : BitVec 9} {r : Registers} {pkt : Packet π} {n : Nat}
variable {v : Verdict}

/-- A pass keeps the registers well formed: of the verdicts that change a line, each keeps its own
and leaves the others. -/
theorem VerdictCase.regs_wfBelow (hv : VerdictCase t port r.line pkt v) (h : r.WFBelow n) :
    (v.regs r pkt).WFBelow n := by
  intro c hc
  have hwf : r.WF c := h c hc
  cases hv with
  | plain | uncached | idle | discard | forward => exact hwf
  | overflow | bypass => exact hwf.congr rfl rfl rfl rfl
  | @absorb c' _ _ _ _ _ hroom =>
    have hcount : (r.countRead c').WF c := hwf.congr rfl rfl rfl rfl
    by_cases hcc : c = c'
    · subst hcc; exact hcount.push hroom
    · exact hcount.push_of_ne hcc
  | @serve c' e q _ _ _ _ hq =>
    by_cases hcc : c = c'
    · subst hcc
      refine hwf.pop fun hnil => ?_
      rw [show r.pending c = e :: q from hq] at hnil
      cases hnil
    · exact hwf.pop_of_ne hcc
  | invalidate => exact hwf.setState (.inr rfl)
  | clone => exact hwf.setState (.inl rfl)

/-- A pass does to the lines what its verdict says: the registers refine the abstract queues. -/
theorem VerdictCase.line_regs (hv : VerdictCase t port r.line pkt v) (ht : t.IndexBelow n)
    (hn : n ≤ maxCacheSize) (h : r.WFBelow n) {c : BitVec 32} (hc : c.toNat < n) :
    (v.regs r pkt).line c = v.lines pkt.entry r.line c := by
  have hwf : r.WF c := h c hc
  cases hv with
  | plain | uncached | idle | discard | forward | overflow | bypass => rfl
  | @absorb c' _ hl _ _ _ hroom =>
    have hc' := ht _ _ hl
    have hwf' : (r.countRead c').WF c' := (h c' hc').congr rfl rfl rfl rfl
    by_cases hcc : c = c'
    · subst hcc
      simp only [Verdict.regs, Verdict.lines, Function.update_self]
      exact congrArg (Line.mk _) (Registers.pending_push hwf' (by omega) hroom)
    · simp only [Verdict.regs, Verdict.lines, Function.update_of_ne hcc]
      exact congrArg (Line.mk _)
        (Registers.pending_push_of_ne hwf' (by omega) (by omega) hcc)
  | @serve c' e q _ hl _ _ hq =>
    have hc' := ht _ _ hl
    by_cases hcc : c = c'
    · subst hcc
      simp only [Verdict.regs, Verdict.lines, Function.update_self]
      refine congrArg (Line.mk _) ?_
      rw [hq]
      exact Registers.pending_pop hwf (by omega) hq
    · simp only [Verdict.regs, Verdict.lines, Function.update_of_ne hcc]
      exact congrArg (Line.mk _)
        (Registers.pending_pop_of_ne (h c' hc') (by omega) (by omega) hcc)
  | @invalidate c' | @clone c' =>
    by_cases hcc : c = c'
    · subst hcc
      simp [Verdict.regs, Verdict.lines, Registers.line, Registers.setState]
      rfl
    · simp [Verdict.regs, Verdict.lines, Registers.line, Registers.setState, hcc]
      rfl

end

end OrbitCache
