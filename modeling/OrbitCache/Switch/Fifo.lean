import OrbitCache.Switch.Pass

/-!
# Bounded queues over runs

Over any sequence of packets the request table of an installed index holds a queue of at most
`MAX_QUEUE_SIZE_PER_KEY` pending reads (`Registers.Holds`), and one packet does to it what a bounded
queue allows (`QueueStep`): a READ of a VALID key appends its entry if there is room, a cache packet
of a VALID key removes the oldest entry, and nothing else changes it.
-/

namespace OrbitCache

section
variable {π : Type} (t : Tables) (port : BitVec 9) (r : Registers) (pkt : Packet π)

/-- The registers after a sequence of packets, each with its ingress port. Each packet runs through
the control before the next one enters. -/
def switchRun (ps : List (BitVec 9 × Packet π)) : Registers :=
  ps.foldl (fun r p => (switchPass t p.1 r p.2).1) r

/-- The packet is a READ of a key cached at `c`, not on the recirculation port, where it would count
as a reply. -/
def ReadsAt (c : BitVec 32) : Prop :=
  pkt.IsOrbitcache ∧ t.cacheLookup pkt.orbitcache.hkey = some c ∧ onLoop t port = false ∧
    pkt.orbitcache.op = opRead

/-- The packet entered on the recirculation port and its key is cached at `c`; its operation makes
no difference there. -/
def LoopsAt (c : BitVec 32) : Prop :=
  pkt.IsOrbitcache ∧ t.cacheLookup pkt.orbitcache.hkey = some c ∧ onLoop t port = true

/-- The registers of the index `c` hold the queue `q`: length and pointers agree with it, and its
entries are in the slots from the front pointer on. -/
structure Registers.Holds (c : BitVec 32) (q : List Pending) : Prop where
  qlen_eq : (r.qlen c).toNat = q.length
  length_le : q.length ≤ maxQueueSizePerKey
  front_lt : (r.ptrFront c).toNat < maxQueueSizePerKey
  rear_lt : (r.ptrRear c).toNat < maxQueueSizePerKey
  rear_eq : (r.ptrRear c).toNat = ((r.ptrFront c).toNat + (r.qlen c).toNat) % maxQueueSizePerKey
  slots : ∀ j e, q[j]? = some e →
    let i := BitVec.ofNat 32
      (c.toNat * maxQueueSizePerKey + ((r.ptrFront c).toNat + j) % maxQueueSizePerKey)
    r.clientIP i = e.clientIP ∧ r.udpPort i = e.udpPort ∧ r.seq i = e.seq ∧ r.latency i = e.latency

/-- What one packet does to the queue of the index `c`. The three cases exclude each other and cover
every packet. -/
structure QueueStep (c : BitVec 32) (q q' : List Pending) : Prop where
  /-- A READ of a VALID key appends its entry exactly when there is room. -/
  read : ReadsAt t port pkt c → r.cacheState c = valid →
    q' = if q.length < maxQueueSizePerKey then q ++ [pkt.entry] else q
  /-- A cache packet of a VALID key removes the oldest entry and leaves with its fields. -/
  loop : LoopsAt t port pkt c → r.cacheState c = valid →
    q' = q.tail ∧ ∀ e, q.head? = some e →
      let x := Ingress.apply t port (.start (switchIngressParser pkt) r)
      x.hdr.ipv4.dstAddr = e.clientIP ∧ x.hdr.udp.dstPort = e.udpPort ∧
        x.hdr.orbitcache.seq = e.seq ∧ x.hdr.orbitcache.latency = e.latency
  /-- Any other packet leaves the queue as it was. -/
  other : ¬ (ReadsAt t port pkt c ∧ r.cacheState c = valid) →
    ¬ (LoopsAt t port pkt c ∧ r.cacheState c = valid) → q' = q

end

section
variable {π : Type} {t : Tables} {port : BitVec 9} {r : Registers} {pkt : Packet π} {n : Nat}
variable {c : BitVec 32}

/-- The slots of a well-formed index hold its queue, at the flat addresses that eight slots for each
index give. -/
theorem Registers.WF.holds (h : r.WF c) (hc : c.toNat < maxCacheSize) :
    r.Holds c (r.pending c) := by
  refine ⟨(length_pending r c).symm, by rw [length_pending]; exact h.qlen_le, h.front_lt, ?_,
    h.rear_eq, fun j e hj => ?_⟩
  · rw [h.rear_eq]
    exact Nat.mod_lt _ (by decide)
  · have hlt : ((r.ptrFront c).toNat + j) % maxQueueSizePerKey < maxQueueSizePerKey :=
      Nat.mod_lt _ (by decide)
    have hidx : BitVec.ofNat 32
        (c.toNat * maxQueueSizePerKey + ((r.ptrFront c).toNat + j) % maxQueueSizePerKey) =
          slotIdx c (((r.ptrFront c).toNat + j) % maxQueueSizePerKey) := by
      rw [← toNat_slotIdx hc hlt, BitVec.ofNat_toNat, BitVec.setWidth_eq]
    have hlen : j < (r.qlen c).toNat := by
      rw [← length_pending]
      exact (List.getElem?_eq_some_iff.1 hj).1
    rw [pending, Ring.getElem?_toList hlen, Option.some.injEq] at hj
    subst hj
    rw [hidx]
    exact ⟨rfl, rfl, rfl, rfl⟩

/-- The verdict on a READ of a VALID key depends on the length of its queue alone. -/
theorem VerdictCase.of_readsAt {ls : BitVec 32 → Line} {v : Verdict}
    (hv : VerdictCase t port ls pkt v) (hread : ReadsAt t port pkt c)
    (hs : (ls c).isValid = true) :
    v = if (ls c).queue.length < maxQueueSizePerKey then .absorb c else .overflow c := by
  obtain ⟨horb, hl, hp, hop⟩ := hread
  have hidx {c' : BitVec 32} (hl' : t.cacheLookup pkt.orbitcache.hkey = some c') : c' = c :=
    Option.some.inj (hl'.symm.trans hl)
  cases hv with
  | plain h => exact absurd horb h
  | absorb _ hl' _ _ _ hroom => obtain rfl := hidx hl'; rw [if_pos hroom]
  | overflow _ hl' _ _ _ hroom => obtain rfl := hidx hl'; rw [if_neg hroom]
  | bypass _ hl' _ _ hs' => obtain rfl := hidx hl'; rw [hs] at hs'; cases hs'
  | uncached _ hl' => rw [hl] at hl'; cases hl'
  | serve _ _ hp' | idle _ _ hp' | discard _ hp' => rw [hp] at hp'; cases hp'
  | forward _ _ hop' => exact absurd hop hop'
  | invalidate _ _ _ hop' => rw [hop] at hop'; exact absurd hop' (by decide)
  | clone _ _ _ hop' => rw [hop] at hop'; exact absurd hop' (by decide)

/-- The verdict on a cache packet of a VALID key depends on whether its queue is empty. -/
theorem VerdictCase.of_loopsAt {ls : BitVec 32 → Line} {v : Verdict}
    (hv : VerdictCase t port ls pkt v) (hloop : LoopsAt t port pkt c)
    (hs : (ls c).isValid = true) :
    (v = .idle ∧ (ls c).queue = []) ∨ ∃ e q, v = .serve c e ∧ (ls c).queue = e :: q := by
  obtain ⟨horb, hl, hp⟩ := hloop
  have hidx {c' : BitVec 32} (hl' : t.cacheLookup pkt.orbitcache.hkey = some c') : c' = c :=
    Option.some.inj (hl'.symm.trans hl)
  cases hv with
  | plain h => exact absurd horb h
  | absorb _ _ hp' | overflow _ _ hp' | bypass _ _ hp' | uncached _ _ hp' | forward _ hp'
  | invalidate _ _ hp' | clone _ _ hp' => rw [hp] at hp'; cases hp'
  | @serve c' e q _ hl' _ _ hq => obtain rfl := hidx hl'; exact .inr ⟨e, q, rfl, hq⟩
  | idle _ hl' _ _ hq => obtain rfl := hidx hl'; exact .inl ⟨rfl, hq⟩
  | discard _ _ hs' => rw [hs' c hl] at hs; cases hs

/-- Only a READ of a VALID key or a cache packet of a VALID key changes the queue of an index. -/
theorem VerdictCase.queue_eq {ls : BitVec 32 → Line} {v : Verdict}
    (hv : VerdictCase t port ls pkt v) (e : Pending)
    (hread : ¬ (ReadsAt t port pkt c ∧ (ls c).isValid = true))
    (hloop : ¬ (LoopsAt t port pkt c ∧ (ls c).isValid = true)) :
    (v.lines e ls c).queue = (ls c).queue := by
  cases hv with
  | plain | overflow | bypass | uncached | idle | discard | forward => rfl
  | @absorb c' horb hl hp hop hs =>
    have hne : c ≠ c' := by rintro rfl; exact hread ⟨⟨horb, hl, hp, hop⟩, hs⟩
    simp only [Verdict.lines, Function.update_of_ne hne]
  | @serve c' _ _ horb hl hp hs =>
    have hne : c ≠ c' := by rintro rfl; exact hloop ⟨⟨horb, hl, hp⟩, hs⟩
    simp only [Verdict.lines, Function.update_of_ne hne]
  | @invalidate c' | @clone c' =>
    by_cases hcc : c = c'
    · subst hcc; simp only [Verdict.lines, Function.update_self]
    · simp only [Verdict.lines, Function.update_of_ne hcc]

/-- A queue grows by one entry, loses its front, or stays as it was; which of these, the verdict
says. -/
theorem VerdictCase.queue_cases {ls : BitVec 32 → Line} {v : Verdict}
    (hv : VerdictCase t port ls pkt v) (e : Pending) (c : BitVec 32) :
    (v = .absorb c ∧ (v.lines e ls c).queue = (ls c).queue ++ [e]) ∨
      (∃ x q, v = .serve c x ∧ (ls c).queue = x :: q ∧ (v.lines e ls c).queue = q) ∨
      v ≠ .absorb c ∧ (∀ x, v ≠ .serve c x) ∧ (v.lines e ls c).queue = (ls c).queue := by
  cases hv with
  | plain | overflow | bypass | uncached | idle | discard | forward =>
    exact .inr (.inr ⟨by simp, by simp, rfl⟩)
  | @absorb c' =>
    by_cases hc : c = c'
    · subst hc
      exact .inl ⟨rfl, by simp [Verdict.lines]⟩
    · exact .inr (.inr ⟨by simp [Ne.symm hc], by simp, by simp [Verdict.lines, hc]⟩)
  | @serve c' x q _ _ _ _ hq =>
    by_cases hc : c = c'
    · subst hc
      exact .inr (.inl ⟨x, q, rfl, hq, by simp [Verdict.lines, hq]⟩)
    · exact .inr (.inr ⟨by simp, by simp [Ne.symm hc], by simp [Verdict.lines, hc]⟩)
  | @invalidate c' | @clone c' =>
    refine .inr (.inr ⟨by simp, by simp, ?_⟩)
    by_cases hc : c = c'
    · subst hc
      simp [Verdict.lines]
    · simp [Verdict.lines, hc]

/-- How the queue changed tells which it was: a queue that grew cannot have lost its front as well,
so two tests on the queues alone recognise the packets. -/
theorem VerdictCase.queue_flags {ls : BitVec 32 → Line} {v : Verdict}
    (hv : VerdictCase t port ls pkt v) (e : Pending) (c : BitVec 32) :
    let q := (ls c).queue
    let q' := (v.lines e ls c).queue
    (v = .absorb c ∧ (q' == q ++ [e]) = true ∧ (q != [] && q' == q.tail) = false ∧ q' = q ++ [e]) ∨
      (∃ x r, v = .serve c x ∧ (q' == q ++ [e]) = false ∧ (q != [] && q' == q.tail) = true ∧
        q = x :: r ∧ q' = r) ∨
      v ≠ .absorb c ∧ (∀ x, v ≠ .serve c x) ∧ (q' == q ++ [e]) = false ∧
        (q != [] && q' == q.tail) = false ∧ q' = q := by
  intro q q'
  have hne : ∀ {l l' : List Pending}, l.length ≠ l'.length → (l == l') = false :=
    fun hlen => beq_eq_false_iff_ne.2 fun heq => hlen (congrArg List.length heq)
  rcases hv.queue_cases e c with ⟨hvc, hq⟩ | ⟨x, r, hvc, hq, hq'⟩ | ⟨hvc, hserve, hq⟩
  · refine .inl ⟨hvc, beq_iff_eq.2 hq, ?_, hq⟩
    rw [Bool.and_eq_false_iff]
    refine .inr (hne ?_)
    show (v.lines e ls c).queue.length ≠ (ls c).queue.tail.length
    rw [hq, List.length_append, List.length_singleton, List.length_tail]
    omega
  · refine .inr (.inl ⟨x, r, hvc, hne ?_, ?_, hq, hq'⟩)
    · show (v.lines e ls c).queue.length ≠ ((ls c).queue ++ [e]).length
      rw [hq', hq, List.length_append, List.length_cons]
      omega
    · show ((ls c).queue != [] && (v.lines e ls c).queue == (ls c).queue.tail) = true
      rw [hq, hq', List.tail_cons, beq_self_eq_true, Bool.and_true]
      rfl
  · refine .inr (.inr ⟨hvc, hserve, hne ?_, ?_, hq⟩)
    · show (v.lines e ls c).queue.length ≠ ((ls c).queue ++ [e]).length
      rw [hq, List.length_append, List.length_singleton]
      omega
    · show ((ls c).queue != [] && (v.lines e ls c).queue == (ls c).queue.tail) = false
      rw [hq]
      cases (ls c).queue with
      | nil => rfl
      | cons x r =>
        rw [Bool.and_eq_false_iff]
        refine .inr (hne ?_)
        rw [List.tail_cons, List.length_cons]
        omega

/-- A pass changes the queue of an index as a bounded queue changes: this is the step lemma of the
runs. -/
theorem VerdictCase.queueStep {v : Verdict} (hv : VerdictCase t port r.line pkt v)
    (ht : t.IndexBelow n) (hn : n ≤ maxCacheSize) (h : r.WFBelow n) (hc : c.toNat < n) :
    QueueStep t port r pkt c (r.pending c) ((v.regs r pkt).pending c) := by
  have hqueue : (v.regs r pkt).pending c = (v.lines pkt.entry r.line c).queue :=
    congrArg Line.queue (hv.line_regs ht hn h hc)
  have hvalid : r.cacheState c = valid ↔ (r.line c).isValid = true := beq_iff_eq.symm
  refine ⟨fun hread hs => ?_, fun hloop hs => ?_, fun hread hloop => ?_⟩
  · rw [hqueue, hv.of_readsAt hread (hvalid.1 hs)]
    show _ = if (r.line c).queue.length < maxQueueSizePerKey then _ else _
    split
    · simp only [Verdict.lines, Function.update_self]
      rfl
    · rfl
  · rw [hqueue]
    rcases hv.of_loopsAt hloop (hvalid.1 hs) with ⟨rfl, hq⟩ | ⟨e, q, rfl, hq⟩
    · rw [show r.pending c = [] from hq]
      refine ⟨hq, fun e he => ?_⟩
      cases he
    · rw [show r.pending c = e :: q from hq]
      refine ⟨by simp only [Verdict.lines, Function.update_self, hq], fun e' he' => ?_⟩
      cases he'
      exact apply_serve hloop.1 hloop.2.1 (h c hc) hloop.2.2 hs hq
  · rw [hqueue, hv.queue_eq _ (by rwa [← hvalid]) (by rwa [← hvalid])]
    rfl

/-- A pass keeps the registers well formed, whatever the packet is. -/
theorem switchPass_wfBelow (ht : t.IndexBelow n) (h : r.WFBelow n) :
    (switchPass t port r pkt).1.WFBelow n := by
  obtain ⟨v, hv, hpass⟩ := switchPass_cases port pkt ht h
  rw [hpass]
  exact hv.regs_wfBelow h

/-- A run keeps the registers well formed, by induction on its packets. -/
theorem switchRun_wfBelow (ht : t.IndexBelow n) (h : r.WFBelow n)
    (ps : List (BitVec 9 × Packet π)) : (switchRun t r ps).WFBelow n := by
  induction ps generalizing r with
  | nil => exact h
  | cons p ps ih => exact ih (switchPass_wfBelow ht h)

/-- After any run, a further packet changes the queue of an index as a bounded queue changes: the
run keeps what the step needs. -/
theorem switchRun_queueStep (ht : t.IndexBelow n) (hn : n ≤ maxCacheSize) (h : r.WFBelow n)
    (ps : List (BitVec 9 × Packet π)) (port : BitVec 9) (pkt : Packet π) (hc : c.toNat < n) :
    QueueStep t port (switchRun t r ps) pkt c ((switchRun t r ps).pending c)
      ((switchRun t r (ps ++ [(port, pkt)])).pending c) := by
  have hwf := switchRun_wfBelow ht h ps
  obtain ⟨v, hv, hpass⟩ := switchPass_cases port pkt ht hwf
  have hrun : switchRun t r (ps ++ [(port, pkt)]) = v.regs (switchRun t r ps) pkt := by
    rw [switchRun, List.foldl_append]
    exact congrArg Prod.fst hpass
  rw [hrun]
  exact hv.queueStep ht hn hwf hc

end

end OrbitCache
