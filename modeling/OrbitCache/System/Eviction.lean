import OrbitCache.Lib.Fifo
import OrbitCache.Controller.Selection
import OrbitCache.System.Dynamic

/-!
# Reusing a cache index

What the reads of one key have to do with those of another when the dynamic controller gives a cache
index to another key. As long as the index is INVALID and without pending reads when `table_add`
installs the new key, the key's reads go to the server until its item arrives, and a read is
answered by a cache packet of its own hash (`DynState.Isolated`). The eviction branch does not see
to that: `eviction_not_isolated`.
-/

namespace OrbitCache

open Controller (LookupTable numHotkey StaticTable HotKey Str hkey)

/-! ## Reads, laps and replies -/

/-- A READ on its way to a worker, which may be absorbed or forwarded. -/
def Event.IsRequest (D : Deployment) (e : Event) : Prop :=
  e.pkt.IsOrbitcache ∧ e.port ≠ D.recirc ∧ e.pkt.orbitcache.op = opRead

/-- A W_REPLY or an F_REPLY of a key with the hash `k`. -/
def Event.IsItem (D : Deployment) (k : Hkey) (e : Event) : Prop :=
  e.port ≠ D.recirc ∧ e.pkt.orbitcache.hkey = k ∧
    (e.pkt.orbitcache.op = opWReply ∨ e.pkt.orbitcache.op = opFReply)

/-- The packet went where `ipv4_exact` sends it, with its header and its key. -/
def Event.Forwarded (D : Deployment) (e : Event) : Prop :=
  e.outputs.map Prod.fst = (D.tables.ipv4Exact e.pkt.ipv4.dstAddr).toList ∧
    ∀ o ∈ e.outputs, o.2.orbitcache = e.pkt.orbitcache ∧ o.2.ipv4 = e.pkt.ipv4 ∧
      o.2.payload.orgKey = e.pkt.payload.orgKey

/-- The packet was absorbed: the request table holds its entry behind those it held before. -/
def Pass.absorbedAt (c : BitVec 32) (p : Pass) : Bool :=
  p.after.pending c == p.before.pending c ++ [p.pkt.entry]

/-- The packet answered the oldest pending read of the index: the queue has lost its front. -/
def Pass.servedAt (c : BitVec 32) (p : Pass) : Bool :=
  p.before.pending c != [] && p.after.pending c == (p.before.pending c).tail

namespace DynState

/-- The packets absorbed at an index, oldest first, over the whole run. -/
def reads (s : DynState) (c : BitVec 32) : List Pass := s.log.filter (Pass.absorbedAt c)

/-- The packets that answered a pending read of an index, oldest first. -/
def laps (s : DynState) (c : BitVec 32) : List Pass := s.log.filter (Pass.servedAt c)

/-- From the installation of a key on, its READs are forwarded until its item passes. -/
def Withheld (D : Deployment) (s : DynState) : Prop :=
  ∀ x ∈ s.installs, ∀ j p, x.time ≤ j → s.log[j]? = some p → p.IsRequest D →
    p.pkt.orbitcache.hkey = x.hkey →
    (∀ i w, x.time ≤ i → i < j → s.log[i]? = some w → ¬ w.IsItem D x.hkey) →
      (∀ c, c.toNat < numHotkey → p.absorbedAt c = false) ∧ p.Forwarded D

/-- The packet that answers a pending read is a cache packet, and its key has the hash of the key
that was read. -/
structure Answers (D : Deployment) (read lap : Pass) : Prop where
  isRequest : read.IsRequest D
  isLap : lap.port = D.recirc
  hkey : read.pkt.orbitcache.hkey = lap.pkt.orbitcache.hkey

/-- The queues are first-in first-out, so the `n`-th packet that answers a read of an index answers
the `n`-th that was absorbed there. -/
def Matched (D : Deployment) (s : DynState) : Prop :=
  ∀ c, c.toNat < numHotkey → ∀ (n : Nat) (lap : Pass), (s.laps c)[n]? = some lap →
    ∃ read, (s.reads c)[n]? = some read ∧ Answers D read lap ∧
      D.hash read.pkt.payload.orgKey = D.hash lap.pkt.payload.orgKey

/-- Keys that use the same index one after the other do not meet: neither does a READ reach the
state of the former key, nor a pending read the packet of the latter. -/
structure Isolated (D : Deployment) (s : DynState) : Prop where
  withheld : s.Withheld D
  matched : s.Matched D

/-- The condition: an eviction goes on only while the index is INVALID and has no pending reads. -/
def Vacated (s : DynState) : DynAction → Prop
  | .place => ∀ p, s.placing = some p → s.sys.regs.cacheState (BitVec.ofNat 32 p.idx) = invalid ∧
      s.sys.regs.qlen (BitVec.ofNat 32 p.idx) = 0
  | .net _ | .begin _ | .admitKey | .fetch .. => True

instance (s : DynState) : ∀ a, Decidable (s.Vacated a)
  | .place => inferInstanceAs (Decidable (∀ p ∈ s.placing, _))
  | .net _ | .begin _ | .admitKey | .fetch .. => inferInstanceAs (Decidable True)

end DynState

/-! ## What a verdict does to a queue -/

section
variable {π : Type} {t : Tables} {port : BitVec 9} {ls : BitVec 32 → Line} {pkt : Packet π}
variable {v : Verdict} {e : Pending} {c : BitVec 32}

/-- An index that no key has is left alone by every packet. -/
theorem VerdictCase.lines_of_unused (hv : VerdictCase t port ls pkt v)
    (hc : ∀ k, t.cacheLookup k ≠ some c) : v.lines e ls c = ls c := by
  have hne : ∀ {k c'}, t.cacheLookup k = some c' → c ≠ c' := by
    rintro k c' hl rfl
    exact hc k hl
  cases hv with
  | plain | overflow | bypass | uncached | idle | discard | forward => rfl
  | absorb _ hl | serve _ hl | invalidate _ hl | clone _ hl =>
    simp only [Verdict.lines, Function.update_of_ne (hne hl)]

end

/-! ## Headers carry the hash of their key -/

/-- The header carries the hash of the key behind it. -/
def Packet.Hashed (D : Deployment) (m : Message) : Prop :=
  m.orbitcache.hkey = D.hash m.payload.orgKey

/-- Every message but a fetch carries the hash of its key. -/
structure DynState.Hashed (D : Deployment) (s : DynState) : Prop where
  uplink : ∀ e ∈ s.sys.uplink, e.2.orbitcache.op ≠ opFetch → e.2.Hashed D
  wire : ∀ m ∈ s.sys.wire, m.orbitcache.op ≠ opFetch → m.Hashed D
  loop : ∀ m ∈ s.sys.loop, m.Hashed D
  log : ∀ p ∈ s.log, p.pkt.orbitcache.op ≠ opFetch ∨ p.port = D.recirc → p.pkt.Hashed D

section
variable {D : Deployment} {heapq : Heapq HotKey HotKey.le} {fetchTo : Str → Endpoint}
variable {s s' : DynState}

/-- The messages of the hosts do, since they carry the key that they were asked for. -/
theorem Emitted.hashed {sys : State} {m : Message} (h : Emitted D sys m)
    (hwire : ∀ m ∈ sys.wire, m.orbitcache.op ≠ opFetch → m.Hashed D) : m.Hashed D := by
  cases h with
  | request | preload => rfl
  | @reply m _ _ _ _ hm _ hcase =>
    have hread : ∀ {op : BitVec 8}, m.orbitcache.op = op → op ≠ opFetch → m.Hashed D :=
      fun hop hne => hwire m hm (hop ▸ hne)
    cases hcase with
    | read hop =>
      rcases hop with hop | hop
      · exact hread hop (by decide)
      · exact hread hop (by decide)
    | fetch => rfl
    | write hop => exact hread hop (by decide)
    | writeNoFetch hop => exact hread hop (by decide)

/-- So do the copies of a packet, which keep its key and its hash. -/
theorem Verdict.hashed_delivered {t : Tables} {port : BitVec 9} {m x : Message} {v : Verdict}
    (hx : x ∈ v.delivered t port m) (hm : m.orbitcache.op ≠ opFetch ∨ onLoop t port = true →
      m.Hashed D) (hop : x.orbitcache.op ≠ opFetch) : x.Hashed D := by
  have heff : effectiveOp t port m ≠ opFetch → m.Hashed D := by
    intro hne
    refine hm ?_
    cases hp : onLoop t port with
    | true => exact .inr rfl
    | false =>
      rw [effectiveOp, hp] at hne
      exact .inl hne
  cases v with
  | plain =>
    obtain rfl := List.mem_singleton.1 hx
    exact hm (.inl hop)
  | absorb | idle | discard => cases hx
  | overflow | bypass | uncached | serve | forward | invalidate | clone =>
    obtain rfl := List.mem_singleton.1 hx
    exact heff hop

/-- A pass of a packet that is a fetch from a host or carries the hash of its key. -/
theorem DynState.Hashed.copies (hD : D.Wired) {sys : State} {port : BitVec 9} {m : Message}
    {v : Verdict} (hv : sys.Judged D port m v) (hport : D.Listed port)
    (hm : m.orbitcache.op ≠ opFetch ∨ port = D.recirc → m.Hashed D) :
    (∀ y ∈ (sys.pass D port m).loop, y ∈ sys.loop ∨ y.Hashed D) ∧
      ∀ y ∈ (sys.pass D port m).wire, y ∈ sys.wire ∨ (y.orbitcache.op ≠ opFetch → y.Hashed D) := by
  have hm' : m.orbitcache.op ≠ opFetch ∨ onLoop (sys.tables D) port = true → m.Hashed D := by
    rw [onLoop_eq hport, beq_iff_eq]
    exact hm
  refine ⟨fun y hy => ?_, fun y hy => ?_⟩
  · refine (hv.mem_loop hD hport hy).imp_right ?_
    rintro ⟨x, hx, rfl⟩
    obtain ⟨-, hk, hpay⟩ := Verdict.mem_recirculated hx
    have hmh : m.Hashed D := by
      cases hp : onLoop (sys.tables D) port with
      | true => exact hm' (.inr hp)
      | false =>
        rcases hv.case.host hp with ⟨c, -, -, hop⟩ | ⟨-, hnil⟩
        · refine hm' (.inl ?_)
          rcases hop with hop | hop <;> rw [hop] <;> decide
        · rw [hnil] at hx
          cases hx
    show x.orbitcache.hkey = D.hash x.payload.orgKey
    rw [hk, hpay]
    exact hmh
  · refine (hv.mem_wire hD hport hy).imp_right ?_
    rintro ⟨x, hx, rfl⟩ hop
    have hxh : x.Hashed D := Verdict.hashed_delivered hx hm' hop
    exact hxh

/-- A packet that passes is added to the log, with the registers before and after it. -/
theorem DynState.passed_log {sys : State} {e : Event} (h : sys.trace = s.sys.trace ++ [e]) :
    (s.passed sys).log = s.log ++ [⟨e, s.sys.regs, sys.regs⟩] := by
  rw [DynState.passed, h, List.drop_left]
  rfl

/-- Nothing else is added. -/
theorem DynState.passed_log_of_eq {sys : State} (h : sys.trace = s.sys.trace) :
    (s.passed sys).log = s.log := by
  rw [DynState.passed, h, List.drop_length, List.map_nil, List.append_nil]

/-- Every step keeps the hashes, by the cases of a step of the system or of the controller. -/
theorem DynState.Hashed.step (hD : D.Wired) (hinv : s.Inv D heapq) (h : s.Hashed D) {a : DynAction}
    (hstep : dynStep D heapq fetchTo s a = some s') : s'.Hashed D := by
  cases dynStep_case hstep with
  | @net a sys hsys =>
    cases step_netCase hsys with
    | @pass i port m hm =>
      obtain ⟨hport, hne⟩ := hinv.uplink _ (List.mem_of_getElem? hm)
      obtain ⟨v, hv⟩ :=
        State.judged (D := D) (s := { s.sys with uplink := s.sys.uplink.eraseIdx i })
          hinv.table.staticTable hinv.wf port m
      have hmh : m.orbitcache.op ≠ opFetch ∨ port = D.recirc → m.Hashed D := by
        rintro (hop | heq)
        · exact h.uplink _ (List.mem_of_getElem? hm) hop
        · exact absurd heq hne
      obtain ⟨hloop, hwire⟩ := DynState.Hashed.copies hD hv hport hmh
      refine ⟨fun e he => h.uplink e (List.mem_of_mem_eraseIdx he),
        fun y hy hop => (hwire y hy).elim (fun hy => h.wire y hy hop) fun hy => hy hop,
        fun y hy => (hloop y hy).elim (h.loop y) id, ?_⟩
      rw [DynState.passed_log rfl]
      intro p hp hop
      rcases List.mem_append.1 hp with hp | hp
      · exact h.log p hp hop
      · rw [List.mem_singleton.1 hp] at hop ⊢
        exact hmh hop
    | @recirculate i m hm =>
      have hmh := h.loop m (List.mem_of_getElem? hm)
      obtain ⟨v, hv⟩ := State.judged (D := D) (s := { s.sys with loop := s.sys.loop.eraseIdx i })
        hinv.table.staticTable hinv.wf D.recirc m
      obtain ⟨hloop, hwire⟩ := DynState.Hashed.copies hD hv hD.recirc_listed fun _ => hmh
      refine ⟨h.uplink,
        fun y hy hop => (hwire y hy).elim (fun hy => h.wire y hy hop) fun hy => hy hop,
        fun y hy => (hloop y hy).elim (fun hy => h.loop y (List.mem_of_mem_eraseIdx hy)) id, ?_⟩
      rw [DynState.passed_log rfl]
      intro p hp hop
      rcases List.mem_append.1 hp with hp | hp
      · exact h.log p hp hop
      · rw [List.mem_singleton.1 hp]
        exact hmh
    | host _ _ htrace hloop hwire huplink =>
      refine ⟨fun e he hop => ?_, fun y hy => h.wire y (hwire hy), fun y hy => ?_, ?_⟩
      · rcases huplink e he with he | ⟨-, hemit⟩
        · exact h.uplink e he hop
        · exact hemit.hashed h.wire
      · exact h.loop y (hloop ▸ hy)
      · rw [DynState.passed_log_of_eq htrace]
        exact h.log
  | begin | skip | insert | evict | place => exact ⟨h.uplink, h.wire, h.loop, h.log⟩
  | fetch =>
    refine ⟨fun e he hop => ?_, h.wire, h.loop, h.log⟩
    rcases List.mem_append.1 he with he | he
    · exact h.uplink e he hop
    · rw [List.mem_singleton.1 he] at hop
      exact absurd rfl hop

variable (D heapq) in
/-- It holds at the start, where nothing is in flight. -/
theorem DynState.Hashed.start (regs : Registers) (workers : Endpoint → Worker) :
    (DynState.start regs workers).Hashed D :=
  ⟨fun _ he => (List.not_mem_nil he).elim, fun _ hm => (List.not_mem_nil hm).elim,
    fun _ hm => (List.not_mem_nil hm).elim, fun _ hp => (List.not_mem_nil hp).elim⟩

/-! ## One packet through the switch -/

variable (D heapq) in
/-- What holds in every state if indices are vacated before they are given to another key. -/
structure DynState.Reuse (s : DynState) : Prop where
  inv : s.Inv D heapq
  queues : ∀ c, c.toNat < numHotkey → Fifo.Matched (fun p : Pass => p.pkt.entry) (Answers D)
    (s.reads c) (s.laps c) (s.sys.regs.line c).queue
  /-- The reads that wait at an index are of the key that has it. -/
  waiting : ∀ k c, s.sys.lookup.lookup k = some c → ∀ p ∈ Fifo.waiting (s.reads c) (s.laps c),
    p.IsRequest D ∧ p.pkt.orbitcache.hkey = k
  /-- The item of a VALID key has passed since the key was installed. -/
  item : ∀ x ∈ s.installs, ∀ c, s.sys.lookup.lookup x.hkey = some c →
    (s.sys.regs.line c).isValid = true →
      ∃ i w, x.time ≤ i ∧ s.log[i]? = some w ∧ w.IsItem D x.hkey
  /-- The indices that were never in use are as initialisation left them. -/
  unused : s.placing = none → ∀ c : BitVec 32, s.round.keys.length ≤ c.toNat →
    c.toNat < numHotkey → s.sys.regs.line c = ⟨false, []⟩
  times : ∀ x ∈ s.installs, x.time ≤ s.log.length
  withheld : s.Withheld D

/-- The pass of a packet, as the log shows it: what entered, what left, and the registers around it.
-/
structure Pass.Of (D : Deployment) (sys : State) (port : BitVec 9) (m : Message) (p : Pass) :
    Prop where
  port_eq : p.port = port
  pkt_eq : p.pkt = m
  outputs_eq : p.outputs = sys.outputs D port m
  before_eq : p.before = sys.regs
  after_eq : p.after = (sys.pass D port m).regs

variable {sys : State} {port : BitVec 9} {m : Message} {v : Verdict} {p : Pass}

/-- Whether a packet was absorbed or answered a read is what its verdict says. -/
theorem State.Judged.queue_cases (hv : sys.Judged D port m v) (hp : p.Of D sys port m)
    {c : BitVec 32} (hc : c.toNat < numHotkey) :
    (v = .absorb c ∧ p.absorbedAt c = true ∧ p.servedAt c = false ∧
        ((sys.pass D port m).regs.line c).queue = (sys.regs.line c).queue ++ [m.entry]) ∨
      (∃ x q, v = .serve c x ∧ p.absorbedAt c = false ∧ p.servedAt c = true ∧
        (sys.regs.line c).queue = x :: q ∧ ((sys.pass D port m).regs.line c).queue = q) ∨
      v ≠ .absorb c ∧ p.absorbedAt c = false ∧ p.servedAt c = false ∧
        ((sys.pass D port m).regs.line c).queue = (sys.regs.line c).queue := by
  have hbefore : p.before.pending c = (sys.regs.line c).queue := by
    rw [hp.before_eq, Registers.queue_line]
  have hafter : p.after.pending c = (v.lines m.entry sys.regs.line c).queue := by
    rw [hp.after_eq, ← Registers.queue_line, hv.line c hc]
  rw [hv.line c hc]
  unfold Pass.absorbedAt Pass.servedAt
  rw [hbefore, hafter, hp.pkt_eq]
  rcases hv.case.queue_flags m.entry c with h | h | ⟨hne, -, h⟩
  · exact .inl h
  · exact .inr (.inl h)
  · exact .inr (.inr ⟨hne, h⟩)

/-- A READ of a key that is not VALID is forwarded. -/
theorem State.Judged.forwarded (hv : sys.Judged D port m v)
    (hp : p.Of D sys port m) (hport : D.Listed port) (hread : p.IsRequest D)
    (hvalid : ∀ c, sys.lookup.lookup m.orbitcache.hkey = some c →
      (sys.regs.line c).isValid = false) :
    (∀ c, v ≠ .absorb c) ∧ p.Forwarded D := by
  obtain ⟨horb, hne, hop⟩ := hread
  rw [hp.pkt_eq] at horb hop
  rw [hp.port_eq] at hne
  have hhost : onLoop (sys.tables D) port = false := onLoop_host hport hne
  have hroute : v = .uncached ∨ (∃ c, v = .bypass c) := by
    cases hv.case with
    | plain h => exact absurd horb h
    | absorb _ hl _ _ hs | overflow _ hl _ _ hs =>
      rw [hvalid _ hl] at hs
      cases hs
    | bypass => exact .inr ⟨_, rfl⟩
    | uncached => exact .inl rfl
    | serve _ _ h | idle _ _ h | discard _ h =>
      rw [hhost] at h
      cases h
    | forward _ _ h => exact absurd hop h
    | invalidate _ _ _ h =>
      rw [hop] at h
      exact absurd h (by decide)
    | clone _ _ _ h =>
      rw [hop] at h
      exact absurd h (by decide)
  have houtputs : v.outputs (sys.tables D) port m =
      route (sys.tables D) m.ipv4.dstAddr (m.touched (sys.tables D) port) := by
    rcases hroute with rfl | ⟨c, rfl⟩ <;> rfl
  have heff : effectiveOp (sys.tables D) port m = m.orbitcache.op := by
    rw [effectiveOp, hhost]
    rfl
  refine ⟨fun c hc => ?_, ?_, fun o ho => ?_⟩
  · rcases hroute with rfl | ⟨c', rfl⟩ <;> cases hc
  · rw [hp.outputs_eq, hv.outputs, houtputs, hp.pkt_eq, route, List.map_map, List.map_map]
    exact List.map_id _
  · rw [hp.outputs_eq, hv.outputs, houtputs] at ho
    obtain ⟨o', ho', rfl⟩ := List.mem_map.1 ho
    obtain ⟨_, -, rfl⟩ := List.mem_map.1 ho'
    rw [hp.pkt_eq]
    refine ⟨?_, rfl, rfl⟩
    show ({ m.orbitcache with op := effectiveOp (sys.tables D) port m } : OrbitcacheH) = _
    rw [heff]

section
variable (h : s.Reuse D heapq) (hregs : sys.regs = s.sys.regs)
variable (hlookup : sys.lookup = s.sys.lookup) (hport : D.Listed port)
variable (hv : sys.Judged D port m v) (hp : p.Of D sys port m)
include h hregs hlookup hport hv hp

/-- A queue after a pass: its entries are those of the reads that wait, and the packet that answers
one has its hash. -/
theorem DynState.Reuse.queue_pass {c : BitVec 32} (hc : c.toNat < numHotkey) :
    Fifo.Matched (fun p : Pass => p.pkt.entry) (Answers D)
        ((s.log ++ [p]).filter (Pass.absorbedAt c)) ((s.log ++ [p]).filter (Pass.servedAt c))
        ((sys.pass D port m).regs.line c).queue ∧
      ∀ k, s.sys.lookup.lookup k = some c →
        ∀ x ∈ Fifo.waiting ((s.log ++ [p]).filter (Pass.absorbedAt c))
          ((s.log ++ [p]).filter (Pass.servedAt c)), x.IsRequest D ∧ x.pkt.orbitcache.hkey = k := by
  have hqueue := h.queues c hc
  have hwaiting := fun k => h.waiting k c
  have htable := h.inv.table.staticTable
  rw [← hregs] at hqueue
  unfold DynState.reads DynState.laps at hqueue hwaiting
  rcases hv.queue_cases hp hc with ⟨hvc, habs, hserved, hq⟩ | ⟨x, q, hvc, habs, hserved, hq, hq'⟩ |
    ⟨hvc, habs, hserved, hq⟩
  · rw [Fifo.filter_concat _ habs, Fifo.filter_concat _ hserved, if_pos rfl,
      if_neg Bool.false_ne_true, hq, hqueue.waiting_concat]
    refine ⟨hp.pkt_eq ▸ hqueue.enter p, fun k hk x hx => ?_⟩
    rcases List.mem_append.1 hx with hx | hx
    · exact hwaiting k hk x hx
    · rw [List.mem_singleton.1 hx]
      subst hvc
      cases hv.case with
      | absorb horb hl hhost hop =>
        have hl : s.sys.lookup.lookup m.orbitcache.hkey = some c := hlookup ▸ hl
        have hhost := ne_recirc_of_onLoop hport hhost
        refine ⟨⟨hp.pkt_eq ▸ horb, hp.port_eq ▸ hhost, hp.pkt_eq ▸ hop⟩, ?_⟩
        rw [hp.pkt_eq]
        exact htable.inj _ _ c hl hk
  · rw [Fifo.filter_concat _ habs, Fifo.filter_concat _ hserved, if_neg Bool.false_ne_true,
      if_pos rfl, hq', Fifo.Matched.waiting_take]
    rw [hq] at hqueue
    subst hvc
    cases hv.case with
    | serve _ hl hloop =>
      have hl : s.sys.lookup.lookup m.orbitcache.hkey = some c := hlookup ▸ hl
      refine ⟨hqueue.take fun read hread _ => ?_,
        fun k hk x hx => hwaiting k hk x (List.mem_of_mem_tail hx)⟩
      obtain ⟨hrequest, hkey⟩ := hwaiting _ hl read hread
      refine ⟨hrequest, hp.port_eq.trans (eq_recirc_of_onLoop hport hloop), ?_⟩
      rw [hp.pkt_eq]
      exact hkey
  · rw [Fifo.filter_concat _ habs, Fifo.filter_concat _ hserved, if_neg Bool.false_ne_true,
      if_neg Bool.false_ne_true, hq]
    exact ⟨hqueue, hwaiting⟩

/-- The items that passed, after a pass: only an item makes the state of its key VALID. -/
theorem DynState.Reuse.item_pass {x : Install} (hx : x ∈ s.installs) {c : BitVec 32}
    (hk : s.sys.lookup.lookup x.hkey = some c)
    (hvalid : ((sys.pass D port m).regs.line c).isValid = true) :
    ∃ i w, x.time ≤ i ∧ (s.log ++ [p])[i]? = some w ∧ w.IsItem D x.hkey := by
  have htable := h.inv.table.staticTable
  rw [hv.line c (htable.below _ _ hk)] at hvalid
  rcases Verdict.isValid_lines hvalid with hvalid | rfl
  · obtain ⟨i, w, hi, hw, hitem⟩ := h.item x hx c hk (hregs ▸ hvalid)
    refine ⟨i, w, hi, ?_, hitem⟩
    rw [List.getElem?_append_left (List.getElem?_eq_some_iff.1 hw).1]
    exact hw
  · cases hv.case with
    | clone _ hl hhost hop =>
      have hl : s.sys.lookup.lookup m.orbitcache.hkey = some c := hlookup ▸ hl
      refine ⟨s.log.length, p, h.times x hx, List.getElem?_concat_length, ?_, ?_, ?_⟩
      · exact hp.port_eq ▸ ne_recirc_of_onLoop hport hhost
      · rw [hp.pkt_eq]
        exact htable.inj _ _ c hl hk
      · rw [hp.pkt_eq]
        exact hop

/-- A READ that passes before the item of its key does is forwarded, since the state of its index is
INVALID. -/
theorem DynState.Reuse.withheld_pass {x : Install} (hx : x ∈ s.installs) {j : Nat} {y : Pass}
    (hxj : x.time ≤ j) (hy : (s.log ++ [p])[j]? = some y) (hread : y.IsRequest D)
    (hkey : y.pkt.orbitcache.hkey = x.hkey)
    (hitem : ∀ i w, x.time ≤ i → i < j → (s.log ++ [p])[i]? = some w → ¬ w.IsItem D x.hkey) :
    (∀ c, c.toNat < numHotkey → y.absorbedAt c = false) ∧ y.Forwarded D := by
  have hold : ∀ {i w}, s.log[i]? = some w → (s.log ++ [p])[i]? = some w := fun hw => by
    rw [List.getElem?_append_left (List.getElem?_eq_some_iff.1 hw).1]
    exact hw
  by_cases hj : j < s.log.length
  · rw [List.getElem?_append_left hj] at hy
    exact h.withheld x hx j y hxj hy hread hkey fun i w hi hij hw => hitem i w hi hij (hold hw)
  · have hlt := (List.getElem?_eq_some_iff.1 hy).1
    rw [List.length_append, List.length_singleton] at hlt
    obtain rfl : j = s.log.length := by omega
    rw [List.getElem?_concat_length, Option.some.injEq] at hy
    subst hy
    have hinvalid : ∀ c, sys.lookup.lookup m.orbitcache.hkey = some c →
        (sys.regs.line c).isValid = false := by
      intro c hl
      rw [hp.pkt_eq] at hkey
      rw [hlookup, hkey] at hl
      by_contra hvalid
      rw [Bool.not_eq_false, hregs] at hvalid
      obtain ⟨i, w, hi, hw, hisItem⟩ := h.item x hx c hl hvalid
      exact hitem i w hi (List.getElem?_eq_some_iff.1 hw).1 (hold hw) hisItem
    obtain ⟨hne, hforwarded⟩ := hv.forwarded hp hport hread hinvalid
    refine ⟨fun c hc => ?_, hforwarded⟩
    rcases hv.queue_cases hp hc with ⟨hvc, -⟩ | ⟨_, _, -, habs, -⟩ | ⟨-, habs, -⟩
    · exact absurd hvc (hne c)
    · exact habs
    · exact habs

end

/-- A pass of any packet from a listed port keeps the invariant. -/
theorem DynState.Reuse.pass (h : s.Reuse D heapq) (hregs : sys.regs = s.sys.regs)
    (hlookup : sys.lookup = s.sys.lookup) (htrace : sys.trace = s.sys.trace)
    (hport : D.Listed port) (hinv : (s.passed (sys.pass D port m)).Inv D heapq) :
    (s.passed (sys.pass D port m)).Reuse D heapq := by
  have htable : StaticTable sys.lookup := hlookup ▸ h.inv.table.staticTable
  obtain ⟨v, hv⟩ := State.judged (D := D) htable (hregs ▸ h.inv.wf) port m
  obtain ⟨p, hp, hlog⟩ : ∃ p : Pass, p.Of D sys port m ∧
      (s.passed (sys.pass D port m)).log = s.log ++ [p] :=
    ⟨_, ⟨rfl, rfl, rfl, hregs.symm, rfl⟩, DynState.passed_log (by rw [State.pass, htrace])⟩
  refine ⟨hinv, fun c hc => ?_, fun k c hk => ?_, fun x hx c hk hvalid => ?_,
    fun hplacing c hlen hc => ?_, fun x hx => ?_, fun x hx j y hxj hy hread hkey hitem => ?_⟩
  · rw [DynState.reads, DynState.laps, hlog]
    exact (h.queue_pass hregs hlookup hport hv hp hc).1
  · have hk : s.sys.lookup.lookup k = some c := hlookup ▸ hk
    rw [DynState.reads, DynState.laps, hlog]
    exact (h.queue_pass hregs hlookup hport hv hp (h.inv.table.staticTable.below k c hk)).2 k hk
  · rw [hlog]
    exact h.item_pass hregs hlookup hport hv hp hx (hlookup ▸ hk) hvalid
  · have hcons := h.inv.idle hplacing
    have hline := h.unused hplacing c hlen hc
    show (sys.pass D port m).regs.line c = _
    rw [hv.line c hc, hv.case.lines_of_unused, hregs]
    · exact hline
    · -- the indices in use are below the number of keys
      intro k hk
      have hk : s.round.lookup.lookup k = some c := by
        rw [← h.inv.lookup, ← hlookup]
        exact hk
      obtain ⟨key, hmem, i, -, hi, rfl⟩ := (hcons.lookup_iff k c).1 hk
      have hlen : s.round.keys.length ≤ (BitVec.ofNat 32 i).toNat := hlen
      obtain ⟨i', hi', heq⟩ := hcons.idx_lt_length (Nat.lt_of_le_of_lt hlen hc) key hmem
      rw [hi, Option.some.injEq] at heq
      rw [BitVec.toNat_ofNat] at hlen
      have := Nat.mod_le i (2 ^ 32)
      omega
  · rw [hlog, List.length_append]
    exact Nat.le_add_right_of_le (h.times x hx)
  · rw [hlog] at hy hitem
    exact h.withheld_pass hregs hlookup hport hv hp hx hxj hy hread hkey hitem

/-! ## The steps of the controller -/

/-- What leaves the registers as they were and adds no entry to the table keeps the invariant. -/
theorem DynState.Reuse.congr (h : s.Reuse D heapq) (hinv : s'.Inv D heapq)
    (hregs : s'.sys.regs = s.sys.regs) (hlog : s'.log = s.log)
    (hinstalls : s'.installs = s.installs)
    (hlookup : ∀ k c, s'.sys.lookup.lookup k = some c → s.sys.lookup.lookup k = some c)
    (hunused : s'.placing = none → s.placing = none ∧ s'.round.keys.length = s.round.keys.length) :
    s'.Reuse D heapq := by
  have hreads : s'.reads = s.reads := by unfold DynState.reads; rw [hlog]
  have hlaps : s'.laps = s.laps := by unfold DynState.laps; rw [hlog]
  refine ⟨hinv, ?_, ?_, ?_, ?_, ?_, ?_⟩
  · rw [hreads, hlaps, hregs]
    exact h.queues
  · rw [hreads, hlaps]
    exact fun k c hk => h.waiting k c (hlookup k c hk)
  · rw [hinstalls, hregs, hlog]
    exact fun x hx c hk => h.item x hx c (hlookup _ c hk)
  · intro hplacing c
    obtain ⟨hplacing, hlen⟩ := hunused hplacing
    rw [hlen, hregs]
    exact h.unused hplacing c
  · rw [hinstalls, hlog]
    exact h.times
  · unfold DynState.Withheld
    rw [hinstalls, hlog]
    exact h.withheld

/-- A key is installed at an index that is INVALID and has no pending reads, so nothing of a former
key is left there. -/
theorem DynState.Reuse.install (h : s.Reuse D heapq) (hinv : s'.Inv D heapq)
    (hregs : s'.sys.regs = s.sys.regs) (hlog : s'.log = s.log) {k : Hkey} {c : BitVec 32}
    (hinstalls : s'.installs = s.installs ++ [⟨s.log.length, k⟩])
    (hlookup : s'.sys.lookup = s.sys.lookup.insert k c) (hline : s.sys.regs.line c = ⟨false, []⟩)
    (hunused : s'.placing = none → ∀ c : BitVec 32, s'.round.keys.length ≤ c.toNat →
      c.toNat < numHotkey → s.sys.regs.line c = ⟨false, []⟩) : s'.Reuse D heapq := by
  have hreads : s'.reads = s.reads := by unfold DynState.reads; rw [hlog]
  have hlaps : s'.laps = s.laps := by unfold DynState.laps; rw [hlog]
  have hc : s'.sys.lookup.lookup k = some c := by rw [hlookup, AList.lookup_insert]
  have hcases : ∀ k' c', s'.sys.lookup.lookup k' = some c' →
      c' = c ∨ s.sys.lookup.lookup k' = some c' := by
    intro k' c' hk
    by_cases hkk : k' = k
    · rw [hkk, hc, Option.some.injEq] at hk
      exact .inl hk.symm
    · rw [hlookup, AList.lookup_insert_ne hkk] at hk
      exact .inr hk
  refine ⟨hinv, ?_, fun k' c' hk x hx => ?_, fun x hx c' hk hvalid => ?_, ?_, fun x hx => ?_,
    fun x hx j p hxj hp hread hkey hitem => ?_⟩
  · rw [hreads, hlaps, hregs]
    exact h.queues
  · rw [hreads, hlaps] at hx
    rcases hcases k' c' hk with rfl | hk
    · have hqueue := h.queues c' (hinv.table.staticTable.below _ _ hc)
      rw [hline] at hqueue
      rw [hqueue.waiting_eq_nil] at hx
      cases hx
    · exact h.waiting k' c' hk x hx
  · rw [hregs] at hvalid
    rcases hcases x.hkey c' hk with rfl | hk'
    · rw [hline] at hvalid
      cases hvalid
    · rw [hinstalls, List.mem_append] at hx
      rw [hlog]
      rcases hx with hx | hx
      · exact h.item x hx c' hk' hvalid
      · rw [List.mem_singleton.1 hx, hc, Option.some.injEq] at hk
        rw [← hk, hline] at hvalid
        cases hvalid
  · rw [hregs]
    exact hunused
  · rw [hinstalls, List.mem_append] at hx
    rw [hlog]
    rcases hx with hx | hx
    · exact h.times x hx
    · rw [List.mem_singleton.1 hx]
  · rw [hinstalls, List.mem_append] at hx
    rw [hlog] at hp hitem
    rcases hx with hx | hx
    · exact h.withheld x hx j p hxj hp hread hkey hitem
    · -- nothing has passed since
      rw [List.mem_singleton.1 hx] at hxj
      exact absurd (List.getElem?_eq_some_iff.1 hp).1 (Nat.not_lt.2 hxj)

/-- Every step that vacates the index it reuses keeps the invariant. -/
theorem DynState.Reuse.step (hD : D.Wired) (h : s.Reuse D heapq) {a : DynAction}
    (hvacated : s.Vacated a) (hstep : dynStep D heapq fetchTo s a = some s') :
    s'.Reuse D heapq := by
  have hinv := h.inv.step hD hstep
  cases dynStep_case hstep with
  | @net a sys hsys =>
    cases step_netCase hsys with
    | @pass i port m hm =>
      obtain ⟨hport, -⟩ := h.inv.uplink _ (List.mem_of_getElem? hm)
      exact h.pass rfl rfl rfl hport hinv
    | @recirculate i m => exact h.pass rfl rfl rfl hD.recirc_listed hinv
    | host hregs hlookup htrace =>
      refine h.congr hinv hregs (DynState.passed_log_of_eq htrace) rfl (fun k c hk => ?_)
        fun hplacing => ⟨hplacing, rfl⟩
      rw [← hlookup]
      exact hk
  | begin hplacing hcached =>
    refine h.congr hinv rfl rfl rfl (fun _ _ hk => hk) fun _ => ⟨hplacing, ?_⟩
    obtain ⟨cached', hcached', hperm, -⟩ := Controller.readPopularity_rebuild heapq
      (s := s.controller) (h.inv.idle hplacing).toLookupConsistent _
    rw [hcached, Option.some.injEq] at hcached'
    subst hcached'
    exact hperm.length_eq
  | skip hplacing =>
    exact h.congr hinv rfl rfl rfl (fun _ _ hk => hk) fun _ => ⟨hplacing, rfl⟩
  | @insert _ key _ r hplacing hlen hr =>
    obtain ⟨r', hr', -, hperm, -, hlookup, -⟩ := (h.inv.idle hplacing).insertKey heapq
      (Controller.insertKey_fresh heapq hr) hlen _
    rw [hr, Option.some.injEq] at hr'
    subst hr'
    have hkeys : s.round.keys.length = s.round.hotkeyList.length := List.length_map _
    have hidx : (BitVec.ofNat 32 s.round.hotkeyList.length).toNat = s.round.hotkeyList.length := by
      rw [BitVec.toNat_ofNat]
      exact Nat.mod_eq_of_lt (Nat.lt_trans hlen (by decide))
    refine h.install hinv rfl rfl rfl (hlookup.trans (by rw [h.inv.lookup])) ?_ fun _ c hc hlt => ?_
    · exact h.unused hplacing _ (by rw [hidx, hkeys]) (by rw [hidx]; exact hlen)
    · have hlength := hperm.length_eq
      rw [List.length_cons] at hlength
      have hc : r.keys.length ≤ c.toNat := hc
      exact h.unused hplacing c (by omega) hlt
  | @evict _ head _ _ r _ _ hplacing hlen hhead _ hr =>
    obtain ⟨r', idx', hr', -, -, -, -, -, hlookup, -⟩ :=
      (h.inv.idle hplacing).evictLeast heapq h.inv.heap hlen hhead
    rw [hr, Option.some.injEq] at hr'
    cases hr'
    refine h.congr hinv rfl rfl rfl (fun k c hk => ?_) fun hnone => ?_
    · have hk : r.lookup.lookup k = some c := hk
      rw [h.inv.lookup]
      rw [hlookup] at hk
      by_cases hkk : k = hkey head.2
      · rw [hkk, AList.lookup_erase] at hk
        cases hk
      · rwa [AList.lookup_erase_ne hkk] at hk
    · cases hnone
  | @place p r hplacing hr =>
    have hres := h.inv.placing p hplacing
    obtain ⟨r', hr', -, hperm, -, hlookup, -⟩ := hres.placeKey heapq
      (Controller.placeKey_fresh heapq hr) p.least _
    rw [hr, Option.some.injEq] at hr'
    subst hr'
    refine h.install hinv rfl rfl rfl (hlookup.trans (by rw [h.inv.lookup])) ?_ fun _ c hc hlt => ?_
    · obtain ⟨hstate, hqlen⟩ := hvacated p hplacing
      rw [Registers.line, Registers.pending_eq_nil_iff.2 hqlen, hstate]
      rfl
    · -- all indices are in use again
      have hlength := hperm.length_eq
      rw [List.length_cons, hres.length_eq] at hlength
      have hc : r.keys.length ≤ c.toNat := hc
      omega
  | fetch => exact h.congr hinv rfl rfl rfl (fun _ _ hk => hk) fun hplacing => ⟨hplacing, rfl⟩

variable (D heapq) in
/-- It holds at the start, where no key is installed. -/
theorem DynState.Reuse.start (regs : Registers) (workers : Endpoint → Worker) :
    (DynState.start regs workers).Reuse D heapq where
  inv := .start D heapq regs workers
  queues c hc := by
    have hline : (DynState.start regs workers).sys.regs.line c = ⟨false, []⟩ :=
      Controller.initRegisters_line regs hc
    rw [hline]
    exact .nil
  waiting _ _ hk := by cases hk
  item _ hx := by cases hx
  unused _ c _ hc := Controller.initRegisters_line regs hc
  times _ hx := by cases hx
  withheld _ hx := by cases hx

/-- In every run that vacates each index before it is given to another key, the keys that use an
index one after the other do not meet: a read of the new key is sent to the server or answered with
its own hash. The condition is one on the state before `table_add`. -/
theorem eviction_isolated (hD : D.Wired) {regs : Registers} {workers : Endpoint → Worker}
    (h : Run (dynStep D heapq fetchTo) DynState.Vacated (.start regs workers) s) :
    s.Isolated D := by
  have hreuse : s.Reuse D heapq := h.invariant _ (.start D heapq regs workers)
    fun _ _ _ hinv hguard hstep => hinv.step hD hguard hstep
  have hhashed : s.Hashed D ∧ s.Inv D heapq :=
    h.invariant (fun s => s.Hashed D ∧ s.Inv D heapq)
      ⟨.start D regs workers, .start D heapq regs workers⟩
      fun _ _ _ hinv _ hstep => ⟨hinv.1.step hD hinv.2 hstep, hinv.2.step hD hstep⟩
  refine ⟨hreuse.withheld, fun c hc n lap hlap => ?_⟩
  obtain ⟨read, hread, hanswers⟩ := (hreuse.queues c hc).related n lap hlap
  have hmem : ∀ {f : Pass → Bool} {i : Nat} {p : Pass}, (s.log.filter f)[i]? = some p → p ∈ s.log :=
    fun hp => List.mem_of_mem_filter (List.mem_of_getElem? hp)
  refine ⟨read, hread, hanswers, ?_⟩
  have hop : read.pkt.orbitcache.op ≠ opFetch := by
    rw [hanswers.isRequest.2.2]
    decide
  rw [← hhashed.1.log read (hmem hread) (.inl hop),
    ← hhashed.1.log lap (hmem hlap) (.inr hanswers.isLap)]
  exact hanswers.hkey

end

/-! ## A full cache -/

open Controller (RoundInput staticKeys staticTable newItem staticReports newReport firstRound
  staticReports_fst)

/-- Where the fetches of the controller go when each server has eight workers: to the ports from
1000 on. -/
def clusterFetchTo (key : Str) : Endpoint :=
  let d := Controller.fetchDestination 8 key
  ⟨d.1, BitVec.ofNat 16 d.2⟩

/-- The cluster at the start of that round, when the reports are still to be admitted. -/
def begun : DynState where
  sys := { clusterStart with lookup := ∅ }
  previousHotkeyList := []
  round := ⟨[], ∅, Finset.range Controller.maxHotkey, ∅, []⟩
  todo := staticReports ++ [newReport]
  placing := none
  fetches := []
  log := []
  installs := []

/-- A round in which one key is reported, the last of the static ones. -/
def hotRound : RoundInput := ⟨fun _ => 0, AList.singleton (Controller.tostringKey 127) 1000⟩

/-- The cluster with the dynamic controller before the first message. -/
def dynamicStart : DynState := { begun with todo := [] }

/-- The start of the dynamic system is this state. -/
theorem dynamicStart_eq : DynState.start Controller.zeroRegisters fullWorkers = dynamicStart := by
  rw [DynState.start, State.start, Controller.initRegisters_zeroRegisters]
  rfl

/-- The cluster when the static keys are installed. -/
def filled : DynState := begun.inserted (.ofSorted HotKey.le) staticReports [newReport] staticTable

/-- The controller gets there by itself, one reported key after the other. -/
theorem run_filled : Run (dynStep (cluster 8) (.ofSorted HotKey.le) clusterFetchTo)
    (fun _ a => a = .begin firstRound ∨ a = .admitKey)
    (.start Controller.zeroRegisters fullWorkers) filled := by
  have hbegin : dynStep (cluster 8) (.ofSorted HotKey.le) clusterFetchTo
      dynamicStart (.begin firstRound) = some begun := rfl
  have hlen : staticReports.length = numHotkey := by
    rw [← List.length_map Sigma.fst, staticReports_fst]
    simp [staticKeys]
  have hfit : begun.round.hotkeyList.length + staticReports.length ≤ numHotkey := by
    rw [hlen]
    exact Nat.le_of_eq (Nat.zero_add numHotkey)
  have hhashes : (staticReports.map fun e => hkey e.1).Nodup := by
    have hmap : (staticReports.map fun e => hkey e.1) = staticKeys.map hkey := by
      rw [← staticReports_fst, List.map_map]
      rfl
    rw [hmap]
    exact Controller.staticKeys_nodup
  obtain ⟨t, ht, hrun⟩ := DynState.run_inserts (cluster 8) (.ofSorted HotKey.le) clusterFetchTo
    [newReport] (s := begun) (l := staticReports) rfl rfl rfl
    (fun _ _ => List.not_mem_nil) hfit (Finset.range_eq_Ico _) hhashes
    (fun _ _ => AList.notMem_empty _)
  obtain rfl : t = staticTable := AList.ext (by
    rw [ht, staticReports_fst]
    exact List.append_nil _)
  rw [dynamicStart_eq]
  refine Relation.ReflTransGen.head ⟨_, .inl rfl, hbegin⟩ ?_
  exact hrun.mono fun _ _ h => .inr h

/-- The bytes of the new key, as the hosts have it. -/
def newKey : Bytes := tostringKey (BitVec.ofNat 64 newItem)

/-- The last static key, which was never read, leaves its index to the new key. -/
def earlyEviction : List DynAction :=
  [.admitKey, .place, .net (.send clientA false newKey [] 0), .net (.pass 0)]

/-- A READ of a key that was just installed at the index of another is forwarded: the index was
vacated, and the run is isolated. -/
theorem eviction_isolated_early :
    ∃ s : DynState, (s.log[0]?.map fun p => (p.hit, p.outputs.length)) = some (some 127, 1) ∧
      s.Isolated (cluster 8) := by
  have hD : (cluster 8).Wired := cluster_wired (by decide) (by decide)
  have hexec : (Run.exec (dynStep (cluster 8) (.ofSorted HotKey.le) clusterFetchTo)
      (fun s a => decide (s.Vacated a)) filled earlyEviction).any
        (fun s =>
          decide ((s.log[0]?.map fun p => (p.hit, p.outputs.length)) = some (some 127, 1))) =
          true := by
    decide +kernel
  obtain ⟨s, hrun, hs⟩ := Run.exists_of_exec (fun _ _ => of_decide_eq_true) _ _ hexec
  have hfilled : Run (dynStep (cluster 8) (.ofSorted HotKey.le) clusterFetchTo) DynState.Vacated
      (.start Controller.zeroRegisters fullWorkers) filled := run_filled.mono fun s a ha => by
    rcases ha with rfl | rfl <;> trivial
  exact ⟨s, of_decide_eq_true hs, eviction_isolated hD (hfilled.trans hrun)⟩

/-- The last static key is preloaded and read, and its index goes to the new key, which is read,
written and served. -/
def lateEviction : List DynAction :=
  [.net preloadHotKey, .net (.pass 0), .net (.send clientA false hotKey [] 0), .net (.pass 0),
   .admitKey, .place,
   .net (.send clientA false newKey [] 0), .net (.pass 0),
   .net (.send clientA true newKey [byteA] 0), .net (.pass 0), .net (.serve 1 []), .net (.pass 0),
   .net (.recirculate 1)]

/-- The third packet is a READ of the new key that is absorbed at the index before its item has
passed, and the packet that answers the first READ of the index carries the new key. -/
def DynState.IsMixed (D : Deployment) (s : DynState) : Bool :=
  let c : BitVec 32 := 127
  (s.installs[128]?.any fun x => x.time == 2 && s.log[2]?.any fun p =>
    decide p.pkt.IsOrbitcache && p.port != D.recirc && p.pkt.orbitcache.op == opRead &&
    p.pkt.orbitcache.hkey == x.hkey && p.absorbedAt c) &&
  (s.laps c)[0]?.any fun lap => (s.reads c)[0]?.any fun read =>
    read.pkt.orbitcache.hkey != lap.pkt.orbitcache.hkey

/-- The eviction branch does not see to the condition, and keys that use an index one after the
other do meet. -/
theorem eviction_not_isolated :
    ∃ s, Run (dynStep (cluster 8) (.ofSorted HotKey.le) clusterFetchTo) (fun _ _ => True)
        (.start Controller.zeroRegisters fullWorkers) s ∧
      ¬ s.Withheld (cluster 8) ∧ ¬ s.Matched (cluster 8) ∧ ¬ s.Isolated (cluster 8) := by
  have hexec : (Run.exec (dynStep (cluster 8) (.ofSorted HotKey.le) clusterFetchTo)
      (fun _ _ => true) filled lateEviction).any (DynState.IsMixed (cluster 8)) = true := by
    decide +kernel
  obtain ⟨s, hrun, hs⟩ := Run.exists_of_exec_true _ _ hexec
  have hfilled := run_filled.unguarded
  simp only [DynState.IsMixed, Bool.and_eq_true, Option.any_eq_true, bne_iff_ne, beq_iff_eq,
    decide_eq_true_eq] at hs
  obtain ⟨⟨x, hx, htime, p, hp, ⟨⟨⟨horb, hport⟩, hop⟩, hkey⟩, habsorbed⟩,
    lap, hlap, read, hread, hne⟩ := hs
  have hwithheld : ¬ s.Withheld (cluster 8) := by
    intro h
    obtain ⟨hfree, -⟩ := h x (List.mem_of_getElem? hx) 2 p htime.le hp ⟨horb, hport, hop⟩ hkey
      fun i w hi hi2 => absurd (htime ▸ hi) (Nat.not_le.2 hi2)
    rw [hfree 127 (by decide)] at habsorbed
    cases habsorbed
  have hmatched : ¬ s.Matched (cluster 8) := by
    intro h
    obtain ⟨read', hread', hanswers, -⟩ := h 127 (by decide) 0 lap hlap
    rw [hread, Option.some.injEq] at hread'
    exact hne (hread' ▸ hanswers.hkey)
  exact ⟨s, hfilled.trans hrun, hwithheld, hmatched, fun h => hwithheld h.withheld⟩

end OrbitCache
