import Mathlib.Algebra.BigOperators.Group.Finset.Basic
import OrbitCache.System.Cluster
import OrbitCache.System.Requests

/-!
# Corrections

A cache reply may carry another key with the same hash, and the client then asks the worker for its
own. Each request is corrected at most once: the chances of a request to be corrected, which are the
READ on its way to the switch, the pending read and the cache reply on its way to the client, and
the corrections themselves are never more than one (`State.chances`).
-/

namespace OrbitCache

open Controller (LookupTable numHotkey StaticTable)

/-- The pending read is one of the request, by the socket of the client and the sequence number. -/
def Pending.belongs (client : Endpoint) (seq : BitVec 32) (e : Pending) : Bool :=
  (⟨e.clientIP, e.udpPort⟩ : Endpoint) == client && e.seq == seq

/-- The message is the READ of the request. -/
def Packet.isReadOf (client : Endpoint) (seq : BitVec 32) (m : Message) : Bool :=
  m.orbitcache.op == opRead && m.entry.belongs client seq

/-- The message is a cache reply to the request, whatever key it carries. -/
def Packet.isCacheReplyTo (client : Endpoint) (seq : BitVec 32) (m : Message) : Bool :=
  m.orbitcache.op == opRReply && m.orbitcache.cached == 1 && m.target == client &&
    m.orbitcache.seq == seq

/-- The client corrected the request, on receiving this message. -/
def Receipt.isCorrectionOf (client : Endpoint) (seq : BitVec 32) (r : Receipt) : Bool :=
  r.correction.isSome && r.client == client && r.message.orbitcache.seq == seq

/-- The pending reads of a request, over the queues of all indices. -/
def queued (ls : BitVec 32 → Line) (client : Endpoint) (seq : BitVec 32) : Nat :=
  ∑ i ∈ Finset.range numHotkey, (ls (BitVec.ofNat 32 i)).queue.countP (Pending.belongs client seq)

/-- The corrections of a request that its client has sent. -/
def State.corrections (s : State) (client : Endpoint) (seq : BitVec 32) : Nat :=
  s.receipts.countP (Receipt.isCorrectionOf client seq)

/-- The chances of a request to be corrected, and its corrections: a READ on an uplink, a pending
read, a cache reply on the wire. Each stage turns into the next one. -/
def State.chances (s : State) (client : Endpoint) (seq : BitVec 32) : Nat :=
  s.uplink.countP (fun e => e.2.isReadOf client seq) + queued s.regs.line client seq +
    s.wire.countP (Packet.isCacheReplyTo client seq) + s.corrections client seq

/-! ## Pending reads -/

section
variable {ls : BitVec 32 → Line} {client : Endpoint} {seq : BitVec 32} {c : BitVec 32}

variable (ls client seq) in
/-- A line that changes: the pending reads of the other lines stay. -/
theorem queued_update (hc : c.toNat < numHotkey) (b : Bool) (q : List Pending) :
    queued (Function.update ls c ⟨b, q⟩) client seq +
        (ls c).queue.countP (Pending.belongs client seq) =
      queued ls client seq + q.countP (Pending.belongs client seq) := by
  have hmem : c.toNat ∈ Finset.range numHotkey := Finset.mem_range.2 hc
  have hself : BitVec.ofNat 32 c.toNat = c := by rw [BitVec.ofNat_toNat, BitVec.setWidth_eq]
  have hrest : ∑ i ∈ (Finset.range numHotkey).erase c.toNat,
        (Function.update ls c ⟨b, q⟩ (BitVec.ofNat 32 i)).queue.countP
            (Pending.belongs client seq) =
      ∑ i ∈ (Finset.range numHotkey).erase c.toNat,
        (ls (BitVec.ofNat 32 i)).queue.countP (Pending.belongs client seq) := by
    refine Finset.sum_congr rfl fun i hi => ?_
    obtain ⟨hne, hi⟩ := Finset.mem_erase.1 hi
    rw [Function.update_of_ne fun heq => hne ?_]
    rw [← heq, BitVec.toNat_ofNat]
    exact (Nat.mod_eq_of_lt (Nat.lt_trans (Finset.mem_range.1 hi) (by decide))).symm
  unfold queued
  rw [← Finset.add_sum_erase _ _ hmem, ← Finset.add_sum_erase _ _ hmem, hrest, hself,
    Function.update_self]
  show q.countP (Pending.belongs client seq) + _ + _ = _
  omega

/-- A line whose queue does not change, while its state may. -/
theorem queued_update_valid (hc : c.toNat < numHotkey) (b : Bool) :
    queued (Function.update ls c ⟨b, (ls c).queue⟩) client seq = queued ls client seq :=
  Nat.add_right_cancel (queued_update ls client seq hc b _)

end

/-! ## One packet through the switch -/

section
variable {D : Deployment} {s s' : State} {client : Endpoint} {seq : BitVec 32}

variable (client seq) in
/-- A request gains a pending read only by its READ, and at most one. -/
theorem VerdictCase.queued_le {t : Tables} {port : BitVec 9} {ls : BitVec 32 → Line} {m : Message}
    {v : Verdict} (hv : VerdictCase t port ls m v) (ht : t.IndexBelow numHotkey) :
    queued (v.lines m.entry ls) client seq ≤
      queued ls client seq + if m.isReadOf client seq then 1 else 0 := by
  cases hv with
  | plain | overflow | bypass | uncached | idle | discard | forward => exact Nat.le_add_right _ _
  | @absorb c _ hl _ hop =>
    have hupdate := queued_update ls client seq (ht _ c hl) (ls c).isValid
      ((ls c).queue ++ [m.entry])
    rw [List.countP_append, List.countP_singleton] at hupdate
    have hread : m.isReadOf client seq = m.entry.belongs client seq := by
      rw [Packet.isReadOf, hop]
      rfl
    rw [hread]
    simp only [Verdict.lines]
    omega
  | @serve c e q _ hl _ _ hq =>
    have hupdate := queued_update ls client seq (ht _ c hl) (ls c).isValid (ls c).queue.tail
    have htail := (List.tail_sublist (ls c).queue).countP_le (p := Pending.belongs client seq)
    simp only [Verdict.lines]
    omega
  | invalidate _ hl | clone _ hl =>
    exact Nat.le_add_right_of_le (Nat.le_of_eq (queued_update_valid (ht _ _ hl) _))

variable (client seq) in
/-- A cache packet turns a pending read into a cache reply: the queue loses what the wire gains. -/
theorem VerdictCase.queued_loop_le {t : Tables} {port : BitVec 9} {ls : BitVec 32 → Line}
    {m : Message} {v : Verdict} (hv : VerdictCase t port ls m v) (ht : t.IndexBelow numHotkey)
    (horb : m.IsOrbitcache) (hp : onLoop t port = true) :
    queued (v.lines m.entry ls) client seq +
        (v.delivered t port m).countP (Packet.isCacheReplyTo client seq) ≤
      queued ls client seq := by
  cases hv.loopCase hp with
  | plain h => exact absurd horb h
  | idle | discard => exact (Nat.add_zero _).le
  | @serve c e q hl _ hq =>
    have hupdate := queued_update ls client seq (ht _ c hl) (ls c).isValid (ls c).queue.tail
    have hone : ∀ x : Message, x.target = ⟨e.clientIP, e.udpPort⟩ → x.orbitcache.seq = e.seq →
        [x].countP (Packet.isCacheReplyTo client seq) ≤
          if Pending.belongs client seq e then 1 else 0 := by
      intro x htarget hseq
      rw [List.countP_singleton, Packet.isCacheReplyTo, Pending.belongs, htarget, hseq]
      split <;> split <;> simp_all
    have hreply := hone ((m.touched t port).answer t e) rfl rfl
    rw [hq, List.tail_cons, List.countP_cons] at hupdate
    simp only [Verdict.lines, Verdict.delivered, hq, List.tail_cons] at hreply ⊢
    omega

variable (client seq) in
/-- What the copies of a packet add to the cache replies on the wire. -/
theorem State.Passes.countP_wire {port : BitVec 9} {m : Message} {v : Verdict}
    (hv : s.Passes D port m v) :
    (s.pass D port m).wire.countP (Packet.isCacheReplyTo client seq) =
      s.wire.countP (Packet.isCacheReplyTo client seq) +
        (v.delivered (s.tables D) port m).countP (Packet.isCacheReplyTo client seq) := by
  rw [State.pass, hv.delivered, List.countP_append, List.countP_map]
  rfl

/-- The copies of a packet from a host are no cache replies, since hosts do not set that mark on an
R_REPLY. -/
theorem State.Passes.countP_host {port : BitVec 9} {m : Message} {v : Verdict}
    (hv : s.Passes D port m v) (hport : D.Listed port) (hp : port ≠ D.recirc)
    (hok : MessageOk D m) (hmark : m.orbitcache.op = opRReply → m.orbitcache.cached ≠ 1) :
    (v.delivered (s.tables D) port m).countP (Packet.isCacheReplyTo client seq) = 0 := by
  refine List.countP_eq_zero.2 fun x hx hmatch => ?_
  simp only [Packet.isCacheReplyTo, Bool.and_eq_true, beq_iff_eq] at hmatch
  obtain ⟨⟨⟨hop, hcached⟩, -⟩, -⟩ := hmatch
  have hmop : m.orbitcache.op = opRReply := by
    have hxop := (hv.case.mem_delivered hok.isOrbitcache hx).1
    rw [← hop, hxop]
    exact (effectiveOp_host hport hp).symm
  cases hv.case with
  | plain horb => exact absurd hok.isOrbitcache horb
  | absorb | discard | idle => cases hx
  | overflow _ _ _ h | bypass _ _ _ h | uncached _ _ _ h | invalidate _ _ _ h =>
    rw [hmop] at h
    exact absurd h (by decide)
  | serve _ _ hl =>
    exact absurd (eq_recirc_of_onLoop hport hl) hp
  | forward | clone =>
    rw [List.mem_singleton.1 hx] at hcached
    exact hmark hmop hcached

variable (client seq) in
/-- A message from a host that passes the switch may turn from a READ to a pending read. -/
theorem State.chances_pass_host (hD : D.Wired) (hflow : Flow D s) {port : BitVec 9} {m : Message}
    (hport : D.Listed port) (hp : port ≠ D.recirc) (hok : MessageOk D m)
    (hmark : m.orbitcache.op = opRReply → m.orbitcache.cached ≠ 1) :
    (s.pass D port m).chances client seq ≤
      s.chances client seq + if m.isReadOf client seq then 1 else 0 := by
  obtain ⟨v, hv⟩ := hflow.passes hD hport hok
  have hwire := hv.countP_wire client seq
  rw [hv.countP_host hport hp hok hmark] at hwire
  have hlines : queued (s.pass D port m).regs.line client seq =
      queued (v.lines m.entry s.regs.line) client seq := by
    refine Finset.sum_congr rfl fun i hi => ?_
    rw [hv.line]
    exact Nat.lt_of_le_of_lt (Nat.mod_le _ _) (Finset.mem_range.1 hi)
  have hqueued := hv.case.queued_le client seq
    (hflow.table.indexBelow D.tables)
  unfold State.chances
  rw [hlines, hwire]
  have huplink : (s.pass D port m).uplink = s.uplink := rfl
  have hcorrections : (s.pass D port m).corrections client seq = s.corrections client seq := rfl
  rw [huplink, hcorrections]
  omega

variable (client seq) in
/-- A cache packet that passes the switch may turn a pending read into a cache reply. -/
theorem State.chances_pass_loop (hD : D.Wired) (hflow : Flow D s) {m : Message}
    (hok : MessageOk D m) : (s.pass D D.recirc m).chances client seq ≤ s.chances client seq := by
  have hloop : onLoop (s.tables D) D.recirc = true := onLoop_recirc hD
  obtain ⟨v, hv⟩ := hflow.passes hD hD.recirc_listed hok
  have hwire := hv.countP_wire client seq
  have hlines : queued (s.pass D D.recirc m).regs.line client seq =
      queued (v.lines m.entry s.regs.line) client seq := by
    refine Finset.sum_congr rfl fun i hi => ?_
    rw [hv.line]
    exact Nat.lt_of_le_of_lt (Nat.mod_le _ _) (Finset.mem_range.1 hi)
  have hqueued := hv.case.queued_loop_le client seq
    (hflow.table.indexBelow D.tables) hok.isOrbitcache hloop
  unfold State.chances
  rw [hlines, hwire]
  have huplink : (s.pass D D.recirc m).uplink = s.uplink := rfl
  have hcorrections : (s.pass D D.recirc m).corrections client seq = s.corrections client seq := rfl
  rw [huplink, hcorrections]
  omega

/-! ## Runs -/

/-- The requests have no more chances to be corrected than there are requests. -/
structure Frugal (D : Deployment) (s : State) : Prop where
  attributed : Attributed D s
  chances : ∀ client seq, s.chances client seq ≤ s.requests client seq

/-- A message with another operation is no READ. -/
theorem Packet.isReadOf_of_ne {m : Message} (h : m.orbitcache.op ≠ opRead) :
    m.isReadOf client seq = false := by
  rw [Packet.isReadOf, beq_eq_false_iff_ne.2 h, Bool.false_and]

/-- A message that is put on an uplink and is no READ adds no chance. -/
theorem countP_emit {l : List (BitVec 9 × Message)} {port : BitVec 9} {m : Message}
    (h : m.orbitcache.op ≠ opRead) :
    (l ++ [(port, m)]).countP (fun e => e.2.isReadOf client seq) =
      l.countP fun e => e.2.isReadOf client seq := by
  rw [List.countP_append, List.countP_singleton]
  simp only [Packet.isReadOf_of_ne h, Bool.false_eq_true, if_false, Nat.add_zero]

/-- What a step does besides a pass, when it sends no READ and corrects nothing. -/
theorem State.chances_le (port : BitVec 9) (m : Message) (hregs : s'.regs = s.regs)
    (hwire : List.Sublist s'.wire s.wire)
    (huplink : s'.uplink = s.uplink ∨
      s'.uplink = s.uplink ++ [(port, m)] ∧ m.orbitcache.op ≠ opRead)
    (hcorrections : s'.corrections client seq = s.corrections client seq) :
    s'.chances client seq ≤ s.chances client seq := by
  have hwire := hwire.countP_le (p := Packet.isCacheReplyTo client seq)
  have huplink : s'.uplink.countP (fun e => e.2.isReadOf client seq) =
      s.uplink.countP fun e => e.2.isReadOf client seq := by
    rcases huplink with huplink | ⟨huplink, hop⟩ <;> rw [huplink]
    exact countP_emit hop
  unfold State.chances
  rw [hregs, huplink, hcorrections]
  omega

/-- A receipt that corrects nothing leaves the number of corrections. -/
theorem State.corrections_append_none {m : Message} {ep : Endpoint}
    (h : s'.receipts = s.receipts ++ [⟨ep, m, none⟩]) :
    s'.corrections client seq = s.corrections client seq := by
  rw [State.corrections, h, List.countP_append]
  rfl

/-- A client corrects a cache reply: the reply is taken off the wire and the correction is counted.
-/
theorem State.chances_correct {i : Nat} {m c : Message} {port : BitVec 9}
    (hm : s.wire[i]? = some m) (hop : m.orbitcache.op = opRReply)
    (hcached : m.orbitcache.cached = 1) (hread : c.orbitcache.op ≠ opRead) :
    State.chances { s with
      wire := s.wire.eraseIdx i
      receipts := s.receipts ++ [⟨m.target, m, some c⟩]
      uplink := s.uplink ++ [(port, c)] } client seq = s.chances client seq := by
  have hwire := Channel.countP_eq hm (Packet.isCacheReplyTo client seq)
  have hreply : m.isCacheReplyTo client seq =
      Receipt.isCorrectionOf client seq ⟨m.target, m, some c⟩ := by
    rw [Packet.isCacheReplyTo, hop, hcached]
    rfl
  simp only [State.chances, State.corrections, countP_emit hread, List.countP_append,
    List.countP_singleton, ← hreply]
  omega

/-- A client sends a request, which gets one chance if it is a READ. -/
theorem State.chances_send {cl : Endpoint} {isWrite : Bool} {key value : Bytes}
    {latency : BitVec 32} {port : BitVec 9} (h : s.chances client seq ≤ s.requests client seq) :
    (s.send D cl isWrite key value latency port).chances client seq ≤
      (s.send D cl isWrite key value latency port).requests client seq := by
  have hrequests : (s.send D cl isWrite key value latency port).requests client seq =
      s.requests client seq +
        if (cl == client && (s.clients cl).seqGlobal == seq) = true then 1 else 0 := by
    rw [State.requests, State.send, List.countP_append, List.countP_singleton]
    rfl
  have huplink : (s.send D cl isWrite key value latency port).uplink.countP
      (fun e => e.2.isReadOf client seq) ≤ s.uplink.countP (fun e => e.2.isReadOf client seq) +
        if (cl == client && (s.clients cl).seqGlobal == seq) = true then 1 else 0 := by
    rw [State.send, List.countP_append, List.countP_singleton]
    refine Nat.add_le_add_left ?_ _
    cases isWrite with
    | false => exact Nat.le_refl _
    | true => exact Nat.zero_le _
  unfold State.chances at h ⊢
  rw [hrequests]
  show _ + queued s.regs.line client seq + s.wire.countP _ + s.corrections client seq ≤ _
  omega

/-- A step of a limited client keeps the invariant, by the cases of a step. -/
theorem Frugal.step (hD : D.Wired) {a : Action} (h : Frugal D s) (hlimit : Limited s a)
    (hstep : OrbitCache.step D s a = some s') : Frugal D s' := by
  refine ⟨h.attributed.step hD hlimit hstep, fun client seq => ?_⟩
  have hchances := h.chances client seq
  have hflow := h.attributed.flow
  cases step_case hstep with
  | send => exact State.chances_send hchances
  | @pass i port m hm =>
    have hmem := List.mem_of_getElem? hm
    obtain ⟨hport, hp, hok⟩ := hflow.uplink _ hmem
    have herase : Flow D { s with uplink := s.uplink.eraseIdx i } :=
      hflow.congr rfl rfl (List.Subset.refl _) (List.Subset.refl _)
        fun e he => .inl (List.mem_of_mem_eraseIdx he)
    have hpass := State.chances_pass_host client seq hD herase hport hp hok
      (h.attributed.unmarked _ hmem)
    refine Nat.le_trans hpass (Nat.le_trans (Nat.le_of_eq ?_) hchances)
    have huplink := Channel.countP_eq hm fun e => e.2.isReadOf client seq
    simp only [State.chances, State.corrections, huplink]
    omega
  | @recirculate i m hm =>
    have hmem := List.mem_of_getElem? hm
    have herase : Flow D { s with loop := s.loop.eraseIdx i } :=
      hflow.congr rfl rfl List.eraseIdx_subset (List.Subset.refl _) fun e he => .inl he
    have hpass := State.chances_pass_loop client seq hD herase
      (hflow.loop m hmem)
    exact Nat.le_trans hpass hchances
  | @reply i m junk w rh rb port hm hserver hcase =>
    refine Nat.le_trans (State.chances_le (s := s) port _ rfl (List.eraseIdx_sublist _ _)
      (.inr ⟨rfl, ?_⟩) rfl) hchances
    cases hcase with
    | read => exact show ¬ (opRReply : BitVec 8) = opRead by decide
    | fetch => exact show ¬ (opFReply : BitVec 8) = opRead by decide
    | write | writeNoFetch => exact show ¬ (opWReply : BitVec 8) = opRead by decide
  | @ignore i m =>
    refine Nat.le_trans (State.chances_le (s := s) 0 m rfl (List.eraseIdx_sublist _ _)
      (.inl rfl) rfl) hchances
  | @receive i m =>
    refine Nat.le_trans (State.chances_le (s := s) 0 m rfl (List.eraseIdx_sublist _ _)
      (.inl rfl) ?_) hchances
    exact State.corrections_append_none rfl
  | @correct i m latency c port hm hclient hrx =>
    obtain ⟨hop, hcached, key, -, -, rfl⟩ := Client.rx_some hrx
    exact Nat.le_trans (Nat.le_of_eq (State.chances_correct hm hop hcached
      (show ¬ (opCrctn : BitVec 8) = opRead by decide))) hchances
  | preload =>
    exact Nat.le_trans (State.chances_le (s := s) _ _ rfl (List.Sublist.refl _)
      (.inr ⟨rfl, show ¬ (opWReply : BitVec 8) = opRead by decide⟩) rfl) hchances

/-- It holds at the start, where there are no requests. -/
theorem Frugal.start (D : Deployment) (regs : Registers) {lookup : LookupTable}
    (htable : StaticTable lookup) (workers : Endpoint → Worker) :
    Frugal D (.start regs lookup workers) := by
  refine ⟨.start D regs htable workers, fun client seq => Nat.le_of_eq ?_⟩
  have hqueued : queued (State.start regs lookup workers).regs.line client seq = 0 := by
    refine Finset.sum_eq_zero fun i hi => ?_
    have hline : (State.start regs lookup workers).regs.line (BitVec.ofNat 32 i) = ⟨false, []⟩ :=
      Controller.initRegisters_line regs
        (Nat.lt_of_le_of_lt (Nat.mod_le _ _) (Finset.mem_range.1 hi))
    rw [hline]
    rfl
  unfold State.chances
  rw [hqueued]
  rfl

/-- A step in which a client receives a message records it, and puts the correction, if there is
one, and nothing else on the uplink. -/
theorem State.receive_uplink {D : Deployment} {s s' : State} {i : Nat} {latency : BitVec 32}
    (hstep : OrbitCache.step D s (.receive i latency) = some s') :
    ∃ r, s'.receipts = s.receipts ++ [r] ∧
      s'.uplink.map Prod.snd = s.uplink.map Prod.snd ++ r.correction.toList := by
  cases step_case hstep with
  | receive => exact ⟨_, rfl, (List.append_nil _).symm⟩
  | correct => exact ⟨_, rfl, List.map_append⟩

/-- No client takes a wrong item: an R_REPLY that is not corrected carries the key of its request,
one that carries another key is corrected with that key and the same sequence number, and every
request is corrected at most once. No message makes a client read a null pointer, and a correction
is put on the uplink in the step that receives the reply. -/
structure State.NoWrongItem (D : Deployment) (s : State) : Prop where
  received : ∀ r ∈ s.receipts, r.message.orbitcache.op = opRReply → s.Received D r
  unique : ∀ client seq key key', ⟨client, seq, key⟩ ∈ s.sent → ⟨client, seq, key'⟩ ∈ s.sent →
    key' = key
  once : ∀ client seq, s.corrections client seq ≤ 1
  handled : ∀ i m latency, s.wire[i]? = some m → D.isClient m.target = true →
    (OrbitCache.step D s (.receive i latency)).isSome = true
  resent : ∀ i latency s', OrbitCache.step D s (.receive i latency) = some s' →
    ∃ r, s'.receipts = s.receipts ++ [r] ∧
      s'.uplink.map Prod.snd = s.uplink.map Prod.snd ++ r.correction.toList

/-- Over every run, whatever keys share a hash, no client takes a wrong item: none of the lemmas
asks for distinct hashes. A client that gets another key's item sends one correction, for its own
key and with the number of its request. -/
theorem no_wrong_item (hD : D.Wired) {regs : Registers} {lookup : LookupTable}
    (htable : StaticTable lookup) {workers : Endpoint → Worker}
    (h : Run (OrbitCache.step D) Limited (.start regs lookup workers) s) : s.NoWrongItem D := by
  have hfrugal : Frugal D s := h.invariant _ (.start D regs htable workers)
    fun _ _ _ hinv hlimit hstep => hinv.step hD hlimit hstep
  have hattributed := hfrugal.attributed
  refine ⟨hattributed.receipts, fun _ _ _ _ hx hx' => hattributed.ledger.unique hx hx',
    fun client seq => ?_, fun i m latency hm hclient => ?_, fun i latency s' =>
    State.receive_uplink⟩
  · have hchances := hfrugal.chances client seq
    have honce := hattributed.ledger.once client seq
    unfold State.chances at hchances
    omega
  · have hrx := (hattributed.rx (hattributed.wire m (List.mem_of_getElem? hm)) latency).1
    obtain ⟨r, hr⟩ := Option.ne_none_iff_exists'.1 hrx
    obtain ⟨port, hport⟩ := Option.isSome_iff_exists.1 (hD.client_ingress _ hclient)
    have hport : D.tables.ingress m.ipv4.dstAddr = some port := hport
    have hstep : OrbitCache.step D s (.receive i latency) =
        State.receive D { s with wire := s.wire.eraseIdx i } m latency := by
      simp [OrbitCache.step, hm, hclient]
    rw [hstep]
    cases r with
    | none => simp [State.receive, hr]
    | some c => simp [State.receive, hr, hport]

end

/-- The laws of a deployment do not depend on its hash function. -/
theorem Deployment.Wired.withHash {D : Deployment} (h : D.Wired) (hash : Bytes → Hkey) :
    Deployment.Wired { D with hash := hash } :=
  ⟨h.entry, h.recirc_listed, h.host, h.dest_server, h.server_ingress, h.client_ingress,
    h.server_port, h.client_port, h.disjoint⟩

/-- The cluster with a hash function under which all keys collide. -/
def collidingCluster : Deployment :=
  { cluster 8 with hash := fun _ => (cluster 8).hash hotKey }

/-- A READ of another key than the preloaded one is answered with that key, corrected, and answered
by the worker. -/
def collidingRead : List Action :=
  [preloadHotKey, .pass 0, .send clientA false [66] [] 0, .pass 0, .recirculate 0, .receive 1 0,
    .pass 0, .serve 1 [], .pass 0, .receive 1 0]

/-- The wrong item is corrected and the right one is not. -/
theorem no_wrong_item_colliding :
    ∃ s : State, (s.receipts.map fun r => (r.message.payload.orgKey, r.correction.isSome)) =
      [(hotKey, true), ([66], false)] ∧ s.NoWrongItem collidingCluster := by
  have hexec : (Run.exec (step collidingCluster) (fun s a => decide (Limited s a)) clusterStart
      collidingRead).any (fun s => decide
        ((s.receipts.map fun r => (r.message.payload.orgKey, r.correction.isSome)) =
          [(hotKey, true), ([66], false)])) = true := by
    decide +kernel
  have hD : collidingCluster.Wired := (cluster_wired (by decide) (by decide)).withHash _
  obtain ⟨s, hrun, hs⟩ := Run.exists_of_exec (fun _ _ => of_decide_eq_true) _ _ hexec
  rw [← clusterStart_eq] at hrun
  exact ⟨s, of_decide_eq_true hs,
    no_wrong_item hD Controller.staticTable_staticTable hrun⟩

end OrbitCache
