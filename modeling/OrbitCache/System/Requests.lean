import OrbitCache.Lib.Channel
import OrbitCache.System.Flow

/-!
# Requests and their replies

Which request each message in flight belongs to. A client remembers the key of every request it sent
(`Ledger`), a message from a worker that the client does not check carries the key of its request,
and every cache packet is marked so that the client checks it (`Attributed`).
-/

namespace OrbitCache

open Controller (LookupTable numHotkey StaticTable)

/-- The number of requests a client has sent, which its counter `seq_global` keeps. -/
def State.sentBy (s : State) (client : Endpoint) : Nat := s.sent.countP fun x => x.client == client

/-- The number of requests a client has sent with a sequence number, which is to be at most one. -/
def State.requests (s : State) (client : Endpoint) (seq : BitVec 32) : Nat :=
  s.sent.countP fun x => x.client == client && x.seq == seq

/-- The condition on a step: a client sends at most `MAX_SEQ_HDRS` requests, as many as its table
has slots. -/
def Limited (s : State) : Action → Prop
  | .send client .. => s.sentBy client < maxSeqHdrs
  | .pass _ | .recirculate _ | .serve .. | .receive .. | .preload .. => True

instance (s : State) : ∀ a, Decidable (Limited s a)
  | .send .. => inferInstanceAs (Decidable (_ < _))
  | .pass _ | .recirculate _ | .serve .. | .receive .. | .preload .. =>
    inferInstanceAs (Decidable True)

/-! ## What the clients remember -/

/-- Sequence numbers count the requests of a client, and `seq_get` finds the key of each: no slot of
the table has been taken twice. -/
structure Ledger (D : Deployment) (s : State) : Prop where
  next : ∀ client, (s.clients client).seqGlobal.toNat = s.sentBy client
  limit : ∀ client, s.sentBy client ≤ maxSeqHdrs
  below : ∀ x ∈ s.sent, x.seq.toNat < s.sentBy x.client
  stored : ∀ x ∈ s.sent, (s.clients x.client).seqGet x.seq = some x.key
  short : ∀ x ∈ s.sent, x.key.length < keySize
  client : ∀ x ∈ s.sent, D.isClient x.client = true
  once : ∀ client seq, s.requests client seq ≤ 1

/-- `seq_get` after `seq_put` of the same request finds the key, cut to what a slot holds. -/
theorem Client.seqGet_seqPut (c : Client) (seq : BitVec 32) (key : Bytes) :
    (c.seqPut seq key).seqGet seq = some (key.take (keySize - 1)) := by
  simp [seqGet, seqPut]

/-- `seq_get` after `seq_put` of a request in another slot finds what it found before. -/
theorem Client.seqGet_seqPut_of_ne (c : Client) {seq seq' : BitVec 32} (key : Bytes)
    (h : seq'.toNat % maxSeqHdrs ≠ seq.toNat % maxSeqHdrs) :
    (c.seqPut seq key).seqGet seq' = c.seqGet seq' := by
  simp [seqGet, seqPut, Function.update_of_ne h]

section
variable {D : Deployment} {s s' : State}

/-- A step in which no client sends a request leaves the ledger as it is. -/
theorem Ledger.congr (h : Ledger D s) (hclients : s'.clients = s.clients)
    (hsent : s'.sent = s.sent) : Ledger D s' := by
  have hby : s'.sentBy = s.sentBy := by unfold State.sentBy; rw [hsent]
  have hreq : s'.requests = s.requests := by unfold State.requests; rw [hsent]
  refine ⟨?_, ?_, ?_, ?_, ?_, ?_, ?_⟩
  · rw [hclients, hby]; exact h.next
  · rw [hby]; exact h.limit
  · rw [hsent, hby]; exact h.below
  · rw [hsent, hclients]; exact h.stored
  · rw [hsent]; exact h.short
  · rw [hsent]; exact h.client
  · rw [hreq]; exact h.once

variable {client : Endpoint} {isWrite : Bool} {key value : Bytes} {latency : BitVec 32}
variable {port : BitVec 9}

/-- The requests of the clients after a request of one of them: one more of that client. -/
theorem State.sentBy_send (client' : Endpoint) :
    (s.send D client isWrite key value latency port).sentBy client' =
      s.sentBy client' + if client = client' then 1 else 0 := by
  simp [State.sentBy, State.send, List.countP_append]

/-- A client sends a request: its sequence number is new, and so is the slot it takes as long as the
client keeps to the limit. -/
theorem Ledger.send (h : Ledger D s) (hclient : D.isClient client = true)
    (hkey : key.length < keySize) (hlimit : s.sentBy client < maxSeqHdrs) :
    Ledger D (s.send D client isWrite key value latency port) := by
  have hnext : (s.clients client).seqGlobal.toNat = s.sentBy client := h.next client
  have hold : ∀ x ∈ s.sent, x.client = client → x.seq.toNat < s.sentBy client :=
    fun x hx hc => hc ▸ h.below x hx
  have hmem : ∀ x ∈ (s.send D client isWrite key value latency port).sent,
      x ∈ s.sent ∨ x = ⟨client, (s.clients client).seqGlobal, key⟩ := by
    intro x hx
    rcases List.mem_append.1 hx with hx | hx
    · exact .inl hx
    · exact .inr (List.mem_singleton.1 hx)
  have hself : (s.send D client isWrite key value latency port).clients client =
      { (s.clients client).seqPut (s.clients client).seqGlobal key with
        seqGlobal := (s.clients client).seqGlobal + 1 } := Function.update_self ..
  have hother : ∀ cl, cl ≠ client →
      (s.send D client isWrite key value latency port).clients cl = s.clients cl :=
    fun cl hne => Function.update_of_ne hne _ _
  refine ⟨fun cl => ?_, fun cl => ?_, fun x hx => ?_, fun x hx => ?_, fun x hx => ?_,
    fun x hx => ?_, fun cl seq => ?_⟩
  · rw [State.sentBy_send]
    by_cases hcl : client = cl
    · subst hcl
      rw [hself, if_pos rfl]
      simp only [maxSeqHdrs] at hlimit
      show ((s.clients client).seqGlobal + 1).toNat = _
      rw [BitVec.toNat_add, hnext]
      exact Nat.mod_eq_of_lt (Nat.lt_of_le_of_lt hlimit (by decide))
    · rw [hother cl (Ne.symm hcl), if_neg hcl]
      exact h.next cl
  · rw [State.sentBy_send]
    split
    · next hcl => exact hcl ▸ hlimit
    · exact h.limit cl
  · rw [State.sentBy_send]
    rcases hmem x hx with hx | rfl
    · exact Nat.lt_add_right _ (h.below x hx)
    · rw [if_pos rfl, hnext]
      exact Nat.lt_succ_self _
  · rcases hmem x hx with hx | rfl
    · by_cases hcl : x.client = client
      · rw [hcl, hself]
        have hseq := hold x hx hcl
        refine (Client.seqGet_seqPut_of_ne _ key ?_).trans (hcl ▸ h.stored x hx)
        rw [hnext, Nat.mod_eq_of_lt (Nat.lt_trans hseq hlimit), Nat.mod_eq_of_lt hlimit]
        exact Nat.ne_of_lt hseq
      · rw [hother _ hcl]
        exact h.stored x hx
    · show ((s.send D client isWrite key value latency port).clients client).seqGet _ = _
      rw [hself]
      refine (Client.seqGet_seqPut _ _ key).trans (congrArg some (List.take_of_length_le ?_))
      exact Nat.le_sub_one_of_lt hkey
  · rcases hmem x hx with hx | rfl
    · exact h.short x hx
    · exact hkey
  · rcases hmem x hx with hx | rfl
    · exact h.client x hx
    · exact hclient
  · have hcount : (s.send D client isWrite key value latency port).requests cl seq =
        s.requests cl seq +
          if client = cl ∧ (s.clients client).seqGlobal = seq then 1 else 0 := by
      simp [State.requests, State.send, List.countP_append]
    rw [hcount]
    split
    · next hnew =>
      -- a sequence number that is new to the client
      obtain ⟨rfl, rfl⟩ := hnew
      have hnone : s.requests client (s.clients client).seqGlobal = 0 := by
        refine List.countP_eq_zero.2 fun x hx hmatch => ?_
        simp only [Bool.and_eq_true, beq_iff_eq] at hmatch
        have := hold x hx hmatch.1
        rw [hmatch.2, hnext] at this
        exact Nat.lt_irrefl _ this
      rw [hnone]
    · exact h.once cl seq

/-- A client sent one request with a sequence number, so its key is known from the number. -/
theorem Ledger.unique (h : Ledger D s) {client : Endpoint} {seq : BitVec 32} {key key' : Bytes}
    (hx : ⟨client, seq, key⟩ ∈ s.sent) (hx' : ⟨client, seq, key'⟩ ∈ s.sent) : key' = key := by
  have hkey := h.stored _ hx
  rw [h.stored _ hx'] at hkey
  exact Option.some.inj hkey

end

/-! ## What the messages belong to -/

/-- `m` belongs to a request. A READ and a CRCTN carry the key of their request, an R_REPLY answers
a request and carries its key unless it is marked as a cache reply, and a W_REPLY of a cached key is
so marked. -/
structure State.Genuine (s : State) (m : Message) : Prop where
  request : m.orbitcache.op = opRead ∨ m.orbitcache.op = opCrctn →
    ⟨m.source, m.orbitcache.seq, m.payload.orgKey⟩ ∈ s.sent ∧ m.orbitcache.cached ≠ 1
  reply : m.orbitcache.op = opRReply → ∃ key, ⟨m.target, m.orbitcache.seq, key⟩ ∈ s.sent ∧
    (m.orbitcache.cached ≠ 1 → m.payload.orgKey = key)
  wReply : m.orbitcache.op = opWReply →
    (s.lookup.lookup m.orbitcache.hkey).isSome = true → m.orbitcache.cached = 1

/-- `c` is the correction for a request: a CRCTN with its sequence number and key, from the client
to the server that owns the key. -/
structure Packet.Corrects (D : Deployment) (c : Message) (client : Endpoint) (seq : BitVec 32)
    (key : Bytes) : Prop where
  op : c.orbitcache.op = opCrctn
  seq : c.orbitcache.seq = seq
  orgKey : c.payload.orgKey = key
  hkey : c.orbitcache.hkey = D.hash key
  source : c.source = client
  target : c.target = D.dest key

/-- A received R_REPLY is one for a request: without a correction it carries the key of the request,
and with another key it is corrected. The correction is the message that the step puts on the
uplink. -/
def State.Received (D : Deployment) (s : State) (r : Receipt) : Prop :=
  ∃ key, ⟨r.client, r.message.orbitcache.seq, key⟩ ∈ s.sent ∧
    (r.correction = none → r.message.payload.orgKey = key) ∧
    (r.message.payload.orgKey ≠ key →
      ∃ c, r.correction = some c ∧ c.Corrects D r.client r.message.orbitcache.seq key)

/-- What is in flight and what is pending belongs to the requests, and every cache packet is marked
as one. This is the invariant of the runs. -/
structure Attributed (D : Deployment) (s : State) : Prop where
  flow : Flow D s
  ledger : Ledger D s
  pending : ∀ c, c.toNat < numHotkey → ∀ e ∈ (s.regs.line c).queue,
    ∃ key, ⟨⟨e.clientIP, e.udpPort⟩, e.seq, key⟩ ∈ s.sent
  loop : ∀ m ∈ s.loop, m.orbitcache.cached = 1
  wire : ∀ m ∈ s.wire, s.Genuine m
  uplink : ∀ e ∈ s.uplink, s.Genuine e.2
  unmarked : ∀ e ∈ s.uplink, e.2.orbitcache.op = opRReply → e.2.orbitcache.cached ≠ 1
  flagged : ∀ m ∈ s.wire, m.orbitcache.op = opWrite →
    (s.lookup.lookup m.orbitcache.hkey).isSome = true → m.orbitcache.flag = fetching
  receipts : ∀ r ∈ s.receipts, r.message.orbitcache.op = opRReply → s.Received D r

section
variable {D : Deployment} {s s' : State} {client : Endpoint} {isWrite : Bool}
variable {key value : Bytes} {latency : BitVec 32}

/-- Requests are not forgotten, so what belongs to one still does. -/
theorem State.Genuine.mono {m : Message} (h : s.Genuine m) (hlookup : s'.lookup = s.lookup)
    (hsent : s.sent ⊆ s'.sent) : s'.Genuine m where
  request hop := ⟨hsent (h.request hop).1, (h.request hop).2⟩
  reply hop := (h.reply hop).imp fun _ hkey => ⟨hsent hkey.1, hkey.2⟩
  wReply hop hc := h.wReply hop (hlookup ▸ hc)

/-- The same for a received reply. -/
theorem State.Received.mono {r : Receipt} (h : s.Received D r) (hsent : s.sent ⊆ s'.sent) :
    s'.Received D r := h.imp fun _ hkey => ⟨hsent hkey.1, hkey.2⟩

/-- A copy of a message with its operation, its addresses and its key belongs to the same request;
only a READ may get another mark. -/
theorem State.Genuine.congr {m m' : Message} (h : s.Genuine m)
    (hop : m'.orbitcache.op = m.orbitcache.op) (hseq : m'.orbitcache.seq = m.orbitcache.seq)
    (hkey : m'.orbitcache.hkey = m.orbitcache.hkey) (horg : m'.payload.orgKey = m.payload.orgKey)
    (hsource : m'.source = m.source) (htarget : m'.target = m.target)
    (hcached : m'.orbitcache.cached = m.orbitcache.cached ∨
      m.orbitcache.op = opRead ∧ m'.orbitcache.cached = missed) : s.Genuine m' where
  request hreq := by
    rw [hop] at hreq
    obtain ⟨hmem, hne⟩ := h.request hreq
    refine ⟨by rw [hsource, hseq, horg]; exact hmem, ?_⟩
    rcases hcached with hc | ⟨-, hc⟩ <;> rw [hc]
    · exact hne
    · decide
  reply hreply := by
    rw [hop] at hreply
    rw [htarget, hseq, horg]
    rcases hcached with hc | ⟨hread, -⟩
    · rw [hc]
      exact h.reply hreply
    · rw [hread] at hreply
      exact absurd hreply (by decide)
  wReply hw hc := by
    rw [hop] at hw
    rcases hcached with hc' | ⟨hread, -⟩
    · rw [hc']
      exact h.wReply hw (hkey ▸ hc)
    · rw [hread] at hw
      exact absurd hw (by decide)

/-- The copies that leave for hosts belong to a request if the packet does, and a WRITE of a cached
key is flagged. The case is that of a packet from a host. -/
theorem State.Passes.delivered_host {port : BitVec 9} {m : Message} {v : Verdict}
    (hv : s.Passes D port m v) (hport : D.Listed port) (hp : port ≠ D.recirc)
    (hok : MessageOk D m) (hgen : s.Genuine m) {x : Message}
    (hx : x ∈ v.delivered (s.tables D) port m) : s.Genuine x ∧ (x.orbitcache.op = opWrite →
      (s.lookup.lookup x.orbitcache.hkey).isSome = true → x.orbitcache.flag = fetching) := by
  have hcopy : (m.touched (s.tables D) port).orbitcache.op = m.orbitcache.op :=
    effectiveOp_host hport hp
  have hgenTouched : s.Genuine (m.touched (s.tables D) port) :=
    hgen.congr hcopy rfl rfl rfl rfl rfl (.inl rfl)
  cases hv.case with
  | plain horb => exact absurd hok.isOrbitcache horb
  | absorb | discard | idle => cases hx
  | serve _ _ hl =>
    exact absurd (eq_recirc_of_onLoop hport hl) hp
  | overflow _ _ _ hop =>
    rw [List.mem_singleton.1 hx]
    refine ⟨hgen.congr hcopy rfl rfl rfl rfl rfl (.inr ⟨hop, rfl⟩), fun hw => ?_⟩
    have hw : (m.touched (s.tables D) port).orbitcache.op = opWrite := hw
    rw [hcopy, hop] at hw
    exact absurd hw (by decide)
  | bypass _ _ _ hop | uncached _ _ _ hop =>
    rw [List.mem_singleton.1 hx]
    refine ⟨hgenTouched, fun hw => ?_⟩
    rw [hcopy, hop] at hw
    exact absurd hw (by decide)
  | forward _ _ _ hother =>
    rw [List.mem_singleton.1 hx]
    refine ⟨hgenTouched, fun hw hc => ?_⟩
    obtain ⟨c, hl⟩ := Option.isSome_iff_exists.1 hc
    exact absurd (hcopy.symm.trans hw) (hother c hl).1
  | invalidate =>
    rw [List.mem_singleton.1 hx]
    exact ⟨hgen.congr hcopy rfl rfl rfl rfl rfl (.inl rfl), fun _ _ => rfl⟩
  | clone _ _ _ hop =>
    rw [List.mem_singleton.1 hx]
    refine ⟨hgenTouched, fun hw => ?_⟩
    rw [hcopy] at hw
    rcases hop with hop | hop <;> rw [hop] at hw <;> exact absurd hw (by decide)

/-- The copies of a marked packet are marked, and the reply made from it is one to the request whose
entry was pending. The case is that of a cache packet. -/
theorem State.Passes.delivered_loop (hD : D.Wired) {m : Message} {v : Verdict}
    (hv : s.Passes D D.recirc m v) (hok : MessageOk D m) (hmark : m.orbitcache.cached = 1)
    (hpending : ∀ c, c.toNat < numHotkey → ∀ e ∈ (s.regs.line c).queue,
      ∃ key, ⟨⟨e.clientIP, e.udpPort⟩, e.seq, key⟩ ∈ s.sent)
    (htable : StaticTable s.lookup) {x : Message}
    (hx : x ∈ v.delivered (s.tables D) D.recirc m) : s.Genuine x ∧ x.orbitcache.op ≠ opWrite := by
  have hloop : onLoop (s.tables D) D.recirc = true := onLoop_recirc hD
  have hop : x.orbitcache.op = opRReply :=
    (hv.case.mem_delivered hok.isOrbitcache hx).1.trans (if_pos hloop)
  refine ⟨⟨fun h => ?_, fun _ => ?_, fun h => ?_⟩, by rw [hop]; decide⟩
  · rw [hop] at h
    exact absurd h (by decide)
  · cases hv.case.loopCase hloop with
    | plain horb => exact absurd hok.isOrbitcache horb
    | idle | discard => cases hx
    | @serve c e _ hl _ hq =>
      rw [List.mem_singleton.1 hx]
      obtain ⟨key, hkey⟩ := hpending c (htable.below _ c hl) e (hq ▸ List.mem_cons_self)
      exact ⟨key, hkey, fun hne => absurd hmark hne⟩
  · rw [hop] at h
    exact absurd h (by decide)

/-- A copy on the loop keeps the mark of the packet, whichever verdict made it. -/
theorem Verdict.cached_recirculated {t : Tables} {port : BitVec 9} {m x : Message} {v : Verdict}
    (hx : x ∈ v.recirculated t port m) : x.orbitcache.cached = m.orbitcache.cached := by
  cases v with
  | serve | idle | clone => rw [List.mem_singleton.1 hx]; rfl
  | plain | absorb | overflow | bypass | uncached | discard | forward | invalidate => cases hx

/-- A pass whose copies are as they should be keeps the invariant; the two cases below show that
they are. -/
theorem Attributed.pass (hD : D.Wired) (h : Attributed D s) {port : BitVec 9} {m : Message}
    (hport : D.Listed port) (hok : MessageOk D m) {v : Verdict} (hv : s.Passes D port m v)
    (habsorb : ∀ c, v = .absorb c →
      ∃ key, ⟨⟨m.entry.clientIP, m.entry.udpPort⟩, m.entry.seq, key⟩ ∈ s.sent)
    (hrecirculated : ∀ x ∈ v.recirculated (s.tables D) port m, m.orbitcache.cached = 1)
    (hdelivered : ∀ x ∈ v.delivered (s.tables D) port m, s.Genuine x ∧
      (x.orbitcache.op = opWrite → (s.lookup.lookup x.orbitcache.hkey).isSome = true →
        x.orbitcache.flag = fetching)) : Attributed D (s.pass D port m) := by
  have hmono : ∀ x, s.Genuine x → (s.pass D port m).Genuine x :=
    fun x hx => hx.mono rfl (List.Subset.refl _)
  refine ⟨h.flow.pass hD hport hok, h.ledger.congr rfl rfl, fun c hc e he => ?_, fun x hx => ?_,
    fun x hx => hmono x ?_, fun e he => hmono e.2 (h.uplink e he), h.unmarked,
    fun x hx hop hc => ?_, h.receipts⟩
  · rw [hv.line c hc] at he
    rcases Verdict.mem_queue he with ⟨habs, rfl⟩ | he
    · exact habsorb c habs
    · exact h.pending c hc e he
  · rw [State.pass, hv.recirculated, List.mem_append, List.mem_map] at hx
    rcases hx with hx | ⟨y, hy, rfl⟩
    · exact h.loop x hx
    · exact (Verdict.cached_recirculated hy).trans (hrecirculated y hy)
  · rw [State.pass, hv.delivered, List.mem_append, List.mem_map] at hx
    rcases hx with hx | ⟨y, hy, rfl⟩
    · exact h.wire x hx
    · exact (hdelivered y hy).1.congr rfl rfl rfl rfl rfl rfl (.inl rfl)
  · rw [State.pass, hv.delivered, List.mem_append, List.mem_map] at hx
    rcases hx with hx | ⟨y, hy, rfl⟩
    · exact h.flagged x hx hop hc
    · exact (hdelivered y hy).2 hop hc

/-- A message from a host passes the switch. Its entry is pending from then on if it is absorbed. -/
theorem Attributed.pass_host (hD : D.Wired) (h : Attributed D s) {port : BitVec 9} {m : Message}
    (hport : D.Listed port) (hp : port ≠ D.recirc) (hok : MessageOk D m) (hgen : s.Genuine m) :
    Attributed D (s.pass D port m) := by
  have hhost : onLoop (s.tables D) port = false := onLoop_host hport hp
  obtain ⟨v, hv⟩ := h.flow.passes hD hport hok
  refine h.pass hD hport hok hv ?_ (fun x hx => ?_)
    fun x hx => hv.delivered_host hport hp hok hgen hx
  · rintro c rfl
    cases hv.case with
    | absorb _ _ _ hop => exact ⟨_, (hgen.request (.inl hop)).1⟩
  · rcases hv.case.host hhost with ⟨c, rfl, hl, hop | hop⟩ | ⟨-, hnil⟩
    · exact hgen.wReply hop (Option.isSome_of_eq_some hl)
    · have := hok.op
      rw [hop] at this
      exact absurd this (by decide)
    · rw [hnil] at hx
      cases hx

/-- A cache packet passes the switch and serves a pending request, or goes on. -/
theorem Attributed.pass_loop (hD : D.Wired) (h : Attributed D s) {m : Message}
    (hok : MessageOk D m) (hmark : m.orbitcache.cached = 1) :
    Attributed D (s.pass D D.recirc m) := by
  have hloop : onLoop (s.tables D) D.recirc = true := onLoop_recirc hD
  obtain ⟨v, hv⟩ := h.flow.passes hD hD.recirc_listed hok
  refine h.pass hD hD.recirc_listed hok hv ?_ (fun _ _ => hmark) fun x hx => ?_
  · rintro c rfl
    cases hv.case with
    | absorb _ _ hp =>
      rw [hloop] at hp
      cases hp
  · obtain ⟨hgen, hop⟩ := hv.delivered_loop hD hok hmark h.pending h.flow.table hx
    exact ⟨hgen, fun hw => absurd hw hop⟩

/-! ## Runs -/

/-- What a step does besides a pass: requests are added, messages are taken off the channels, and
what is new belongs to a request. -/
theorem Attributed.congr (h : Attributed D s) (hflow : Flow D s') (hledger : Ledger D s')
    (hregs : s'.regs = s.regs) (hlookup : s'.lookup = s.lookup) (hsent : s.sent ⊆ s'.sent)
    (hloop : s'.loop ⊆ s.loop) (hwire : s'.wire ⊆ s.wire)
    (huplink : ∀ e ∈ s'.uplink, e ∈ s.uplink ∨
      s'.Genuine e.2 ∧ (e.2.orbitcache.op = opRReply → e.2.orbitcache.cached ≠ 1))
    (hreceipts : ∀ r ∈ s'.receipts, r ∈ s.receipts ∨
      (r.message.orbitcache.op = opRReply → s'.Received D r)) : Attributed D s' where
  flow := hflow
  ledger := hledger
  pending c hc e he := (h.pending c hc e (hregs ▸ he)).imp fun _ hkey => hsent hkey
  loop m hm := h.loop m (hloop hm)
  wire m hm := (h.wire m (hwire hm)).mono hlookup hsent
  uplink e he := (huplink e he).elim (fun he => (h.uplink e he).mono hlookup hsent) And.left
  unmarked e he := (huplink e he).elim (h.unmarked e) And.right
  flagged m hm hop hc := h.flagged m (hwire hm) hop (hlookup ▸ hc)
  receipts r hr hop := (hreceipts r hr).elim (fun hr => (h.receipts r hr hop).mono hsent)
    fun hr => hr hop

/-- The keys of a client and of a message that the client takes for equal are equal, because the key
of the client ends within the compared bytes. -/
theorem Client.key_eq {key orgKey : Bytes} (hshort : key.length < keySize)
    (h : key.take keySize = orgKey.take keySize) : orgKey = key := by
  have hkey : key.take keySize = key := List.take_of_length_le (Nat.le_of_lt hshort)
  rw [hkey] at h
  have hlen : orgKey.length ≤ keySize := by
    by_contra hlong
    rw [h, List.length_take, Nat.min_eq_left (Nat.le_of_not_le hlong)] at hshort
    exact Nat.lt_irrefl _ hshort
  rw [h, List.take_of_length_le hlen]

/-- A client handles every message that belongs to a request: `seq_get` finds a key, so `rx_t` never
compares with NULL. -/
theorem Attributed.rx (h : Attributed D s) {m : Message} (hm : s.Genuine m) (latency : BitVec 32) :
    (s.clients m.target).rx D.hash D.dest m.target m latency ≠ none ∧
      ∀ r, (s.clients m.target).rx D.hash D.dest m.target m latency = some r →
        m.orbitcache.op = opRReply → s.Received D ⟨m.target, m, r⟩ := by
  by_cases hcheck : m.orbitcache.op = opRReply ∧ m.orbitcache.cached = 1
  · obtain ⟨key, hsent, -⟩ := hm.reply hcheck.1
    have hstored := h.ledger.stored _ hsent
    have hrx : (s.clients m.target).rx D.hash D.dest m.target m latency =
        some (if key.take keySize ≠ m.payload.orgKey.take keySize then
          some (Client.request D.hash D.dest m.target opCrctn m.orbitcache.seq key [] latency)
          else none) := by
      rw [Client.rx, if_pos hcheck, hstored]
      show (if _ then _ else _) = _
      split <;> rfl
    rw [hrx]
    refine ⟨by simp, fun r hr _ => ⟨key, hsent, fun hnone => ?_, fun hne => ?_⟩⟩
    · rw [← Option.some.inj hr] at hnone
      split at hnone
      · cases hnone
      · next heq => exact Client.key_eq (h.ledger.short _ hsent) (not_not.1 heq)
    · rw [← Option.some.inj hr, if_pos]
      · exact ⟨_, rfl, rfl, rfl, rfl, rfl, rfl, rfl⟩
      · exact fun heq => hne (Client.key_eq (h.ledger.short _ hsent) heq)
  · have hrx : (s.clients m.target).rx D.hash D.dest m.target m latency = some none :=
      if_neg hcheck
    rw [hrx]
    refine ⟨by simp, fun r hr hop => ?_⟩
    obtain ⟨key, hsent, hkey⟩ := hm.reply hop
    have hkey := hkey fun hc => hcheck ⟨hop, hc⟩
    exact ⟨key, hsent, fun _ => hkey, fun hne => absurd hkey hne⟩

/-- The reply of a worker belongs to the request of its datagram, whose sequence number and key it
carries. -/
theorem State.Genuine.of_handle {m : Message} (hm : s.Genuine m)
    (hflag : m.orbitcache.op = opWrite → (s.lookup.lookup m.orbitcache.hkey).isSome = true →
      m.orbitcache.flag = fetching)
    (hfetch : m.orbitcache.op ≠ opFetch) {w w' : Worker} {junk : Bytes} {rh : OrbitcacheH}
    {rb : Payload}
    (hcase : w.HandleCase D.hash junk m.orbitcache m.payload w' (some (rh, rb))) :
    s.Genuine (datagram m.target m.source rh rb) ∧ (rh.op = opRReply → rh.cached ≠ 1) := by
  cases hcase with
  | read hop =>
    obtain ⟨hsent, hne⟩ := hm.request hop
    refine ⟨⟨fun h => ?_, fun _ => ⟨_, hsent, fun _ => rfl⟩, fun h => ?_⟩, fun _ => hne⟩
    · have h : (opRReply : BitVec 8) = opRead ∨ (opRReply : BitVec 8) = opCrctn := h
      exact absurd h (by decide)
    · exact absurd (show (opRReply : BitVec 8) = opWReply from h) (by decide)
  | fetch hop => exact absurd hop hfetch
  | write =>
    refine ⟨⟨fun h => ?_, fun h => ?_, fun _ _ => rfl⟩, fun h => ?_⟩
    · have h : (opWReply : BitVec 8) = opRead ∨ (opWReply : BitVec 8) = opCrctn := h
      exact absurd h (by decide)
    · exact absurd (show (opWReply : BitVec 8) = opRReply from h) (by decide)
    · exact absurd (show (opWReply : BitVec 8) = opRReply from h) (by decide)
  | writeNoFetch hop hno =>
    refine ⟨⟨fun h => ?_, fun h => ?_, fun _ hc => absurd (hflag hop hc) hno⟩, fun h => ?_⟩
    · have h : (opWReply : BitVec 8) = opRead ∨ (opWReply : BitVec 8) = opCrctn := h
      exact absurd h (by decide)
    · exact absurd (show (opWReply : BitVec 8) = opRReply from h) (by decide)
    · exact absurd (show (opWReply : BitVec 8) = opRReply from h) (by decide)

/-- A correction belongs to the request it corrects, and may itself be answered. -/
theorem Packet.Corrects.genuine {c : Message} {client : Endpoint} {seq : BitVec 32} {key : Bytes}
    (hc : c.Corrects D client seq key) (hsent : ⟨client, seq, key⟩ ∈ s.sent)
    (hcached : c.orbitcache.cached ≠ 1) : s.Genuine c where
  request _ := ⟨by rw [hc.source, hc.seq, hc.orgKey]; exact hsent, hcached⟩
  reply h := by
    rw [hc.op] at h
    exact absurd h (by decide)
  wReply h := by
    rw [hc.op] at h
    exact absurd h (by decide)

variable (isWrite value latency) in
/-- The message of a client belongs to the request it was made for. -/
theorem State.Genuine.tx (hsent : ⟨client, (s.clients client).seqGlobal, key⟩ ∈ s'.sent) :
    s'.Genuine ((s.clients client).tx D.hash D.dest client isWrite key value latency).2 ∧
      ((s.clients client).tx D.hash D.dest client isWrite key value latency).2.orbitcache.op ≠
        opRReply := by
  cases isWrite with
  | false =>
    refine ⟨⟨fun _ => ⟨hsent, show ¬ (0 : BitVec 8) = 1 by decide⟩, fun h => ?_, fun h => ?_⟩,
      show ¬ (opRead : BitVec 8) = opRReply by decide⟩
    · exact absurd (show (opRead : BitVec 8) = opRReply from h) (by decide)
    · exact absurd (show (opRead : BitVec 8) = opWReply from h) (by decide)
  | true =>
    refine ⟨⟨fun h => ?_, fun h => ?_, fun h => ?_⟩,
      show ¬ (opWrite : BitVec 8) = opRReply by decide⟩
    · have h : (opWrite : BitVec 8) = opRead ∨ (opWrite : BitVec 8) = opCrctn := h
      exact absurd h (by decide)
    · exact absurd (show (opWrite : BitVec 8) = opRReply from h) (by decide)
    · exact absurd (show (opWrite : BitVec 8) = opWReply from h) (by decide)

/-- What is put on an uplink is the one new element there. -/
theorem mem_emit {e x : BitVec 9 × Message} {l : List (BitVec 9 × Message)} (he : e ∈ l ++ [x]) :
    e ∈ l ∨ e = x := (List.mem_append.1 he).imp id List.mem_singleton.1

/-- A step of a limited client keeps the invariant, by the cases of a step. -/
theorem Attributed.step (hD : D.Wired) {a : Action} (h : Attributed D s) (hlimit : Limited s a)
    (hstep : OrbitCache.step D s a = some s') : Attributed D s' := by
  have hflow := h.flow.step hD hstep
  cases step_case hstep with
  | @send client isWrite key value latency port hclient hkey hport =>
    refine h.congr hflow (h.ledger.send hclient hkey hlimit) rfl rfl (List.subset_append_left _ _)
      (List.Subset.refl _) (List.Subset.refl _) (fun e he => ?_) fun r hr => .inl hr
    rcases mem_emit he with he | rfl
    · exact .inl he
    · have hsent : ⟨client, (s.clients client).seqGlobal, key⟩ ∈
          (s.send D client isWrite key value latency port).sent :=
        List.mem_append_right _ (List.mem_singleton_self _)
      obtain ⟨hgen, hop⟩ := State.Genuine.tx (D := D) isWrite value latency hsent
      exact .inr ⟨hgen, fun h => absurd h hop⟩
  | @pass i port m hm =>
    have hmem := List.mem_of_getElem? hm
    obtain ⟨hport, hp, hok⟩ := h.flow.uplink _ hmem
    have herase : Attributed D { s with uplink := s.uplink.eraseIdx i } :=
      h.congr (h.flow.congr rfl rfl (List.Subset.refl _) (List.Subset.refl _)
        fun e he => .inl (List.mem_of_mem_eraseIdx he)) (h.ledger.congr rfl rfl) rfl rfl
        (List.Subset.refl _) (List.Subset.refl _) (List.Subset.refl _)
        (fun e he => .inl (List.mem_of_mem_eraseIdx he)) fun r hr => .inl hr
    exact herase.pass_host hD hport hp hok ((h.uplink _ hmem).mono rfl (List.Subset.refl _))
  | @recirculate i m hm =>
    have hmem := List.mem_of_getElem? hm
    have herase : Attributed D { s with loop := s.loop.eraseIdx i } :=
      h.congr (h.flow.congr rfl rfl List.eraseIdx_subset (List.Subset.refl _)
        fun e he => .inl he) (h.ledger.congr rfl rfl) rfl rfl (List.Subset.refl _)
        List.eraseIdx_subset (List.Subset.refl _) (fun e he => .inl he) fun r hr => .inl hr
    exact herase.pass_loop hD (h.flow.loop m hmem) (h.loop m hmem)
  | @reply i m junk w rh rb port hm hserver hcase hport =>
    have hmem := List.mem_of_getElem? hm
    refine h.congr hflow (h.ledger.congr rfl rfl) rfl rfl (List.Subset.refl _) (List.Subset.refl _)
      List.eraseIdx_subset (fun e he => ?_) fun r hr => .inl hr
    rcases mem_emit he with he | rfl
    · exact .inl he
    · have hfetch : m.orbitcache.op ≠ opFetch := fun hop => by
        have := (h.flow.wire m hmem).op
        rw [hop] at this
        exact absurd this (by decide)
      obtain ⟨hgen, hmark⟩ := (h.wire m hmem).of_handle (h.flagged m hmem) hfetch hcase
      exact .inr ⟨hgen.mono rfl (List.Subset.refl _), hmark⟩
  | ignore =>
    exact h.congr hflow (h.ledger.congr rfl rfl) rfl rfl (List.Subset.refl _) (List.Subset.refl _)
      List.eraseIdx_subset (fun e he => .inl he) fun r hr => .inl hr
  | @receive i m latency hm hclient hrx =>
    have hmem := List.mem_of_getElem? hm
    refine h.congr hflow (h.ledger.congr rfl rfl) rfl rfl (List.Subset.refl _) (List.Subset.refl _)
      List.eraseIdx_subset (fun e he => .inl he) fun r hr => ?_
    rcases List.mem_append.1 hr with hr | hr
    · exact .inl hr
    · rw [List.mem_singleton.1 hr]
      exact .inr fun hop => ((h.rx (h.wire m hmem) latency).2 _ hrx hop).mono (List.Subset.refl _)
  | @correct i m latency c port hm hclient hrx hport =>
    have hmem := List.mem_of_getElem? hm
    obtain ⟨hop, hcached, key, hstored, hne, rfl⟩ := Client.rx_some hrx
    have hreceived := (h.rx (h.wire m hmem) latency).2 _ hrx hop
    refine h.congr hflow (h.ledger.congr rfl rfl) rfl rfl (List.Subset.refl _) (List.Subset.refl _)
      List.eraseIdx_subset (fun e he => ?_) fun r hr => ?_
    · rcases mem_emit he with he | rfl
      · exact .inl he
      · obtain ⟨key', hsent, -⟩ := hreceived
        have hkey : key' = key := Option.some.inj ((h.ledger.stored _ hsent).symm.trans hstored)
        have hcorrects : (Client.request D.hash D.dest m.target opCrctn m.orbitcache.seq key []
            latency).Corrects D m.target m.orbitcache.seq key :=
          ⟨rfl, rfl, rfl, rfl, rfl, rfl⟩
        refine .inr ⟨(hcorrects.genuine (hkey ▸ hsent) ?_).mono rfl (List.Subset.refl _),
          fun hop => ?_⟩
        · exact show ¬ (0 : BitVec 8) = 1 by decide
        · exact absurd (show (opCrctn : BitVec 8) = opRReply from hop) (by decide)
    · rcases List.mem_append.1 hr with hr | hr
      · exact .inl hr
      · rw [List.mem_singleton.1 hr]
        exact .inr fun _ => hreceived.mono (List.Subset.refl _)
  | @preload src target key value port =>
    refine h.congr hflow (h.ledger.congr rfl rfl) rfl rfl (List.Subset.refl _) (List.Subset.refl _)
      (List.Subset.refl _) (fun e he => ?_) fun r hr => .inl hr
    rcases mem_emit he with he | rfl
    · exact .inl he
    · refine .inr ⟨⟨fun h => ?_, fun h => ?_, fun _ _ => rfl⟩, fun h => ?_⟩
      · have h : (opWReply : BitVec 8) = opRead ∨ (opWReply : BitVec 8) = opCrctn := h
        exact absurd h (by decide)
      · exact absurd (show (opWReply : BitVec 8) = opRReply from h) (by decide)
      · exact absurd (show (opWReply : BitVec 8) = opRReply from h) (by decide)

/-- It holds at the start, where nothing is in flight and nothing was sent. -/
theorem Attributed.start (D : Deployment) (regs : Registers) {lookup : LookupTable}
    (htable : StaticTable lookup) (workers : Endpoint → Worker) :
    Attributed D (.start regs lookup workers) where
  flow := .start D regs htable workers
  ledger :=
    { next := fun _ => rfl
      limit := fun _ => Nat.zero_le _
      below := fun _ hx => by cases hx
      stored := fun _ hx => by cases hx
      short := fun _ hx => by cases hx
      client := fun _ hx => by cases hx
      once := fun _ _ => Nat.zero_le _ }
  pending c hc e he := by
    have hline : (State.start regs lookup workers).regs.line c = ⟨false, []⟩ :=
      Controller.initRegisters_line regs hc
    rw [hline] at he
    cases he
  loop _ hm := by cases hm
  wire _ hm := by cases hm
  uplink _ he := by cases he
  unmarked _ he := by cases he
  flagged _ hm := by cases hm
  receipts _ hr := by cases hr

end

end OrbitCache
