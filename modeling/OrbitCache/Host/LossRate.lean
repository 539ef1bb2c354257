import Mathlib.Algebra.Order.Field.Basic
import Mathlib.Data.Finset.Card
import Mathlib.Data.Rat.Cast.Order
import OrbitCache.Host.Sequence
import OrbitCache.Lib.Run

/-!
# The loss rate

A run of the OrbitCache client: `tx_t` sends its budget of requests, `rx_t` counts the replies and
corrects those of a colliding key, and `main` makes the loss rate of the counters. The network
answers each request and each correction at most once. A collision is counted twice, first the reply
with the wrong key and then the reply to the correction; a cache reply to a request whose slot of
the sequence table is taken kills the client; and the budget is an `int` (`truthful_late_iff`).
-/

namespace OrbitCache

/-- `TARGET_QPS` and `TIME_EXP` as `main` accepts them from `atoi`: positive values of an `int`. -/
structure LoadArgs where
  targetQps : Nat
  timeExp : Nat
  targetQps_pos : 0 < targetQps
  timeExp_pos : 0 < timeExp
  targetQps_lt : targetQps < 2 ^ 31
  timeExp_lt : timeExp < 2 ^ 31

namespace LoadArgs

/-- `TARGET_QPS*TIME_EXP`, as `uint64_t`: two numbers below `2 ^ 31`, so it is exact. -/
def product (b : LoadArgs) : BitVec 64 := BitVec.ofNat 64 b.targetQps * BitVec.ofNat 64 b.timeExp

/-- `NUM_REQUESTS` of `main`, an `int`: the product loses its upper half here. -/
def numRequestsInt (b : LoadArgs) : BitVec 32 := b.product.setWidth 32

/-- `NUM_REQUESTS` of `tx_t`, with `NUM_CLI_WORKERS = 1`; a negative `int` becomes a very large
bound. -/
def numRequests (b : LoadArgs) : BitVec 64 := b.numRequestsInt.signExtend 64 / 1

/-- `lossrate` of `main`, in exact arithmetic, from the counter and the whole product. -/
def lossrate (b : LoadArgs) (globalPktCounter : BitVec 32) : ℚ :=
  1 - globalPktCounter.toInt / b.product.toNat

/-- The product of the arguments does not wrap around. -/
theorem toNat_product (b : LoadArgs) : b.product.toNat = b.targetQps * b.timeExp := by
  have hq := b.targetQps_lt
  have ht := b.timeExp_lt
  have hmul : b.targetQps * b.timeExp < 2 ^ 31 * 2 ^ 31 := Nat.mul_lt_mul'' hq ht
  have hq64 : b.targetQps % 2 ^ 64 = b.targetQps := Nat.mod_eq_of_lt (by omega)
  have ht64 : b.timeExp % 2 ^ 64 = b.timeExp := Nat.mod_eq_of_lt (by omega)
  rw [product, BitVec.toNat_mul, BitVec.toNat_ofNat, BitVec.toNat_ofNat, hq64, ht64]
  exact Nat.mod_eq_of_lt (by omega)

/-- The loop bound is the product exactly if that fits an `int`. -/
theorem max_numRequests_eq_iff (b : LoadArgs) :
    max 1 b.numRequests.toNat = b.targetQps * b.timeExp ↔ b.targetQps * b.timeExp < 2 ^ 31 := by
  have hmul : b.targetQps * b.timeExp < 2 ^ 31 * 2 ^ 31 :=
    Nat.mul_lt_mul'' b.targetQps_lt b.timeExp_lt
  have hpos : 0 < b.targetQps * b.timeExp := Nat.mul_pos b.targetQps_pos b.timeExp_pos
  have hbound : b.numRequests.toNat = b.targetQps * b.timeExp % 2 ^ 32 +
      if 2 ^ 31 ≤ b.targetQps * b.timeExp % 2 ^ 32 then 2 ^ 64 - 2 ^ 32 else 0 := by
    rw [numRequests, BitVec.toNat_udiv, show (1 : BitVec 64).toNat = 1 from rfl, Nat.div_one,
      BitVec.toNat_signExtend, BitVec.toNat_setWidth, numRequestsInt, BitVec.msb_eq_decide,
      BitVec.toNat_setWidth, toNat_product]
    simp only [decide_eq_true_eq]
    split <;> omega
  rw [hbound]
  split <;> omega

example : numRequests ⟨65536, 65536, by decide, by decide, by decide, by decide⟩ = 0 := by decide

end LoadArgs

/-! ## The client -/

/-- `local_pkt_counter`, `local_pkt_counter_cache`, `local_pkt_counter_server` and
`local_pkt_counter_miss` of the Rx thread; with one worker they are the global counters. -/
structure PktCounters where
  pkt : BitVec 32
  cache : BitVec 32
  server : BitVec 32
  miss : BitVec 32

/-- What `rx_t` counts for a datagram: every reply as a packet, and by `cached` as one of the cache
or of a server. -/
def PktCounters.count (c : PktCounters) (h : OrbitcacheH) : PktCounters :=
  if h.op = opRReply then
    if h.cached = 1 then { c with pkt := c.pkt + 1, cache := c.cache + 1 }
    else
      { c with
        pkt := c.pkt + 1
        server := c.server + 1
        miss := if h.cached = missed then c.miss + 1 else c.miss }
  else if h.op = opWReply then { c with pkt := c.pkt + 1, server := c.server + 1 }
  else c

/-- What a Tx thread draws for a request: its kind, its item, its value and the time it notes. -/
structure TxDraw where
  isWrite : Bool
  keyValue : BitVec 64
  value : Bytes
  latency : BitVec 32

/-- The request, on the key of the item that was drawn. -/
def TxDraw.request (d : TxDraw) : TxRequest :=
  ⟨d.isWrite, tostringKey d.keyValue, d.value, d.latency⟩

/-- A request or a correction that was not answered yet. -/
structure Unanswered where
  /-- The number of the request. -/
  number : Nat
  /-- The key of the request. -/
  key : Bytes
  message : Message

/-- A reply that `rx_t` received, with the message that it answers. -/
structure Reception where
  /-- What it answers. -/
  asked : Unanswered
  reply : Message
  /-- The number of requests that had left by then. -/
  sentBefore : Nat

/-- The client during a run: its variables, and what was sent and received, with which the printed
figures are compared. -/
structure ClientRun where
  client : Client
  /-- `counter` of `tx_t`. -/
  counter : BitVec 64
  txDone : Bool
  /-- `rx_t` heard nothing for a second and closed the socket. -/
  rxDone : Bool
  /-- `rx_t` gave `strncmp` the null pointer of `seq_get`, and the process died. -/
  crashed : Bool
  counters : PktCounters
  /-- The requests that left, oldest first. -/
  sent : List TxRequest
  waiting : List Unanswered
  /-- What `rx_t` received, oldest first. -/
  received : List Reception

/-- What happens to a client: a turn of one of its threads, or the end of the Rx thread. -/
inductive ClientEvent where
  | send (d : TxDraw)
  /-- A reply to the waiting message at the index `i`, at a time of `rx_t`. -/
  | reply (i : Nat) (m : Message) (latency : BitVec 32)
  | stop

/-- A reply to a request or a correction: a READ is answered by the server with its own key or from
the cache, with any key, a WRITE and a CRCTN by the server. -/
def IsReply (q m : Message) : Prop :=
  m.orbitcache.seq = q.orbitcache.seq ∧
    (q.orbitcache.op = opRead ∧ m.orbitcache.op = opRReply ∧
        (m.orbitcache.cached = 1 ∨ m.payload.orgKey = q.payload.orgKey) ∨
      q.orbitcache.op = opWrite ∧ m.orbitcache.op = opWReply ∧
        m.payload.orgKey = q.payload.orgKey ∨
      q.orbitcache.op = opCrctn ∧ m.orbitcache.op = opRReply ∧ m.orbitcache.cached ≠ 1 ∧
        m.payload.orgKey = q.payload.orgKey)

instance (q m : Message) : Decidable (IsReply q m) := inferInstanceAs (Decidable (_ ∧ _))

namespace ClientRun

section
variable (hash : Bytes → Hkey) (dest : Bytes → Endpoint) (me : Endpoint) (b : LoadArgs)

/-- The client before its threads start: nothing was sent or received and all counters are zero. -/
def start : ClientRun := ⟨Client.init, 0, false, false, false, ⟨0, 0, 0, 0⟩, [], [], []⟩

/-- One turn of `tx_t`; on a closed socket nothing is sent, but the turn counts. -/
def send (s : ClientRun) (d : TxDraw) : ClientRun :=
  let r := d.request
  let (client, m) := s.client.tx hash dest me r.isWrite r.key r.value r.latency
  let s := { s with
    client := client
    counter := s.counter + 1
    txDone := b.numRequests ≤ s.counter + 1 }
  if s.rxDone then s
  else { s with sent := s.sent ++ [r], waiting := s.waiting ++ [⟨s.sent.length, r.key, m⟩] }

/-- A reply `m` to `q` when `rx_t` has counted it and before it looks at the key. -/
def counted (s : ClientRun) (i : Nat) (q : Unanswered) (m : Message) : ClientRun :=
  { s with
    counters := s.counters.count m.orbitcache
    waiting := s.waiting.eraseIdx i
    received := s.received ++ [⟨q, m, s.sent.length⟩] }

/-- One datagram in `rx_t`; a correction waits for an answer in place of the request. Where
`seq_get` returns a null pointer the client does not survive the comparison of the keys. -/
def receive (s : ClientRun) (i : Nat) (m : Message) (latency : BitVec 32) : Option ClientRun := do
  let q ← s.waiting[i]?
  guard (IsReply q.message m)
  let s' := s.counted i q m
  match s.client.rx hash dest me m latency with
  | none => pure { s' with crashed := true }
  | some correction =>
    pure { s' with
      waiting := s'.waiting ++ correction.toList.map fun c => ⟨q.number, q.key, c⟩ }

/-- One event; a dead client takes no further step. -/
def step (s : ClientRun) (e : ClientEvent) : Option ClientRun :=
  if s.crashed then none
  else
    match e with
    | .send d => if s.txDone then none else some (s.send hash dest me b d)
    | .reply i m latency => if s.rxDone then none else s.receive hash dest me i m latency
    | .stop => some { s with rxDone := true }

end

/-- The Rx thread does not stop while the Tx thread sends. -/
def RxLast (s : ClientRun) : ClientEvent → Prop
  | .stop => s.txDone = true
  | .send _ | .reply .. => True

/-- A reply with the key of the request. -/
def OwnKey (r : Reception) : Prop := r.reply.payload.orgKey = r.asked.key

instance (r : Reception) : Decidable (OwnKey r) := inferInstanceAs (Decidable (_ = _))

/-- A cache reply. -/
def isCacheReply (r : Reception) : Bool :=
  r.reply.orbitcache.op == opRReply && r.reply.orbitcache.cached == 1

/-- A cache reply comes before `MAX_SEQ_HDRS` requests followed the one it answers. Only for these
replies does `rx_t` look the key up. -/
def InTime (r : Reception) : Prop :=
  isCacheReply r = true → r.sentBefore ≤ r.asked.number + maxSeqHdrs

instance (r : Reception) : Decidable (InTime r) := inferInstanceAs (Decidable (_ → _))

/-- The replies with the key of their request. -/
def ownReplies (s : ClientRun) : List Reception := s.received.filter fun r => OwnKey r

/-- The requests that were answered. -/
def answered (s : ClientRun) : Finset Nat := (s.ownReplies.map fun r => r.asked.number).toFinset

/-- What the client prints is true: it lives to print, all requests were sent, the counter is the
number of those that were answered, and the loss rate is the part of the others. -/
structure Truthful (b : LoadArgs) (s : ClientRun) : Prop where
  alive : s.crashed = false
  sent : s.sent.length = b.targetQps * b.timeExp
  counted : s.counters.pkt.toInt = s.answered.card
  split : s.counters.pkt.toInt = s.counters.cache.toInt + s.counters.server.toInt
  rate : b.lossrate s.counters.pkt = 1 - (s.answered.card : ℚ) / s.sent.length
  range : 0 ≤ b.lossrate s.counters.pkt ∧ b.lossrate s.counters.pkt ≤ 1

/-! ## The Tx thread -/

section
variable {hash : Bytes → Hkey} {dest : Bytes → Endpoint} {me : Endpoint} {b : LoadArgs}
variable {s s' : ClientRun}

/-- What the Tx thread has done: the requests that were sent are those that its counter counts, and
it stops at the bound. -/
structure TxInv (hash : Bytes → Hkey) (dest : Bytes → Endpoint) (me : Endpoint) (b : LoadArgs)
    (s : ClientRun) : Prop where
  rxLast : s.rxDone = true → s.txDone = true
  client : s.client = Client.sendAll hash dest me s.sent
  keys : ∀ r ∈ s.sent, r.key.length = keySize - 1
  running : s.txDone = false → s.counter.toNat = s.sent.length ∧
    (s.sent.length = 0 ∨ s.sent.length < b.numRequests.toNat)
  done : s.txDone = true → s.sent.length = max 1 b.numRequests.toNat

/-- Nothing was sent. -/
theorem txInv_start : start.TxInv hash dest me b where
  rxLast h := h
  client := rfl
  keys r hr := by cases hr
  running _ := ⟨rfl, Or.inl rfl⟩
  done h := by cases h

/-- The Tx thread sends at most its bound, and at least one request, since it tests the bound after
the turn. -/
theorem TxInv.sent_le (h : s.TxInv hash dest me b) :
    s.sent.length ≤ max 1 b.numRequests.toNat := by
  cases hdone : s.txDone with
  | true => exact (h.done hdone).le
  | false =>
    obtain ⟨-, hlen⟩ := h.running hdone
    omega

/-- A turn of `tx_t` while the socket is open. -/
theorem send_eq (hrx : s.rxDone = false) (d : TxDraw) :
    s.send hash dest me b d =
      let x := s.client.tx hash dest me d.request.isWrite d.request.key d.request.value
        d.request.latency
      { s with
        client := x.1
        counter := s.counter + 1
        txDone := b.numRequests ≤ s.counter + 1
        sent := s.sent ++ [d.request]
        waiting := s.waiting ++ [⟨s.sent.length, d.request.key, x.2⟩] } := by
  rw [send, hrx]
  rfl

/-- The socket is open while the Tx thread sends. -/
theorem TxInv.rxDone_eq_false (h : s.TxInv hash dest me b) (htx : s.txDone = false) :
    s.rxDone = false := by
  rw [← Bool.not_eq_true]
  intro hrx
  rw [h.rxLast hrx] at htx
  cases htx

/-- A turn of the Tx thread keeps this, and is the last one if it reaches the bound. -/
theorem TxInv.send (h : s.TxInv hash dest me b) (htx : s.txDone = false) (d : TxDraw) :
    (s.send hash dest me b d).TxInv hash dest me b := by
  have hrx := h.rxDone_eq_false htx
  obtain ⟨hcounter, hlen⟩ := h.running htx
  have hlt : s.counter.toNat + 1 < 2 ^ 64 := by
    have hmax := b.numRequests.isLt
    omega
  have hnext : (s.counter + 1).toNat = s.sent.length + 1 := by
    rw [BitVec.toNat_add, show (1 : BitVec 64).toNat = 1 from rfl, Nat.mod_eq_of_lt hlt, hcounter]
  have hdone : b.numRequests ≤ s.counter + 1 ↔ b.numRequests.toNat ≤ s.sent.length + 1 := by
    rw [BitVec.le_def, hnext]
  rw [send_eq hrx]
  refine ⟨fun hx => ?_, ?_, ?_, fun hx => ?_, fun hx => ?_⟩
  · exact absurd (hx.symm.trans hrx) (by decide)
  · rw [Client.sendAll_concat, ← h.client]
  · intro r hr
    rcases List.mem_append.1 hr with hr | hr
    · exact h.keys r hr
    · rw [List.mem_singleton.1 hr]
      exact length_tostringKey d.keyValue
  · rw [List.length_append, List.length_singleton]
    rw [decide_eq_false_iff_not, hdone] at hx
    exact ⟨hnext, Or.inr (by omega)⟩
  · rw [List.length_append, List.length_singleton]
    rw [decide_eq_true_eq, hdone] at hx
    omega

/-- A datagram that `rx_t` receives: it answers a message that waits, and either the key of its
request is not found any more or the client goes on. -/
theorem receive_eq_some {i : Nat} {m : Message} {latency : BitVec 32}
    (h : s.receive hash dest me i m latency = some s') :
    ∃ q, s.waiting[i]? = some q ∧ IsReply q.message m ∧
      ((s.client.rx hash dest me m latency = none ∧ s' = { s.counted i q m with crashed := true }) ∨
        ∃ correction, s.client.rx hash dest me m latency = some correction ∧
          s' = { s.counted i q m with
            waiting := s.waiting.eraseIdx i ++
              correction.toList.map fun c => ⟨q.number, q.key, c⟩ }) := by
  rw [receive] at h
  simp only [Option.bind_eq_bind, Option.bind_eq_some_iff, Option.guard_eq_some', Option.pure_def]
    at h
  obtain ⟨q, hq, -, hreply, h⟩ := h
  refine ⟨q, hq, hreply, ?_⟩
  split at h
  · next hrx => exact Or.inl ⟨hrx, (Option.some.inj h).symm⟩
  · next correction hrx => exact Or.inr ⟨correction, hrx, (Option.some.inj h).symm⟩

/-- A step is one of a client that lives. -/
theorem crashed_eq_false_of_step {e : ClientEvent} (hstep : s.step hash dest me b e = some s') :
    s.crashed = false := by
  unfold step at hstep
  split at hstep
  · cases hstep
  · next halive => exact Bool.eq_false_iff.2 halive

/-- What an event does: a turn of `tx_t`, a datagram in `rx_t`, or the end of the Rx thread. -/
theorem step_cases {e : ClientEvent} (hstep : s.step hash dest me b e = some s') :
    (∃ d, e = .send d ∧ s.txDone = false ∧ s' = s.send hash dest me b d) ∨
    (∃ i m latency, e = .reply i m latency ∧ s.rxDone = false ∧
      s.receive hash dest me i m latency = some s') ∨
    e = .stop ∧ s' = { s with rxDone := true } := by
  have halive := crashed_eq_false_of_step hstep
  unfold step at hstep
  rw [if_neg (by simp [halive])] at hstep
  cases e with
  | send d =>
    simp only at hstep
    split at hstep
    · cases hstep
    · next htx => exact .inl ⟨d, rfl, Bool.eq_false_iff.2 htx, (Option.some.inj hstep).symm⟩
  | reply i m latency =>
    simp only at hstep
    split at hstep
    · cases hstep
    · next hrx => exact .inr (.inl ⟨i, m, latency, rfl, Bool.eq_false_iff.2 hrx, hstep⟩)
  | stop => exact .inr (.inr ⟨rfl, (Option.some.inj hstep).symm⟩)

/-- Every step keeps what the Tx thread has done. -/
theorem TxInv.step (h : s.TxInv hash dest me b) {e : ClientEvent} (he : s.RxLast e)
    (hstep : s.step hash dest me b e = some s') : s'.TxInv hash dest me b := by
  obtain ⟨d, rfl, htx, rfl⟩ | ⟨i, m, latency, rfl, -, hreceive⟩ | ⟨rfl, rfl⟩ := step_cases hstep
  · exact h.send htx d
  · obtain ⟨q, -, -, ⟨-, rfl⟩ | ⟨correction, -, rfl⟩⟩ := receive_eq_some hreceive
    · exact ⟨h.rxLast, h.client, h.keys, h.running, h.done⟩
    · exact ⟨h.rxLast, h.client, h.keys, h.running, h.done⟩
  · exact ⟨fun _ => he, h.client, h.keys, h.running, h.done⟩

/-! ## The Rx thread -/

/-- A message that waits for an answer is for a request that was sent, with its number and key. -/
structure Asked (sent : List TxRequest) (q : Unanswered) : Prop where
  request : ∃ r, sent[q.number]? = some r ∧ r.key = q.key
  seq : q.message.orbitcache.seq = BitVec.ofNat 32 q.number
  key : q.message.payload.orgKey = q.key

/-- `strncmp` up to `KEY_SIZE` decides whether a string is a key. -/
theorem eq_of_take_eq {key l : Bytes} (hkey : key.length = keySize - 1)
    (h : key.take keySize = l.take keySize) : l = key := by
  have hlen := congrArg List.length h
  rw [List.length_take, List.length_take, hkey] at hlen
  have hl : l.length = keySize - 1 := by
    simp only [keySize] at hlen ⊢
    omega
  rw [List.take_of_length_le (by rw [hkey]; decide), List.take_of_length_le (by rw [hl]; decide)]
    at h
  exact h.symm

/-- A reply kills the client if and only if it is a cache reply that comes too late. -/
theorem rx_eq_none_iff (h : s.TxInv hash dest me b) (hlen : s.sent.length ≤ 2 ^ 32)
    {q : Unanswered} (hq : Asked s.sent q) {m : Message} (hreply : IsReply q.message m)
    {latency : BitVec 32} :
    s.client.rx hash dest me m latency = none ↔ ¬ InTime ⟨q, m, s.sent.length⟩ := by
  obtain ⟨r, hr, hkey⟩ := hq.request
  have hrlen := h.keys r (List.mem_of_getElem? hr)
  have hnone : (Client.sendAll hash dest me s.sent).seqGet (BitVec.ofNat 32 q.number) = none ↔
      q.number + maxSeqHdrs < s.sent.length := Client.seqGet_eq_none_iff hlen hr hrlen
  simp only [InTime, isCacheReply, Bool.and_eq_true, beq_iff_eq]
  rw [← h.client, ← hq.seq, ← hreply.1] at hnone
  rw [Client.rx]
  split
  · next hcached =>
    cases hget : s.client.seqGet m.orbitcache.seq with
    | none =>
      have hlate := hnone.1 hget
      exact iff_of_true rfl fun hin => Nat.not_le_of_lt hlate (hin hcached)
    | some clientKey =>
      have hnear : ¬ q.number + maxSeqHdrs < s.sent.length := fun hlate => by
        rw [hnone.2 hlate] at hget
        cases hget
      refine iff_of_false ?_ (not_not.2 fun _ => Nat.le_of_not_lt hnear)
      simp only [Option.bind_eq_bind, Option.bind_some]
      split <;> exact Option.some_ne_none _
  · next hother => exact iff_of_false (Option.some_ne_none _) (not_not.2 fun hc => absurd hc hother)

/-- A reply with the key of the request needs no correction, one with another key gets one. -/
theorem rx_cases (h : s.TxInv hash dest me b) (hlen : s.sent.length ≤ 2 ^ 32) {q : Unanswered}
    (hq : Asked s.sent q) {m : Message} (hreply : IsReply q.message m) {latency : BitVec 32}
    {correction : Option Message} (n : Nat)
    (hrx : s.client.rx hash dest me m latency = some correction) :
    (OwnKey ⟨q, m, n⟩ ∧ correction = none) ∨
      (¬ OwnKey ⟨q, m, n⟩ ∧ q.message.orbitcache.op = opRead ∧
        ∃ c, correction = some c ∧ c.orbitcache.op = opCrctn ∧ c.orbitcache.seq = m.orbitcache.seq ∧
          c.payload.orgKey = q.key) := by
  obtain ⟨r, hr, hkey⟩ := hq.request
  have hrlen := h.keys r (List.mem_of_getElem? hr)
  rw [Client.rx] at hrx
  split at hrx
  · next hcached =>
    simp only [Option.bind_eq_bind, Option.bind_eq_some_iff] at hrx
    obtain ⟨clientKey, hget, hrx⟩ := hrx
    rw [h.client, hreply.1, hq.seq] at hget
    have hclient : clientKey = q.key := (Client.eq_of_seqGet hlen hr hrlen hget).trans hkey
    have hqlen : q.key.length = keySize - 1 := hkey ▸ hrlen
    rw [hclient] at hrx
    split at hrx
    · next hne =>
      cases hrx
      refine Or.inr ⟨fun hown => hne (by rw [show m.payload.orgKey = q.key from hown]), ?_,
        _, rfl, rfl, rfl, rfl⟩
      rcases hreply.2 with ⟨hop, -⟩ | ⟨-, hop, -⟩ | ⟨-, -, hnot, -⟩
      · exact hop
      · rw [hcached.1] at hop
        exact absurd hop (by decide)
      · exact absurd hcached.2 hnot
    · next heq =>
      cases hrx
      exact Or.inl ⟨eq_of_take_eq hqlen (not_not.1 heq), rfl⟩
  · next hother =>
    cases hrx
    refine Or.inl ⟨?_, rfl⟩
    rcases hreply.2 with ⟨-, hop, hcached | hown⟩ | ⟨-, -, hown⟩ | ⟨-, -, -, hown⟩
    · exact absurd ⟨hop, hcached⟩ hother
    all_goals exact hown.trans hq.key

/-- A request has one message that waits or one reply with its key. -/
def tokens (s : ClientRun) : List Nat :=
  s.waiting.map Unanswered.number ++ s.ownReplies.map fun r => r.asked.number

/-- A message that is not a correction. -/
def isFirst (q : Unanswered) : Bool := q.message.orbitcache.op != opCrctn

/-- What the Rx thread has done while the client lives: every reply answers a request that was sent,
each request at most once with its own key, and the counters are the numbers of replies received. -/
structure RxInv (s : ClientRun) : Prop where
  asked : ∀ q ∈ s.waiting, Asked s.sent q
  tokens_lt : ∀ n ∈ s.tokens, n < s.sent.length
  tokens_nodup : s.tokens.Nodup
  collisions : s.received.countP (fun r => !decide (OwnKey r)) + s.waiting.countP isFirst ≤
    s.sent.length
  pkt : s.counters.pkt = BitVec.ofNat 32 s.received.length
  cache : s.counters.cache = BitVec.ofNat 32 (s.received.countP isCacheReply)
  server : s.counters.server = BitVec.ofNat 32 (s.received.countP fun r => !isCacheReply r)
  inTime : ∀ r ∈ s.received, InTime r

/-- Nothing waits and nothing was received. -/
theorem rxInv_start : start.RxInv where
  asked q hq := by cases hq
  tokens_lt n hn := by cases hn
  tokens_nodup := List.nodup_nil
  collisions := Nat.le_refl 0
  pkt := rfl
  cache := rfl
  server := rfl
  inTime r hr := by cases hr

/-- What is known of a waiting message stays true. -/
theorem Asked.append {sent : List TxRequest} {q : Unanswered} (h : Asked sent q) (r : TxRequest) :
    Asked (sent ++ [r]) q := by
  obtain ⟨r', hr', hkey⟩ := h.request
  refine ⟨⟨r', ?_, hkey⟩, h.seq, h.key⟩
  rw [List.getElem?_append_left (List.getElem?_eq_some_iff.1 hr').1, hr']

/-- A request adds a message that waits, with a number of its own. -/
theorem RxInv.send (h : s.RxInv) (htx : s.TxInv hash dest me b) (hrx : s.rxDone = false)
    (d : TxDraw) : (s.send hash dest me b d).RxInv := by
  have hseq : s.client.seqGlobal = BitVec.ofNat 32 s.sent.length := by
    rw [htx.client]
    exact (Client.sendAll_eq s.sent).1
  have htokens : (s.send hash dest me b d).tokens.Perm (s.sent.length :: s.tokens) := by
    rw [send_eq hrx, tokens, tokens, List.map_append, List.append_assoc]
    exact List.perm_middle
  have hsent : (s.send hash dest me b d).sent.length = s.sent.length + 1 := by
    rw [send_eq hrx]
    exact List.length_append
  refine ⟨?_, fun n hn => ?_, htokens.nodup_iff.2 (List.nodup_cons.2 ⟨?_, h.tokens_nodup⟩), ?_, ?_,
    ?_, ?_, ?_⟩
  · rw [send_eq hrx]
    intro q hq
    rcases List.mem_append.1 hq with hq | hq
    · exact (h.asked q hq).append d.request
    · rw [List.mem_singleton.1 hq]
      refine ⟨⟨d.request, List.getElem?_concat_length, rfl⟩, ?_, ?_⟩
      · simp only [Client.tx]
        split <;> exact hseq
      · simp only [Client.tx]
        split <;> rfl
  · rw [hsent]
    rcases List.mem_cons.1 (htokens.mem_iff.1 hn) with rfl | hn
    · exact Nat.lt_succ_self _
    · exact Nat.lt_succ_of_lt (h.tokens_lt n hn)
  · exact fun hmem => Nat.lt_irrefl _ (h.tokens_lt _ hmem)
  · have hle := h.collisions
    have hwaiting : (s.send hash dest me b d).waiting.countP isFirst ≤
        s.waiting.countP isFirst + 1 := by
      rw [send_eq hrx, List.countP_append, List.countP_singleton]
      split <;> omega
    have hreceived : (s.send hash dest me b d).received = s.received := by rw [send_eq hrx]
    rw [hsent, hreceived]
    omega
  all_goals rw [send_eq hrx]
  · exact h.pkt
  · exact h.cache
  · exact h.server
  · exact h.inTime

/-- A reply is counted once, as one from the cache or as one from a server. -/
theorem count_reply (c : PktCounters) {q : Unanswered} {m : Message} (n : Nat)
    (h : IsReply q.message m) :
    (c.count m.orbitcache).pkt = c.pkt + 1 ∧
      (c.count m.orbitcache).cache = c.cache + BitVec.ofNat 32 (isCacheReply ⟨q, m, n⟩).toNat ∧
      (c.count m.orbitcache).server =
        c.server + BitVec.ofNat 32 (!isCacheReply ⟨q, m, n⟩).toNat := by
  have hop : m.orbitcache.op = opRReply ∨ m.orbitcache.op = opWReply := by
    rcases h.2 with ⟨-, hop, -⟩ | ⟨-, hop, -⟩ | ⟨-, hop, -⟩
    · exact Or.inl hop
    · exact Or.inr hop
    · exact Or.inl hop
  rcases hop with hop | hop
  · by_cases hcached : m.orbitcache.cached = 1
    · simp [PktCounters.count, isCacheReply, hop, hcached]
    · have hbeq : (m.orbitcache.cached == 1) = false := beq_eq_false_iff_ne.2 hcached
      rw [PktCounters.count, if_pos hop, if_neg hcached, isCacheReply, hbeq, Bool.and_false]
      exact ⟨rfl, (BitVec.add_zero _).symm, rfl⟩
  · simp [PktCounters.count, isCacheReply, hop]

/-- The token of the request becomes one of the reply, or stays one of the waiting message. -/
theorem tokens_receive {i : Nat} {q : Unanswered} {m : Message} {correction : Option Message}
    (hwaiting : s.waiting.Perm (q :: s.waiting.eraseIdx i))
    (h : OwnKey ⟨q, m, s.sent.length⟩ ↔ correction = none) :
    ({ s.counted i q m with
      waiting := s.waiting.eraseIdx i ++ correction.toList.map fun c => ⟨q.number, q.key, c⟩ } :
        ClientRun).tokens.Perm s.tokens := by
  have hperm : (q.number :: ((s.waiting.eraseIdx i).map Unanswered.number ++
      s.ownReplies.map fun r => r.asked.number)).Perm s.tokens :=
    ((hwaiting.map Unanswered.number).append_right _).symm
  refine List.Perm.trans ?_ hperm
  simp only [tokens, ownReplies, counted, List.filter_append, List.map_append]
  cases correction with
  | none =>
    rw [List.filter_singleton, decide_eq_true (h.2 rfl), cond_true]
    simp only [Option.toList_none, List.map_nil, List.append_nil, List.map_cons]
    rw [← List.append_assoc]
    exact List.perm_append_singleton _ _
  | some c =>
    have hother : ¬ OwnKey ⟨q, m, s.sent.length⟩ := fun hown => Option.some_ne_none c (h.1 hown)
    rw [List.filter_singleton, decide_eq_false hother, cond_false]
    simp only [Option.toList_some, List.map_cons, List.map_nil, List.append_nil]
    rw [List.append_assoc]
    exact List.perm_middle

/-- The message that is answered is replaced by the reply or by the correction, so no request is
answered twice. -/
theorem RxInv.receive (h : s.RxInv) (htx : s.TxInv hash dest me b) (hlen : s.sent.length ≤ 2 ^ 32)
    {i : Nat} {q : Unanswered} {m : Message} {latency : BitVec 32} {correction : Option Message}
    (hq : s.waiting[i]? = some q) (hreply : IsReply q.message m)
    (hrx : s.client.rx hash dest me m latency = some correction) :
    ({ s.counted i q m with
      waiting := s.waiting.eraseIdx i ++ correction.toList.map fun c => ⟨q.number, q.key, c⟩ } :
        ClientRun).RxInv := by
  have hasked := h.asked q (List.mem_of_getElem? hq)
  have hwaiting : s.waiting.Perm (q :: s.waiting.eraseIdx i) := by
    obtain ⟨hi, rfl⟩ := List.getElem?_eq_some_iff.1 hq
    exact (List.getElem_cons_eraseIdx_perm hi).symm
  have hcases := rx_cases htx hlen hasked hreply s.sent.length hrx
  obtain ⟨hpkt, hcache, hserver⟩ := count_reply s.counters s.sent.length hreply
  have hin : InTime ⟨q, m, s.sent.length⟩ := by
    by_contra hlate
    rw [(rx_eq_none_iff htx hlen hasked hreply).2 hlate] at hrx
    cases hrx
  have howned : OwnKey ⟨q, m, s.sent.length⟩ ↔ correction = none := by
    rcases hcases with ⟨hown, rfl⟩ | ⟨hother, -, c, rfl, -⟩
    · exact iff_of_true hown rfl
    · exact iff_of_false hother (Option.some_ne_none c)
  have htokens := tokens_receive hwaiting howned
  refine ⟨fun q' hq' => ?_, fun n hn => h.tokens_lt n (htokens.mem_iff.1 hn),
    htokens.nodup_iff.2 h.tokens_nodup, ?_, ?_, ?_, ?_, fun r hr => ?_⟩
  · rcases List.mem_append.1 hq' with hq' | hq'
    · exact h.asked q' (List.mem_of_mem_eraseIdx hq')
    · rcases hcases with ⟨-, rfl⟩ | ⟨-, -, c, rfl, -, hseq, hkey⟩
      · cases hq'
      · rw [List.mem_singleton.1 hq']
        exact ⟨hasked.request, (hseq.trans hreply.1).trans hasked.seq, hkey⟩
  · have hle := h.collisions
    have hfirst := hwaiting.countP_eq isFirst
    rw [List.countP_cons] at hfirst
    simp only [counted, List.countP_append, List.countP_singleton]
    rcases hcases with ⟨hown, rfl⟩ | ⟨hother, hread, c, rfl, hop, -⟩
    · simp [hown]
      omega
    · have hq1 : isFirst q = true := by
        rw [isFirst, hread]
        rfl
      rw [if_pos hq1] at hfirst
      simp [hother, isFirst, hop]
      omega
  · simp only [counted]
    rw [hpkt, h.pkt, List.length_append, BitVec.ofNat_add]
    rfl
  · simp only [counted]
    rw [hcache, h.cache, List.countP_append, List.countP_singleton, BitVec.ofNat_add]
    cases isCacheReply ⟨q, m, s.sent.length⟩ <;> rfl
  · simp only [counted]
    rw [hserver, h.server, List.countP_append, List.countP_singleton, BitVec.ofNat_add]
    cases isCacheReply ⟨q, m, s.sent.length⟩ <;> rfl
  · rcases List.mem_append.1 hr with hr | hr
    · exact h.inTime r hr
    · rw [List.mem_singleton.1 hr]
      exact hin

/-- A client lives and its threads have done what they do, or a reply that came too late has killed
it. -/
def AliveOrLate (s : ClientRun) : Prop :=
  (s.crashed = false ∧ s.RxInv) ∨ (s.crashed = true ∧ ∃ r ∈ s.received, ¬ InTime r)

/-- The run before its budget is spent, if that fits an `int`: a step keeps the client alive unless
the reply comes too late. -/
theorem AliveOrLate.step (h : s.AliveOrLate) (htx : s.TxInv hash dest me b)
    (hlen : s.sent.length ≤ 2 ^ 32) {e : ClientEvent}
    (hstep : s.step hash dest me b e = some s') : s'.AliveOrLate := by
  have halive := crashed_eq_false_of_step hstep
  obtain ⟨-, h⟩ | ⟨hdead, -⟩ := h
  · obtain ⟨d, rfl, hrun, rfl⟩ | ⟨i, m, latency, rfl, -, hreceive⟩ | ⟨rfl, rfl⟩ := step_cases hstep
    · have hrx := htx.rxDone_eq_false hrun
      exact Or.inl ⟨by rw [send_eq hrx]; exact halive, h.send htx hrx d⟩
    · obtain ⟨q, hq, hreply, ⟨hrx, rfl⟩ | ⟨correction, hrx, rfl⟩⟩ := receive_eq_some hreceive
      · have hlate := (rx_eq_none_iff htx hlen (h.asked q (List.mem_of_getElem? hq)) hreply).1 hrx
        exact Or.inr ⟨rfl, _, List.mem_append_right _ (List.mem_singleton_self _), hlate⟩
      · exact Or.inl ⟨halive, h.receive htx hlen hq hreply hrx⟩
    · exact Or.inl ⟨halive, h.asked, h.tokens_lt, h.tokens_nodup, h.collisions, h.pkt, h.cache,
        h.server, h.inTime⟩
  · rw [halive] at hdead
    cases hdead

/-! ## Runs -/

/-- A run of the client in which the Rx thread does not stop before the Tx thread. -/
abbrev LateRun (hash : Bytes → Hkey) (dest : Bytes → Endpoint) (me : Endpoint) (b : LoadArgs) :
    ClientRun → ClientRun → Prop := Run (step hash dest me b) RxLast

/-- Over a run, by induction. -/
theorem txInv_of_run (h : LateRun hash dest me b start s) : s.TxInv hash dest me b :=
  h.invariant _ txInv_start fun _ _ _ hinv he hstep => hinv.step he hstep

/-- Over a run, as long as there are no more requests than sequence numbers. -/
theorem aliveOrLate_of_run (h : LateRun hash dest me b start s)
    (hbound : max 1 b.numRequests.toNat ≤ 2 ^ 32) : s.AliveOrLate := by
  have hboth : s.TxInv hash dest me b ∧ s.AliveOrLate := by
    refine h.invariant (fun s => s.TxInv hash dest me b ∧ s.AliveOrLate)
      ⟨txInv_start, Or.inl ⟨rfl, rxInv_start⟩⟩ ?_
    rintro t e u ⟨htx, hrx⟩ he hstep
    exact ⟨htx.step he hstep, hrx.step htx (htx.sent_le.trans hbound) hstep⟩
  exact hboth.2

/-- The received replies are the answers and the collisions, those with another key than the
request. -/
theorem RxInv.length_received (h : s.RxInv) :
    s.received.length = s.answered.card + s.received.countP fun r => !decide (OwnKey r) := by
  have hnodup : (s.ownReplies.map fun r => r.asked.number).Nodup :=
    (List.nodup_append.1 h.tokens_nodup).2.1
  rw [answered, List.toFinset_card_of_nodup hnodup, List.length_map, ownReplies,
    ← List.countP_eq_length_filter, List.length_eq_countP_add_countP fun r => decide (OwnKey r)]
  simp

/-- Only requests that were sent are answered, each counted once. -/
theorem RxInv.answered_le (h : s.RxInv) : s.answered.card ≤ s.sent.length := by
  have hsub : s.answered ⊆ Finset.range s.sent.length := by
    intro n hn
    exact Finset.mem_range.2 (h.tokens_lt n (List.mem_append_right _ (List.mem_toFinset.1 hn)))
  simpa using Finset.card_le_card hsub

/-- The value of an `int` that counted up to `k`. -/
theorem toInt_ofNat_eq {k : Nat} (h : k < 2 ^ 32) :
    (BitVec.ofNat 32 k).toInt = if k < 2 ^ 31 then (k : Int) else k - 2 ^ 32 := by
  rw [BitVec.toInt_eq_toNat_cond, BitVec.toNat_ofNat, Nat.mod_eq_of_lt h]
  split <;> split <;> omega

/-- Below `2 ^ 31` a counter shows what was counted. -/
theorem toInt_ofNat_of_lt {k : Nat} (h : k < 2 ^ 31) : (BitVec.ofNat 32 k).toInt = k := by
  rw [toInt_ofNat_eq (by omega), if_pos h]

/-- The rate of what is missing of a number is a rate. -/
theorem lossrate_mem_unit {answered sent : Nat} (hsent : 0 < sent) (hle : answered ≤ sent) :
    0 ≤ 1 - (answered : ℚ) / sent ∧ 1 - (answered : ℚ) / sent ≤ 1 := by
  have hpos : (0 : ℚ) < sent := by exact_mod_cast hsent
  have hone : (answered : ℚ) / sent ≤ 1 := by
    rw [div_le_one hpos]
    exact_mod_cast hle
  have hzero : 0 ≤ (answered : ℚ) / sent := div_nonneg (Nat.cast_nonneg _) hpos.le
  exact ⟨sub_nonneg.2 hone, sub_le_self 1 hzero⟩

/-- Once the Tx thread is done or the client is dead, what the client prints is true if and only if
the budget fits an `int`, no reply carried another key than that of its request, and no cache reply
came after the slot of its request was taken. -/
theorem truthful_late_iff (hrun : LateRun hash dest me b start s)
    (hended : s.txDone = true ∨ s.crashed = true) :
    s.Truthful b ↔ b.targetQps * b.timeExp < 2 ^ 31 ∧ ∀ r ∈ s.received, OwnKey r ∧ InTime r := by
  have htx := txInv_of_run hrun
  have hpos : 0 < b.targetQps * b.timeExp := Nat.mul_pos b.targetQps_pos b.timeExp_pos
  constructor
  · intro h
    have hdone : s.txDone = true := hended.resolve_right (by simp [h.alive])
    have hsent := htx.done hdone
    have hfits := b.max_numRequests_eq_iff.1 (hsent.symm.trans h.sent)
    obtain ⟨-, hrx⟩ | ⟨hdead, -⟩ := aliveOrLate_of_run hrun (by rw [← hsent, h.sent]; omega)
    · have hlen := hrx.length_received
      have hanswered := hrx.answered_le
      have hcollisions := hrx.collisions
      have hcounted := h.counted
      rw [h.sent] at hanswered hcollisions
      rw [hrx.pkt, toInt_ofNat_eq (by omega)] at hcounted
      have hnone : s.received.countP (fun r => !decide (OwnKey r)) = 0 := by
        split at hcounted <;> omega
      refine ⟨hfits, fun r hr => ⟨?_, hrx.inTime r hr⟩⟩
      simpa using List.countP_eq_zero.1 hnone r hr
    · rw [h.alive] at hdead
      cases hdead
  · rintro ⟨hfits, hown⟩
    have hproduct := b.max_numRequests_eq_iff.2 hfits
    obtain ⟨halive, hrx⟩ | ⟨-, r, hr, hlate⟩ := aliveOrLate_of_run hrun (by rw [hproduct]; omega)
    · have hsent := htx.done (hended.resolve_right (by simp [halive]))
      have hlen := hrx.length_received
      have hanswered := hrx.answered_le
      have hnone : s.received.countP (fun r => !decide (OwnKey r)) = 0 :=
        List.countP_eq_zero.2 fun r hr => by simpa using (hown r hr).1
      have hsplit : s.received.length =
          s.received.countP isCacheReply + s.received.countP fun r => !isCacheReply r := by
        rw [List.length_eq_countP_add_countP isCacheReply]
        simp
      rw [hsent, hproduct] at hanswered
      rw [hnone, Nat.add_zero] at hlen
      have hcounted : s.counters.pkt.toInt = s.answered.card := by
        rw [hrx.pkt, toInt_ofNat_of_lt (by omega), hlen]
      have hrate : b.lossrate s.counters.pkt =
          1 - (s.answered.card : ℚ) / (b.targetQps * b.timeExp : ℕ) := by
        rw [LoadArgs.lossrate, hcounted, b.toNat_product, Int.cast_natCast]
      refine ⟨halive, hsent.trans hproduct, hcounted, ?_, ?_, ?_⟩
      · rw [hrx.pkt, hrx.cache, hrx.server, toInt_ofNat_of_lt (by omega),
          toInt_ofNat_of_lt (by omega), toInt_ofNat_of_lt (by omega), hsplit]
        exact Nat.cast_add _ _
      · rw [hrate, hsent, hproduct]
      · rw [hrate]
        exact lossrate_mem_unit hpos hanswered
    · exact absurd (hown r hr).2 hlate

/-- When the Rx thread closes the socket before the Tx thread is done, requests do not leave. -/
theorem not_truthful_of_early {t : ClientRun} (hrun : LateRun hash dest me b start t)
    (htx : t.txDone = false) (hrest : Run (step hash dest me b) (fun _ _ => True)
      { t with rxDone := true } s) (hfits : b.targetQps * b.timeExp < 2 ^ 31) :
    ¬ s.Truthful b := by
  have hclosed : s.rxDone = true ∧ s.sent = t.sent := by
    refine hrest.invariant (fun s => s.rxDone = true ∧ s.sent = t.sent) ⟨rfl, rfl⟩ ?_
    rintro u e v ⟨hrx, hsent⟩ - hstep
    obtain ⟨d, rfl, -, rfl⟩ | ⟨i, m, latency, rfl, hopen, -⟩ | ⟨rfl, rfl⟩ := step_cases hstep
    · rw [send, hrx]
      exact ⟨rfl, hsent⟩
    · rw [hrx] at hopen
      cases hopen
    · exact ⟨rfl, hsent⟩
  intro h
  have hproduct := b.max_numRequests_eq_iff.2 hfits
  have hlen := h.sent
  rw [hclosed.2] at hlen
  obtain ⟨-, hbound⟩ := (txInv_of_run hrun).running htx
  have hpos : 0 < b.targetQps * b.timeExp := Nat.mul_pos b.targetQps_pos b.timeExp_pos
  omega

end

/-! ## A READ that collides -/

/-- One request per second for one second: a budget of one request. -/
def oneRequest : LoadArgs := ⟨1, 1, by decide, by decide, by decide, by decide⟩

/-- Where the messages of the runs go. -/
def someEndpoint : Endpoint := ⟨0, 0⟩

/-- A reply to the first request, with a key and a value of `cached`. -/
def someReply (key : Bytes) (cached : BitVec 8) : Message :=
  datagram someEndpoint someEndpoint
    { op := opRReply, seq := 0, hkeyHi := 0, hkeyLo := 0, flag := 0, cached := cached,
      latency := 0 }
    { orgKey := key, value := [], tag := ⟨0, [], 0⟩ }

/-- A READ of the item 0, then its replies, as events of the client. -/
def readEvents (replies : List Message) : List ClientEvent :=
  .send ⟨false, 0, [], 0⟩ :: replies.map fun m => .reply 0 m 0

/-- The client after a READ of the item 0 and its replies. -/
def afterRead (replies : List Message) : Option ClientRun :=
  Run.exec (step (fun _ => (0, 0)) (fun _ => someEndpoint) someEndpoint oneRequest)
    (fun _ e => match e with | .stop => false | _ => true) start (readEvents replies)

/-- The events of such a client are a run: it never stops its Rx thread. -/
theorem run_afterRead {replies : List Message} {s : ClientRun} (h : afterRead replies = some s) :
    LateRun (fun _ => (0, 0)) (fun _ => someEndpoint) someEndpoint oneRequest start s := by
  refine Run.of_exec (fun s e he => ?_) h
  cases e with
  | send | reply => trivial
  | stop => cases he

/-- A READ that the cache answers with its key: what the client prints is true. -/
theorem truthful_cacheReply : ∃ s, afterRead [someReply (tostringKey 0) 1] = some s ∧
    s.Truthful oneRequest := by
  have hexec : (afterRead [someReply (tostringKey 0) 1]).any (fun s =>
      s.txDone && s.received.all fun r => OwnKey r ∧ InTime r) = true := by decide +kernel
  obtain ⟨s, hs, hp⟩ := (Option.any_eq_true _ _).1 hexec
  rw [Bool.and_eq_true, List.all_eq_true] at hp
  refine ⟨s, hs, (truthful_late_iff (run_afterRead hs) (Or.inl hp.1)).2
    ⟨by decide, fun r hr => ?_⟩⟩
  exact of_decide_eq_true (hp.2 r hr)

/-- A READ that the cache answers with another key, and the reply to its correction: two packets are
counted for one request, and the loss rate is -1. -/
theorem not_truthful_collision :
    ∃ s, afterRead [someReply (tostringKey 1) 1, someReply (tostringKey 0) 0] = some s ∧
      s.txDone = true ∧ s.sent.length = 1 ∧ s.answered.card = 1 ∧ s.counters.pkt = 2 ∧
      oneRequest.lossrate s.counters.pkt = -1 ∧ ¬ s.Truthful oneRequest := by
  have hexec : (afterRead [someReply (tostringKey 1) 1, someReply (tostringKey 0) 0]).any (fun s =>
      s.txDone && s.sent.length == 1 && s.answered.card == 1 && s.counters.pkt == 2) = true := by
    decide +kernel
  obtain ⟨s, hs, hp⟩ := (Option.any_eq_true _ _).1 hexec
  simp only [Bool.and_eq_true, beq_iff_eq] at hp
  obtain ⟨⟨⟨htx, hsent⟩, hcard⟩, hpkt⟩ := hp
  have hloss : oneRequest.lossrate s.counters.pkt = -1 := by
    rw [hpkt]
    decide +kernel
  refine ⟨s, hs, htx, hsent, hcard, hpkt, hloss, fun h => ?_⟩
  have hnonneg := h.range.1
  rw [hloss] at hnonneg
  exact absurd hnonneg (by decide)

end ClientRun

end OrbitCache
