import Mathlib.Algebra.BigOperators.Ring.Finset
import OrbitCache.Host.Refinement
import OrbitCache.Lib.Histogram

/-!
# What the client counts

The counters of `rx_t` in all three protocols, on the bytes of `RecvBuffer`, and the counters of the
partitions, which are addressed by the key and the `par_id` of a reply. A worker sends back both of
them (`echo_sent`), so in every run the counters are what their names say (`rxAll_replies`).
-/

namespace OrbitCache

/-- `MAX_SRV`, the number of servers that the array of counters is made for. -/
abbrev maxSrv : Nat := 8

/-- The counters of the Rx thread, which are the global ones when there is one worker, and
`global_par_counter`. -/
structure RxCounters where
  pkt : BitVec 32
  cache : BitVec 32
  server : BitVec 32
  miss : BitVec 32
  par : Nat → BitVec 32

/-- The counters at the beginning, as globals are. -/
def RxCounters.zero : RxCounters := ⟨0, 0, 0, 0, fun _ => 0⟩

section
variable (p : Protocol) (g : Nat) (buffer : Bytes)

/-- `RecvBuffer.cached`, six bytes in front of the key: `latency` and `par_id` are between them. -/
def cachedField : BitVec 8 := buffer.getD (keyOffset p - 6) 0

/-- `RecvBuffer.par_id`, right in front of the key. -/
def parIdField : BitVec 8 := buffer.getD (keyOffset p - 1) 0

/-- `RecvBuffer.org_key` as a C string; `buffer` is what is in memory from `RecvBuffer` on. -/
def rxKey : Bytes := cString (buffer.drop (keyOffset p))

/-- The index of a reply in `global_par_counter`: by the server of its key, and by the partition
that is written in it. -/
def parIndex : Nat := g * dstAddr (rxKey p buffer) + (parIdField p buffer).toNat

/-- `global_par_counter[…]++`, inside the array; there is no result outside of it. -/
def RxCounters.partition (c : RxCounters) : Option RxCounters :=
  if parIndex p g buffer < maxSrv * maxWorkers then
    some { c with par := Histogram.bump c.par (parIndex p g buffer) }
  else none

/-- What `rx_t` counts for a datagram, without the correction that it may send. -/
def RxCounters.rx (c : RxCounters) : Option RxCounters :=
  let op := opField buffer
  match p with
  | .nocache =>
    if op = opRReply then do
      let c ← partition .nocache g buffer { c with server := c.server + 1 }
      return { c with pkt := c.pkt + 1 }
    else if op = opWReply then do
      let c ← partition .nocache g buffer { c with server := c.server + 1 }
      return { c with pkt := c.pkt + 1 }
    else some c
  | .netcache =>
    if op = opRReply ∨ op = opWReply then
      if 0 < cachedField .netcache buffer then
        some { c with cache := c.cache + 1, pkt := c.pkt + 1 }
      else do
        let c ← partition .netcache g buffer { c with server := c.server + 1 }
        return { c with pkt := c.pkt + 1 }
    else some c
  | .orbitcache =>
    if op = opRReply then
      let c := { c with pkt := c.pkt + 1 }
      if cachedField .orbitcache buffer = 1 then some { c with cache := c.cache + 1 }
      else do
        let c ← partition .orbitcache g buffer { c with server := c.server + 1 }
        return if cachedField .orbitcache buffer = missed then { c with miss := c.miss + 1 } else c
    else if op = opWReply then
      partition .orbitcache g buffer { c with pkt := c.pkt + 1, server := c.server + 1 }
    else some c

/-! ## The kinds of replies -/

/-- A reply of the cache. OrbitCache marks its cache replies by `cached = 1`, NetCache by any other
value than zero. -/
def fromCache : Bool :=
  match p with
  | .nocache => false
  | .netcache => decide ((opField buffer = opRReply ∨ opField buffer = opWReply) ∧
      cachedField .netcache buffer ≠ 0)
  | .orbitcache => decide (opField buffer = opRReply ∧ cachedField .orbitcache buffer = 1)

/-- A reply of a server, to a READ or a WRITE. -/
def fromServer : Bool :=
  match p with
  | .nocache => decide (opField buffer = opRReply ∨ opField buffer = opWReply)
  | .netcache => decide ((opField buffer = opRReply ∨ opField buffer = opWReply) ∧
      cachedField .netcache buffer = 0)
  | .orbitcache => decide (opField buffer = opRReply ∧ cachedField .orbitcache buffer ≠ 1 ∨
      opField buffer = opWReply)

/-- A reply of an OrbitCache server to a READ that found the queue of its key full. -/
def fromMiss : Bool :=
  match p with
  | .nocache | .netcache => false
  | .orbitcache => decide (opField buffer = opRReply ∧ cachedField .orbitcache buffer = missed)

end

/-- A counter after something that may be counted, as a 32-bit word. -/
def tick (counted : Bool) (x : BitVec 32) : BitVec 32 := if counted then x + 1 else x

/-- The counters after a reply of a kind: only the replies of servers are counted by partition. -/
def RxCounters.tick (c : RxCounters) (cache server miss : Bool) (i : Nat) : RxCounters where
  pkt := OrbitCache.tick (cache || server) c.pkt
  cache := OrbitCache.tick cache c.cache
  server := OrbitCache.tick server c.server
  miss := OrbitCache.tick miss c.miss
  par := if server then Histogram.bump c.par i else c.par

section
variable {p : Protocol} {g : Nat} {buffer : Bytes}

/-- What a datagram does to the counters, by its kind: the branches of the three protocols are one
function of the kinds. -/
theorem rx_eq (c : RxCounters)
    (h : fromServer p buffer = true → parIndex p g buffer < maxSrv * maxWorkers) :
    c.rx p g buffer = some (c.tick (fromCache p buffer) (fromServer p buffer) (fromMiss p buffer)
      (parIndex p g buffer)) := by
  have hpartition (hserver : fromServer p buffer = true) (c : RxCounters) :
      c.partition p g buffer =
        some { c with par := Histogram.bump c.par (parIndex p g buffer) } := if_pos (h hserver)
  cases p with
  | nocache =>
    by_cases hr : opField buffer = opRReply
    · have hserver : fromServer .nocache buffer = true := decide_eq_true (.inl hr)
      rw [hserver, RxCounters.rx, if_pos hr, hpartition hserver]
      rfl
    · by_cases hw : opField buffer = opWReply
      · have hserver : fromServer .nocache buffer = true := decide_eq_true (.inr hw)
        rw [hserver, RxCounters.rx, if_neg hr, if_pos hw, hpartition hserver]
        rfl
      · have hserver : fromServer .nocache buffer = false :=
          decide_eq_false fun hop => hop.elim hr hw
        rw [hserver, RxCounters.rx, if_neg hr, if_neg hw]
        rfl
  | netcache =>
    by_cases hop : opField buffer = opRReply ∨ opField buffer = opWReply
    · by_cases hcached : cachedField .netcache buffer = 0
      · have hserver : fromServer .netcache buffer = true := decide_eq_true ⟨hop, hcached⟩
        have hcache : fromCache .netcache buffer = false :=
          decide_eq_false fun hcache => hcache.2 hcached
        have hzero : ¬ 0 < cachedField .netcache buffer := by
          rw [hcached]
          exact BitVec.lt_irrefl 0
        rw [hserver, hcache, RxCounters.rx, if_pos hop, if_neg hzero, hpartition hserver]
        rfl
      · have hserver : fromServer .netcache buffer = false :=
          decide_eq_false fun hserver => hcached hserver.2
        have hcache : fromCache .netcache buffer = true := decide_eq_true ⟨hop, hcached⟩
        have hpos : 0 < cachedField .netcache buffer := by
          rw [BitVec.lt_def]
          exact Nat.pos_of_ne_zero fun hzero => hcached (BitVec.eq_of_toNat_eq hzero)
        rw [hserver, hcache, RxCounters.rx, if_pos hop, if_pos hpos]
        rfl
    · have hserver : fromServer .netcache buffer = false :=
        decide_eq_false fun hserver => hop hserver.1
      have hcache : fromCache .netcache buffer = false :=
        decide_eq_false fun hcache => hop hcache.1
      rw [hserver, hcache, RxCounters.rx, if_neg hop]
      rfl
  | orbitcache =>
    by_cases hr : opField buffer = opRReply
    · have hw : opField buffer ≠ opWReply := by
        rw [hr]
        decide
      by_cases hcached : cachedField .orbitcache buffer = 1
      · have hserver : fromServer .orbitcache buffer = false :=
          decide_eq_false fun hserver => hserver.elim (fun hserver => hserver.2 hcached) hw
        have hcache : fromCache .orbitcache buffer = true := decide_eq_true ⟨hr, hcached⟩
        have hmiss : fromMiss .orbitcache buffer = false := decide_eq_false fun hmiss => by
          have hne := hmiss.2
          rw [hcached] at hne
          exact absurd hne (by decide)
        rw [hserver, hcache, hmiss, RxCounters.rx, if_pos hr, if_pos hcached]
        rfl
      · have hserver : fromServer .orbitcache buffer = true :=
          decide_eq_true (.inl ⟨hr, hcached⟩)
        have hcache : fromCache .orbitcache buffer = false :=
          decide_eq_false fun hcache => hcached hcache.2
        rw [hserver, hcache, RxCounters.rx, if_pos hr, if_neg hcached, hpartition hserver]
        by_cases hmissed : cachedField .orbitcache buffer = missed
        · have hmiss : fromMiss .orbitcache buffer = true := decide_eq_true ⟨hr, hmissed⟩
          simp only [if_pos hmissed, hmiss]
          rfl
        · have hmiss : fromMiss .orbitcache buffer = false :=
            decide_eq_false fun hmiss => hmissed hmiss.2
          simp only [if_neg hmissed, hmiss]
          rfl
    · have hcache : fromCache .orbitcache buffer = false :=
        decide_eq_false fun hcache => hr hcache.1
      have hmiss : fromMiss .orbitcache buffer = false := decide_eq_false fun hmiss => hr hmiss.1
      by_cases hw : opField buffer = opWReply
      · have hserver : fromServer .orbitcache buffer = true := decide_eq_true (.inr hw)
        rw [hserver, hcache, hmiss, RxCounters.rx, if_neg hr, if_pos hw, hpartition hserver]
        rfl
      · have hserver : fromServer .orbitcache buffer = false :=
          decide_eq_false fun hserver => hserver.elim (fun hserver => hr hserver.1) hw
        rw [hserver, hcache, hmiss, RxCounters.rx, if_neg hr, if_neg hw]
        rfl

end

/-! ## Runs -/

/-- The counters after some datagrams, as long as no write goes past the array. -/
def rxAll (p : Protocol) (g : Nat) (l : List Bytes) (c : RxCounters) : Option RxCounters :=
  l.foldlM (fun c buffer => c.rx p g buffer) c

/-- A counter after some datagrams of which those with `q` are counted. -/
def ticks (q : Bytes → Bool) (l : List Bytes) (x : BitVec 32) : BitVec 32 :=
  x + BitVec.ofNat 32 (l.countP q)

/-- The first datagram is counted, or not, and then the rest is. -/
theorem ticks_cons (q : Bytes → Bool) (buffer : Bytes) (l : List Bytes) (x : BitVec 32) :
    ticks q (buffer :: l) x = ticks q l (tick (q buffer) x) := by
  rw [ticks, ticks, tick, List.countP_cons, BitVec.ofNat_add]
  cases q buffer with
  | false => simp
  | true =>
    rw [if_pos rfl, if_pos rfl, BitVec.add_assoc, BitVec.add_comm 1]
    rfl

section
variable {p : Protocol} {g : Nat} {l : List Bytes}

/-- The counters after some datagrams, by the number of those of each kind. -/
theorem rxAll_eq (h : ∀ buffer ∈ l, fromServer p buffer = true →
    parIndex p g buffer < maxSrv * maxWorkers) (c : RxCounters) :
    rxAll p g l c = some
      { pkt := ticks (fun buffer => fromCache p buffer || fromServer p buffer) l c.pkt
        cache := ticks (fromCache p) l c.cache
        server := ticks (fromServer p) l c.server
        miss := ticks (fromMiss p) l c.miss
        par := Histogram.counts (fromServer p) (parIndex p g) c.par l } := by
  induction l generalizing c with
  | nil => simp [rxAll, ticks, Histogram.counts]
  | cons buffer l ih =>
    obtain ⟨hbuffer, hl⟩ := List.forall_mem_cons.mp h
    have hrest := ih hl (c.tick (fromCache p buffer) (fromServer p buffer) (fromMiss p buffer)
      (parIndex p g buffer))
    rw [rxAll, List.foldlM_cons, rx_eq c hbuffer, ticks_cons, ticks_cons, ticks_cons, ticks_cons]
    exact hrest

/-- What the counters say about the datagrams: each is the number of replies of its kind, and those
of the partitions add up to the replies of the servers. -/
structure Tally (p : Protocol) (g : Nat) (l : List Bytes) (c : RxCounters) : Prop where
  cache : c.cache.toInt = l.countP (fromCache p)
  server : c.server.toInt = l.countP (fromServer p)
  miss : c.miss.toInt = l.countP (fromMiss p)
  total : c.pkt.toInt = c.cache.toInt + c.server.toInt
  /-- The entry of a partition counts the replies with its keys. -/
  partition : ∀ srv < numSrv, ∀ worker < g, (c.par (g * srv + worker)).toInt =
    l.countP fun buffer => fromServer p buffer && inPartition g (dstIp srv) worker (rxKey p buffer)
  partitions : ∑ i ∈ Finset.range (g * numSrv), (c.par i).toInt = c.server.toInt
  others : ∀ i, g * numSrv ≤ i → c.par i = 0

/-- Fewer than `2 ^ 31` datagrams are counted exactly. -/
theorem toInt_ofNat_countP (hlen : l.length < 2 ^ 31) (q : Bytes → Bool) :
    (0 + BitVec.ofNat 32 (l.countP q)).toInt = l.countP q := by
  have hle := List.countP_le_length (p := q) (l := l)
  have hzero : 0 + BitVec.ofNat 32 (l.countP q) = BitVec.ofNat 32 (l.countP q) :=
    BitVec.zero_add _
  have hnat : (BitVec.ofNat 32 (l.countP q)).toNat = l.countP q := by
    rw [BitVec.toNat_ofNat]
    omega
  rw [hzero, BitVec.toInt_eq_toNat_of_lt (by omega), hnat]

/-- No reply is of the cache and of a server, so the two kinds add up. -/
theorem countP_total (p : Protocol) (l : List Bytes) :
    l.countP (fun buffer => fromCache p buffer || fromServer p buffer) =
      l.countP (fromCache p) + l.countP (fromServer p) := by
  have hnot : ∀ buffer, fromCache p buffer = true → fromServer p buffer = false := by
    intro buffer hcache
    cases p with
    | nocache => cases hcache
    | netcache =>
      exact decide_eq_false fun hserver => (of_decide_eq_true hcache).2 hserver.2
    | orbitcache =>
      obtain ⟨hr, hcached⟩ := of_decide_eq_true hcache
      refine decide_eq_false fun hserver => hserver.elim (fun hserver => hserver.2 hcached) ?_
      rw [hr]
      decide
  induction l with
  | nil => rfl
  | cons buffer l ih =>
    rw [List.countP_cons, List.countP_cons, List.countP_cons, ih]
    cases hcache : fromCache p buffer with
    | false =>
      simp only [Bool.false_or, Bool.false_eq_true, if_false]
      omega
    | true =>
      simp only [hnot buffer hcache, Bool.true_or, if_true, Bool.false_eq_true, if_false]
      omega

/-- The index of a partition is below the number of partitions. -/
theorem parIndex_lt {buffer : Bytes} (hpar : (parIdField p buffer).toNat < g) :
    parIndex p g buffer < g * numSrv := by
  have hdst : dstAddr (rxKey p buffer) + 1 ≤ numSrv := dstAddr_lt _
  have hmul := Nat.mul_le_mul_left g hdst
  rw [Nat.mul_succ] at hmul
  rw [parIndex]
  omega

/-- Different partitions have different entries, since a partition is below the number of workers.
-/
theorem parIndex_eq_iff {buffer : Bytes} {srv worker : Nat}
    (hpar : (parIdField p buffer).toNat < g) (hworker : worker < g) :
    parIndex p g buffer = g * srv + worker ↔
      dstAddr (rxKey p buffer) = srv ∧ (parIdField p buffer).toNat = worker := by
  constructor
  · intro heq
    have hdiv := congrArg (· / g) heq
    have hmod := congrArg (· % g) heq
    simp only [parIndex, Nat.mul_add_div (Nat.zero_lt_of_lt hworker), Nat.mul_add_mod,
      Nat.div_eq_of_lt hpar, Nat.div_eq_of_lt hworker, Nat.mod_eq_of_lt hpar,
      Nat.mod_eq_of_lt hworker] at hdiv hmod
    exact ⟨hdiv, hmod⟩
  · rintro ⟨rfl, rfl⟩
    rfl

/-- The counters of a client that hears replies to its own requests. -/
theorem rxAll_tally (hg : 0 < g) (hmax : g ≤ maxWorkers) (hlen : l.length < 2 ^ 31)
    (hpar : ∀ buffer ∈ l, fromServer p buffer = true →
      parIdField p buffer = parId g (rxKey p buffer)) :
    ∃ c, rxAll p g l .zero = some c ∧ Tally p g l c := by
  have hlt : ∀ buffer ∈ l, fromServer p buffer = true → (parIdField p buffer).toNat < g :=
    fun buffer hbuffer hserver => by
      rw [hpar buffer hbuffer hserver]
      exact parId_lt g _ hg hmax
  have hindex : ∀ buffer ∈ l, fromServer p buffer = true → parIndex p g buffer < g * numSrv :=
    fun buffer hbuffer hserver => parIndex_lt (hlt buffer hbuffer hserver)
  have hsize : g * numSrv ≤ maxSrv * maxWorkers :=
    Nat.le_trans (Nat.mul_le_mul_right numSrv hmax) (by decide)
  have hcount : ∀ i, (Histogram.counts (fromServer p) (parIndex p g)
      (fun _ => (0 : BitVec 32)) l i).toInt =
        l.countP fun buffer => fromServer p buffer && parIndex p g buffer == i := fun i => by
    rw [Histogram.counts_eq, toInt_ofNat_countP hlen]
  refine ⟨_, rxAll_eq (fun buffer hbuffer hserver =>
    Nat.lt_of_lt_of_le (hindex buffer hbuffer hserver) hsize) _, ?_⟩
  constructor
  case cache => exact toInt_ofNat_countP hlen _
  case server => exact toInt_ofNat_countP hlen _
  case miss => exact toInt_ofNat_countP hlen _
  case total =>
    have hall := toInt_ofNat_countP hlen fun buffer => fromCache p buffer || fromServer p buffer
    have hcache := toInt_ofNat_countP hlen (fromCache p)
    have hserver := toInt_ofNat_countP hlen (fromServer p)
    simp only [ticks, RxCounters.zero]
    rw [hall, hcache, hserver, countP_total, Int.natCast_add]
  case partition =>
    intro srv hsrv worker hworker
    refine (hcount _).trans (congrArg Int.ofNat (List.countP_congr fun buffer hbuffer => ?_))
    rw [Bool.and_eq_true, Bool.and_eq_true, beq_iff_eq, inPartition_iff hsrv]
    refine and_congr_right fun hserver => ?_
    rw [parIndex_eq_iff (hlt buffer hbuffer hserver) hworker, hpar buffer hbuffer hserver]
  case partitions =>
    have hsum := Histogram.sum_countP hindex
    simp only [RxCounters.zero, ticks, hcount]
    rw [toInt_ofNat_countP hlen, ← hsum, Nat.cast_sum]
  case others =>
    intro i hi
    have hzero : (l.countP fun buffer => fromServer p buffer && parIndex p g buffer == i) = 0 := by
      rw [List.countP_eq_zero]
      intro buffer hbuffer hcounted
      rw [Bool.and_eq_true, beq_iff_eq] at hcounted
      have hlt := hindex buffer hbuffer hcounted.1
      omega
    simp only [RxCounters.zero]
    rw [Histogram.counts_eq, hzero]
    rfl

end

/-! ## The replies of the workers -/

/-- The buffer has the `par_id` and the key of a datagram, and a full header. -/
structure Echo (p : Protocol) (datagram buffer : Bytes) : Prop where
  header : headerSize p ≤ buffer.length
  slice : ∀ offset width, keyOffset p - 1 ≤ offset → offset + width ≤ headerSize p →
    slice buffer offset width = slice datagram offset width

namespace Echo

variable {p : Protocol} {datagram buffer : Bytes}

/-- A longer buffer has them as well. -/
theorem append (h : headerSize p ≤ datagram.length) (l : Bytes) :
    Echo p datagram (datagram ++ l) where
  header := by
    rw [List.length_append]
    omega
  slice offset width _ hend := slice_append (by omega) l

/-- An assignment to a field in front of them keeps them. -/
theorem writeAt_header (h : Echo p datagram buffer) (at' : Nat) (bytes : Bytes)
    (hat : at' + bytes.length ≤ keyOffset p - 1) : Echo p datagram (writeAt buffer at' bytes) := by
  have hoffset : keyOffset p - 1 ≤ headerSize p :=
    Nat.le_trans (Nat.sub_le _ _) (Nat.sub_le _ _)
  have hheader := h.header
  refine ⟨header_le_writeAt (hat.trans hoffset) hheader, fun offset width hoff hend => ?_⟩
  rw [slice_writeAt_after (hat.trans hoff) (by omega), h.slice offset width hoff hend]

/-- The value is behind them. -/
theorem writeAt_value (h : Echo p datagram buffer) (bytes : Bytes) :
    Echo p datagram (writeAt buffer (headerSize p) bytes) := by
  refine ⟨le_length_writeAt h.header bytes, fun offset width hoff hend => ?_⟩
  rw [slice_writeAt_before hend h.header, h.slice offset width hoff hend]

/-- They are sent, since the packet is not shorter than a header. -/
theorem sendto (h : Echo p datagram buffer) {pktSize : SizeT}
    (hsize : headerSize p ≤ pktSize.toNat) : Echo p datagram (sendto buffer pktSize).2 := by
  have hheader := h.header
  constructor
  · rw [OrbitCache.sendto, List.length_take]
    omega
  · intro offset width hoff hend
    rw [OrbitCache.sendto, slice_take (by omega), h.slice offset width hoff hend]

/-- The partition in the reply is that of the request. -/
theorem parIdField (h : Echo p datagram buffer) (hdatagram : headerSize p ≤ datagram.length) :
    parIdField p buffer = OrbitCache.parIdField p datagram := by
  have hoffset : keyOffset p - 1 + 1 ≤ headerSize p := by cases p <;> decide
  have hheader := h.header
  have hslice := h.slice (keyOffset p - 1) 1 (Nat.le_refl _) hoffset
  rw [OrbitCache.parIdField, OrbitCache.parIdField, ← slice_one (by omega),
    ← slice_one (by omega), hslice]

/-- The key in the reply is that of the request. -/
theorem fieldKey (h : Echo p datagram buffer) :
    fieldKey p buffer = OrbitCache.fieldKey p datagram :=
  congrArg cString (h.slice (keyOffset p) keySize (Nat.sub_le _ _) (headerSize_eq p).ge)

end Echo

section
variable {p : Protocol} {s : ServerState} {datagram : Bytes} {stack : Stack} {e : SizeT × Bytes}

/-- A packet with a stored value is not shorter than its header. -/
theorem headerSize_le_pktSize (hshort : s.Short) {key value : Bytes}
    (hvalue : s.hashlin key = some value) :
    headerSize p ≤ (BitVec.ofNat 64 (headerSize p) + strlen value).toNat := by
  rw [toNat_pktSize p (hshort key value hvalue)]
  exact Nat.le_add_right _ _

/-- The READ handler writes in front of `par_id` and behind the key. -/
theorem echo_handleRead (hecho : Echo p datagram s.recvBuffer) (hshort : s.Short)
    (he : e ∈ (handleRead p s stack).sent) : Echo p datagram e.2 := by
  have hone : 0 + [opRReply].length ≤ keyOffset p - 1 := by cases p <;> decide
  rw [handleRead] at he
  split at he
  · cases he
  · next value hvalue =>
    obtain rfl := List.mem_singleton.mp he
    exact ((hecho.writeAt_header 0 _ hone).writeAt_value _).sendto
      (headerSize_le_pktSize hshort hvalue)

/-- So does that of OrbitCache, -/
theorem echo_handleReadOrbitcache (hecho : Echo .orbitcache datagram s.recvBuffer)
    (hshort : s.Short) (he : e ∈ (handleReadOrbitcache s stack).sent) :
    Echo .orbitcache datagram e.2 := by
  rw [handleReadOrbitcache] at he
  split at he
  · cases he
  · next value hvalue =>
    obtain rfl := List.mem_singleton.mp he
    have hop := hecho.writeAt_header 0 [opRReply] (by decide)
    have hflag := hop.writeAt_header 21 [lastAck] (by decide)
    exact (hflag.writeAt_value _).sendto (headerSize_le_pktSize hshort hvalue)

/-- and its fetch handler. -/
theorem echo_handleFetchOrbitcache (hecho : Echo .orbitcache datagram s.recvBuffer)
    (hshort : s.Short) (he : e ∈ (handleFetchOrbitcache s stack).sent) :
    Echo .orbitcache datagram e.2 := by
  rw [handleFetchOrbitcache] at he
  split at he
  · cases he
  · next value hvalue =>
    obtain rfl := List.mem_singleton.mp he
    have hhi := hecho.writeAt_header 5 (Endian.bytes 8
      (htonll (hash64Str (orgKey .orbitcache s.recvBuffer stack))).toNat)
      (by rw [Endian.length_bytes]; decide)
    have hlo := hhi.writeAt_header 13 (Endian.bytes 8
      (htonll (hash64Str2 (orgKey .orbitcache s.recvBuffer stack))).toNat)
      (by rw [Endian.length_bytes]; decide)
    have hop := hlo.writeAt_header 0 [opFReply] (by decide)
    have hflag := (hop.writeAt_value (snprintfValue value)).writeAt_header 21 [fetching] (by decide)
    have hcached := hflag.writeAt_header 22 [1] (by decide)
    exact hcached.sendto (headerSize_le_pktSize hshort hvalue)

/-- The WRITE handler writes in front of `par_id`. -/
theorem echo_handleWrite {n : Nat} (hecho : Echo p datagram s.recvBuffer)
    (hn : headerSize p ≤ (BitVec.ofNat 64 n).toNat) (he : e ∈ (handleWrite p s n stack).sent) :
    Echo p datagram e.2 := by
  have hone : 0 + [opWReply].length ≤ keyOffset p - 1 := by cases p <;> decide
  have hop := hecho.writeAt_header 0 _ hone
  obtain rfl := List.mem_singleton.mp he
  refine Echo.sendto ?_ ?_
  · split
    · next hfetched =>
      have horbit : p = .orbitcache := beq_iff_eq.mp (Bool.and_eq_true_iff.mp hfetched).1
      subst horbit
      exact hop.writeAt_header 22 [1] (by decide)
    · exact hop
  · split
    · exact hn
    · exact (toNat_headerSize p).ge

/-- Both packets that the fetch of NetCache sends keep them. -/
theorem echo_handleFetchNetcache {n : Nat} (hecho : Echo .netcache datagram s.recvBuffer)
    (hn : headerSize .netcache ≤ (BitVec.ofNat 64 n).toNat)
    (he : e ∈ (handleFetchNetcache s n stack).sent) : Echo .netcache datagram e.2 := by
  have hfetch := hecho.writeAt_header 0 [opFReply] (by decide)
  have hop := hfetch.writeAt_header 0 [opWReply] (by decide)
  have hseq := hop.writeAt_header 1 [0, 0, 0, 0] (by decide)
  rcases List.mem_cons.mp he with rfl | he
  · exact hfetch.sendto hn
  · obtain rfl := List.mem_singleton.mp he
    exact hseq.sendto (toNat_headerSize .netcache).ge

/-- Whatever a worker sends has the `par_id` and the key of the datagram it answers, by the branch
that handled it. -/
theorem echo_sent (hwf : WellFormed p datagram) (hshort : s.Short)
    (he : e ∈ (handleDatagram p s datagram stack).sent) : Echo p datagram e.2 := by
  have hn : headerSize p ≤ (BitVec.ofNat 64 datagram.length).toNat := by
    have hfits := hwf.fits
    have hlt := headerSize_lt p
    simp only [sizeofBuffer, maxValueSize] at hfits
    rw [BitVec.toNat_ofNat, Nat.mod_eq_of_lt (by omega)]
    exact hwf.header
  have hecho : Echo p datagram (s.recvfrom datagram).recvBuffer := .append hwf.header _
  rw [handleDatagram] at he
  cases p with
  | nocache =>
    simp only [handleBuffer] at he
    split at he
    · exact echo_handleRead hecho hshort he
    · split at he
      · exact echo_handleWrite hecho hn he
      · cases he
  | netcache =>
    simp only [handleBuffer] at he
    split at he
    · exact echo_handleRead hecho hshort he
    · split at he
      · exact echo_handleWrite hecho hn he
      · split at he
        · exact echo_handleFetchNetcache hecho hn he
        · cases he
  | orbitcache =>
    simp only [handleBuffer] at he
    split at he
    · exact echo_handleReadOrbitcache hecho hshort he
    · split at he
      · exact echo_handleFetchOrbitcache hecho hshort he
      · split at he
        · exact echo_handleWrite hecho hn he
        · cases he

/-- The client counts a reply for the worker's partition when the request was made for it. -/
theorem attributed_sent {g : Nat} (hwf : WellFormed p datagram) (hshort : s.Short)
    (hpar : parIdField p datagram = parId g (fieldKey p datagram))
    (he : e ∈ (handleDatagram p s datagram stack).sent) (behind : Bytes) :
    parIdField p (e.2 ++ behind) = parId g (rxKey p (e.2 ++ behind)) := by
  have hecho := echo_sent hwf hshort he
  have hheader := hecho.header
  have happend : Echo p e.2 (e.2 ++ behind) := .append hheader behind
  have hkey : rxKey p (e.2 ++ behind) = fieldKey p datagram := by
    have hfield : ((e.2.drop (keyOffset p)).take keySize).length = keySize := by
      rw [List.length_take, List.length_drop]
      rw [headerSize_eq] at hheader
      omega
    have hlt : (fieldKey p e.2).length < ((e.2.drop (keyOffset p)).take keySize).length := by
      rw [hecho.fieldKey, hfield]
      exact hwf.terminated
    have hoffset : keyOffset p ≤ e.2.length := Nat.le_trans (Nat.sub_le _ _) hheader
    rw [← hecho.fieldKey, rxKey, List.drop_append_of_le_length hoffset,
      ← List.take_append_drop keySize (e.2.drop (keyOffset p)), List.append_assoc]
    exact cString_append_of_lt hlt _
  rw [happend.parIdField hheader, hecho.parIdField hwf.header, hkey, hpar]

end

/-- What a client has in its buffer of a reply to one of its requests: the bytes a worker sent, with
the fields in front of `par_id` as the switch leaves them. -/
inductive Reply (p : Protocol) (g : Nat) : Bytes → Prop
  | sent {s : ServerState} {datagram : Bytes} {stack : Stack} {e : SizeT × Bytes} :
      WellFormed p datagram → parIdField p datagram = parId g (fieldKey p datagram) → s.Short →
      e ∈ (handleDatagram p s datagram stack).sent → ∀ behind, Reply p g (e.2 ++ behind)
  | rewritten {buffer : Bytes} : Reply p g buffer → ∀ header : Bytes,
      header.length = keyOffset p - 1 → Reply p g (header ++ buffer.drop (keyOffset p - 1))

/-- A reply is for the partition of its key. -/
theorem Reply.parIdField_eq {p : Protocol} {g : Nat} {buffer : Bytes} (h : Reply p g buffer) :
    parIdField p buffer = parId g (rxKey p buffer) := by
  induction h with
  | sent hwf hpar hshort he behind => exact attributed_sent hwf hshort hpar he behind
  | @rewritten buffer _ header hlen ih =>
    have hone : keyOffset p = keyOffset p - 1 + 1 := by cases p <;> rfl
    have hpar : parIdField p (header ++ buffer.drop (keyOffset p - 1)) = parIdField p buffer := by
      rw [parIdField, parIdField, List.getD_append_right _ _ _ _ hlen.le, hlen, Nat.sub_self]
      simp [List.getD_eq_getElem?_getD]
    have hkey : rxKey p (header ++ buffer.drop (keyOffset p - 1)) = rxKey p buffer := by
      rw [rxKey, rxKey, hone, ← List.drop_drop, List.drop_left' hlen, List.drop_drop]
      rfl
    rw [hpar, hkey, ih]

/-- In every run of `rx_t` that hears replies to its own requests, as many as an `int` counts, the
counters are what their names say, and no counter outside the array is written. -/
theorem rxAll_replies {p : Protocol} {g : Nat} {l : List Bytes} (hg : 0 < g) (hmax : g ≤ maxWorkers)
    (hlen : l.length < 2 ^ 31)
    (hreply : ∀ buffer ∈ l, fromServer p buffer = true → Reply p g buffer) :
    ∃ c, rxAll p g l .zero = some c ∧ Tally p g l c :=
  rxAll_tally hg hmax hlen fun buffer hbuffer hserver =>
    (hreply buffer hbuffer hserver).parIdField_eq

/-- A worker that has two bytes for every key. -/
def twoByteServer : ServerState := ⟨fun _ => some [65, 66], []⟩

/-- The bytes that the worker sends for a datagram. -/
def twoByteReply (datagram : Bytes) : Bytes :=
  ((handleDatagram .orbitcache twoByteServer datagram ⟨[], [0], [0]⟩).sent.map Prod.snd).flatten

/-- The replies to four requests, of two workers a server: the answer to a READ of the item 2, a
cache reply for the item 5, the answer to a READ of the item 5 that found its queue full, and the
answer to a WRITE of the item 2. -/
def fourReplies : List Bytes :=
  [twoByteReply (itemBytes opRead 0 0 2 []), itemBytes opRReply 1 1 5 [65, 0],
    twoByteReply (itemBytes opRead missed 1 5 []),
    twoByteReply (itemBytes opWrite 0 0 2 [65, 65])]

/-- Three of the four replies are of servers, one of these for a READ that missed. -/
theorem rxAll_replies_four :
    ∃ c, rxAll .orbitcache 2 fourReplies .zero = some c ∧ Tally .orbitcache 2 fourReplies c ∧
      c.cache.toInt = 1 ∧ c.server.toInt = 3 ∧ c.miss.toInt = 1 := by
  have hshort : twoByteServer.Short := by
    intro key value hvalue
    cases hvalue
    decide
  have hsent (datagram : Bytes) (e : SizeT × Bytes) (hwf : WellFormed .orbitcache datagram)
      (hpar : parIdField .orbitcache datagram = parId 2 (fieldKey .orbitcache datagram))
      (he : (handleDatagram .orbitcache twoByteServer datagram ⟨[], [0], [0]⟩).sent = [e]) :
      Reply .orbitcache 2 (twoByteReply datagram) := by
    have hreply : twoByteReply datagram = e.2 ++ [] := by
      rw [twoByteReply, he]
      rfl
    rw [hreply]
    exact .sent hwf hpar hshort (by rw [he]; exact List.mem_singleton_self e) []
  have hreplies : ∀ buffer ∈ fourReplies, fromServer .orbitcache buffer = true →
      Reply .orbitcache 2 buffer := by
    intro buffer hbuffer hserver
    simp only [fourReplies, List.mem_cons, List.not_mem_nil, or_false] at hbuffer
    rcases hbuffer with rfl | rfl | rfl | rfl
    · exact hsent _ _ ⟨by decide, by decide, by decide +kernel⟩ (by decide +kernel) rfl
    · exact absurd hserver (by decide +kernel)
    · exact hsent _ _ ⟨by decide, by decide, by decide +kernel⟩ (by decide +kernel) rfl
    · exact hsent _ _ ⟨by decide, by decide, by decide +kernel⟩ (by decide +kernel) rfl
  obtain ⟨c, hc, htally⟩ := rxAll_replies (g := 2) (by decide) (by decide) (by decide) hreplies
  refine ⟨c, hc, htally, ?_, ?_, ?_⟩
  · rw [htally.cache]
    decide +kernel
  · rw [htally.server]
    decide +kernel
  · rw [htally.miss]
    decide +kernel

end OrbitCache
