import OrbitCache.Host.Server
import OrbitCache.Host.TopK
import OrbitCache.Lib.Run

/-!
# Dynamic reporting

The receive loop of an OrbitCache worker with `DYNAMIC` set: every datagram is handled and then
counted unless the buffer holds an `OP_FETCH`, and at the end of an interval the table is sent and
reset. By then the handler has written the operation of the reply into the buffer, so fetches are
counted as well (`updates_eq_iff`), and in the first interval the sketch counts on from whatever was
on the stack.
-/

namespace OrbitCache

/-- What the worker sends at the end of an interval: entries with a popularity above 100, which the
report holds as `uint32_t`. -/
def Report.sent (r : Report) : List (Bytes × BitVec 32) :=
  ((List.range r.topKCount).map fun i => ((r.topK i).key, (r.topK i).popularity)).filter
    fun e => 100 < e.2.toNat

/-- `RecvBuffer.op` after the handler: that of the reply, which was written over the request. -/
def opAfter (h : OrbitcacheH) (reply : Option (OrbitcacheH × Payload)) : BitVec 8 :=
  match reply with
  | some r => r.1.op
  | none => h.op

/-- The operations of client requests. -/
def IsRequest (op : BitVec 8) : Prop := op = opRead ∨ op = opCrctn ∨ op = opWrite

instance (op : BitVec 8) : Decidable (IsRequest op) := inferInstanceAs (Decidable (_ ∨ _ ∨ _))

/-- A worker with its report, and the history of the current interval, with which the counts of the
report are compared. -/
structure ReportingWorker where
  worker : Worker
  report : Report
  /-- The datagrams that were handled: the operation and the key. -/
  received : List (BitVec 8 × Bytes)
  /-- The keys `updateCMS` and `updateTopK` were applied to. -/
  updated : List Bytes
  /-- The sketch at the beginning. -/
  start : CountMinSketch
  /-- `tommy_get` returned a null pointer, and `strlen` read it. -/
  crashed : Bool

/-- What happens to a worker: the interval is over, or a datagram is in the buffer. -/
inductive ReportEvent where
  | report
  | datagram (junk : Bytes) (h : OrbitcacheH) (b : Payload)

namespace ReportingWorker

/-- A worker before its first datagram; `cms` and `topK` are not initialised. -/
def init (w : Worker) (cms : CountMinSketch) (topK : Nat → TopKItem) : ReportingWorker :=
  ⟨w, ⟨cms, topK, 0, false⟩, [], [], cms, false⟩

/-- One event of a worker that lives. A report does not undo what was written past the table, and a
READ, CRCTN or FETCH of a key that is not in the partition is the last datagram. -/
def step (hash : Bytes → Hkey) (s : ReportingWorker) (e : ReportEvent) : Option ReportingWorker :=
  if s.crashed then none
  else
    match e with
    | .report =>
      some { s with
        report := { resetReport with overrun := s.report.overrun }
        received := []
        updated := []
        start := resetReport.cms }
    | .datagram junk h b =>
      match s.worker.handle hash junk h b with
      | none => some { s with crashed := true }
      | some (w, reply) =>
        let received := s.received ++ [(h.op, b.orgKey)]
        if opAfter h reply ≠ opFetch then
          some { s with
            worker := w
            report := s.report.step b.orgKey
            received := received
            updated := s.updated ++ [b.orgKey] }
        else some { s with worker := w, received := received }

/-- The number of requests for a key in the current interval, by the operation that was received. -/
def requests (s : ReportingWorker) (key : Bytes) : Nat :=
  s.received.countP fun d => decide (IsRequest d.1) && d.2 == key

/-- A datagram is a request for a key that its field holds with the terminator, that is in the
partition unless it is written, and whose counters were zero when the interval began and do not
overflow. -/
structure AccurateDatagram (s : ReportingWorker) (op : BitVec 8) (key : Bytes) : Prop where
  isRequest : IsRequest op
  isKey : IsKey key
  owned : op = opWrite ∨ (s.worker.hashlin key).isSome
  zero : ∀ i < hashFunctions, s.start.count i (column key i) = 0
  fits : s.report.cms.Fits key

/-- The datagrams of a run whose reports are accurate; a report may come at any time. -/
def Accurate (s : ReportingWorker) : ReportEvent → Prop
  | .report => True
  | .datagram _ h b => s.AccurateDatagram h.op b.orgKey

/-! ## What is counted -/

/-- No handler leaves an `OP_FETCH` in the buffer. -/
theorem opAfter_ne_fetch {hash : Bytes → Hkey} {w w' : Worker} {junk : Bytes} {h : OrbitcacheH}
    {b : Payload} {reply : Option (OrbitcacheH × Payload)}
    (hr : w.handle hash junk h b = some (w', reply)) : opAfter h reply ≠ opFetch := by
  cases Worker.handle_case hr with
  | ignore _ _ hfetch => exact hfetch
  | read | fetch | write | writeNoFetch => simp [opAfter]

/-- A step is one of a worker that lives. -/
theorem crashed_eq_false_of_step {hash : Bytes → Hkey} {s s' : ReportingWorker} {e : ReportEvent}
    (hs : s.step hash e = some s') : s.crashed = false := by
  unfold step at hs
  split at hs
  · cases hs
  · next halive => exact Bool.eq_false_iff.2 halive

/-- What a report does: the interval begins anew. -/
theorem step_report {hash : Bytes → Hkey} {s s' : ReportingWorker}
    (hs : s.step hash .report = some s') :
    s' = { s with
      report := { resetReport with overrun := s.report.overrun }
      received := []
      updated := []
      start := resetReport.cms } := by
  have halive := crashed_eq_false_of_step hs
  unfold step at hs
  rw [if_neg (by simp [halive])] at hs
  exact (Option.some.inj hs).symm

/-- So a datagram kills the worker or is counted. -/
theorem step_datagram {hash : Bytes → Hkey} {s s' : ReportingWorker} {junk : Bytes}
    {h : OrbitcacheH} {b : Payload} (hs : s.step hash (.datagram junk h b) = some s') :
    (s.worker.handle hash junk h b = none ∧ s' = { s with crashed := true }) ∨
    ∃ w, s' = { s with
      worker := w
      report := s.report.step b.orgKey
      received := s.received ++ [(h.op, b.orgKey)]
      updated := s.updated ++ [b.orgKey] } := by
  have halive := crashed_eq_false_of_step hs
  unfold step at hs
  rw [if_neg (by simp [halive])] at hs
  cases hr : s.worker.handle hash junk h b with
  | none =>
    simp only [hr] at hs
    exact Or.inl ⟨rfl, (Option.some.inj hs).symm⟩
  | some r =>
    obtain ⟨w, reply⟩ := r
    have hop := opAfter_ne_fetch hr
    simp only [hr, if_pos hop] at hs
    exact Or.inr ⟨w, (Option.some.inj hs).symm⟩

/-- A request for a key of the partition is answered, so the worker lives on. -/
theorem handle_ne_none {hash : Bytes → Hkey} {w : Worker} {junk : Bytes} {h : OrbitcacheH}
    {b : Payload} (hop : IsRequest h.op) (howned : h.op = opWrite ∨ (w.hashlin b.orgKey).isSome) :
    w.handle hash junk h b ≠ none := by
  rcases howned with hwrite | hsome
  · simp [Worker.handle, hwrite]
  · obtain ⟨value, hvalue⟩ := Option.isSome_iff_exists.1 hsome
    rcases hop with hop | hop | hop <;> simp [Worker.handle, Worker.handleRead, hop, hvalue]

/-- The counters and the table against the history of the interval: a counter has grown by the
updates of its column, and the popularity of an entry is between the updates of its key and all
updates. -/
structure ReportInv (s : ReportingWorker) : Prop where
  alive : s.crashed = false
  keys : s.report.Keys
  defined : s.report.overrun = false
  requests : ∀ d ∈ s.received, IsRequest d.1
  cells : ∀ i < hashFunctions, ∀ c, (s.report.cms.count i c).toInt =
    (s.start.count i c).toInt + (s.updated.countP fun key => column key i == c : Nat)
  entries : ∀ j < s.report.topKCount, (s.updated.count (s.report.topK j).key : Int) ≤
    (s.report.topK j).weight ∧ (s.report.topK j).weight ≤ s.updated.length

/-- The estimate of a key is at least the number of its updates and at most that of all. -/
theorem estimate_bounds {cms start : CountMinSketch} {updated : List Bytes} {key : Bytes}
    (hcells : ∀ i < hashFunctions, ∀ c, (cms.count i c).toInt =
      (start.count i c).toInt + (updated.countP fun key => column key i == c : Nat))
    (hzero : ∀ i < hashFunctions, start.count i (column key i) = 0) :
    (updated.count key : Int) ≤ (getPopularity cms key).toInt ∧
      (getPopularity cms key).toInt ≤ updated.length := by
  have hcell (i : Nat) (hi : i < hashFunctions) : (cms.count i (column key i)).toInt =
      (updated.countP fun k => column k i == column key i : Nat) := by
    rw [hcells i hi, hzero i hi]
    exact Int.zero_add _
  have hle (i : Nat) : updated.count key ≤ updated.countP fun k => column k i == column key i :=
    List.countP_mono_left fun k _ hk => by simp [eq_of_beq hk]
  have hmin := le_getPopularity_iff.1 (le_refl (getPopularity cms key).toInt)
  constructor
  · refine le_getPopularity_iff.2 ⟨?_, fun i hi => ?_⟩
    · have hmax := BitVec.toInt_lt (x := cms.count 0 (column key 0))
      have h0 := hcell 0 (by decide)
      have hle0 := hle 0
      have hint : intMax.toInt = 2147483647 := by decide
      simp only [Nat.add_one_sub_one] at hmax
      omega
    · rw [hcell i hi]
      exact_mod_cast hle i
  · refine (hmin.2 0 (by decide)).trans ?_
    rw [hcell 0 (by decide)]
    exact_mod_cast List.countP_le_length

/-- The counters after a datagram was counted: one column of each row has grown by one. -/
theorem ReportInv.cells_step {s : ReportingWorker} (hs : ReportInv s) {key : Bytes}
    (hfits : s.report.cms.Fits key) (i : Nat) (hi : i < hashFunctions) (c : Nat) :
    ((updateCMS s.report.cms key).count i c).toInt =
      (s.start.count i c).toInt + ((s.updated ++ [key]).countP fun k => column k i == c : Nat) := by
  have hcell := hs.cells i hi c
  rw [count_updateCMS, List.countP_append, List.countP_singleton]
  by_cases hc : column key i = c
  · subst hc
    rw [if_pos ⟨hi, rfl⟩, toInt_add_one (hfits i hi), hcell, if_pos (beq_self_eq_true _)]
    omega
  · rw [if_neg fun h => hc h.2.symm, if_neg (by simpa using hc), hcell]
    omega

/-- A counted datagram keeps the invariant: the counters grow with the history, and the new entry is
an estimate. -/
theorem ReportInv.step_request {s : ReportingWorker} (hs : ReportInv s) {op : BitVec 8}
    {key : Bytes} (w : Worker) (hacc : s.AccurateDatagram op key) :
    ReportInv { s with
      worker := w
      report := s.report.step key
      received := s.received ++ [(op, key)]
      updated := s.updated ++ [key] } where
  alive := hs.alive
  keys := hs.keys.step hacc.isKey
  defined := (s.report.step_overrun hacc.isKey).trans hs.defined
  requests d hd := by
    rcases List.mem_append.1 hd with hd | hd
    · exact hs.requests d hd
    · rw [List.mem_singleton.1 hd]
      exact hacc.isRequest
  cells i hi c := by
    rw [Report.step_cms _ hacc.isKey]
    exact hs.cells_step hacc.fits i hi c
  entries := by
    refine Report.forall_step hs.keys hacc.isKey
      (P := fun x => ((s.updated ++ [key]).count x.key : Int) ≤ x.weight ∧
        x.weight ≤ (s.updated ++ [key]).length) ?_ fun j hj hne => ?_
    · rw [Report.newEntry_weight, Report.newEntry_key, Report.estimate]
      exact estimate_bounds (hs.cells_step hacc.fits) hacc.zero
    · obtain ⟨hlow, hhigh⟩ := hs.entries j hj
      rw [List.count_append, List.count_singleton, if_neg (by simpa using Ne.symm hne),
        List.length_append]
      omega

/-- Any step of an accurate run: a report begins a new history, and a datagram is counted. -/
theorem ReportInv.step {hash : Bytes → Hkey} {s s' : ReportingWorker} {e : ReportEvent}
    (hs : ReportInv s) (hacc : s.Accurate e) (hstep : s.step hash e = some s') : ReportInv s' := by
  cases e with
  | report =>
    obtain rfl := step_report hstep
    exact ⟨hs.alive, ⟨Report.keys_reset.count_le, Report.keys_reset.keys_inj⟩, hs.defined, nofun,
      fun _ _ _ => rfl, fun j hj => absurd hj (Nat.not_lt_zero j)⟩
  | datagram junk h b =>
    obtain ⟨hnone, -⟩ | ⟨w, rfl⟩ := step_datagram hstep
    · exact absurd hnone (handle_ne_none hacc.isRequest hacc.owned)
    · exact hs.step_request w hacc

end ReportingWorker

end OrbitCache
