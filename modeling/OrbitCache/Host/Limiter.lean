import OrbitCache.Host.Handler
import OrbitCache.Lib.Simulation
import OrbitCache.Lib.Window

/-!
# The receive loop

The loop of `worker_t`, which all its branches have: a counter of the datagrams that is set to zero
when it is more than a second old, and `recvfrom` as long as the counter is below `LIMIT_RPS`, of
which `header.h` has one value for static and one for dynamic workloads. The clock is
`CLOCK_REALTIME`; the results are for a clock that is not set back.
-/

namespace OrbitCache

/-- The `1e9` that `get_cur_ns() - start_time` is compared with: a difference below `2 ^ 53` is
exact as a `double`, and a larger one stays larger. -/
abbrev windowNs : Nat := 1000000000

/-- A worker in its loop: its data, and the window that `LIMIT_RPS` counts in. -/
structure WorkerLoop where
  server : ServerState
  startTime : BitVec 64
  rxCounter : BitVec 32

/-- A turn of the loop: what `get_cur_ns` returns when the age of the counter is checked, when the
counter is set to zero, and would return at `recvfrom`, and the datagram that `recvfrom` would
find. -/
structure LoopTurn where
  check : BitVec 64
  reset : BitVec 64
  recv : BitVec 64
  datagram : Option (Bytes × Stack)

/-- The first part of a turn: the counter is set to zero when it is older than a second. -/
def WorkerLoop.checkWindow (s : WorkerLoop) (e : LoopTurn) : WorkerLoop :=
  if windowNs < (e.check - s.startTime).toNat then { s with rxCounter := 0, startTime := e.reset }
  else s

/-- A turn, with what is sent and when, if a datagram is handled. At the limit the turn ends before
`recvfrom`. -/
def WorkerLoop.turn (limitRps : Nat) (p : Protocol) (e : LoopTurn) (s : WorkerLoop) :
    Option (WorkerLoop × Option (BitVec 64 × List (SizeT × Bytes))) :=
  let s := s.checkWindow e
  if limitRps ≤ s.rxCounter.toNat then some (s, none)
  else
    match e.datagram with
    | none => some (s, none)
    | some (datagram, stack) =>
      if 0 < datagram.length then do
        let handled := handleDatagram p s.server datagram stack
        let server ← handled.after
        return ({ s with server, rxCounter := s.rxCounter + 1 }, some (e.recv, handled.sent))
      else some (s, none)

/-! ## The window -/

/-- The window of the loop, as the limiter of the library has it. -/
def WorkerLoop.window (s : WorkerLoop) : Window.Limiter := ⟨s.startTime.toNat, s.rxCounter.toNat⟩

/-- `recvfrom` finds something that has bytes; an empty datagram is not handled. -/
def LoopTurn.received (e : LoopTurn) : Bool := e.datagram.any fun d => decide (0 < d.1.length)

/-- The turn on its window: the three times, and whether there is something to admit. -/
def LoopTurn.onWindow (e : LoopTurn) : Window.Turn :=
  ⟨e.check.toNat, e.reset.toNat, e.recv.toNat, e.received⟩

/-- When a turn handled a datagram. -/
def handledAt (r : Option (BitVec 64 × List (SizeT × Bytes))) : Option Nat :=
  r.map fun r => r.1.toNat

section
variable {limitRps : Nat} {p : Protocol} {s s' : WorkerLoop} {e : LoopTurn} {es : List LoopTurn}
  {rs : List (Option (BitVec 64 × List (SizeT × Bytes)))} {now : Nat}

/-- The check of the counter's age is the roll of the window, as long as the clock was not set back.
-/
theorem window_checkWindow (h : s.startTime.toNat ≤ e.check.toNat) :
    (s.checkWindow e).window = s.window.roll windowNs e.onWindow := by
  have hsub : (e.check - s.startTime).toNat = e.check.toNat - s.startTime.toNat :=
    BitVec.toNat_sub_of_le h
  rw [WorkerLoop.checkWindow, hsub, apply_ite WorkerLoop.window]
  rfl

/-- The ways a turn goes: at the limit or without a datagram only the age of the counter is checked,
otherwise one datagram is counted. -/
theorem turn_cases {r : Option (BitVec 64 × _)} (hturn : s.turn limitRps p e = some (s', r)) :
    (limitRps ≤ (s.checkWindow e).rxCounter.toNat ∨ e.received = false) ∧
        s' = s.checkWindow e ∧ r = none ∨
      (s.checkWindow e).rxCounter.toNat < limitRps ∧ e.received = true ∧
        s'.startTime = (s.checkWindow e).startTime ∧
        s'.rxCounter = (s.checkWindow e).rxCounter + 1 ∧ ∃ sent, r = some (e.recv, sent) := by
  rw [WorkerLoop.turn] at hturn
  split at hturn
  · next hfull =>
    cases hturn
    exact .inl ⟨.inl hfull, rfl, rfl⟩
  · next hroom =>
    cases hdatagram : e.datagram with
    | none =>
      rw [hdatagram] at hturn
      cases hturn
      exact .inl ⟨.inr (by rw [LoopTurn.received, hdatagram]; rfl), rfl, rfl⟩
    | some d =>
      rw [hdatagram] at hturn
      have hreceived : e.received = decide (0 < d.1.length) := by
        rw [LoopTurn.received, hdatagram]
        rfl
      simp only at hturn
      split at hturn
      · next hpos =>
        obtain ⟨server, -, hturn⟩ := Option.bind_eq_some_iff.mp hturn
        cases hturn
        exact .inr ⟨Nat.lt_of_not_le hroom, hreceived.trans (decide_eq_true hpos), rfl, rfl, _, rfl⟩
      · next hempty =>
        cases hturn
        exact .inl ⟨.inr (hreceived.trans (decide_eq_false hempty)), rfl, rfl⟩

/-- A turn is a turn of its window, so the bounds on windows apply to it. -/
theorem window_turn (hlimit : limitRps < 2 ^ 32) (h : s.startTime.toNat ≤ e.check.toNat)
    {r : Option (BitVec 64 × _)} (hturn : s.turn limitRps p e = some (s', r)) :
    s.window.turn windowNs limitRps e.onWindow = (s'.window, handledAt r) := by
  have hroll := window_checkWindow h
  have hcount : (s.checkWindow e).window.count = (s.checkWindow e).rxCounter.toNat := rfl
  rw [Window.Limiter.turn, ← hroll, hcount]
  rcases turn_cases hturn with ⟨hnot, rfl, rfl⟩ | ⟨hroom, hreceived, hstart, hrx, sent, rfl⟩
  · split
    · rfl
    · next hroom =>
      have hreceived : ¬ e.onWindow.received = true :=
        Bool.eq_false_iff.mp (hnot.resolve_left hroom)
      rw [if_neg hreceived]
      rfl
  · have hreceived : e.onWindow.received = true := hreceived
    have hsucc : (s.checkWindow e).rxCounter.toNat + 1 = s'.rxCounter.toNat := by
      rw [hrx, BitVec.toNat_add_of_lt]
      · rfl
      · have hone : (1 : BitVec 32).toNat = 1 := rfl
        omega
    rw [if_neg (Nat.not_le_of_lt hroom), if_pos hreceived]
    have hwindow : s'.window =
        ⟨(s.checkWindow e).startTime.toNat, (s.checkWindow e).rxCounter.toNat + 1⟩ := by
      rw [WorkerLoop.window, hstart, ← hsucc]
    rw [hwindow]
    rfl

/-! ## Runs -/

/-- The clock is not set back, from a time on: each time that a turn reads is not before the ones
read earlier. -/
def Clock (now : Nat) (es : List LoopTurn) : Prop :=
  Window.Timed now (es.map LoopTurn.onWindow)

/-- A window has started when the turn receives. -/
theorem checkWindow_startTime_le (h : s.startTime.toNat ≤ now) (hclock : Clock now (e :: es)) :
    (s.checkWindow e).startTime.toNat ≤ e.recv.toNat := by
  obtain ⟨hcheck, hreset, hrecv, -⟩ := hclock
  simp only [LoopTurn.onWindow] at hcheck hreset hrecv
  rw [WorkerLoop.checkWindow]
  split
  · exact hrecv
  · omega

/-- A turn changes the start of the window in its first part only. -/
theorem turn_startTime {r : Option (BitVec 64 × _)} (hturn : s.turn limitRps p e = some (s', r)) :
    s'.startTime = (s.checkWindow e).startTime := by
  rcases turn_cases hturn with ⟨-, rfl, -⟩ | ⟨-, -, hstart, -⟩
  · rfl
  · exact hstart

/-- A run is a run of its window: the datagrams that it handles are those that the window admits. -/
theorem window_run (hlimit : limitRps < 2 ^ 32) (h : s.startTime.toNat ≤ now)
    (hclock : Clock now es)
    (hrun : outputs (WorkerLoop.turn limitRps p) es s = some (s', rs)) :
    s.window.admitted windowNs limitRps (es.map LoopTurn.onWindow) = rs.filterMap handledAt ∧
      s.window.after windowNs limitRps (es.map LoopTurn.onWindow) = s'.window := by
  induction es generalizing s rs now with
  | nil =>
    cases hrun
    exact ⟨rfl, rfl⟩
  | cons e es ih =>
    obtain ⟨u, r, rs', hturn, hrest, rfl⟩ := outputs_cons hrun
    have hcheck : s.startTime.toNat ≤ e.check.toNat := Nat.le_trans h hclock.1
    have hwindow := window_turn hlimit hcheck hturn
    have hstart : u.startTime.toNat ≤ e.recv.toNat :=
      turn_startTime hturn ▸ checkWindow_startTime_le h hclock
    obtain ⟨hadmitted, hafter⟩ := ih hstart hclock.2.2.2 hrest
    constructor
    · rw [List.map_cons, Window.Limiter.admitted, hwindow, hadmitted, List.filterMap_cons]
      cases handledAt r <;> rfl
    · rw [List.map_cons, Window.Limiter.after, List.foldl_cons, hwindow]
      exact hafter

/-- The counter is not younger than the next turn, whatever came before. -/
theorem startTime_le (h : s.startTime.toNat ≤ now) (hclock : Clock now (es ++ [e]))
    (hrun : outputs (WorkerLoop.turn limitRps p) es s = some (s', rs)) :
    s'.startTime.toNat ≤ e.check.toNat := by
  induction es generalizing s rs now with
  | nil =>
    cases hrun
    exact Nat.le_trans h hclock.1
  | cons e' es ih =>
    obtain ⟨u, r, rs', hturn, hrest, rfl⟩ := outputs_cons hrun
    have hstart : u.startTime.toNat ≤ e'.recv.toNat :=
      turn_startTime hturn ▸ checkWindow_startTime_le h hclock
    exact ih hstart hclock.2.2.2 hrest

/-- A worker handles at most `2 * LIMIT_RPS` datagrams in any second, and at most `LIMIT_RPS` more
for each second more. The factor two is that of a second that ends one window and begins the next.
-/
theorem handled_span (hlimit : limitRps < 2 ^ 32) (hstart : s.startTime.toNat ≤ now)
    (hcount : s.rxCounter = 0) (hclock : Clock now es)
    (hrun : outputs (WorkerLoop.turn limitRps p) es s = some (s', rs)) (a b : Nat) :
    (rs.filterMap handledAt).countP (fun t => decide (a ≤ t) && decide (t ≤ b)) ≤
      limitRps * ((b - a) / (windowNs + 1) + 2) := by
  have hzero : s.window.count ≤ limitRps := by
    rw [WorkerLoop.window, hcount]
    exact Nat.zero_le _
  rw [← (window_run hlimit hstart hclock hrun).1]
  exact Window.admitted_span hclock hzero a b

/-- Two datagrams of which the second comes in a new window. -/
theorem handled_span_two :
    ([some (0, []), some (1000000001, [])].filterMap
        (handledAt : Option (BitVec 64 × List (SizeT × Bytes)) → _)).countP
      (fun t => decide (0 ≤ t) && decide (t ≤ 1000000000)) ≤
        1 * (1000000000 / (windowNs + 1) + 2) := by
  have hrun : outputs (WorkerLoop.turn 1 .nocache)
      [⟨0, 0, 0, some ([9], ⟨[], [], []⟩)⟩,
        ⟨1000000001, 1000000001, 1000000001, some ([9], ⟨[], [], []⟩)⟩]
      ⟨⟨fun _ => none, []⟩, 0, 0⟩ =
        some (⟨⟨fun _ => none, [9]⟩, 1000000001, 1⟩, [some (0, []), some (1000000001, [])]) := rfl
  have hclock : Clock 0 [⟨0, 0, 0, some ([9], ⟨[], [], []⟩)⟩,
      ⟨1000000001, 1000000001, 1000000001, some ([9], ⟨[], [], []⟩)⟩] :=
    ⟨by decide, by decide, by decide, by decide, by decide, by decide, trivial⟩
  exact handled_span (by decide) (Nat.le_refl 0) rfl hclock hrun 0 1000000000

/-- A worker leaves a datagram in the socket only if it handled `LIMIT_RPS` of them in the second
before, so the limiter turns no datagram away without a reason. -/
theorem left_full (hlimit : limitRps < 2 ^ 32) (hpos : 0 < limitRps)
    (hstart : s.startTime.toNat ≤ now) (hcount : s.rxCounter = 0) (hclock : Clock now (es ++ [e]))
    (hrun : outputs (WorkerLoop.turn limitRps p) es s = some (s', rs))
    (hreceived : e.received = true) {u : WorkerLoop}
    (hleft : s'.turn limitRps p e = some (u, none)) :
    limitRps ≤ (rs.filterMap handledAt).countP fun t => decide (e.check.toNat - windowNs ≤ t) := by
  have hclock' : Clock now es := by
    rw [Clock, List.map_append] at hclock
    exact hclock.append_left
  obtain ⟨hadmitted, hafter⟩ := window_run hlimit hstart hclock' hrun
  have hturn := window_turn hlimit (startTime_le hstart hclock hrun) hleft
  have hzero : s.window.count = 0 := by
    rw [WorkerLoop.window, hcount]
    rfl
  rw [← hadmitted]
  refine Window.refused_full (e := e.onWindow) hclock' hstart hzero hpos hreceived ?_
  rw [hafter, hturn]
  rfl

/-- The second of two datagrams is left when one is the limit. -/
theorem left_full_second :
    1 ≤ ([some (5, [])].filterMap
        (handledAt : Option (BitVec 64 × List (SizeT × Bytes)) → _)).countP
      fun t => decide ((7 : BitVec 64).toNat - windowNs ≤ t) := by
  have hrun : outputs (WorkerLoop.turn 1 .nocache) [⟨5, 5, 5, some ([9], ⟨[], [], []⟩)⟩]
      ⟨⟨fun _ => none, []⟩, 0, 0⟩ = some (⟨⟨fun _ => none, [9]⟩, 0, 1⟩, [some (5, [])]) := rfl
  have hleft : WorkerLoop.turn 1 .nocache ⟨7, 7, 7, some ([9], ⟨[], [], []⟩)⟩
      ⟨⟨fun _ => none, [9]⟩, 0, 1⟩ = some (⟨⟨fun _ => none, [9]⟩, 0, 1⟩, none) := rfl
  have hclock : Clock 0 ([⟨5, 5, 5, some ([9], ⟨[], [], []⟩)⟩] ++
      [⟨7, 7, 7, some ([9], ⟨[], [], []⟩)⟩]) :=
    ⟨by decide, by decide, by decide, by decide, by decide, by decide, trivial⟩
  have hfull := left_full (by decide) (by decide) (Nat.le_refl 0) rfl hclock hrun rfl hleft
  exact hfull

end

end OrbitCache
