import Mathlib.Data.List.Count

/-!
# Fixed windows

A rate limiter that counts what it lets through in a window, and begins a new window when a turn
finds that the last one is more than a period old. `admitted_span`: whatever the turns are, an
interval of time meets two windows more than the periods it is long; `refused_full`: a turn is only
refused in a window that is full.
-/

namespace Window

/-- A limiter: the start of its window, and what it let through since then. -/
structure Limiter where
  start : Nat
  count : Nat
  deriving DecidableEq, Repr

/-- A turn: the clock when the window is checked, when a new one begins, and when something is
there to be let through, if it is. -/
structure Turn where
  check : Nat
  reset : Nat
  recv : Nat
  received : Bool
  deriving DecidableEq, Repr

variable (period limit : Nat)

/-- The window of a turn: a new one if the old one is older than a period. -/
def Limiter.roll (s : Limiter) (e : Turn) : Limiter :=
  if period < e.check - s.start then ⟨e.reset, 0⟩ else s

/-- A turn, with the time something was let through, if it was: at the limit nothing is. -/
def Limiter.turn (s : Limiter) (e : Turn) : Limiter × Option Nat :=
  let s := s.roll period e
  if limit ≤ s.count then (s, none)
  else if e.received then ({ s with count := s.count + 1 }, some e.recv)
  else (s, none)

/-- The times something was let through in some turns. -/
def Limiter.admitted : Limiter → List Turn → List Nat
  | _, [] => []
  | s, e :: es => (s.turn period limit e).2.toList ++ admitted (s.turn period limit e).1 es

/-- The clock does not go back, from a time on: within a turn, and from turn to turn. It may stand
still. -/
def Timed : Nat → List Turn → Prop
  | _, [] => True
  | now, e :: es => now ≤ e.check ∧ e.check ≤ e.reset ∧ e.reset ≤ e.recv ∧ Timed e.recv es

instance : ∀ now es, Decidable (Timed now es)
  | _, [] => inferInstanceAs (Decidable True)
  | now, e :: es =>
    have := instDecidableTimed e.recv es
    inferInstanceAs (Decidable (now ≤ e.check ∧ e.check ≤ e.reset ∧ e.reset ≤ e.recv ∧ _))

variable {period limit} {s : Limiter} {e : Turn} {es : List Turn} {now a b : Nat}

/-- A clock that starts earlier is no worse. -/
theorem Timed.mono (h : Timed now es) {now' : Nat} (hle : now' ≤ now) : Timed now' es := by
  cases es with
  | nil => trivial
  | cons e es => exact ⟨Nat.le_trans hle h.1, h.2⟩

/-- The clock of the first turns. -/
theorem Timed.append_left {es' : List Turn} (h : Timed now (es ++ es')) : Timed now es := by
  induction es generalizing now with
  | nil => trivial
  | cons e es ih => exact ⟨h.1, h.2.1, h.2.2.1, ih h.2.2.2⟩

variable (period limit) in
/-- In its window a turn lets something through, if the limit is not reached, or changes nothing. -/
theorem turn_cases (s : Limiter) (e : Turn) :
    s.turn period limit e = (s.roll period e, none) ∨
      (s.roll period e).count < limit ∧
        s.turn period limit e =
          (⟨(s.roll period e).start, (s.roll period e).count + 1⟩, some e.recv) := by
  rw [Limiter.turn]
  split
  · exact .inl rfl
  · next hlt =>
    split
    · exact .inr ⟨Nat.lt_of_not_le hlt, rfl⟩
    · exact .inl rfl

variable (period) in
/-- A turn begins a new window, whose count is zero, or goes on in the old one. -/
theorem roll_cases (s : Limiter) (e : Turn) :
    s.roll period e = s ∨ period < e.check - s.start ∧ s.roll period e = ⟨e.reset, 0⟩ := by
  rw [Limiter.roll]
  split
  · next hold => exact .inr ⟨hold, rfl⟩
  · exact .inl rfl

variable (period) in
/-- A new window has let nothing through, so the bound is kept. -/
theorem count_roll_le (h : s.count ≤ limit) (e : Turn) : (s.roll period e).count ≤ limit := by
  rcases roll_cases period s e with hroll | ⟨-, hroll⟩
  · rwa [hroll]
  · rw [hroll]
    exact Nat.zero_le limit

/-- A window that begins in a turn is not old in it, so the turns may be counted from the window
that they begin. -/
theorem admitted_roll (h : e.check ≤ e.reset) (s : Limiter) (es : List Turn) :
    (s.roll period e).admitted period limit (e :: es) = s.admitted period limit (e :: es) := by
  have hroll : (s.roll period e).roll period e = s.roll period e := by
    rcases roll_cases period s e with hroll | ⟨-, hroll⟩
    · rw [hroll, hroll]
    · rw [hroll, Limiter.roll, if_neg]
      have hsub : e.check - e.reset = 0 := Nat.sub_eq_zero_of_le h
      rw [hsub]
      exact Nat.not_lt_zero period
  rw [Limiter.admitted, Limiter.admitted, Limiter.turn, Limiter.turn, hroll]

/-- A turn lets something through at its time only. -/
theorem eq_recv_of_mem_turn : ∀ t ∈ (s.turn period limit e).2.toList, t = e.recv := by
  intro t ht
  rcases turn_cases period limit s e with hturn | ⟨-, hturn⟩
  · rw [hturn] at ht
    cases ht
  · rw [hturn] at ht
    exact List.mem_singleton.mp ht

/-- Nothing is let through before the clock starts. -/
theorem le_of_mem_admitted (h : Timed now es) : ∀ t ∈ s.admitted period limit es, now ≤ t := by
  induction es generalizing s now with
  | nil => intro t ht; cases ht
  | cons e es ih =>
    obtain ⟨hcheck, hreset, hrecv, hrest⟩ := h
    intro t ht
    rcases List.mem_append.mp ht with ht | ht
    · have htime := eq_recv_of_mem_turn t ht
      omega
    · have hle := ih hrest t ht
      omega

/-- Nothing is let through up to `b` in a turn that is later, or behind it. -/
theorem countP_eq_zero (h : Timed now (e :: es)) (hb : b < e.recv) (p : Nat → Bool) :
    (s.admitted period limit (e :: es)).countP (fun t => p t && decide (t ≤ b)) = 0 := by
  rw [List.countP_eq_zero]
  intro t ht
  have hle : e.recv ≤ t := by
    rcases List.mem_append.mp ht with ht | ht
    · exact Nat.le_of_eq (eq_recv_of_mem_turn t ht).symm
    · exact le_of_mem_admitted h.2.2.2 t ht
  simp only [Bool.and_eq_true, decide_eq_true_eq]
  omega

/-- One period less is one window less. -/
theorem succ_div_le {x y : Nat} (h : y + (period + 1) ≤ x) :
    y / (period + 1) + 1 ≤ x / (period + 1) := by
  rw [← Nat.add_div_right y (Nat.succ_pos period)]
  exact Nat.div_le_div_right h

/-- What is let through up to a time: what the window still has room for, and a window for each
period until then. -/
theorem admitted_before (h : Timed now es) (hb : s.start ≤ b) (hcount : s.count ≤ limit)
    (p : Nat → Bool) :
    (s.admitted period limit es).countP (fun t => p t && decide (t ≤ b)) ≤
      (limit - s.count) + limit * ((b - s.start) / (period + 1)) := by
  induction es generalizing s now with
  | nil => exact Nat.zero_le _
  | cons e es ih =>
    have hcons := h
    obtain ⟨hcheck, hreset, hrecv, hrest⟩ := h
    by_cases hlate : b < (s.roll period e).start
    · -- a window that begins behind `b`
      have hrecv' : b < e.recv := by
        rcases roll_cases period s e with hroll | ⟨-, hroll⟩
        · rw [hroll] at hlate
          omega
        · rw [hroll] at hlate
          exact Nat.lt_of_lt_of_le hlate hrecv
      rw [countP_eq_zero hcons hrecv']
      exact Nat.zero_le _
    · have hstart : (s.roll period e).start ≤ b := Nat.le_of_not_lt hlate
      have hbound : (limit - (s.roll period e).count) +
          limit * ((b - (s.roll period e).start) / (period + 1)) ≤
            (limit - s.count) + limit * ((b - s.start) / (period + 1)) := by
        rcases roll_cases period s e with hroll | ⟨hold, hroll⟩
        · exact Nat.le_of_eq (by rw [hroll])
        · rw [hroll] at hstart ⊢
          have hlast : e.reset ≤ b := hstart
          have hdiv : (b - e.reset) / (period + 1) + 1 ≤ (b - s.start) / (period + 1) :=
            succ_div_le (by omega)
          have hmul := Nat.mul_le_mul_left limit hdiv
          rw [Nat.mul_succ] at hmul
          simp only
          omega
      refine Nat.le_trans ?_ hbound
      rw [Limiter.admitted, List.countP_append]
      rcases turn_cases period limit s e with hturn | ⟨hroom, hturn⟩
      · rw [hturn]
        have hrest := ih hrest hstart (count_roll_le period hcount e)
        simpa using hrest
      · rw [hturn]
        have hrest := ih (s := ⟨(s.roll period e).start, (s.roll period e).count + 1⟩) hrest hstart
          hroom
        have hone : (some e.recv).toList.countP (fun t => p t && decide (t ≤ b)) ≤ 1 :=
          List.countP_le_length
        simp only at hrest ⊢
        omega

/-- What is let through from `a` to `b`, when it is already `a`: what the present window has room
for, and one window more for each period. -/
theorem admitted_from (h : Timed now es) (ha : a ≤ now) (hcount : s.count ≤ limit) :
    (s.admitted period limit es).countP (fun t => decide (a ≤ t) && decide (t ≤ b)) ≤
      (limit - s.count) + limit * ((b - a) / (period + 1) + 1) := by
  induction es generalizing s now with
  | nil => exact Nat.zero_le _
  | cons e es ih =>
    have hcons := h
    obtain ⟨hcheck, hreset, hrecv, hrest⟩ := h
    rcases roll_cases period s e with hroll | ⟨-, hroll⟩
    · rw [Limiter.admitted, List.countP_append]
      rcases turn_cases period limit s e with hturn | ⟨hroom, hturn⟩
      · rw [hturn, hroll]
        have hrest := ih hrest (by omega) hcount
        simpa using hrest
      · rw [hturn, hroll]
        rw [hroll] at hroom
        have hrest := ih (s := ⟨s.start, s.count + 1⟩) hrest (by omega) hroom
        have hone : (some e.recv).toList.countP
            (fun t => decide (a ≤ t) && decide (t ≤ b)) ≤ 1 := List.countP_le_length
        simp only at hrest ⊢
        omega
    · -- the rest is what is let through from the beginning of a window
      rw [← admitted_roll hreset, hroll]
      by_cases hlate : b < e.reset
      · rw [countP_eq_zero hcons (Nat.lt_of_lt_of_le hlate hrecv)]
        exact Nat.zero_le _
      · have hbefore : ((⟨e.reset, 0⟩ : Limiter).admitted period limit (e :: es)).countP
            (fun t => decide (a ≤ t) && decide (t ≤ b)) ≤
              limit + limit * ((b - e.reset) / (period + 1)) :=
          admitted_before hcons (Nat.le_of_not_lt hlate) (Nat.zero_le limit) _
        have hdiv : (b - e.reset) / (period + 1) ≤ (b - a) / (period + 1) :=
          Nat.div_le_div_right (by omega)
        have hmul := Nat.mul_le_mul_left limit hdiv
        rw [Nat.mul_succ]
        omega

/-- What is let through from `a` to `b`: at most two windows more than the periods in between, since
one may be open at `a` and another one begin there. -/
theorem admitted_span (h : Timed now es) (hcount : s.count ≤ limit) (a b : Nat) :
    (s.admitted period limit es).countP (fun t => decide (a ≤ t) && decide (t ≤ b)) ≤
      limit * ((b - a) / (period + 1) + 2) := by
  induction es generalizing s now with
  | nil => exact Nat.zero_le _
  | cons e es ih =>
    obtain ⟨hcheck, hreset, hrecv, hrest⟩ := h
    rw [Limiter.admitted, List.countP_append]
    rcases turn_cases period limit s e with hturn | ⟨hroom, hturn⟩
    · rw [hturn]
      have hrest := ih hrest (count_roll_le period hcount e)
      simpa using hrest
    · rw [hturn]
      by_cases ha : a ≤ e.recv
      · have hfrom : ((⟨(s.roll period e).start, (s.roll period e).count + 1⟩ : Limiter).admitted
            period limit es).countP (fun t => decide (a ≤ t) && decide (t ≤ b)) ≤
              (limit - ((s.roll period e).count + 1)) + limit * ((b - a) / (period + 1) + 1) :=
          admitted_from hrest ha hroom
        have hone : (some e.recv).toList.countP
            (fun t => decide (a ≤ t) && decide (t ≤ b)) ≤ 1 := List.countP_le_length
        have hmul : limit * ((b - a) / (period + 1) + 2) =
            limit * ((b - a) / (period + 1) + 1) + limit := Nat.mul_succ ..
        simp only
        omega
      · have hzero : (some e.recv).toList.countP
            (fun t => decide (a ≤ t) && decide (t ≤ b)) = 0 := by simp [ha]
        have hrest := ih (s := ⟨(s.roll period e).start, (s.roll period e).count + 1⟩) hrest hroom
        rw [hzero, Nat.zero_add]
        exact hrest

/-! ## Refusals -/

variable (period limit) in
/-- The limiter after some turns, whatever was let through. -/
def Limiter.after (s : Limiter) (es : List Turn) : Limiter :=
  es.foldl (fun s e => (s.turn period limit e).1) s

/-- What is counted was let through since the window began, so the count is never more than that. -/
theorem count_after_le (h : Timed now es) (hstart : s.start ≤ now) {l : List Nat}
    (hl : s.count ≤ l.countP fun t => decide (s.start ≤ t)) :
    (s.after period limit es).count ≤ (l ++ s.admitted period limit es).countP
      fun t => decide ((s.after period limit es).start ≤ t) := by
  induction es generalizing s now l with
  | nil =>
    rw [Limiter.admitted, List.append_nil]
    exact hl
  | cons e es ih =>
    obtain ⟨hcheck, hreset, hrecv, hrest⟩ := h
    have hroll : (s.roll period e).start ≤ e.recv ∧
        (s.roll period e).count ≤ l.countP fun t => decide ((s.roll period e).start ≤ t) := by
      rcases roll_cases period s e with hroll | ⟨-, hroll⟩
      · rw [hroll]
        exact ⟨by omega, hl⟩
      · rw [hroll]
        exact ⟨hrecv, Nat.zero_le _⟩
    rw [Limiter.after, List.foldl_cons, Limiter.admitted, ← List.append_assoc]
    refine ih hrest ?_ ?_
    · rcases turn_cases period limit s e with hturn | ⟨-, hturn⟩
      · rw [hturn]
        exact hroll.1
      · rw [hturn]
        exact hroll.1
    · rw [List.countP_append]
      rcases turn_cases period limit s e with hturn | ⟨-, hturn⟩
      · rw [hturn]
        exact Nat.le_add_right_of_le hroll.2
      · rw [hturn]
        have hone : (some e.recv).toList.countP
            (fun t => decide ((s.roll period e).start ≤ t)) = 1 := by simp [hroll.1]
        rw [hone]
        exact Nat.succ_le_succ hroll.2

/-- A turn is only refused if as much as is allowed was let through in the period before it: the
limiter has no other reason to refuse. -/
theorem refused_full (h : Timed now es) (hstart : s.start ≤ now) (hcount : s.count = 0)
    (hlimit : 0 < limit) (hreceived : e.received = true)
    (hrefused : ((s.after period limit es).turn period limit e).2 = none) :
    limit ≤ (s.admitted period limit es).countP fun t => decide (e.check - period ≤ t) := by
  have hle : (s.after period limit es).count ≤ (s.admitted period limit es).countP
      fun t => decide ((s.after period limit es).start ≤ t) :=
    count_after_le (l := []) h hstart (by rw [hcount]; exact Nat.zero_le _)
  have hfull : limit ≤ ((s.after period limit es).roll period e).count := by
    by_contra hroom
    rw [Limiter.turn] at hrefused
    simp [hroom, hreceived] at hrefused
  rcases roll_cases period (s.after period limit es) e with hroll | ⟨-, hroll⟩
  · rw [hroll] at hfull
    refine Nat.le_trans hfull (Nat.le_trans hle (List.countP_mono_left fun t _ ht => ?_))
    have hyoung : ¬ period < e.check - (s.after period limit es).start := by
      intro hold
      rw [Limiter.roll, if_pos hold] at hroll
      rw [← hroll] at hfull
      exact Nat.not_le_of_lt hlimit hfull
    simp only [decide_eq_true_eq] at ht ⊢
    omega
  · rw [hroll] at hfull
    exact absurd hfull (Nat.not_le_of_lt hlimit)

end Window
