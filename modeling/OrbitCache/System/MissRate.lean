import Mathlib.Algebra.Order.Field.Basic
import Mathlib.Algebra.Order.Floor.Ring
import Mathlib.Data.Rat.Floor
import Mathlib.Tactic.Linarith
import OrbitCache.System.Traffic

/-!
# The miss rate

What the counters of the switch hold when the controller reads them, and the miss rate it makes of
them. `total_cache` is incremented before the state of the key and its queue are looked at, so it
counts every READ of a cached key: also those that find the queue full and those of an INVALID key
(`Counted.total`). `truthful_iff`: it is the number of hits in the intervals without such READs.
-/

namespace OrbitCache

open Controller (numHotkey)

/-! ## The rate -/

namespace Controller

/-- Python's `round` to an integer: the nearest one, and the even one of two that are equally near.
-/
def roundEven (x : ℚ) : ℤ :=
  if x - ⌊x⌋ < 1 / 2 then ⌊x⌋
  else if 1 / 2 < x - ⌊x⌋ then ⌊x⌋ + 1
  else if ⌊x⌋ % 2 = 0 then ⌊x⌋ else ⌊x⌋ + 1

/-- `calculate_miss_rate`, in exact arithmetic. Python divides and rounds doubles, so at a tie, as
for the counters 39 and 1 with the quotient 1 / 40, it may round to the other neighbour: 0.03 there,
and 1 / 50 here. Both are within 1 / 200 of the quotient, up to the error of a double. -/
def calculateMissRate (totalCache totalOverflow : Nat) : ℚ :=
  if totalCache + totalOverflow = 0 then 0
  else roundEven (100 * (totalOverflow / (totalCache + totalOverflow))) / 100

/-- The nearest integer is at most a half away. -/
theorem abs_roundEven_sub_le (x : ℚ) : |(roundEven x : ℚ) - x| ≤ 1 / 2 := by
  have hlow := Int.floor_le x
  have hhigh := Int.lt_floor_add_one x
  unfold roundEven
  rw [abs_le]
  split_ifs <;> push_cast <;> constructor <;> linarith

/-- The miss rate is the quotient, up to its rounding to two digits. -/
theorem abs_calculateMissRate_sub_le (totalCache totalOverflow : Nat) :
    |calculateMissRate totalCache totalOverflow -
      totalOverflow / (totalCache + totalOverflow)| ≤ 1 / 200 := by
  unfold calculateMissRate
  split
  · next h =>
    have hzero : (totalCache : ℚ) + totalOverflow = 0 := by exact_mod_cast h
    rw [hzero, div_zero, sub_zero, abs_zero]
    norm_num
  · have hround := abs_roundEven_sub_le (100 * (totalOverflow / (totalCache + totalOverflow)))
    rw [abs_le] at hround ⊢
    constructor <;> linarith [hround.1, hround.2]

end Controller

/-! ## READs -/

variable {π : Type}

/-- The cache index of a READ of a cached key, by the verdict on it. -/
def Verdict.readIdx : Verdict → Option (BitVec 32)
  | .absorb c | .overflow c | .bypass c => some c
  | .plain | .uncached | .serve .. | .idle | .discard | .forward | .invalidate _ | .clone _ => none

namespace Crossing

/-- The cache index of a READ of a cached key. A packet from the loop is handled as a reply. -/
def readIdx (x : Crossing π) : Option (BitVec 32) :=
  if x.pkt.IsOrbitcache ∧ effectiveOp Controller.tables x.port x.pkt = opRead then x.hit else none

/-- A hit: the packet was recorded in the request table and will be answered by a cache packet. -/
def absorbed (x : Crossing π) : Bool := x.hit.any fun c => x.absorbedAt c

/-- A READ of a VALID key whose queue is full, before the packet came. -/
def overflowed (x : Crossing π) : Bool :=
  x.readIdx.any fun c =>
    x.before.cacheState c == valid && (x.before.qlen c).toNat == maxQueueSizePerKey

/-- A READ of a cached key that is INVALID. -/
def invalidated (x : Crossing π) : Bool := x.readIdx.any fun c => x.before.cacheState c != valid

/-- A READ that left the switch because the queue of its key was full. -/
def forwardedFull (x : Crossing π) : Bool := x.overflowed && !x.outputs.isEmpty

end Crossing

namespace Traffic

/-- The controller reads and resets `total_cache` and `miss_counter`, between two packets. -/
def resetCounters (s : Traffic π) : Traffic π :=
  { s with regs.totalCache := 0, regs.missCounter := 0 }

/-- The steps of the switch and of the controller. -/
inductive CountAction (π : Type) where
  | traffic (a : TrafficAction π)
  | reset

/-- One step: a packet, a change of the table, or a reset. -/
def countStep (s : Traffic π) : CountAction π → Option (Traffic π)
  | .traffic a => s.step a
  | .reset => some s.resetCounters

/-- The tables the controllers install give each of their keys an index of its own. -/
def CountTabled (s : Traffic π) : CountAction π → Prop
  | .traffic a => s.Tabled a
  | .reset => True

/-- What the controller reads after an interval in which the packets `xs` passed is what it says:
the hits, the misses for a full queue, and their rate. -/
structure Truthful (s : Traffic π) (xs : List (Crossing π)) : Prop where
  hits : s.regs.totalCache.toNat = xs.countP Crossing.absorbed
  overflows : s.regs.missCounter.toNat = xs.countP Crossing.forwardedFull
  rate : |Controller.calculateMissRate s.regs.totalCache.toNat s.regs.missCounter.toNat -
    (xs.countP Crossing.forwardedFull : ℚ) /
      (xs.countP Crossing.absorbed + xs.countP Crossing.forwardedFull)| ≤ 1 / 200

section
variable {s s' : Traffic π} {port : BitVec 9} {pkt : Packet π}

/-! ## One packet -/

/-- The READs of cached keys are those that are recorded or passed on. -/
theorem readIdx_cross {v : Verdict} (hv : VerdictCase s.tables port s.regs.line pkt v) :
    (s.cross port pkt).readIdx = v.readIdx := by
  have hidx : (s.cross port pkt).readIdx =
      if pkt.IsOrbitcache ∧ effectiveOp s.tables port pkt = opRead then
        s.tables.cacheLookup pkt.orbitcache.hkey else none := rfl
  rw [hidx, effectiveOp]
  cases hv with
  | plain h => exact if_neg fun hread => h hread.1
  | absorb horb hl hp hop | overflow horb hl hp hop | bypass horb hl hp hop
  | uncached horb hl hp hop =>
    rw [hp, if_neg Bool.false_ne_true, if_pos ⟨horb, hop⟩]
    exact hl
  | serve _ _ hp | idle _ _ hp | discard _ hp =>
    rw [hp, if_pos rfl]
    exact if_neg fun hread => absurd hread.2 (by decide)
  | forward _ hp hop =>
    rw [hp, if_neg Bool.false_ne_true]
    exact if_neg fun hread => hop hread.2
  | invalidate _ _ hp hop =>
    rw [hp, if_neg Bool.false_ne_true, hop]
    exact if_neg fun hread => absurd hread.2 (by decide)
  | clone _ _ hp hop =>
    rw [hp, if_neg Bool.false_ne_true]
    refine if_neg fun hread => ?_
    rcases hop with hop | hop <;> rw [hop] at hread <;> exact absurd hread.2 (by decide)

/-- A packet is recorded if that is the verdict on it, and not otherwise. -/
theorem Inv.absorbed_iff (h : s.Inv) {v : Verdict}
    (hv : VerdictCase s.tables port s.regs.line pkt v)
    (hafter : (s.cross port pkt).after = v.regs s.regs pkt) :
    (s.cross port pkt).absorbed = true ↔ ∃ c, v = .absorb c := by
  have hline : ∀ c : BitVec 32, c.toNat < numHotkey →
      ((s.cross port pkt).after.pending c) = (v.lines pkt.entry s.regs.line c).queue := by
    intro c hc
    rw [hafter, ← hv.line_regs h.indexBelow (by decide) h.wf hc, Registers.queue_line]
  have hlookup : ∀ c, v = .absorb c → s.lookup.lookup pkt.orbitcache.hkey = some c := by
    rintro c rfl
    cases hv with
    | absorb _ hl => exact hl
  have habs : (s.cross port pkt).absorbed =
      (s.lookup.lookup pkt.orbitcache.hkey).any fun c => (s.cross port pkt).absorbedAt c := rfl
  rw [habs, Option.any_eq_true]
  constructor
  · rintro ⟨c, hc, hx⟩
    rcases hv.queue_flags pkt.entry c with ⟨hvc, -⟩ | ⟨-, -, -, hne, -⟩ | ⟨-, -, hne, -⟩
    · exact ⟨c, hvc⟩
    all_goals
      have heq := beq_iff_eq.1 hx
      rw [hline c (h.table.below _ c hc)] at heq
      exact absurd heq (beq_eq_false_iff_ne.1 hne)
  · rintro ⟨c, hvc⟩
    have hc := hlookup c hvc
    refine ⟨c, hc, beq_iff_eq.2 ((hline c (h.table.below _ c hc)).trans ?_)⟩
    rw [hvc, Verdict.lines, Function.update_self]
    rfl

/-- What a packet adds to the counters: every READ of a cached key is counted, and an overflow is
counted twice. -/
theorem Inv.counters (h : s.Inv) (port : BitVec 9) (pkt : Packet π) :
    let x := s.cross port pkt
    x.after.totalCache = s.regs.totalCache +
        BitVec.ofNat 32 (x.absorbed.toNat + x.overflowed.toNat + x.invalidated.toNat) ∧
      x.after.missCounter = s.regs.missCounter + BitVec.ofNat 32 x.overflowed.toNat := by
  intro x
  obtain ⟨v, hv, hpass⟩ := switchPass_cases port pkt h.indexBelow h.wf
  have hafter : x.after = v.regs s.regs pkt := congrArg Prod.fst hpass
  have habs := h.absorbed_iff hv hafter
  have hidx := readIdx_cross hv
  have hlen (c : BitVec 32) : (s.regs.line c).queue.length = (s.regs.qlen c).toNat :=
    Registers.length_pending s.regs c
  have hover : x.overflowed = x.readIdx.any fun c => (s.regs.line c).isValid &&
      (s.regs.line c).queue.length == maxQueueSizePerKey := by
    simp only [hlen]
    rfl
  have hinv : x.invalidated = x.readIdx.any fun c => !(s.regs.line c).isValid := rfl
  have hnot (hv' : ∀ c, v ≠ .absorb c) : x.absorbed = false := by
    rw [Bool.eq_false_iff, ne_eq, habs]
    exact fun ⟨c, hc⟩ => hv' c hc
  rw [hover, hinv, show x.readIdx = _ from hidx, hafter]
  cases hv with
  | @absorb c _ _ _ _ hvalid hroom =>
    have hx : x.absorbed = true := habs.2 ⟨_, rfl⟩
    have hne : ((s.regs.line c).queue.length == maxQueueSizePerKey) = false :=
      beq_eq_false_iff_ne.2 hroom.ne
    simp [hx, hvalid, hne, Verdict.readIdx, Verdict.regs, Registers.countRead, Registers.push,
      Registers.writeSlot]
  | @overflow c _ hl _ _ hvalid hfull =>
    have hx : x.absorbed = false := hnot fun c => Verdict.noConfusion
    have hle := (h.wf _ (h.table.below _ _ hl)).qlen_le
    have heq : (s.regs.line c).queue.length = maxQueueSizePerKey := by
      rw [hlen] at hfull ⊢
      omega
    simp [hx, hvalid, heq, Verdict.readIdx, Verdict.regs, Registers.countRead, Registers.countMiss]
  | bypass _ _ _ _ hvalid =>
    have hx : x.absorbed = false := hnot fun c => Verdict.noConfusion
    simp [hx, hvalid, Verdict.readIdx, Verdict.regs, Registers.countRead]
  | plain | uncached | serve | idle | discard | forward | invalidate | clone =>
    have hx : x.absorbed = false := hnot fun c => Verdict.noConfusion
    simp [hx, Verdict.readIdx, Verdict.regs, Registers.pop, Registers.setState, Registers.writeSlot]

/-! ## Intervals -/

/-- The switch after an interval of the packets `xs` that began with a reset in the state `s₀`. -/
structure Counted (s s₀ : Traffic π) (xs : List (Crossing π)) : Prop where
  inv : s.Inv
  log : s.log = s₀.log ++ xs
  total : s.regs.totalCache = BitVec.ofNat 32 (xs.countP Crossing.absorbed +
    xs.countP Crossing.overflowed + xs.countP Crossing.invalidated)
  misses : s.regs.missCounter = BitVec.ofNat 32 (xs.countP Crossing.overflowed)

/-- The last element is counted, or not. -/
theorem countP_concat {β : Type*} (p : β → Bool) (xs : List β) (x : β) :
    (xs ++ [x]).countP p = xs.countP p + (p x).toNat := by
  rw [List.countP_append, List.countP_singleton]
  cases p x <;> rfl

/-- A reset touches none of what the invariant is about. -/
theorem Inv.resetCounters (h : s.Inv) : s.resetCounters.Inv where
  table := h.table
  wf c hc := (h.wf c hc).congr rfl rfl rfl rfl

/-- The invariant of the states in which the controller resets the counters. -/
theorem inv_of_countRun {regs : Registers}
    (h : Run Traffic.countStep CountTabled (start π regs) s) : s.Inv := by
  refine h.invariant _ (inv_start π regs) fun t a u hinv ha hstep => ?_
  cases a with
  | traffic a => exact hinv.step ha hstep
  | reset =>
    cases hstep
    exact hinv.resetCounters

/-- One more packet or change of the table: the counters grow with the interval. -/
theorem Counted.step {s₀ : Traffic π} {xs : List (Crossing π)} (h : s.Counted s₀ xs)
    {a : TrafficAction π} (ha : s.Tabled a) (hstep : s.step a = some s') :
    ∃ xs', s'.Counted s₀ xs' := by
  have hinv := h.inv.step ha hstep
  cases a with
  | packet port pkt =>
    cases hstep
    obtain ⟨htotal, hmiss⟩ := h.inv.counters port pkt
    have hlog : s.log ++ [s.cross port pkt] = s₀.log ++ (xs ++ [s.cross port pkt]) := by
      rw [h.log, List.append_assoc]
    refine ⟨xs ++ [s.cross port pkt], hinv, hlog, htotal.trans ?_, hmiss.trans ?_⟩
    · rw [h.total, ← BitVec.ofNat_add, countP_concat, countP_concat, countP_concat]
      congr 1
      omega
    · rw [h.misses, ← BitVec.ofNat_add, countP_concat]
  | control lookup =>
    cases hstep
    exact ⟨xs, hinv, h.log, h.total, h.misses⟩

/-- Every interval is counted, by induction on its steps. -/
theorem counted_of_run {s₀ : Traffic π} (h₀ : s₀.Inv)
    (h : Run Traffic.step Tabled s₀.resetCounters s) : ∃ xs, s.Counted s₀ xs := by
  have hstart : s₀.resetCounters.Counted s₀ [] :=
    ⟨h₀.resetCounters, (List.append_nil _).symm, rfl, rfl⟩
  refine h.invariant (fun s => ∃ xs, s.Counted s₀ xs) ⟨[], hstart⟩ ?_
  rintro t a u ⟨xs, hxs⟩ ha hstep
  exact hxs.step ha hstep

/-- In an interval whose counters do not wrap, `total_cache` is the number of all READs of cached
keys and `miss_counter` the number of those that found a full queue. -/
theorem Counted.toNat {s₀ : Traffic π} {xs : List (Crossing π)} (h : s.Counted s₀ xs)
    (hwrap : xs.countP Crossing.absorbed + xs.countP Crossing.overflowed +
      xs.countP Crossing.invalidated < 2 ^ 32) :
    s.regs.totalCache.toNat = xs.countP Crossing.absorbed + xs.countP Crossing.overflowed +
        xs.countP Crossing.invalidated ∧
      s.regs.missCounter.toNat = xs.countP Crossing.overflowed := by
  rw [h.total, h.misses, BitVec.toNat_ofNat, BitVec.toNat_ofNat, Nat.mod_eq_of_lt hwrap]
  exact ⟨rfl, Nat.mod_eq_of_lt (by omega)⟩

/-- The controller's statistics of an interval between two resets are truthful if and only if no
READ in it found the queue of its key full or its key INVALID. These READs are the difference
between what `total_cache` counts and the hits, so there is no other case in which the counters
mislead. -/
theorem truthful_iff {regs : Registers} {s₀ : Traffic π} {xs : List (Crossing π)}
    (hrun : Run Traffic.countStep CountTabled (start π regs) s₀)
    (hinterval : Run Traffic.step Tabled s₀.resetCounters s) (hlog : s.log = s₀.log ++ xs)
    (hwrap : xs.countP Crossing.absorbed + xs.countP Crossing.overflowed +
      xs.countP Crossing.invalidated < 2 ^ 32) :
    s.Truthful xs ↔ ∀ x ∈ xs, ¬ (x.overflowed = true ∨ x.invalidated = true) := by
  obtain ⟨xs', hcounted⟩ := counted_of_run (inv_of_countRun hrun) hinterval
  have hxs : xs' = xs := List.append_cancel_left (hcounted.log.symm.trans hlog)
  subst hxs
  obtain ⟨htotal, hmiss⟩ := hcounted.toNat hwrap
  constructor
  · intro h
    have hhits := h.hits
    have hover : xs'.countP Crossing.overflowed = 0 := by omega
    have hinv : xs'.countP Crossing.invalidated = 0 := by omega
    intro x hx hor
    exact hor.elim (List.countP_eq_zero.1 hover x hx) (List.countP_eq_zero.1 hinv x hx)
  · intro h
    have hover : xs'.countP Crossing.overflowed = 0 :=
      List.countP_eq_zero.2 fun x hx hx' => h x hx (.inl hx')
    have hinv : xs'.countP Crossing.invalidated = 0 :=
      List.countP_eq_zero.2 fun x hx hx' => h x hx (.inr hx')
    have hfull : xs'.countP Crossing.forwardedFull = 0 := by
      refine List.countP_eq_zero.2 fun x hx hx' => h x hx (.inl ?_)
      exact (Bool.and_eq_true_iff.1 hx').1
    rw [hover, hinv] at htotal
    refine ⟨by omega, by omega, ?_⟩
    rw [hfull, htotal, hmiss, hover]
    exact Controller.abs_calculateMissRate_sub_le _ 0

/-- A run without resets is one of the runs with resets. -/
theorem countRun_of_run (h : Run Traffic.step Tabled s s') :
    Run Traffic.countStep CountTabled s s' :=
  h.invariant _ Run.refl fun _ a _ hrun ha hstep => hrun.tail ⟨.traffic a, ha, hstep⟩

/-- The switch after packets, one after the other, with the table as it is. -/
def afterPackets (s : Traffic π) (ps : List (BitVec 9 × Packet π)) : Traffic π :=
  ps.foldl (fun s p =>
    { s with regs := (s.cross p.1 p.2).after, log := s.log ++ [s.cross p.1 p.2] }) s

/-- Passing packets is a run. -/
theorem run_afterPackets (s : Traffic π) (ps : List (BitVec 9 × Packet π)) :
    Run Traffic.step Tabled s (s.afterPackets ps) := by
  induction ps generalizing s with
  | nil => exact Run.refl
  | cons p ps ih => exact Relation.ReflTransGen.head ⟨.packet p.1 p.2, trivial, rfl⟩ (ih _)

end

/-! ## Nine READs -/

/-- The switch with the item of the latest static key, which is VALID by then. -/
def warm : Traffic Unit := installed.afterPackets [(48, hotPacket 0x0A000165 opWReply)]

/-- The switch after a reset and READs of that key, before its cache packet comes round. -/
def warmReads (n : Nat) : Traffic Unit :=
  warm.resetCounters.afterPackets (List.replicate n (48, hotPacket 0x0A000165 opRead))

/-- The switch gets there in a run. -/
theorem run_warm : Run Traffic.countStep CountTabled (start Unit Controller.zeroRegisters) warm :=
  countRun_of_run (run_installed.trans (run_afterPackets _ _))

/-- The statistics of one READ that is absorbed. -/
theorem truthful_oneRead :
    ∃ xs, (warmReads 1).log = warm.log ++ xs ∧ (warmReads 1).Truthful xs := by
  refine ⟨(warmReads 1).log.drop 1, rfl, ?_⟩
  exact (truthful_iff run_warm (run_afterPackets _ _) rfl (by decide +kernel)).2 (by decide +kernel)

/-- Of nine READs of a VALID key eight are absorbed: `total_cache` is 9, and the miss rate is 0.1
where one of the nine found the queue full. -/
theorem not_truthful_nineReads :
    Run Traffic.countStep CountTabled (start Unit Controller.zeroRegisters) warm ∧
      Run Traffic.step Tabled warm.resetCounters (warmReads 9) ∧
      ∃ xs, (warmReads 9).log = warm.log ++ xs ∧ xs.countP Crossing.absorbed = 8 ∧
        xs.countP Crossing.forwardedFull = 1 ∧ (warmReads 9).regs.totalCache = 9 ∧
        Controller.calculateMissRate 9 1 = 1 / 10 ∧ ¬ (warmReads 9).Truthful xs := by
  have hlog : ((warmReads 9).log.drop 1).countP Crossing.absorbed = 8 := by decide +kernel
  have htotal : (warmReads 9).regs.totalCache = 9 := by decide +kernel
  refine ⟨run_warm, run_afterPackets _ _, (warmReads 9).log.drop 1, rfl, hlog, by decide +kernel,
    htotal, by decide +kernel, fun h => ?_⟩
  have hhits := h.hits
  rw [hlog, htotal] at hhits
  exact absurd hhits (by decide)

end Traffic

end OrbitCache
