import OrbitCache.Lib.Fifo
import OrbitCache.Lib.Run
import OrbitCache.System.Cluster

/-!
# The switch under any traffic

The switch with the tables of the controller and any packets on any ports, registered with the
controller or not, while the controller changes the lookup table. What a packet of a configured host
comes to depends on its port: three ports of `port_list` are missing from `dps_0`
(`conserved_iff`). What a pending read does to the cache packet that answers it depends on the
address it was sent from (`remains_iff`).
-/

namespace OrbitCache

open Controller (LookupTable StaticTable numHotkey withLookup)

/-- A packet that passed the switch, with the registers before and after it and the copies that
left. -/
structure Crossing (π : Type) where
  port : BitVec 9
  pkt : Packet π
  /-- The cache index of its key. -/
  hit : Option (BitVec 32)
  before : Registers
  after : Registers
  /-- The copies that left. -/
  outputs : List (BitVec 9 × Packet π)

/-- The switch and what has passed it, oldest first. The hosts are left out: any packet may come in
on any port. -/
structure Traffic (π : Type) where
  regs : Registers
  lookup : LookupTable
  log : List (Crossing π)

/-- The steps of the switch: a packet on a port, or a change of its lookup table. -/
inductive TrafficAction (π : Type) where
  | packet (port : BitVec 9) (pkt : Packet π)
  /-- The controller changes the lookup table. -/
  | control (lookup : LookupTable)

variable {π : Type}

namespace Crossing

/-- The packet was recorded: the request table holds its entry behind those it held before. -/
def absorbedAt (c : BitVec 32) (x : Crossing π) : Bool :=
  x.after.pending c == x.before.pending c ++ [x.pkt.entry]

/-- The packet dequeued the oldest entry of the index, so there was one. -/
def servedAt (c : BitVec 32) (x : Crossing π) : Bool :=
  x.before.pending c != [] && x.after.pending c == (x.before.pending c).tail

/-- A copy of the packet goes on to the recirculation port, with its key hash and its payload. When
it comes back the parser takes it for an OrbitCache packet again, if the source port, which does not
change, is one: those of servers are. -/
def Remains (x : Crossing π) : Prop :=
  ∃ o ∈ x.outputs, o.1 = Controller.cRecircPrt0 ∧ o.2.orbitcache.hkey = x.pkt.orbitcache.hkey ∧
    o.2.payload = x.pkt.payload ∧ (orbitcachePort x.pkt.udp.srcPort = true → o.2.IsOrbitcache)

/-- An OrbitCache READ of a cached key. -/
def IsRead (x : Crossing π) : Prop :=
  x.pkt.IsOrbitcache ∧ x.pkt.orbitcache.op = opRead ∧ x.hit.isSome = true

/-- A cache packet of a key that is VALID at `c`, before and after it passed. -/
def IsLapAt (c : BitVec 32) (x : Crossing π) : Prop :=
  x.port = Controller.cRecircPrt0 ∧ x.hit = some c ∧ x.before.cacheState c = valid ∧
    x.after.cacheState c = valid

end Crossing

namespace Traffic

/-- The tables of the switch, with the lookup table that is installed now. -/
def tables (s : Traffic π) : Tables := withLookup Controller.tables s.lookup

/-- One packet through the whole switch, as it is recorded in the log. -/
def cross (s : Traffic π) (port : BitVec 9) (pkt : Packet π) : Crossing π :=
  let r := switchPass s.tables port s.regs pkt
  ⟨port, pkt, s.tables.cacheLookup pkt.orbitcache.hkey, s.regs, r.1, r.2⟩

/-- One step: the packet goes into the log, or the lookup table changes. -/
def step (s : Traffic π) : TrafficAction π → Option (Traffic π)
  | .packet port pkt =>
    let x := s.cross port pkt
    some { s with regs := x.after, log := s.log ++ [x] }
  | .control lookup => some { s with lookup := lookup }

/-- The condition on a step: the tables the controllers install give each of their keys an index of
its own, below `NUM_HOTKEY`. -/
def Tabled (_ : Traffic π) : TrafficAction π → Prop
  | .control lookup => StaticTable lookup
  | .packet .. => True

/-- The switch before the first packet: the controller has cleared the lookup table and zeroed the
registers, whatever they held before. -/
def start (π : Type) (regs : Registers) : Traffic π := ⟨Controller.initRegisters regs, ∅, []⟩

/-- The packets recorded at an index, in the order in which they came. -/
def reads (s : Traffic π) (c : BitVec 32) : List (Crossing π) :=
  s.log.filter (Crossing.absorbedAt c)

/-- The packets that dequeued an entry of an index, in the order in which they came. -/
def laps (s : Traffic π) (c : BitVec 32) : List (Crossing π) := s.log.filter (Crossing.servedAt c)

/-! ## What becomes of a packet -/

/-- The packet leaves once, on the port of its destination, with its addresses, its operation, its
key hash and its payload. -/
def Forwarded (pkt : Packet π) (outs : List (BitVec 9 × Packet π)) : Prop :=
  ∃ port m, Controller.tables.ipv4Exact pkt.ipv4.dstAddr = some port ∧ outs = [(port, m)] ∧
    m.ipv4 = pkt.ipv4 ∧ m.orbitcache.op = pkt.orbitcache.op ∧
    m.orbitcache.hkey = pkt.orbitcache.hkey ∧ m.payload = pkt.payload

/-- The packet is recorded in the request table and dropped, at the index of its key and at no
other. -/
def Recorded (x : Crossing π) : Prop :=
  x.outputs = [] ∧ ∃ c, x.hit = some c ∧ x.absorbedAt c = true ∧
    ∀ c' : BitVec 32, c'.toNat < numHotkey → c' ≠ c → x.after.pending c' = x.before.pending c'

/-- The packet is forwarded to its destination and no queue changes. -/
def Bypassed (x : Crossing π) : Prop :=
  Forwarded x.pkt x.outputs ∧
    ∀ c : BitVec 32, c.toNat < numHotkey → x.after.pending c = x.before.pending c

/-- The packets that are to be accounted for: all requests and replies, but a W_REPLY or an F_REPLY
only if its key is not cached. -/
def Accountable (s : Traffic π) (pkt : Packet π) : Prop :=
  pkt.orbitcache.op = opRead ∨
    (pkt.orbitcache.op = opWrite ∨ pkt.orbitcache.op = opCrctn ∨ pkt.orbitcache.op = opFetch ∨
      pkt.orbitcache.op = opRReply) ∨
    (pkt.orbitcache.op = opWReply ∨ pkt.orbitcache.op = opFReply) ∧
      s.lookup.lookup pkt.orbitcache.hkey = none

/-- The packet is neither lost nor duplicated: a READ is recorded or forwarded but not both, and any
other packet is forwarded. -/
def Conserved (s : Traffic π) (port : BitVec 9) (pkt : Packet π) : Prop :=
  if pkt.orbitcache.op = opRead then Xor (Recorded (s.cross port pkt)) (Bypassed (s.cross port pkt))
  else Forwarded pkt (s.cross port pkt).outputs

/-- The key is VALID and its queue is full, so that a READ of it overflows. -/
def Full (s : Traffic π) (pkt : Packet π) : Prop :=
  ∃ c, s.lookup.lookup pkt.orbitcache.hkey = some c ∧ s.regs.cacheState c = valid ∧
    (s.regs.qlen c).toNat = maxQueueSizePerKey

/-! ## Reachable states -/

/-- The table and the registers of every reachable state: indices are below `NUM_HOTKEY`, and the
registers are well formed there. -/
structure Inv (s : Traffic π) : Prop where
  table : StaticTable s.lookup
  wf : s.regs.WFBelow numHotkey

section
variable {s s' : Traffic π} {port : BitVec 9} {pkt : Packet π}

/-- The indices the switch finds in its tables are below `NUM_HOTKEY`. -/
theorem Inv.indexBelow (h : s.Inv) : s.tables.IndexBelow numHotkey :=
  h.table.indexBelow Controller.tables

/-- A packet gets a verdict, and the verdict says what the registers of each index are afterwards
and which copies leave. -/
theorem Inv.verdict (h : s.Inv) (port : BitVec 9) (pkt : Packet π) :
    ∃ v, VerdictCase s.tables port s.regs.line pkt v ∧
      (s.cross port pkt).after.WFBelow numHotkey ∧
      (∀ c : BitVec 32, c.toNat < numHotkey →
        (s.cross port pkt).after.line c = v.lines pkt.entry s.regs.line c) ∧
      (s.cross port pkt).outputs = v.outputs s.tables port pkt := by
  obtain ⟨v, hv, hpass⟩ := switchPass_cases port pkt h.indexBelow h.wf
  have hafter : (s.cross port pkt).after = v.regs s.regs pkt := congrArg Prod.fst hpass
  refine ⟨v, hv, ?_, ?_, congrArg Prod.snd hpass⟩
  · rw [hafter]
    exact hv.regs_wfBelow h.wf
  · intro c hc
    rw [hafter]
    exact hv.line_regs h.indexBelow (by decide) h.wf hc

/-- Every step keeps the invariant, a packet by its verdict and a change of the table by the
condition on it. -/
theorem Inv.step (h : s.Inv) {a : TrafficAction π} (ha : s.Tabled a) (hstep : s.step a = some s') :
    s'.Inv := by
  cases a with
  | packet port pkt =>
    cases hstep
    obtain ⟨v, -, hwf, -⟩ := h.verdict port pkt
    exact ⟨h.table, hwf⟩
  | control lookup =>
    cases hstep
    exact ⟨ha, h.wf⟩

variable (π) in
/-- It holds at the start, where the table is empty. -/
theorem inv_start (regs : Registers) : (start π regs).Inv where
  table := ⟨by simp [start], by simp [start]⟩
  wf := Controller.initRegisters_wfBelow regs

/-- It holds in every reachable state, whatever the registers held before the controller zeroed
them. -/
theorem inv_of_run {regs : Registers} (h : Run Traffic.step Tabled (start π regs) s) : s.Inv :=
  h.invariant _ (inv_start π regs) fun _ _ _ hinv ha hstep => hinv.step ha hstep

/-! ## Ports and addresses -/

/-- No host is on the recirculation port, so its packets are never taken for cache packets. -/
theorem onLoop_eq_false (hport : port ∈ Controller.portList) : onLoop s.tables port = false := by
  have hall : (Controller.portList.all fun p => !onLoop Controller.tables p) = true := by
    decide +kernel
  have hp := List.all_eq_true.1 hall port hport
  rw [Bool.not_eq_true'] at hp
  exact hp

/-- The ports that `read_CacheRecirculationPort_table` does not have are those outside `dps_0`. -/
theorem unlisted_iff : unlisted s.tables port = true ↔ port ∉ Controller.dps0 := by
  have heq : s.tables.readCacheRecirculationPort port =
      if port ∈ Controller.dps0 then some (Controller.cRecircPrt0, 0) else none := rfl
  rw [unlisted, heq]
  split
  · next h => simp [h]
  · next h => simp [h]

/-- Every host has a port in the forwarding table. -/
theorem ipv4Exact_isSome {ip : BitVec 32} (hip : ip ∈ Controller.ipList) :
    ∃ p, Controller.tables.ipv4Exact ip = some p := by
  have hall : (Controller.ipList.all fun ip => (Controller.tables.ipv4Exact ip).isSome) = true := by
    decide +kernel
  exact Option.isSome_iff_exists.1 (List.all_eq_true.1 hall ip hip)

/-- A copy that is routed leaves once, if it has kept what a forwarded packet keeps. -/
theorem forwarded_route (hdst : pkt.ipv4.dstAddr ∈ Controller.ipList)
    {m : Packet π} (hm : m.ipv4 = pkt.ipv4 ∧ m.orbitcache.op = pkt.orbitcache.op ∧
      m.orbitcache.hkey = pkt.orbitcache.hkey ∧ m.payload = pkt.payload) :
    Forwarded pkt (route s.tables pkt.ipv4.dstAddr m) := by
  obtain ⟨p, hp⟩ := ipv4Exact_isSome hdst
  refine ⟨p, m, hp, ?_, hm⟩
  have hp' : s.tables.ipv4Exact pkt.ipv4.dstAddr = some p := hp
  rw [route, hp']
  rfl

/-- What is dropped is not forwarded. -/
theorem not_forwarded_nil : ¬ Forwarded pkt [] := by
  rintro ⟨p, m, -, h, -⟩
  cases h

/-! ## Packets of configured hosts -/

/-- A packet whose queues stay as they are is not recorded, since a record makes one queue longer.
-/
theorem not_recorded {x : Crossing π} (h : s.Inv)
    (hhit : x.hit = s.lookup.lookup x.pkt.orbitcache.hkey)
    (hsame : ∀ c : BitVec 32, c.toNat < numHotkey → x.after.pending c = x.before.pending c) :
    ¬ Recorded x := by
  rintro ⟨-, c, hc, habs, -⟩
  rw [hhit] at hc
  have hlen := congrArg List.length (beq_iff_eq.1 habs)
  rw [hsame c (h.table.below _ c hc), List.length_append, List.length_singleton] at hlen
  omega

/-- What the three verdicts that route a READ have in common: no line changes, so the READ is
bypassed exactly if it is forwarded. -/
theorem bypassed_iff {v : Verdict} {m : Packet π} (h : s.Inv)
    (hdst : pkt.ipv4.dstAddr ∈ Controller.ipList)
    (hafter : ∀ c : BitVec 32, c.toNat < numHotkey →
      (s.cross port pkt).after.line c = v.lines pkt.entry s.regs.line c)
    (hlines : v.lines pkt.entry s.regs.line = s.regs.line)
    (hm : m.ipv4 = pkt.ipv4 ∧ m.orbitcache.op = pkt.orbitcache.op ∧
      m.orbitcache.hkey = pkt.orbitcache.hkey ∧ m.payload = pkt.payload) {b : Bool}
    (houts : (s.cross port pkt).outputs =
      if b = true then [] else route s.tables pkt.ipv4.dstAddr m) :
    Xor (Recorded (s.cross port pkt)) (Bypassed (s.cross port pkt)) ↔ b = false := by
  have hsame : ∀ c : BitVec 32, c.toNat < numHotkey →
      (s.cross port pkt).after.pending c = (s.cross port pkt).before.pending c := by
    intro c hc
    have hline := congrArg Line.queue (hafter c hc)
    rw [hlines, Registers.queue_line, Registers.queue_line] at hline
    exact hline
  have hrecorded : ¬ Recorded (s.cross port pkt) := not_recorded h rfl hsame
  rw [xor_iff_or_and_not_and]
  cases b with
  | true =>
    rw [if_pos rfl] at houts
    have hbypassed : ¬ Bypassed (s.cross port pkt) := by
      rintro ⟨hforwarded, -⟩
      rw [houts] at hforwarded
      exact not_forwarded_nil hforwarded
    simp [hrecorded, hbypassed]
  | false =>
    rw [if_neg Bool.false_ne_true] at houts
    have hbypassed : Bypassed (s.cross port pkt) := by
      refine ⟨?_, hsame⟩
      rw [houts]
      exact forwarded_route hdst hm
    simp [hrecorded, hbypassed]

/-- Off the loop the operation stays as it is: only a packet on the recirculation port may be taken
for another one. -/
theorem effectiveOp_eq (hport : port ∈ Controller.portList) :
    effectiveOp s.tables port pkt = pkt.orbitcache.op := by
  rw [effectiveOp, onLoop_eq_false hport, if_neg Bool.false_ne_true]

/-- A full queue, as the line of the index shows it. -/
theorem full_iff (h : s.Inv) {c : BitVec 32} (hc : s.lookup.lookup pkt.orbitcache.hkey = some c) :
    s.Full pkt ↔ (s.regs.line c).isValid = true ∧
      ¬ (s.regs.line c).queue.length < maxQueueSizePerKey := by
  have hle := (h.wf c (h.table.below _ c hc)).qlen_le
  have hlen : (s.regs.line c).queue.length = (s.regs.qlen c).toNat :=
    Registers.length_pending s.regs c
  have hvalid : (s.regs.line c).isValid = true ↔ s.regs.cacheState c = valid := beq_iff_eq
  rw [hlen, hvalid]
  constructor
  · rintro ⟨c', hc', hs, hq⟩
    rw [hc, Option.some.injEq] at hc'
    subst hc'
    exact ⟨hs, by omega⟩
  · rintro ⟨hs, hq⟩
    exact ⟨c, hc, hs, by omega⟩

/-- The port decides about what is forwarded: a packet is dropped exactly if its port is not in the
table. -/
theorem forwarded_iff {m : Packet π} {b : Bool} (hdst : pkt.ipv4.dstAddr ∈ Controller.ipList)
    (hm : m.ipv4 = pkt.ipv4 ∧ m.orbitcache.op = pkt.orbitcache.op ∧
      m.orbitcache.hkey = pkt.orbitcache.hkey ∧ m.payload = pkt.payload) :
    Forwarded pkt (if b = true then [] else route s.tables pkt.ipv4.dstAddr m) ↔ b = false := by
  cases b with
  | true => exact iff_of_false not_forwarded_nil Bool.true_eq_false.mp
  | false => exact iff_of_true (forwarded_route hdst hm) rfl

/-- A READ of a VALID key with room in its queue is recorded, whatever its port. -/
theorem recorded_absorb (h : s.Inv) {c : BitVec 32}
    (hc : s.lookup.lookup pkt.orbitcache.hkey = some c)
    (hafter : ∀ c' : BitVec 32, c'.toNat < numHotkey → (s.cross port pkt).after.line c' =
      (Verdict.absorb c).lines pkt.entry s.regs.line c')
    (houts : (s.cross port pkt).outputs = []) : Recorded (s.cross port pkt) := by
  have hqueue : ∀ c' : BitVec 32, c'.toNat < numHotkey → (s.cross port pkt).after.pending c' =
      ((Verdict.absorb c).lines pkt.entry s.regs.line c').queue := by
    intro c' hc'
    rw [← hafter c' hc', Registers.queue_line]
  refine ⟨houts, c, hc, ?_, ?_⟩
  · refine beq_iff_eq.2 ((hqueue c (h.table.below _ c hc)).trans ?_)
    simp only [Verdict.lines, Function.update_self]
    rfl
  · intro c' hc' hne
    refine (hqueue c' hc').trans ?_
    simp only [Verdict.lines, Function.update_of_ne hne]
    rfl

variable (s pkt) in
/-- The copy of a packet from a host keeps its addresses, its operation, its key hash and its
payload. -/
theorem touched_host (hport : port ∈ Controller.portList) :
    (pkt.touched s.tables port).ipv4 = pkt.ipv4 ∧
      (pkt.touched s.tables port).orbitcache.op = pkt.orbitcache.op ∧
      (pkt.touched s.tables port).orbitcache.hkey = pkt.orbitcache.hkey ∧
      (pkt.touched s.tables port).payload = pkt.payload :=
  ⟨rfl, effectiveOp_eq hport, rfl, rfl⟩

/-- And a port in `dps_0` is listed. -/
theorem unlisted_eq_false_iff : unlisted s.tables port = false ↔ port ∈ Controller.dps0 := by
  rw [← not_iff_not, Bool.not_eq_false]
  exact unlisted_iff

/-- A READ is lost only when it finds the queue of its key full at a port that is not listed. The
cases are those of the verdict. -/
theorem conserved_read_iff (h : s.Inv) (hport : port ∈ Controller.portList)
    (horb : pkt.IsOrbitcache) (hdst : pkt.ipv4.dstAddr ∈ Controller.ipList)
    (hread : pkt.orbitcache.op = opRead) :
    Xor (Recorded (s.cross port pkt)) (Bypassed (s.cross port pkt)) ↔
      port ∈ Controller.dps0 ∨ ¬ s.Full pkt := by
  obtain ⟨v, hv, -, hafter, houts⟩ := h.verdict port pkt
  have hhost : onLoop s.tables port = false := onLoop_eq_false hport
  have htouched := touched_host s pkt hport
  cases hv with
  | plain hplain => exact absurd horb hplain
  | @absorb c _ hc _ _ _ hroom =>
    have hrecorded := recorded_absorb h hc hafter houts
    have hbypassed : ¬ Bypassed (s.cross port pkt) := by
      rintro ⟨hforwarded, -⟩
      rw [houts] at hforwarded
      exact not_forwarded_nil hforwarded
    have hfull : ¬ s.Full pkt := by
      rw [full_iff h hc]
      exact fun hf => hf.2 hroom
    simp [xor_iff_or_and_not_and, hrecorded, hbypassed, hfull]
  | overflow _ hc _ _ hs hroom =>
    have hfull : s.Full pkt := (full_iff h hc).2 ⟨hs, hroom⟩
    have hmissed := bypassed_iff (b := unlisted s.tables port)
      (m := { pkt.touched s.tables port with orbitcache.cached := missed }) h hdst hafter rfl
      htouched houts
    rw [hmissed, unlisted_eq_false_iff]
    simp [hfull]
  | @bypass c _ hc _ _ hs =>
    have hfull : ¬ s.Full pkt := by
      rw [full_iff h hc, hs]
      simp
    rw [bypassed_iff (b := false) h hdst hafter rfl htouched houts]
    simp [hfull]
  | uncached _ hc =>
    have hfull : ¬ s.Full pkt := by
      rintro ⟨c, hc', -⟩
      rw [show s.lookup.lookup pkt.orbitcache.hkey = none from hc] at hc'
      cases hc'
    rw [bypassed_iff (b := false) h hdst hafter rfl htouched houts]
    simp [hfull]
  | serve _ _ hloop | idle _ _ hloop | discard _ hloop =>
    rw [hhost] at hloop
    cases hloop
  | forward _ _ hne => exact absurd hread hne
  | invalidate _ _ _ hop =>
    rw [hread] at hop
    cases hop
  | clone _ _ _ hop =>
    rw [hread] at hop
    rcases hop with hop | hop <;> cases hop

/-- Any other packet that is to be accounted for is lost at every port that is not listed, and only
there. -/
theorem conserved_other_iff (h : s.Inv) (hport : port ∈ Controller.portList)
    (horb : pkt.IsOrbitcache) (hdst : pkt.ipv4.dstAddr ∈ Controller.ipList)
    (hop : s.Accountable pkt) (hread : pkt.orbitcache.op ≠ opRead) :
    Forwarded pkt (s.cross port pkt).outputs ↔ port ∈ Controller.dps0 := by
  obtain ⟨v, hv, -, -, houts⟩ := h.verdict port pkt
  have hhost : onLoop s.tables port = false := onLoop_eq_false hport
  rw [houts, ← unlisted_eq_false_iff (s := s)]
  cases hv with
  | plain hplain => exact absurd horb hplain
  | absorb _ _ _ hop' | overflow _ _ _ hop' | bypass _ _ _ hop' | uncached _ _ _ hop' =>
    exact absurd hop' hread
  | serve _ _ hloop | idle _ _ hloop | discard _ hloop =>
    rw [hhost] at hloop
    cases hloop
  | forward | invalidate =>
    have htouched := touched_host s pkt hport
    exact forwarded_iff hdst htouched
  | @clone c _ hc _ hop' =>
    rcases hop with hop | hop | ⟨-, hnone⟩
    · exact absurd hop hread
    · rcases hop' with hop' | hop' <;> simp [hop'] at hop
    · rw [show s.lookup.lookup pkt.orbitcache.hkey = some c from hc] at hnone
      cases hnone

/-- In every reachable state, a packet from the port of a configured host to a configured host is
neither lost nor duplicated if and only if its port is in `dps_0`, or it is a READ that does not
find the queue of its key full. The port need not be the one of the host that sent it. -/
theorem conserved_iff {regs : Registers} (hrun : Run Traffic.step Tabled (start π regs) s)
    (hport : port ∈ Controller.portList) (horb : pkt.IsOrbitcache)
    (hdst : pkt.ipv4.dstAddr ∈ Controller.ipList) (hop : s.Accountable pkt) :
    s.Conserved port pkt ↔
      port ∈ Controller.dps0 ∨ pkt.orbitcache.op = opRead ∧ ¬ s.Full pkt := by
  have h := inv_of_run hrun
  unfold Conserved
  split
  · next hread =>
    rw [conserved_read_iff h hport horb hdst hread]
    simp [hread]
  · next hread =>
    rw [conserved_other_iff h hport horb hdst hop hread, or_iff_left fun hor => hread hor.1]

/-! ## Pending reads and cache packets -/

/-- The packet that dequeues an entry is a cache packet of a VALID key, the entry is that of a READ,
and the cache packet remains on the loop if the READ came from an address of `ip_list`. -/
structure Answers (c : BitVec 32) (read lap : Crossing π) : Prop where
  isRead : read.IsRead
  isLap : lap.IsLapAt c
  remains : lap.Remains ↔ read.pkt.ipv4.srcAddr ∈ Controller.ipList

/-- The entries of an index are those of READs, and its queue is first-in first-out: the entries
that were dequeued, followed by those that are pending, are the entries of the recorded packets. -/
structure Queued (s : Traffic π) : Prop extends s.Inv where
  requests : ∀ c : BitVec 32, c.toNat < numHotkey → ∀ x ∈ s.reads c, x.IsRead
  queues : ∀ c : BitVec 32, c.toNat < numHotkey →
    Fifo.Matched (fun x : Crossing π => x.pkt.entry) (Answers c) (s.reads c) (s.laps c)
      (s.regs.line c).queue

/-- Only packets on the recirculation port are on the loop, and its entry is the port itself. -/
theorem eq_of_onLoop (h : onLoop s.tables port = true) :
    port = Controller.cRecircPrt0 ∧ recircEntry s.tables port = (Controller.cRecircPrt0, 0) := by
  have heq : recircEntry s.tables port =
      (if port ∈ Controller.dps0 then some (Controller.cRecircPrt0, 0) else none).getD (0, 0) := rfl
  have hloop := beq_iff_eq.1 h
  rw [heq] at hloop ⊢
  by_cases hport : port ∈ Controller.dps0
  · rw [if_pos hport] at hloop ⊢
    exact ⟨hloop, rfl⟩
  · rw [if_neg hport] at hloop
    have hzero : port = 0 := hloop
    rw [hzero] at hport
    exact absurd (by decide) hport

/-- The copies for an address of `ip_list` go to its port and to the recirculation port; for any
other address there are none. -/
theorem multicast_answer (ip : BitVec 32) (m : Packet π) :
    (ip ∈ Controller.ipList → ∃ port, multicast s.tables (s.tables.getCrecircId ip 0) m =
      [(port, m), (Controller.cRecircPrt0, m)]) ∧
    (ip ∉ Controller.ipList → multicast s.tables (s.tables.getCrecircId ip 0) m = []) := by
  constructor
  · intro hip
    obtain ⟨port, hport⟩ := ipv4Exact_isSome hip
    have hD : (cluster 1).Wired := cluster_wired (by decide) (by decide)
    obtain ⟨-, g, hne, hg, -, hmgid⟩ := hD.host ip port hport
    have hg : s.tables.getCrecircId ip 0 = some g := hg
    have hmgid : s.tables.mgid g = [port, Controller.cRecircPrt0] := hmgid
    refine ⟨port, ?_⟩
    rw [hg, multicast, Option.getD_some, if_neg hne, hmgid]
    rfl
  · intro hip
    have hnone : s.tables.getCrecircId ip 0 = none := by
      show (if (0 : BitVec 4) = 0 then (Controller.ipList.zip Controller.recircIds).lookup ip
        else none) = none
      rw [if_pos rfl, List.lookup_eq_none_iff]
      intro p hp
      have hmem := (List.of_mem_zip hp).1
      simp only [bne_iff_ne, ne_eq]
      rintro rfl
      exact hip hmem
    rw [hnone]
    rfl

/-- A cache packet that finds a pending read remains if and only if the read's address is in the
tables, since it is the address of the read that chooses the multicast group. -/
theorem remains_iff_of_serve (h : s.Inv) {c : BitVec 32} {e : Pending}
    (hv : VerdictCase s.tables port s.regs.line pkt (.serve c e))
    (hafter : ∀ c' : BitVec 32, c'.toNat < numHotkey → (s.cross port pkt).after.line c' =
      (Verdict.serve c e).lines pkt.entry s.regs.line c')
    (houts : (s.cross port pkt).outputs = (Verdict.serve c e).outputs s.tables port pkt) :
    (s.cross port pkt).IsLapAt c ∧
      ((s.cross port pkt).Remains ↔ e.clientIP ∈ Controller.ipList) := by
  cases hv with
  | serve horb hc hloop hs hq =>
    obtain ⟨hport, hentry⟩ := eq_of_onLoop hloop
    have hvalid := congrArg Line.isValid (hafter c (h.table.below _ c hc))
    simp only [Verdict.lines, Function.update_self] at hvalid
    rw [hs] at hvalid
    refine ⟨⟨hport, hc, beq_iff_eq.1 hs, beq_iff_eq.1 hvalid⟩, ?_⟩
    have houts : (s.cross port pkt).outputs = multicast s.tables
        (s.tables.getCrecircId e.clientIP 0) ((pkt.touched s.tables port).answer s.tables e) := by
      rw [houts, Verdict.outputs, hentry]
    obtain ⟨hlisted, hunlisted⟩ := multicast_answer (s := s) e.clientIP
      ((pkt.touched s.tables port).answer s.tables e)
    constructor
    · rintro ⟨o, ho, -⟩
      by_contra hip
      rw [houts, hunlisted hip] at ho
      cases ho
    · intro hip
      obtain ⟨p, hp⟩ := hlisted hip
      refine ⟨(Controller.cRecircPrt0, (pkt.touched s.tables port).answer s.tables e), ?_, rfl,
        rfl, rfl, fun hsrc => ⟨horb.1, horb.2.1, .inr hsrc⟩⟩
      rw [houts, hp]
      simp

/-- The queue of an index after a packet: one entry more, one less, or as it was. -/
theorem Queued.packet (h : s.Queued) (port : BitVec 9) (pkt : Packet π) {c : BitVec 32}
    (hc : c.toNat < numHotkey) :
    let x := s.cross port pkt
    (∀ y ∈ (s.log ++ [x]).filter (Crossing.absorbedAt c), y.IsRead) ∧
      Fifo.Matched (fun y : Crossing π => y.pkt.entry) (Answers c)
        ((s.log ++ [x]).filter (Crossing.absorbedAt c))
        ((s.log ++ [x]).filter (Crossing.servedAt c)) (x.after.line c).queue := by
  intro x
  have hreads := h.requests c hc
  have hqueue := h.queues c hc
  unfold reads laps at hqueue
  unfold reads at hreads
  obtain ⟨v, hv, -, hafter, houts⟩ := h.verdict port pkt
  have hline := congrArg Line.queue (hafter c hc)
  have habs : x.absorbedAt c = ((v.lines pkt.entry s.regs.line c).queue ==
      (s.regs.line c).queue ++ [pkt.entry]) := by
    rw [← hline]
    rfl
  have hserved : x.servedAt c = ((s.regs.line c).queue != [] &&
      (v.lines pkt.entry s.regs.line c).queue == (s.regs.line c).queue.tail) := by
    rw [← hline]
    rfl
  rcases hv.queue_flags pkt.entry c with ⟨rfl, ha, hl, hq⟩ | ⟨e, rest, rfl, ha, hl, hq, hq'⟩ |
    ⟨-, -, ha, hl, hq⟩
  · rw [Fifo.filter_concat _ (habs.trans ha), Fifo.filter_concat _ (hserved.trans hl), if_pos rfl,
      if_neg Bool.false_ne_true]
    have hread : x.IsRead := by
      cases hv with
      | absorb horb hl' _ hop => exact ⟨horb, hop, Option.isSome_iff_exists.2 ⟨c, hl'⟩⟩
    refine ⟨?_, ?_⟩
    · intro y hy
      rcases List.mem_append.1 hy with hy | hy
      · exact hreads y hy
      · rw [List.mem_singleton.1 hy]
        exact hread
    · rw [hline, hq]
      exact hqueue.enter x
  · rw [Fifo.filter_concat _ (habs.trans ha), Fifo.filter_concat _ (hserved.trans hl), if_pos rfl,
      if_neg Bool.false_ne_true]
    obtain ⟨hlap, hremains⟩ := remains_iff_of_serve h.toInv hv hafter houts
    refine ⟨hreads, ?_⟩
    rw [hline, hq']
    rw [hq] at hqueue
    refine hqueue.take ?_
    intro read hread hentry
    have hmem : read ∈ s.log.filter (Crossing.absorbedAt c) := List.mem_of_mem_drop hread
    refine ⟨hreads read hmem, hlap, ?_⟩
    rw [hremains, ← hentry]
    rfl
  · rw [Fifo.filter_concat _ (habs.trans ha), Fifo.filter_concat _ (hserved.trans hl),
      if_neg Bool.false_ne_true, if_neg Bool.false_ne_true, hline, hq]
    exact ⟨hreads, hqueue⟩

/-- Every step keeps the queues, and a change of the table touches none of them. -/
theorem Queued.step (h : s.Queued) {a : TrafficAction π} (ha : s.Tabled a)
    (hstep : s.step a = some s') : s'.Queued := by
  have hinv := h.toInv.step ha hstep
  cases a with
  | packet port pkt =>
    cases hstep
    exact ⟨hinv, fun c hc => (h.packet port pkt hc).1, fun c hc => (h.packet port pkt hc).2⟩
  | control lookup =>
    cases hstep
    exact ⟨hinv, h.requests, h.queues⟩

end

/-! ## Packets of a host and of a stranger -/

/-- A packet of the latest static key from an address to the first server, with an OrbitCache source
port. -/
def hotPacket (ip : BitVec 32) (op : BitVec 8) : Packet Unit :=
  ⟨⟨0, 0, typeIpv4⟩, ⟨typeUdp, ip, dstIp 0⟩, ⟨3000, 3000, 0⟩,
    { op := op
      seq := 0
      hkeyHi := (Controller.hkey (Controller.tostringKey 127)).1
      hkeyLo := (Controller.hkey (Controller.tostringKey 127)).2
      flag := 0
      cached := 0
      latency := 0 }, ()⟩

/-- The switch with the table of the static controller and zeroed registers. -/
def installed : Traffic Unit := ⟨Controller.zeroRegisters, Controller.staticTable, []⟩

/-- It is reached in one step, the installation of the table. -/
theorem run_installed :
    Run Traffic.step Tabled (start Unit Controller.zeroRegisters) installed := by
  have hstart : start Unit Controller.zeroRegisters = ⟨Controller.zeroRegisters, ∅, []⟩ := by
    rw [start, Controller.initRegisters_zeroRegisters]
  rw [hstart]
  exact Relation.ReflTransGen.single
    ⟨.control Controller.staticTable, Controller.staticTable_staticTable, rfl⟩

/-- A WRITE of a host on a listed port is forwarded to its server. -/
theorem conserved_listed :
    ∃ s : Traffic Unit, s.Conserved 48 (hotPacket 0x0A000165 opWrite) := by
  have hport : (48 : BitVec 9) ∈ Controller.portList := by decide
  have hdps : (48 : BitVec 9) ∈ Controller.dps0 := by decide
  have hdst : dstIp 0 ∈ Controller.ipList := by decide +kernel
  have horb : (hotPacket 0x0A000165 opWrite).IsOrbitcache := ⟨rfl, rfl, .inl rfl⟩
  exact ⟨installed, (conserved_iff run_installed hport horb hdst (.inr (.inl (.inl rfl)))).2
    (.inl hdps)⟩

/-- A WRITE of the host 10.0.1.124 is dropped: its port 444 is in `port_list` and not in `dps_0`. -/
theorem not_conserved_unlisted :
    Run Traffic.step Tabled (start Unit Controller.zeroRegisters) installed ∧
      Controller.tables.ipv4Exact 0x0A00017C = some 444 ∧
      (444 : BitVec 9) ∈ Controller.portList ∧ dstIp 0 ∈ Controller.ipList ∧
      (hotPacket 0x0A00017C opWrite).IsOrbitcache ∧
      installed.Accountable (hotPacket 0x0A00017C opWrite) ∧
      ¬ installed.Conserved 444 (hotPacket 0x0A00017C opWrite) := by
  have hdst : dstIp 0 ∈ Controller.ipList := by decide +kernel
  have houts : (installed.cross 444 (hotPacket 0x0A00017C opWrite)).outputs.isEmpty = true := by
    decide +kernel
  refine ⟨run_installed, by decide +kernel, by decide, hdst, ⟨rfl, rfl, .inl rfl⟩,
    .inr (.inl (.inl rfl)), ?_⟩
  intro hconserved
  have hforwarded : Forwarded (hotPacket 0x0A00017C opWrite)
      (installed.cross 444 (hotPacket 0x0A00017C opWrite)).outputs := hconserved
  rw [List.isEmpty_iff.1 houts] at hforwarded
  exact not_forwarded_nil hforwarded

end Traffic

end OrbitCache
