import OrbitCache.Switch.Verdict

/-!
# What a pass does

`SwitchIngress.apply` updates eleven registers and the metadata over some thirty actions.
`switchPass_eq` says what a whole pass amounts to: the registers and the copies that the verdict on
the packet determines.
-/

namespace OrbitCache

/-! ## The pipeline, block by block -/

namespace Ingress

/-- Rewriting the operation, as one update: the first of the two tests makes no difference. -/
theorem rewriteOp_eq (port : BitVec 9) (x : Ingress) :
    rewriteOp port x = { x with
      hdr.orbitcache.op :=
        if port = x.igMd.cacheRecirculationPort then opRReply else x.hdr.orbitcache.op } := by
  unfold rewriteOp
  by_cases hp : port = x.igMd.cacheRecirculationPort
  · by_cases ho : x.hdr.orbitcache.op = opRReply
    · rw [if_neg (by simp [ho]), if_pos hp, ← ho]
    · rw [if_pos ⟨ho, hp⟩, if_pos hp]
  · rw [if_neg (fun h => hp h.2), if_neg hp]

section
variable {π : Type} (t : Tables) (port : BitVec 9) (pkt : Packet π)

/-- Updating the destination MAC, as one update, in which a miss keeps the address. -/
theorem updateDstMACTable_eq (x : Ingress) :
    updateDstMACTable t x = { x with
      hdr.ethernet.dstAddr :=
        (t.updateDstMAC x.hdr.ipv4.dstAddr).getD x.hdr.ethernet.dstAddr } := by
  unfold updateDstMACTable; split <;> next h => rw [h]; rfl

/-- The cloning action resets `drop_ctl`, so a miss of the group lookup only leaves the group as it
was. -/
theorem msgCloningAction_getCrecircIdTable (x : Ingress) :
    msgCloningAction (getCrecircIdTable t x) = msgCloningAction { x with
      igMd.crecircId :=
        (t.getCrecircId x.hdr.ipv4.dstAddr x.igMd.pipeNum).getD x.igMd.crecircId } := by
  unfold getCrecircIdTable; split <;> next h => rw [h]; rfl

/-- The same for the second table, which the clones of W_REPLYs use. -/
theorem msgCloningAction_getCrecircIdTable2 (x : Ingress) :
    msgCloningAction (getCrecircIdTable2 t x) = msgCloningAction { x with
      igMd.crecircId :=
        (t.getCrecircId2 x.hdr.ipv4.dstAddr x.igMd.pipeNum).getD x.igMd.crecircId } := by
  unfold getCrecircIdTable2; split <;> next h => rw [h]; rfl

/-- The pipeline after the lookups, when the state read for the packet is `v`. The branches start
from here, so each of their lemmas is about this one form. -/
def entered (r : Registers) (pkt : Packet π) (v : BitVec 8) : Ingress where
  hdr := ⟨pkt.ethernet, pkt.ipv4, true, { pkt.udp with checksum := 0 }, true,
    { pkt.orbitcache with op := effectiveOp t port pkt }, true⟩
  igMd :=
    { isCached := if (t.cacheLookup pkt.orbitcache.hkey).isSome then yes else no
      cacheState := v
      requestIdx := 0
      offset := 0
      cacheIdx := (t.cacheLookup pkt.orbitcache.hkey).getD 0
      crecircId := 0
      cacheRecirculationPort := (recircEntry t port).1
      pipeNum := (recircEntry t port).2
      qlen := 0 }
  regs := r
  dropCtl := if unlisted t port then 1 else 0
  igTmMd := ⟨none, 0, 0⟩

/-- The lookups bring the packet that was parsed into this form, with the state INVALID. -/
theorem lookupBlock_start (r : Registers) {pkt : Packet π} (h : pkt.IsOrbitcache) :
    lookupBlock t port (start (switchIngressParser pkt) r) = entered t port r pkt invalid := by
  rw [switchIngressParser_of_isOrbitcache h, lookupBlock, rewriteOp_eq]
  unfold cacheLookupTable readCacheRecirculationPortTable entered effectiveOp onLoop recircEntry
    unlisted
  cases hp : t.readCacheRecirculationPort port <;>
    cases hl : t.cacheLookup pkt.orbitcache.hkey <;> simp [start, drop, hl]

/-- The registers and the copies a pass leaves, from the last state of the pipeline: deparser and
traffic manager at once. -/
def collect (x : Ingress) : Registers × List (BitVec 9 × Packet π) :=
  (x.regs, (x.egressPorts t).map fun p => (p, switchIngressDeparser pkt x.hdr))

/-- A dropped packet leaves its registers and no copy. -/
theorem collect_drop (x : Ingress) : collect t pkt (drop x) = (x.regs, []) := by
  simp [collect, egressPorts, drop]

/-- A packet that is routed leaves the copy for its address, unless `drop_ctl` was set before. -/
theorem collect_ipv4Exact {x : Ingress} {b : Bool} (hu : x.igTmMd = ⟨none, 0, 0⟩)
    (hd : x.dropCtl = if b then 1 else 0) :
    collect t pkt (ipv4Exact t x) =
      (x.regs, if b then [] else
        route t x.hdr.ipv4.dstAddr (switchIngressDeparser pkt x.hdr)) := by
  unfold ipv4Exact
  cases h : t.ipv4Exact x.hdr.ipv4.dstAddr with
  | none => simp [collect, egressPorts, drop, route, h]
  | some p => cases b <;> simp [collect, egressPorts, ipv4Forward, hu, route, h, hd]

/-- A packet that is cloned leaves the copies of its group, whether `drop_ctl` was set before or
not. -/
theorem collect_msgCloningAction {x : Ingress} (hu : x.igTmMd.ucastEgressPort = none) :
    collect t pkt (msgCloningAction x) =
      (x.regs, multicast t (some x.igMd.crecircId) (switchIngressDeparser pkt x.hdr)) := by
  simp [collect, egressPorts, msgCloningAction, hu, multicast]

/-- Admitting a READ to a queue with room: the actions of the branch amount to `push`. -/
theorem collect_enqueue {x : Ingress} {c : BitVec 32} (hc : x.igMd.cacheIdx = c)
    (hroom : x.regs.qlen c ≠ BitVec.ofNat 16 maxQueueSizePerKey) :
    collect t pkt (enqueue (incrQlenAction x)) =
      (x.regs.push c ⟨x.hdr.ipv4.srcAddr, x.hdr.udp.srcPort, x.hdr.orbitcache.seq,
          x.hdr.orbitcache.latency⟩, []) := by
  subst hc
  rw [enqueue, collect_drop, Registers.push, Registers.writeSlot, Registers.slotIdx_rear]
  simp only [incrQlenAction, RegisterAction.incrQlen_execute_room hroom]
  rfl

/-- Serving the oldest read of a queue that is not empty: the actions of the branch amount to `pop`,
and the copies are those of the client's group, with the entry in their headers. -/
theorem collect_dequeue {x : Ingress} {c : BitVec 32} (hc : x.igMd.cacheIdx = c)
    (hq : x.regs.qlen c ≠ 0) (hg : x.igMd.crecircId = 0) (hu : x.igTmMd.ucastEgressPort = none) :
    collect t pkt (dequeue t (decrQlenAction x)) =
      (x.regs.pop c,
        let e := x.regs.slot c (x.regs.ptrFront c).toNat
        multicast t (t.getCrecircId e.clientIP x.igMd.pipeNum)
          (switchIngressDeparser pkt
            { x.hdr with
              ethernet.dstAddr := (t.updateDstMAC e.clientIP).getD x.hdr.ethernet.dstAddr
              ipv4.dstAddr := e.clientIP
              udp.dstPort := e.udpPort
              orbitcache.seq := e.seq
              orbitcache.latency := e.latency })) := by
  subst hc
  rw [dequeue, msgCloningAction_getCrecircIdTable, updateDstMACTable_eq,
    collect_msgCloningAction _ _ (by exact hu), Registers.pop, Registers.writeSlot, Registers.slot,
    Registers.slotIdx_front]
  simp only [decrQlenAction, RegisterAction.decrQlen_execute_pos hq]
  simp [getLatencyAction, getSeqAction, getUDPPortAction, getClientIPAction, addOffset,
    incrPtrFrontAction, hg, multicast]

end


/-- A full queue gives the packet the value 0, and nothing changes. -/
theorem incrQlenAction_full {x : Ingress}
    (h : x.regs.qlen x.igMd.cacheIdx = BitVec.ofNat 16 maxQueueSizePerKey) :
    incrQlenAction x = { x with igMd.qlen := 0 } := by
  rw [incrQlenAction, RegisterAction.incrQlen_execute_full h]

/-- A queue with room gives the packet its new length. -/
theorem incrQlenAction_room {x : Ingress}
    (h : x.regs.qlen x.igMd.cacheIdx ≠ BitVec.ofNat 16 maxQueueSizePerKey) :
    (incrQlenAction x).igMd.qlen = x.regs.qlen x.igMd.cacheIdx + 1 := by
  rw [incrQlenAction, RegisterAction.incrQlen_execute_room h]

/-- The value a cache packet gets is the old length. -/
theorem decrQlenAction_qlen (x : Ingress) :
    (decrQlenAction x).igMd.qlen = x.regs.qlen x.igMd.cacheIdx := rfl

/-- An empty queue gives the cache packet the value 0, and nothing changes. -/
theorem decrQlenAction_empty {x : Ingress} (h : x.regs.qlen x.igMd.cacheIdx = 0) :
    decrQlenAction x = { x with igMd.qlen := 0 } := by
  rw [decrQlenAction, RegisterAction.decrQlen_execute_empty h]

section
variable {π : Type} (t : Tables) (port : BitVec 9) (pkt : Packet π)
variable {r : Registers} {c : BitVec 32} {v : BitVec 8}

/-- A packet and its verdict: the registers and the copies. It is what `switchPass` is proved to be.
-/
abbrev effect (r : Registers) (v : Verdict) : Registers × List (BitVec 9 × Packet π) :=
  (v.regs r pkt, v.outputs t port pkt)

/-- The lookup has set the mark of a cached key. -/
theorem isCached_entered (hl : t.cacheLookup pkt.orbitcache.hkey = some c) :
    (entered t port r pkt v).igMd.isCached = yes := by
  simp [entered, hl]

/-- The lookup has set the index of a cached key. -/
theorem cacheIdx_entered (hl : t.cacheLookup pkt.orbitcache.hkey = some c) :
    (entered t port r pkt v).igMd.cacheIdx = c := by
  simp [entered, hl]

/-- The mark of a key that is not cached is not set. -/
theorem isCached_entered_none (hl : t.cacheLookup pkt.orbitcache.hkey = none) :
    (entered t port r pkt v).igMd.isCached ≠ yes := by
  simp [entered, hl]

/-- Reading the state of a cached key puts the state of its index in the place of INVALID. -/
theorem readCacheStateAction_entered (hl : t.cacheLookup pkt.orbitcache.hkey = some c) :
    readCacheStateAction (entered t port r pkt v) = entered t port r pkt (r.cacheState c) := by
  simp [readCacheStateAction, entered, hl]

/-- Counting a READ of a cached key changes the registers and leaves the packet as it is. -/
theorem countRead_entered (hl : t.cacheLookup pkt.orbitcache.hkey = some c) :
    incTotalCacheAction (incCacheCounterAction (entered t port r pkt v)) =
      entered t port (r.countRead c) pkt v := by
  simp [incTotalCacheAction, incCacheCounterAction, entered, hl, Registers.countRead,
    RegisterAction.count]

/-- `OP_READ` of a cached key: absorbed when VALID with room, marked and routed when the queue is
full, routed when INVALID. -/
theorem applyRead_hit (hl : t.cacheLookup pkt.orbitcache.hkey = some c) (hwf : r.WF c)
    (hv : v = valid ∨ v = invalid) :
    collect t pkt (applyRead t (entered t port r pkt v)) =
      effect t port pkt r (hitVerdict opRead (onLoop t port) ⟨v == valid, r.pending c⟩ c) := by
  rw [applyRead, if_pos (isCached_entered t port pkt hl), countRead_entered t port pkt hl,
    hitVerdict_read]
  have hidx := cacheIdx_entered t port pkt (r := r.countRead c) (v := v) hl
  have hqlen : (entered t port (r.countRead c) pkt v).regs.qlen = r.qlen := rfl
  rcases hv with rfl | rfl
  · rw [if_pos (by rfl), if_pos (beq_self_eq_true valid)]
    by_cases hroom : (r.pending c).length < maxQueueSizePerKey
    · have hq := hwf.room_iff.1 hroom
      rw [if_pos hroom, if_pos]
      · rw [collect_enqueue t pkt hidx hq]
        rfl
      · rw [incrQlenAction_room (by rwa [hidx, hqlen]), hidx, hqlen]
        exact hwf.qlen_succ_pos
    · have hq : r.qlen c = BitVec.ofNat 16 maxQueueSizePerKey :=
        not_ne_iff.1 fun h => hroom (hwf.room_iff.2 h)
      rw [if_neg hroom, incrQlenAction_full (by rw [hidx, hqlen, hq])]
      exact collect_ipv4Exact t pkt (b := unlisted t port) rfl rfl
  · rw [if_neg (by exact (by decide : invalid ≠ valid)), if_pos (by rfl),
      if_neg (by decide : ¬ (invalid == valid) = true)]
    exact collect_ipv4Exact t pkt (b := false) rfl rfl

/-- `OP_READ` of a key that is not cached: the state is the INVALID it started with, so the READ is
routed. -/
theorem applyRead_miss (hl : t.cacheLookup pkt.orbitcache.hkey = none) :
    collect t pkt (applyRead t (entered t port r pkt invalid)) = effect t port pkt r .uncached := by
  rw [applyRead, if_neg (isCached_entered_none t port pkt hl),
    if_neg (by exact (by decide : invalid ≠ valid)), if_pos (by rfl)]
  exact collect_ipv4Exact t pkt (b := false) rfl rfl

/-- `OP_R_REPLY` of a packet that is not on the loop: the reply of a server, which is routed. -/
theorem applyRReply_routed (hp : onLoop t port = false) :
    collect t pkt (applyRReply t port (entered t port r pkt v)) = effect t port pkt r .forward := by
  have hp : port ≠ (recircEntry t port).1 := beq_eq_false_iff_ne.1 hp
  rw [applyRReply, if_neg (by exact hp)]
  exact collect_ipv4Exact t pkt (b := unlisted t port) rfl rfl

/-- `OP_R_REPLY` of a packet on the loop whose key is INVALID or not cached: the value it carries is
old, and it is dropped. -/
theorem applyRReply_discard (hp : onLoop t port = true) :
    collect t pkt (applyRReply t port (entered t port r pkt invalid)) =
      effect t port pkt r .discard := by
  have hp : port = (recircEntry t port).1 := beq_iff_eq.1 hp
  rw [applyRReply, if_pos (by exact hp), if_neg (by exact (by decide : invalid ≠ valid)),
    if_pos (by rfl)]
  exact collect_drop t pkt _

/-- `OP_R_REPLY` of a packet on the loop whose key is VALID: it serves the oldest entry, or goes
round once more. -/
theorem applyRReply_valid (hl : t.cacheLookup pkt.orbitcache.hkey = some c) (hwf : r.WF c)
    (hp : onLoop t port = true) :
    collect t pkt (applyRReply t port (entered t port r pkt valid)) =
      effect t port pkt r (match r.pending c with | [] => .idle | e :: _ => .serve c e) := by
  have hidx := cacheIdx_entered t port pkt (r := r) (v := valid) hl
  have hp : port = (recircEntry t port).1 := beq_iff_eq.1 hp
  rw [applyRReply, if_pos (by exact hp), if_pos (by rfl)]
  cases hq : r.pending c with
  | nil =>
    have h0 := Registers.pending_eq_nil_iff.1 hq
    rw [decrQlenAction_empty (by rw [← hidx] at h0; exact h0),
      if_neg (by exact (by decide : ¬ (0 : BitVec 16) > 0))]
    simp only [collect, effect, Verdict.regs, Verdict.outputs, egressPorts, entered]
    cases unlisted t port with
    | true => simp
    | false => simp; rfl
  | cons e q =>
    have h0 : r.qlen c ≠ 0 := fun h => by rw [Registers.pending_eq_nil_iff.2 h] at hq; cases hq
    have he := Registers.pending_eq_cons hwf.front_lt hq
    have hpos : (decrQlenAction (entered t port r pkt valid)).igMd.qlen > 0 := by
      rw [decrQlenAction_qlen, hidx]
      exact show r.qlen c > 0 by bv_omega
    rw [if_pos (by exact hpos), he]
    exact collect_dequeue t pkt (x := entered t port r pkt valid) hidx h0 rfl rfl

/-- `OP_WRITE` of a cached key, whatever its state was. -/
theorem applyWrite_hit (hl : t.cacheLookup pkt.orbitcache.hkey = some c) :
    collect t pkt (applyWrite t (entered t port r pkt v)) =
      effect t port pkt r (.invalidate c) := by
  have hidx := cacheIdx_entered t port pkt (r := r) (v := v) hl
  rw [applyWrite, if_pos (isCached_entered t port pkt hl)]
  refine (collect_ipv4Exact t pkt (b := unlisted t port) rfl rfl).trans ?_
  rw [invalidCacheStateAction, hidx]
  rfl

/-- `OP_WRITE` of a key that is not cached, which is only routed. -/
theorem applyWrite_miss (hl : t.cacheLookup pkt.orbitcache.hkey = none) :
    collect t pkt (applyWrite t (entered t port r pkt v)) = effect t port pkt r .forward := by
  rw [applyWrite, if_neg (isCached_entered_none t port pkt hl)]
  exact collect_ipv4Exact t pkt (b := unlisted t port) rfl rfl

/-- `OP_W_REPLY` and `OP_F_REPLY` of a cached key, whatever its state was. -/
theorem applyWReply_hit (hl : t.cacheLookup pkt.orbitcache.hkey = some c) :
    collect t pkt (applyWReply t (entered t port r pkt v)) = effect t port pkt r (.clone c) := by
  have hidx := cacheIdx_entered t port pkt (r := r) (v := v) hl
  rw [applyWReply, if_pos (isCached_entered t port pkt hl), msgCloningAction_getCrecircIdTable2,
    collect_msgCloningAction _ _ (by rfl), validCacheStateAction, hidx]
  rfl

/-- `OP_W_REPLY` and `OP_F_REPLY` of a key that is not cached, which are only routed. -/
theorem applyWReply_miss (hl : t.cacheLookup pkt.orbitcache.hkey = none) :
    collect t pkt (applyWReply t (entered t port r pkt v)) = effect t port pkt r .forward := by
  rw [applyWReply, if_neg (isCached_entered_none t port pkt hl)]
  exact collect_ipv4Exact t pkt (b := unlisted t port) rfl rfl

end
end Ingress

section
variable {π : Type} (t : Tables) (port : BitVec 9) (r : Registers) (pkt : Packet π)

open Ingress

/-- A packet whose key is cached: the control does what the verdict on its line says. -/
theorem switchPass_hit {c : BitVec 32} (h : pkt.IsOrbitcache)
    (hl : t.cacheLookup pkt.orbitcache.hkey = some c) (hwf : r.WF c) :
    switchPass t port r pkt = effect t port pkt r
      (hitVerdict (effectiveOp t port pkt) (onLoop t port) (r.line c) c) := by
  show collect t pkt (apply t port (start (switchIngressParser pkt) r)) = _
  rw [Ingress.apply, if_pos (by exact orbitcacheValid_iff.2 h), lookupBlock_start t port r h]
  simp only [if_pos (isCached_entered t port pkt hl), readCacheStateAction_entered t port pkt hl]
  have hop (v : BitVec 8) :
      (entered t port r pkt v).hdr.orbitcache.op = effectiveOp t port pkt := rfl
  simp only [hop]
  by_cases hrouted : effectiveOp t port pkt = opCrctn ∨ effectiveOp t port pkt = opFetch
  · rw [if_pos hrouted]
    have hv : hitVerdict (effectiveOp t port pkt) (onLoop t port) (r.line c) c = .forward := by
      rcases hrouted with hop | hop <;> rw [hop] <;> rfl
    rw [hv]
    exact collect_ipv4Exact t pkt (b := unlisted t port) rfl rfl
  rw [if_neg hrouted]
  by_cases hread : effectiveOp t port pkt = opRead
  · rw [if_pos (.inl hread), if_pos hread, hread]
    exact applyRead_hit t port pkt hl hwf hwf.state
  by_cases hreply : effectiveOp t port pkt = opRReply
  · rw [if_pos (.inr hreply), if_neg hread, if_pos hreply, hreply, hitVerdict_rReply]
    cases hloop : onLoop t port with
    | false => exact applyRReply_routed t port pkt hloop
    | true =>
      rcases hwf.state with hs | hs <;> rw [Registers.line, hs]
      · exact applyRReply_valid t port pkt hl hwf hloop
      · exact applyRReply_discard t port pkt hloop
  rw [if_neg (by rintro (h | h) <;> contradiction)]
  by_cases hwrite : effectiveOp t port pkt = opWrite
  · rw [if_pos hwrite, hwrite]
    exact applyWrite_hit t port pkt hl
  rw [if_neg hwrite]
  by_cases hwReply : effectiveOp t port pkt = opWReply ∨ effectiveOp t port pkt = opFReply
  · rw [if_pos hwReply, hitVerdict_wReply _ _ _ hwReply]
    exact applyWReply_hit t port pkt hl
  · rw [if_neg hwReply, hitVerdict_other _ _ _ hread hreply hwrite hwReply]
    exact collect_ipv4Exact t pkt (b := unlisted t port) rfl rfl

/-- A packet whose key is not cached: no register changes. -/
theorem switchPass_miss (h : pkt.IsOrbitcache) (hl : t.cacheLookup pkt.orbitcache.hkey = none) :
    switchPass t port r pkt =
      effect t port pkt r (missVerdict (effectiveOp t port pkt) (onLoop t port)) := by
  show collect t pkt (apply t port (start (switchIngressParser pkt) r)) = _
  rw [Ingress.apply, if_pos (by exact orbitcacheValid_iff.2 h), lookupBlock_start t port r h]
  simp only [if_neg (isCached_entered_none t port pkt hl)]
  have hop : (entered t port r pkt invalid).hdr.orbitcache.op = effectiveOp t port pkt := rfl
  have hrouted : collect t pkt (ipv4Exact t (entered t port r pkt invalid)) =
      effect t port pkt r .forward := collect_ipv4Exact t pkt (b := unlisted t port) rfl rfl
  simp only [hop, missVerdict]
  by_cases hread : effectiveOp t port pkt = opRead
  · rw [hread]
    exact applyRead_miss t port pkt hl
  by_cases hreply : effectiveOp t port pkt = opRReply
  · rw [hreply]
    cases hloop : onLoop t port with
    | false => exact applyRReply_routed t port pkt hloop
    | true => exact applyRReply_discard t port pkt hloop
  simp only [hread, hreply, or_self, false_and, if_false]
  by_cases hwrite : effectiveOp t port pkt = opWrite
  · rw [hwrite]
    exact applyWrite_miss t port pkt hl
  simp only [hwrite, if_false]
  split
  · exact hrouted
  · split
    · exact applyWReply_miss t port pkt hl
    · exact hrouted

/-- A packet that is not an OrbitCache packet: it is routed by its address, which is 0 if it has
none. -/
theorem switchPass_plain (h : ¬ pkt.IsOrbitcache) :
    switchPass t port r pkt = effect t port pkt r .plain := by
  show collect t pkt (apply t port (start (switchIngressParser pkt) r)) = _
  rw [Ingress.apply, if_neg (by exact fun hv => h (orbitcacheValid_iff.1 hv))]
  refine (collect_ipv4Exact t pkt (b := false) rfl rfl).trans ?_
  rw [start, switchIngressDeparser_switchIngressParser]
  rfl

/-- A pass does what the verdict on the packet says, as long as the line the packet is looked up at
is a bounded queue. -/
theorem switchPass_eq (hwf : ∀ c, t.cacheLookup pkt.orbitcache.hkey = some c → r.WF c) :
    switchPass t port r pkt = effect t port pkt r (verdict t port r.line pkt) := by
  unfold verdict
  split
  · next h =>
    cases hl : t.cacheLookup pkt.orbitcache.hkey with
    | some c => exact switchPass_hit t port r pkt h hl (hwf c hl)
    | none => exact switchPass_miss t port r pkt h hl
  · next h => exact switchPass_plain t port r pkt h

variable {t port r pkt} {n : Nat}

variable (port pkt) in
/-- Everything a pass can do, as an inversion: some verdict is given, its circumstances hold, and
registers and copies are those of the verdict. -/
theorem switchPass_cases (ht : t.IndexBelow n) (h : r.WFBelow n) :
    ∃ v, VerdictCase t port r.line pkt v ∧
      switchPass t port r pkt = (v.regs r pkt, v.outputs t port pkt) :=
  ⟨_, verdict_case r.line, switchPass_eq t port r pkt fun _ hc => h _ (ht _ _ hc)⟩

/-- A cache packet that finds a pending read goes through the dequeue actions, after which only the
copies are left to make. -/
theorem apply_eq_dequeue {c : BitVec 32} (h : pkt.IsOrbitcache)
    (hl : t.cacheLookup pkt.orbitcache.hkey = some c) (hp : onLoop t port = true)
    (hs : r.cacheState c = valid) (hq : r.pending c ≠ []) :
    Ingress.apply t port (.start (switchIngressParser pkt) r) =
      dequeue t (decrQlenAction (entered t port r pkt valid)) := by
  have hop (v : BitVec 8) : (entered t port r pkt v).hdr.orbitcache.op = opRReply := if_pos hp
  have hport : port = (recircEntry t port).1 := beq_iff_eq.1 hp
  have hidx := cacheIdx_entered t port pkt (r := r) (v := valid) hl
  have hne : r.qlen c ≠ 0 := fun h0 => hq (Registers.pending_eq_nil_iff.2 h0)
  have hpos : (decrQlenAction (entered t port r pkt valid)).igMd.qlen > 0 := by
    rw [decrQlenAction_qlen, hidx]
    exact show r.qlen c > 0 by bv_omega
  rw [Ingress.apply, if_pos (by exact orbitcacheValid_iff.2 h), lookupBlock_start t port r h]
  simp only [if_pos (isCached_entered t port pkt hl), readCacheStateAction_entered t port pkt hl,
    hs, hop]
  rw [if_neg (by decide), if_pos (by decide), if_neg (by decide), if_pos trivial, applyRReply,
    if_pos (by exact hport), if_pos (by rfl), if_pos (by exact hpos)]
  rfl

/-- The headers of a cache packet that leaves the control with the oldest pending read: they are the
fields of its entry. -/
theorem apply_serve {c : BitVec 32} {e : Pending} {q : List Pending} (h : pkt.IsOrbitcache)
    (hl : t.cacheLookup pkt.orbitcache.hkey = some c) (hwf : r.WF c)
    (hp : onLoop t port = true) (hs : r.cacheState c = valid) (hq : r.pending c = e :: q) :
    let x := Ingress.apply t port (.start (switchIngressParser pkt) r)
    x.hdr.ipv4.dstAddr = e.clientIP ∧ x.hdr.udp.dstPort = e.udpPort ∧
      x.hdr.orbitcache.seq = e.seq ∧ x.hdr.orbitcache.latency = e.latency := by
  have hne : r.pending c ≠ [] := fun h0 => by rw [h0] at hq; cases hq
  have he := Registers.pending_eq_cons hwf.front_lt hq
  rw [apply_eq_dequeue h hl hp hs hne, dequeue, msgCloningAction_getCrecircIdTable,
    updateDstMACTable_eq, he, Registers.slot, Registers.slotIdx_front]
  simp [msgCloningAction, getLatencyAction, getSeqAction, getUDPPortAction, getClientIPAction,
    addOffset, incrPtrFrontAction, decrQlenAction, entered, hl]

end
end OrbitCache
