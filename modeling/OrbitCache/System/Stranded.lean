import OrbitCache.Lib.Channel
import OrbitCache.System.Flow

/-!
# Pending reads

A read that the switch absorbed waits for a packet that can answer it. At a VALID index that is a
cache packet on the recirculation loop, which every pass puts back (`State.Loaded`); at an INVALID
index it is the W_REPLY of a WRITE that passed the switch (`State.Awaited`). Both hold in every
state of every run: `no_read_stranded`.
-/

namespace OrbitCache

open Controller (LookupTable numHotkey StaticTable)

/-- `r` is the W_REPLY to the WRITE `m`, as `m` left the switch. -/
structure Packet.Answers (r m : Message) : Prop where
  op : r.orbitcache.op = opWReply
  source : r.source = m.target
  target : r.target = m.source
  seq : r.orbitcache.seq = m.orbitcache.seq
  hkey : r.orbitcache.hkey = m.orbitcache.hkey
  orgKey : r.payload.orgKey = m.payload.orgKey
  stamp : r.payload.tag.stamp = m.payload.tag.stamp

/-- The `j`-th packet that passed the switch was a WRITE of a key with the hash `k`, and its W_REPLY
has not passed yet: the copy that left is on its way to the worker, or the reply to it is on its way
to the switch. -/
def State.Unanswered (D : Deployment) (s : State) (k : Hkey) (j : Nat) : Prop :=
  ∃ e p m, s.trace[j]? = some e ∧ e.port ≠ D.recirc ∧ e.pkt.orbitcache.op = opWrite ∧
    (p, m) ∈ e.outputs ∧ m.orbitcache.op = opWrite ∧ m.orbitcache.hkey = k ∧
    m.payload.tag.stamp = j ∧ (m ∈ s.wire ∨ ∃ r ∈ s.uplink, r.2.Answers m)

/-- A VALID index has a cache packet on the loop. -/
def State.Loaded (s : State) : Prop :=
  ∀ k c, s.lookup.lookup k = some c → (s.regs.line c).isValid = true →
    ∃ m ∈ s.loop, m.orbitcache.hkey = k

/-- An INVALID index with pending reads has an unanswered WRITE. -/
def State.Awaited (D : Deployment) (s : State) : Prop :=
  ∀ k c, s.lookup.lookup k = some c → (s.regs.line c).isValid = false →
    (s.regs.line c).queue ≠ [] → ∃ j, s.Unanswered D k j

/-! ## Lines and verdicts -/

section
variable {π : Type} {t : Tables} {port : BitVec 9} {ls : BitVec 32 → Line} {pkt : Packet π}
variable {v : Verdict} {c : BitVec 32}

/-- An index that is INVALID with pending reads after a pass was so before, or was invalidated by
the packet. -/
theorem VerdictCase.invalid_lines (hv : VerdictCase t port ls pkt v) {e : Pending}
    (h : (v.lines e ls c).isValid = false) (hq : (v.lines e ls c).queue ≠ []) :
    v = .invalidate c ∨ v ≠ .clone c ∧ (ls c).isValid = false ∧ (ls c).queue ≠ [] := by
  cases hv with
  | plain | overflow | bypass | uncached | idle | discard | forward =>
    exact .inr ⟨by simp, h, hq⟩
  | @absorb c' _ _ _ _ hvalid | @serve c' _ _ _ _ _ hvalid =>
    by_cases hc : c = c'
    · subst hc
      simp only [Verdict.lines, Function.update_self, hvalid, Bool.true_eq_false] at h
    · simp only [Verdict.lines, Function.update_of_ne hc] at h hq
      exact .inr ⟨by simp, h, hq⟩
  | @invalidate c' =>
    by_cases hc : c = c'
    · exact .inl (by rw [hc])
    · simp only [Verdict.lines, Function.update_of_ne hc] at h hq
      exact .inr ⟨by simp, h, hq⟩
  | @clone c' =>
    by_cases hc : c = c'
    · subst hc
      simp [Verdict.lines] at h
    · simp only [Verdict.lines, Function.update_of_ne hc] at h hq
      exact .inr ⟨by simp [Ne.symm hc], h, hq⟩

/-- A cache packet of a VALID key is put back on the loop. -/
theorem VerdictCase.recirculated_eq (hv : VerdictCase t port ls pkt v) (horb : pkt.IsOrbitcache)
    (hl : t.cacheLookup pkt.orbitcache.hkey = some c) (hp : onLoop t port = true)
    (hvalid : (ls c).isValid = true) :
    ∃ pkt', v.recirculated t port pkt = [pkt'] ∧ pkt'.orbitcache.hkey = pkt.orbitcache.hkey := by
  cases hv.loopCase hp with
  | plain h => exact absurd horb h
  | serve | idle => exact ⟨_, rfl, rfl⟩
  | discard h =>
    rw [h c hl] at hvalid
    cases hvalid

end

/-! ## One packet through the switch -/

section
variable {D : Deployment} {s : State} {port : BitVec 9} {m : Message}

/-- A pass keeps every VALID index loaded, when the packet itself may be what loads its index. -/
theorem State.Loaded.pass (hD : D.Wired) (hflow : Flow D s) (hport : D.Listed port)
    (hm : MessageOk D m)
    (h : ∀ k c, s.lookup.lookup k = some c → (s.regs.line c).isValid = true →
      (∃ x ∈ s.loop, x.orbitcache.hkey = k) ∨ port = D.recirc ∧ m.orbitcache.hkey = k) :
    (s.pass D port m).Loaded := by
  obtain ⟨v, hv⟩ := hflow.passes hD hport hm
  intro k c hk hvalid
  rw [hv.line c (hflow.table.below k c hk)] at hvalid
  rcases Verdict.isValid_lines hvalid with hvalid | rfl
  · rcases h k c hk hvalid with ⟨x, hx, hxk⟩ | ⟨hp, hmk⟩
    · exact ⟨x, List.mem_append_left _ hx, hxk⟩
    · obtain ⟨x, hx, hxk⟩ := hv.case.recirculated_eq hm.isOrbitcache (hmk ▸ hk)
        (hp ▸ onLoop_recirc hD) hvalid
      exact ⟨_, hv.mem_loop (hx ▸ List.mem_singleton_self x), hxk.trans hmk⟩
  · cases hv.case with
    | clone _ hl =>
      exact ⟨_, hv.mem_loop (List.mem_singleton_self _), hflow.table.inj _ _ c hl hk⟩

/-- What was unanswered stays so when nothing is taken off the channels. -/
theorem State.Unanswered.mono {s s' : State} {k : Hkey} {j : Nat} (h : s.Unanswered D k j)
    {l : List Event} (htrace : s'.trace = s.trace ++ l) (hwire : s.wire ⊆ s'.wire)
    (huplink : s.uplink ⊆ s'.uplink) : s'.Unanswered D k j := by
  obtain ⟨e, p, x, he, hp, hop, ho, hxop, hxk, hstamp, hx⟩ := h
  refine ⟨e, p, x, ?_, hp, hop, ho, hxop, hxk, hstamp, ?_⟩
  · rw [htrace, List.getElem?_append_left (List.getElem?_eq_some_iff.1 he).1]
    exact he
  · rcases hx with hx | ⟨r, hr, hrx⟩
    · exact .inl (hwire hx)
    · exact .inr ⟨r, huplink hr, hrx⟩

/-- A pass keeps every INVALID index with pending reads awaited, when the packet itself may be the
reply that was awaited. -/
theorem State.Awaited.pass (hD : D.Wired) (hflow : Flow D s) (hport : D.Listed port)
    (hm : MessageOk D m)
    (h : ∀ k c, s.lookup.lookup k = some c → (s.regs.line c).isValid = false →
      (s.regs.line c).queue ≠ [] → (∃ j, s.Unanswered D k j) ∨
        port ≠ D.recirc ∧ m.orbitcache.op = opWReply ∧ m.orbitcache.hkey = k) :
    (s.pass D port m).Awaited D := by
  obtain ⟨v, hv⟩ := hflow.passes hD hport hm
  intro k c hk hinvalid hqueue
  rw [hv.line c (hflow.table.below k c hk)] at hinvalid hqueue
  rcases hv.case.invalid_lines hinvalid hqueue with rfl | ⟨hclone, hinvalid, hqueue⟩
  · cases hv.case with
    | invalidate _ hl hp hop =>
      have hp : port ≠ D.recirc := ne_recirc_of_onLoop hport hp
      obtain ⟨p, hout, hwire⟩ := hv.mem_outputs (List.mem_singleton_self _)
      have hlast : (s.pass D port m).trace[s.trace.length]? = some
          ⟨port, m, (s.tables D).cacheLookup m.orbitcache.hkey, s.outputs D port m⟩ := by
        simp [State.pass]
      have hcopy : (m.touched (s.tables D) port).orbitcache.op = opWrite :=
        (effectiveOp_host hport hp).trans hop
      exact ⟨_, _, p, _, hlast, hp, hop, hout, hcopy, hflow.table.inj _ _ c hl hk, rfl, .inl hwire⟩
  · rcases h k c hk hinvalid hqueue with ⟨j, hj⟩ | ⟨hp, hop, hmk⟩
    · exact ⟨j, hj.mono rfl (List.subset_append_left _ _) (List.Subset.refl _)⟩
    · have hhost := onLoop_host (s := s) hport hp
      exact absurd (hv.case.eq_clone hm.isOrbitcache (hmk ▸ hk) hhost hop) hclone

end

/-! ## Runs -/

/-- The W_REPLY of a worker answers its WRITE. -/
theorem Worker.HandleCase.answers {hash : Bytes → Hkey} {w w' : Worker} {junk : Bytes}
    {m : Message} {rh : OrbitcacheH} {rb : Payload}
    (hcase : w.HandleCase hash junk m.orbitcache m.payload w' (some (rh, rb)))
    (hop : m.orbitcache.op = opWrite) : (datagram m.target m.source rh rb).Answers m := by
  cases hcase with
  | read h =>
    rw [hop] at h
    exact absurd h (by decide)
  | fetch h =>
    rw [hop] at h
    exact absurd h (by decide)
  | write | writeNoFetch => exact ⟨rfl, rfl, rfl, rfl, rfl, rfl, rfl⟩

/-- No pending read is without a packet that can answer it. -/
structure Covered (D : Deployment) (s : State) : Prop where
  flow : Flow D s
  loaded : s.Loaded
  awaited : s.Awaited D

section
variable {D : Deployment} {s s' : State}

/-- What a step does besides a pass: the unanswered WRITEs stay unanswered. -/
theorem Covered.congr (h : Covered D s) (hflow : Flow D s') (hregs : s'.regs = s.regs)
    (hlookup : s'.lookup = s.lookup) (hloop : s'.loop = s.loop)
    (hawait : ∀ k j, s.Unanswered D k j → s'.Unanswered D k j) : Covered D s' where
  flow := hflow
  loaded := by
    unfold State.Loaded
    rw [hregs, hlookup, hloop]
    exact h.loaded
  awaited k c hk hinvalid hqueue := by
    rw [hregs] at hinvalid hqueue
    obtain ⟨j, hj⟩ := h.awaited k c (hlookup ▸ hk) hinvalid hqueue
    exact ⟨j, hawait k j hj⟩

/-- A message that a client or the preload tool takes off or puts on a channel leaves every WRITE
unanswered. -/
theorem State.Unanswered.take {k : Hkey} {j i : Nat} {m : Message} (h : s.Unanswered D k j)
    (hm : s.wire[i]? = some m) (hop : m.orbitcache.op ≠ opWrite) (htrace : s'.trace = s.trace)
    (hwire : s'.wire = s.wire.eraseIdx i) (huplink : s.uplink ⊆ s'.uplink) :
    s'.Unanswered D k j := by
  obtain ⟨e, p, x, he, hp, hpop, ho, hxop, hxk, hstamp, hx⟩ := h
  refine ⟨e, p, x, htrace ▸ he, hp, hpop, ho, hxop, hxk, hstamp, ?_⟩
  rcases hx with hx | ⟨r, hr, hrx⟩
  · left
    rw [hwire]
    refine Channel.mem_of_ne hm hx ?_
    rintro rfl
    exact hop hxop
  · exact .inr ⟨r, huplink hr, hrx⟩

/-- A client is not the target of a WRITE. -/
theorem MessageOk.op_ne_write (hD : D.Wired) {m : Message} (hm : MessageOk D m)
    (hclient : D.isClient m.target = true) : m.orbitcache.op ≠ opWrite := by
  intro hop
  obtain ⟨htarget, -⟩ := hm.request (.inr (.inl hop))
  have hserver := hD.disjoint _ (hD.dest_server m.payload.orgKey)
  rw [← htarget, hclient] at hserver
  cases hserver

/-- Every step keeps the invariant. -/
theorem Covered.step (hD : D.Wired) {a : Action} (h : Covered D s)
    (hstep : OrbitCache.step D s a = some s') : Covered D s' := by
  have hflow := h.flow.step hD hstep
  cases step_case hstep with
  | send | preload =>
    exact h.congr hflow rfl rfl rfl fun k j hj =>
      hj.mono (List.append_nil _).symm (List.Subset.refl _) (List.subset_append_left _ _)
  | @pass i port m hm =>
    obtain ⟨hport, hp, hok⟩ := h.flow.uplink _ (List.mem_of_getElem? hm)
    have hflow' : Flow D { s with uplink := s.uplink.eraseIdx i } :=
      h.flow.congr rfl rfl (List.Subset.refl _) (List.Subset.refl _)
        fun e he => .inl (List.mem_of_mem_eraseIdx he)
    refine ⟨hflow, .pass hD hflow' hport hok fun k c hk hvalid => .inl (h.loaded k c hk hvalid),
      .pass hD hflow' hport hok fun k c hk hinvalid hqueue => ?_⟩
    obtain ⟨j, e, p, x, he, hpe, hop, ho, hxop, hxk, hstamp, hx⟩ := h.awaited k c hk hinvalid hqueue
    rcases hx with hx | ⟨r, hr, hrx⟩
    · exact .inl ⟨j, e, p, x, he, hpe, hop, ho, hxop, hxk, hstamp, .inl hx⟩
    · rcases Channel.mem_or hm hr with rfl | hr
      · exact .inr ⟨hp, hrx.op, hrx.hkey.trans hxk⟩
      · exact .inl ⟨j, e, p, x, he, hpe, hop, ho, hxop, hxk, hstamp, .inr ⟨r, hr, hrx⟩⟩
  | @recirculate i m hm =>
    have hok := h.flow.loop _ (List.mem_of_getElem? hm)
    have hflow' : Flow D { s with loop := s.loop.eraseIdx i } :=
      h.flow.congr rfl rfl List.eraseIdx_subset (List.Subset.refl _) fun e he => .inl he
    refine ⟨hflow, .pass hD hflow' hD.recirc_listed hok fun k c hk hvalid => ?_,
      .pass hD hflow' hD.recirc_listed hok fun k c hk hinvalid hqueue =>
        .inl (h.awaited k c hk hinvalid hqueue)⟩
    obtain ⟨x, hx, hxk⟩ := h.loaded k c hk hvalid
    rcases Channel.mem_or hm hx with rfl | hx
    · exact .inr ⟨rfl, hxk⟩
    · exact .inl ⟨x, hx, hxk⟩
  | @reply i m junk w rh rb port hm hserver hcase hport =>
    refine h.congr hflow rfl rfl rfl fun k j hj => ?_
    obtain ⟨e, p, x, he, hpe, hop, ho, hxop, hxk, hstamp, hx⟩ := hj
    refine ⟨e, p, x, he, hpe, hop, ho, hxop, hxk, hstamp, ?_⟩
    rcases hx with hx | ⟨r, hr, hrx⟩
    · rcases Channel.mem_or hm hx with rfl | hx
      · exact .inr ⟨_, List.mem_append_right _ (List.mem_singleton_self _), hcase.answers hxop⟩
      · exact .inl hx
    · exact .inr ⟨r, List.mem_append_left _ hr, hrx⟩
  | ignore hm _ hcase =>
    refine h.congr hflow rfl rfl rfl fun k j hj =>
      hj.take hm ?_ rfl rfl (List.Subset.refl _)
    cases hcase with
    | ignore _ _ _ hop => exact hop
  | receive hm hclient =>
    have hop := (h.flow.wire _ (List.mem_of_getElem? hm)).op_ne_write hD hclient
    exact h.congr hflow rfl rfl rfl fun k j hj => hj.take hm hop rfl rfl (List.Subset.refl _)
  | correct hm hclient =>
    have hop := (h.flow.wire _ (List.mem_of_getElem? hm)).op_ne_write hD hclient
    exact h.congr hflow rfl rfl rfl fun k j hj =>
      hj.take hm hop rfl rfl (List.subset_append_left _ _)

/-- It holds at the start. -/
theorem Covered.start (D : Deployment) (regs : Registers) {lookup : LookupTable}
    (htable : StaticTable lookup) (workers : Endpoint → Worker) :
    Covered D (.start regs lookup workers) := by
  refine ⟨.start D regs htable workers, fun k c hk hvalid => ?_, fun k c hk _ hqueue => ?_⟩
  · rw [State.start_line regs htable workers hk] at hvalid
    cases hvalid
  · rw [State.start_line regs htable workers hk] at hqueue
    exact absurd rfl hqueue

/-- It holds in every state of every run. -/
theorem Covered.run (hD : D.Wired) {guard : State → Action → Prop} {regs : Registers}
    {lookup : LookupTable} (htable : StaticTable lookup) {workers : Endpoint → Worker}
    (h : Run (OrbitCache.step D) guard (.start regs lookup workers) s) : Covered D s :=
  h.invariant _ (.start D regs htable workers) fun _ _ _ hinv _ hstep => hinv.step hD hstep

/-- The lookup table is static. -/
theorem run_lookup {guard : State → Action → Prop} {t : State}
    (h : Run (OrbitCache.step D) guard s t) : t.lookup = s.lookup := by
  refine h.invariant (fun t => t.lookup = s.lookup) rfl fun t a u ht _ hstep => ?_
  cases step_case hstep <;> exact ht

/-- What is promised of an index: while it is VALID, a cache packet of its key is on the loop and
each pass of such a packet takes it in as an R_REPLY and puts it back; while it is INVALID with
pending reads, a WRITE of its key has passed the switch and its W_REPLY has not. -/
structure State.CanAnswer (D : Deployment) (s : State) (c : BitVec 32) : Prop where
  loaded : s.regs.cacheState c = valid →
    ∃ m ∈ s.loop, s.lookup.lookup m.orbitcache.hkey = some c
  lap : s.regs.cacheState c = valid →
    ∀ m ∈ s.loop, s.lookup.lookup m.orbitcache.hkey = some c →
      m.IsOrbitcache ∧ effectiveOp (s.tables D) D.recirc m = opRReply ∧
        ∃ m', (s.outputs D D.recirc m).filter (fun o => o.1 = D.recirc) = [(D.recirc, m')] ∧
          m'.orbitcache.hkey = m.orbitcache.hkey
  awaited : s.regs.qlen c > 0 → s.regs.cacheState c = invalid →
    ∃ k j, s.lookup.lookup k = some c ∧ s.Unanswered D k j

/-- Over every run, no pending read of an installed index is stranded: there is a cache packet on
the loop if the index is VALID, and a W_REPLY to come if it is not. Nothing is asked of the run,
since the two are kept by every pass of a packet. -/
theorem no_read_stranded (hD : D.Wired) {regs : Registers} {lookup : LookupTable}
    (htable : StaticTable lookup) {workers : Endpoint → Worker}
    (h : Run (OrbitCache.step D) (fun _ _ => True) (.start regs lookup workers) s)
    {c : BitVec 32} (hc : ∃ k, lookup.lookup k = some c) :
    s.lookup = lookup ∧ s.CanAnswer D c := by
  have hlookup : s.lookup = lookup := run_lookup h
  have hcovered := Covered.run hD htable h
  have hvalid : s.regs.cacheState c = valid → (s.regs.line c).isValid = true := beq_iff_eq.2
  obtain ⟨k, hk⟩ := hc
  refine ⟨hlookup, fun hv => ?_, fun hv m hm hl => ?_, fun hq hi => ?_⟩
  · obtain ⟨m, hm, hmk⟩ := hcovered.loaded k c (hlookup ▸ hk) (hvalid hv)
    exact ⟨m, hm, by rw [hmk, hlookup, hk]⟩
  · have hok := hcovered.flow.loop m hm
    have hloop : onLoop (s.tables D) D.recirc = true := onLoop_recirc hD
    obtain ⟨v, hpass⟩ := hcovered.flow.passes hD hD.recirc_listed hok
    obtain ⟨x, hx, hxk⟩ := hpass.case.recirculated_eq hok.isOrbitcache hl hloop (hvalid hv)
    have hout := hpass.recirculated
    rw [hx, List.map_singleton, List.map_eq_singleton_iff] at hout
    obtain ⟨⟨p, y⟩, hfilter, hy⟩ := hout
    have hp : p = D.recirc := by
      have hmem : (p, y) ∈ (s.outputs D D.recirc m).filter fun o => o.1 = D.recirc := by
        rw [hfilter]
        exact List.mem_singleton_self _
      simpa using List.of_mem_filter hmem
    subst hp hy
    exact ⟨hok.isOrbitcache, if_pos hloop, _, hfilter, hxk⟩
  · have hinvalid : (s.regs.line c).isValid = false := by
      show (s.regs.cacheState c == valid) = false
      rw [hi]
      rfl
    have hqueue : (s.regs.line c).queue ≠ [] := by
      rw [Registers.queue_line, Ne, Registers.pending_eq_nil_iff]
      bv_omega
    obtain ⟨j, hj⟩ := hcovered.awaited k c (hlookup ▸ hk) hinvalid hqueue
    exact ⟨k, j, hlookup ▸ hk, hj⟩

end

/-- A READ of a preloaded key is pending at its VALID index; then a WRITE makes the index
INVALID. -/
theorem exec_readWrite :
    ((Run.exec (step (cluster 8)) (fun _ _ => true) clusterStart
      [preloadHotKey, .pass 0, .send clientA false hotKey [] 0, .pass 0]).any fun s =>
        decide (s.regs.cacheState 127 = valid ∧ s.regs.qlen 127 = 1)) = true ∧
    ((Run.exec (step (cluster 8)) (fun _ _ => true) clusterStart
      [preloadHotKey, .pass 0, .send clientA false hotKey [] 0, .pass 0,
        .send clientA true hotKey [byteA] 0, .pass 0]).any fun s =>
        decide (s.regs.cacheState 127 = invalid ∧ s.regs.qlen 127 = 1)) = true := by
  decide +kernel

/-- No pending read is stranded in either state. -/
theorem no_read_stranded_cluster :
    (∃ s : State, (s.regs.cacheState 127 = valid ∧ s.regs.qlen 127 = 1) ∧
        s.lookup = Controller.staticTable ∧ s.CanAnswer (cluster 8) 127) ∧
      ∃ s : State, (s.regs.cacheState 127 = invalid ∧ s.regs.qlen 127 = 1) ∧
        s.lookup = Controller.staticTable ∧ s.CanAnswer (cluster 8) 127 := by
  have hD : (cluster 8).Wired := cluster_wired (by decide) (by decide)
  have hc : ∃ k, Controller.staticTable.lookup k = some 127 :=
    ⟨_, Controller.lookup_staticTable.2 ⟨127, by decide, rfl, rfl⟩⟩
  have hguard : ∀ (s : State) (a : Action), true = true → True := fun _ _ _ => trivial
  obtain ⟨s, hrun, hs⟩ := Run.exists_of_exec hguard _ _ exec_readWrite.1
  obtain ⟨s', hrun', hs'⟩ := Run.exists_of_exec hguard _ _ exec_readWrite.2
  rw [← clusterStart_eq] at hrun hrun'
  exact ⟨⟨s, of_decide_eq_true hs,
      no_read_stranded hD Controller.staticTable_staticTable hrun hc⟩,
    s', of_decide_eq_true hs', no_read_stranded hD Controller.staticTable_staticTable hrun' hc⟩

end OrbitCache
