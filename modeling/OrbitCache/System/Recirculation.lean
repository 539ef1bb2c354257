import OrbitCache.Lib.Channel
import OrbitCache.System.Flow

/-!
# Cache packets on the loop

How many cache packets recirculate. `cacheState` is one bit, so a W_REPLY makes its key VALID
whatever other WRITEs of the key are outstanding, and from then on older cache packets are no longer
dropped. As long as no W_REPLY passes while another WRITE of its key is outstanding (`Separate`),
an outstanding WRITE keeps its key INVALID, and every older packet of the key is dropped before the
reply brings a new one (`Single`).
-/

namespace OrbitCache

open Controller (LookupTable numHotkey StaticTable)

/-- The message is a WRITE that has passed the switch, or a W_REPLY that has not: the server may
still be at work on it. -/
def State.Outstanding (s : State) (m : Message) : Prop :=
  m ∈ s.wire ∧ m.orbitcache.op = opWrite ∨
    ∃ port, (port, m) ∈ s.uplink ∧ m.orbitcache.op = opWReply

/-- What the runs have in common: a key is preloaded at most once and before any other message of
its hash, and every cache packet passes the switch between a WRITE of its key and the W_REPLY. -/
def Paced (D : Deployment) (s : State) : Action → Prop
  | .preload _ _ key _ => (∀ e ∈ s.uplink, e.2.orbitcache.hkey ≠ D.hash key) ∧
      ∀ e ∈ s.trace, e.pkt.orbitcache.hkey ≠ D.hash key
  | .pass i => ∀ e ∈ s.uplink[i]?, e.2.orbitcache.op = opWReply →
      ∀ p ∈ s.loop, p.orbitcache.hkey = e.2.orbitcache.hkey →
        e.2.payload.tag.stamp < p.payload.tag.stamp
  | .send .. | .recirculate _ | .serve .. | .receive .. => True

/-- No W_REPLY of a cached key passes the switch while another WRITE of the key is outstanding. -/
def Separate (s : State) : Action → Prop
  | .pass i => ∀ e ∈ s.uplink[i]?, e.2.orbitcache.op = opWReply →
      (s.lookup.lookup e.2.orbitcache.hkey).isSome = true →
        (∀ m ∈ s.wire, m.orbitcache.op = opWrite → m.orbitcache.hkey ≠ e.2.orbitcache.hkey) ∧
        ∀ r ∈ s.uplink.eraseIdx i, r.2.orbitcache.op = opWReply →
          r.2.orbitcache.hkey ≠ e.2.orbitcache.hkey
  | .send .. | .recirculate _ | .serve .. | .receive .. | .preload .. => True

instance (D : Deployment) (s : State) : ∀ a, Decidable (Paced D s a)
  | .preload _ _ _ _ => inferInstanceAs (Decidable (_ ∧ _))
  | .pass i => inferInstanceAs (Decidable (∀ e ∈ s.uplink[i]?, _))
  | .send .. | .recirculate _ | .serve .. | .receive .. => inferInstanceAs (Decidable True)

instance (s : State) : ∀ a, Decidable (Separate s a)
  | .pass i => inferInstanceAs (Decidable (∀ e ∈ s.uplink[i]?, _))
  | .send .. | .recirculate _ | .serve .. | .receive .. | .preload .. =>
    inferInstanceAs (Decidable True)

/-- At most one cache packet of each key is on the loop, and an outstanding WRITE keeps its key
INVALID and is newer than any packet of the key. -/
structure Single (D : Deployment) (s : State) : Prop where
  flow : Flow D s
  stamp : ∀ p ∈ s.loop, p.payload.tag.stamp < s.trace.length
  cached : ∀ p ∈ s.loop, (s.lookup.lookup p.orbitcache.hkey).isSome = true
  seen : ∀ p ∈ s.loop, ∃ e ∈ s.trace, e.pkt.orbitcache.hkey = p.orbitcache.hkey
  seenValid : ∀ k c, s.lookup.lookup k = some c → (s.regs.line c).isValid = true →
    ∃ e ∈ s.trace, e.pkt.orbitcache.hkey = k
  nodup : (s.loop.map fun p => p.orbitcache.hkey).Nodup
  invalid : ∀ m, s.Outstanding m → ∀ c, s.lookup.lookup m.orbitcache.hkey = some c →
    (s.regs.line c).isValid = false
  older : ∀ m, s.Outstanding m → ∀ p ∈ s.loop, p.orbitcache.hkey = m.orbitcache.hkey →
    p.payload.tag.stamp < m.payload.tag.stamp

section
variable {D : Deployment} {s s' : State}

/-- What a step does besides a pass: every outstanding message comes from one that was outstanding,
with its key hash and its stamp. -/
theorem Single.congr (h : Single D s) (hflow : Flow D s') (hregs : s'.regs = s.regs)
    (hlookup : s'.lookup = s.lookup) (hloop : s'.loop = s.loop) (htrace : s'.trace = s.trace)
    (hout : ∀ m, s'.Outstanding m → ∃ m₀, s.Outstanding m₀ ∧
      m₀.orbitcache.hkey = m.orbitcache.hkey ∧ m₀.payload.tag.stamp = m.payload.tag.stamp) :
    Single D s' where
  flow := hflow
  stamp := by rw [hloop, htrace]; exact h.stamp
  cached := by rw [hloop, hlookup]; exact h.cached
  seen := by rw [hloop, htrace]; exact h.seen
  seenValid := by rw [hlookup, hregs, htrace]; exact h.seenValid
  nodup := by rw [hloop]; exact h.nodup
  invalid m hm c hc := by
    obtain ⟨m₀, hm₀, hk, -⟩ := hout m hm
    rw [hregs]
    exact h.invalid m₀ hm₀ c (by rw [hk, ← hlookup, hc])
  older m hm p hp hpk := by
    obtain ⟨m₀, hm₀, hk, hstamp⟩ := hout m hm
    rw [← hstamp]
    exact h.older m₀ hm₀ p (hloop ▸ hp) (hpk.trans hk.symm)

/-- When a W_REPLY of a cached key passes, its key has no cache packet on the loop. -/
theorem Single.not_mem_loop (h : Single D s) {i : Nat} {port : BitVec 9} {m : Message}
    (hm : s.uplink[i]? = some (port, m)) (hop : m.orbitcache.op = opWReply)
    (hpaced : Paced D s (.pass i)) {p : Message} (hp : p ∈ s.loop) :
    p.orbitcache.hkey ≠ m.orbitcache.hkey := by
  intro hpk
  have hlap := hpaced (port, m) hm hop p hp hpk
  have hold := h.older m (.inr ⟨port, List.mem_of_getElem? hm, hop⟩) p hp hpk
  exact absurd hlap (Nat.lt_asymm hold)

/-- When a W_REPLY of a cached key passes, no other message of its key is outstanding. -/
theorem Separate.ne_hkey {i : Nat} {port : BitVec 9} {m x : Message} (h : Separate s (.pass i))
    (hm : s.uplink[i]? = some (port, m)) (hop : m.orbitcache.op = opWReply)
    (hc : (s.lookup.lookup m.orbitcache.hkey).isSome = true)
    (hx : State.Outstanding { s with uplink := s.uplink.eraseIdx i } x) :
    x.orbitcache.hkey ≠ m.orbitcache.hkey := by
  obtain ⟨hwire, huplink⟩ := h (port, m) hm hop hc
  rcases hx with ⟨hx, hxop⟩ | ⟨p, hx, hxop⟩
  · exact hwire x hx hxop
  · exact huplink (p, x) hx hxop

/-- What is outstanding after a pass was so before, or is a copy of a WRITE. -/
theorem State.Outstanding.of_pass {port : BitVec 9} {m x : Message} {v : Verdict}
    (hv : s.Passes D port m v) (horb : m.IsOrbitcache)
    (hx : (s.pass D port m).Outstanding x) :
    s.Outstanding x ∨ effectiveOp (s.tables D) port m = opWrite ∧
      x.orbitcache.hkey = m.orbitcache.hkey ∧ x.payload.tag.stamp = s.trace.length := by
  rcases hx with ⟨hx, hop⟩ | hx
  · rw [State.pass, hv.delivered, List.mem_append, List.mem_map] at hx
    rcases hx with hx | ⟨y, hy, rfl⟩
    · exact .inl (.inl ⟨hx, hop⟩)
    · obtain ⟨hyop, hyk, -⟩ := hv.case.mem_delivered horb hy
      exact .inr ⟨hyop.symm.trans hop, hyk, rfl⟩
  · exact .inl (.inr hx)

/-- Seen packets stay seen, as the trace only grows. -/
theorem State.seen_pass {port : BitVec 9} {m : Message} {k : Hkey}
    (h : ∃ e ∈ s.trace, e.pkt.orbitcache.hkey = k) :
    ∃ e ∈ (s.pass D port m).trace, e.pkt.orbitcache.hkey = k :=
  h.imp fun _ he => ⟨List.mem_append_left _ he.1, he.2⟩

/-- The packet that passes is seen from then on. -/
theorem State.seen_self {port : BitVec 9} {m : Message} :
    ∃ e ∈ (s.pass D port m).trace, e.pkt.orbitcache.hkey = m.orbitcache.hkey :=
  ⟨_, List.mem_append_right _ (List.mem_singleton_self _), rfl⟩

/-- A pass that leaves nothing new on the loop keeps the invariant, if a WRITE invalidates its key.
-/
theorem Single.pass_of_subset (hD : D.Wired) (h : Single D s) {port : BitVec 9} {m : Message}
    (hport : D.Listed port) (hok : MessageOk D m) {v : Verdict} (hv : s.Passes D port m v)
    (hclone : ∀ c, v ≠ .clone c) (hrec : v.recirculated (s.tables D) port m = [])
    (hwrite : effectiveOp (s.tables D) port m = opWrite →
      ∀ c, s.lookup.lookup m.orbitcache.hkey = some c → v = .invalidate c) :
    Single D (s.pass D port m) := by
  have hloop : (s.pass D port m).loop = s.loop := by
    rw [State.pass, hv.recirculated, hrec]
    exact List.append_nil _
  have hvalid : ∀ k c, s.lookup.lookup k = some c →
      ((s.pass D port m).regs.line c).isValid = true → (s.regs.line c).isValid = true := by
    intro k c hk hc
    rw [hv.line c (h.flow.table.below k c hk)] at hc
    exact (Verdict.isValid_lines hc).resolve_right (hclone c)
  refine ⟨h.flow.pass hD hport hok, fun p hp => ?_, fun p hp => ?_, fun p hp => ?_,
    fun k c hk hc => ?_, ?_, fun x hx c hk => ?_, fun x hx p hp hpk => ?_⟩
  · rw [hloop] at hp
    rw [State.pass, List.length_append]
    exact Nat.lt_add_right _ (h.stamp p hp)
  · exact h.cached p (hloop ▸ hp)
  · exact State.seen_pass (h.seen p (hloop ▸ hp))
  · exact State.seen_pass (h.seenValid k c hk (hvalid k c hk hc))
  · rw [hloop]
    exact h.nodup
  · rcases hx.of_pass hv hok.isOrbitcache with hx | ⟨hop, hxk, -⟩
    · exact Bool.eq_false_iff.2 fun hc =>
        Bool.eq_false_iff.1 (h.invalid x hx c hk) (hvalid _ c hk hc)
    · have hk : s.lookup.lookup x.orbitcache.hkey = some c := hk
      rw [hxk] at hk
      rw [hv.line c (h.flow.table.below _ c hk), hwrite hop c hk]
      simp [Verdict.lines]
  · rw [hloop] at hp
    rcases hx.of_pass hv hok.isOrbitcache with hx | ⟨-, -, hstamp⟩
    · exact h.older x hx p hp hpk
    · rw [hstamp]
      exact h.stamp p hp

/-- A pass that puts a copy of the packet on the loop, when the loop has no other packet of its key
and nothing of its key is outstanding. -/
theorem Single.pass_of_recirculated (hD : D.Wired) (h : Single D s) {port : BitVec 9}
    {m : Message} (hport : D.Listed port) (hok : MessageOk D m) {v : Verdict}
    (hv : s.Passes D port m v) {c : BitVec 32}
    (hc : s.lookup.lookup m.orbitcache.hkey = some c)
    (hclone : ∀ c', v = .clone c' → c' = c) {x : Message}
    (hrec : v.recirculated (s.tables D) port m = [x])
    (hwrite : effectiveOp (s.tables D) port m ≠ opWrite)
    (hfree : ∀ p ∈ s.loop, p.orbitcache.hkey ≠ m.orbitcache.hkey)
    (hne : ∀ y, s.Outstanding y → y.orbitcache.hkey ≠ m.orbitcache.hkey) :
    Single D (s.pass D port m) := by
  have hloop : (s.pass D port m).loop = s.loop ++ [x.stamped s.trace.length] := by
    rw [State.pass, hv.recirculated, hrec]
    rfl
  have hxk : x.orbitcache.hkey = m.orbitcache.hkey :=
    (Verdict.mem_recirculated (hrec ▸ List.mem_singleton_self x)).2.1
  have hout : ∀ y, (s.pass D port m).Outstanding y → s.Outstanding y := fun y hy =>
    (hy.of_pass hv hok.isOrbitcache).resolve_right fun hop => hwrite hop.1
  have hvalid : ∀ k c', s.lookup.lookup k = some c' →
      ((s.pass D port m).regs.line c').isValid = true →
        (s.regs.line c').isValid = true ∨ k = m.orbitcache.hkey := by
    intro k c' hk hc'
    rw [hv.line c' (h.flow.table.below k c' hk)] at hc'
    refine (Verdict.isValid_lines hc').imp id fun hv' => ?_
    rw [hclone c' hv'] at hk
    exact h.flow.table.inj k _ c hk hc
  have hmem : ∀ p ∈ (s.pass D port m).loop, p ∈ s.loop ∨ p = x.stamped s.trace.length := by
    intro p hp
    rw [hloop, List.mem_append, List.mem_singleton] at hp
    exact hp
  refine ⟨h.flow.pass hD hport hok, fun p hp => ?_, fun p hp => ?_, fun p hp => ?_,
    fun k c' hk hc' => ?_, ?_, fun y hy c' hk => ?_, fun y hy p hp hpk => ?_⟩
  · rw [State.pass, List.length_append]
    rcases hmem p hp with hp | rfl
    · exact Nat.lt_add_right _ (h.stamp p hp)
    · exact Nat.lt_succ_self _
  · rcases hmem p hp with hp | rfl
    · exact h.cached p hp
    · show (s.lookup.lookup x.orbitcache.hkey).isSome = true
      rw [hxk, hc]
      rfl
  · rcases hmem p hp with hp | rfl
    · exact State.seen_pass (h.seen p hp)
    · exact hxk ▸ State.seen_self
  · rcases hvalid k c' hk hc' with hc' | rfl
    · exact State.seen_pass (h.seenValid k c' hk hc')
    · exact State.seen_self
  · rw [hloop, List.map_append, List.map_singleton]
    refine List.nodup_append.2 ⟨h.nodup, List.nodup_singleton _, fun k hk k' hk' => ?_⟩
    obtain ⟨p, hp, rfl⟩ := List.mem_map.1 hk
    rw [List.mem_singleton.1 hk']
    exact fun heq => hfree p hp (heq.trans hxk)
  · have hy := hout y hy
    refine Bool.eq_false_iff.2 fun hc' => ?_
    rcases hvalid _ c' hk hc' with hc' | heq
    · exact Bool.eq_false_iff.1 (h.invalid y hy c' hk) hc'
    · exact hne y hy heq
  · have hy := hout y hy
    rcases hmem p hp with hp | rfl
    · exact h.older y hy p hp hpk
    · exact absurd (hpk.symm.trans hxk) (hne y hy)

/-- A message from a host passes the switch: a W_REPLY must find nothing of its key on the loop or
outstanding. -/
theorem Single.pass (hD : D.Wired) (h : Single D s) {port : BitVec 9} {m : Message}
    (hport : D.Listed port) (hp : port ≠ D.recirc) (hok : MessageOk D m)
    (hreply : m.orbitcache.op = opWReply → ∀ c, s.lookup.lookup m.orbitcache.hkey = some c →
      (∀ p ∈ s.loop, p.orbitcache.hkey ≠ m.orbitcache.hkey) ∧
        ∀ y, s.Outstanding y → y.orbitcache.hkey ≠ m.orbitcache.hkey) :
    Single D (s.pass D port m) := by
  have hhost : onLoop (s.tables D) port = false := onLoop_host hport hp
  have heff : effectiveOp (s.tables D) port m = m.orbitcache.op := effectiveOp_host hport hp
  obtain ⟨v, hv⟩ := h.flow.passes hD hport hok
  rcases hv.case.host hhost with ⟨c, rfl, hl, hop⟩ | ⟨hclone, hrec⟩
  · have hop : m.orbitcache.op = opWReply := by
      rcases hop with hop | hop
      · exact hop
      · have := hok.op
        rw [hop] at this
        exact absurd this (by decide)
    obtain ⟨hfree, hne⟩ := hreply hop c hl
    refine h.pass_of_recirculated hD hport hok hv hl (fun c' hc' => (Verdict.clone.inj hc').symm)
      rfl ?_ hfree hne
    rw [heff, hop]
    decide
  · refine h.pass_of_subset hD hport hok hv hclone hrec fun hop c hl => ?_
    exact hv.case.eq_invalidate hok.isOrbitcache hl hhost (heff ▸ hop)

/-- A cache packet passes the switch: it goes back on the loop, answers a READ, or is dropped. -/
theorem Single.lap (hD : D.Wired) (h : Single D s) {m : Message} (hok : MessageOk D m)
    (hfree : ∀ p ∈ s.loop, p.orbitcache.hkey ≠ m.orbitcache.hkey) :
    Single D (s.pass D D.recirc m) := by
  have hloop : onLoop (s.tables D) D.recirc = true := onLoop_recirc hD
  have hwrite : effectiveOp (s.tables D) D.recirc m ≠ opWrite := by
    rw [effectiveOp_loop hD]
    decide
  obtain ⟨v, hv⟩ := h.flow.passes hD hD.recirc_listed hok
  obtain ⟨hclone, ⟨c, x, hl, hvalid, hrec⟩ | ⟨hrec, -⟩⟩ := hv.case.loop hok.isOrbitcache hloop
  · refine h.pass_of_recirculated hD hD.recirc_listed hok hv hl
      (fun c' hc' => absurd hc' (hclone c')) hrec hwrite hfree fun y hy hyk => ?_
    rw [h.invalid y hy c (by rw [hyk]; exact hl)] at hvalid
    cases hvalid
  · exact h.pass_of_subset hD hD.recirc_listed hok hv hclone hrec fun hop => absurd hop hwrite

/-! ## Runs -/

/-- A message that is put on an uplink and is no W_REPLY leaves the same messages outstanding. -/
theorem State.Outstanding.of_emit {m x : Message} {port : BitVec 9} (hx : s'.Outstanding x)
    (hwire : s'.wire ⊆ s.wire) (huplink : s'.uplink = s.uplink ++ [(port, m)])
    (hop : m.orbitcache.op ≠ opWReply) : s.Outstanding x := by
  rcases hx with ⟨hx, hxop⟩ | ⟨p, hx, hxop⟩
  · exact .inl ⟨hwire hx, hxop⟩
  · rw [huplink, List.mem_append, List.mem_singleton] at hx
    rcases hx with hx | hx
    · exact .inr ⟨p, hx, hxop⟩
    · cases hx
      exact absurd hxop hop

/-- A W_REPLY of a worker comes from a WRITE with its hash and its stamp. -/
theorem Worker.HandleCase.of_wReply {hash : Bytes → Hkey} {w w' : Worker} {junk : Bytes}
    {h rh : OrbitcacheH} {b rb : Payload} (hcase : w.HandleCase hash junk h b w' (some (rh, rb)))
    (hop : rh.op = opWReply) : h.op = opWrite ∧ rh.hkey = h.hkey ∧ rb.orgKey = b.orgKey ∧
      rb.tag.stamp = b.tag.stamp ∧ w' = w.put junk b ∧
      rb.tag.ver = w.writes b.orgKey + 1 := by
  cases hcase with
  | read => exact absurd hop (show ¬ (opRReply : BitVec 8) = opWReply by decide)
  | fetch => exact absurd hop (show ¬ (opFReply : BitVec 8) = opWReply by decide)
  | write hw | writeNoFetch hw => exact ⟨hw, rfl, rfl, rfl, rfl, rfl⟩

/-- The preload tool sends the first message of a key, so no other is outstanding. -/
theorem Single.preload (hD : D.Wired) (h : Single D s) {src target : BitVec 32}
    {key value : Bytes} {port : BitVec 9} (hport : D.tables.ingress src = some port)
    (htarget : (D.tables.ipv4Exact target).isSome = true)
    (hpaced : Paced D s (.preload src target key value)) :
    Single D (s.emit port (preloadMessage D.hash src target key value)) := by
  have hunseen : ¬ ∃ e ∈ s.trace, e.pkt.orbitcache.hkey = D.hash key :=
    fun ⟨e, he, hek⟩ => hpaced.2 e he hek
  have hout : ∀ x, (s.emit port (preloadMessage D.hash src target key value)).Outstanding x →
      s.Outstanding x ∨ x.orbitcache.hkey = D.hash key := by
    rintro x (hx | ⟨p, hx, hop⟩)
    · exact .inl (.inl hx)
    · rcases List.mem_append.1 hx with hx | hx
      · exact .inl (.inr ⟨p, hx, hop⟩)
      · cases List.mem_singleton.1 hx
        exact .inr rfl
  have hflow : Flow D (s.emit port (preloadMessage D.hash src target key value)) :=
    h.flow.congr rfl rfl (List.Subset.refl _) (List.Subset.refl _) fun e he => by
      rcases List.mem_append.1 he with he | he
      · exact .inl he
      · rw [List.mem_singleton.1 he]
        exact .inr (Flow.emit hD hport (.preload hD hport htarget key value))
  refine ⟨hflow, h.stamp, h.cached, h.seen, h.seenValid, h.nodup, fun x hx c hk => ?_,
    fun x hx p hp hpk => ?_⟩
  · rcases hout x hx with hx | hxk
    · exact h.invalid x hx c hk
    · refine Bool.eq_false_iff.2 fun hc => hunseen ?_
      exact hxk ▸ h.seenValid _ c hk hc
  · rcases hout x hx with hx | hxk
    · exact h.older x hx p hp hpk
    · exact absurd (hxk ▸ hpk ▸ h.seen p hp) hunseen

/-- A cache packet is taken off the loop, which leaves fewer of them. -/
theorem Single.erase (h : Single D s) (i : Nat) :
    Single D { s with loop := s.loop.eraseIdx i } where
  flow := h.flow.congr rfl rfl List.eraseIdx_subset (List.Subset.refl _) fun _ he => .inl he
  stamp p hp := h.stamp p (List.mem_of_mem_eraseIdx hp)
  cached p hp := h.cached p (List.mem_of_mem_eraseIdx hp)
  seen p hp := h.seen p (List.mem_of_mem_eraseIdx hp)
  seenValid := h.seenValid
  nodup := h.nodup.sublist ((List.eraseIdx_sublist _ _).map _)
  invalid := h.invalid
  older m hm p hp := h.older m hm p (List.mem_of_mem_eraseIdx hp)

/-- A message is taken off an uplink, which leaves fewer outstanding. -/
theorem Single.takeUplink (h : Single D s) (i : Nat) :
    Single D { s with uplink := s.uplink.eraseIdx i } := by
  refine h.congr (h.flow.congr rfl rfl (List.Subset.refl _) (List.Subset.refl _)
    fun e he => .inl (List.mem_of_mem_eraseIdx he)) rfl rfl rfl rfl fun x hx => ⟨x, ?_, rfl, rfl⟩
  exact hx.imp id fun ⟨p, hx, hop⟩ => ⟨p, List.mem_of_mem_eraseIdx hx, hop⟩

/-- A step that keeps to the two conditions keeps the invariant, by the cases of a step. -/
theorem Single.step (hD : D.Wired) {a : Action} (h : Single D s) (hpaced : Paced D s a)
    (hsep : Separate s a) (hstep : OrbitCache.step D s a = some s') : Single D s' := by
  have hflow := h.flow.step hD hstep
  cases step_case hstep with
  | @send client isWrite =>
    refine h.congr hflow rfl rfl rfl rfl fun x hx =>
      ⟨x, hx.of_emit (List.Subset.refl _) rfl ?_, rfl, rfl⟩
    cases isWrite with
    | false => exact show ¬ (opRead : BitVec 8) = opWReply by decide
    | true => exact show ¬ (opWrite : BitVec 8) = opWReply by decide
  | @pass i port m hm =>
    obtain ⟨hport, hp, hok⟩ := h.flow.uplink _ (List.mem_of_getElem? hm)
    refine (h.takeUplink i).pass hD hport hp hok fun hop c hl =>
      ⟨fun p hp => h.not_mem_loop hm hop hpaced hp, fun y hy => hsep.ne_hkey hm hop ?_ hy⟩
    exact Option.isSome_of_eq_some hl
  | @recirculate i m hm =>
    refine (h.erase i).lap hD (h.flow.loop _ (List.mem_of_getElem? hm)) fun p hp heq => ?_
    have hperm := (Channel.perm hm).map fun p => p.orbitcache.hkey
    have hnodup := hperm.nodup_iff.2 h.nodup
    exact (List.nodup_cons.1 hnodup).1 (List.mem_map.2 ⟨p, hp, heq⟩)
  | @reply i m junk w rh rb port hm hserver hcase hport =>
    refine h.congr hflow rfl rfl rfl rfl fun x hx => ?_
    rcases hx with ⟨hx, hop⟩ | ⟨p, hx, hop⟩
    · exact ⟨x, .inl ⟨List.mem_of_mem_eraseIdx hx, hop⟩, rfl, rfl⟩
    · rcases List.mem_append.1 hx with hx | hx
      · exact ⟨x, .inr ⟨p, hx, hop⟩, rfl, rfl⟩
      · cases List.mem_singleton.1 hx
        obtain ⟨hmop, hkey, -, hstamp, -⟩ := hcase.of_wReply hop
        exact ⟨m, .inl ⟨List.mem_of_getElem? hm, hmop⟩, hkey.symm, hstamp.symm⟩
  | ignore | receive =>
    refine h.congr hflow rfl rfl rfl rfl fun x hx => ⟨x, ?_, rfl, rfl⟩
    exact hx.imp (fun hx => ⟨List.mem_of_mem_eraseIdx hx.1, hx.2⟩) id
  | correct _ _ hrx =>
    obtain ⟨-, -, key, -, -, rfl⟩ := Client.rx_some hrx
    exact h.congr hflow rfl rfl rfl rfl fun x hx =>
      ⟨x, hx.of_emit List.eraseIdx_subset rfl (show ¬ (opCrctn : BitVec 8) = opWReply by decide),
        rfl, rfl⟩
  | preload hport htarget => exact h.preload hD hport htarget hpaced

/-- It holds at the start, where the loop is empty. -/
theorem Single.start (D : Deployment) (regs : Registers) {lookup : LookupTable}
    (htable : StaticTable lookup) (workers : Endpoint → Worker) :
    Single D (.start regs lookup workers) where
  flow := .start D regs htable workers
  stamp _ hp := by cases hp
  cached _ hp := by cases hp
  seen _ hp := by cases hp
  seenValid k c hk hc := by
    rw [State.start_line regs htable workers hk] at hc
    cases hc
  nodup := List.nodup_nil
  invalid m hm := by
    rcases hm with ⟨hm, -⟩ | ⟨_, hm, -⟩ <;> cases hm
  older _ _ _ hp := by cases hp

/-- The bound: every cached key has at most one cache packet on the loop, and there are no more of
them than installed keys. -/
def State.Bounded (s : State) : Prop :=
  (∀ k, (s.loop.countP fun p => p.orbitcache.hkey == k) ≤ 1) ∧
    s.loop.length ≤ s.lookup.entries.length

/-- As long as no W_REPLY passes while another WRITE of its key is outstanding, the loop carries at
most one cache packet of each key. The invariant is `Single`: an outstanding WRITE keeps its key
INVALID, so every older packet is dropped before the reply makes a new one. -/
theorem loop_bounded (hD : D.Wired) {regs : Registers} {lookup : LookupTable}
    (htable : StaticTable lookup) {workers : Endpoint → Worker}
    (h : Run (OrbitCache.step D) (fun s a => Paced D s a ∧ Separate s a)
      (.start regs lookup workers) s) : s.Bounded := by
  have hsingle : Single D s := h.invariant _ (.start D regs htable workers)
    fun _ _ _ hinv hguard hstep => hinv.step hD hguard.1 hguard.2 hstep
  have hcached : (s.loop.map fun p => p.orbitcache.hkey) ⊆ s.lookup.keys := by
    intro k hk
    obtain ⟨p, hp, rfl⟩ := List.mem_map.1 hk
    exact AList.mem_keys.1 (AList.lookup_isSome.1 (hsingle.cached p hp))
  refine ⟨fun k => ?_, ?_⟩
  · have hcount := List.nodup_iff_count_le_one.1 hsingle.nodup k
    rwa [List.count, List.countP_map] at hcount
  · have hle := (List.subperm_of_subset hsingle.nodup hcached).length_le
    rwa [List.length_map, AList.keys, List.keys, List.length_map] at hle

end

/-- A key is preloaded, written, and read through the new cache packet. -/
def singleWrite : List Action :=
  [preloadHotKey, .pass 0, .send clientA true hotKey [byteA] 0, .pass 0, .recirculate 0,
    .serve 1 [], .pass 0, .send clientA false hotKey [] 0, .pass 0, .recirculate 0]

/-- The bound holds after it, and the loop is not empty. -/
theorem loop_bounded_singleWrite :
    ∃ s : State, s.loop.length = 1 ∧ s.trace.length = 6 ∧ s.Bounded := by
  have hD : (cluster 8).Wired := cluster_wired (by decide) (by decide)
  have hexec : (Run.exec (step (cluster 8))
      (fun s a => decide (Paced (cluster 8) s a ∧ Separate s a)) clusterStart singleWrite).any
        (fun s => decide (s.loop.length = 1 ∧ s.trace.length = 6)) = true := by
    decide +kernel
  obtain ⟨s, hrun, hs⟩ := Run.exists_of_exec (fun _ _ => of_decide_eq_true) _ _ hexec
  rw [← clusterStart_eq] at hrun
  obtain ⟨hlength, htrace⟩ := of_decide_eq_true hs
  exact ⟨s, hlength, htrace, loop_bounded hD Controller.staticTable_staticTable hrun⟩

/-- Two WRITEs of a preloaded key overlap: the W_REPLY of the first passes while the second is
outstanding, and the cache packet it brings is still there when the second W_REPLY brings
another. -/
def overlappingWrites : List Action :=
  [preloadHotKey, .pass 0, .send clientA true hotKey [byteA] 0, .pass 0,
    .send clientA true hotKey [byteA] 0, .pass 0, .recirculate 0, .serve 1 [], .pass 0,
    .recirculate 0, .serve 1 [], .pass 0]

/-- Without the condition two cache packets of one key recirculate: the run of the two overlapping
WRITEs is a witness. -/
theorem loop_not_bounded :
    ∃ s, Run (step (cluster 8)) (Paced (cluster 8))
      (.start Controller.zeroRegisters Controller.staticTable fullWorkers) s ∧ ¬ s.Bounded := by
  have hexec : (Run.exec (step (cluster 8)) (fun s a => decide (Paced (cluster 8) s a))
      clusterStart overlappingWrites).any
        (fun s => s.loop.countP (fun p => p.orbitcache.hkey == (cluster 8).hash hotKey) == 2) =
          true := by
    decide +kernel
  obtain ⟨s, hrun, hs⟩ := Run.exists_of_exec (fun _ _ => of_decide_eq_true) _ _ hexec
  rw [← clusterStart_eq] at hrun
  refine ⟨s, hrun, fun hbounded => ?_⟩
  have hle := hbounded.1 ((cluster 8).hash hotKey)
  rw [beq_iff_eq.1 hs] at hle
  exact absurd hle (by decide)

end OrbitCache
