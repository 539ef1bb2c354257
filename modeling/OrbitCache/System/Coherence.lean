import OrbitCache.System.Recirculation

/-!
# Cache coherence

Which version of a key the cache replies carry. The version of a W_REPLY counts the writes of its
key that the worker has applied. As long as no W_REPLY passes while another WRITE of its key is
outstanding, the cache packets and the W_REPLYs in flight are at least as new as every W_REPLY of
their key that has passed (`Fresh`).
-/

namespace OrbitCache

open Controller (LookupTable numHotkey StaticTable)

/-- The packet was a W_REPLY on its way to a client, which learns from it that its WRITE was done.
-/
def Event.IsAck (D : Deployment) (e : Event) : Prop :=
  e.port ≠ D.recirc ∧ e.pkt.orbitcache.op = opWReply

/-- The packet was a READ on its way to a worker. -/
def Event.IsRead (D : Deployment) (e : Event) : Prop :=
  e.port ≠ D.recirc ∧ e.pkt.orbitcache.op = opRead

/-- The packet was a cache packet, and the switch sent `r` to a host. -/
def Event.Replies (D : Deployment) (e : Event) (r : Message) : Prop :=
  e.port = D.recirc ∧ ∃ p, p ≠ D.recirc ∧ (p, r) ∈ e.outputs

/-- Once the W_REPLY of a version of a key has passed, every cache reply of the key to a READ that
arrives later carries that version or a newer one. -/
def State.Coherent (D : Deployment) (s : State) : Prop :=
  ∀ (i j l : Nat) (ack read lap : Event) (r : Message), i < j → j < l →
    s.trace[i]? = some ack → s.trace[j]? = some read → s.trace[l]? = some lap →
    ack.IsAck D → read.IsRead D → lap.Replies D r →
      read.pkt.payload.orgKey = ack.pkt.payload.orgKey →
      r.payload.orgKey = ack.pkt.payload.orgKey →
      r.target = read.pkt.source → r.orbitcache.seq = read.pkt.orbitcache.seq →
        ack.pkt.payload.tag.ver ≤ r.payload.tag.ver

/-- `m` is at least as new as every W_REPLY of its key that has passed. -/
def State.Newest (D : Deployment) (s : State) (m : Message) : Prop :=
  ∀ e ∈ s.trace, e.IsAck D → e.pkt.payload.orgKey = m.payload.orgKey →
    e.pkt.payload.tag.ver ≤ m.payload.tag.ver

/-- The writes of its key that its worker has applied include the version of `m`. -/
def State.Applied (D : Deployment) (s : State) (m : Message) : Prop :=
  m.payload.tag.ver ≤ (s.workers (D.dest m.payload.orgKey)).writes m.payload.orgKey

/-- What is in flight is fresh, and so was every cache reply: the invariant that coherence follows
from. -/
structure Fresh (D : Deployment) (s : State) : Prop where
  single : Single D s
  hashed : ∀ e ∈ s.trace, e.pkt.orbitcache.hkey = D.hash e.pkt.payload.orgKey
  acked : ∀ e ∈ s.trace, e.IsAck D → s.Applied D e.pkt
  applied : ∀ e ∈ s.uplink, e.2.orbitcache.op = opWReply → s.Applied D e.2
  uplink : ∀ e ∈ s.uplink, e.2.orbitcache.op = opWReply →
    (s.lookup.lookup e.2.orbitcache.hkey).isSome = true → s.Newest D e.2
  loop : ∀ p ∈ s.loop, s.Newest D p
  replied : ∀ (i l : Nat) (ack lap : Event) (r : Message), i < l →
    s.trace[i]? = some ack → s.trace[l]? = some lap → ack.IsAck D → lap.Replies D r →
      r.payload.orgKey = ack.pkt.payload.orgKey →
      ack.pkt.payload.tag.ver ≤ r.payload.tag.ver

section
variable {D : Deployment} {s s' : State}

/-- What a step does besides a pass: workers apply writes, and W_REPLYs that are new to an uplink
are applied and newest. -/
theorem Fresh.congr (h : Fresh D s) (hsingle : Single D s') (hlookup : s'.lookup = s.lookup)
    (hloop : s'.loop = s.loop) (htrace : s'.trace = s.trace)
    (hworkers : ∀ ep k, (s.workers ep).writes k ≤ (s'.workers ep).writes k)
    (huplink : ∀ e ∈ s'.uplink, e.2.orbitcache.op = opWReply → e ∈ s.uplink ∨
      s'.Applied D e.2 ∧ s.Newest D e.2) : Fresh D s' where
  single := hsingle
  hashed := htrace ▸ h.hashed
  acked e he hack := Nat.le_trans (h.acked e (htrace ▸ he) hack) (hworkers _ _)
  applied e he hop := by
    rcases huplink e he hop with he | ⟨happlied, -⟩
    · exact Nat.le_trans (h.applied e he hop) (hworkers _ _)
    · exact happlied
  uplink e he hop hc := by
    have hnewest : s.Newest D e.2 := by
      rcases huplink e he hop with he | ⟨-, hnewest⟩
      · exact h.uplink e he hop (hlookup ▸ hc)
      · exact hnewest
    unfold State.Newest
    rw [htrace]
    exact hnewest
  loop := by
    unfold State.Newest
    rw [hloop, htrace]
    exact h.loop
  replied := htrace ▸ h.replied

/-- Handling a datagram does not undo a write: the number of writes of a key does not fall. -/
theorem Worker.HandleCase.writes_le {hash : Bytes → Hkey} {w w' : Worker} {junk : Bytes}
    {h : OrbitcacheH} {b : Payload} {r : Option (OrbitcacheH × Payload)}
    (hcase : w.HandleCase hash junk h b w' r) (k : Bytes) : w.writes k ≤ w'.writes k := by
  cases hcase with
  | read | fetch | ignore => exact Nat.le_refl _
  | write | writeNoFetch =>
    by_cases hk : k = b.orgKey
    · subst hk
      simp [Worker.put]
    · simp [Worker.put, hk]

/-- The same for the workers as a whole, of which one handles a datagram. -/
theorem Worker.HandleCase.update_writes_le {hash : Bytes → Hkey} {ep₀ : Endpoint} {w' : Worker}
    {junk : Bytes} {h : OrbitcacheH} {b : Payload} {r : Option (OrbitcacheH × Payload)}
    (hcase : (s.workers ep₀).HandleCase hash junk h b w' r) (ep : Endpoint) (k : Bytes) :
    (s.workers ep).writes k ≤ (Function.update s.workers ep₀ w' ep).writes k := by
  by_cases hep : ep = ep₀
  · subst hep
    rw [Function.update_self]
    exact hcase.writes_le k
  · rw [Function.update_of_ne hep]

/-- A packet that passes after everything in the trace stays newest, unless what passes is a newer
W_REPLY of its key. -/
theorem State.Newest.pass {m x : Message} {port : BitVec 9} (h : s.Newest D x)
    (hself : port ≠ D.recirc → m.orbitcache.op = opWReply → m.payload.orgKey = x.payload.orgKey →
      m.payload.tag.ver ≤ x.payload.tag.ver) : (s.pass D port m).Newest D x := by
  intro e he hack hkey
  rcases List.mem_append.1 he with he | he
  · exact h e he hack hkey
  · rw [List.mem_singleton.1 he] at hack hkey ⊢
    exact hself hack.1 hack.2 hkey

/-- A pass of a packet that is newest, if it is a cache packet or a W_REPLY of a cached key. -/
theorem Fresh.pass (h : Fresh D s) {port : BitVec 9} {m : Message} (hok : MessageOk D m)
    {v : Verdict} (hv : s.Passes D port m v) (hsingle : Single D (s.pass D port m))
    (happlied : port ≠ D.recirc → m.orbitcache.op = opWReply → s.Applied D m)
    (hnewest : port = D.recirc ∨ (m.orbitcache.op = opWReply ∧
      (s.lookup.lookup m.orbitcache.hkey).isSome = true) → s.Newest D m)
    (hrec : v.recirculated (s.tables D) port m ≠ [] → port = D.recirc ∨
      (m.orbitcache.op = opWReply ∧ (s.lookup.lookup m.orbitcache.hkey).isSome = true))
    (hfree : port ≠ D.recirc → m.orbitcache.op = opWReply →
      (s.lookup.lookup m.orbitcache.hkey).isSome = true →
        (∀ p ∈ s.loop, p.orbitcache.hkey ≠ m.orbitcache.hkey) ∧
        ∀ e ∈ s.uplink, e.2.orbitcache.op = opWReply →
          e.2.orbitcache.hkey ≠ m.orbitcache.hkey) :
    Fresh D (s.pass D port m) := by
  have hflow := h.single.flow
  refine ⟨hsingle, fun e he => ?_, fun e he hack => ?_, h.applied, fun e he hop hc => ?_,
    fun p hp => ?_, fun i l ack lap r hil hack hlap hisack hreplies hkey => ?_⟩
  · rcases List.mem_append.1 he with he | he
    · exact h.hashed e he
    · rw [List.mem_singleton.1 he]
      exact hok.hkey
  · rcases List.mem_append.1 he with he | he
    · exact h.acked e he hack
    · rw [List.mem_singleton.1 he] at hack ⊢
      exact happlied hack.1 hack.2
  · refine (h.uplink e he hop hc).pass fun hp hmop hkey => ?_
    have hk : e.2.orbitcache.hkey = m.orbitcache.hkey := by
      rw [(hflow.uplink e he).2.2.hkey, hok.hkey, hkey]
    exact absurd hk ((hfree hp hmop (hk ▸ hc)).2 e he hop)
  · have hp : p ∈ s.loop ++ ((s.outputs D port m).filter fun o => o.1 = D.recirc).map Prod.snd := hp
    rw [hv.recirculated, List.mem_append, List.mem_map] at hp
    rcases hp with hp | ⟨x, hx, rfl⟩
    · refine (h.loop p hp).pass fun hp' hmop hkey => ?_
      have hk : p.orbitcache.hkey = m.orbitcache.hkey := by
        rw [(hflow.loop p hp).hkey, hok.hkey, hkey]
      exact absurd hk ((hfree hp' hmop (hk ▸ h.single.cached p hp)).1 p hp)
    · have hpay : x.payload = m.payload := (Verdict.mem_recirculated hx).2.2
      have hm := hnewest (hrec (List.ne_nil_of_mem hx))
      refine State.Newest.pass (fun e he hack hkey => ?_) fun _ _ _ => ?_
      · have hkey : e.pkt.payload.orgKey = x.payload.orgKey := hkey
        show _ ≤ x.payload.tag.ver
        rw [hpay] at hkey ⊢
        exact hm e he hack hkey
      · show _ ≤ x.payload.tag.ver
        rw [hpay]
  · have htrace : (s.pass D port m).trace = s.trace ++
        [⟨port, m, (s.tables D).cacheLookup m.orbitcache.hkey, s.outputs D port m⟩] := rfl
    rw [htrace] at hack hlap
    have hl : l < s.trace.length + 1 := by
      simpa using (List.getElem?_eq_some_iff.1 hlap).1
    have hi : i < s.trace.length := by omega
    rw [List.getElem?_append_left hi] at hack
    by_cases hll : l < s.trace.length
    · rw [List.getElem?_append_left hll] at hlap
      exact h.replied i l ack lap r hil hack hlap hisack hreplies hkey
    · -- the packet is the cache packet itself, and the reply carries its payload
      obtain rfl : l = s.trace.length := by omega
      simp only [List.getElem?_concat_length, Option.some.injEq] at hlap
      subst hlap
      obtain ⟨hport, p, hp, hout⟩ := hreplies
      have hmem : r ∈ ((s.outputs D port m).filter fun o => o.1 ≠ D.recirc).map Prod.snd :=
        List.mem_map.2 ⟨(p, r), List.mem_filter.2 ⟨hout, by simpa using hp⟩, rfl⟩
      rw [hv.delivered, List.mem_map] at hmem
      obtain ⟨x, hx, rfl⟩ := hmem
      have hpay := (hv.case.mem_delivered hok.isOrbitcache hx).2.2
      have hkey : x.payload.orgKey = ack.pkt.payload.orgKey := hkey
      show _ ≤ x.payload.tag.ver
      rw [hpay] at hkey ⊢
      exact hnewest (.inl hport) ack (List.mem_of_getElem? hack) hisack hkey.symm

/-- A cache packet is taken off the loop, which leaves fewer packets to be fresh. -/
theorem Fresh.erase (h : Fresh D s) (i : Nat) :
    Fresh D { s with loop := s.loop.eraseIdx i } where
  single := h.single.erase i
  hashed := h.hashed
  acked := h.acked
  applied := h.applied
  uplink := h.uplink
  loop p hp := h.loop p (List.mem_of_mem_eraseIdx hp)
  replied := h.replied

/-- A message is taken off an uplink, in the same way. -/
theorem Fresh.takeUplink (h : Fresh D s) (i : Nat) :
    Fresh D { s with uplink := s.uplink.eraseIdx i } :=
  h.congr (h.single.takeUplink i) rfl rfl rfl (fun _ _ => Nat.le_refl _)
    fun _ he _ => .inl (List.mem_of_mem_eraseIdx he)

/-- A message that is put on an uplink and is no W_REPLY adds no W_REPLY. -/
theorem Fresh.mem_emit {e x : BitVec 9 × Message} {l : List (BitVec 9 × Message)}
    (he : e ∈ l ++ [x]) (hop : e.2.orbitcache.op = opWReply) (hx : x.2.orbitcache.op ≠ opWReply) :
    e ∈ l := by
  rcases List.mem_append.1 he with he | he
  · exact he
  · rw [List.mem_singleton.1 he] at hop
    exact absurd hop hx

/-- A step that keeps to the two conditions keeps the invariant, by the cases of a step. -/
theorem Fresh.step (hD : D.Wired) {a : Action} (h : Fresh D s) (hpaced : Paced D s a)
    (hsep : Separate s a) (hstep : OrbitCache.step D s a = some s') : Fresh D s' := by
  have hsingle := h.single.step hD hpaced hsep hstep
  have hflow := h.single.flow
  cases step_case hstep with
  | @send client isWrite =>
    refine h.congr hsingle rfl rfl rfl (fun _ _ => Nat.le_refl _) fun e he hop =>
      .inl (Fresh.mem_emit he hop ?_)
    cases isWrite with
    | false => exact show ¬ (opRead : BitVec 8) = opWReply by decide
    | true => exact show ¬ (opWrite : BitVec 8) = opWReply by decide
  | @pass i port m hm =>
    have hmem := List.mem_of_getElem? hm
    obtain ⟨hport, hp, hok⟩ := hflow.uplink _ hmem
    have hfresh := h.takeUplink i
    obtain ⟨v, hv⟩ := hfresh.single.flow.passes hD hport hok
    refine hfresh.pass hok hv hsingle (fun _ hop => h.applied _ hmem hop) ?_ ?_
      fun _ hop hc => ⟨fun p hp => h.single.not_mem_loop hm hop hpaced hp, ?_⟩
    · rintro (heq | ⟨hop, hc⟩)
      · exact absurd heq hp
      · exact h.uplink _ hmem hop hc
    · intro hrec
      have hhost :
          onLoop (State.tables D { s with uplink := s.uplink.eraseIdx i }) port = false :=
        onLoop_host hport hp
      rcases hv.case.host hhost with ⟨c, -, hl, hop | hop⟩ | ⟨-, hnil⟩
      · exact .inr ⟨hop, Option.isSome_of_eq_some hl⟩
      · have := hok.op
        rw [hop] at this
        exact absurd this (by decide)
      · exact absurd hnil hrec
    · exact fun e he heop => hsep.ne_hkey hm hop hc (.inr ⟨e.1, he, heop⟩)
  | @recirculate i m hm =>
    have hmem := List.mem_of_getElem? hm
    have hok := hflow.loop m hmem
    have hfresh := h.erase i
    obtain ⟨v, hv⟩ := hfresh.single.flow.passes hD hD.recirc_listed hok
    exact hfresh.pass hok hv hsingle (fun hne => absurd rfl hne) (fun _ => h.loop m hmem)
      (fun _ => .inl rfl) (fun hne => absurd rfl hne)
  | @reply i m junk w rh rb port hm hserver hcase hport =>
    have hmem := List.mem_of_getElem? hm
    refine h.congr hsingle rfl rfl rfl hcase.update_writes_le fun e he hop => ?_
    rcases List.mem_append.1 he with he | he
    · exact .inl he
    right
    rw [List.mem_singleton.1 he] at hop ⊢
    obtain ⟨hmop, -, hkey, -, hw, hver⟩ := hcase.of_wReply hop
    have htarget := ((hflow.wire m hmem).request (.inr (.inl hmop))).1
    refine ⟨?_, fun e he hack hek => ?_⟩
    · -- the worker has just applied this write
      show rb.tag.ver ≤ (Function.update s.workers m.target w (D.dest rb.orgKey)).writes rb.orgKey
      rw [hkey, ← htarget, Function.update_self, hw, hver]
      simp [Worker.put]
    · have hek : e.pkt.payload.orgKey = rb.orgKey := hek
      have hle := h.acked e he hack
      rw [State.Applied, hek, hkey, ← htarget] at hle
      show _ ≤ rb.tag.ver
      rw [hver]
      exact Nat.le_succ_of_le hle
  | ignore _ _ hcase =>
    exact h.congr hsingle rfl rfl rfl hcase.update_writes_le fun _ he _ => .inl he
  | receive => exact h.congr hsingle rfl rfl rfl (fun _ _ => Nat.le_refl _) fun _ he _ => .inl he
  | correct _ _ hrx =>
    obtain ⟨-, -, key, -, -, rfl⟩ := Client.rx_some hrx
    exact h.congr hsingle rfl rfl rfl (fun _ _ => Nat.le_refl _) fun e he hop =>
      .inl (Fresh.mem_emit he hop (show ¬ (opCrctn : BitVec 8) = opWReply by decide))
  | @preload src target key value port =>
    refine h.congr hsingle rfl rfl rfl (fun _ _ => Nat.le_refl _) fun e he hop => ?_
    rcases List.mem_append.1 he with he | he
    · exact .inl he
    right
    rw [List.mem_singleton.1 he]
    refine ⟨Nat.zero_le _, fun e' he' hack hek => ?_⟩
    exact absurd ((h.hashed e' he').trans (congrArg D.hash hek)) (hpaced.2 e' he')

/-- It holds at the start, where nothing is in flight. -/
theorem Fresh.start (D : Deployment) (regs : Registers) {lookup : LookupTable}
    (htable : StaticTable lookup) (workers : Endpoint → Worker) :
    Fresh D (.start regs lookup workers) where
  single := .start D regs htable workers
  hashed _ he := by cases he
  acked _ he := by cases he
  applied _ he := by cases he
  uplink _ he := by cases he
  loop _ hp := by cases hp
  replied _ _ _ _ _ _ hack := by cases hack

/-- As long as no W_REPLY passes while another WRITE of its key is outstanding, the cache is
coherent. It is read off the invariant `Fresh`, which has for every W_REPLY and every cache reply
after it what coherence asks where a READ came in between. -/
theorem cache_coherent (hD : D.Wired) {regs : Registers} {lookup : LookupTable}
    (htable : StaticTable lookup) {workers : Endpoint → Worker}
    (h : Run (OrbitCache.step D) (fun s a => Paced D s a ∧ Separate s a)
      (.start regs lookup workers) s) : s.Coherent D := by
  have hfresh : Fresh D s := h.invariant _ (.start D regs htable workers)
    fun _ _ _ hinv hguard hstep => hinv.step hD hguard.1 hguard.2 hstep
  intro i j l ack read lap r hij hjl hack _ hlap hisack _ hreplies _ hkey _ _
  exact hfresh.replied i l ack lap r (Nat.lt_trans hij hjl) hack hlap hisack hreplies hkey

end

/-- A READ that is served after a WRITE gets the version of the WRITE. -/
theorem cache_coherent_singleWrite :
    ∃ s : State, ((s.trace[5]?).map fun lap => lap.outputs.map fun o => o.2.payload.tag.ver) =
      some [1, 1] ∧ s.Coherent (cluster 8) := by
  have hD : (cluster 8).Wired := cluster_wired (by decide) (by decide)
  have hexec : (Run.exec (step (cluster 8))
      (fun s a => decide (Paced (cluster 8) s a ∧ Separate s a)) clusterStart singleWrite).any
        (fun s => decide (((s.trace[5]?).map fun lap =>
          lap.outputs.map fun o => o.2.payload.tag.ver) = some [1, 1])) = true := by
    decide +kernel
  obtain ⟨s, hrun, hs⟩ := Run.exists_of_exec (fun _ _ => of_decide_eq_true) _ _ hexec
  rw [← clusterStart_eq] at hrun
  exact ⟨s, of_decide_eq_true hs, cache_coherent hD Controller.staticTable_staticTable hrun⟩

/-- After two overlapping WRITEs, a READ is served by the cache packet of the first, which carries
the older value. -/
def staleRead : List Action :=
  overlappingWrites ++ [.send clientA false hotKey [] 0, .pass 0, .recirculate 0]

/-- Packet 8 is a cache packet that answers packet 7, a READ, with an older version than that of
packet 6, a W_REPLY. -/
def State.IsStale (D : Deployment) (s : State) : Bool :=
  (s.trace[6]?).any fun ack => (s.trace[7]?).any fun read => (s.trace[8]?).any fun lap =>
    ack.port != D.recirc && ack.pkt.orbitcache.op == opWReply && read.port != D.recirc &&
    read.pkt.orbitcache.op == opRead && lap.port == D.recirc &&
    read.pkt.payload.orgKey == ack.pkt.payload.orgKey && lap.outputs.any fun o =>
      o.1 != D.recirc && o.2.payload.orgKey == ack.pkt.payload.orgKey &&
      o.2.target == read.pkt.source && o.2.orbitcache.seq == read.pkt.orbitcache.seq &&
      o.2.payload.tag.ver < ack.pkt.payload.tag.ver

/-- Without the condition the cache is not coherent: the run of the two overlapping WRITEs is a
witness. -/
theorem cache_not_coherent :
    ∃ s, Run (step (cluster 8)) (Paced (cluster 8))
      (.start Controller.zeroRegisters Controller.staticTable fullWorkers) s ∧
        ¬ s.Coherent (cluster 8) := by
  have hexec : (Run.exec (step (cluster 8)) (fun s a => decide (Paced (cluster 8) s a))
      clusterStart staleRead).any (State.IsStale (cluster 8)) = true := by
    decide +kernel
  obtain ⟨s, hrun, hs⟩ := Run.exists_of_exec (fun _ _ => of_decide_eq_true) _ _ hexec
  rw [← clusterStart_eq] at hrun
  refine ⟨s, hrun, fun hcoherent => ?_⟩
  simp only [State.IsStale, Option.any_eq_true, List.any_eq_true, Bool.and_eq_true, bne_iff_ne,
    beq_iff_eq, decide_eq_true_eq] at hs
  obtain ⟨ack, hack, read, hread, lap, hlap, ⟨⟨⟨⟨⟨hap, haop⟩, hrp⟩, hrop⟩, hlp⟩, hkey⟩,
    ⟨p, r⟩, hout, ⟨⟨⟨hp, hrkey⟩, htarget⟩, hseq⟩, hver⟩ := hs
  have hle := hcoherent 6 7 8 ack read lap r (by decide) (by decide) hack hread hlap ⟨hap, haop⟩
    ⟨hrp, hrop⟩ ⟨hlp, p, hp, hout⟩ hkey hrkey htarget hseq
  exact absurd hver (Nat.not_lt.2 hle)

end OrbitCache
