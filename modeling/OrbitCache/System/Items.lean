import OrbitCache.System.Eviction

/-!
# Cache packets and their items

What the W_REPLYs and F_REPLYs that become cache packets carry. The worker sends the item back only
if the switch had marked the WRITE, and a WRITE is marked if its key is cached when it passes; the
reply becomes a cache packet if its key is cached when the reply passes. As long as the two agree
and no fetched value has to be copied, every cache packet carries its item (`DynState.CarriesItem`).
-/

namespace OrbitCache

open Controller (LookupTable numHotkey StaticTable HotKey Str hkey)

/-- The message is marked as a cache packet and carries its complete value, as a reply to a READ
must. -/
def Packet.Complete (m : Message) : Prop :=
  m.orbitcache.cached = 1 ∧ m.payload.value = m.payload.tag.item

instance (m : Message) : Decidable m.Complete := inferInstanceAs (Decidable (_ ∧ _))

/-- A W_REPLY or an F_REPLY on its way from a host, which the switch clones if its key is cached. -/
def Event.IsReply (D : Deployment) (e : Event) : Prop :=
  e.port ≠ D.recirc ∧ (e.pkt.orbitcache.op = opWReply ∨ e.pkt.orbitcache.op = opFReply)

namespace State

/-- Every packet that was cloned onto the loop carries its item and is marked, and so does every
copy that was made of a packet on the loop. -/
structure CarriesItem (D : Deployment) (s : State) : Prop where
  cloned : ∀ e ∈ s.trace, e.IsReply D → ∀ m, (D.recirc, m) ∈ e.outputs → m.Complete
  answered : ∀ e ∈ s.trace, e.port = D.recirc → ∀ o ∈ e.outputs, o.2.Complete

/-- The W_REPLY answers a WRITE whose key was cached when it passed, or is a packet of the preload
tool, which answers none. -/
def AnswersHit (s : State) (m : Message) : Prop :=
  m.payload.tag.ver = 0 ∨
    ∃ e, s.trace[m.payload.tag.stamp]? = some e ∧ e.hit.isSome = true

/-- What is in flight carries what the switch asked for: cache packets are complete, and the replies
to WRITEs of cached keys are. -/
structure Itemized (D : Deployment) (s : State) : Prop where
  carries : s.CarriesItem D
  loop : ∀ m ∈ s.loop, m.Complete ∧ m.orbitcache.op ≠ opWrite
  /-- A WRITE is taken in by the parser. -/
  request : ∀ e ∈ s.uplink, e.2.orbitcache.op = opWrite → e.2.IsOrbitcache
  /-- A WRITE that left the switch is marked if its key was cached. -/
  write : ∀ m ∈ s.wire, m.orbitcache.op = opWrite →
    ∃ e, s.trace[m.payload.tag.stamp]? = some e ∧
      (e.hit.isSome = true → m.orbitcache.flag = fetching)
  /-- Its W_REPLY then brings the item. -/
  wReply : ∀ e ∈ s.uplink, e.2.orbitcache.op = opWReply →
    e.2.Complete ∨ e.2.payload.tag.ver ≠ 0 ∧
      ∃ x, s.trace[e.2.payload.tag.stamp]? = some x ∧ x.hit.isSome = false
  fReply : ∀ e ∈ s.uplink, e.2.orbitcache.op = opFReply →
    e.2.orbitcache.cached = 1 ∧ e.2.payload.value = snprintfValue e.2.payload.tag.item

end State

/-- The condition: a W_REPLY of a cached key answers a WRITE that found the key cached, and an
F_REPLY of a cached key fetched the empty value. -/
def DynState.Answered (s : DynState) : DynAction → Prop
  | .net (.pass i) => ∀ e, s.sys.uplink[i]? = some e →
      (s.sys.lookup.lookup e.2.orbitcache.hkey).isSome = true →
        (e.2.orbitcache.op = opWReply → s.sys.AnswersHit e.2) ∧
        (e.2.orbitcache.op = opFReply → e.2.payload.tag.item = [])
  | .net _ | .begin _ | .admitKey | .place | .fetch .. => True

instance (s : State) (m : Message) : Decidable (s.AnswersHit m) :=
  inferInstanceAs (Decidable (_ ∨ ∃ e ∈ s.trace[m.payload.tag.stamp]?, _))

instance (s : DynState) : ∀ a, Decidable (s.Answered a)
  | .net (.pass i) => inferInstanceAs (Decidable (∀ e ∈ s.sys.uplink[i]?, _))
  | .net (.send ..) | .net (.recirculate _) | .net (.serve ..) | .net (.receive ..)
  | .net (.preload ..) | .begin _ | .admitKey | .place | .fetch .. =>
    inferInstanceAs (Decidable True)

section
variable {D : Deployment} {heapq : Heapq HotKey HotKey.le} {fetchTo : Str → Endpoint}
variable {s s' : DynState} {sys : State} {port : BitVec 9} {m : Message} {v : Verdict}

/-- A copy that stays on the loop is marked and complete if the packet was. -/
theorem Verdict.complete_recirculated {t : Tables} {x : Message}
    (hx : x ∈ v.recirculated t port m) (hm : m.Complete) : x.Complete := by
  cases v with
  | serve | idle | clone =>
    obtain rfl := List.mem_singleton.1 hx
    exact hm
  | plain | absorb | overflow | bypass | uncached | discard | forward | invalidate => cases hx

/-- So is a copy that leaves the loop as the reply to a READ. -/
theorem VerdictCase.complete_delivered {t : Tables} {x : Message} {ls : BitVec 32 → Line}
    (hv : VerdictCase t port ls m v) (hp : onLoop t port = true) (hx : x ∈ v.delivered t port m)
    (hm : m.Complete) : x.Complete := by
  cases hv.loopCase hp with
  | plain | serve =>
    obtain rfl := List.mem_singleton.1 hx
    exact hm
  | idle | discard => cases hx

/-- A WRITE among the copies of a packet: it is marked for the server if its key is cached. -/
theorem VerdictCase.write_delivered {t : Tables} {x : Message} {ls : BitVec 32 → Line}
    (hv : VerdictCase t port ls m v) (horb : m.orbitcache.op = opWrite → m.IsOrbitcache)
    (hx : x ∈ v.delivered t port m) (hop : x.orbitcache.op = opWrite) :
    (t.cacheLookup m.orbitcache.hkey).isSome = true → x.orbitcache.flag = fetching := by
  intro hit
  have heff : effectiveOp t port m = opWrite →
      onLoop t port = false ∧ m.orbitcache.op = opWrite := by
    intro heff
    cases hp : onLoop t port with
    | true =>
      rw [effectiveOp, hp, if_pos rfl] at heff
      exact absurd heff (by decide)
    | false =>
      rw [effectiveOp, hp] at heff
      exact ⟨rfl, heff⟩
  obtain ⟨c, hc⟩ := Option.isSome_iff_exists.1 hit
  cases hv with
  | plain h =>
    obtain rfl := List.mem_singleton.1 hx
    exact absurd (horb hop) h
  | absorb | idle | discard => cases hx
  | overflow _ _ _ hm | bypass _ _ _ hm | uncached _ _ _ hm =>
    obtain rfl := List.mem_singleton.1 hx
    have := (heff hop).2
    rw [hm] at this
    exact absurd this (by decide)
  | serve _ _ hp =>
    obtain rfl := List.mem_singleton.1 hx
    have := (heff hop).1
    rw [hp] at this
    cases this
  | forward _ _ _ hm =>
    obtain rfl := List.mem_singleton.1 hx
    exact absurd (heff hop).2 (hm c hc).1
  | invalidate =>
    obtain rfl := List.mem_singleton.1 hx
    rfl
  | clone _ _ _ hm =>
    obtain rfl := List.mem_singleton.1 hx
    have := (heff hop).2
    rcases hm with hm | hm <;> rw [hm] at this <;> exact absurd this (by decide)

/-! ## The steps -/

/-- An event stays where it is when the trace grows, so the stamps keep their meaning. -/
theorem getElem?_trace {l l' : List Event} (h : l <+: l') {i : Nat} {P : Event → Prop}
    (hi : ∃ e, l[i]? = some e ∧ P e) : ∃ e, l'[i]? = some e ∧ P e := by
  obtain ⟨r, rfl⟩ := h
  obtain ⟨e, he, hP⟩ := hi
  refine ⟨e, ?_, hP⟩
  rw [List.getElem?_append_left (List.getElem?_eq_some_iff.1 he).1]
  exact he

/-- What a host sends next to what it takes off the channels: the reply to a marked WRITE is
complete, and so is a preload. -/
theorem Emitted.itemized (hD : D.Wired) (h : sys.Itemized D) (hm : Emitted D sys m) :
    (m.orbitcache.op = opWrite → m.IsOrbitcache) ∧
    (m.orbitcache.op = opWReply → m.Complete ∨ m.payload.tag.ver ≠ 0 ∧
      ∃ x, sys.trace[m.payload.tag.stamp]? = some x ∧ x.hit.isSome = false) ∧
    (m.orbitcache.op = opFReply →
      m.orbitcache.cached = 1 ∧ m.payload.value = snprintfValue m.payload.tag.item) := by
  cases hm with
  | @request client op _ _ _ _ hclient hop =>
    refine ⟨fun _ => ⟨rfl, rfl, .inr (hD.client_port _ hclient)⟩, fun h => ?_, fun h => ?_⟩
    · have h : op = opWReply := h
      rcases hop with rfl | rfl | rfl <;> exact absurd h (by decide)
    · have h : op = opFReply := h
      rcases hop with rfl | rfl | rfl <;> exact absurd h (by decide)
  | preload =>
    refine ⟨fun h => ?_, fun _ => .inl ⟨rfl, rfl⟩, fun h => ?_⟩
    · exact absurd h (by decide : opWReply ≠ opWrite)
    · exact absurd h (by decide : opWReply ≠ opFReply)
  | @reply m _ _ _ _ hm _ hcase =>
    cases hcase with
    | read =>
      refine ⟨fun h => ?_, fun h => ?_, fun h => ?_⟩
      · exact absurd h (by decide : opRReply ≠ opWrite)
      · exact absurd h (by decide : opRReply ≠ opWReply)
      · exact absurd h (by decide : opRReply ≠ opFReply)
    | fetch =>
      refine ⟨fun h => ?_, fun h => ?_, fun _ => ⟨rfl, rfl⟩⟩
      · exact absurd h (by decide : opFReply ≠ opWrite)
      · exact absurd h (by decide : opFReply ≠ opWReply)
    | write =>
      refine ⟨fun h => ?_, fun _ => .inl ⟨rfl, rfl⟩, fun h => ?_⟩
      · exact absurd h (by decide : opWReply ≠ opWrite)
      · exact absurd h (by decide : opWReply ≠ opFReply)
    | writeNoFetch hop hflag =>
      refine ⟨fun h => ?_, fun _ => .inr ⟨Nat.succ_ne_zero _, ?_⟩, fun h => ?_⟩
      · exact absurd h (by decide : opWReply ≠ opWrite)
      · obtain ⟨e, he, hmark⟩ := h.write m hm hop
        exact ⟨e, he, Bool.eq_false_iff.2 fun hit => hflag (hmark hit)⟩
      · exact absurd h (by decide : opWReply ≠ opFReply)

/-- A step of a host keeps what is in flight complete: it sends at most one message. -/
theorem State.Itemized.host (hD : D.Wired) (h : sys.Itemized D) {sys' : State}
    (htrace : sys'.trace = sys.trace) (hloop : sys'.loop = sys.loop) (hwire : sys'.wire ⊆ sys.wire)
    (huplink : ∀ e ∈ sys'.uplink, e ∈ sys.uplink ∨ Emitted D sys e.2) : sys'.Itemized D := by
  refine ⟨⟨?_, ?_⟩, ?_, fun e he => ?_, fun x hx => ?_, fun e he => ?_, fun e he => ?_⟩
  · rw [htrace]
    exact h.carries.cloned
  · rw [htrace]
    exact h.carries.answered
  · rw [hloop]
    exact h.loop
  · rcases huplink e he with he | he
    · exact h.request e he
    · exact (he.itemized hD h).1
  · rw [htrace]
    exact h.write x (hwire hx)
  · rw [htrace]
    rcases huplink e he with he | he
    · exact h.wReply e he
    · exact (he.itemized hD h).2.1
  · rcases huplink e he with he | he
    · exact h.fReply e he
    · exact (he.itemized hD h).2.2

/-- A pass of a packet that is complete if it is on the loop or about to be cloned. -/
theorem State.Itemized.pass (hD : D.Wired) (h : sys.Itemized D) (hv : sys.Judged D port m v)
    (hport : D.Listed port)
    (hloop : port = D.recirc → m.Complete ∧ m.orbitcache.op ≠ opWrite)
    (hreply : port ≠ D.recirc → m.orbitcache.op = opWReply ∨ m.orbitcache.op = opFReply →
      (sys.lookup.lookup m.orbitcache.hkey).isSome = true → m.Complete)
    (hwrite : m.orbitcache.op = opWrite → m.IsOrbitcache) :
    (sys.pass D port m).Itemized D := by
  have hrecirculated : ∀ x ∈ v.recirculated (sys.tables D) port m, x.Complete := by
    intro x hx
    by_cases hp : port = D.recirc
    · exact Verdict.complete_recirculated hx (hloop hp).1
    · rcases hv.case.host (onLoop_host hport hp) with ⟨c, -, hl, hop⟩ | ⟨-, hnil⟩
      · exact Verdict.complete_recirculated hx (hreply hp hop (Option.isSome_iff_exists.2 ⟨c, hl⟩))
      · rw [hnil] at hx
        cases hx
  have hprefix : sys.trace <+: (sys.pass D port m).trace := List.prefix_append _ _
  refine ⟨⟨fun e he hrep x hx => ?_, fun e he hrecirc o ho => ?_⟩, fun y hy => ?_, h.request,
    fun y hy hop => ?_, fun e he hop => ?_, h.fReply⟩
  · rcases List.mem_append.1 he with he | he
    · exact h.carries.cloned e he hrep x hx
    · rw [List.mem_singleton.1 he] at hx
      obtain ⟨y, rfl, hy, -⟩ := hv.mem_outputs hD hport hx
      exact hrecirculated y (hy rfl)
  · rcases List.mem_append.1 he with he | he
    · exact h.carries.answered e he hrecirc o ho
    · rw [List.mem_singleton.1 he] at hrecirc ho
      have hrecirc : port = D.recirc := hrecirc
      obtain ⟨y, hoy, hy, hy'⟩ := hv.mem_outputs hD hport ho
      rw [hoy]
      by_cases ho : o.1 = D.recirc
      · exact hrecirculated y (hy ho)
      · have hcomplete : y.Complete := hv.case.complete_delivered
          (hrecirc ▸ onLoop_recirc hD) (hy' ho) (hloop hrecirc).1
        exact hcomplete
  · rcases hv.mem_loop hD hport hy with hy | ⟨x, hx, rfl⟩
    · exact h.loop y hy
    · refine ⟨hrecirculated x hx, ?_⟩
      show x.orbitcache.op ≠ opWrite
      rw [(Verdict.mem_recirculated hx).1]
      cases hp : onLoop (sys.tables D) port with
      | true =>
        rw [effectiveOp, hp, if_pos rfl]
        decide
      | false =>
        rw [effectiveOp, hp]
        rcases hv.case.host hp with ⟨c, -, -, hop⟩ | ⟨-, hnil⟩
        · show m.orbitcache.op ≠ opWrite
          rcases hop with hop | hop <;> rw [hop] <;> decide
        · rw [hnil] at hx
          cases hx
  · rcases hv.mem_wire hD hport hy with hy | ⟨x, hx, rfl⟩
    · exact getElem?_trace hprefix (h.write y hy hop)
    · have hmark := hv.case.write_delivered hwrite hx hop
      exact ⟨_, List.getElem?_concat_length, hmark⟩
  · refine (h.wReply e he hop).imp_right ?_
    rintro ⟨hver, hmiss⟩
    exact ⟨hver, getElem?_trace hprefix hmiss⟩

/-- Every step that meets the condition keeps what is in flight complete, by the cases of a step. -/
theorem DynState.itemized_step (hD : D.Wired) (hinv : s.Inv D heapq) (h : s.sys.Itemized D)
    {a : DynAction} (hanswered : s.Answered a) (hstep : dynStep D heapq fetchTo s a = some s') :
    s'.sys.Itemized D := by
  cases dynStep_case hstep with
  | @net a sys hsys =>
    cases step_netCase hsys with
    | @pass i port m hm =>
      have hmem := List.mem_of_getElem? hm
      obtain ⟨hport, hne⟩ := hinv.uplink _ hmem
      obtain ⟨v, hv⟩ :=
        State.judged (D := D) (s := { s.sys with uplink := s.sys.uplink.eraseIdx i })
          hinv.table.staticTable hinv.wf port m
      have herase : ({ s.sys with uplink := s.sys.uplink.eraseIdx i } : State).Itemized D :=
        h.host hD rfl rfl (List.Subset.refl _) fun e he => .inl (List.mem_of_mem_eraseIdx he)
      refine herase.pass hD hv hport (fun heq => absurd heq hne) ?_ (h.request _ hmem)
      intro _ hop hit
      obtain ⟨hwReply, hfReply⟩ := hanswered _ hm hit
      rcases hop with hop | hop
      · rcases h.wReply _ hmem hop with hcomplete | ⟨hver, x, hx, hmiss⟩
        · exact hcomplete
        · rcases hwReply hop with hver' | ⟨x', hx', hit'⟩
          · exact absurd hver' hver
          · rw [hx, Option.some.injEq] at hx'
            rw [← hx', hmiss] at hit'
            cases hit'
      · obtain ⟨hcached, hvalue⟩ := h.fReply _ hmem hop
        refine ⟨hcached, ?_⟩
        rw [hvalue, hfReply hop]
        rfl
    | @recirculate i m hm =>
      have hmem := List.mem_of_getElem? hm
      obtain ⟨v, hv⟩ := State.judged (D := D) (s := { s.sys with loop := s.sys.loop.eraseIdx i })
        hinv.table.staticTable hinv.wf D.recirc m
      have herase : ({ s.sys with loop := s.sys.loop.eraseIdx i } : State).Itemized D :=
        ⟨⟨h.carries.cloned, h.carries.answered⟩, fun x hx => h.loop x (List.mem_of_mem_eraseIdx hx),
          h.request, h.write, h.wReply, h.fReply⟩
      exact herase.pass hD hv hD.recirc_listed (fun _ => h.loop m hmem) (fun hne => absurd rfl hne)
        fun hop => absurd hop (h.loop m hmem).2
    | host _ _ htrace hloop hwire huplink =>
      exact h.host hD htrace hloop hwire fun e he => (huplink e he).imp_right And.right
  | begin | skip | insert | evict | place =>
    exact ⟨⟨h.carries.cloned, h.carries.answered⟩, h.loop, h.request, h.write, h.wReply, h.fReply⟩
  | fetch =>
    refine ⟨⟨h.carries.cloned, h.carries.answered⟩, h.loop, ?_, h.write, ?_, ?_⟩
    all_goals
      intro e he hop
      rcases List.mem_append.1 he with he | he
    · exact h.request e he hop
    · rw [List.mem_singleton.1 he] at hop
      exact absurd hop (by decide : opFetch ≠ opWrite)
    · exact h.wReply e he hop
    · rw [List.mem_singleton.1 he] at hop
      exact absurd hop (by decide : opFetch ≠ opWReply)
    · exact h.fReply e he hop
    · rw [List.mem_singleton.1 he] at hop
      exact absurd hop (by decide : opFetch ≠ opFReply)

variable (D) in
/-- Nothing is in flight at the start, and nothing has passed. -/
theorem DynState.itemized_start (regs : Registers) (workers : Endpoint → Worker) :
    (DynState.start regs workers).sys.Itemized D :=
  ⟨⟨fun _ he => (List.not_mem_nil he).elim, fun _ he => (List.not_mem_nil he).elim⟩,
    fun _ hm => (List.not_mem_nil hm).elim, fun _ he => (List.not_mem_nil he).elim,
    fun _ hm => (List.not_mem_nil hm).elim, fun _ he => (List.not_mem_nil he).elim,
    fun _ he => (List.not_mem_nil he).elim⟩

/-- In every run in which the W_REPLYs of cached keys answer WRITEs that found the key cached and no
value is copied by `snprintf`, every cache packet carries its item. -/
theorem carriesItem (hD : D.Wired) {regs : Registers} {workers : Endpoint → Worker}
    (h : Run (dynStep D heapq fetchTo) DynState.Answered (.start regs workers) s) :
    s.sys.CarriesItem D := by
  have hinv : s.Inv D heapq ∧ s.sys.Itemized D :=
    h.invariant (fun s => s.Inv D heapq ∧ s.sys.Itemized D)
      ⟨.start D heapq regs workers, DynState.itemized_start D regs workers⟩
      fun _ _ _ hinv hguard hstep =>
        ⟨hinv.1.step hD hstep, DynState.itemized_step hD hinv.1 hinv.2 hguard hstep⟩
  exact hinv.2.carries

end

/-! ## A WRITE and the round that installs its key -/

/-- The key is installed, and then a client writes it: its WRITE finds the key cached. -/
def cachedWrite : List DynAction :=
  [.begin hotRound, .admitKey, .net (.send clientA true hotKey [byteA] 0), .net (.pass 0),
   .net (.serve 0 []), .net (.pass 0)]

/-- The W_REPLY of a WRITE that found its key cached becomes a cache packet with the item. -/
theorem carriesItem_cachedWrite :
    ∃ s : DynState, (s.sys.trace[1]?.map fun e => (e.hit, e.outputs.map Prod.fst)) =
        some (some 0, [48, 56]) ∧ s.sys.CarriesItem (cluster 8) := by
  have hD : (cluster 8).Wired := cluster_wired (by decide) (by decide)
  have hexec : (Run.exec (dynStep (cluster 8) (.ofSorted HotKey.le) clusterFetchTo)
      (fun s a => decide (s.Answered a)) dynamicStart cachedWrite).any
        (fun s => decide ((s.sys.trace[1]?.map fun e => (e.hit, e.outputs.map Prod.fst)) =
          some (some 0, [48, 56]))) = true := by
    decide +kernel
  obtain ⟨s, hrun, hs⟩ := Run.exists_of_exec (fun _ _ => of_decide_eq_true) _ _ hexec
  rw [← dynamicStart_eq] at hrun
  exact ⟨s, of_decide_eq_true hs, carriesItem hD hrun⟩

/-- A client writes a key that is not cached yet; it is installed before the W_REPLY passes, so the
reply has no value. -/
def lateInsertion : List DynAction :=
  [.net (.send clientA true hotKey [byteA] 0), .net (.pass 0), .begin hotRound, .admitKey,
   .net (.serve 0 []), .net (.pass 0)]

/-- The second packet is a W_REPLY that was cloned onto the loop without the value of its key. -/
def State.IsEmptyClone (D : Deployment) (s : State) : Bool :=
  s.trace[1]?.any fun e => e.port != D.recirc && e.pkt.orbitcache.op == opWReply &&
    e.outputs.any fun o => o.1 == D.recirc && !decide o.2.Complete

/-- Nothing sees to the condition: the value of a WRITE that is under way when its key is installed
is lost. -/
theorem not_carriesItem_lateInsertion :
    ∃ s, Run (dynStep (cluster 8) (.ofSorted HotKey.le) clusterFetchTo) (fun _ _ => True)
        (.start Controller.zeroRegisters fullWorkers) s ∧ ¬ s.sys.CarriesItem (cluster 8) := by
  have hexec : (Run.exec (dynStep (cluster 8) (.ofSorted HotKey.le) clusterFetchTo)
      (fun _ _ => true) dynamicStart lateInsertion).any
        (fun s => s.sys.IsEmptyClone (cluster 8)) = true := by
    decide +kernel
  obtain ⟨s, hrun, hs⟩ := Run.exists_of_exec_true _ _ hexec
  rw [← dynamicStart_eq] at hrun
  refine ⟨s, hrun, fun hcarries => ?_⟩
  simp only [State.IsEmptyClone, Option.any_eq_true, Bool.and_eq_true, bne_iff_ne, beq_iff_eq,
    List.any_eq_true, Bool.not_eq_true', decide_eq_false_iff_not] at hs
  obtain ⟨e, he, ⟨hport, hop⟩, o, ho, hrecirc, hincomplete⟩ := hs
  refine hincomplete (hcarries.cloned e (List.mem_of_getElem? he) ⟨hport, .inl hop⟩ o.2 ?_)
  rw [← hrecirc]
  exact ho

end OrbitCache
