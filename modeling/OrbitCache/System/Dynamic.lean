import OrbitCache.Controller.Dynamic
import OrbitCache.Controller.Fetch
import OrbitCache.System.Flow

/-!
# The system with the dynamic controller

The steps of the dynamic controller, interleaved with those of the system. A packet may pass between
any two operations of the controller on the lookup table, so an eviction is two steps, and a fetch
leaves at any time after its key was installed. `DynState.Inv` is what holds of the table and the
registers in every state; `DynState.roundSteps` connects the steps to `Controller.round`.
-/

namespace OrbitCache

open Controller (LookupTable numHotkey StaticTable HotKey RoundState RoundInput Str
  LookupConsistent hkey insertKey evictLeast placeKey)

/-- A packet that passed the switch, with the registers before and after it, as the log of a run
keeps them. -/
structure Pass extends Event where
  before : Registers
  after : Registers

/-- An eviction between `table_del` and `table_add`: the hot key that goes, its index, and the
reported key that is to get the index. -/
structure Placing where
  least : HotKey
  idx : Nat
  key : Str
  popularity : Nat

/-- An entry that was added to the lookup table, with the number of packets that had passed by then.
-/
structure Install where
  /-- The number of packets that had passed the switch. -/
  time : Nat
  hkey : Hkey

/-- The system and the variables of the controller, which works on its round while packets pass the
switch. -/
structure DynState where
  sys : State
  previousHotkeyList : List HotKey
  round : RoundState
  /-- The reported keys that the round has not reached yet. -/
  todo : List (Sigma fun _ : Str => Nat)
  placing : Option Placing
  /-- The keys with a fetch thread. -/
  fetches : List Str
  /-- What passed the switch, oldest first. -/
  log : List Pass
  installs : List Install

/-- The steps of the system with the controller. A round is cut at every table operation, so packets
may pass between any two of them. -/
inductive DynAction where
  /-- A step of the system. -/
  | net (a : Action)
  /-- The controller starts a round. -/
  | begin (inp : RoundInput)
  /-- The controller takes the next reported key, up to the `table_del` of an eviction. -/
  | admitKey
  /-- The controller goes on with an eviction. -/
  | place
  /-- A fetch thread sends its packet. -/
  | fetch (key : Str) (port : BitVec 16)

/-- The address of the controller. -/
def controllerIp : BitVec 32 := 0x0A00016F

section
variable (D : Deployment) (heapq : Heapq HotKey HotKey.le) (fetchTo : Str → Endpoint)

namespace DynState

/-- The variables of the controller, as a round takes them and as it leaves them. -/
def controller (s : DynState) : Controller.ControllerState :=
  ⟨s.round.hotkeyList, s.round.cacheIdx, s.round.available, s.round.lookup⟩

/-- What a step of the system adds to the log: the packet of the step, if one passed the switch. -/
def passed (s : DynState) (sys : State) : DynState :=
  { s with
    sys := sys
    log := s.log ++ (sys.trace.drop s.sys.trace.length).map fun e => ⟨e, s.sys.regs, sys.regs⟩ }

/-- The round after `table_add`, and the fetch thread that is started for the key. -/
def install (s : DynState) (r : RoundState) (key : Str) : DynState :=
  { s with
    sys.lookup := r.lookup
    round := r
    fetches := s.fetches ++ [key]
    installs := s.installs ++ [⟨s.log.length, hkey key⟩] }

/-- The start of a round: the heap is rebuilt from the counters of the cached keys, and the reported
keys are those of `un_cached_key_popularity`. -/
def begin (s : DynState) (inp : RoundInput) : Option DynState := do
  let cached ← Controller.readPopularity s.controller inp.cacheCounter
  pure { s with
    previousHotkeyList := s.round.hotkeyList
    round := { s.round with hotkeyList := Controller.rebuild heapq cached, decisions := [] }
    todo := inp.unCachedKeyPopularity.entries }

/-- One reported key, which is skipped, gets a free index, or replaces the least popular hot key; in
the last case the step ends after `table_del`. -/
def admitKey (s : DynState) : Option DynState :=
  match s.todo with
  | [] => none
  | e :: todo =>
    let s := { s with todo := todo }
    if e.1 ∈ s.previousHotkeyList.map Prod.snd then some s
    else if s.round.hotkeyList.length < numHotkey then do
      let r ← insertKey heapq s.round e.1 e.2
      pure (s.install r e.1)
    else match s.round.hotkeyList.head? with
      | none => none
      | some least =>
        if e.2 > least.1 then do
          let (r, least, idx) ← evictLeast heapq s.round
          pure { s with
            sys.lookup := r.lookup
            round := r
            placing := some ⟨least, idx, e.1, e.2⟩ }
        else some s

/-- The rest of an eviction: the index goes to the new key and `table_add` installs it. -/
def place (s : DynState) : Option DynState := do
  let p ← s.placing
  let r ← placeKey heapq s.round p.least p.idx p.key p.popularity
  pure ({ s with placing := none }.install r p.key)

/-- A fetch thread sends its packet from a port of its own to the worker that owns the key. -/
def sendFetch (s : DynState) (p : BitVec 9) (key : Str) (port : BitVec 16) : DynState :=
  let m := Controller.fetchMessage ⟨controllerIp, port⟩ (fetchTo key) key
  { s with sys := s.sys.emit p m }

/-- The state before the first message: the controller has cleared the table and zeroed the
registers, and all its indices are free. -/
def start (regs : Registers) (workers : Endpoint → Worker) : DynState where
  sys := .start regs ∅ workers
  previousHotkeyList := []
  round := ⟨[], ∅, Finset.range Controller.maxHotkey, ∅, []⟩
  todo := []
  placing := none
  fetches := []
  log := []
  installs := []

end DynState

/-- One step of the system with the controller. A round starts when the last one is over, and an
eviction is completed before the next key. -/
def dynStep (s : DynState) : DynAction → Option DynState
  | .net a => do
    let sys ← step D s.sys a
    pure (s.passed sys)
  | .begin inp => do
    guard (s.todo.isEmpty ∧ s.placing.isNone)
    s.begin heapq inp
  | .admitKey => do
    guard s.placing.isNone
    s.admitKey heapq
  | .place => s.place heapq
  | .fetch key port => do
    guard (key ∈ s.fetches)
    let p ← D.tables.ingress controllerIp
    pure (s.sendFetch fetchTo p key port)

/-- What each step does, with the branches of a reported key told apart. -/
inductive DynCase (s : DynState) : DynAction → DynState → Prop
  | net {a sys} : step D s.sys a = some sys → DynCase s (.net a) (s.passed sys)
  | begin {inp cached} : s.placing = none →
      Controller.readPopularity s.controller inp.cacheCounter = some cached →
      DynCase s (.begin inp) { s with
        previousHotkeyList := s.round.hotkeyList
        round := { s.round with hotkeyList := Controller.rebuild heapq cached, decisions := [] }
        todo := inp.unCachedKeyPopularity.entries }
  | skip {todo} : s.placing = none → DynCase s .admitKey { s with todo := todo }
  | insert {todo key popularity r} : s.placing = none → s.round.hotkeyList.length < numHotkey →
      insertKey heapq s.round key popularity = some r →
      DynCase s .admitKey ({ s with todo := todo }.install r key)
  | evict {todo head key popularity r least idx} : s.placing = none →
      numHotkey ≤ s.round.hotkeyList.length → s.round.hotkeyList.head? = some head →
      head.1 < popularity → evictLeast heapq s.round = some (r, least, idx) →
      DynCase s .admitKey { s with
        todo := todo
        sys.lookup := r.lookup
        round := r
        placing := some ⟨least, idx, key, popularity⟩ }
  | place {p r} : s.placing = some p →
      placeKey heapq s.round p.least p.idx p.key p.popularity = some r →
      DynCase s .place ({ s with placing := none }.install r p.key)
  | fetch {key port p} : D.tables.ingress controllerIp = some p →
      DynCase s (.fetch key port) (s.sendFetch fetchTo p key port)

end

section
variable {D : Deployment} {heapq : Heapq HotKey HotKey.le} {fetchTo : Str → Endpoint}
variable {s s' : DynState}

/-- Every step is one of these, with the conditions that the step has tested. -/
theorem dynStep_case {a : DynAction} (h : dynStep D heapq fetchTo s a = some s') :
    DynCase D heapq fetchTo s a s' := by
  cases a with
  | net a =>
    obtain ⟨sys, hsys, h⟩ := Option.bind_eq_some_iff.1 h
    cases h
    exact .net hsys
  | begin inp =>
    obtain ⟨_, hguard, h⟩ := Option.bind_eq_some_iff.1 h
    obtain ⟨-, hplacing⟩ := (Option.guard_eq_some' _).1 hguard
    obtain ⟨cached, hcached, h⟩ := Option.bind_eq_some_iff.1 h
    cases h
    exact .begin (Option.isNone_iff_eq_none.1 hplacing) hcached
  | admitKey =>
    obtain ⟨_, hguard, h⟩ := Option.bind_eq_some_iff.1 h
    have hplacing := Option.isNone_iff_eq_none.1 ((Option.guard_eq_some' _).1 hguard)
    unfold DynState.admitKey at h
    split at h
    · cases h
    · dsimp only at h
      split at h
      · cases h
        exact .skip hplacing
      · split at h
        · next hlen =>
          obtain ⟨r, hr, h⟩ := Option.bind_eq_some_iff.1 h
          cases h
          exact .insert hplacing hlen hr
        · next hlen =>
          split at h
          · cases h
          · next hhead =>
            split at h
            · next hpop =>
              obtain ⟨⟨r, least, idx⟩, hr, h⟩ := Option.bind_eq_some_iff.1 h
              cases h
              exact .evict hplacing (Nat.not_lt.1 hlen) hhead hpop hr
            · cases h
              exact .skip hplacing
  | place =>
    obtain ⟨p, hp, h⟩ := Option.bind_eq_some_iff.1 h
    obtain ⟨r, hr, h⟩ := Option.bind_eq_some_iff.1 h
    cases h
    exact .place hp hr
  | fetch key port =>
    obtain ⟨_, -, h⟩ := Option.bind_eq_some_iff.1 h
    obtain ⟨p, hp, h⟩ := Option.bind_eq_some_iff.1 h
    cases h
    exact .fetch hp

end

/-! ## Packets and their verdicts -/

section
variable {D : Deployment} {s s' : State} {port : BitVec 9} {m : Message} {v : Verdict}

/-- The messages the hosts send: requests and corrections of clients, replies of workers, and the
install packets of the controller. -/
inductive Emitted (D : Deployment) (s : State) : Message → Prop
  | request {client op seq key value latency} : D.isClient client = true →
      op = opRead ∨ op = opWrite ∨ op = opCrctn →
      Emitted D s (Client.request D.hash D.dest client op seq key value latency)
  | reply {m junk w h b} : m ∈ s.wire → D.isServer m.target = true →
      Worker.HandleCase D.hash (s.workers m.target) junk m.orbitcache m.payload w (some (h, b)) →
      Emitted D s (datagram m.target m.source h b)
  | preload {src target key value} : Emitted D s (preloadMessage D.hash src target key value)

/-- A step passes one packet through the switch, or is one of a host, which may take messages off
the channels and send one. It is what the lemmas about the controller need to know of a step of the
network. -/
inductive NetCase (D : Deployment) (s : State) : Action → State → Prop
  | pass {i port m} : s.uplink[i]? = some (port, m) →
      NetCase D s (.pass i) ({ s with uplink := s.uplink.eraseIdx i }.pass D port m)
  | recirculate {i m} : s.loop[i]? = some m →
      NetCase D s (.recirculate i) ({ s with loop := s.loop.eraseIdx i }.pass D D.recirc m)
  | host {a s'} : s'.regs = s.regs → s'.lookup = s.lookup → s'.trace = s.trace →
      s'.loop = s.loop → s'.wire ⊆ s.wire →
      (∀ e ∈ s'.uplink, e ∈ s.uplink ∨
        (∃ ip, D.tables.ingress ip = some e.1) ∧ Emitted D s e.2) →
      NetCase D s a s'

/-- Every step of the network is in one of the cases. -/
theorem step_netCase {a : Action} (h : step D s a = some s') : NetCase D s a s' := by
  have hconcat : ∀ {l : List (BitVec 9 × Message)} {ip : BitVec 32} {port : BitVec 9} {m : Message},
      D.tables.ingress ip = some port → Emitted D s m → ∀ e ∈ l ++ [(port, m)],
        e ∈ l ∨ (∃ ip, D.tables.ingress ip = some e.1) ∧ Emitted D s e.2 := by
    intro l ip port m hport hm e he
    rcases List.mem_append.1 he with he | he
    · exact .inl he
    · rw [List.mem_singleton.1 he]
      exact .inr ⟨⟨ip, hport⟩, hm⟩
  cases step_case h with
  | pass hm => exact .pass hm
  | recirculate hm => exact .recirculate hm
  | @send client isWrite key value latency port hclient _ hport =>
    refine .host rfl rfl rfl rfl (List.Subset.refl _) (hconcat hport ?_)
    cases isWrite with
    | false => exact .request hclient (.inl rfl)
    | true => exact .request hclient (.inr (.inl rfl))
  | reply hm hserver hcase hport =>
    exact .host rfl rfl rfl rfl List.eraseIdx_subset
      (hconcat hport (.reply (List.mem_of_getElem? hm) hserver hcase))
  | ignore | receive => exact .host rfl rfl rfl rfl List.eraseIdx_subset fun e he => .inl he
  | correct hm hclient hrx hport =>
    obtain ⟨-, -, key, -, -, rfl⟩ := Client.rx_some hrx
    exact .host rfl rfl rfl rfl List.eraseIdx_subset
      (hconcat hport (.request hclient (.inr (.inr rfl))))
  | preload hport =>
    exact .host rfl rfl rfl rfl (List.Subset.refl _) (hconcat hport .preload)

/-- A pass, as its verdict says, whatever the packet is: the registers of every index and the copies
that leave the switch. -/
structure State.Judged (D : Deployment) (s : State) (port : BitVec 9) (m : Message)
    (v : Verdict) : Prop where
  case : VerdictCase (s.tables D) port s.regs.line m v
  wf : (s.pass D port m).regs.WFBelow numHotkey
  line : ∀ c, c.toNat < numHotkey →
    (s.pass D port m).regs.line c = v.lines m.entry s.regs.line c
  outputs : s.outputs D port m =
    (v.outputs (s.tables D) port m).map fun o => (o.1, o.2.stamped s.trace.length)

/-- Every packet gets a verdict, since the table gives only indices below `NUM_HOTKEY` and the
registers are well formed. -/
theorem State.judged (htable : StaticTable s.lookup) (hwf : s.regs.WFBelow numHotkey)
    (port : BitVec 9) (m : Message) : ∃ v, s.Judged D port m v := by
  have ht : (s.tables D).IndexBelow numHotkey := htable.indexBelow D.tables
  obtain ⟨v, hv, hpass⟩ := switchPass_cases port m ht hwf
  have hregs : (s.pass D port m).regs = v.regs s.regs m := by rw [State.pass, hpass]
  refine ⟨v, hv, ?_, fun c hc => ?_, ?_⟩
  · rw [hregs]
    exact hv.regs_wfBelow hwf
  · rw [hregs]
    exact hv.line_regs ht (by decide) hwf hc
  · rw [State.outputs, hpass]

/-- The copies of a packet from a listed port, by the port they leave on: those on the recirculation
port are the recirculated ones, and the others go to hosts. -/
theorem VerdictCase.mem_outputs (hD : D.Wired) (hport : D.Listed port)
    (hv : VerdictCase (s.tables D) port s.regs.line m v) {o : BitVec 9 × Message}
    (ho : o ∈ v.outputs (s.tables D) port m) :
    (o.1 = D.recirc → o.2 ∈ v.recirculated (s.tables D) port m) ∧
      (o.1 ≠ D.recirc → o.2 ∈ v.delivered (s.tables D) port m) := by
  have hroute : ∀ {dst : BitVec 32} {x : Message}, o ∈ route (s.tables D) dst x →
      o.1 ≠ D.recirc ∧ o.2 = x := by
    intro dst x hmem
    obtain ⟨p, hp, rfl⟩ := List.mem_map.1 hmem
    exact ⟨(hD.host dst p (Option.mem_toList.1 hp)).1, rfl⟩
  have hmulticast : ∀ {g : Option (BitVec 16)} {x : Message},
      o ∈ multicast (s.tables D) g x → o.2 = x := by
    intro g x hmem
    obtain ⟨p, -, rfl⟩ := List.mem_map.1 hmem
    rfl
  have hif : ∀ {b : Bool} {l : List (BitVec 9 × Message)},
      o ∈ (if b = true then [] else l) → o ∈ l := by
    intro b l hmem
    cases b with
    | true => cases hmem
    | false => exact hmem
  cases hv with
  | plain | bypass | uncached =>
    obtain ⟨hne, hx⟩ := hroute ho
    exact ⟨fun heq => absurd heq hne, fun _ => List.mem_singleton.2 hx⟩
  | overflow | forward | invalidate =>
    obtain ⟨hne, hx⟩ := hroute (hif ho)
    exact ⟨fun heq => absurd heq hne, fun _ => List.mem_singleton.2 hx⟩
  | absorb | discard => cases ho
  | serve | clone =>
    have hx := hmulticast ho
    exact ⟨fun _ => List.mem_singleton.2 hx, fun _ => List.mem_singleton.2 hx⟩
  | idle _ _ hp =>
    obtain rfl := List.mem_singleton.1 (hif ho)
    have heq : port = D.recirc := eq_recirc_of_onLoop hport hp
    exact ⟨fun _ => List.mem_singleton_self _, fun hne => absurd heq hne⟩

/-- A copy of a judged packet, with its mark removed, is one its verdict lists. -/
theorem State.Judged.mem_outputs (hD : D.Wired) (hv : s.Judged D port m v) (hport : D.Listed port)
    {o : BitVec 9 × Message} (ho : o ∈ s.outputs D port m) :
    ∃ x, o.2 = x.stamped s.trace.length ∧
      (o.1 = D.recirc → x ∈ v.recirculated (s.tables D) port m) ∧
      (o.1 ≠ D.recirc → x ∈ v.delivered (s.tables D) port m) := by
  rw [hv.outputs] at ho
  obtain ⟨o', ho', rfl⟩ := List.mem_map.1 ho
  exact ⟨o'.2, rfl, hv.case.mem_outputs hD hport ho'⟩

/-- What is on the loop after a pass was there before, or is a recirculated copy of the packet. -/
theorem State.Judged.mem_loop (hD : D.Wired) (hv : s.Judged D port m v) (hport : D.Listed port)
    {y : Message} (hy : y ∈ (s.pass D port m).loop) :
    y ∈ s.loop ∨ ∃ x ∈ v.recirculated (s.tables D) port m, y = x.stamped s.trace.length := by
  rcases List.mem_append.1 hy with hy | hy
  · exact .inl hy
  · obtain ⟨o, ho, rfl⟩ := List.mem_map.1 hy
    obtain ⟨ho, hrecirc⟩ := List.mem_filter.1 ho
    obtain ⟨x, hx, hmem, -⟩ := hv.mem_outputs hD hport ho
    exact .inr ⟨x, hmem (of_decide_eq_true hrecirc), hx⟩

/-- What is on the wire after a pass was there before, or is a copy of the packet for a host. -/
theorem State.Judged.mem_wire (hD : D.Wired) (hv : s.Judged D port m v) (hport : D.Listed port)
    {y : Message} (hy : y ∈ (s.pass D port m).wire) :
    y ∈ s.wire ∨ ∃ x ∈ v.delivered (s.tables D) port m, y = x.stamped s.trace.length := by
  rcases List.mem_append.1 hy with hy | hy
  · exact .inl hy
  · obtain ⟨o, ho, rfl⟩ := List.mem_map.1 hy
    obtain ⟨ho, hne⟩ := List.mem_filter.1 ho
    obtain ⟨x, hx, -, hmem⟩ := hv.mem_outputs hD hport ho
    exact .inr ⟨x, hmem (of_decide_eq_true hne), hx⟩

end

/-! ## The table and the registers -/

section
variable (D : Deployment) (heapq : Heapq HotKey HotKey.le)

/-- What holds in every state: the table of the switch is that of the controller, which gives each
hot key an index of its own; the registers are well formed; and messages enter the switch on the
ports of hosts. In the middle of an eviction the index of the key that goes is reserved. -/
structure DynState.Inv (s : DynState) : Prop where
  wf : s.sys.regs.WFBelow numHotkey
  lookup : s.sys.lookup = s.round.lookup
  heap : heapq.IsHeap s.round.hotkeyList
  idle : s.placing = none → s.round.Consistent
  placing : ∀ p, s.placing = some p → s.round.Reserved p.idx
  uplink : ∀ e ∈ s.sys.uplink, D.Listed e.1 ∧ e.1 ≠ D.recirc

end

section
variable {D : Deployment} {heapq : Heapq HotKey HotKey.le} {fetchTo : Str → Endpoint}
variable {s s' : DynState}

/-- In both phases of the controller the table of the switch is consistent with its variables. -/
theorem DynState.Inv.table (h : s.Inv D heapq) :
    LookupConsistent s.round.keys s.round.cacheIdx s.sys.lookup := by
  rw [h.lookup]
  cases hp : s.placing with
  | none => exact (h.idle hp).toLookupConsistent
  | some p => exact (h.placing p hp).toLookupConsistent

/-- A step of the system keeps the invariant: it changes no variable of the controller, and the
registers stay well formed. -/
theorem DynState.Inv.passed (hD : D.Wired) (h : s.Inv D heapq) {a : Action} {sys : State}
    (hstep : step D s.sys a = some sys) : (s.passed sys).Inv D heapq := by
  cases step_netCase hstep with
  | @pass i port m =>
    obtain ⟨v, hv⟩ := State.judged (D := D) (s := { s.sys with uplink := s.sys.uplink.eraseIdx i })
      h.table.staticTable h.wf port m
    exact ⟨hv.wf, h.lookup, h.heap, h.idle, h.placing,
      fun e he => h.uplink e (List.mem_of_mem_eraseIdx he)⟩
  | @recirculate i m =>
    obtain ⟨v, hv⟩ := State.judged (D := D) (s := { s.sys with loop := s.sys.loop.eraseIdx i })
      h.table.staticTable h.wf D.recirc m
    exact ⟨hv.wf, h.lookup, h.heap, h.idle, h.placing, h.uplink⟩
  | host hregs hlookup _ _ _ huplink =>
    refine ⟨?_, hlookup.trans h.lookup, h.heap, h.idle, h.placing, fun e he => ?_⟩
    · show sys.regs.WFBelow numHotkey
      rw [hregs]
      exact h.wf
    · rcases huplink e he with he | ⟨⟨ip, hip⟩, -⟩
      · exact h.uplink e he
      · exact (hD.ingress hip).2

/-- Every step keeps the invariant, by the cases of a step. -/
theorem DynState.Inv.step (hD : D.Wired) (h : s.Inv D heapq) {a : DynAction}
    (hstep : dynStep D heapq fetchTo s a = some s') : s'.Inv D heapq := by
  cases dynStep_case hstep with
  | net hsys => exact h.passed hD hsys
  | begin hplacing hcached =>
    have hcons := h.idle hplacing
    obtain ⟨cached', hcached', hperm, hheap⟩ := Controller.readPopularity_rebuild heapq
      (s := s.controller) hcons.toLookupConsistent _
    rw [hcached, Option.some.injEq] at hcached'
    subst hcached'
    refine ⟨h.wf, h.lookup, hheap, fun _ => hcons.perm hperm, fun p hp => ?_, h.uplink⟩
    have hp : s.placing = some p := hp
    rw [hplacing] at hp
    cases hp
  | skip hplacing => exact ⟨h.wf, h.lookup, h.heap, h.idle, h.placing, h.uplink⟩
  | @insert _ _ _ r hplacing hlen hr =>
    obtain ⟨r', hr', hcons, -, hpush, -, -⟩ := (h.idle hplacing).insertKey heapq
      (Controller.insertKey_fresh heapq hr) hlen _
    rw [hr, Option.some.injEq] at hr'
    subst hr'
    have hheap : heapq.IsHeap r.hotkeyList := hpush ▸ heapq.isHeap_heappush h.heap
    refine ⟨h.wf, rfl, hheap, fun _ => hcons, fun p hp => ?_, h.uplink⟩
    have hp : s.placing = some p := hp
    rw [hplacing] at hp
    cases hp
  | evict hplacing hlen hhead _ hr =>
    obtain ⟨r', idx', hr', hres, -, hheap, -⟩ :=
      (h.idle hplacing).evictLeast heapq h.heap hlen hhead
    rw [hr, Option.some.injEq] at hr'
    cases hr'
    refine ⟨h.wf, rfl, hheap, fun hnone => ?_, fun p hp => ?_, h.uplink⟩
    · cases hnone
    · cases hp
      exact hres
  | @place p r hplacing hr =>
    obtain ⟨r', hr', hcons, -, hpush, -, -⟩ := (h.placing _ hplacing).placeKey heapq
      (Controller.placeKey_fresh heapq hr) p.least _
    rw [hr, Option.some.injEq] at hr'
    subst hr'
    have hheap : heapq.IsHeap r.hotkeyList := hpush ▸ heapq.isHeap_heappush h.heap
    refine ⟨h.wf, rfl, hheap, fun _ => hcons, fun p hp => ?_, h.uplink⟩
    cases hp
  | fetch hp =>
    refine ⟨h.wf, h.lookup, h.heap, h.idle, h.placing, fun e he => ?_⟩
    rcases List.mem_append.1 he with he | he
    · exact h.uplink e he
    · rw [List.mem_singleton.1 he]
      exact (hD.ingress hp).2

variable (D heapq) in
/-- It holds at the start, with an empty table and nothing in flight. -/
theorem DynState.Inv.start (regs : Registers) (workers : Endpoint → Worker) :
    (DynState.start regs workers).Inv D heapq where
  wf := Controller.initRegisters_wfBelow regs
  lookup := rfl
  heap := heapq.isHeap_nil
  idle _ := Controller.consistent_init
  placing _ := nofun
  uplink _ he := by cases he

end

/-! ## Rounds as steps -/

/-- A step of the controller that works on a round, so that no packet passes. -/
def DynAction.IsControl : DynAction → Prop
  | .begin _ | .admitKey | .place => True
  | .net _ | .fetch .. => False

/-- The key a decision installs, whether it gets a free index or that of another key. -/
def Controller.Decision.key : Controller.Decision → Str
  | .insert key _ => key
  | .evict _ _ key _ _ => key

namespace DynState

/-- The state after the controller made some decisions: each has installed an entry and started a
fetch thread. -/
def admitted (s : DynState) (r : RoundState) (todo : List (Sigma fun _ : Str => Nat))
    (ds : List Controller.Decision) : DynState :=
  { s with
    sys.lookup := r.lookup
    round := r
    todo := todo
    fetches := s.fetches ++ ds.map Controller.Decision.key
    installs := s.installs ++ ds.map fun d => ⟨s.log.length, hkey d.key⟩ }

section
variable {D : Deployment} {heapq : Heapq HotKey HotKey.le} {fetchTo : Str → Endpoint}
variable {s : DynState} {e : Sigma fun _ : Str => Nat} {todo : List (Sigma fun _ : Str => Nat)}

/-- Nothing was decided, so only the list of reported keys is shorter. -/
theorem admitted_nil (hsync : s.sys.lookup = s.round.lookup)
    (todo : List (Sigma fun _ : Str => Nat)) :
    s.admitted s.round todo [] = { s with todo := todo } := by
  simp only [admitted, List.map_nil, List.append_nil, ← hsync]

/-- A reported key that is new to the heap and finds a free index is installed in one step. -/
theorem dynStep_insert (hplacing : s.placing = none) (htodo : s.todo = e :: todo)
    (hprev : e.1 ∉ s.previousHotkeyList.map Prod.snd)
    (hlen : s.round.hotkeyList.length < numHotkey) {r : RoundState}
    (hr : insertKey heapq s.round e.1 e.2 = some r) :
    dynStep D heapq fetchTo s .admitKey = some ({ s with todo := todo }.install r e.1) := by
  simp only [dynStep, DynState.admitKey, hplacing, htodo, if_neg hprev, if_pos hlen, hr,
    Option.isNone_none, guard_true, Option.pure_def, Option.bind_eq_bind, Option.bind_some]

/-- A reported key that stays out, being a hot key of the last round or no more popular than the
least of a full heap. -/
theorem dynStep_skip (hplacing : s.placing = none) (htodo : s.todo = e :: todo)
    (h : e.1 ∈ s.previousHotkeyList.map Prod.snd ∨ ¬ s.round.hotkeyList.length < numHotkey ∧
      ∃ least, s.round.hotkeyList.head? = some least ∧ ¬ e.2 > least.1) :
    dynStep D heapq fetchTo s .admitKey = some { s with todo := todo } := by
  simp only [dynStep, DynState.admitKey, hplacing, htodo, Option.isNone_none, guard_true,
    Option.pure_def, Option.bind_eq_bind, Option.bind_some]
  by_cases hprev : e.1 ∈ s.previousHotkeyList.map Prod.snd
  · rw [if_pos hprev]
  · obtain ⟨hlen, least, hleast, hpop⟩ := h.resolve_left hprev
    rw [if_neg hprev, if_neg hlen, hleast]
    dsimp only
    rw [if_neg hpop]

/-- The first half of an eviction: the least popular hot key leaves the heap and the table, and the
system stops before `table_add`. -/
theorem dynStep_evict (hplacing : s.placing = none) (htodo : s.todo = e :: todo)
    (hprev : e.1 ∉ s.previousHotkeyList.map Prod.snd)
    (hlen : ¬ s.round.hotkeyList.length < numHotkey) {head least : HotKey}
    (hhead : s.round.hotkeyList.head? = some head) (hpop : e.2 > head.1) {r : RoundState}
    {idx : Nat} (hr : evictLeast heapq s.round = some (r, least, idx)) :
    dynStep D heapq fetchTo s .admitKey = some { s with
      todo := todo
      sys.lookup := r.lookup
      round := r
      placing := some ⟨least, idx, e.1, e.2⟩ } := by
  simp only [dynStep, DynState.admitKey, hplacing, htodo, Option.isNone_none, guard_true,
    Option.pure_def, Option.bind_eq_bind, Option.bind_some]
  rw [if_neg hprev, if_neg hlen, hhead]
  dsimp only
  rw [if_pos hpop, hr]
  rfl

variable (D fetchTo) in
/-- The steps for one reported key do what `Controller.admitKey` does in one call: one step, or the
two halves of an eviction. -/
theorem run_admitKey (hsync : s.sys.lookup = s.round.lookup) (hplacing : s.placing = none)
    (htodo : s.todo = e :: todo) {r : RoundState}
    (hr : Controller.admitKey heapq s.previousHotkeyList s.round e.1 e.2 = some r) :
    ∃ ds, r.decisions = s.round.decisions ++ ds ∧
      Run (dynStep D heapq fetchTo) (fun _ a => a.IsControl) s (s.admitted r todo ds) := by
  have hskip : dynStep D heapq fetchTo s .admitKey = some { s with todo := todo } →
      ∃ ds, s.round.decisions = s.round.decisions ++ ds ∧ Run (dynStep D heapq fetchTo)
        (fun _ a => a.IsControl) s (s.admitted s.round todo ds) := by
    intro hstep
    refine ⟨[], (List.append_nil _).symm, ?_⟩
    rw [admitted_nil hsync]
    exact Relation.ReflTransGen.single ⟨.admitKey, trivial, hstep⟩
  unfold Controller.admitKey at hr
  split at hr
  · next hprev =>
    cases hr
    exact hskip (dynStep_skip hplacing htodo (.inl hprev))
  · next hprev =>
    split at hr
    · next hlen =>
      obtain ⟨idx, hdecisions⟩ := Controller.insertKey_decisions heapq hr
      have hstep : dynStep D heapq fetchTo s .admitKey = _ :=
        dynStep_insert hplacing htodo hprev hlen hr
      exact ⟨_, hdecisions, Relation.ReflTransGen.single ⟨.admitKey, trivial, hstep⟩⟩
    · next hlen =>
      split at hr
      · cases hr
      · next head hhead =>
        split at hr
        · next hpop =>
          obtain ⟨⟨r₁, least, idx⟩, hevict, hplace⟩ := Option.bind_eq_some_iff.1 hr
          refine ⟨_, Controller.evictKey_decisions heapq hevict hplace, ?_⟩
          have hstep : dynStep D heapq fetchTo s .admitKey = _ :=
            dynStep_evict hplacing htodo hprev hlen hhead hpop hevict
          refine Relation.ReflTransGen.tail
            (Relation.ReflTransGen.single ⟨.admitKey, trivial, hstep⟩) ⟨.place, trivial, ?_⟩
          simp only [dynStep, DynState.place, Option.bind_eq_bind, Option.bind_some, hplace,
            Option.pure_def]
          rw [← hplacing]
          rfl
        · next hpop =>
          cases hr
          exact hskip (dynStep_skip hplacing htodo (.inr ⟨hlen, head, hhead, hpop⟩))

variable (D heapq fetchTo) in
/-- The steps for the reported keys do what the loop over them does, by induction on the list. -/
theorem run_admitKeys {l : List (Sigma fun _ : Str => Nat)} {s : DynState}
    (hsync : s.sys.lookup = s.round.lookup) (hplacing : s.placing = none) (htodo : s.todo = l)
    {r : RoundState}
    (hr : l.foldlM (fun r e => Controller.admitKey heapq s.previousHotkeyList r e.1 e.2) s.round =
      some r) :
    ∃ ds, r.decisions = s.round.decisions ++ ds ∧
      Run (dynStep D heapq fetchTo) (fun _ a => a.IsControl) s (s.admitted r [] ds) := by
  induction l generalizing s with
  | nil =>
    cases hr
    refine ⟨[], (List.append_nil _).symm, ?_⟩
    rw [admitted_nil hsync, ← htodo]
    exact .refl
  | cons e l ih =>
    rw [List.foldlM_cons] at hr
    obtain ⟨r₁, hr₁, hr⟩ := Option.bind_eq_some_iff.1 hr
    obtain ⟨ds₁, hds₁, hrun₁⟩ := run_admitKey D fetchTo hsync hplacing htodo hr₁
    obtain ⟨ds₂, hds₂, hrun₂⟩ := ih (s := s.admitted r₁ l ds₁) rfl hplacing rfl hr
    have hds₂ : r.decisions = r₁.decisions ++ ds₂ := hds₂
    refine ⟨ds₁ ++ ds₂, by rw [hds₂, hds₁, List.append_assoc], ?_⟩
    have hadmitted : (s.admitted r₁ l ds₁).admitted r [] ds₂ = s.admitted r [] (ds₁ ++ ds₂) := by
      simp only [admitted, List.map_append, List.append_assoc]
    rw [← hadmitted]
    exact hrun₁.trans hrun₂

/-- Without packets in between, the steps of the controller do what a round does, so that a result
about every interleaving is also one about rounds as they are written. -/
theorem run_round (hsync : s.sys.lookup = s.round.lookup) (hplacing : s.placing = none)
    (htodo : s.todo = []) {inp : RoundInput} {c : Controller.ControllerState}
    {ds : List Controller.Decision}
    (hround : Controller.round heapq s.controller inp = some (c, ds)) :
    ∃ s', Run (dynStep D heapq fetchTo) (fun _ a => a.IsControl) s s' ∧ s'.controller = c ∧
      s'.sys = { s.sys with lookup := c.lookup } ∧ s'.round.decisions = ds ∧ s'.todo = [] ∧
      s'.placing = none ∧
      s'.installs = s.installs ++ ds.map fun d => ⟨s.log.length, hkey d.key⟩ := by
  obtain ⟨cached, hcached, hround⟩ := Option.bind_eq_some_iff.1 hround
  obtain ⟨r, hr, hround⟩ := Option.bind_eq_some_iff.1 hround
  cases hround
  have hbegin : dynStep D heapq fetchTo s (.begin inp) = some { s with
      previousHotkeyList := s.round.hotkeyList
      round := { s.round with hotkeyList := Controller.rebuild heapq cached, decisions := [] }
      todo := inp.unCachedKeyPopularity.entries } := by
    simp [dynStep, DynState.begin, htodo, hplacing, hcached]
  obtain ⟨ds, hds, hrun⟩ := run_admitKeys D heapq fetchTo
    (s := { s with
      previousHotkeyList := s.round.hotkeyList
      round := { s.round with hotkeyList := Controller.rebuild heapq cached, decisions := [] }
      todo := inp.unCachedKeyPopularity.entries }) hsync hplacing rfl hr
  rw [List.nil_append] at hds
  refine ⟨_, Relation.ReflTransGen.head ⟨.begin inp, trivial, hbegin⟩ hrun, rfl, rfl, rfl, rfl,
    hplacing, ?_⟩
  rw [hds]
  rfl

/-- The state after reported keys found free indices, with the heap, the indices and the table
written out. -/
def inserted (s : DynState) (heapq : Heapq HotKey HotKey.le)
    (l todo : List (Sigma fun _ : Str => Nat)) (t : LookupTable) : DynState :=
  let n := s.round.hotkeyList.length
  { s with
    sys.lookup := t
    round :=
      { hotkeyList := (l.map fun e => (e.2, e.1)).foldl heapq.heappush s.round.hotkeyList
        cacheIdx :=
          ((l.map Sigma.fst).zipIdx n).foldl (fun d e => d.insert e.1 e.2) s.round.cacheIdx
        available := Finset.Ico (n + l.length) Controller.maxHotkey
        lookup := t
        decisions :=
          s.round.decisions ++ ((l.map Sigma.fst).zipIdx n).map fun e => .insert e.1 e.2 }
    todo := todo
    fetches := s.fetches ++ l.map Sigma.fst
    installs := s.installs ++ l.map fun e => ⟨s.log.length, hkey e.1⟩ }

variable (D heapq fetchTo todo) in
/-- As long as there are free indices, new keys get them in order. The induction is on the list of
reported keys. -/
theorem run_inserts {l : List (Sigma fun _ : Str => Nat)} {s : DynState}
    (hsync : s.sys.lookup = s.round.lookup) (hplacing : s.placing = none)
    (htodo : s.todo = l ++ todo) (hprev : ∀ e ∈ l, e.1 ∉ s.previousHotkeyList.map Prod.snd)
    (hlen : s.round.hotkeyList.length + l.length ≤ numHotkey)
    (havailable : s.round.available =
      Finset.Ico s.round.hotkeyList.length Controller.maxHotkey)
    (hnodup : (l.map fun e => hkey e.1).Nodup) (hnew : ∀ e ∈ l, hkey e.1 ∉ s.round.lookup) :
    ∃ t : LookupTable, t.entries = Controller.installEntries (l.map Sigma.fst)
        s.round.hotkeyList.length ++ s.round.lookup.entries ∧
      Run (dynStep D heapq fetchTo) (fun _ a => a = .admitKey) s (s.inserted heapq l todo t) := by
  induction l generalizing s with
  | nil =>
    refine ⟨s.round.lookup, rfl, ?_⟩
    have hself : s.inserted heapq [] todo s.round.lookup = s := by
      have hsys : { s.sys with lookup := s.round.lookup } = s.sys := by rw [← hsync]
      simp only [inserted, List.map_nil, List.zipIdx_nil, List.foldl_nil, List.length_nil,
        List.append_nil, Nat.add_zero, ← havailable, hsys]
      rw [show todo = s.todo by rw [htodo, List.nil_append]]
    rw [hself]
    exact .refl
  | cons e l ih =>
    rw [List.length_cons] at hlen
    rw [List.map_cons, List.nodup_cons] at hnodup
    have hlt : s.round.hotkeyList.length < numHotkey := by omega
    have hfresh := hnew e List.mem_cons_self
    obtain ⟨r, hr, hlist, hidx, havailable', hlookup, hdecisions⟩ : ∃ r,
        insertKey heapq s.round e.1 e.2 = some r ∧
        r.hotkeyList = heapq.heappush s.round.hotkeyList (e.2, e.1) ∧
        r.cacheIdx = s.round.cacheIdx.insert e.1 s.round.hotkeyList.length ∧
        r.available = Finset.Ico (s.round.hotkeyList.length + 1) Controller.maxHotkey ∧
        r.lookup =
          s.round.lookup.insert (hkey e.1) (BitVec.ofNat 32 s.round.hotkeyList.length) ∧
        r.decisions = s.round.decisions ++ [.insert e.1 s.round.hotkeyList.length] := by
      have hmax : s.round.hotkeyList.length < Controller.maxHotkey :=
        Nat.lt_trans hlt (by decide)
      have hr : insertKey heapq s.round e.1 e.2 = some
          { hotkeyList := heapq.heappush s.round.hotkeyList (e.2, e.1)
            cacheIdx := s.round.cacheIdx.insert e.1 s.round.hotkeyList.length
            available := Finset.Ico (s.round.hotkeyList.length + 1) Controller.maxHotkey
            lookup := s.round.lookup.insert (hkey e.1) (BitVec.ofNat 32 s.round.hotkeyList.length)
            decisions := s.round.decisions ++ [.insert e.1 s.round.hotkeyList.length] } := by
        simp [insertKey, havailable, Controller.getNextIndex_Ico hmax, Controller.tableAdd, hfresh]
      exact ⟨_, hr, rfl, rfl, rfl, rfl, rfl⟩
    have hstep : dynStep D heapq fetchTo s .admitKey = _ :=
      dynStep_insert hplacing htodo (hprev e List.mem_cons_self) hlt hr
    have hpush : r.hotkeyList.length = s.round.hotkeyList.length + 1 := by
      rw [hlist, (heapq.heappush_perm _ _).length_eq, List.length_cons]
    have hnew' : ∀ e' ∈ l, hkey e'.1 ∉ r.lookup := by
      intro e' he' hin
      rw [hlookup] at hin
      rcases (AList.mem_insert _).1 hin with heq | hin
      · exact hnodup.1 (List.mem_map.2 ⟨e', he', heq⟩)
      · exact hnew e' (List.mem_cons_of_mem _ he') hin
    have havailable'' : r.available = Finset.Ico r.hotkeyList.length Controller.maxHotkey := by
      rw [hpush]
      exact havailable'
    have hlen' : r.hotkeyList.length + l.length ≤ numHotkey := by omega
    obtain ⟨t, ht, hrun⟩ :=
      ih (s := DynState.install { s with todo := l ++ todo } r e.1) rfl hplacing
      rfl (fun e' he' => hprev e' (List.mem_cons_of_mem _ he')) hlen' havailable'' hnodup.2
      hnew'
    refine ⟨t, ?_, Relation.ReflTransGen.head ⟨.admitKey, rfl, hstep⟩ ?_⟩
    · have ht : t.entries = Controller.installEntries (l.map Sigma.fst) r.hotkeyList.length ++
          r.lookup.entries := ht
      rw [ht, hpush, hlookup, AList.entries_insert_of_notMem hfresh, Controller.installEntries,
        Controller.installEntries, List.map_cons, List.zipIdx_cons, List.map_cons,
        List.reverse_cons, List.append_assoc]
      rfl
    · simp only [inserted, DynState.install, hlist, hidx, hdecisions, List.map_cons,
        List.foldl_cons, List.zipIdx_cons, List.length_cons, List.append_assoc, List.cons_append,
        List.nil_append] at hrun hpush ⊢
      rw [hpush] at hrun
      rw [Nat.add_assoc, Nat.add_comm 1] at hrun
      exact hrun

end

end DynState

end OrbitCache
