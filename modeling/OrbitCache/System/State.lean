import OrbitCache.Controller.Static
import OrbitCache.Host.Client
import OrbitCache.Host.Preload
import OrbitCache.Host.Server

/-!
# The system

The switch, the server workers, the clients and the preload tool, with the messages in flight
between them. Channels lose nothing and deliver in any order. A step is one packet through the
switch, one datagram handled by a worker or a client, or a message sent by a client or the preload
tool; whatever a step cannot do (a null pointer that is read, a host that is not wired) makes it
`none`.
-/

namespace OrbitCache

open Controller (LookupTable withLookup)

/-- The port on which the packets of a host enter the switch, when the host and the port are in the
controller's tables. -/
def Tables.ingress (t : Tables) (ip : BitVec 32) : Option (BitVec 9) :=
  (t.ipv4Exact ip).filter fun port => (t.readCacheRecirculationPort port).isSome

/-- A cluster: the tables of the switch, the hash functions, the socket that the requests for a key
go to, and the sockets of the workers and the clients. -/
structure Deployment where
  /-- The tables; the lookup table is part of the state. -/
  tables : Tables
  /-- The recirculation port. -/
  recirc : BitVec 9
  hash : Bytes → Hkey
  dest : Bytes → Endpoint
  isServer : Endpoint → Bool
  isClient : Endpoint → Bool

/-- A packet that passed the switch: its ingress port, the packet as it entered, the cache index of
its key, and the copies that left. -/
structure Event where
  port : BitVec 9
  pkt : Message
  hit : Option (BitVec 32)
  outputs : List (BitVec 9 × Message)
  deriving DecidableEq, Repr

/-- A request a client sent, by its sequence number and its key. -/
structure Sent where
  client : Endpoint
  seq : BitVec 32
  key : Bytes
  deriving DecidableEq, Repr

/-- A message a client received, and the correction it sent for it. -/
structure Receipt where
  client : Endpoint
  message : Message
  correction : Option Message
  deriving DecidableEq, Repr

/-- The state of the system: the registers of the switch, the messages in flight, the hosts, and the
history that statements are about. -/
structure State where
  regs : Registers
  lookup : LookupTable
  /-- Cache packets on the recirculation port. -/
  loop : List Message
  /-- Messages from the switch to the hosts. -/
  wire : List Message
  /-- Messages from the hosts to the switch, with their ingress ports. -/
  uplink : List (BitVec 9 × Message)
  workers : Endpoint → Worker
  clients : Endpoint → Client
  /-- What passed the switch, oldest first. -/
  trace : List Event
  /-- The requests the clients sent. -/
  sent : List Sent
  /-- The messages the clients received. -/
  receipts : List Receipt

/-- The steps of the system. Messages in flight are named by their position, so they may be taken in
any order. -/
inductive Action where
  /-- A client sends a request. -/
  | send (client : Endpoint) (isWrite : Bool) (key value : Bytes) (latency : BitVec 32)
  /-- A message from a host passes the switch. -/
  | pass (i : Nat)
  /-- A cache packet passes the switch. -/
  | recirculate (i : Nat)
  /-- A worker handles a datagram. -/
  | serve (i : Nat) (junk : Bytes)
  /-- A client handles a datagram. -/
  | receive (i : Nat) (latency : BitVec 32)
  /-- The preload tool installs a key. -/
  | preload (src target : BitVec 32) (key value : Bytes)

namespace State

/-- The tables of the switch, with the entries that are installed now. -/
def tables (D : Deployment) (s : State) : Tables := withLookup D.tables s.lookup

/-- The copies that leave the switch, each marked with the number of packets that had passed before.
-/
def outputs (D : Deployment) (s : State) (port : BitVec 9) (m : Message) :
    List (BitVec 9 × Message) :=
  (switchPass (s.tables D) port s.regs m).2.map fun o => (o.1, o.2.stamped s.trace.length)

/-- One packet through the switch: the copies for the recirculation port go to the loop, the others
to the wire. -/
def pass (D : Deployment) (s : State) (port : BitVec 9) (m : Message) : State :=
  { s with
    regs := (switchPass (s.tables D) port s.regs m).1
    loop := s.loop ++ ((s.outputs D port m).filter fun o => o.1 = D.recirc).map Prod.snd
    wire := s.wire ++ ((s.outputs D port m).filter fun o => o.1 ≠ D.recirc).map Prod.snd
    trace := s.trace ++
      [⟨port, m, (s.tables D).cacheLookup m.orbitcache.hkey, s.outputs D port m⟩] }

/-- A message from a host to the switch, on the port of the host. -/
def emit (s : State) (port : BitVec 9) (m : Message) : State :=
  { s with uplink := s.uplink ++ [(port, m)] }

/-- A request of a client: `tx_t` makes it, and it goes to the switch on the port of the client. -/
def send (D : Deployment) (s : State) (client : Endpoint) (isWrite : Bool) (key value : Bytes)
    (latency : BitVec 32) (port : BitVec 9) : State :=
  let c := s.clients client
  let r := c.tx D.hash D.dest client isWrite key value latency
  { s with
    clients := Function.update s.clients client r.1
    uplink := s.uplink ++ [(port, r.2)]
    sent := s.sent ++ [⟨client, c.seqGlobal, key⟩] }

/-- A worker's datagram, taken off the wire; the reply goes to the switch. There is no step where
the worker would crash. -/
def serve (D : Deployment) (s : State) (m : Message) (junk : Bytes) : Option State := do
  let r ← (s.workers m.target).handle D.hash junk m.orbitcache m.payload
  let s := { s with workers := Function.update s.workers m.target r.1 }
  match r.2 with
  | none => pure s
  | some (h, b) =>
    let port ← D.tables.ingress m.ipv4.dstAddr
    pure (s.emit port (datagram m.target m.source h b))

/-- A client's datagram, taken off the wire; a correction goes to the switch. There is no step where
the client would crash. -/
def receive (D : Deployment) (s : State) (m : Message) (latency : BitVec 32) : Option State := do
  let correction ← (s.clients m.target).rx D.hash D.dest m.target m latency
  let s := { s with receipts := s.receipts ++ [⟨m.target, m, correction⟩] }
  match correction with
  | none => pure s
  | some c =>
    let port ← D.tables.ingress m.ipv4.dstAddr
    pure (s.emit port c)

end State

/-- One step of the system; there is none if the message or the route does not exist. -/
def step (D : Deployment) (s : State) : Action → Option State
  | .send client isWrite key value latency => do
    guard (D.isClient client ∧ key.length < keySize)
    let port ← D.tables.ingress client.ip
    pure (s.send D client isWrite key value latency port)
  | .pass i => do
    let (port, m) ← s.uplink[i]?
    pure ({ s with uplink := s.uplink.eraseIdx i }.pass D port m)
  | .recirculate i => do
    let m ← s.loop[i]?
    pure ({ s with loop := s.loop.eraseIdx i }.pass D D.recirc m)
  | .serve i junk => do
    let m ← s.wire[i]?
    guard (D.isServer m.target)
    { s with wire := s.wire.eraseIdx i }.serve D m junk
  | .receive i latency => do
    let m ← s.wire[i]?
    guard (D.isClient m.target)
    { s with wire := s.wire.eraseIdx i }.receive D m latency
  | .preload src target key value => do
    let port ← D.tables.ingress src
    guard (D.tables.ipv4Exact target).isSome
    pure (s.emit port (preloadMessage D.hash src target key value))

/-- What each step does, one constructor for each action. The invariants are proved by cases on it.
-/
inductive StepCase (D : Deployment) (s : State) : Action → State → Prop
  | send {client isWrite key value latency port} : D.isClient client = true →
      key.length < keySize → D.tables.ingress client.ip = some port →
      StepCase D s (.send client isWrite key value latency)
        (s.send D client isWrite key value latency port)
  | pass {i port m} : s.uplink[i]? = some (port, m) →
      StepCase D s (.pass i) ({ s with uplink := s.uplink.eraseIdx i }.pass D port m)
  | recirculate {i m} : s.loop[i]? = some m →
      StepCase D s (.recirculate i) ({ s with loop := s.loop.eraseIdx i }.pass D D.recirc m)
  | reply {i m junk w h b port} : s.wire[i]? = some m → D.isServer m.target = true →
      Worker.HandleCase D.hash (s.workers m.target) junk m.orbitcache m.payload w (some (h, b)) →
      D.tables.ingress m.ipv4.dstAddr = some port →
      StepCase D s (.serve i junk) { s with
        wire := s.wire.eraseIdx i
        workers := Function.update s.workers m.target w
        uplink := s.uplink ++ [(port, datagram m.target m.source h b)] }
  | ignore {i m junk w} : s.wire[i]? = some m → D.isServer m.target = true →
      Worker.HandleCase D.hash (s.workers m.target) junk m.orbitcache m.payload w none →
      StepCase D s (.serve i junk) { s with
        wire := s.wire.eraseIdx i
        workers := Function.update s.workers m.target w }
  | receive {i m latency} : s.wire[i]? = some m → D.isClient m.target = true →
      (s.clients m.target).rx D.hash D.dest m.target m latency = some none →
      StepCase D s (.receive i latency) { s with
        wire := s.wire.eraseIdx i
        receipts := s.receipts ++ [⟨m.target, m, none⟩] }
  | correct {i m latency c port} : s.wire[i]? = some m → D.isClient m.target = true →
      (s.clients m.target).rx D.hash D.dest m.target m latency = some (some c) →
      D.tables.ingress m.ipv4.dstAddr = some port →
      StepCase D s (.receive i latency) { s with
        wire := s.wire.eraseIdx i
        receipts := s.receipts ++ [⟨m.target, m, some c⟩]
        uplink := s.uplink ++ [(port, c)] }
  | preload {src target key value port} : D.tables.ingress src = some port →
      (D.tables.ipv4Exact target).isSome = true →
      StepCase D s (.preload src target key value)
        (s.emit port (preloadMessage D.hash src target key value))

/-- Every step is one of these, with the conditions that the step has tested. -/
theorem step_case {D : Deployment} {s s' : State} {a : Action} (h : step D s a = some s') :
    StepCase D s a s' := by
  cases a with
  | send client isWrite key value latency =>
    simp only [step, Option.bind_eq_bind, Option.bind_eq_some_iff, Option.pure_def,
      Option.some.injEq] at h
    obtain ⟨_, hguard, port, hport, rfl⟩ := h
    obtain ⟨hclient, hkey⟩ := (Option.guard_eq_some' _).1 hguard
    exact .send hclient hkey hport
  | pass i =>
    obtain ⟨⟨port, m⟩, hm, h⟩ := Option.bind_eq_some_iff.1 h
    cases h
    exact .pass hm
  | recirculate i =>
    obtain ⟨m, hm, h⟩ := Option.bind_eq_some_iff.1 h
    cases h
    exact .recirculate hm
  | serve i junk =>
    simp only [step, State.serve, Option.bind_eq_bind, Option.bind_eq_some_iff] at h
    obtain ⟨m, hm, _, hguard, ⟨w, r⟩, hhandle, h⟩ := h
    have hserver := (Option.guard_eq_some' _).1 hguard
    have hcase := Worker.handle_case hhandle
    cases r with
    | none =>
      cases h
      exact .ignore hm hserver hcase
    | some r =>
      obtain ⟨port, hport, h⟩ := Option.bind_eq_some_iff.1 h
      cases h
      exact .reply hm hserver hcase hport
  | receive i latency =>
    simp only [step, State.receive, Option.bind_eq_bind, Option.bind_eq_some_iff] at h
    obtain ⟨m, hm, _, hguard, r, hrx, h⟩ := h
    have hclient := (Option.guard_eq_some' _).1 hguard
    cases r with
    | none =>
      cases h
      exact .receive hm hclient hrx
    | some c =>
      obtain ⟨port, hport, h⟩ := Option.bind_eq_some_iff.1 h
      cases h
      exact .correct hm hclient hrx hport
  | preload src target key value =>
    simp only [step, Option.bind_eq_bind, Option.bind_eq_some_iff, Option.pure_def,
      Option.some.injEq] at h
    obtain ⟨port, hport, _, hguard, rfl⟩ := h
    exact .preload hport ((Option.guard_eq_some' _).1 hguard)

/-- The state before the first message: the controller has installed the lookup table and zeroed the
registers, whatever they held before. -/
def State.start (regs : Registers) (lookup : LookupTable) (workers : Endpoint → Worker) :
    State where
  regs := Controller.initRegisters regs
  lookup := lookup
  loop := []
  wire := []
  uplink := []
  workers := workers
  clients := fun _ => .init
  trace := []
  sent := []
  receipts := []

end OrbitCache
