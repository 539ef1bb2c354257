import OrbitCache.Switch.Packet
import OrbitCache.Host.Key

/-!
# Messages

The datagrams the hosts exchange: an OrbitCache header, the original key and a value. The part of a
datagram behind the header carries a `Tag` of history, which no program reads or writes on the wire.
-/

namespace OrbitCache

/-- The address of a UDP socket, in host order. -/
structure Endpoint where
  ip : BitVec 32
  port : BitVec 16
  deriving DecidableEq, Repr

/-- What a message stands for, which no program reads: the version of its value, and when it last
passed the switch. -/
structure Tag where
  /-- The number of writes of its key that its value reflects. -/
  ver : Nat
  /-- The complete value. -/
  item : Bytes
  /-- The number of packets that had passed the switch when this one did last. -/
  stamp : Nat
  deriving DecidableEq, Repr

/-- The bytes behind the fields the switch knows: `org_key` and `value`, as far as it was sent. -/
structure Payload where
  orgKey : Bytes
  value : Bytes
  tag : Tag
  deriving DecidableEq, Repr

/-- A message as a frame, with the fields that the switch works on. -/
abbrev Message : Type := Packet Payload

/-- A datagram from one socket to another. Its hardware addresses do not matter here. -/
def datagram (src dst : Endpoint) (h : OrbitcacheH) (b : Payload) : Message :=
  ⟨⟨0, 0, typeIpv4⟩, ⟨typeUdp, src.ip, dst.ip⟩, ⟨src.port, dst.port, 0⟩, h, b⟩

/-- The socket a message was sent from. -/
def Packet.source (m : Message) : Endpoint := ⟨m.ipv4.srcAddr, m.udp.srcPort⟩

/-- The socket a message is addressed to. -/
def Packet.target (m : Message) : Endpoint := ⟨m.ipv4.dstAddr, m.udp.dstPort⟩

/-- A message as of its latest pass of the switch. -/
def Packet.stamped (now : Nat) (m : Message) : Message := { m with payload.tag.stamp := now }

end OrbitCache
