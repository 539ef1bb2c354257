import Mathlib.Logic.Function.Basic
import OrbitCache.Host.Message

/-!
# The client

The OrbitCache branches of `tx_t` and `rx_t` and the table that remembers the key of each request.
-/

namespace OrbitCache

/-- `MAX_SEQ_HDRS`, the number of slots of `seq_hdrs`. -/
def maxSeqHdrs : Nat := 50000000

/-- `seq_global` and `seq_hdrs`: the next sequence number, and for each slot the number and the key
of the request that wrote it last. -/
structure Client where
  seqGlobal : BitVec 32
  seqHdrs : Nat → BitVec 32 × Bytes

namespace Client

/-- The client before its first request: the slots are zeroed, so slot 0 seems to hold a request
with an empty key. -/
def init : Client := ⟨0, fun _ => (0, [])⟩

/-- `seq_put`: the slot of a sequence number is overwritten. The key is cut to fit its field. -/
def seqPut (c : Client) (seq2 : BitVec 32) (orgKey : Bytes) : Client :=
  { c with
    seqHdrs := Function.update c.seqHdrs (seq2.toNat % maxSeqHdrs)
      (seq2, orgKey.take (keySize - 1)) }

/-- `seq_get`; a null pointer when the entry is of another request, that is, when the slot was taken
by a later one. -/
def seqGet (c : Client) (seq2 : BitVec 32) : Option Bytes :=
  let e := c.seqHdrs (seq2.toNat % maxSeqHdrs)
  if e.1 ≠ seq2 then none else some e.2

section
variable (hash : Bytes → Hkey) (dest : Bytes → Endpoint) (self : Endpoint)

/-- The message of a request or a correction: a zeroed header with the fields that are set. -/
def request (op : BitVec 8) (seq : BitVec 32) (key value : Bytes) (latency : BitVec 32) : Message :=
  datagram self (dest key)
    { op := op
      seq := seq
      hkeyHi := (hash key).1
      hkeyLo := (hash key).2
      flag := 0
      cached := 0
      latency := latency }
    { orgKey := key, value := value, tag := ⟨0, [], 0⟩ }

/-- `tx_t`: a READ or a WRITE with the next sequence number, whose key is remembered before it is
sent. -/
def tx (c : Client) (isWrite : Bool) (key value : Bytes) (latency : BitVec 32) : Client × Message :=
  ({ c.seqPut c.seqGlobal key with seqGlobal := c.seqGlobal + 1 },
    if isWrite then request hash dest self opWrite c.seqGlobal key value latency
    else request hash dest self opRead c.seqGlobal key [] latency)

/-- `rx_t`: the correction that a message calls for, if any: only a reply from the cache is compared
with the key of its request. There is no result where a null pointer of `seq_get` is read. -/
def rx (c : Client) (m : Message) (latency : BitVec 32) : Option (Option Message) :=
  if m.orbitcache.op = opRReply ∧ m.orbitcache.cached = 1 then do
    let clientKey ← c.seqGet m.orbitcache.seq
    if clientKey.take keySize ≠ m.payload.orgKey.take keySize then
      pure (some (request hash dest self opCrctn m.orbitcache.seq clientKey [] latency))
    else pure none
  else some none

end

end Client

end OrbitCache
