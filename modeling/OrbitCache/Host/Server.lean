import Mathlib.Logic.Function.Basic
import OrbitCache.Host.Message

/-!
# The server worker

The OrbitCache branch of `worker_t`: what a worker does with one datagram. The hash table of the
partition is a function from keys to C strings. A WRITE stores the bytes of a buffer that has no
terminator, so the stored string goes on with whatever bytes follow the buffer.
-/

namespace OrbitCache

/-- The partition of a worker: its table as a function, and a count of the writes that the model
keeps for its statements. -/
structure Worker where
  /-- `hashlin`. -/
  hashlin : Bytes → Option Bytes
  /-- The number of writes of each key that were applied. -/
  writes : Bytes → Nat

/-- The bytes that `snprintf(buf, strlen(value), "%s", value)` leaves in the first `strlen(value)`
bytes of the buffer: the last one is the terminator. -/
def snprintfValue (value : Bytes) : Bytes := if value = [] then [] else value.dropLast ++ [0]

/-- The byte `'A'`, with which the worker fills what it stores. -/
abbrev byteA : BitVec 8 := 65

namespace Worker

/-- `OP_READ` and `OP_CRCTN`. A key that is not in the table is a null pointer that is read. -/
def handleRead (w : Worker) (h : OrbitcacheH) (b : Payload) :
    Option (Worker × Option (OrbitcacheH × Payload)) := do
  let value ← w.hashlin b.orgKey
  pure (w, some ({ h with op := opRReply, flag := lastAck },
    { b with value := snprintfValue value, tag.ver := w.writes b.orgKey, tag.item := value }))

/-- `OP_FETCH`: a reply with the hash of the key and `cached` set, which the switch takes for its
cache. -/
def handleFetch (hash : Bytes → Hkey) (w : Worker) (h : OrbitcacheH) (b : Payload) :
    Option (Worker × Option (OrbitcacheH × Payload)) := do
  let value ← w.hashlin b.orgKey
  pure (w, some ({ h with
      op := opFReply
      hkeyHi := (hash b.orgKey).1
      hkeyLo := (hash b.orgKey).2
      flag := fetching
      cached := 1 },
    { b with value := snprintfValue value, tag.ver := w.writes b.orgKey, tag.item := value }))

/-- The partition after a WRITE, when the bytes `junk` follow the buffer: the value that was
received is replaced by a fill of its length. -/
def put (w : Worker) (junk : Bytes) (b : Payload) : Worker where
  hashlin := Function.update w.hashlin b.orgKey
    (some (List.replicate b.value.length byteA ++ junk))
  writes := Function.update w.writes b.orgKey (w.writes b.orgKey + 1)

/-- `OP_WRITE`: the value goes back only if the switch set the flag. -/
def handleWrite (w : Worker) (junk : Bytes) (h : OrbitcacheH) (b : Payload) :
    Worker × OrbitcacheH × Payload :=
  let b' := { b with tag.ver := w.writes b.orgKey + 1, tag.item := b.value }
  if h.flag = fetching then (w.put junk b, { h with op := opWReply, cached := 1 }, b')
  else (w.put junk b, { h with op := opWReply }, { b' with value := [] })

/-- One datagram: the partition after it and the reply, if any. There is no result where a null
pointer is read. -/
def handle (hash : Bytes → Hkey) (w : Worker) (junk : Bytes) (h : OrbitcacheH) (b : Payload) :
    Option (Worker × Option (OrbitcacheH × Payload)) :=
  if h.op = opRead ∨ h.op = opCrctn then w.handleRead h b
  else if h.op = opFetch then w.handleFetch hash h b
  else if h.op = opWrite then
    let r := w.handleWrite junk h b
    some (r.1, some r.2)
  else some (w, none)

/-- The ways a datagram is handled, with the reply of each. The proofs about workers are by cases on
it. -/
inductive HandleCase (hash : Bytes → Hkey) (w : Worker) (junk : Bytes) (h : OrbitcacheH)
    (b : Payload) : Worker → Option (OrbitcacheH × Payload) → Prop
  | read {value} : h.op = opRead ∨ h.op = opCrctn → w.hashlin b.orgKey = some value →
      HandleCase hash w junk h b w (some ({ h with op := opRReply, flag := lastAck },
        { b with value := snprintfValue value, tag.ver := w.writes b.orgKey, tag.item := value }))
  | fetch {value} : h.op = opFetch → w.hashlin b.orgKey = some value →
      HandleCase hash w junk h b w (some
        ({ h with
            op := opFReply
            hkeyHi := (hash b.orgKey).1
            hkeyLo := (hash b.orgKey).2
            flag := fetching
            cached := 1 },
          { b with value := snprintfValue value, tag.ver := w.writes b.orgKey, tag.item := value }))
  | write : h.op = opWrite → h.flag = fetching →
      HandleCase hash w junk h b (w.put junk b) (some ({ h with op := opWReply, cached := 1 },
        { b with tag.ver := w.writes b.orgKey + 1, tag.item := b.value }))
  | writeNoFetch : h.op = opWrite → h.flag ≠ fetching →
      HandleCase hash w junk h b (w.put junk b) (some ({ h with op := opWReply },
        { b with value := [], tag.ver := w.writes b.orgKey + 1, tag.item := b.value }))
  | ignore : h.op ≠ opRead → h.op ≠ opCrctn → h.op ≠ opFetch → h.op ≠ opWrite →
      HandleCase hash w junk h b w none

/-- Every datagram is handled in one of these ways. -/
theorem handle_case {hash : Bytes → Hkey} {w w' : Worker} {junk : Bytes} {h : OrbitcacheH}
    {b : Payload} {r : Option (OrbitcacheH × Payload)}
    (hr : w.handle hash junk h b = some (w', r)) : HandleCase hash w junk h b w' r := by
  unfold handle at hr
  split at hr
  · next hop =>
    obtain ⟨value, hvalue, hr⟩ := Option.bind_eq_some_iff.1 hr
    cases hr
    exact .read hop hvalue
  · next hop =>
    obtain ⟨hread, hcrctn⟩ := not_or.1 hop
    split at hr
    · next hop =>
      obtain ⟨value, hvalue, hr⟩ := Option.bind_eq_some_iff.1 hr
      cases hr
      exact .fetch hop hvalue
    · next hfetch =>
      split at hr
      · next hwrite =>
        by_cases hflag : h.flag = fetching
        · simp only [handleWrite, if_pos hflag] at hr
          cases hr
          exact .write hwrite hflag
        · simp only [handleWrite, if_neg hflag] at hr
          cases hr
          exact .writeNoFetch hwrite hflag
      · next hwrite =>
        cases hr
        exact .ignore hread hcrctn hfetch hwrite

end Worker

end OrbitCache
