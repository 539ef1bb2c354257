import OrbitCache.Host.Wire

/-!
# The handlers of the workers

What the three branches of `worker_t` do with one datagram, down to the bytes of `RecvBuffer` and to
the lengths they compute with `size_t`. The hash table is a map from C strings to C strings. A
string that has no terminator in its array runs on into the bytes behind the array, which are part
of the input; every array whose elements are read or written by an index is recorded with the number
of elements that are touched.
-/

namespace OrbitCache

/-- `size_t`. -/
abbrev SizeT : Type := BitVec 64

/-! ## The buffer -/

/-- `sizeof(RecvBuffer) - MAX_VALUE_SIZE`: the length of the header of a protocol, `org_key`
included. -/
def headerSize : Protocol → Nat
  | .nocache => 27
  | .netcache => 43
  | .orbitcache => 44

/-- Every header is shorter than 64 bytes, so the sums of lengths below do not overflow. -/
theorem headerSize_lt (p : Protocol) : headerSize p < 64 := by
  cases p <;> decide

/-- The length of a header as a `size_t` is that length. -/
theorem toNat_headerSize (p : Protocol) :
    (BitVec.ofNat 64 (headerSize p)).toNat = headerSize p := by
  have hlt := headerSize_lt p
  rw [BitVec.toNat_ofNat]
  omega

/-- `sizeof(RecvBuffer)`. -/
def sizeofBuffer (p : Protocol) : Nat := headerSize p + maxValueSize

/-- The offset of `org_key`, the last field of a header. -/
def keyOffset (p : Protocol) : Nat := headerSize p - keySize

/-- The buffer with some bytes written at an offset; the bytes in front of them and behind them
stay. -/
def writeAt (buffer : Bytes) (offset : Nat) (bytes : Bytes) : Bytes :=
  buffer.take offset ++ bytes ++ buffer.drop (offset + bytes.length)

/-- The bytes behind the arrays of the stack, as far as a string may run on. Nothing is assumed of
them. -/
structure Stack where
  recvBuffer : Bytes
  keyStr : Bytes
  valueStr : Bytes

/-- `op`, the first field. -/
def opField (buffer : Bytes) : BitVec 8 := buffer.getD 0 0

/-- `flag` of `struct orbitcache_hdr`. -/
def flagField (buffer : Bytes) : BitVec 8 := buffer.getD 21 0

/-- `org_key` as a C string: it runs on into the value, and behind the buffer, if no byte of it is
zero. -/
def orgKey (p : Protocol) (buffer : Bytes) (stack : Stack) : Bytes :=
  cString (buffer.drop (keyOffset p) ++ stack.recvBuffer)

/-- `keyStr` as a C string, after `strncpy` from `org_key`, which writes no terminator when the key
fills the array. -/
def keyStr (buffer : Bytes) (stack : Stack) : Bytes :=
  let key := orgKey .orbitcache buffer stack
  if key.length < keySize then key else key.take keySize ++ cString stack.keyStr

/-- The key a branch passes to the hash table: OrbitCache copies it to `keyStr` first, the others
use the buffer. -/
def tableKey (p : Protocol) (buffer : Bytes) (stack : Stack) : Bytes :=
  match p with
  | .nocache | .netcache => orgKey p buffer stack
  | .orbitcache => keyStr buffer stack

/-! ## Effects -/

/-- An array of `size` elements of which the first `touched` are read or written. All accesses of
the handlers start at the first element. -/
structure Access where
  size : Nat
  touched : Nat

/-- No element behind the array is touched. -/
def Access.InBounds (a : Access) : Prop := a.touched ≤ a.size

/-- The data of a worker that its handlers use: its table as a function, and the buffer with what
earlier datagrams left in it. -/
structure ServerState where
  hashlin : Bytes → Option Bytes
  recvBuffer : Bytes

/-- What a handler does: what it computes, what it touches, what it sends, and the state it leaves.
-/
structure Handled where
  /-- The lengths `value_size` takes. -/
  valueSizes : List SizeT
  /-- `strlen` was applied to a null pointer. -/
  nullLength : Bool
  accesses : List Access
  /-- What `sendto` was called with: `pkt_size` and the bytes. -/
  sent : List (SizeT × Bytes)
  /-- The state after it; `none` when the handler did not return. -/
  after : Option ServerState

/-- `strlen`, of a string without its terminator. -/
def strlen (value : Bytes) : SizeT := BitVec.ofNat 64 value.length

/-- `sendto` with the first `pktSize` bytes of the buffer. -/
def sendto (buffer : Bytes) (pktSize : SizeT) : SizeT × Bytes :=
  (pktSize, buffer.take pktSize.toNat)

/-- A handler that takes the length of a value that is not in the table: it does not return. -/
def Handled.null : Handled := ⟨[], true, [], [], none⟩

/-- A datagram without a handler: the loop goes on with the buffer as it was received. -/
def Handled.ignored (s : ServerState) : Handled := ⟨[], false, [], [], some s⟩

/-! ## Values -/

/-- `value_size = n - (sizeof(RecvBuffer) - MAX_VALUE_SIZE)`: an `int` minus a `size_t`, which wraps
around for a short datagram. -/
def receivedSize (p : Protocol) (n : Nat) : SizeT :=
  BitVec.ofNat 64 n - BitVec.ofNat 64 (headerSize p)

/-- `valueStr` as a C string: `value_size` times `'A'` and no terminator, so it runs on into the
bytes behind the array. -/
def valueStr (valueSize : SizeT) (stack : Stack) : Bytes :=
  cString (List.replicate valueSize.toNat byteA ++ stack.valueStr)

/-- What `memset` and `strdup` touch of `valueStr`: `strdup` stops at a terminator it has read. -/
def valueStrAccess (valueSize : SizeT) (stack : Stack) : Access :=
  ⟨valueSize.toNat, (valueStr valueSize stack).length + 1⟩

/-- `tommy_put`, on the table as a function. -/
def tommyPut (hashlin : Bytes → Option Bytes) (key value : Bytes) : Bytes → Option Bytes :=
  Function.update hashlin key (some value)

/-! ## Handlers -/

section
variable (p : Protocol) (s : ServerState) (n : Nat) (stack : Stack)

/-- `OP_READ` of NoCache and NetCache: `strncpy` of the value and a terminator behind it. -/
def handleRead : Handled :=
  let buffer := writeAt s.recvBuffer 0 [opRReply]
  match s.hashlin (tableKey p s.recvBuffer stack) with
  | none => .null
  | some value =>
    let valueSize := strlen value
    let buffer := writeAt buffer (headerSize p) (value ++ [0])
    let pktSize := BitVec.ofNat 64 (headerSize p) + valueSize
    { valueSizes := [valueSize]
      nullLength := false
      accesses := [⟨maxValueSize, value.length + 1⟩]
      sent := [sendto buffer pktSize]
      after := some { s with recvBuffer := buffer } }

/-- `OP_READ` and `OP_CRCTN` of OrbitCache: `snprintf` of the value, which cuts it to fit, while
`pkt_size` is computed from its whole length. -/
def handleReadOrbitcache : Handled :=
  let buffer := writeAt s.recvBuffer 0 [opRReply]
  match s.hashlin (tableKey .orbitcache s.recvBuffer stack) with
  | none => .null
  | some value =>
    let valueSize := strlen value
    let buffer := writeAt buffer 21 [lastAck]
    let buffer := writeAt buffer (headerSize .orbitcache) (snprintfValue value)
    let pktSize := BitVec.ofNat 64 (headerSize .orbitcache) + valueSize
    { valueSizes := [valueSize]
      nullLength := false
      accesses := [⟨maxValueSize, value.length⟩]
      sent := [sendto buffer pktSize]
      after := some { s with recvBuffer := buffer } }

/-- `OP_FETCH` of OrbitCache: it computes the hash of the key itself, and goes on as a READ does. -/
def handleFetchOrbitcache : Handled :=
  let key := orgKey .orbitcache s.recvBuffer stack
  let buffer := writeAt s.recvBuffer 5 (Endian.bytes 8 (htonll (hash64Str key)).toNat)
  let buffer := writeAt buffer 13 (Endian.bytes 8 (htonll (hash64Str2 key)).toNat)
  let buffer := writeAt buffer 0 [opFReply]
  match s.hashlin (tableKey .orbitcache s.recvBuffer stack) with
  | none => .null
  | some value =>
    let valueSize := strlen value
    let buffer := writeAt buffer (headerSize .orbitcache) (snprintfValue value)
    let buffer := writeAt buffer 21 [fetching]
    let buffer := writeAt buffer 22 [1]
    let pktSize := BitVec.ofNat 64 (headerSize .orbitcache) + valueSize
    { valueSizes := [valueSize]
      nullLength := false
      accesses := [⟨maxValueSize, value.length⟩]
      sent := [sendto buffer pktSize]
      after := some { s with recvBuffer := buffer } }

/-- `OP_WRITE`; OrbitCache sends the value back if the switch set the flag, the others send the
header alone. -/
def handleWrite : Handled :=
  let key := tableKey p s.recvBuffer stack
  let buffer := writeAt s.recvBuffer 0 [opWReply]
  let valueSize := receivedSize p n
  let fetched : Bool := p == .orbitcache && flagField buffer == fetching
  let buffer := if fetched then writeAt buffer 22 [1] else buffer
  let pktSize := if fetched then BitVec.ofNat 64 n else BitVec.ofNat 64 (headerSize p)
  { valueSizes := [valueSize]
    nullLength := false
    accesses := [valueStrAccess valueSize stack]
    sent := [sendto buffer pktSize]
    after := some ⟨tommyPut s.hashlin key (valueStr valueSize stack), buffer⟩ }

/-- `OP_FETCH` of NetCache: the datagram goes back as it came, then its value is stored and a second
reply is sent, as for a WRITE. -/
def handleFetchNetcache : Handled :=
  let key := tableKey .netcache s.recvBuffer stack
  let valueSize := receivedSize .netcache n
  let fReply := writeAt s.recvBuffer 0 [opFReply]
  let buffer := writeAt (writeAt fReply 0 [opWReply]) 1 [0, 0, 0, 0]
  { valueSizes := [valueSize]
    nullLength := false
    accesses := [valueStrAccess valueSize stack]
    sent := [sendto fReply (BitVec.ofNat 64 n),
      sendto buffer (BitVec.ofNat 64 (headerSize .netcache))]
    after := some ⟨tommyPut s.hashlin key (valueStr valueSize stack), buffer⟩ }

/-- The branch of a protocol on what the buffer holds: the tests of the operation, in the order of
the source. -/
def handleBuffer : Handled :=
  let op := opField s.recvBuffer
  match p with
  | .nocache =>
    if op = opRead then handleRead .nocache s stack
    else if op = opWrite then handleWrite .nocache s n stack
    else .ignored s
  | .netcache =>
    if op = opRead then handleRead .netcache s stack
    else if op = opWrite then handleWrite .netcache s n stack
    else if op = opFetch then handleFetchNetcache s n stack
    else .ignored s
  | .orbitcache =>
    if op = opRead ∨ op = opCrctn then handleReadOrbitcache s stack
    else if op = opFetch then handleFetchOrbitcache s stack
    else if op = opWrite then handleWrite .orbitcache s n stack
    else .ignored s

end

/-- The buffer after `recvfrom`: behind a short datagram it holds what an earlier one left. -/
def ServerState.recvfrom (s : ServerState) (datagram : Bytes) : ServerState :=
  { s with recvBuffer := datagram ++ s.recvBuffer.drop datagram.length }

/-- A datagram is received and handled: the handlers see the whole buffer and the number of bytes
received. -/
def handleDatagram (p : Protocol) (s : ServerState) (datagram : Bytes) (stack : Stack) : Handled :=
  handleBuffer p (s.recvfrom datagram) datagram.length stack

end OrbitCache
