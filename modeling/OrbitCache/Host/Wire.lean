import Mathlib.Data.List.TakeWhile
import Mathlib.Data.Vector.Basic
import OrbitCache.Host.Client
import OrbitCache.Host.Placement
import OrbitCache.Host.Preload
import OrbitCache.Host.Server
import OrbitCache.Lib.Endian

/-!
# Packets as bytes

The packed `struct orbitcache_hdr` of a little-endian host, the bytes it is sent as, the header the
switch extracts from them and the struct a host lays over them: a host writes and reads the low byte
of a field first, the switch reads its high byte first. `htonl` and `htonll` make up for that;
`latency`, which no program swaps, arrives reversed.
-/

namespace OrbitCache

/-! ## Byte orders -/

/-- `htonl`, on a little-endian host: the bytes change their order. `ntohl` is the same function. -/
def htonl (x : BitVec 32) : BitVec 32 := BitVec.ofNat 32 (Endian.swap 4 x.toNat)

/-- `htonll`: both halves by `htonl`, which takes a `uint32_t`, and the halves change places. -/
def htonll (x : BitVec 64) : BitVec 64 :=
  ((htonl (x.setWidth 32)).setWidth 64 <<< 32) + (htonl ((x >>> 32).setWidth 32)).setWidth 64

/-- As a number it is the exchange of four bytes. -/
theorem toNat_htonl (x : BitVec 32) : (htonl x).toNat = Endian.swap 4 x.toNat := by
  rw [htonl, BitVec.toNat_ofNat]
  exact Nat.mod_eq_of_lt (Endian.swap_lt 4 x.toNat)

/-- The two halves change places, so all eight bytes are in the other order. -/
theorem toNat_htonll (x : BitVec 64) : (htonll x).toNat = Endian.swap 8 x.toNat := by
  have hlow : (htonl (x.setWidth 32)).toNat = Endian.swap 4 x.toNat := by
    rw [toNat_htonl, BitVec.toNat_setWidth]
    exact Endian.swap_mod 4 x.toNat
  have hhigh : (htonl ((x >>> 32).setWidth 32)).toNat = Endian.swap 4 (x.toNat / 256 ^ 4) := by
    rw [toNat_htonl, BitVec.toNat_setWidth, BitVec.toNat_ushiftRight, Nat.shiftRight_eq_div_pow]
    exact Endian.swap_mod 4 _
  have hswap : Endian.swap 8 x.toNat =
      Endian.swap 4 x.toNat * 256 ^ 4 + Endian.swap 4 (x.toNat / 256 ^ 4) := Endian.swap_add 4 4 _
  have hl := Endian.swap_lt 4 x.toNat
  have hh := Endian.swap_lt 4 (x.toNat / 256 ^ 4)
  rw [htonll, BitVec.toNat_add, BitVec.toNat_shiftLeft, BitVec.toNat_setWidth,
    BitVec.toNat_setWidth, hlow, hhigh, hswap, Nat.shiftLeft_eq]
  omega

/-! ## C strings -/

/-- The string that starts a buffer: the bytes in front of the first zero byte. -/
def cString (buffer : Bytes) : Bytes := buffer.takeWhile (· ≠ 0)

/-- What `strncpy` and `tostring_key` leave in a field of `KEY_SIZE` bytes: the string, cut where
the field ends or padded with zeros. -/
def keyField (key : Bytes) : Vector (BitVec 8) keySize := Vector.ofFn fun i => key.getD i 0

/-! ## The header -/

/-- `struct orbitcache_hdr`; a number is what the host reads in the field, so it was converted by
the program that wrote it. -/
structure OrbitcacheHdr where
  op : BitVec 8
  seq : BitVec 32
  hkeyHi : BitVec 64
  hkeyLo : BitVec 64
  flag : BitVec 8
  cached : BitVec 8
  latency : BitVec 32
  parId : BitVec 8
  orgKey : Vector (BitVec 8) keySize
  value : Bytes

namespace OrbitcacheHdr

/-- The key of a header: the C string that starts at `org_key`. It runs on into the value if the
field has no terminator. -/
def key (hdr : OrbitcacheHdr) : Bytes := cString (hdr.orgKey.toList ++ hdr.value)

/-- The bytes of the fields in front of `value`: the struct is packed, and each integer lies in
memory with its low byte first. -/
def fields (hdr : OrbitcacheHdr) : Bytes :=
  Endian.bytes 1 hdr.op.toNat ++ (Endian.bytes 4 hdr.seq.toNat ++
    (Endian.bytes 8 hdr.hkeyHi.toNat ++ (Endian.bytes 8 hdr.hkeyLo.toNat ++
      (Endian.bytes 1 hdr.flag.toNat ++ (Endian.bytes 1 hdr.cached.toNat ++
        (Endian.bytes 4 hdr.latency.toNat ++ (Endian.bytes 1 hdr.parId.toNat ++
          hdr.orgKey.toList)))))))

/-- The datagram of `sizeof(hdr) - MAX_VALUE_SIZE + value_size` bytes, which ends with the first
bytes of the value. -/
def sent (hdr : OrbitcacheHdr) (valueSize : Nat) : Bytes := hdr.fields ++ hdr.value.take valueSize

end OrbitcacheHdr

/-! ## The switch -/

/-- The next `width` bytes of a packet as a field, the high byte first, as P4 extracts it. -/
def extractField (width : Nat) : StateT Bytes Option Nat := fun bytes =>
  if bytes.length < width then none
  else some (Endian.big (bytes.take width), bytes.drop width)

/-- The extraction of `ORBITCACHE_h`, its fields in order; it fails on a short packet. What is
behind them is payload for the switch, also `par_id` and the key. -/
def OrbitcacheH.extract : StateT Bytes Option OrbitcacheH := do
  let op ← extractField 1
  let seq ← extractField 4
  let hkeyHi ← extractField 8
  let hkeyLo ← extractField 8
  let flag ← extractField 1
  let cached ← extractField 1
  let latency ← extractField 4
  return {
    op := BitVec.ofNat 8 op
    seq := BitVec.ofNat 32 seq
    hkeyHi := BitVec.ofNat 64 hkeyHi
    hkeyLo := BitVec.ofNat 64 hkeyLo
    flag := BitVec.ofNat 8 flag
    cached := BitVec.ofNat 8 cached
    latency := BitVec.ofNat 32 latency }

/-- The switch reads the bytes of a field in the other order than the host wrote them, and goes on
behind them. -/
theorem extractField_bytes (width x : Nat) (l : Bytes) :
    (extractField width).run (Endian.bytes width x ++ l) = some (Endian.swap width x, l) := by
  have hlen := Endian.length_bytes width x
  have hlt : ¬ (Endian.bytes width x ++ l).length < width := by
    rw [List.length_append, hlen]
    omega
  rw [StateT.run, extractField, if_neg hlt, List.take_left' hlen, List.drop_left' hlen, Endian.swap]

/-- A single byte has no order. -/
theorem swap_one (b : BitVec 8) : BitVec.ofNat 8 (Endian.swap 1 b.toNat) = b := by
  rw [Endian.swap, Endian.bytes_byte, Endian.big_singleton, BitVec.ofNat_toNat,
    BitVec.setWidth_eq]

/-- The exchange of eight bytes is `htonll`. -/
theorem ofNat_swap_eq_htonll (x : BitVec 64) :
    BitVec.ofNat 64 (Endian.swap 8 x.toNat) = htonll x := by
  rw [← toNat_htonll, BitVec.ofNat_toNat, BitVec.setWidth_eq]

/-- What the switch extracts from a datagram: each integer in the other byte order than the host has
it. -/
theorem extract_sent (hdr : OrbitcacheHdr) (valueSize : Nat) :
    (OrbitcacheH.extract.run (hdr.sent valueSize)).map Prod.fst = some
      { op := hdr.op
        seq := htonl hdr.seq
        hkeyHi := htonll hdr.hkeyHi
        hkeyLo := htonll hdr.hkeyLo
        flag := hdr.flag
        cached := hdr.cached
        latency := htonl hdr.latency } := by
  simp only [OrbitcacheH.extract, OrbitcacheHdr.sent, OrbitcacheHdr.fields, List.append_assoc]
  simp only [StateT.run_bind, extractField_bytes, StateT.run_pure, Option.bind_eq_bind,
    Option.bind_some, Option.pure_def, Option.map_some, swap_one, ofNat_swap_eq_htonll]
  rfl

/-- The switch reads what `htonl` was applied to: exchanging twice gives the number back. -/
theorem htonl_htonl (x : BitVec 32) : htonl (htonl x) = x := by
  apply BitVec.eq_of_toNat_eq
  rw [toNat_htonl, toNat_htonl, Endian.swap_swap]
  exact Nat.mod_eq_of_lt x.isLt

/-- The same for `htonll`. -/
theorem htonll_htonll (x : BitVec 64) : htonll (htonll x) = x := by
  apply BitVec.eq_of_toNat_eq
  rw [toNat_htonll, toNat_htonll, Endian.swap_swap]
  exact Nat.mod_eq_of_lt x.isLt

/-! ## Reading a struct -/

/-- The next `width` bytes as a number with its low byte first, as a little-endian host reads it. -/
def littleField (width : Nat) : StateT Bytes Option Nat := fun bytes =>
  if bytes.length < width then none
  else some (Endian.little (bytes.take width), bytes.drop width)

/-- The next `width` bytes, as they are. -/
def byteField (width : Nat) : StateT Bytes Option Bytes := fun bytes =>
  if bytes.length < width then none else some (bytes.take width, bytes.drop width)

/-- A little-endian reader reads what `Endian.bytes` wrote. -/
theorem littleField_bytes {v width : Nat} (hwidth : 256 ^ width = 2 ^ v) (x : BitVec v)
    (l : Bytes) :
    (littleField width).run (Endian.bytes width x.toNat ++ l) = some (x.toNat, l) := by
  have hlen := Endian.length_bytes width x.toNat
  have hlt : ¬ (Endian.bytes width x.toNat ++ l).length < width := by
    rw [List.length_append, hlen]
    omega
  rw [StateT.run, littleField, if_neg hlt, List.take_left' hlen, List.drop_left' hlen,
    Endian.little_bytes, hwidth, Nat.mod_eq_of_lt x.isLt]

/-- A field of one byte, -/
theorem littleField_byte (x : BitVec 8) (l : Bytes) :
    (littleField 1).run (Endian.bytes 1 x.toNat ++ l) = some (x.toNat, l) :=
  littleField_bytes rfl x l

/-- of four bytes, -/
theorem littleField_word (x : BitVec 32) (l : Bytes) :
    (littleField 4).run (Endian.bytes 4 x.toNat ++ l) = some (x.toNat, l) :=
  littleField_bytes rfl x l

/-- and of eight bytes. -/
theorem littleField_long (x : BitVec 64) (l : Bytes) :
    (littleField 8).run (Endian.bytes 8 x.toNat ++ l) = some (x.toNat, l) :=
  littleField_bytes rfl x l

/-- A field of the right width is read back. -/
theorem byteField_append {width : Nat} {field : Bytes} (hlen : field.length = width) (l : Bytes) :
    (byteField width).run (field ++ l) = some (field, l) := by
  have hlt : ¬ (field ++ l).length < width := by
    rw [List.length_append, hlen]
    omega
  rw [StateT.run, byteField, if_neg hlt, List.take_left' hlen, List.drop_left' hlen]

/-- `struct orbitcache_hdr` over the bytes of a buffer, as the programs read a datagram. -/
def OrbitcacheHdr.overlay : StateT Bytes Option OrbitcacheHdr := do
  let op ← littleField 1
  let seq ← littleField 4
  let hkeyHi ← littleField 8
  let hkeyLo ← littleField 8
  let flag ← littleField 1
  let cached ← littleField 1
  let latency ← littleField 4
  let parId ← littleField 1
  let orgKey ← byteField keySize
  let value ← get
  return {
    op := BitVec.ofNat 8 op
    seq := BitVec.ofNat 32 seq
    hkeyHi := BitVec.ofNat 64 hkeyHi
    hkeyLo := BitVec.ofNat 64 hkeyLo
    flag := BitVec.ofNat 8 flag
    cached := BitVec.ofNat 8 cached
    latency := BitVec.ofNat 32 latency
    parId := BitVec.ofNat 8 parId
    orgKey := keyField orgKey
    value := value }

/-! ## What the programs build -/

/-- The packet of a READ, a WRITE (`tx_t`) or a CRCTN (`rx_t`), which differ in the operation only.
-/
def requestHdr (numWorkers : Nat) (op : BitVec 8) (seq : BitVec 32) (key : Bytes)
    (latency : BitVec 32) : OrbitcacheHdr :=
  let orgKey := keyField key
  { op := op
    seq := htonl seq
    hkeyHi := htonll (hash64Str (cString orgKey.toList))
    hkeyLo := htonll (hash64Str2 (cString orgKey.toList))
    flag := 0
    cached := 0
    latency := latency
    parId := parId numWorkers (cString orgKey.toList)
    orgKey := orgKey
    value := List.replicate maxValueSize 0 }

/-- The packet of `preload.c`: a WRITE reply with the flags of a fetched value, which the switch
takes for its cache. -/
def preloadHdr (key : Bytes) : OrbitcacheHdr :=
  let orgKey := keyField key
  { op := opWReply
    seq := 0
    hkeyHi := htonll (hash64Str (cString orgKey.toList))
    hkeyLo := htonll (hash64Str2 (cString orgKey.toList))
    flag := fetching
    cached := 1
    latency := 0
    parId := 0
    orgKey := orgKey
    value := List.replicate maxValueSize 0 }

/-- The reply of the worker to an `OP_FETCH` in its buffer, with the value of the key. The other
fields stay as they were received. -/
def OrbitcacheHdr.fetchReply (recvBuffer : OrbitcacheHdr) (value : Bytes) : OrbitcacheHdr :=
  { recvBuffer with
    hkeyHi := htonll (hash64Str recvBuffer.key)
    hkeyLo := htonll (hash64Str2 recvBuffer.key)
    op := opFReply
    value := snprintfValue value ++ recvBuffer.value.drop value.length
    flag := fetching
    cached := 1 }

/-- The packets the programs build for a key, with any value and any of the other fields. -/
inductive Builds (key : Bytes) : OrbitcacheHdr → Prop
  | read (numWorkers seq latency) : Builds key (requestHdr numWorkers opRead seq key latency)
  | write (numWorkers seq latency) : Builds key (requestHdr numWorkers opWrite seq key latency)
  | crctn (numWorkers seq latency) : Builds key (requestHdr numWorkers opCrctn seq key latency)
  | preload : Builds key (preloadHdr key)
  | fReply (recvBuffer : OrbitcacheHdr) (value) : recvBuffer.key = key →
      Builds key (recvBuffer.fetchReply value)

/-- A key is padded with zero bytes to the size of the field. -/
theorem toList_keyField {key : Bytes} (hlen : key.length ≤ keySize) :
    (keyField key).toList = key ++ List.replicate (keySize - key.length) 0 := by
  apply List.ext_getElem
  · simp
    omega
  · intro i hi hi'
    simp only [keyField, Vector.getElem_toList, Vector.getElem_ofFn, List.getD_eq_getElem?_getD]
    rw [List.getElem_append]
    split
    · next h => rw [List.getElem?_eq_getElem h, Option.getD_some]
    · next h =>
      rw [List.getElem?_eq_none (Nat.le_of_not_lt h), List.getElem_replicate, Option.getD_none]

/-- A field that is full is copied as it is, terminator or not. -/
theorem keyField_toList (key : Vector (BitVec 8) keySize) : keyField key.toList = key := by
  apply Vector.ext
  intro i hi
  simp [keyField]

/-- Nothing behind a terminator belongs to the string. -/
theorem cString_append_nul (l l' : Bytes) : cString (l ++ 0 :: l') = cString l := by
  induction l with
  | nil => simp [cString]
  | cons b l ih =>
    rw [cString] at ih
    rw [List.cons_append, cString, cString, List.takeWhile_cons, List.takeWhile_cons, ih, cString]

/-- A byte string without a zero byte is a C string. -/
theorem cString_eq_self_iff {key : Bytes} : cString key = key ↔ 0 ∉ key := by
  rw [cString, List.takeWhile_eq_self_iff]
  constructor
  · exact fun h hmem => of_decide_eq_true (h 0 hmem) rfl
  · exact fun h b hb => decide_eq_true fun h0 => h (h0 ▸ hb)

/-- The terminator in a key field ends the C string that starts there, so what is behind the field
does not matter. -/
theorem cString_keyField_append {key : Bytes} (hlen : key.length < keySize) (rest : Bytes) :
    cString ((keyField key).toList ++ rest) = cString key := by
  have hpos : keySize - key.length = keySize - key.length - 1 + 1 := by omega
  rw [toList_keyField (Nat.le_of_lt hlen), hpos, List.replicate_succ, List.append_assoc,
    List.cons_append, cString_append_nul]

/-- The terminator in a buffer ends the C string, whatever is behind. -/
theorem cString_append_of_lt {buffer : Bytes} (h : (cString buffer).length < buffer.length)
    (rest : Bytes) : cString (buffer ++ rest) = cString buffer := by
  unfold cString at *
  rw [List.takeWhile_append, if_neg h.ne]

/-- A key that fits its field is read back from it, up to the padding. -/
theorem cString_keyField {key : Bytes} (hlen : key.length < keySize) (hne : ∀ b ∈ key, b ≠ 0) :
    cString (keyField key).toList = key := by
  have h := cString_keyField_append hlen []
  rw [List.append_nil] at h
  exact h.trans (cString_eq_self_iff.2 fun hmem => hne 0 hmem rfl)

/-- A key fits its field with its terminator. -/
theorem cString_keyField_tostringKey (n : BitVec 64) :
    cString (keyField (tostringKey n)).toList = tostringKey n := by
  refine cString_keyField (by simp) fun b hb h0 => ?_
  have hpos := (mem_tostringKey hb).1
  rw [h0] at hpos
  exact Nat.lt_irrefl _ hpos

/-- Every packet a program builds for a key carries the hashes of the key, in the order in which the
switch reads them. -/
theorem Builds.extract_sent {key : Bytes} {hdr : OrbitcacheHdr} (h : Builds key hdr)
    (hkey : cString (keyField key).toList = key) (valueSize : Nat) :
    (OrbitcacheH.extract.run (hdr.sent valueSize)).map (fun r => r.1.hkey) =
      some (hash64Str key, hash64Str2 key) := by
  have hsent := congrArg (Option.map OrbitcacheH.hkey) (OrbitCache.extract_sent hdr valueSize)
  rw [Option.map_map, Option.map_some] at hsent
  refine hsent.trans (congrArg some ?_)
  rw [OrbitcacheH.hkey]
  cases h with
  | read | write | crctn => simp only [requestHdr, hkey, htonll_htonll]
  | preload => simp only [preloadHdr, hkey, htonll_htonll]
  | fReply recvBuffer value hrecv => simp only [OrbitcacheHdr.fetchReply, hrecv, htonll_htonll]

/-- The hash the hosts put into their packets, in two halves: the match key of the lookup table. -/
def hostHash (key : Bytes) : Hkey := (hash64Str key, hash64Str2 key)

/-- The switch sees the header of the client's message: the struct refines the message of the
protocol model. -/
theorem extract_requestHdr (dest : Bytes → Endpoint) (self : Endpoint) (numWorkers : Nat)
    (op : BitVec 8) (seq : BitVec 32) {key : Bytes} (hkey : cString (keyField key).toList = key)
    (value : Bytes) (latency : BitVec 32) (valueSize : Nat) :
    (OrbitcacheH.extract.run
        ((requestHdr numWorkers op seq key latency).sent valueSize)).map Prod.fst =
      some (Client.request hostHash dest self op seq key value (htonl latency)).orbitcache := by
  rw [extract_sent]
  simp only [requestHdr, hkey, htonl_htonl, htonll_htonll, Client.request, datagram, hostHash]

/-- The switch sees the header of the preload tool's message, in the same sense. -/
theorem extract_preloadHdr (src target : BitVec 32) {key : Bytes}
    (hkey : cString (keyField key).toList = key) (value : Bytes) (valueSize : Nat) :
    (OrbitcacheH.extract.run ((preloadHdr key).sent valueSize)).map Prod.fst =
      some (preloadMessage hostHash src target key value).orbitcache := by
  rw [extract_sent]
  simp only [preloadHdr, hkey, htonll_htonll, preloadMessage, datagram, hostHash]
  rfl

/-- The switch sees the header of the worker's reply to a fetch, in the same sense. -/
theorem extract_fetchReply (w : Worker) (recvBuffer : OrbitcacheHdr) {b : Payload} {value : Bytes}
    (hkey : b.orgKey = recvBuffer.key) (hvalue : w.hashlin b.orgKey = some value) {h : OrbitcacheH}
    (hrecv : (OrbitcacheH.extract.run (recvBuffer.sent 0)).map Prod.fst = some h)
    (valueSize : Nat) :
    ((w.handleFetch hostHash h b).bind Prod.snd).map Prod.fst =
      (OrbitcacheH.extract.run ((recvBuffer.fetchReply value).sent valueSize)).map Prod.fst := by
  rw [extract_sent, Option.some.injEq] at hrecv
  subst hrecv
  rw [extract_sent, Worker.handleFetch, hvalue]
  simp only [OrbitcacheHdr.fetchReply, htonll_htonll, hostHash, hkey]
  rfl

end OrbitCache
