import Mathlib.Data.List.GetD
import OrbitCache.Host.Handler

/-!
# A WRITE and the READ after it

What a READ (or a fetch of OrbitCache) returns for a key that was written before. No worker
terminates `valueStr`, so `strdup` reads behind the array after every WRITE (`not_preserves`); when
the byte it finds there is zero, NoCache and NetCache return the value, and OrbitCache returns it
with its last byte replaced by a terminator (`sent_value`).
-/

namespace OrbitCache

/-- The key field of a datagram as a C string, cut where the field ends. -/
def fieldKey (p : Protocol) (datagram : Bytes) : Bytes :=
  cString ((datagram.drop (keyOffset p)).take keySize)

/-- A worker after some datagrams; there is no result if one of them was not survived. The stack is
given for each of them, since nothing initialises it. -/
def handleAll (p : Protocol) : ServerState → List (Bytes × Stack) → Option ServerState
  | s, [] => some s
  | s, (datagram, stack) :: rest =>
    (handleDatagram p s datagram stack).after.bind fun s' => handleAll p s' rest

/-- A datagram with a full header that fits into the buffer and a key with a terminator, as clients
send them. The handlers do not check any of the three. -/
structure WellFormed (p : Protocol) (datagram : Bytes) : Prop where
  header : headerSize p ≤ datagram.length
  fits : datagram.length ≤ sizeofBuffer p
  terminated : (fieldKey p datagram).length < keySize

/-- The bytes of an OrbitCache datagram for an item, with `value` behind the header and zero in the
fields of the header that are not given. -/
def itemBytes (op cached par : BitVec 8) (number : BitVec 64) (value : Bytes) : Bytes :=
  op :: List.replicate 21 0 ++ cached :: List.replicate 4 0 ++ par :: tostringKey number ++
    0 :: value

/-- A WRITE, datagrams for other keys, and a READ (or a fetch of OrbitCache) for the key, with the
bytes of the stack at each of them. Nothing is asked of the worker that the exchange starts with. -/
structure Exchange (p : Protocol) where
  start : ServerState
  write : Bytes
  writeStack : Stack
  between : List (Bytes × Stack)
  read : Bytes
  readStack : Stack
  write_op : opField write = opWrite
  write_wf : WellFormed p write
  between_wf : ∀ e ∈ between, WellFormed p e.1 ∧ fieldKey p e.1 ≠ fieldKey p write
  read_op : opField read = opRead ∨ p = .orbitcache ∧ opField read = opFetch
  read_wf : WellFormed p read
  read_key : fieldKey p read = fieldKey p write

namespace Exchange

variable {p : Protocol} (x : Exchange p)

/-- The number of value bytes of the WRITE. -/
def valueLength : Nat := x.write.length - headerSize p

/-- What the handler of the WRITE does, on the buffer with what was received. -/
def written : Handled := handleDatagram p x.start x.write x.writeStack

/-- The reply carries exactly the fill of the WRITE, and no array element behind its array is read
or written on the way: what a client may expect of the two. -/
structure Preserves : Prop where
  write_inBounds : ∀ a ∈ x.written.accesses, a.InBounds
  replies : ∃ s s', x.written.after = some s ∧ handleAll p s x.between = some s' ∧
    (∀ a ∈ (handleDatagram p s' x.read x.readStack).accesses, a.InBounds) ∧
    ∃ pktSize bytes, (handleDatagram p s' x.read x.readStack).sent = [(pktSize, bytes)] ∧
      bytes.drop (headerSize p) = List.replicate x.valueLength byteA

end Exchange

/-! ## The buffer -/

/-- The operation is the first byte received. -/
theorem opField_append {datagram : Bytes} (h : 0 < datagram.length) (l : Bytes) :
    opField (datagram ++ l) = opField datagram :=
  List.getD_append _ _ _ _ h

/-- A well-formed datagram is not empty. -/
theorem WellFormed.pos {p : Protocol} {datagram : Bytes} (h : WellFormed p datagram) :
    0 < datagram.length := by
  refine Nat.lt_of_lt_of_le ?_ h.header
  cases p <;> decide

/-- The key is the last field of the header. -/
theorem headerSize_eq (p : Protocol) : headerSize p = keyOffset p + keySize := by
  cases p <;> rfl

/-- The key of a well-formed datagram does not depend on what is behind it. -/
theorem WellFormed.orgKey {p : Protocol} {datagram : Bytes} (h : WellFormed p datagram) (l : Bytes)
    (stack : Stack) : orgKey p (datagram ++ l) stack = fieldKey p datagram := by
  have hheader := h.header
  rw [headerSize_eq] at hheader
  have hfield : ((datagram.drop (keyOffset p)).take keySize).length = keySize := by
    rw [List.length_take, List.length_drop]
    omega
  have hlt := h.terminated
  rw [OrbitCache.orgKey, List.drop_append_of_le_length (by omega),
    ← List.take_append_drop keySize (datagram.drop (keyOffset p)), List.append_assoc,
    List.append_assoc]
  unfold fieldKey cString at *
  rw [List.takeWhile_append, if_neg (by omega)]

/-- So the key that is looked up is that of the datagram, for all protocols. -/
theorem WellFormed.tableKey {p : Protocol} {datagram : Bytes} (h : WellFormed p datagram)
    (l : Bytes) (stack : Stack) : tableKey p (datagram ++ l) stack = fieldKey p datagram := by
  have hkey := h.orgKey l stack
  cases p with
  | nocache | netcache => exact hkey
  | orbitcache =>
    rw [OrbitCache.tableKey, keyStr, hkey]
    exact if_pos h.terminated

/-! ## The WRITE -/

/-- A WRITE is handled by the handler of WRITEs, in each protocol. -/
theorem handleBuffer_write {p : Protocol} {s : ServerState} {n : Nat} {stack : Stack}
    (h : opField s.recvBuffer = opWrite) : handleBuffer p s n stack = handleWrite p s n stack := by
  cases p <;> simp only [handleBuffer, h] <;> rfl

/-- `value_size` is the number of bytes behind the header, if there is a full one; with less it
wraps around. -/
theorem toNat_receivedSize {p : Protocol} {n : Nat} (hheader : headerSize p ≤ n)
    (hfits : n ≤ sizeofBuffer p) : (receivedSize p n).toNat = n - headerSize p := by
  have hlt := headerSize_lt p
  rw [receivedSize, BitVec.toNat_sub, toNat_headerSize, BitVec.toNat_ofNat]
  simp only [sizeofBuffer, maxValueSize] at hfits
  omega

/-- The string that is stored: the fill and what follows it on the stack up to the next zero byte.
-/
theorem valueStr_eq (valueSize : SizeT) (stack : Stack) :
    valueStr valueSize stack =
      List.replicate valueSize.toNat byteA ++ cString stack.valueStr := by
  refine List.takeWhile_append_of_pos fun b hb => ?_
  rw [List.eq_of_mem_replicate hb]
  decide

/-- `strdup` reads the place behind `valueStr`, whatever was received: the array has no place for a
terminator. -/
theorem valueStrAccess_not_inBounds (valueSize : SizeT) (stack : Stack) :
    ¬ (valueStrAccess valueSize stack).InBounds := by
  simp only [Access.InBounds, valueStrAccess, valueStr_eq, List.length_append,
    List.length_replicate]
  omega

namespace Exchange

variable {p : Protocol} (x : Exchange p)

/-- The WRITE of an exchange is handled as one. -/
theorem written_eq : x.written =
    handleWrite p (x.start.recvfrom x.write) x.write.length x.writeStack :=
  handleBuffer_write ((opField_append x.write_wf.pos _).trans x.write_op)

/-- No WRITE keeps to its arrays: `strdup` reads behind `valueStr` to find a terminator. -/
theorem written_not_inBounds : ¬ ∀ a ∈ x.written.accesses, a.InBounds := by
  intro h
  rw [written_eq] at h
  exact valueStrAccess_not_inBounds _ _ (h _ (List.mem_singleton_self _))

/-- No worker meets what is expected of a WRITE and the READ after it: `strdup` reads behind
`valueStr`, which nothing terminates, whatever the key, the length and the rest of the stack are. -/
theorem not_preserves : ¬ x.Preserves := fun h => x.written_not_inBounds h.write_inBounds

/-- One value byte for the empty key, and a READ of it, in an OrbitCache worker whose stack holds
terminators, so that nothing behind the array gets into the value. -/
def oneByte : Exchange .orbitcache where
  start := ⟨fun _ => none, List.replicate (sizeofBuffer .orbitcache) 0⟩
  write := opWrite :: List.replicate 44 0
  writeStack := ⟨[], [], []⟩
  between := []
  read := opRead :: List.replicate 43 0
  readStack := ⟨[], [], []⟩
  write_op := by decide
  write_wf := ⟨by decide, by decide, by decide⟩
  between_wf := nofun
  read_op := by decide
  read_wf := ⟨by decide, by decide, by decide⟩
  read_key := by decide

/-- `strdup` reads `valueStr[1]` of an array of one element. -/
theorem not_preserves_oneByte : ¬ oneByte.Preserves :=
  fun h => oneByte.written_not_inBounds h.write_inBounds

end Exchange

/-! ## The table -/

section
variable {p : Protocol} {s s' : ServerState} {n : Nat} {stack : Stack}

/-- A handler that returns a stored value leaves the table as it is, whether it finds the value or
not. -/
theorem hashlin_stored {key : Bytes} {f : Bytes → Handled}
    (hf : ∀ value, (f value).after.map ServerState.hashlin = some s.hashlin)
    (h : (match s.hashlin key with
      | none => Handled.null
      | some value => f value).after = some s') : s'.hashlin = s.hashlin := by
  split at h
  · cases h
  · next value _ =>
    have hafter := hf value
    rw [h, Option.map_some, Option.some.injEq] at hafter
    exact hafter

/-- The READ handler stores nothing. -/
theorem hashlin_handleRead (h : (handleRead p s stack).after = some s') :
    s'.hashlin = s.hashlin :=
  hashlin_stored (fun _ => rfl) h

/-- Nor does that of OrbitCache, -/
theorem hashlin_handleReadOrbitcache (h : (handleReadOrbitcache s stack).after = some s') :
    s'.hashlin = s.hashlin :=
  hashlin_stored (fun _ => rfl) h

/-- nor its fetch handler. -/
theorem hashlin_handleFetchOrbitcache (h : (handleFetchOrbitcache s stack).after = some s') :
    s'.hashlin = s.hashlin :=
  hashlin_stored (fun _ => rfl) h

/-- A handler leaves the table as it is or stores the received value under the key of its datagram.
It is all that a step does to the table. -/
theorem hashlin_handleBuffer (h : (handleBuffer p s n stack).after = some s') :
    s'.hashlin = s.hashlin ∨ s'.hashlin =
      tommyPut s.hashlin (tableKey p s.recvBuffer stack) (valueStr (receivedSize p n) stack) := by
  have hwrite (h : (handleWrite p s n stack).after = some s') : s'.hashlin =
      tommyPut s.hashlin (tableKey p s.recvBuffer stack) (valueStr (receivedSize p n) stack) := by
    cases h
    rfl
  have hignored (h : (Handled.ignored s).after = some s') : s'.hashlin = s.hashlin := by
    cases h
    rfl
  cases p with
  | nocache =>
    simp only [handleBuffer] at h
    split at h
    · exact .inl (hashlin_handleRead h)
    · split at h
      · exact .inr (hwrite h)
      · exact .inl (hignored h)
  | netcache =>
    simp only [handleBuffer] at h
    split at h
    · exact .inl (hashlin_handleRead h)
    · split at h
      · exact .inr (hwrite h)
      · split at h
        · cases h
          exact .inr rfl
        · exact .inl (hignored h)
  | orbitcache =>
    simp only [handleBuffer] at h
    split at h
    · exact .inl (hashlin_handleReadOrbitcache h)
    · split at h
      · exact .inl (hashlin_handleFetchOrbitcache h)
      · split at h
        · exact .inr (hwrite h)
        · exact .inl (hignored h)

/-- A handler changes the value of no key but that of its datagram. -/
theorem hashlin_handleBuffer_ne (h : (handleBuffer p s n stack).after = some s') {key : Bytes}
    (hkey : key ≠ tableKey p s.recvBuffer stack) : s'.hashlin key = s.hashlin key := by
  obtain heq | heq := hashlin_handleBuffer h
  · rw [heq]
  · rw [heq]
    exact Function.update_of_ne hkey _ _

/-- Datagrams for other keys leave the value of a key as it is, by induction. -/
theorem hashlin_handleAll {key : Bytes} {l : List (Bytes × Stack)}
    (hl : ∀ e ∈ l, WellFormed p e.1 ∧ fieldKey p e.1 ≠ key) (h : handleAll p s l = some s') :
    s'.hashlin key = s.hashlin key := by
  induction l generalizing s with
  | nil =>
    cases h
    rfl
  | cons e l ih =>
    obtain ⟨datagram, stack⟩ := e
    obtain ⟨t, ht, h⟩ := Option.bind_eq_some_iff.1 h
    obtain ⟨hwf, hne⟩ := hl _ List.mem_cons_self
    rw [ih (fun e he => hl e (List.mem_cons_of_mem _ he)) h]
    refine hashlin_handleBuffer_ne (s := s.recvfrom datagram) ht ?_
    rw [ServerState.recvfrom, hwf.tableKey]
    exact hne.symm

end

/-! ## The reply -/

/-- A write inside the buffer does not make it longer. -/
theorem length_writeAt {buffer bytes : Bytes} {offset : Nat}
    (h : offset + bytes.length ≤ buffer.length) :
    (writeAt buffer offset bytes).length = buffer.length := by
  simp only [writeAt, List.length_append, List.length_take, List.length_drop]
  omega

/-- What is written in front of a place leaves the bytes behind it. -/
theorem drop_writeAt {buffer bytes : Bytes} {offset m : Nat} (hm : offset + bytes.length ≤ m)
    (h : offset + bytes.length ≤ buffer.length) :
    (writeAt buffer offset bytes).drop m = buffer.drop m := by
  obtain ⟨k, rfl⟩ := Nat.exists_eq_add_of_le hm
  have hlen : (buffer.take offset ++ bytes).length = offset + bytes.length := by
    rw [List.length_append, List.length_take]
    omega
  rw [writeAt, ← List.drop_drop, List.drop_left' hlen, List.drop_drop]

/-- A write into the header leaves a full header. -/
theorem header_le_writeAt {p : Protocol} {buffer bytes : Bytes} {offset : Nat}
    (hoffset : offset + bytes.length ≤ headerSize p) (h : headerSize p ≤ buffer.length) :
    headerSize p ≤ (writeAt buffer offset bytes).length := by
  rwa [length_writeAt (hoffset.trans h)]

/-- The hashes and the operation are written into the header, which stays full. -/
theorem header_le_fetched {buffer : Bytes} {hi lo : Nat} {op : BitVec 8}
    (h : headerSize .orbitcache ≤ buffer.length) : headerSize .orbitcache ≤
      (writeAt (writeAt (writeAt buffer 5 (Endian.bytes 8 hi)) 13 (Endian.bytes 8 lo)) 0
        [op]).length := by
  have hhi : 5 + (Endian.bytes 8 hi).length ≤ headerSize .orbitcache := by
    rw [Endian.length_bytes]
    decide
  have hlo : 13 + (Endian.bytes 8 lo).length ≤ headerSize .orbitcache := by
    rw [Endian.length_bytes]
    decide
  have hop : 0 + [op].length ≤ headerSize .orbitcache := by
    rw [List.length_singleton]
    decide
  exact header_le_writeAt hop (header_le_writeAt hlo (header_le_writeAt hhi h))

/-- The buffer reaches at least up to where something is written. -/
theorem le_length_writeAt {buffer : Bytes} {offset : Nat} (h : offset ≤ buffer.length)
    (bytes : Bytes) : offset ≤ (writeAt buffer offset bytes).length := by
  simp only [writeAt, List.length_append, List.length_take]
  omega

/-- What is written at a place stands there. -/
theorem prefix_drop_writeAt {buffer bytes : Bytes} {offset : Nat} (h : offset ≤ buffer.length) :
    bytes <+: (writeAt buffer offset bytes).drop offset := by
  have hlen : (buffer.take offset).length = offset := by
    rw [List.length_take]
    omega
  rw [writeAt, List.append_assoc, List.drop_left' hlen]
  exact List.prefix_append _ _

/-- The flags of a fetch reply are written after the value, in front of it. -/
theorem prefix_drop_fetched {buffer bytes : Bytes} {flag cached : BitVec 8}
    (h : headerSize .orbitcache ≤ buffer.length) : bytes <+:
      (writeAt (writeAt (writeAt buffer (headerSize .orbitcache) bytes) 21 [flag]) 22 [cached]).drop
        (headerSize .orbitcache) := by
  have hflag : 21 + [flag].length ≤ headerSize .orbitcache := by
    rw [List.length_singleton]
    decide
  have hcached : 22 + [cached].length ≤ headerSize .orbitcache := by
    rw [List.length_singleton]
    decide
  have hvalue := le_length_writeAt h bytes
  rw [drop_writeAt hcached (hcached.trans (header_le_writeAt hflag hvalue)),
    drop_writeAt hflag (hflag.trans hvalue)]
  exact prefix_drop_writeAt h

/-- The size of a packet with a short value does not wrap around. -/
theorem toNat_pktSize (p : Protocol) {value : Bytes} (hshort : value.length < 2 ^ 63) :
    (BitVec.ofNat 64 (headerSize p) + strlen value).toNat = headerSize p + value.length := by
  have hlt := headerSize_lt p
  rw [BitVec.toNat_add, toNat_headerSize, strlen, BitVec.toNat_ofNat]
  omega

/-- The value bytes of a datagram whose buffer holds them behind the header. -/
theorem drop_sendto {p : Protocol} {buffer bytes value : Bytes}
    (hbuffer : bytes <+: buffer.drop (headerSize p)) (hlen : bytes.length = value.length)
    (hshort : value.length < 2 ^ 63) :
    (sendto buffer (BitVec.ofNat 64 (headerSize p) + strlen value)).2.drop (headerSize p) =
      bytes := by
  obtain ⟨rest, hrest⟩ := hbuffer
  rw [sendto, toNat_pktSize p hshort, List.drop_take, ← hrest, Nat.add_sub_cancel_left, ← hlen,
    List.take_left]

/-- As many bytes are sent as the value has, the terminator in the place of the last one. -/
theorem length_snprintfValue (value : Bytes) : (snprintfValue value).length = value.length := by
  rw [snprintfValue]
  split
  · next h => rw [h]
  · next h =>
    rw [List.length_append, List.length_dropLast, List.length_singleton]
    have := List.length_pos_iff.2 h
    omega

/-- The value bytes a branch returns for a stored value: OrbitCache loses the last byte to
`snprintf`, whose size leaves no room for the terminator. -/
def returned (p : Protocol) (value : Bytes) : Bytes :=
  if p = .orbitcache then snprintfValue value else value

/-- A branch returns the fill only if nothing follows it; OrbitCache replaces its last byte. -/
theorem returned_eq_iff (p : Protocol) (l : Nat) (junk : Bytes) :
    returned p (List.replicate l byteA ++ junk) = List.replicate l byteA ↔
      junk = [] ∧ (p = .orbitcache → l = 0) := by
  have hlength : (returned p (List.replicate l byteA ++ junk)).length = l + junk.length := by
    rw [returned]
    split <;> simp [length_snprintfValue]
  constructor
  · intro h
    have hjunk : junk = [] := by
      have hlen := congrArg List.length h
      rw [hlength, List.length_replicate] at hlen
      exact List.length_eq_zero_iff.1 (by omega)
    refine ⟨hjunk, fun hp => ?_⟩
    by_contra hl
    subst hjunk hp
    obtain ⟨k, rfl⟩ := Nat.exists_eq_succ_of_ne_zero hl
    have hmem : (0 : BitVec 8) ∈ List.replicate (k + 1) byteA := by
      rw [← h, returned, if_pos rfl, snprintfValue, if_neg (by simp)]
      exact List.mem_append_right _ (List.mem_singleton_self _)
    exact absurd (List.eq_of_mem_replicate hmem) (by decide)
  · rintro ⟨rfl, hl⟩
    rw [List.append_nil, returned]
    split
    · next hp =>
      rw [hl hp]
      rfl
    · rfl

section
variable {p : Protocol} {s : ServerState} {n : Nat} {stack : Stack} {value : Bytes}

/-- The READ handler sends the stored value. -/
theorem handleRead_sent (hvalue : s.hashlin (tableKey p s.recvBuffer stack) = some value)
    (hshort : value.length < 2 ^ 63) (hbuffer : headerSize p ≤ s.recvBuffer.length) :
    ∃ e, (handleRead p s stack).sent = [e] ∧ e.2.drop (headerSize p) = value := by
  have hop : 0 + [opRReply].length ≤ headerSize p := by cases p <;> decide
  simp only [handleRead, hvalue]
  refine ⟨_, rfl, drop_sendto ((List.prefix_append value [0]).trans ?_) rfl hshort⟩
  exact prefix_drop_writeAt (header_le_writeAt hop hbuffer)

/-- That of OrbitCache sends what `snprintf` leaves of it, -/
theorem handleReadOrbitcache_sent
    (hvalue : s.hashlin (tableKey .orbitcache s.recvBuffer stack) = some value)
    (hshort : value.length < 2 ^ 63) (hbuffer : headerSize .orbitcache ≤ s.recvBuffer.length) :
    ∃ e, (handleReadOrbitcache s stack).sent = [e] ∧
      e.2.drop (headerSize .orbitcache) = snprintfValue value := by
  simp only [handleReadOrbitcache, hvalue]
  refine ⟨_, rfl, drop_sendto ?_ (length_snprintfValue value) hshort⟩
  exact prefix_drop_writeAt (header_le_writeAt (by decide) (header_le_writeAt (by decide) hbuffer))

/-- and so does its fetch handler. -/
theorem handleFetchOrbitcache_sent
    (hvalue : s.hashlin (tableKey .orbitcache s.recvBuffer stack) = some value)
    (hshort : value.length < 2 ^ 63) (hbuffer : headerSize .orbitcache ≤ s.recvBuffer.length) :
    ∃ e, (handleFetchOrbitcache s stack).sent = [e] ∧
      e.2.drop (headerSize .orbitcache) = snprintfValue value := by
  simp only [handleFetchOrbitcache, hvalue]
  refine ⟨_, rfl, drop_sendto ?_ (length_snprintfValue value) hshort⟩
  exact prefix_drop_fetched (header_le_fetched hbuffer)

/-- What a READ (or a fetch of OrbitCache) of a stored value returns, whatever the branch is. -/
theorem handleBuffer_sent
    (hop : opField s.recvBuffer = opRead ∨ p = .orbitcache ∧ opField s.recvBuffer = opFetch)
    (hvalue : s.hashlin (tableKey p s.recvBuffer stack) = some value)
    (hshort : value.length < 2 ^ 63) (hbuffer : headerSize p ≤ s.recvBuffer.length) :
    ∃ e, (handleBuffer p s n stack).sent = [e] ∧ e.2.drop (headerSize p) = returned p value := by
  have hfr : ¬ opFetch = opRead := by decide
  have hfc : ¬ opFetch = opCrctn := by decide
  rcases hop with hread | ⟨rfl, hfetch⟩
  · cases p with
    | nocache | netcache =>
      simp only [handleBuffer, hread, if_true]
      exact handleRead_sent hvalue hshort hbuffer
    | orbitcache =>
      simp only [handleBuffer, hread, true_or, if_true]
      exact handleReadOrbitcache_sent hvalue hshort hbuffer
  · simp only [handleBuffer, hfetch, hfr, hfc, or_self, if_false, if_true]
    exact handleFetchOrbitcache_sent hvalue hshort hbuffer

end

namespace Exchange

variable {p : Protocol} (x : Exchange p)

/-- The value of the key after the WRITE: the fill and what follows it on the stack. -/
theorem written_hashlin : ∃ s, x.written.after = some s ∧ s.hashlin (fieldKey p x.write) =
    some (List.replicate x.valueLength byteA ++ cString x.writeStack.valueStr) := by
  have hsize : (receivedSize p x.write.length).toNat = x.valueLength :=
    toNat_receivedSize x.write_wf.header x.write_wf.fits
  rw [written_eq]
  refine ⟨_, rfl, ?_⟩
  rw [← hsize, ← valueStr_eq, ServerState.recvfrom, x.write_wf.tableKey]
  exact Function.update_self ..

/-- The value bytes of the reply: the fill and what follows it on the stack, as the branch returns
it. -/
theorem sent_value (hshort : x.writeStack.valueStr.length < 2 ^ 62) {s s' : ServerState}
    (hs : x.written.after = some s) (hs' : handleAll p s x.between = some s') :
    ∃ e, (handleDatagram p s' x.read x.readStack).sent = [e] ∧ e.2.drop (headerSize p) =
      returned p (List.replicate x.valueLength byteA ++ cString x.writeStack.valueStr) := by
  obtain ⟨t, ht, hvalue⟩ := x.written_hashlin
  rw [hs, Option.some.injEq] at ht
  subst ht
  rw [← hashlin_handleAll x.between_wf hs', ← x.read_key] at hvalue
  have hfits := x.write_wf.fits
  have hjunk : (cString x.writeStack.valueStr).length ≤ x.writeStack.valueStr.length :=
    (List.takeWhile_prefix _).length_le
  refine handleBuffer_sent ?_ ?_ ?_ ?_
  · rw [ServerState.recvfrom, opField_append x.read_wf.pos]
    exact x.read_op
  · rw [ServerState.recvfrom, x.read_wf.tableKey]
    exact hvalue
  · have hlt := headerSize_lt p
    simp only [sizeofBuffer, maxValueSize] at hfits
    rw [List.length_append, List.length_replicate, valueLength]
    omega
  · rw [ServerState.recvfrom, List.length_append]
    exact Nat.le_add_right_of_le x.read_wf.header

/-- The reply carries the fill exactly if the byte behind `valueStr` was a terminator and, for
OrbitCache, the value is empty. -/
theorem carries_iff (hshort : x.writeStack.valueStr.length < 2 ^ 62) {s s' : ServerState}
    (hs : x.written.after = some s) (hs' : handleAll p s x.between = some s') :
    (∃ e, (handleDatagram p s' x.read x.readStack).sent = [e] ∧
      e.2.drop (headerSize p) = List.replicate x.valueLength byteA) ↔
      cString x.writeStack.valueStr = [] ∧ (p = .orbitcache → x.valueLength = 0) := by
  obtain ⟨e, he, hvalue⟩ := x.sent_value hshort hs hs'
  rw [← returned_eq_iff, ← hvalue, he]
  constructor
  · rintro ⟨e', he', hfill⟩
    obtain rfl := List.singleton_inj.1 he'
    exact hfill
  · intro hfill
    exact ⟨e, rfl, hfill⟩

end Exchange

end OrbitCache
