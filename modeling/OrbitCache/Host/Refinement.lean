import OrbitCache.Host.WriteRead

/-!
# Bytes and messages

The OrbitCache branch on bytes (`handleDatagram`) and the worker on messages (`Worker.handle`),
which the cluster is made of: on a well-formed datagram the worker does on the message what the
branch does on its bytes (`handleDatagram_refines`), and so their tables agree after every run
(`handleAll_refines`).
-/

namespace OrbitCache

/-- Some bytes of a string: `width` of them, from an offset on, as a field is read. -/
def slice (l : Bytes) (offset width : Nat) : Bytes := (l.drop offset).take width

/-- The header the switch extracts, read off the bytes at the offsets of its fields. -/
def headerOf (l : Bytes) : OrbitcacheH where
  op := BitVec.ofNat 8 (Endian.big (slice l 0 1))
  seq := BitVec.ofNat 32 (Endian.big (slice l 1 4))
  hkeyHi := BitVec.ofNat 64 (Endian.big (slice l 5 8))
  hkeyLo := BitVec.ofNat 64 (Endian.big (slice l 13 8))
  flag := BitVec.ofNat 8 (Endian.big (slice l 21 1))
  cached := BitVec.ofNat 8 (Endian.big (slice l 22 1))
  latency := BitVec.ofNat 32 (Endian.big (slice l 23 4))

/-- The message of a datagram: the key as a C string, and the bytes behind the header as the value.
-/
def payloadOf (l : Bytes) (tag : Tag) : Payload where
  orgKey := fieldKey .orbitcache l
  value := l.drop (headerSize .orbitcache)
  tag := tag

/-! ## Slices -/

/-- A slice does not depend on what follows it, so a field may be read before the rest is known. -/
theorem slice_append {l : Bytes} {offset width : Nat} (h : offset + width ≤ l.length) (l' : Bytes) :
    slice (l ++ l') offset width = slice l offset width := by
  rw [slice, List.drop_append_of_le_length (by omega), List.take_append_of_le_length, slice]
  rw [List.length_drop]
  omega

/-- Nor on a cut behind it. -/
theorem slice_take {l : Bytes} {offset width n : Nat} (h : offset + width ≤ n) :
    slice (l.take n) offset width = slice l offset width := by
  rw [slice, List.drop_take, List.take_take, Nat.min_eq_left (by omega), slice]

/-- A slice in front of what is written is not changed. -/
theorem slice_writeAt_before {buffer bytes : Bytes} {at' offset width : Nat}
    (h : offset + width ≤ at') (hat : at' ≤ buffer.length) :
    slice (writeAt buffer at' bytes) offset width = slice buffer offset width := by
  rw [writeAt, List.append_assoc, slice_append, slice_take h]
  rw [List.length_take]
  omega

/-- A slice behind what is written is not changed either. -/
theorem slice_writeAt_after {buffer bytes : Bytes} {at' offset width : Nat}
    (h : at' + bytes.length ≤ offset) (hat : at' + bytes.length ≤ buffer.length) :
    slice (writeAt buffer at' bytes) offset width = slice buffer offset width := by
  rw [slice, drop_writeAt h hat, slice]

/-- The slice that is written is read as it was written. -/
theorem slice_writeAt_self {buffer bytes : Bytes} {offset width : Nat} (h : offset ≤ buffer.length)
    (hwidth : bytes.length = width) : slice (writeAt buffer offset bytes) offset width = bytes := by
  obtain ⟨l, hl⟩ : bytes <+: (writeAt buffer offset bytes).drop offset := prefix_drop_writeAt h
  rw [slice, ← hl, List.take_left' hwidth]

/-- The bytes behind what is written, as far as they are sent, are those that were in the buffer. -/
theorem drop_take_writeAt {buffer bytes : Bytes} {offset m n : Nat} (hm : offset + bytes.length ≤ m)
    (h : offset + bytes.length ≤ buffer.length) :
    ((writeAt buffer offset bytes).take n).drop m = (buffer.take n).drop m := by
  rw [List.drop_take, drop_writeAt hm h, List.drop_take]

/-! ## The header -/

/-- A field of a packet that is long enough is taken off its front. -/
theorem extractField_run {l : Bytes} {width : Nat} (h : width ≤ l.length) :
    (extractField width).run l = some (Endian.big (l.take width), l.drop width) := by
  rw [StateT.run, extractField, if_neg (Nat.not_lt.2 h)]

/-- What the switch extracts from a packet that is long enough is what stands at the offsets. -/
theorem extract_eq {l : Bytes} (h : 27 ≤ l.length) :
    OrbitcacheH.extract.run l = some (headerOf l, l.drop 27) := by
  have hfield (offset width : Nat) (hle : offset + width ≤ 27) :
      (extractField width).run (l.drop offset) =
        some (Endian.big (slice l offset width), l.drop (offset + width)) := by
    rw [extractField_run (by rw [List.length_drop]; omega), List.drop_drop, slice]
  have hop : (extractField 1).run l = some (Endian.big (slice l 0 1), l.drop 1) :=
    hfield 0 1 (by decide)
  have hseq := hfield 1 4 (by decide)
  have hhi := hfield 5 8 (by decide)
  have hlo := hfield 13 8 (by decide)
  have hflag := hfield 21 1 (by decide)
  have hcached := hfield 22 1 (by decide)
  have hlatency := hfield 23 4 (by decide)
  simp only [OrbitcacheH.extract, StateT.run_bind, StateT.run_pure, Option.bind_eq_bind, hop, hseq,
    hhi, hlo, hflag, hcached, hlatency, Option.bind_some, Option.pure_def]
  rfl

/-- The header does not depend on what is behind it. -/
theorem headerOf_append {l : Bytes} (h : 27 ≤ l.length) (l' : Bytes) :
    headerOf (l ++ l') = headerOf l := by
  simp only [headerOf]
  rw [slice_append (by omega), slice_append (by omega), slice_append (by omega),
    slice_append (by omega), slice_append (by omega), slice_append (by omega),
    slice_append (by omega)]

/-- Nor on where the datagram ends, if that is behind the header. -/
theorem headerOf_take {l : Bytes} {n : Nat} (h : 27 ≤ n) : headerOf (l.take n) = headerOf l := by
  simp only [headerOf]
  rw [slice_take (by omega), slice_take (by omega), slice_take (by omega), slice_take (by omega),
    slice_take (by omega), slice_take (by omega), slice_take (by omega)]

/-- A field of one byte is the byte at its offset. -/
theorem slice_one {l : Bytes} {offset : Nat} (h : offset < l.length) :
    BitVec.ofNat 8 (Endian.big (slice l offset 1)) = l.getD offset 0 := by
  rw [slice, List.drop_eq_getElem_cons h, List.take_succ_cons, List.take_zero, Endian.big_singleton,
    BitVec.ofNat_toNat, BitVec.setWidth_eq, List.getD_eq_getElem _ _ h]

/-- The first byte is the operation for both the switch and the worker. -/
theorem headerOf_op {l : Bytes} (h : 27 ≤ l.length) : (headerOf l).op = opField l :=
  slice_one (by omega)

/-- They also agree on where the flag is. -/
theorem headerOf_flag {l : Bytes} (h : 27 ≤ l.length) : (headerOf l).flag = flagField l :=
  slice_one (by omega)

/-! ## Writes into the buffer -/

/-- A slice that does not meet what is written, on either side of it. -/
theorem slice_writeAt_ne {buffer bytes : Bytes} {at' offset width : Nat}
    (h : offset + width ≤ at' ∨ at' + bytes.length ≤ offset)
    (hat : at' + bytes.length ≤ buffer.length) :
    slice (writeAt buffer at' bytes) offset width = slice buffer offset width := by
  rcases h with h | h
  · exact slice_writeAt_before h (by omega)
  · exact slice_writeAt_after h hat

section
variable {buffer : Bytes}

/-- The assignment to `op` changes that field of the header. -/
theorem headerOf_writeAt_op (h : 27 ≤ buffer.length) (b : BitVec 8) :
    headerOf (writeAt buffer 0 [b]) = { headerOf buffer with op := b } := by
  have hself : slice (writeAt buffer 0 [b]) 0 1 = [b] := slice_writeAt_self (Nat.zero_le _) rfl
  simp (disch := (simp only [List.length_singleton]; omega)) only [headerOf, hself,
    slice_writeAt_ne, Endian.big_singleton, BitVec.ofNat_toNat, BitVec.setWidth_eq]

/-- So does the assignment to `flag`, -/
theorem headerOf_writeAt_flag (h : 27 ≤ buffer.length) (b : BitVec 8) :
    headerOf (writeAt buffer 21 [b]) = { headerOf buffer with flag := b } := by
  have hself : slice (writeAt buffer 21 [b]) 21 1 = [b] := slice_writeAt_self (by omega) rfl
  simp (disch := (simp only [List.length_singleton]; omega)) only [headerOf, hself,
    slice_writeAt_ne, Endian.big_singleton, BitVec.ofNat_toNat, BitVec.setWidth_eq]

/-- and the one to `cached`. -/
theorem headerOf_writeAt_cached (h : 27 ≤ buffer.length) (b : BitVec 8) :
    headerOf (writeAt buffer 22 [b]) = { headerOf buffer with cached := b } := by
  have hself : slice (writeAt buffer 22 [b]) 22 1 = [b] := slice_writeAt_self (by omega) rfl
  simp (disch := (simp only [List.length_singleton]; omega)) only [headerOf, hself,
    slice_writeAt_ne, Endian.big_singleton, BitVec.ofNat_toNat, BitVec.setWidth_eq]

/-- The switch reads the hash that `htonll` was applied to. -/
theorem big_bytes_htonll (x : BitVec 64) :
    BitVec.ofNat 64 (Endian.big (Endian.bytes 8 (htonll x).toNat)) = x := by
  have hswap : Endian.big (Endian.bytes 8 (htonll x).toNat) = Endian.swap 8 (htonll x).toNat := rfl
  rw [hswap, ofNat_swap_eq_htonll, htonll_htonll]

/-- The assignment to `hkey_hi` after `htonll` gives the switch the hash itself. -/
theorem headerOf_writeAt_hkeyHi (h : 27 ≤ buffer.length) (x : BitVec 64) :
    headerOf (writeAt buffer 5 (Endian.bytes 8 (htonll x).toNat)) =
      { headerOf buffer with hkeyHi := x } := by
  have hself := slice_writeAt_self (h.trans' (by decide : 5 ≤ 27))
    (Endian.length_bytes 8 (htonll x).toNat)
  simp (disch := (simp only [Endian.length_bytes]; omega)) only [headerOf, hself,
    slice_writeAt_ne, big_bytes_htonll]

/-- The same for `hkey_lo`. -/
theorem headerOf_writeAt_hkeyLo (h : 27 ≤ buffer.length) (x : BitVec 64) :
    headerOf (writeAt buffer 13 (Endian.bytes 8 (htonll x).toNat)) =
      { headerOf buffer with hkeyLo := x } := by
  have hself := slice_writeAt_self (h.trans' (by decide : 13 ≤ 27))
    (Endian.length_bytes 8 (htonll x).toNat)
  simp (disch := (simp only [Endian.length_bytes]; omega)) only [headerOf, hself,
    slice_writeAt_ne, big_bytes_htonll]

/-- The value is behind the header, so writing it does not change what the switch extracts. -/
theorem headerOf_writeAt_value (h : headerSize .orbitcache ≤ buffer.length) (bytes : Bytes) :
    headerOf (writeAt buffer (headerSize .orbitcache) bytes) = headerOf buffer := by
  simp only [headerSize] at h ⊢
  simp (disch := omega) only [headerOf, slice_writeAt_before]

/-- `org_key` is behind the fields of the switch, so the assignments to those keep the key. -/
theorem fieldKey_writeAt {offset : Nat} {bytes : Bytes}
    (hoffset : offset + bytes.length ≤ keyOffset .orbitcache)
    (h : headerSize .orbitcache ≤ buffer.length) :
    fieldKey .orbitcache (writeAt buffer offset bytes) = fieldKey .orbitcache buffer := by
  simp only [headerSize, keyOffset, keySize] at h hoffset
  exact congrArg cString (slice_writeAt_after hoffset (hoffset.trans (Nat.le_trans (by decide) h)))

/-- The value is behind the key. -/
theorem fieldKey_writeAt_value (h : headerSize .orbitcache ≤ buffer.length) (bytes : Bytes) :
    fieldKey .orbitcache (writeAt buffer (headerSize .orbitcache) bytes) =
      fieldKey .orbitcache buffer :=
  congrArg cString (slice_writeAt_before (by decide) h)

end

/-! ## The handlers -/

/-- The lengths of the stored values are far from the bound of `size_t`, so no sum of lengths wraps
around. -/
def ServerState.Short (s : ServerState) : Prop :=
  ∀ key value, s.hashlin key = some value → value.length < 2 ^ 63

/-- What the hosts see of a datagram: the header, the key and the value. -/
def messageOf (l : Bytes) : OrbitcacheH × Bytes × Bytes :=
  (headerOf l, fieldKey .orbitcache l, l.drop (headerSize .orbitcache))

/-- The bytes a handler stores and sends are those of a worker's table and reply; the handler
returns exactly if the worker does. It connects the worker on bytes to the one on messages, which
the results about the system use. -/
structure Handled.Refines (x : Handled) (r : Option (Worker × Option (OrbitcacheH × Payload))) :
    Prop where
  table_eq : x.after.map ServerState.hashlin = r.map fun r => r.1.hashlin
  sent_eq : x.sent.map (fun e => messageOf e.2) =
    ((r.bind Prod.snd).map fun m => (m.1, m.2.orgKey, m.2.value)).toList

/-- The first bytes of a buffer as a message: its header, its key and the value bytes that are sent.
-/
theorem messageOf_sendto {buffer value : Bytes} {pktSize : SizeT}
    (hsize : headerSize .orbitcache ≤ pktSize.toNat)
    (hvalue : (sendto buffer pktSize).2.drop (headerSize .orbitcache) = value) :
    messageOf (sendto buffer pktSize).2 =
      (headerOf buffer, fieldKey .orbitcache buffer, value) := by
  have hkey : fieldKey .orbitcache (sendto buffer pktSize).2 = fieldKey .orbitcache buffer :=
    congrArg cString (slice_take hsize)
  rw [messageOf, hvalue, hkey, sendto, headerOf_take (Nat.le_trans (by decide) hsize)]

section
variable {s : ServerState} {w : Worker} {stack : Stack} {b : Payload}

/-- The READ branch does on the bytes what the worker does on the message: it looks up the key and
sends the value behind the header. -/
theorem handleReadOrbitcache_refines (htable : w.hashlin = s.hashlin) (hshort : s.Short)
    (hbuffer : headerSize .orbitcache ≤ s.recvBuffer.length)
    (hkey : tableKey .orbitcache s.recvBuffer stack = b.orgKey)
    (horgKey : fieldKey .orbitcache s.recvBuffer = b.orgKey) :
    (handleReadOrbitcache s stack).Refines (w.handleRead (headerOf s.recvBuffer) b) := by
  rw [handleReadOrbitcache, Worker.handleRead, hkey, htable]
  cases hvalue : s.hashlin b.orgKey with
  | none => exact ⟨rfl, rfl⟩
  | some value =>
    refine ⟨congrArg some htable.symm, congrArg (fun m => [m]) ?_⟩
    have hlen := hshort _ _ hvalue
    have hop := header_le_writeAt (show 0 + [opRReply].length ≤ headerSize .orbitcache by decide)
      hbuffer
    have hflag := header_le_writeAt (show 21 + [lastAck].length ≤ headerSize .orbitcache by decide)
      hop
    refine (messageOf_sendto ((Nat.le_add_right _ _).trans_eq (toNat_pktSize _ hlen).symm)
      (drop_sendto (prefix_drop_writeAt hflag) (length_snprintfValue value) hlen)).trans ?_
    rw [headerOf_writeAt_value hflag, headerOf_writeAt_flag (Nat.le_trans (by decide) hop),
      headerOf_writeAt_op (Nat.le_trans (by decide) hbuffer), fieldKey_writeAt_value hflag,
      fieldKey_writeAt (by decide) hop, fieldKey_writeAt (by decide) hbuffer, horgKey]

/-- So does the fetch branch, which computes the hash of the key for the header. -/
theorem handleFetchOrbitcache_refines (htable : w.hashlin = s.hashlin) (hshort : s.Short)
    (hbuffer : headerSize .orbitcache ≤ s.recvBuffer.length)
    (hkey : tableKey .orbitcache s.recvBuffer stack = b.orgKey)
    (horg : orgKey .orbitcache s.recvBuffer stack = b.orgKey)
    (horgKey : fieldKey .orbitcache s.recvBuffer = b.orgKey) :
    (handleFetchOrbitcache s stack).Refines
      (w.handleFetch hostHash (headerOf s.recvBuffer) b) := by
  rw [handleFetchOrbitcache, Worker.handleFetch, hkey, horg, htable]
  cases hvalue : s.hashlin b.orgKey with
  | none => exact ⟨rfl, rfl⟩
  | some value =>
    refine ⟨congrArg some htable.symm, congrArg (fun m => [m]) ?_⟩
    have hlen := hshort _ _ hvalue
    have hhi : 5 + (Endian.bytes 8 (htonll (hash64Str b.orgKey)).toNat).length ≤
        keyOffset .orbitcache := by
      rw [Endian.length_bytes]
      decide
    have hlo : 13 + (Endian.bytes 8 (htonll (hash64Str2 b.orgKey)).toNat).length ≤
        keyOffset .orbitcache := by
      rw [Endian.length_bytes]
      decide
    have hoffset : keyOffset .orbitcache ≤ headerSize .orbitcache := by decide
    have h1 := header_le_writeAt (hhi.trans hoffset) hbuffer
    have h2 := header_le_writeAt (hlo.trans hoffset) h1
    have h3 := header_le_writeAt (show 0 + [opFReply].length ≤ headerSize .orbitcache by decide) h2
    have h4 := le_length_writeAt h3 (snprintfValue value)
    have h5 := header_le_writeAt (show 21 + [fetching].length ≤ headerSize .orbitcache by decide) h4
    have hfields : 27 ≤ headerSize .orbitcache := by decide
    refine (messageOf_sendto ((Nat.le_add_right _ _).trans_eq (toNat_pktSize _ hlen).symm)
      (drop_sendto (prefix_drop_fetched h3) (length_snprintfValue value) hlen)).trans ?_
    rw [headerOf_writeAt_cached (hfields.trans h5), headerOf_writeAt_flag (hfields.trans h4),
      headerOf_writeAt_value h3, headerOf_writeAt_op (hfields.trans h2),
      headerOf_writeAt_hkeyLo (hfields.trans h1), headerOf_writeAt_hkeyHi (hfields.trans hbuffer)]
    rw [fieldKey_writeAt (by decide) h5, fieldKey_writeAt (by decide) h4, fieldKey_writeAt_value h3,
      fieldKey_writeAt (by decide) h2, fieldKey_writeAt hlo h1, fieldKey_writeAt hhi hbuffer,
      horgKey]
    rfl

/-- And so does the WRITE branch, which stores the fill and the bytes behind the array. -/
theorem handleWrite_refines {n : Nat} (htable : w.hashlin = s.hashlin)
    (hheader : headerSize .orbitcache ≤ n) (hfits : n ≤ sizeofBuffer .orbitcache)
    (hbuffer : n ≤ s.recvBuffer.length)
    (hkey : tableKey .orbitcache s.recvBuffer stack = b.orgKey)
    (horgKey : fieldKey .orbitcache s.recvBuffer = b.orgKey)
    (hvalue : (s.recvBuffer.take n).drop (headerSize .orbitcache) = b.value) :
    (handleWrite .orbitcache s n stack).Refines
      (some ((w.handleWrite (cString stack.valueStr) (headerOf s.recvBuffer) b).1,
        some (w.handleWrite (cString stack.valueStr) (headerOf s.recvBuffer) b).2)) := by
  have hfields : 27 ≤ headerSize .orbitcache := by decide
  have hbuffer' := hheader.trans hbuffer
  have hop := header_le_writeAt (show 0 + [opWReply].length ≤ headerSize .orbitcache by decide)
    hbuffer'
  have hn : (BitVec.ofNat 64 n).toNat = n := by
    simp only [sizeofBuffer, headerSize, maxValueSize] at hfits
    rw [BitVec.toNat_ofNat]
    omega
  have hflag : flagField (writeAt s.recvBuffer 0 [opWReply]) = (headerOf s.recvBuffer).flag := by
    rw [← headerOf_flag (hfields.trans hop), headerOf_writeAt_op (hfields.trans hbuffer')]
  have hstored : valueStr (receivedSize .orbitcache n) stack =
      List.replicate b.value.length byteA ++ cString stack.valueStr := by
    rw [valueStr_eq, toNat_receivedSize hheader hfits, ← hvalue, List.length_drop, List.length_take,
      Nat.min_eq_left hbuffer]
  by_cases hfetching : (headerOf s.recvBuffer).flag = fetching
  · have hfetched : (Protocol.orbitcache == .orbitcache &&
        flagField (writeAt s.recvBuffer 0 [opWReply]) == fetching) = true := by
      rw [hflag, hfetching]
      rfl
    simp only [handleWrite, Worker.handleWrite, hfetched, if_true, if_pos hfetching]
    constructor
    · simp only [Option.map_some, tommyPut, hkey, hstored, Worker.put, htable]
    · refine congrArg (fun m => [m]) ((messageOf_sendto (hheader.trans_eq hn.symm) rfl).trans ?_)
      rw [headerOf_writeAt_cached (hfields.trans hop), headerOf_writeAt_op (hfields.trans hbuffer'),
        fieldKey_writeAt (by decide) hop, fieldKey_writeAt (by decide) hbuffer', horgKey]
      rw [sendto, hn, drop_take_writeAt (by decide) (Nat.le_trans (by decide) hop),
        drop_take_writeAt (by decide) (Nat.le_trans (by decide) hbuffer'), hvalue]
  · have hfetched : (Protocol.orbitcache == .orbitcache &&
        flagField (writeAt s.recvBuffer 0 [opWReply]) == fetching) = false := by
      rw [hflag, Bool.and_eq_false_iff]
      exact .inr (beq_false_of_ne hfetching)
    have hnoValue : (sendto (writeAt s.recvBuffer 0 [opWReply])
        (BitVec.ofNat 64 (headerSize .orbitcache))).2.drop (headerSize .orbitcache) = [] := by
      rw [sendto, toNat_headerSize]
      exact List.drop_eq_nil_of_le (List.length_take_le _ _)
    simp only [handleWrite, Worker.handleWrite, hfetched, Bool.false_eq_true, if_false,
      if_neg hfetching]
    constructor
    · simp only [Option.map_some, tommyPut, hkey, hstored, Worker.put, htable]
    · refine congrArg (fun m => [m])
        ((messageOf_sendto (toNat_headerSize _).ge hnoValue).trans ?_)
      rw [headerOf_writeAt_op (hfields.trans hbuffer'), fieldKey_writeAt (by decide) hbuffer',
        horgKey]

end

/-- On a well-formed datagram the worker does on the message what the branch does on its bytes,
whichever branch it is. -/
theorem handleDatagram_refines {s : ServerState} {w : Worker} {datagram : Bytes} {stack : Stack}
    (hwf : WellFormed .orbitcache datagram) (htable : w.hashlin = s.hashlin)
    (hshort : s.Short) (tag : Tag) :
    (handleDatagram .orbitcache s datagram stack).Refines
      (w.handle hostHash (cString stack.valueStr) (headerOf datagram)
        (payloadOf datagram tag)) := by
  have hfields : 27 ≤ datagram.length := Nat.le_trans (by decide) hwf.header
  have hlength : datagram.length ≤ (s.recvfrom datagram).recvBuffer.length := by
    rw [ServerState.recvfrom, List.length_append]
    exact Nat.le_add_right _ _
  have hbuffer := hwf.header.trans hlength
  have hheader : headerOf (s.recvfrom datagram).recvBuffer = headerOf datagram :=
    headerOf_append hfields _
  have hop : opField (s.recvfrom datagram).recvBuffer = (headerOf datagram).op := by
    rw [← hheader, headerOf_op (hfields.trans hlength)]
  have hkey : tableKey .orbitcache (s.recvfrom datagram).recvBuffer stack =
      (payloadOf datagram tag).orgKey := hwf.tableKey _ _
  have horg : orgKey .orbitcache (s.recvfrom datagram).recvBuffer stack =
      (payloadOf datagram tag).orgKey := hwf.orgKey _ _
  have horgKey : fieldKey .orbitcache (s.recvfrom datagram).recvBuffer =
      (payloadOf datagram tag).orgKey := congrArg cString (slice_append hwf.header _)
  have hvalue : ((s.recvfrom datagram).recvBuffer.take datagram.length).drop
      (headerSize .orbitcache) = (payloadOf datagram tag).value := by
    rw [ServerState.recvfrom, List.take_left, payloadOf]
  rw [handleDatagram, handleBuffer, Worker.handle, hop, ← hheader]
  simp only
  split
  · exact handleReadOrbitcache_refines htable hshort hbuffer hkey horgKey
  · split
    · exact handleFetchOrbitcache_refines htable hshort hbuffer hkey horg horgKey
    · split
      · exact handleWrite_refines htable hwf.header hwf.fits hlength hkey horgKey hvalue
      · exact ⟨congrArg some htable.symm, rfl⟩

/-! ## Runs -/

/-- A value that is stored is not longer than the buffer and the stack behind it. -/
theorem short_handleDatagram {s s' : ServerState} {datagram : Bytes} {stack : Stack} (h : s.Short)
    (hwf : WellFormed .orbitcache datagram) (hstack : stack.valueStr.length < 2 ^ 62)
    (hs' : (handleDatagram .orbitcache s datagram stack).after = some s') : s'.Short := by
  intro key value hvalue
  obtain heq | heq := hashlin_handleBuffer hs'
  · rw [heq] at hvalue
    exact h key value hvalue
  · rw [heq, tommyPut, Function.update_apply] at hvalue
    split at hvalue
    · cases hvalue
      have hjunk : (cString stack.valueStr).length ≤ stack.valueStr.length :=
        (List.takeWhile_prefix _).length_le
      have hfits := hwf.fits
      simp only [sizeofBuffer, headerSize, maxValueSize] at hfits
      rw [valueStr_eq, List.length_append, List.length_replicate,
        toNat_receivedSize hwf.header hwf.fits]
      omega
    · exact h key value hvalue

/-- A worker after some messages, with the bytes behind its array for each of them. -/
def Worker.handleAll (w : Worker) (tag : Tag) (l : List (Bytes × Stack)) : Option Worker :=
  l.foldlM (fun w e => (w.handle hostHash (cString e.2.valueStr) (headerOf e.1)
    (payloadOf e.1 tag)).map Prod.fst) w

/-- The tables agree after every run of well-formed datagrams, by induction on the run: one worker
returns exactly if the other does. -/
theorem handleAll_refines {s : ServerState} {w : Worker} {l : List (Bytes × Stack)}
    (htable : w.hashlin = s.hashlin) (hshort : s.Short)
    (hl : ∀ e ∈ l, WellFormed .orbitcache e.1 ∧ e.2.valueStr.length < 2 ^ 62) (tag : Tag) :
    (handleAll .orbitcache s l).map ServerState.hashlin =
      (w.handleAll tag l).map Worker.hashlin := by
  induction l generalizing s w with
  | nil => exact congrArg some htable.symm
  | cons e l ih =>
    obtain ⟨datagram, stack⟩ := e
    obtain ⟨hwf, hstack⟩ := hl _ List.mem_cons_self
    have hrefines : (handleDatagram .orbitcache s datagram stack).Refines _ :=
      handleDatagram_refines hwf htable hshort tag
    have hstep := hrefines.table_eq
    rw [handleAll, Worker.handleAll, List.foldlM_cons]
    cases hs' : (handleDatagram .orbitcache s datagram stack).after with
    | none =>
      rw [hs', Option.map_none, eq_comm, Option.map_eq_none_iff] at hstep
      rw [hstep]
      rfl
    | some s' =>
      rw [hs', Option.map_some, eq_comm, Option.map_eq_some_iff] at hstep
      obtain ⟨r, hr, hr'⟩ := hstep
      rw [hr]
      exact ih hr' (short_handleDatagram hshort hwf hstack hs')
        fun e he => hl e (List.mem_cons_of_mem _ he)

end OrbitCache
