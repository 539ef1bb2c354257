import OrbitCache.Controller.Fetch
import OrbitCache.Controller.Text

/-!
# The controller's header

`OrbitCacheHeader` of `controller.py` packs its fields with their low bytes first, as
`struct orbitcache_hdr` lies in the memory of a host, but the hosts exchange their multi-byte fields
in network order and the switch reads them so. `OrbitCacheHeader.agrees_iff`: the controller reads
its own headers, the hosts and the switch read another `seq` and other hash keys, unless these are
the same in both orders.
-/

namespace OrbitCache

/-! ## Hosts and the switch -/

/-- `ntohl` of a little-endian host: the bytes of the number in memory, read as a big-endian number.
-/
def ntohl (x : BitVec 32) : BitVec 32 := BitVec.ofNat 32 (Endian.big (Endian.bytes 4 x.toNat))

/-- `ntohll`, with `ntohl` where `htonll` has `htonl`. -/
def ntohll (x : BitVec 64) : BitVec 64 :=
  ((ntohl (x.setWidth 32)).setWidth 64 <<< 32) + (ntohl ((x >>> 32).setWidth 32)).setWidth 64

/-- Both exchange the bytes. -/
theorem ntohl_eq_htonl (x : BitVec 32) : ntohl x = htonl x := rfl

/-- So do the macros for 64 bits. -/
theorem ntohll_eq_htonll (x : BitVec 64) : ntohll x = htonll x := rfl

/-- A number is the same in both byte orders if and only if its bytes are a palindrome. -/
theorem ntohl_eq_self_iff (x : BitVec 32) : ntohl x = x ↔
    (Endian.bytes 4 x.toNat).reverse = Endian.bytes 4 x.toNat := by
  rw [← Endian.swap_eq_iff x.isLt, ntohl_eq_htonl, ← toNat_htonl, BitVec.toNat_inj]

/-- The same for 64 bits, where the halves are exchanged as well. -/
theorem ntohll_eq_self_iff (x : BitVec 64) : ntohll x = x ↔
    (Endian.bytes 8 x.toNat).reverse = Endian.bytes 8 x.toNat := by
  rw [← Endian.swap_eq_iff x.isLt, ntohll_eq_htonll, ← toNat_htonll, BitVec.toNat_inj]

/-- What a header says: the fields that all three programs have, as numbers. -/
structure LogicalHeader where
  op : BitVec 8
  seq : BitVec 32
  hkeyHi : BitVec 64
  hkeyLo : BitVec 64
  flag : BitVec 8
  cached : BitVec 8
  deriving DecidableEq, Repr

/-- A header as a host understands it, which converts the integers it finds. -/
def OrbitcacheHdr.logical (hdr : OrbitcacheHdr) : LogicalHeader :=
  ⟨hdr.op, ntohl hdr.seq, ntohll hdr.hkeyHi, ntohll hdr.hkeyLo, hdr.flag, hdr.cached⟩

/-- A header as the switch understands it: the extraction has converted the integers already. -/
def OrbitcacheH.logical (h : OrbitcacheH) : LogicalHeader :=
  ⟨h.op, h.seq, h.hkeyHi, h.hkeyLo, h.flag, h.cached⟩

namespace Controller

/-- `OrbitCacheHeader`, with the integers that `struct.pack` accepts: any others raise
`struct.error`. -/
structure OrbitCacheHeader where
  op : BitVec 8
  seq : BitVec 32
  hkeyHi : BitVec 64
  hkeyLo : BitVec 64
  flag : BitVec 8
  cached : BitVec 8
  latency : BitVec 32
  parId : BitVec 8
  orgKey : Str
  deriving DecidableEq

namespace OrbitCacheHeader

/-- `pack`, with the format `<B I Q Q B B I B 16s`: little-endian integers, and a key that is cut or
padded to 16 bytes. -/
def pack (h : OrbitCacheHeader) : Bytes :=
  Endian.bytes 1 h.op.toNat ++ (Endian.bytes 4 h.seq.toNat ++
    (Endian.bytes 8 h.hkeyHi.toNat ++ (Endian.bytes 8 h.hkeyLo.toNat ++
      (Endian.bytes 1 h.flag.toNat ++ (Endian.bytes 1 h.cached.toNat ++
        (Endian.bytes 4 h.latency.toNat ++ (Endian.bytes 1 h.parId.toNat ++
          (keyField ((utf8Encode h.orgKey).take keySize)).toList)))))))

/-- `unpack`, with the same format; `struct.unpack` raises on a string that is too short. What
follows the header is not looked at. -/
def unpack (data : Bytes) : Option OrbitCacheHeader := StateT.run' (s := data) do
  let op ← littleField 1
  let seq ← littleField 4
  let hkeyHi ← littleField 8
  let hkeyLo ← littleField 8
  let flag ← littleField 1
  let cached ← littleField 1
  let latency ← littleField 4
  let parId ← littleField 1
  let orgKey ← byteField keySize
  return {
    op := BitVec.ofNat 8 op
    seq := BitVec.ofNat 32 seq
    hkeyHi := BitVec.ofNat 64 hkeyHi
    hkeyLo := BitVec.ofNat 64 hkeyLo
    flag := BitVec.ofNat 8 flag
    cached := BitVec.ofNat 8 cached
    latency := BitVec.ofNat 32 latency
    parId := BitVec.ofNat 8 parId
    orgKey := rstrip (utf8DecodeIgnore orgKey) }

/-- What the controller means: the numbers that it passes to the constructor. -/
def logical (h : OrbitCacheHeader) : LogicalHeader :=
  ⟨h.op, h.seq, h.hkeyHi, h.hkeyLo, h.flag, h.cached⟩

/-- The three layouts agree on a header: the controller reads it as it was, and a host and the
switch, which find it at the start of a datagram, read what the controller means. -/
structure Agrees (h : OrbitCacheHeader) : Prop where
  roundTrip : unpack h.pack = some h
  host : ∀ rest, ∃ hdr, OrbitcacheHdr.overlay.run (h.pack ++ rest) = some (hdr, rest) ∧
    hdr.logical = h.logical ∧ hdr.parId = h.parId ∧ hdr.key = utf8Encode h.orgKey
  switch : ∀ rest, (OrbitcacheH.extract.run (h.pack ++ rest)).map (fun r => r.1.logical) =
    some h.logical

/-! ## Bytes -/

/-- The struct a host would fill with the numbers of a header: the fields in memory, before any
conversion. -/
def toHdr (h : OrbitCacheHeader) (rest : Bytes) : OrbitcacheHdr where
  op := h.op
  seq := h.seq
  hkeyHi := h.hkeyHi
  hkeyLo := h.hkeyLo
  flag := h.flag
  cached := h.cached
  latency := h.latency
  parId := h.parId
  orgKey := keyField ((utf8Encode h.orgKey).take keySize)
  value := rest

/-- The bytes of a header in front of a value are those of that struct. -/
theorem pack_append (h : OrbitCacheHeader) (rest : Bytes) :
    h.pack ++ rest = (h.toHdr rest).sent rest.length := by
  rw [OrbitcacheHdr.sent, toHdr, List.take_length]
  rfl

/-- The layouts of the controller and of the hosts are the same: a host that overlays its struct
finds each field where it was packed. -/
theorem overlay_pack (h : OrbitCacheHeader) (rest : Bytes) :
    OrbitcacheHdr.overlay.run (h.pack ++ rest) = some (h.toHdr rest, rest) := by
  have hkey : (keyField ((utf8Encode h.orgKey).take keySize)).toList.length = keySize := by simp
  simp only [OrbitcacheHdr.overlay, pack, List.append_assoc]
  simp only [StateT.run_bind, littleField_byte, littleField_word, littleField_long,
    byteField_append hkey, StateT.run_pure, StateT.run_get, Option.bind_eq_bind, Option.bind_some,
    Option.pure_def, keyField_toList, BitVec.ofNat_toNat, BitVec.setWidth_eq]
  rfl

/-- The controller reads its own headers, the padding of the key aside. The key is cut to 16 bytes,
and a character may be cut in its middle. -/
theorem unpack_pack (h : OrbitCacheHeader) (rest : Bytes) : unpack (h.pack ++ rest) =
    some { h with orgKey := rstrip (utf8DecodeIgnore
      (keyField ((utf8Encode h.orgKey).take keySize)).toList) } := by
  have hkey : (keyField ((utf8Encode h.orgKey).take keySize)).toList.length = keySize := by simp
  simp only [unpack, pack, List.append_assoc]
  simp only [StateT.run'_eq, StateT.run_bind, littleField_byte, littleField_word, littleField_long,
    byteField_append hkey, StateT.run_pure, Option.bind_eq_bind, Option.bind_some, Option.pure_def,
    BitVec.ofNat_toNat, BitVec.setWidth_eq]
  rfl

/-- The switch reads the numbers in the other byte order: `struct.pack` writes the low byte first.
-/
theorem extract_pack (h : OrbitCacheHeader) (rest : Bytes) :
    (OrbitcacheH.extract.run (h.pack ++ rest)).map (fun r => r.1.logical) =
      some ⟨h.op, htonl h.seq, htonll h.hkeyHi, htonll h.hkeyLo, h.flag, h.cached⟩ := by
  have hsent := congrArg (Option.map OrbitcacheH.logical)
    (extract_sent (h.toHdr rest) rest.length)
  rw [← pack_append, Option.map_map, Option.map_some] at hsent
  exact hsent

/-! ## Agreement -/

/-- A host reads the numbers of a header on which the layouts agree as the controller does. -/
theorem Agrees.ntoh {h : OrbitCacheHeader} (hagrees : h.Agrees) : ntohl h.seq = h.seq ∧
    ntohll h.hkeyHi = h.hkeyHi ∧ ntohll h.hkeyLo = h.hkeyLo := by
  obtain ⟨hdr, hoverlay, hlogical, -⟩ := hagrees.host []
  rw [overlay_pack] at hoverlay
  cases hoverlay
  rw [OrbitcacheHdr.logical, logical, LogicalHeader.mk.injEq] at hlogical
  exact ⟨hlogical.2.1, hlogical.2.2.1, hlogical.2.2.2.1⟩

section
variable {h : OrbitCacheHeader} {key : Bytes}

/-- A host reads an ASCII key up to its first zero byte, as it compares C strings. -/
theorem key_toHdr (hkey : h.orgKey = key.map asciiChar) (hascii : ∀ b ∈ key, b.toNat < 128)
    (hlen : key.length < keySize) (rest : Bytes) : (h.toHdr rest).key = cString key := by
  have hencode : (utf8Encode h.orgKey).take keySize = key := by
    rw [hkey, utf8Encode_map_ascii hascii, List.take_of_length_le (Nat.le_of_lt hlen)]
  rw [OrbitcacheHdr.key, toHdr, hencode]
  exact cString_keyField_append hlen rest

/-- The layouts agree exactly on the headers whose `seq` and hash keys are the same in both byte
orders and whose key is a C string. Any other is read differently by one of the controller, the
hosts and the switch. -/
theorem agrees_iff (hlen : h.orgKey.length < keySize) (hascii : ∀ c ∈ h.orgKey, c.toNat < 128) :
    h.Agrees ↔ (Endian.bytes 4 h.seq.toNat).reverse = Endian.bytes 4 h.seq.toNat ∧
      (Endian.bytes 8 h.hkeyHi.toNat).reverse = Endian.bytes 8 h.hkeyHi.toNat ∧
      (Endian.bytes 8 h.hkeyLo.toNat).reverse = Endian.bytes 8 h.hkeyLo.toNat ∧
      '\x00' ∉ h.orgKey := by
  obtain ⟨key, hbytes, hkey⟩ := exists_map_ascii hascii
  have hkeylen : key.length < keySize := by rwa [hkey, List.length_map] at hlen
  have hencode : utf8Encode h.orgKey = key := by rw [hkey, utf8Encode_map_ascii hbytes]
  rw [← ntohl_eq_self_iff, ← ntohll_eq_self_iff, ← ntohll_eq_self_iff]
  constructor
  · intro hagrees
    obtain ⟨hseq, hhi, hlo⟩ := hagrees.ntoh
    refine ⟨hseq, hhi, hlo, fun hnul => ?_⟩
    obtain ⟨hdr, hoverlay, -, -, hdrkey⟩ := hagrees.host []
    rw [overlay_pack] at hoverlay
    cases hoverlay
    rw [key_toHdr hkey hbytes hkeylen, hencode, cString_eq_self_iff] at hdrkey
    exact hdrkey (nul_mem_map_ascii.1 (hkey ▸ hnul))
  · rintro ⟨hseq, hhi, hlo, hnul⟩
    have hzero : 0 ∉ key := fun hmem => hnul (hkey ▸ nul_mem_map_ascii.2 hmem)
    have hle := Nat.le_of_lt hkeylen
    refine ⟨?_, fun rest => ⟨_, overlay_pack h rest, ?_, rfl, ?_⟩, fun rest => ?_⟩
    · have hunpack := unpack_pack h []
      rw [List.append_nil, hencode, List.take_of_length_le hle,
        utf8DecodeIgnore_ascii (ascii_keyField hle hbytes), rstrip_keyField hle hzero, ← hkey]
        at hunpack
      exact hunpack
    · rw [OrbitcacheHdr.logical, toHdr, hseq, hhi, hlo, logical]
    · rw [key_toHdr hkey hbytes hkeylen, hencode, cString_eq_self_iff]
      exact hzero
    · rw [extract_pack, ← ntohl_eq_htonl, ← ntohll_eq_htonll, ← ntohll_eq_htonll, hseq, hhi, hlo,
        logical]

end

/-- A header that is the same in both byte orders, with a short key: the three layouts agree on it.
-/
theorem agrees_palindromes :
    (⟨opFetch, 0x01020201, 0x0102030404030201, 0, 0, 0, 7, 3, ['k', 'e', 'y']⟩ :
      OrbitCacheHeader).Agrees :=
  (agrees_iff (by decide) (by simp)).2 (by decide)

/-! ## Fetches -/

/-- The header of the `OP_FETCH` for a key, with the arguments that the main loop passes. -/
def fetch (numSrvWorkers : Nat) (key : Str) : OrbitCacheHeader where
  op := opFetch
  seq := 0
  hkeyHi := (hkey key).1
  hkeyLo := (hkey key).2
  flag := 0
  cached := 0
  latency := 0
  parId := BitVec.ofNat 8 (Controller.parId numSrvWorkers key)
  orgKey := key

/-- The fetch for item 0 carries other hash keys than the controller means. -/
theorem not_agrees_fetch : ¬ (fetch 8 (tostringKey 0)).Agrees := by
  intro hagrees
  have hhi := hagrees.ntoh.2.1
  revert hhi
  decide +kernel

/-- The bytes of a word, folded from the lowest one, are its bytes read as a big-endian number. -/
theorem toNat_foldl_packed (x : BitVec 64) {n : Nat} (hn : n ≤ 8) :
    ((List.range n).foldl
      (fun (acc : BitVec 64) i => (acc <<< 8) ||| ((x >>> (8 * i)) &&& 0xFF)) 0).toNat =
        Endian.big (Endian.bytes n x.toNat) := by
  induction n with
  | zero => rfl
  | succ n ih =>
    have hacc : Endian.big (Endian.bytes n x.toNat) < 256 ^ n := Endian.swap_lt n x.toNat
    have hpow : (256 : Nat) ^ n ≤ 256 ^ 7 := Nat.pow_le_pow_right (by decide) (by omega)
    have hbyte : ((x >>> (8 * n)) &&& 0xFF).toNat = x.toNat / 256 ^ n % 256 := by
      rw [BitVec.toNat_and, BitVec.toNat_ushiftRight, Nat.shiftRight_eq_div_pow, Nat.pow_mul]
      exact Nat.and_two_pow_sub_one_eq_mod _ 8
    have hlast : Endian.big (Endian.bytes 1 (x.toNat / 256 ^ n)) = x.toNat / 256 ^ n % 256 := by
      rw [Endian.bytes_one, Endian.big_singleton, BitVec.toNat_ofNat]
    rw [List.range_succ, List.foldl_append, List.foldl_cons, List.foldl_nil, BitVec.toNat_or,
      BitVec.toNat_shiftLeft, ih (by omega), hbyte, Endian.bytes_add, Endian.big_append,
      Endian.length_bytes, hlast, Nat.mod_eq_of_lt, ← Nat.shiftLeft_add_eq_or_of_lt]
    · rw [Nat.shiftLeft_eq, Nat.pow_one]
    · exact Nat.mod_lt _ (by decide)
    · rw [Nat.shiftLeft_eq]
      omega

/-- The field as the switch reads it is the conversion that the controller leaves out. -/
theorem packed_eq_htonll (x : BitVec 64) : packed x = htonll x := by
  apply BitVec.eq_of_toNat_eq
  rw [toNat_htonll, packed, toNat_foldl_packed x (Nat.le_refl 8), Endian.swap]

/-- The switch extracts from a packed fetch the header of the message the controller sends. -/
theorem extract_fetch (numSrvWorkers : Nat) (src dst : Endpoint) (key : Str) (rest : Bytes) :
    (OrbitcacheH.extract.run ((fetch numSrvWorkers key).pack ++ rest)).map
        (fun r => r.1.logical) = some (fetchMessage src dst key).orbitcache.logical := by
  have hseq : htonl 0 = 0 := by decide
  rw [extract_pack, fetchMessage, packed_eq_htonll, packed_eq_htonll, fetch, hseq]
  rfl

end OrbitCacheHeader

end Controller

end OrbitCache
