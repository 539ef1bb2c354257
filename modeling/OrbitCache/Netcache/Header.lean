import OrbitCache.Lib.OnesComplement
import OrbitCache.Netcache.Wire

/-!
# Ethernet, IPv4 and UDP headers as bytes

The two programs declare `ethernet_h`, `ipv4_h` and `udp_h` alike. An extraction succeeds exactly on
the bytes of the header that it gives (`extract_iff`), and the checksum that the deparsers compute
is the one a host accepts (`Ipv4H.verifies_checksum`).
-/

namespace OrbitCache

/-! ## Fields -/

/-- An extraction is the inverse of writing a field. -/
theorem extractField_network (width x : Nat) (l : Bytes) :
    (extractField width).run (Endian.network width x ++ l) = some (x % 256 ^ width, l) := by
  have hlen := Endian.length_network width x
  have hlt : ¬ (Endian.network width x ++ l).length < width := by
    rw [List.length_append, hlen]
    omega
  rw [StateT.run, extractField, if_neg hlt, List.take_left' hlen, List.drop_left' hlen,
    Endian.network, Endian.big_reverse, Endian.little_bytes]

/-- A field of whole bytes is read back as the number that was written. -/
theorem extractField_bits {v width : Nat} (hwidth : 256 ^ width = 2 ^ v) (x : BitVec v)
    (l : Bytes) :
    (extractField width).run (Endian.network width x.toNat ++ l) = some (x.toNat, l) := by
  rw [extractField_network, hwidth, Nat.mod_eq_of_lt x.isLt]

/-- What an extraction has read are the bytes of the field, so nothing else is accepted in their
place. -/
theorem network_of_extractField {width x : Nat} {l rest : Bytes}
    (h : extractField width l = some (x, rest)) :
    x < 256 ^ width ∧ l = Endian.network width x ++ rest := by
  rw [extractField] at h
  split at h
  · cases h
  · next hlen =>
    obtain ⟨rfl, rfl⟩ := Prod.mk.inj (Option.some.inj h)
    have htake : (l.take width).length = width := List.length_take_of_le (Nat.le_of_not_lt hlen)
    have hlt := Endian.big_lt (l.take width)
    have hbytes := Endian.bytes_little (l.take width).reverse
    rw [List.length_reverse, ← Endian.big_reverse, List.reverse_reverse, htake] at hbytes
    rw [htake] at hlt
    refine ⟨hlt, ?_⟩
    rw [Endian.network, hbytes, List.reverse_reverse, List.take_append_drop]

/-- An extraction and what follows it, on bytes that begin with the field. -/
theorem extractField_bind_iff {α : Type} {width : Nat} {f : Nat → StateT Bytes Option α}
    {l rest : Bytes} {a : α} : (extractField width >>= f).run l = some (a, rest) ↔
      ∃ x l', (x < 256 ^ width ∧ l = Endian.network width x ++ l') ∧
        (f x).run l' = some (a, rest) := by
  rw [StateT.run_bind, Option.bind_eq_bind, Option.bind_eq_some_iff]
  constructor
  · rintro ⟨⟨x, l'⟩, hx, hf⟩
    exact ⟨x, l', network_of_extractField hx, hf⟩
  · rintro ⟨x, l', ⟨hlt, rfl⟩, hf⟩
    refine ⟨(x, l'), ?_, hf⟩
    rw [extractField_network, Nat.mod_eq_of_lt hlt]

/-- An extraction succeeds where there are enough bytes. -/
theorem extractField_bind_isSome {α : Type} {width k : Nat} {f : Nat → StateT Bytes Option α}
    {l : Bytes} (h : k + width ≤ l.length)
    (hf : ∀ x l', k ≤ l'.length → ((f x).run l').isSome) :
    ((extractField width >>= f).run l).isSome := by
  have hrun : (extractField width).run l = some (Endian.big (l.take width), l.drop width) :=
    if_neg (by omega)
  rw [StateT.run_bind, hrun, Option.bind_eq_bind, Option.bind_some]
  refine hf _ _ ?_
  rw [List.length_drop]
  omega

/-- Two fields that share their bytes. -/
theorem toNat_append_bits {v w : Nat} (x : BitVec v) (y : BitVec w) :
    (x ++ y).toNat = x.toNat * 2 ^ w + y.toNat := by
  rw [BitVec.toNat_append, ← Nat.shiftLeft_add_eq_or_of_lt y.isLt, Nat.shiftLeft_eq]

/-- Two fields cut out of a number are the number. -/
theorem append_ofNat {v w x : Nat} (hx : x < 2 ^ (v + w)) :
    (BitVec.ofNat v (x / 2 ^ w) ++ BitVec.ofNat w x).toNat = x := by
  rw [Nat.pow_add, Nat.mul_comm] at hx
  rw [toNat_append_bits, BitVec.toNat_ofNat, BitVec.toNat_ofNat,
    Nat.mod_eq_of_lt (Nat.div_lt_of_lt_mul hx), Nat.div_add_mod']

/-- The upper field is found above the lower one. -/
theorem ofNat_append_high {v w : Nat} (x : BitVec v) (y : BitVec w) :
    BitVec.ofNat v ((x ++ y).toNat / 2 ^ w) = x := by
  rw [toNat_append_bits, Nat.mul_comm, Nat.mul_add_div (Nat.two_pow_pos w),
    Nat.div_eq_of_lt y.isLt, Nat.add_zero, BitVec.ofNat_toNat, BitVec.setWidth_eq]

/-! ## Headers -/

/-- The extraction of `ethernet_h`: its fields in order, each with its high byte first. -/
def EthernetH.extract : StateT Bytes Option EthernetH := do
  let dstAddr ← extractField 6
  let srcAddr ← extractField 6
  let etherType ← extractField 2
  return {
    dstAddr := BitVec.ofNat 48 dstAddr
    srcAddr := BitVec.ofNat 48 srcAddr
    etherType := BitVec.ofNat 16 etherType }

/-- The bytes of an emitted `ethernet_h`, in the same order. -/
def EthernetH.bytes (h : EthernetH) : Bytes :=
  Endian.network 6 h.dstAddr.toNat ++ (Endian.network 6 h.srcAddr.toNat ++
    Endian.network 2 h.etherType.toNat)

/-- An Ethernet header has 14 bytes. -/
@[simp] theorem EthernetH.length_bytes (h : EthernetH) : h.bytes.length = 14 := by simp [bytes]

/-- The parser reads back the header that was emitted. -/
theorem EthernetH.extract_append (h : EthernetH) (rest : Bytes) :
    extract.run (h.bytes ++ rest) = some (h, rest) := by
  simp only [extract, bytes, List.append_assoc]
  simp only [StateT.run_bind, @extractField_bits 48 6 rfl, @extractField_bits 16 2 rfl,
    StateT.run_pure, Option.bind_eq_bind, Option.bind_some, Option.pure_def, BitVec.ofNat_toNat,
    BitVec.setWidth_eq]

/-- It accepts exactly the bytes of a header, with whatever follows. -/
theorem EthernetH.extract_iff {h : EthernetH} {l rest : Bytes} :
    extract.run l = some (h, rest) ↔ l = h.bytes ++ rest := by
  constructor
  · intro hx
    simp only [extract, extractField_bind_iff] at hx
    obtain ⟨dst, _, ⟨hdst, rfl⟩, src, _, ⟨hsrc, rfl⟩, type, _, ⟨htype, rfl⟩, hx⟩ := hx
    cases hx
    simp only [bytes, BitVec.toNat_ofNat, List.append_assoc]
    rw [Nat.mod_eq_of_lt (b := 2 ^ 48) hdst, Nat.mod_eq_of_lt (b := 2 ^ 48) hsrc,
      Nat.mod_eq_of_lt (b := 2 ^ 16) htype]
  · rintro rfl
    exact h.extract_append rest

/-- The bytes of an emitted `ORBITCACHE_h`: the order in which the parser extracts the fields. -/
def OrbitcacheH.bytes (h : OrbitcacheH) : Bytes :=
  Endian.network 1 h.op.toNat ++ (Endian.network 4 h.seq.toNat ++
    (Endian.network 8 h.hkeyHi.toNat ++ (Endian.network 8 h.hkeyLo.toNat ++
      (Endian.network 1 h.flag.toNat ++ (Endian.network 1 h.cached.toNat ++
        Endian.network 4 h.latency.toNat)))))

/-- An OrbitCache header has 27 bytes. -/
@[simp] theorem OrbitcacheH.length_bytes (h : OrbitcacheH) : h.bytes.length = 27 := by
  simp [bytes]

/-- The parser reads back the header that was emitted. -/
theorem OrbitcacheH.extract_append (h : OrbitcacheH) (rest : Bytes) :
    extract.run (h.bytes ++ rest) = some (h, rest) := by
  simp only [extract, bytes, List.append_assoc]
  simp only [StateT.run_bind, @extractField_bits 8 1 rfl, @extractField_bits 32 4 rfl,
    @extractField_bits 64 8 rfl, StateT.run_pure, Option.bind_eq_bind, Option.bind_some,
    Option.pure_def, BitVec.ofNat_toNat, BitVec.setWidth_eq]

/-- It accepts exactly the bytes of a header, with whatever follows. -/
theorem OrbitcacheH.extract_iff {h : OrbitcacheH} {l rest : Bytes} :
    extract.run l = some (h, rest) ↔ l = h.bytes ++ rest := by
  constructor
  · intro hx
    simp only [extract, extractField_bind_iff] at hx
    obtain ⟨op, _, ⟨hop, rfl⟩, seq, _, ⟨hseq, rfl⟩, hi, _, ⟨hhi, rfl⟩, lo, _, ⟨hlo, rfl⟩,
      flag, _, ⟨hflag, rfl⟩, cached, _, ⟨hcached, rfl⟩, latency, _, ⟨hlatency, rfl⟩, hx⟩ := hx
    cases hx
    simp only [bytes, BitVec.toNat_ofNat, List.append_assoc]
    rw [Nat.mod_eq_of_lt (b := 2 ^ 8) hop, Nat.mod_eq_of_lt (b := 2 ^ 32) hseq,
      Nat.mod_eq_of_lt (b := 2 ^ 64) hhi, Nat.mod_eq_of_lt (b := 2 ^ 64) hlo,
      Nat.mod_eq_of_lt (b := 2 ^ 8) hflag, Nat.mod_eq_of_lt (b := 2 ^ 8) hcached,
      Nat.mod_eq_of_lt (b := 2 ^ 32) hlatency]
  · rintro rfl
    exact h.extract_append rest

/-- Enough bytes start with a header: every string of 27 bytes is one. -/
theorem OrbitcacheH.exists_bytes {l : Bytes} (h : 27 ≤ l.length) :
    ∃ (hdr : OrbitcacheH) (rest : Bytes), l = hdr.bytes ++ rest := by
  have hsome : (extract.run l).isSome := by
    refine @extractField_bind_isSome _ 1 26 _ _ h fun _ _ h => ?_
    refine @extractField_bind_isSome _ 4 22 _ _ h fun _ _ h => ?_
    refine @extractField_bind_isSome _ 8 14 _ _ h fun _ _ h => ?_
    refine @extractField_bind_isSome _ 8 6 _ _ h fun _ _ h => ?_
    refine @extractField_bind_isSome _ 1 5 _ _ h fun _ _ h => ?_
    refine @extractField_bind_isSome _ 1 4 _ _ h fun _ _ h => ?_
    exact @extractField_bind_isSome _ 4 0 _ _ h fun _ _ _ => rfl
  obtain ⟨⟨hdr, rest⟩, hrun⟩ := Option.isSome_iff_exists.1 hsome
  exact ⟨hdr, rest, extract_iff.1 hrun⟩

namespace Netcache

/-- The extraction of `ipv4_h`. Where two fields share a byte or a word, both are cut out of it. -/
def Ipv4H.extract : StateT Bytes Option Ipv4H := do
  let versionIhl ← extractField 1
  let dscpEcn ← extractField 1
  let totalLen ← extractField 2
  let identification ← extractField 2
  let flagsFragOffset ← extractField 2
  let ttl ← extractField 1
  let protocol ← extractField 1
  let hdrChecksum ← extractField 2
  let srcAddr ← extractField 4
  let dstAddr ← extractField 4
  return {
    version := BitVec.ofNat 4 (versionIhl / 2 ^ 4)
    ihl := BitVec.ofNat 4 versionIhl
    dscp := BitVec.ofNat 6 (dscpEcn / 2 ^ 2)
    ecn := BitVec.ofNat 2 dscpEcn
    totalLen := BitVec.ofNat 16 totalLen
    identification := BitVec.ofNat 16 identification
    flags := BitVec.ofNat 3 (flagsFragOffset / 2 ^ 13)
    fragOffset := BitVec.ofNat 13 flagsFragOffset
    ttl := BitVec.ofNat 8 ttl
    protocol := BitVec.ofNat 8 protocol
    hdrChecksum := BitVec.ofNat 16 hdrChecksum
    srcAddr := BitVec.ofNat 32 srcAddr
    dstAddr := BitVec.ofNat 32 dstAddr }

/-- The parser reads back the header that was emitted. -/
theorem Ipv4H.extract_append (h : Ipv4H) (rest : Bytes) :
    extract.run (h.bytes ++ rest) = some (h, rest) := by
  simp only [extract, bytes, List.append_assoc]
  simp only [StateT.run_bind, @extractField_bits 8 1 rfl, @extractField_bits 16 2 rfl,
    @extractField_bits 32 4 rfl, StateT.run_pure, Option.bind_eq_bind, Option.bind_some,
    Option.pure_def, ofNat_append_high, BitVec.ofNat_toNat,
    BitVec.setWidth_append_eq_right, BitVec.setWidth_eq]

/-- It accepts exactly the bytes of a header, with whatever follows. -/
theorem Ipv4H.extract_iff {h : Ipv4H} {l rest : Bytes} :
    extract.run l = some (h, rest) ↔ l = h.bytes ++ rest := by
  constructor
  · intro hx
    simp only [extract, extractField_bind_iff] at hx
    obtain ⟨versionIhl, _, ⟨hversionIhl, rfl⟩, dscpEcn, _, ⟨hdscpEcn, rfl⟩, len, _, ⟨hlen, rfl⟩,
      ident, _, ⟨hident, rfl⟩, flags, _, ⟨hflags, rfl⟩, ttl, _, ⟨httl, rfl⟩, protocol, _,
      ⟨hprotocol, rfl⟩, sum, _, ⟨hsum, rfl⟩, src, _, ⟨hsrc, rfl⟩, dst, _, ⟨hdst, rfl⟩, hx⟩ := hx
    cases hx
    simp only [bytes, BitVec.toNat_ofNat, List.append_assoc]
    rw [append_ofNat (v := 4) hversionIhl, append_ofNat (v := 6) hdscpEcn,
      append_ofNat (v := 3) hflags, Nat.mod_eq_of_lt (b := 2 ^ 16) hlen,
      Nat.mod_eq_of_lt (b := 2 ^ 16) hident, Nat.mod_eq_of_lt (b := 2 ^ 8) httl,
      Nat.mod_eq_of_lt (b := 2 ^ 8) hprotocol, Nat.mod_eq_of_lt (b := 2 ^ 16) hsum,
      Nat.mod_eq_of_lt (b := 2 ^ 32) hsrc, Nat.mod_eq_of_lt (b := 2 ^ 32) hdst]
  · rintro rfl
    exact h.extract_append rest

/-- The extraction of `udp_h`, four words. -/
def UdpH.extract : StateT Bytes Option UdpH := do
  let srcPort ← extractField 2
  let dstPort ← extractField 2
  let len ← extractField 2
  let checksum ← extractField 2
  return {
    srcPort := BitVec.ofNat 16 srcPort
    dstPort := BitVec.ofNat 16 dstPort
    len := BitVec.ofNat 16 len
    checksum := BitVec.ofNat 16 checksum }

/-- The parser reads back the header that was emitted. -/
theorem UdpH.extract_append (h : UdpH) (rest : Bytes) :
    extract.run (h.bytes ++ rest) = some (h, rest) := by
  simp only [extract, bytes, List.append_assoc]
  simp only [StateT.run_bind, @extractField_bits 16 2 rfl, StateT.run_pure, Option.bind_eq_bind,
    Option.bind_some, Option.pure_def, BitVec.ofNat_toNat, BitVec.setWidth_eq]

/-- It accepts exactly the bytes of a header, with whatever follows. -/
theorem UdpH.extract_iff {h : UdpH} {l rest : Bytes} :
    extract.run l = some (h, rest) ↔ l = h.bytes ++ rest := by
  constructor
  · intro hx
    simp only [extract, extractField_bind_iff] at hx
    obtain ⟨src, _, ⟨hsrc, rfl⟩, dst, _, ⟨hdst, rfl⟩, len, _, ⟨hlen, rfl⟩, sum, _, ⟨hsum, rfl⟩,
      hx⟩ := hx
    cases hx
    simp only [bytes, BitVec.toNat_ofNat, List.append_assoc]
    rw [Nat.mod_eq_of_lt (b := 2 ^ 16) hsrc, Nat.mod_eq_of_lt (b := 2 ^ 16) hdst,
      Nat.mod_eq_of_lt (b := 2 ^ 16) hlen, Nat.mod_eq_of_lt (b := 2 ^ 16) hsum]
  · rintro rfl
    exact h.extract_append rest

/-! ## The header checksum -/

/-- The 16-bit words of a string, the high byte first; a single last byte is the high one. -/
def netWords : Bytes → List Nat
  | a :: b :: l => (256 * a.toNat + b.toNat) :: netWords l
  | [a] => [256 * a.toNat]
  | [] => []

/-- The last byte of a number in network order is its lowest one. -/
theorem network_succ (n x : Nat) :
    Endian.network (n + 1) x = Endian.network n (x / 256) ++ [BitVec.ofNat 8 x] := by
  rw [Endian.network, Endian.bytes, List.reverse_cons, ← Endian.network]

/-- Two fields of one byte are a word. -/
@[simp] theorem netWords_one (x y : Nat) (l : Bytes) :
    netWords (Endian.network 1 x ++ (Endian.network 1 y ++ l)) =
      (256 * (x % 256) + y % 256) :: netWords l := rfl

/-- A field of two bytes is a word. -/
@[simp] theorem netWords_two (x : Nat) (l : Bytes) :
    netWords (Endian.network 2 x ++ l) = x % 65536 :: netWords l := by
  have hhead : 256 * (x / 256 % 256) + x % 256 = x % 65536 := by omega
  have hwords := netWords_one (x / 256) x l
  rw [hhead, ← List.append_assoc] at hwords
  exact hwords

/-- A field of four bytes is two words, the higher one first. -/
@[simp] theorem netWords_four (x : Nat) (l : Bytes) :
    netWords (Endian.network 4 x ++ l) = x / 65536 % 65536 :: x % 65536 :: netWords l := by
  have hsplit : Endian.network 4 x = Endian.network 2 (x / 65536) ++ Endian.network 2 x := by
    simp only [network_succ, Nat.div_div_eq_div_mul, List.append_assoc]
    rfl
  rw [hsplit, List.append_assoc, netWords_two, netWords_two]

/-- A host accepts a header: its words, the checksum among them, sum up to all ones. -/
def Ipv4H.Verifies (h : Ipv4H) : Prop := OnesComplement.sum 65535 (netWords h.bytes) = 65535

instance (h : Ipv4H) : Decidable h.Verifies :=
  inferInstanceAs (Decidable (_ = _))

/-- The words of a header: the checksum is the sixth. -/
theorem Ipv4H.netWords_bytes (h : Ipv4H) :
    netWords h.bytes = h.words.take 5 ++ h.hdrChecksum.toNat :: h.words.drop 5 := by
  have hlast := netWords_four h.dstAddr.toNat []
  rw [List.append_nil] at hlast
  have hbyte (x : BitVec 8) : x.toNat % 256 = x.toNat := Nat.mod_eq_of_lt x.isLt
  have hword (x : BitVec 16) : x.toNat % 65536 = x.toNat := Nat.mod_eq_of_lt x.isLt
  have hhigh (x : BitVec 32) : x.toNat / 65536 % 65536 = x.toNat / 65536 :=
    Nat.mod_eq_of_lt (Nat.div_lt_of_lt_mul x.isLt)
  have hfirst : (h.version ++ h.ihl ++ h.dscp ++ h.ecn).toNat =
      256 * (h.version ++ h.ihl).toNat + (h.dscp ++ h.ecn).toNat := by
    rw [toNat_append_bits, toNat_append_bits (_ ++ _), toNat_append_bits h.dscp]
    omega
  have hfifth : (h.ttl ++ h.protocol).toNat = 256 * h.ttl.toNat + h.protocol.toNat := by
    rw [toNat_append_bits]
    omega
  rw [words, hfirst, hfifth]
  simp only [bytes, netWords_one, netWords_two, netWords_four, hlast, hbyte, hword, hhigh]
  rfl

/-- Every word has 16 bits. -/
theorem Ipv4H.words_le (h : Ipv4H) : ∀ w ∈ h.words, w ≤ 65535 := by
  have hsrc := h.srcAddr.isLt
  have hdst := h.dstAddr.isLt
  have hfirst := (h.version ++ h.ihl ++ h.dscp ++ h.ecn).isLt
  have hlen := h.totalLen.isLt
  have hident := h.identification.isLt
  have hflags := (h.flags ++ h.fragOffset).isLt
  have hfifth := (h.ttl ++ h.protocol).isLt
  simp only [words, List.forall_mem_cons]
  refine ⟨?_, ?_, ?_, ?_, ?_, ?_, ?_, ?_, ?_, List.forall_mem_nil _⟩ <;> omega

/-- The complement of a 16-bit sum, as a number. -/
theorem Ipv4H.toNat_checksum (h : Ipv4H) :
    h.checksum.toNat = 65535 - OnesComplement.sum 65535 h.words := by
  have hle : OnesComplement.sum 65535 h.words ≤ 65535 := OnesComplement.sum_le h.words_le
  have hsum : h.words.foldl (fun sum w => (sum + w) % 65536 + (sum + w) / 65536) 0 =
      OnesComplement.sum 65535 h.words := rfl
  have hnot := @BitVec.toNat_not 16 (BitVec.ofNat 16 (OnesComplement.sum 65535 h.words))
  rw [BitVec.toNat_ofNat, Nat.mod_eq_of_lt (by omega)] at hnot
  rw [checksum, hsum]
  omega

/-- The checksum of the deparser is one a host accepts, whatever the header was before. -/
theorem Ipv4H.verifies_checksum (h : Ipv4H) :
    ({ h with hdrChecksum := h.checksum } : Ipv4H).Verifies := by
  have hinsert := @OnesComplement.sum_insert 65535 (h.words.take 5) (h.words.drop 5) (by decide)
    (by rw [List.take_append_drop]; exact h.words_le)
  rw [List.take_append_drop, ← h.toNat_checksum] at hinsert
  rw [Verifies, netWords_bytes]
  exact hinsert

end Netcache

end OrbitCache
