import Mathlib.Data.List.DropRight
import OrbitCache.Controller.Key
import OrbitCache.Host.Wire

/-!
# Python strings as bytes

`str.encode`, the two ways `controller.py` decodes the bytes it receives, and `rstrip`. What was
encoded is decoded as it was (`utf8Decode_utf8Encode`, `utf8DecodeIgnore_utf8Encode`); an ASCII
string is encoded as its character codes (`utf8Encode_map_ascii`).
-/

namespace OrbitCache.Controller

/-! ## UTF-8 -/

/-- `s.encode()`: the UTF-8 bytes of a string. -/
def utf8Encode (s : Str) : Bytes :=
  s.flatMap fun c => (String.utf8EncodeChar c).map UInt8.toBitVec

/-- The bytes as Lean's decoder takes them. Bytes are bit vectors in the rest of the development. -/
def byteArray (bytes : Bytes) : ByteArray := (bytes.map UInt8.ofBitVec).toByteArray

/-- `bytes.decode('utf-8')`, which raises `UnicodeDecodeError` where there is no result. -/
def utf8Decode (bytes : Bytes) : Option Str := (byteArray bytes).utf8Decode?.map Array.toList

/-- `bytes.decode('utf-8', errors='ignore')`: a byte at which no character starts is left out. -/
def utf8DecodeIgnore : Bytes → Str
  | [] => []
  | b :: bytes =>
    match (byteArray (b :: bytes)).utf8DecodeChar? 0 with
    | some c => c :: utf8DecodeIgnore (bytes.drop (c.utf8Size - 1))
    | none => utf8DecodeIgnore bytes
termination_by bytes => bytes.length

/-- `s.rstrip('\x00')`: trailing terminators are removed, those in the middle stay. -/
def rstrip (s : Str) : Str := s.rdropWhile (· = '\x00')

/-! ## Decoding what was encoded -/

/-- Concatenation commutes with the change of representation. -/
theorem byteArray_append (bytes bytes' : Bytes) :
    byteArray (bytes ++ bytes') = byteArray bytes ++ byteArray bytes' := by
  simp [byteArray]

/-- The bytes of a string are those of Lean's encoder. -/
theorem byteArray_utf8Encode (s : Str) : byteArray (utf8Encode s) = s.utf8Encode := by
  simp [byteArray, utf8Encode, List.utf8Encode, List.map_flatMap, Function.comp_def]

/-- Decoding what was encoded gives the string back and raises nothing. -/
theorem utf8Decode_utf8Encode (s : Str) : utf8Decode (utf8Encode s) = some s := by
  rw [utf8Decode, byteArray_utf8Encode, List.utf8Decode?_utf8Encode, Option.map_some]

/-- Decoding what was encoded finds a character at every step, so nothing is left out. -/
theorem utf8DecodeIgnore_utf8Encode (s : Str) : utf8DecodeIgnore (utf8Encode s) = s := by
  induction s with
  | nil => simp [utf8Encode, utf8DecodeIgnore]
  | cons c s ih =>
    obtain ⟨b, bytes, hc⟩ := List.exists_cons_of_ne_nil
      (l := (String.utf8EncodeChar c).map UInt8.toBitVec)
      (by simp [String.utf8EncodeChar_ne_nil])
    have hlen : bytes.length = c.utf8Size - 1 := by
      have := congrArg List.length hc
      simp at this
      omega
    have hchar : (byteArray (b :: bytes ++ utf8Encode s)).utf8DecodeChar? 0 = some c := by
      rw [byteArray_append, ← hc, byteArray, List.map_map]
      simpa [Function.comp_def] using ByteArray.utf8DecodeChar?_utf8EncodeChar_append
    have hcons : utf8Encode (c :: s) = b :: (bytes ++ utf8Encode s) := by
      rw [utf8Encode, List.flatMap_cons, hc, List.cons_append, utf8Encode]
    rw [hcons, utf8DecodeIgnore]
    rw [List.cons_append] at hchar
    rw [hchar]
    simp only [List.drop_left' hlen, ih]

/-! ## Padding -/

/-- Padding with terminators does not change what `rstrip` leaves. -/
theorem rstrip_append_nul (s : Str) (n : Nat) :
    rstrip (s ++ List.replicate n '\x00') = rstrip s := by
  induction n with
  | zero => rw [List.replicate_zero, List.append_nil]
  | succ n ih =>
    rw [List.replicate_succ', ← List.append_assoc, rstrip,
      List.rdropWhile_concat_pos _ _ _ (by simp), ← rstrip, ih]

/-- A string without terminators is left as it is. -/
theorem rstrip_eq_self {s : Str} (h : '\x00' ∉ s) : rstrip s = s := by
  rw [rstrip, List.rdropWhile_eq_self_iff]
  intro hne hlast
  exact h (of_decide_eq_true hlast ▸ List.getLast_mem hne)

/-! ## ASCII -/

/-- The character of an ASCII byte. -/
def asciiChar (b : BitVec 8) : Char := Char.ofNat b.toNat

/-- An ASCII byte and its character have the same code. -/
theorem toNat_asciiChar (b : BitVec 8) : (asciiChar b).toNat = b.toNat := by
  have hb := b.isLt
  rw [asciiChar, Char.ofNat, dif_pos (Or.inl (by omega))]
  rfl

/-- An ASCII character is encoded as one byte. -/
theorem utf8EncodeChar_ascii {b : BitVec 8} (h : b.toNat < 128) :
    (String.utf8EncodeChar (asciiChar b)).map UInt8.toBitVec = [b] := by
  have hval : (asciiChar b).val.toNat = b.toNat := toNat_asciiChar b
  have hbyte : (UInt8.ofNat b.toNat).toBitVec = b := by
    rw [UInt8.toBitVec_ofNat', BitVec.ofNat_toNat, BitVec.setWidth_eq]
  rw [String.utf8EncodeChar, hval]
  simp only [if_pos (Nat.le_of_lt_succ h), List.map_cons, List.map_nil, hbyte]

/-- An ASCII string is encoded as its character codes. -/
theorem utf8Encode_map_ascii {key : Bytes} (hascii : ∀ b ∈ key, b.toNat < 128) :
    utf8Encode (key.map asciiChar) = key := by
  induction key with
  | nil => rfl
  | cons b key ih =>
    rw [List.map_cons, utf8Encode, List.flatMap_cons, ← utf8Encode,
      utf8EncodeChar_ascii (hascii b List.mem_cons_self),
      ih fun b' hb' => hascii b' (List.mem_cons_of_mem _ hb'), List.singleton_append]

/-- ASCII bytes are decoded one character a byte. -/
theorem utf8Decode_ascii {bytes : Bytes} (hascii : ∀ b ∈ bytes, b.toNat < 128) :
    utf8Decode bytes = some (bytes.map asciiChar) := by
  conv_lhs => rw [← utf8Encode_map_ascii hascii]
  exact utf8Decode_utf8Encode _

/-- ASCII bytes are all valid, so the lenient decoder agrees with the strict one. -/
theorem utf8DecodeIgnore_ascii {bytes : Bytes} (hascii : ∀ b ∈ bytes, b.toNat < 128) :
    utf8DecodeIgnore bytes = bytes.map asciiChar := by
  conv_lhs => rw [← utf8Encode_map_ascii hascii]
  exact utf8DecodeIgnore_utf8Encode _

/-- An ASCII string as its bytes. -/
theorem exists_map_ascii {s : Str} (hascii : ∀ c ∈ s, c.toNat < 128) :
    ∃ key : Bytes, (∀ b ∈ key, b.toNat < 128) ∧ s = key.map asciiChar := by
  have hcode : ∀ c ∈ s, (BitVec.ofNat 8 c.toNat).toNat = c.toNat := fun c hc => by
    have hlt := hascii c hc
    rw [BitVec.toNat_ofNat]
    omega
  refine ⟨s.map fun c => BitVec.ofNat 8 c.toNat, ?_, ?_⟩
  · intro b hb
    obtain ⟨c, hc, rfl⟩ := List.mem_map.1 hb
    rw [hcode c hc]
    exact hascii c hc
  · rw [List.map_map, List.map_congr_left (g := id), List.map_id]
    intro c hc
    rw [Function.comp_apply, asciiChar, hcode c hc, Char.ofNat_toNat, id]

/-- The terminator is the only byte whose character is the terminator. -/
theorem nul_mem_map_ascii {key : Bytes} : '\x00' ∈ key.map asciiChar ↔ 0 ∈ key := by
  constructor
  · intro hmem
    obtain ⟨b, hb, hnul⟩ := List.mem_map.1 hmem
    have hcode : b.toNat = 0 := (toNat_asciiChar b).symm.trans (congrArg Char.toNat hnul)
    rwa [BitVec.eq_of_toNat_eq (y := 0) hcode] at hb
  · exact fun hmem => List.mem_map.2 ⟨0, hmem, rfl⟩

/-! ## Key fields -/

/-- Padding is ASCII, so the field of an ASCII key is. -/
theorem ascii_keyField {key : Bytes} (hlen : key.length ≤ keySize)
    (hascii : ∀ b ∈ key, b.toNat < 128) : ∀ b ∈ (keyField key).toList, b.toNat < 128 := by
  intro b hb
  rw [toList_keyField hlen, List.mem_append] at hb
  rcases hb with hb | hb
  · exact hascii b hb
  · rw [List.eq_of_mem_replicate hb]
    decide

/-- A key is what is left of its field without the padding. -/
theorem rstrip_keyField {key : Bytes} (hlen : key.length ≤ keySize) (hnul : 0 ∉ key) :
    rstrip ((keyField key).toList.map asciiChar) = key.map asciiChar := by
  rw [toList_keyField hlen, List.map_append, List.map_replicate]
  exact (rstrip_append_nul _ _).trans (rstrip_eq_self (mt nul_mem_map_ascii.1 hnul))

end OrbitCache.Controller
