import Mathlib.Data.List.Nodup
import Mathlib.Data.Nat.ModEq
import Mathlib.Logic.Function.Iterate
import OrbitCache.Config

/-!
# Keys and hashes of the hosts

`tostring_key` and the three hash functions of `header.h`, on 64-bit and 16-bit words. A C string is
the list of its bytes before the terminator. `tostringKey_injective`: different item numbers have
different keys.
-/

namespace OrbitCache

/-- A byte string; as a C string, without its terminator. -/
abbrev Bytes : Type := List (BitVec 8)

/-- `CHARSET`: the letters and the digits. -/
def charset : List Char :=
  ['A', 'B', 'C', 'D', 'E', 'F', 'G', 'H', 'I', 'J', 'K', 'L', 'M', 'N', 'O', 'P', 'Q', 'R', 'S',
   'T', 'U', 'V', 'W', 'X', 'Y', 'Z', 'a', 'b', 'c', 'd', 'e', 'f', 'g', 'h', 'i', 'j', 'k', 'l',
   'm', 'n', 'o', 'p', 'q', 'r', 's', 't', 'u', 'v', 'w', 'x', 'y', 'z', '0', '1', '2', '3', '4',
   '5', '6', '7', '8', '9']

/-- `CHARSET_SIZE`. -/
abbrev charsetSize : Nat := 62

/-- The byte of a character of the charset. -/
def charByte (index : Nat) : BitVec 8 := BitVec.ofNat 8 (charset.getD index 'A').toNat

/-! ## Keys -/

/-- One round of `complex_transform`: the shift and the subtraction multiply by 7. -/
def transformRound (transformed : BitVec 64) : BitVec 64 :=
  ((transformed <<< 3) - transformed + 7) &&& 0xFFFFFFFFFFFFFFFF

/-- `complex_transform`: five rounds, on 64-bit words, which spread the item numbers over the keys.
-/
def complexTransform (number : BitVec 64) : BitVec 64 :=
  transformRound^[5] number

/-- The loop of `tostring_key`, from the last character to the first; `key` is what was written. -/
def tostringKeyLoop : Nat → BitVec 64 → Bytes → Bytes
  | 0, _, key => key
  | i + 1, transformedNumber, key =>
    tostringKeyLoop i (transformedNumber / BitVec.ofNat 64 charsetSize)
      (charByte (transformedNumber % BitVec.ofNat 64 charsetSize).toNat :: key)

/-- `tostring_key`: the key of an item as a C string, without its terminator. -/
def tostringKey (number : BitVec 64) : Bytes :=
  tostringKeyLoop (keySize - 1) (complexTransform number) []

/-! ## Hashes -/

/-- `fnv1_16_str`; a `char` is sign-extended when it is converted to `uint16_t`. It selects the
server of a key. -/
def fnv116Str (value : Bytes) : BitVec 16 :=
  value.foldl (fun hash c => (hash * 0x0101) ^^^ c.signExtend 16) 0x811c

/-- `hash64_str2`: the second half of the hash of a key. Its argument is read as unsigned bytes. -/
def hash64Str2 (str : Bytes) : BitVec 64 :=
  let value := str.foldl
    (fun value c => (value * 33 + c.setWidth 64 + 0x45) &&& 0xFFFFFFFFFFFFFFFF) 0xABCDEF
  let value := (((value >>> 30) ^^^ value) * 0x123456789ABCDEF1) &&& 0xFFFFFFFFFFFFFFFF
  let value := (((value >>> 33) ^^^ value) * 0xFEDCBA9876543210) &&& 0xFFFFFFFFFFFFFFFF
  let value := (value >>> 35) ^^^ value
  value &&& 0xFFFFFFFFFFFFFFFF

/-- `hash64_str`: the first half of the hash of a key, which also selects its partition. -/
def hash64Str (str : Bytes) : BitVec 64 :=
  let value := str.foldl
    (fun value c => (value * 31 + c.setWidth 64) &&& 0xFFFFFFFFFFFFFFFF) 0
  let value := (((value >>> 32) ^^^ value) * 0xc4ceb9fe1a85ec53) &&& 0xFFFFFFFFFFFFFFFF
  let value := (((value >>> 32) ^^^ value) * 0xc4ceb9fe1a85ec53) &&& 0xFFFFFFFFFFFFFFFF
  let value := (value >>> 32) ^^^ value
  value &&& 0xFFFFFFFFFFFFFFFF

/-! ## Injectivity -/

/-- The mask of the 64-bit arithmetic does nothing, for a `uint64_t` has no more bits. -/
theorem and_mask64 (v : BitVec 64) : v &&& 0xFFFFFFFFFFFFFFFF = v := by
  rw [show (0xFFFFFFFFFFFFFFFF : BitVec 64) = BitVec.allOnes 64 by decide, BitVec.and_allOnes]

/-- A round multiplies by 7 and adds 7, modulo `2 ^ 64`. -/
theorem toNat_transformRound (v : BitVec 64) :
    (transformRound v).toNat = (7 * v.toNat + 7) % 2 ^ 64 := by
  have hlt := v.isLt
  rw [transformRound, and_mask64, BitVec.toNat_add, BitVec.toNat_sub, BitVec.toNat_shiftLeft,
    Nat.shiftLeft_eq, show (7 : BitVec 64).toNat = 7 from rfl]
  omega

/-- A round loses nothing, since 7 is odd and so has an inverse modulo `2 ^ 64`. -/
theorem transformRound_injective : Function.Injective transformRound := by
  intro v v' h
  have hround : 7 * v.toNat + 7 ≡ 7 * v'.toNat + 7 [MOD 2 ^ 64] := by
    rw [Nat.ModEq, ← toNat_transformRound, ← toNat_transformRound, h]
  have hmod : v.toNat ≡ v'.toNat [MOD 2 ^ 64] :=
    (Nat.ModEq.add_right_cancel' 7 hround).cancel_left_of_coprime (by decide)
  exact BitVec.eq_of_toNat_eq (hmod.eq_of_lt_of_lt v.isLt v'.isLt)

/-- So the five rounds lose nothing. -/
theorem complexTransform_injective : Function.Injective complexTransform :=
  transformRound_injective.iterate 5

/-- The characters of the charset are different bytes, so the digits of a number can be read off its
key. -/
theorem charByte_injOn {i j : Nat} (hi : i < charsetSize) (hj : j < charsetSize)
    (h : charByte i = charByte j) : i = j := by
  have hnodup : (charset.map fun c => BitVec.ofNat 8 c.toNat).Nodup := by decide
  have hget (k : Nat) (hk : k < charsetSize) :
      (charset.map fun c => BitVec.ofNat 8 c.toNat)[k]? = some (charByte k) := by
    rw [List.getElem?_map, List.getElem?_eq_getElem hk, charByte, List.getD_eq_getElem?_getD,
      List.getElem?_eq_getElem hk]
    rfl
  have hlt : i < (charset.map fun c => BitVec.ofNat 8 c.toNat).length := hi
  exact (List.getElem?_inj hlt hnodup).1 (by rw [hget i hi, hget j hj, h])

/-- The loop writes `i` characters. -/
theorem length_tostringKeyLoop (i : Nat) (t : BitVec 64) (key : Bytes) :
    (tostringKeyLoop i t key).length = i + key.length := by
  induction i generalizing t key with
  | zero => simp [tostringKeyLoop]
  | succ i ih => simp [tostringKeyLoop, ih]; omega

/-- Every key has `KEY_SIZE - 1` characters. -/
@[simp] theorem length_tostringKey (n : BitVec 64) : (tostringKey n).length = keySize - 1 := by
  simp [tostringKey, length_tostringKeyLoop]

/-- The loop writes the last `i` base-62 digits of its number: equal strings come of numbers with
equal digits. The induction peels the last character off. -/
theorem tostringKeyLoop_inj (i : Nat) {t t' : BitVec 64} {key key' : Bytes}
    (hlen : key.length = key'.length) (h : tostringKeyLoop i t key = tostringKeyLoop i t' key') :
    t.toNat % charsetSize ^ i = t'.toNat % charsetSize ^ i ∧ key = key' := by
  induction i generalizing t t' key key' with
  | zero => exact ⟨by simp [Nat.mod_one], h⟩
  | succ i ih =>
    obtain ⟨hdiv, hkey⟩ := ih (by simp [hlen]) h
    obtain ⟨hchar, hkey⟩ := List.cons.inj hkey
    have hsize : (BitVec.ofNat 64 charsetSize).toNat = charsetSize := by decide
    rw [BitVec.toNat_umod, BitVec.toNat_umod, hsize] at hchar
    rw [BitVec.toNat_udiv, BitVec.toNat_udiv, hsize] at hdiv
    have hdigit : t.toNat % charsetSize = t'.toNat % charsetSize :=
      charByte_injOn (Nat.mod_lt _ (by decide)) (Nat.mod_lt _ (by decide)) hchar
    refine ⟨?_, hkey⟩
    rw [Nat.pow_succ', Nat.mod_mul, Nat.mod_mul, hdigit, hdiv]

/-- Different item numbers have different keys: 15 characters of base 62 hold a 64-bit number. -/
theorem tostringKey_injective : Function.Injective tostringKey := by
  intro n n' h
  have hmod := (tostringKeyLoop_inj (keySize - 1) rfl h).1
  have hlt (v : BitVec 64) : v.toNat < charsetSize ^ (keySize - 1) :=
    Nat.lt_of_lt_of_le v.isLt (by decide)
  rw [Nat.mod_eq_of_lt (hlt _), Nat.mod_eq_of_lt (hlt _)] at hmod
  exact complexTransform_injective (BitVec.eq_of_toNat_eq hmod)

/-! ## Characters -/

/-- The bytes of a key are characters of the charset, or were in the string that the loop started
with. -/
theorem mem_tostringKeyLoop (i : Nat) {t : BitVec 64} {key : Bytes} {b : BitVec 8}
    (h : b ∈ tostringKeyLoop i t key) : b ∈ key ∨ ∃ j < charsetSize, b = charByte j := by
  induction i generalizing t key with
  | zero => exact Or.inl h
  | succ i ih =>
    rcases ih h with hmem | hchar
    · rcases List.mem_cons.1 hmem with rfl | hmem
      · refine Or.inr ⟨_, ?_, rfl⟩
        rw [BitVec.toNat_umod]
        exact Nat.mod_lt _ (by decide)
      · exact Or.inl hmem
    · exact Or.inr hchar

/-- Keys are ASCII strings without a zero byte, so they are C strings and Python strings alike. -/
theorem mem_tostringKey {n : BitVec 64} {b : BitVec 8} (h : b ∈ tostringKey n) :
    0 < b.toNat ∧ b.toNat < 128 := by
  have hchars : ∀ j < charsetSize, 0 < (charByte j).toNat ∧ (charByte j).toNat < 128 := by decide
  rcases mem_tostringKeyLoop _ h with hnil | ⟨j, hj, rfl⟩
  · cases hnil
  · exact hchars j hj

/-! ## Keys in their fields -/

/-- A key that a `char[KEY_SIZE]` holds with its terminator: a C string of less than `KEY_SIZE`
bytes. `strcpy` of any other string into such a field writes past it. -/
structure IsKey (key : Bytes) : Prop where
  length_lt : key.length < keySize
  noNul : 0 ∉ key

/-- `tostring_key` makes keys: 15 characters, none of them zero, so that they fit their fields
everywhere. -/
theorem isKey_tostringKey (n : BitVec 64) : IsKey (tostringKey n) where
  length_lt := by
    rw [length_tostringKey]
    decide
  noNul h := absurd (mem_tostringKey h).1 (by decide)

end OrbitCache
