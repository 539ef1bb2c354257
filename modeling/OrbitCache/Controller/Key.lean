import OrbitCache.Switch.Packet
import OrbitCache.Host.Key

/-!
# Keys and hashes of the controller

`tostring_key` and the hash functions of `controller.py`, over Python's unbounded integers, which
the functions mask to 64 or 16 bits. A Python string is the list of its characters.
-/

namespace OrbitCache.Controller

/-- A Python string. -/
abbrev Str : Type := List Char

/-- `complex_transform`: five rounds. Python's integers are unbounded, so each round masks what the
C code loses by overflow. -/
def complexTransform (number : Nat) : Nat :=
  (fun transformed => ((transformed <<< 3) - transformed + 7) &&& 0xFFFFFFFFFFFFFFFF)^[5] number

/-- The loop of `tostring_key`, from the last character to the first: a digit of the number selects
the character. -/
def tostringKeyLoop : Nat → Nat → Str → Str
  | 0, _, keyChars => keyChars
  | i + 1, transformedNumber, keyChars =>
    tostringKeyLoop i (transformedNumber / charsetSize)
      (charset.getD (transformedNumber % charsetSize) 'A' :: keyChars)

/-- `tostring_key`: the key of an item, of 15 characters and without the terminator that the C code
writes. -/
def tostringKey (number : Nat) : Str :=
  tostringKeyLoop (keySize - 1) (complexTransform number) []

/-- `hash64_lo`, on a Python string. It is the counterpart of `hash64_str2`, whose sum starts at the
same constant. -/
def hash64Lo (s : Str) : Nat :=
  let value := s.foldl (fun value char => (value * 33 + char.toNat + 0x45) &&& 0xFFFFFFFFFFFFFFFF)
    0xABCDEF
  let value := (((value >>> 30) ^^^ value) * 0x123456789ABCDEF1) &&& 0xFFFFFFFFFFFFFFFF
  let value := (((value >>> 33) ^^^ value) * 0xFEDCBA9876543210) &&& 0xFFFFFFFFFFFFFFFF
  let value := (value >>> 35) ^^^ value
  value &&& 0xFFFFFFFFFFFFFFFF

/-- `hash64_hi`, the counterpart of `hash64_str`. -/
def hash64Hi (s : Str) : Nat :=
  let value := s.foldl (fun value char => (value * 31 + char.toNat) &&& 0xFFFFFFFFFFFFFFFF) 0
  let value := (((value >>> 32) ^^^ value) * 0xc4ceb9fe1a85ec53) &&& 0xFFFFFFFFFFFFFFFF
  let value := (((value >>> 32) ^^^ value) * 0xc4ceb9fe1a85ec53) &&& 0xFFFFFFFFFFFFFFFF
  let value := (value >>> 32) ^^^ value
  value &&& 0xFFFFFFFFFFFFFFFF

/-- `fnv1_16_str`, by which the controller finds the server of a key. -/
def fnv116Str (value : Str) : Nat :=
  value.foldl (fun hash char => ((hash * 0x0101) ^^^ char.toNat) &&& 0xFFFF) 0x811c

/-- The match key of a key in `cacheLookup_table`: the two halves of its hash. -/
def hkey (key : Str) : Hkey := (BitVec.ofNat 64 (hash64Hi key), BitVec.ofNat 64 (hash64Lo key))

end OrbitCache.Controller
