import Mathlib.Data.List.Basic
import Mathlib.Data.Nat.ModEq
import Mathlib.Tactic.Ring

/-!
# Byte orders

A number as bytes with its low byte first, and the two numbers that a string of bytes is read as.
`Endian.swap` is what a big-endian reader makes of a number that a little-endian machine wrote;
`Endian.swap_swap` says that a machine that swaps first is read correctly.
-/

namespace Endian

/-- The `n` low bytes of a number, the lowest first; what is above them is lost. It is how a
little-endian machine has a number in its memory. -/
def bytes : Nat → Nat → List (BitVec 8)
  | 0, _ => []
  | n + 1, x => BitVec.ofNat 8 x :: bytes n (x / 256)

/-- The number of a string with its low byte first. -/
def little : List (BitVec 8) → Nat
  | [] => 0
  | b :: l => b.toNat + 256 * little l

/-- The number of a string with its high byte first. -/
def big (l : List (BitVec 8)) : Nat := l.foldl (fun acc b => 256 * acc + b.toNat) 0

/-- The `n` low bytes of a number, the highest first, as they are sent over a network. -/
def network (n x : Nat) : List (BitVec 8) := (bytes n x).reverse

/-- The number with the `n` bytes of `x` in the other order, which a reader of the other kind sees.
-/
def swap (n x : Nat) : Nat := big (bytes n x)

/-- There are `n` of them, whatever the number is. -/
@[simp] theorem length_bytes (n x : Nat) : (bytes n x).length = n := by
  induction n generalizing x with
  | zero => rfl
  | succ n ih => simp [bytes, ih]

/-- The lowest byte. -/
theorem bytes_one (x : Nat) : bytes 1 x = [BitVec.ofNat 8 x] := rfl

/-- A byte is its own byte. -/
theorem bytes_byte (b : BitVec 8) : bytes 1 b.toNat = [b] := by
  rw [bytes_one, BitVec.ofNat_toNat, BitVec.setWidth_eq]

/-- The low bytes of a number, and those of what is above them: a field of two parts is the fields
of its parts. -/
theorem bytes_add (m n x : Nat) : bytes (m + n) x = bytes m x ++ bytes n (x / 256 ^ m) := by
  induction m generalizing x with
  | zero => simp [bytes]
  | succ m ih =>
    rw [Nat.succ_add, bytes, bytes, ih, Nat.div_div_eq_div_mul, ← Nat.pow_succ', List.cons_append]

/-- Bytes beyond the `n`-th are dropped. -/
theorem bytes_mod (n x : Nat) : bytes n (x % 256 ^ n) = bytes n x := by
  induction n generalizing x with
  | zero => rfl
  | succ n ih =>
    have hlow : x % 256 ^ (n + 1) % 256 = x % 256 :=
      Nat.mod_mod_of_dvd x (Nat.dvd_of_mod_eq_zero (by simp [Nat.pow_succ]))
    rw [bytes, bytes, Nat.pow_succ', Nat.mod_mul_right_div_self, ih]
    congr 1
    apply BitVec.eq_of_toNat_eq
    rw [BitVec.toNat_ofNat, BitVec.toNat_ofNat, ← Nat.pow_succ']
    exact hlow

/-- A reader of the same kind reads the number, as far as it was written. -/
theorem little_bytes (n x : Nat) : little (bytes n x) = x % 256 ^ n := by
  induction n generalizing x with
  | zero => simp [bytes, little, Nat.mod_one]
  | succ n ih =>
    rw [bytes, little, ih, BitVec.toNat_ofNat, show 2 ^ 8 = 256 from rfl, Nat.pow_succ',
      Nat.mod_mul]

/-- A string is written again as it was read. -/
theorem bytes_little (l : List (BitVec 8)) : bytes l.length (little l) = l := by
  induction l with
  | nil => rfl
  | cons b l ih =>
    have hlt := b.isLt
    have hhead : BitVec.ofNat 8 (b.toNat + 256 * little l) = b := by
      apply BitVec.eq_of_toNat_eq
      rw [BitVec.toNat_ofNat]
      omega
    have htail : (b.toNat + 256 * little l) / 256 = little l := by omega
    rw [List.length_cons, bytes, little, hhead, htail, ih]

/-- The fold of `big`, from any number on: the induction for `big_append`. -/
theorem foldl_big (l : List (BitVec 8)) (acc : Nat) :
    l.foldl (fun acc b => 256 * acc + b.toNat) acc = acc * 256 ^ l.length + big l := by
  induction l generalizing acc with
  | nil => simp [big]
  | cons b l ih =>
    have hcons : big (b :: l) = b.toNat * 256 ^ l.length + big l := by
      rw [big, List.foldl_cons, ih, Nat.mul_zero, Nat.zero_add]
    rw [List.foldl_cons, ih, hcons, List.length_cons, Nat.pow_succ']
    ring

/-- The first string is above the second one. -/
theorem big_append (l l' : List (BitVec 8)) : big (l ++ l') = big l * 256 ^ l'.length + big l' := by
  rw [big, List.foldl_append, foldl_big, ← big]

/-- A byte is its own number. -/
theorem big_singleton (b : BitVec 8) : big [b] = b.toNat := by simp [big]

/-- The first byte is the highest, so it weighs as much as the length of the rest says. -/
theorem big_cons (b : BitVec 8) (l : List (BitVec 8)) :
    big (b :: l) = b.toNat * 256 ^ l.length + big l := by
  rw [← List.singleton_append, big_append, big_singleton]

/-- A string of `n` bytes is a number below `256 ^ n`, so it fits a word of as many bytes. -/
theorem big_lt (l : List (BitVec 8)) : big l < 256 ^ l.length := by
  induction l with
  | nil => decide
  | cons b l ih =>
    have hlt := b.isLt
    rw [big_cons, List.length_cons, Nat.pow_succ']
    calc b.toNat * 256 ^ l.length + big l
        < b.toNat * 256 ^ l.length + 256 ^ l.length := Nat.add_lt_add_left ih _
      _ = (b.toNat + 1) * 256 ^ l.length := by ring
      _ ≤ 256 * 256 ^ l.length := Nat.mul_le_mul_right _ hlt

/-- The two readers see each other's strings backwards. -/
theorem big_reverse (l : List (BitVec 8)) : big l.reverse = little l := by
  induction l with
  | nil => rfl
  | cons b l ih =>
    rw [List.reverse_cons, big_append, big_singleton, little, ih, List.length_singleton]
    ring

/-- So is an exchange of `n` bytes. -/
theorem swap_lt (n x : Nat) : swap n x < 256 ^ n := by
  have h := big_lt (bytes n x)
  rwa [length_bytes] at h

/-- The bytes are written in the other order. -/
theorem bytes_swap (n x : Nat) : bytes n (swap n x) = (bytes n x).reverse := by
  have h := bytes_little (bytes n x).reverse
  rwa [List.length_reverse, length_bytes, ← big_reverse, List.reverse_reverse] at h

/-- Bytes beyond the `n`-th do not matter. -/
theorem swap_mod (n x : Nat) : swap n (x % 256 ^ n) = swap n x := by rw [swap, bytes_mod, swap]

/-- What was swapped before it was written is read as it was: the two exchanges cancel. -/
theorem swap_swap (n x : Nat) : swap n (swap n x) = x % 256 ^ n := by
  rw [swap, bytes_swap, big_reverse, little_bytes]

/-- There are `n` of them in this order as well. -/
@[simp] theorem length_network (n x : Nat) : (network n x).length = n := by
  rw [network, List.length_reverse, length_bytes]

/-- What is read with the high byte first is written so again as the same bytes. -/
theorem network_swap (n x : Nat) : network n (swap n x) = bytes n x := by
  rw [network, bytes_swap, List.reverse_reverse]

/-- Numbers with the same bytes are equal, if all of their bytes were written: a field determines
its value. -/
theorem network_inj {n x y : Nat} (hx : x < 256 ^ n) (hy : y < 256 ^ n)
    (h : network n x = network n y) : x = y := by
  have hlittle := congrArg little (List.reverse_injective h)
  rwa [little_bytes, little_bytes, Nat.mod_eq_of_lt hx, Nat.mod_eq_of_lt hy] at hlittle

/-- A number is the same in both orders if its bytes are. -/
theorem swap_eq_iff {n x : Nat} (hx : x < 256 ^ n) :
    swap n x = x ↔ (bytes n x).reverse = bytes n x := by
  constructor
  · intro h
    rw [← bytes_swap, h]
  · intro h
    rw [swap, ← h, big_reverse, little_bytes, Nat.mod_eq_of_lt hx]

/-- A number is swapped by halves, which change places. -/
theorem swap_add (m n x : Nat) : swap (m + n) x = swap m x * 256 ^ n + swap n (x / 256 ^ m) := by
  rw [swap, bytes_add, big_append, length_bytes, swap, swap]

end Endian
