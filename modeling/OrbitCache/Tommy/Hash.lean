import OrbitCache.Host.Wire

/-!
# `tommyhash.c`

`tommy_strhash_u32`, which goes through a C string four bytes at a time and looks for the terminator
in a whole word. `strhash_eq` says that the bytes behind the terminator do not matter, although the
last word is read as a whole, and that nothing is read behind that word.
-/

namespace OrbitCache.Tommy

/-- The word of four bytes, the first of them the lowest, as a little-endian machine reads it. -/
def word (b₀ b₁ b₂ b₃ : BitVec 8) : BitVec 32 := b₃ ++ b₂ ++ b₁ ++ b₀

/-- `tommy_le_uint32_read`. There is nothing to read behind the end of the buffer. -/
def leUint32Read : Bytes → Option (BitVec 32)
  | b₀ :: b₁ :: b₂ :: b₃ :: _ => some (word b₀ b₁ b₂ b₃)
  | _ => none

/-- `tommy_haszero_u32`, the test whether one of the four bytes is zero. -/
def haszeroU32 (value : BitVec 32) : Bool :=
  (value - 0x01010101#32) &&& ~~~value &&& 0x80808080#32 ≠ 0#32

/-- `tommy_rot`. -/
def rot (x : BitVec 32) (k : Nat) : BitVec 32 := x <<< k ||| x >>> (32 - k)

/-- The variables of the hash, which takes three words in each turn. -/
structure HashVars where
  a : BitVec 32
  b : BitVec 32
  c : BitVec 32
  deriving DecidableEq, Repr

/-- `tommy_mix`, after three words that do not have the terminator. -/
def mix : HashVars → HashVars
  | ⟨a, b, c⟩ =>
    let a := a - c; let a := a ^^^ rot c 4; let c := c + b
    let b := b - a; let b := b ^^^ rot a 6; let a := a + c
    let c := c - b; let c := c ^^^ rot b 8; let b := b + a
    let a := a - c; let a := a ^^^ rot c 16; let c := c + b
    let b := b - a; let b := b ^^^ rot a 19; let a := a + c
    let c := c - b; let c := c ^^^ rot b 4; let b := b + a
    ⟨a, b, c⟩

/-- `tommy_final`, after the word with the terminator. -/
def final : HashVars → HashVars
  | ⟨a, b, c⟩ =>
    let c := c ^^^ b; let c := c - rot b 14
    let a := a ^^^ c; let a := a - rot c 11
    let b := b ^^^ a; let b := b - rot a 25
    let c := c ^^^ b; let c := c - rot b 16
    let a := a ^^^ c; let a := a - rot c 4
    let b := b ^^^ a; let b := b - rot a 14
    let c := c ^^^ b; let c := c - rot b 24
    ⟨a, b, c⟩

/-- The branch of the loop for the word with the terminator: the bytes in front of it are added one
by one. -/
def addTail (x v : BitVec 32) : BitVec 32 :=
  if v &&& 0xff ≠ 0 then
    let x := x + (v &&& 0xff)
    if v &&& 0xff00 ≠ 0 then
      let x := x + (v &&& 0xff00)
      if v &&& 0xff0000 ≠ 0 then x + (v &&& 0xff0000) else x
    else x
  else x

/-- The loop of `tommy_strhash_u32`, three words in each turn. It has no value where it reads behind
the end of the buffer. -/
def HashVars.strhashLoop (h : HashVars) (key : Bytes) : Option HashVars := do
  let v ← leUint32Read key
  if haszeroU32 v then
    return { h with a := addTail h.a v }
  let h := { h with a := h.a + v }
  let v ← leUint32Read (key.drop 4)
  if haszeroU32 v then
    return { h with b := addTail h.b v }
  let h := { h with b := h.b + v }
  let v ← leUint32Read (key.drop 8)
  if haszeroU32 v then
    return { h with c := addTail h.c v }
  let h := { h with c := h.c + v }
  mix h |>.strhashLoop (key.drop 12)
partial_fixpoint

/-- `tommy_strhash_u32` of a buffer, from the byte its pointer points to. -/
def strhashU32 (initVal : BitVec 64) (key : Bytes) : Option (BitVec 32) := do
  let x := (0xdeadbeef#64 + initVal).setWidth 32
  let h ← HashVars.strhashLoop ⟨x, x, x⟩ key
  return (final h).c

/-! ## The terminator in a word -/

/-- The value of a word, from those of its bytes. -/
theorem toNat_word (b₀ b₁ b₂ b₃ : BitVec 8) :
    (word b₀ b₁ b₂ b₃).toNat =
      b₀.toNat + 2 ^ 8 * b₁.toNat + 2 ^ 16 * b₂.toNat + 2 ^ 24 * b₃.toNat := by
  have h₀ := b₀.isLt
  have h₁ := b₁.isLt
  have h₂ := b₂.isLt
  rw [word, BitVec.toNat_append, BitVec.toNat_append, BitVec.toNat_append,
    ← Nat.shiftLeft_add_eq_or_of_lt h₀, ← Nat.shiftLeft_add_eq_or_of_lt h₁,
    ← Nat.shiftLeft_add_eq_or_of_lt h₂]
  simp only [Nat.shiftLeft_eq]
  omega

/-- The high bit of a byte is set in the difference, but not in the word itself: what the mask of
the test picks out. -/
theorem haszeroU32_iff (v : BitVec 32) : haszeroU32 v = true ↔
    ∃ i ∈ [7, 15, 23, 31],
      (v - 0x01010101#32).toNat / 2 ^ i % 2 = 1 ∧ v.toNat / 2 ^ i % 2 = 0 := by
  have hmask : ∀ i < 32, (0x80808080#32).getLsbD i = true ↔ i ∈ [7, 15, 23, 31] := by decide
  have hbit : ∀ (x : BitVec 32) i, x.getLsbD i = decide (x.toNat / 2 ^ i % 2 = 1) := fun x i =>
    Nat.testBit_eq_decide_div_mod_eq
  rw [haszeroU32, decide_eq_true_eq]
  constructor
  · intro hne
    by_contra hnone
    push Not at hnone
    refine hne (BitVec.eq_of_getLsbD_eq fun i hi => ?_)
    rw [BitVec.getLsbD_and, BitVec.getLsbD_and, BitVec.getLsbD_not, BitVec.getLsbD_zero]
    cases hi' : (0x80808080#32).getLsbD i with
    | false => rw [Bool.and_false]
    | true =>
      have hv := hnone i ((hmask i hi).mp hi')
      rw [hbit, hbit, Bool.and_true, decide_eq_true hi, Bool.true_and]
      grind
  · rintro ⟨i, hi, hD, hv⟩ heq
    have hi32 : i < 32 := by
      have hall : ∀ i ∈ [7, 15, 23, 31], i < 32 := by decide
      exact hall i hi
    have hget : ((v - 0x01010101#32) &&& ~~~v &&& 0x80808080#32).getLsbD i = true := by
      rw [BitVec.getLsbD_and, BitVec.getLsbD_and, BitVec.getLsbD_not, (hmask i hi32).mpr hi, hbit,
        hbit, hD, hv, decide_eq_true hi32]
      rfl
    rw [heq, BitVec.getLsbD_zero] at hget
    cases hget

/-- The word has a byte that is zero. A borrow out of a lower byte does not mislead the test, since
it starts at a byte that is zero. -/
theorem haszeroU32_word (b₀ b₁ b₂ b₃ : BitVec 8) :
    haszeroU32 (word b₀ b₁ b₂ b₃) = true ↔ b₀ = 0 ∨ b₁ = 0 ∨ b₂ = 0 ∨ b₃ = 0 := by
  have hword := toNat_word b₀ b₁ b₂ b₃
  have hsub : (word b₀ b₁ b₂ b₃ - 0x01010101#32).toNat =
      (2 ^ 32 - 0x01010101 + (word b₀ b₁ b₂ b₃).toNat) % 2 ^ 32 := BitVec.toNat_sub ..
  have hzero : ∀ b : BitVec 8, b = 0 ↔ b.toNat = 0 := fun b => by
    rw [← BitVec.toNat_inj]
    rfl
  have h₀ := b₀.isLt
  have h₁ := b₁.isLt
  have h₂ := b₂.isLt
  have h₃ := b₃.isLt
  rw [haszeroU32_iff, hzero, hzero, hzero, hzero, hsub, hword]
  simp only [List.mem_cons, List.not_mem_nil, or_false, exists_eq_or_imp, exists_eq_left]
  omega

/-! ## The bytes before the terminator -/

/-- Masks work byte by byte. -/
theorem word_and (a₀ a₁ a₂ a₃ b₀ b₁ b₂ b₃ : BitVec 8) :
    word a₀ a₁ a₂ a₃ &&& word b₀ b₁ b₂ b₃ =
      word (a₀ &&& b₀) (a₁ &&& b₁) (a₂ &&& b₂) (a₃ &&& b₃) := by
  have h₁ : a₃ ++ a₂ &&& b₃ ++ b₂ = (a₃ &&& b₃) ++ (a₂ &&& b₂) := BitVec.and_append
  have h₂ : a₃ ++ a₂ ++ a₁ &&& b₃ ++ b₂ ++ b₁ = (a₃ &&& b₃) ++ (a₂ &&& b₂) ++ (a₁ &&& b₁) := by
    rw [BitVec.and_append, h₁]
  have h₃ : a₃ ++ a₂ ++ a₁ ++ a₀ &&& b₃ ++ b₂ ++ b₁ ++ b₀ =
      (a₃ &&& b₃) ++ (a₂ &&& b₂) ++ (a₁ &&& b₁) ++ (a₀ &&& b₀) := by
    rw [BitVec.and_append, h₂]
  exact h₃

/-- A word is zero if its bytes are. -/
theorem word_eq_zero {b₀ b₁ b₂ b₃ : BitVec 8} :
    word b₀ b₁ b₂ b₃ = 0 ↔ b₀ = 0 ∧ b₁ = 0 ∧ b₂ = 0 ∧ b₃ = 0 := by
  have hword := toNat_word b₀ b₁ b₂ b₃
  simp only [← BitVec.toNat_inj, hword, BitVec.ofNat_eq_ofNat, BitVec.toNat_ofNat]
  omega

/-- Only the bytes before the first zero are added, and never the last of the word. -/
theorem addTail_word (x : BitVec 32) (b₀ b₁ b₂ b₃ : BitVec 8) :
    addTail x (word b₀ b₁ b₂ b₃) =
      if b₀ = 0 then x
      else if b₁ = 0 then x + word b₀ 0 0 0
      else if b₂ = 0 then x + word b₀ 0 0 0 + word 0 b₁ 0 0
      else x + word b₀ 0 0 0 + word 0 b₁ 0 0 + word 0 0 b₂ 0 := by
  have h₀ : word b₀ b₁ b₂ b₃ &&& 0xff = word b₀ 0 0 0 := by
    rw [show (0xff : BitVec 32) = word (BitVec.allOnes 8) 0 0 0 from rfl, word_and]
    simp only [BitVec.and_allOnes, BitVec.ofNat_eq_ofNat, BitVec.and_zero]
  have h₁ : word b₀ b₁ b₂ b₃ &&& 0xff00 = word 0 b₁ 0 0 := by
    rw [show (0xff00 : BitVec 32) = word 0 (BitVec.allOnes 8) 0 0 from rfl, word_and]
    simp only [BitVec.and_allOnes, BitVec.ofNat_eq_ofNat, BitVec.and_zero]
  have h₂ : word b₀ b₁ b₂ b₃ &&& 0xff0000 = word 0 0 b₂ 0 := by
    rw [show (0xff0000 : BitVec 32) = word 0 0 (BitVec.allOnes 8) 0 from rfl, word_and]
    simp only [BitVec.and_allOnes, BitVec.ofNat_eq_ofNat, BitVec.and_zero]
  simp only [addTail, h₀, h₁, h₂, ne_eq, word_eq_zero, and_true, true_and, ite_not]

/-- The first word of a string, with zeros behind its end. What is behind the terminator in the
buffer does not get into the hash. -/
def wordOf (s : Bytes) : BitVec 32 := word (s.getD 0 0) (s.getD 1 0) (s.getD 2 0) (s.getD 3 0)

variable {s : Bytes} {n : Nat}

/-- A word before the terminator is the one of the string, and the test finds no zero in it. -/
theorem leUint32Read_before (hn : n + 4 ≤ s.length) (hs : 0 ∉ s) (t : Bytes) :
    leUint32Read ((s ++ t).drop n) = some (wordOf (s.drop n)) ∧
      haszeroU32 (wordOf (s.drop n)) = false := by
  have hlen : (s.drop n).length = s.length - n := List.length_drop
  have hmem : 0 ∉ s.drop n := fun h => hs (List.mem_of_mem_drop h)
  rw [List.drop_append_of_le_length (by omega)]
  match hdrop : s.drop n with
  | b₀ :: b₁ :: b₂ :: b₃ :: s' =>
    rw [hdrop] at hmem
    simp only [List.mem_cons, not_or] at hmem
    refine ⟨rfl, ?_⟩
    rw [← Bool.not_eq_true, wordOf]
    simp only [List.getD_cons_zero, List.getD_cons_succ, haszeroU32_word]
    grind
  | [] | [_] | [_, _] | [_, _, _] =>
    simp only [hdrop, List.length_nil, List.length_cons] at hlen
    omega

/-- The word with the terminator is found by the test, and what it adds is what the string adds,
whatever is behind the terminator. -/
theorem leUint32Read_end (hn : n ≤ s.length) (hlen : s.length < n + 4) (rest : Bytes)
    (hrest : n + 4 ≤ s.length + 1 + rest.length) :
    ∃ v, leUint32Read ((s ++ 0 :: rest).drop n) = some v ∧ haszeroU32 v = true ∧
      ∀ x, addTail x v = addTail x (wordOf (s.drop n)) := by
  have hlen' : (s.drop n).length = s.length - n := List.length_drop
  rw [List.drop_append_of_le_length hn]
  match hdrop : s.drop n, rest with
  | [], r₀ :: r₁ :: r₂ :: rest =>
    refine ⟨word 0 r₀ r₁ r₂, rfl, (haszeroU32_word ..).mpr (.inl rfl), fun x => ?_⟩
    simp [wordOf, addTail_word]
  | [b₀], r₀ :: r₁ :: rest =>
    refine ⟨word b₀ 0 r₀ r₁, rfl, (haszeroU32_word ..).mpr (.inr (.inl rfl)), fun x => ?_⟩
    simp [wordOf, addTail_word]
  | [b₀, b₁], r₀ :: rest =>
    refine ⟨word b₀ b₁ 0 r₀, rfl, (haszeroU32_word ..).mpr (.inr (.inr (.inl rfl))), fun x => ?_⟩
    simp [wordOf, addTail_word]
  | [b₀, b₁, b₂], rest =>
    refine ⟨word b₀ b₁ b₂ 0, rfl, (haszeroU32_word ..).mpr (.inr (.inr (.inr rfl))), fun x => ?_⟩
    simp [wordOf, addTail_word]
  | [], [] | [], [_] | [], [_, _] | [_], [] | [_], [_] | [_, _], [] | _ :: _ :: _ :: _ :: _, _ =>
    simp only [hdrop, List.length_nil, List.length_cons] at hlen' hrest
    omega

/-- Less than a word is left of the buffer, so the code reads behind its end. -/
theorem leUint32Read_behind {key : Bytes} (h : key.length < n + 4) :
    leUint32Read (key.drop n) = none := by
  have hlen : (key.drop n).length = key.length - n := List.length_drop
  match hdrop : key.drop n with
  | [] | [_] | [_, _] | [_, _, _] => rfl
  | _ :: _ :: _ :: _ :: _ =>
    simp only [hdrop, List.length_cons] at hlen
    omega

/-- The hash of a string, without the buffer that it is in: the recursion takes twelve bytes at a
time, as the loop does. -/
def stringVars (s : Bytes) (h : HashVars) : HashVars :=
  if s.length < 4 then { h with a := addTail h.a (wordOf s) }
  else if s.length < 8 then
    { h with a := h.a + wordOf s, b := addTail h.b (wordOf (s.drop 4)) }
  else if s.length < 12 then
    { a := h.a + wordOf s
      b := h.b + wordOf (s.drop 4)
      c := addTail h.c (wordOf (s.drop 8)) }
  else
    stringVars (s.drop 12)
      (mix ⟨h.a + wordOf s, h.b + wordOf (s.drop 4), h.c + wordOf (s.drop 8)⟩)
termination_by s.length
decreasing_by simp; omega

/-- The first word, where it is before the terminator, is read as such. -/
theorem leUint32Read_first (hlen : 4 ≤ s.length) (hs : 0 ∉ s) (t : Bytes) :
    leUint32Read (s ++ t) = some (wordOf s) ∧ haszeroU32 (wordOf s) = false :=
  leUint32Read_before (n := 0) (by omega) hs t

/-- One turn of the loop with the three words before the terminator, which drops twelve bytes of the
string. -/
theorem strhashLoop_twelve (hlen : 12 ≤ s.length) (hs : 0 ∉ s) (t : Bytes) (h : HashVars) :
    h.strhashLoop (s ++ t) =
      (mix ⟨h.a + wordOf s, h.b + wordOf (s.drop 4), h.c + wordOf (s.drop 8)⟩).strhashLoop
        (s.drop 12 ++ t) := by
  obtain ⟨hread₀, hzero₀⟩ := leUint32Read_first (by omega) hs t
  obtain ⟨hread₁, hzero₁⟩ := leUint32Read_before (n := 4) (by omega) hs t
  obtain ⟨hread₂, hzero₂⟩ := leUint32Read_before (n := 8) (by omega) hs t
  rw [HashVars.strhashLoop, hread₀, hread₁, hread₂, List.drop_append_of_le_length hlen]
  simp only [hzero₀, hzero₁, hzero₂, Option.bind_eq_bind, Option.bind_some, Bool.false_eq_true,
    if_false]

/-- The loop computes the hash of the string if the buffer goes on to the end of the word with the
terminator. The induction is that of `stringVars`. -/
theorem strhashLoop_eq (hs : 0 ∉ s) (rest : Bytes)
    (hrest : 4 * (s.length / 4 + 1) ≤ s.length + 1 + rest.length) (h : HashVars) :
    h.strhashLoop (s ++ 0 :: rest) = some (stringVars s h) := by
  fun_induction stringVars s h with
  | case1 s h h₁ =>
    obtain ⟨v, hread, hzero, htail⟩ :=
      leUint32Read_end (n := 0) (Nat.zero_le _) (by omega) rest (by omega)
    rw [List.drop_zero] at hread htail
    rw [HashVars.strhashLoop, hread, ← htail]
    exact if_pos hzero
  | case2 s h h₁ h₂ =>
    obtain ⟨hread₀, hzero₀⟩ := leUint32Read_first (by omega) hs (0 :: rest)
    obtain ⟨v, hread, hzero, htail⟩ :=
      leUint32Read_end (s := s) (n := 4) (by omega) (by omega) rest (by omega)
    rw [HashVars.strhashLoop, hread₀, hread, ← htail]
    simp only [hzero₀, hzero, Option.bind_eq_bind, Option.bind_some, Bool.false_eq_true, if_false,
      if_true]
    rfl
  | case3 s h h₁ h₂ h₃ =>
    obtain ⟨hread₀, hzero₀⟩ := leUint32Read_first (by omega) hs (0 :: rest)
    obtain ⟨hread₁, hzero₁⟩ := leUint32Read_before (n := 4) (by omega) hs (0 :: rest)
    obtain ⟨v, hread, hzero, htail⟩ :=
      leUint32Read_end (s := s) (n := 8) (by omega) (by omega) rest (by omega)
    rw [HashVars.strhashLoop, hread₀, hread₁, hread, ← htail]
    simp only [hzero₀, hzero₁, hzero, Option.bind_eq_bind, Option.bind_some, Bool.false_eq_true,
      if_false, if_true]
    rfl
  | case4 s h h₁ h₂ h₃ ih =>
    have hlen : (s.drop 12).length = s.length - 12 := List.length_drop
    rw [strhashLoop_twelve (Nat.le_of_not_lt h₃) hs]
    exact ih (fun hmem => hs (List.mem_of_mem_drop hmem)) (by omega)

/-- A buffer that ends within the word of the terminator is read behind its end. -/
theorem strhashLoop_none (hs : 0 ∉ s) (t : Bytes)
    (hend : s.length + t.length < 4 * (s.length / 4 + 1)) (h : HashVars) :
    h.strhashLoop (s ++ t) = none := by
  fun_induction stringVars s h with
  | case1 s h h₁ =>
    have hread : leUint32Read (s ++ t) = none :=
      leUint32Read_behind (n := 0) (by rw [List.length_append]; omega)
    rw [HashVars.strhashLoop, hread]
    rfl
  | case2 s h h₁ h₂ =>
    obtain ⟨hread₀, hzero₀⟩ := leUint32Read_first (by omega) hs t
    have hread : leUint32Read ((s ++ t).drop 4) = none :=
      leUint32Read_behind (by rw [List.length_append]; omega)
    rw [HashVars.strhashLoop, hread₀, hread]
    simp only [hzero₀, Option.bind_eq_bind, Option.bind_some, Bool.false_eq_true, if_false,
      Option.bind_none]
  | case3 s h h₁ h₂ h₃ =>
    obtain ⟨hread₀, hzero₀⟩ := leUint32Read_first (by omega) hs t
    obtain ⟨hread₁, hzero₁⟩ := leUint32Read_before (n := 4) (by omega) hs t
    have hread : leUint32Read ((s ++ t).drop 8) = none :=
      leUint32Read_behind (by rw [List.length_append]; omega)
    rw [HashVars.strhashLoop, hread₀, hread₁, hread]
    simp only [hzero₀, hzero₁, Option.bind_eq_bind, Option.bind_some, Bool.false_eq_true, if_false,
      Option.bind_none]
  | case4 s h h₁ h₂ h₃ ih =>
    have hlen : (s.drop 12).length = s.length - 12 := List.length_drop
    rw [strhashLoop_twelve (Nat.le_of_not_lt h₃) hs]
    exact ih (fun hmem => hs (List.mem_of_mem_drop hmem)) (by omega)

/-! ## The whole hash -/

/-- `tommy_strhash_u32` of a string, without the buffer. -/
def stringHash (initVal : BitVec 64) (s : Bytes) : BitVec 32 :=
  let x := (0xdeadbeef#64 + initVal).setWidth 32
  (final (stringVars s ⟨x, x, x⟩)).c

/-- The buffer holds a string, up to the end of the word with its terminator: up to three bytes
behind the terminator are read as well. -/
def HoldsString (key : Bytes) : Prop :=
  0 ∈ key ∧ 4 * ((cString key).length / 4 + 1) ≤ key.length

instance (key : Bytes) : Decidable (HoldsString key) := inferInstanceAs (Decidable (_ ∧ _))

/-- A string ends before its terminator. -/
theorem zero_notMem_cString (key : Bytes) : 0 ∉ cString key := by
  intro hmem
  have hne := List.mem_takeWhile_imp hmem
  simp at hne

/-- A buffer is its string, and the terminator behind it if there is one. -/
theorem exists_cString_append (key : Bytes) :
    ∃ t, key = cString key ++ t ∧ (0 ∈ key → ∃ rest, t = 0 :: rest) ∧ (0 ∉ key → t = []) := by
  induction key with
  | nil => exact ⟨[], rfl, fun hmem => absurd hmem List.not_mem_nil, fun _ => rfl⟩
  | cons b key ih =>
    obtain ⟨t, hkey, hterm, hnone⟩ := ih
    by_cases hb : b = 0
    · subst hb
      exact ⟨0 :: key, by simp [cString], fun _ => ⟨key, rfl⟩,
        fun hmem => absurd List.mem_cons_self hmem⟩
    · have hcons : cString (b :: key) = b :: cString key :=
        List.takeWhile_cons_of_pos (decide_eq_true hb)
      refine ⟨t, ?_, fun hmem => hterm ?_, fun hmem => hnone (List.not_mem_of_not_mem_cons hmem)⟩
      · rw [hcons, List.cons_append, ← hkey]
      · exact (List.mem_cons.mp hmem).resolve_left (Ne.symm hb)

/-- The hash is a function of the string, and it is read in whole words up to its terminator: where
the buffer ends before, the code reads behind it. -/
theorem strhashU32_eq (initVal : BitVec 64) (key : Bytes) :
    strhashU32 initVal key =
      if HoldsString key then some (stringHash initVal (cString key)) else none := by
  have hs := zero_notMem_cString key
  obtain ⟨t, hkey, hterm, hnone⟩ := exists_cString_append key
  have hlen : key.length = (cString key).length + t.length := by
    rw [← List.length_append, ← hkey]
  rw [strhashU32]
  split
  · next h =>
    obtain ⟨rest, rfl⟩ := hterm h.1
    have hrest : 4 * ((cString key).length / 4 + 1) ≤ (cString key).length + 1 + rest.length := by
      have h2 := h.2
      rw [List.length_cons] at hlen
      omega
    have hloop := strhashLoop_eq hs rest hrest
    rw [← hkey] at hloop
    rw [hloop]
    rfl
  · next h =>
    have hend : (cString key).length + t.length < 4 * ((cString key).length / 4 + 1) := by
      by_cases hmem : 0 ∈ key
      · have hshort : ¬ 4 * ((cString key).length / 4 + 1) ≤ key.length := fun hle =>
          h ⟨hmem, hle⟩
        omega
      · rw [hnone hmem, List.length_nil]
        omega
    have hloop := strhashLoop_none hs t hend
    rw [← hkey] at hloop
    rw [hloop]
    rfl

end OrbitCache.Tommy
