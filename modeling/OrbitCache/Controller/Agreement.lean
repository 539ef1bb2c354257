import OrbitCache.Controller.Key
import OrbitCache.Host.Wire

/-!
# Agreement on keys and hashes

The hosts compute keys and hashes with machine words, the controller with unbounded integers it
masks. `Controller.hkey_extracted`: they get the same key for every item number, the same hashes of
it, and the header the switch extracts from a packet for the key matches the entry the controller
installs for it.
-/

namespace OrbitCache.Controller

/-! ## Keys -/

/-- A mask of 64 bits is what a 64-bit word keeps. -/
theorem and_mask64 (x : Nat) : x &&& 0xFFFFFFFFFFFFFFFF = x % 2 ^ 64 :=
  Nat.and_two_pow_sub_one_eq_mod x 64

/-- A mask of 16 bits is what a 16-bit word keeps. -/
theorem and_mask16 (x : Nat) : x &&& 0xFFFF = x % 2 ^ 16 :=
  Nat.and_two_pow_sub_one_eq_mod x 16

/-- The rounds of the transformation agree: the masks of the Python code stand for the overflow of
the C code. -/
theorem complexTransform_toNat (n : BitVec 64) :
    complexTransform n.toNat = (OrbitCache.complexTransform n).toNat := by
  have hround : ∀ v : BitVec 64, ((v.toNat <<< 3) - v.toNat + 7) &&& 0xFFFFFFFFFFFFFFFF =
      (transformRound v).toNat := by
    intro v
    rw [and_mask64, toNat_transformRound, Nat.shiftLeft_eq]
    congr 1
    omega
  exact (Function.Semiconj.iterate_right (f := BitVec.toNat) (fun v => (hround v).symm) 5 n).symm

/-- Both loops write the same characters, since both take the digits of the same number from the
last to the first. -/
theorem tostringKeyLoop_toNat (i : Nat) (t : BitVec 64) {key : Bytes} {keyChars : Str}
    (h : keyChars.map Char.toNat = key.map BitVec.toNat) :
    (tostringKeyLoop i t.toNat keyChars).map Char.toNat =
      (OrbitCache.tostringKeyLoop i t key).map BitVec.toNat := by
  have hchars : ∀ j < charsetSize, (charset.getD j 'A').toNat = (charByte j).toNat := by decide
  have hsize : (BitVec.ofNat 64 charsetSize).toNat = charsetSize := by decide
  induction i generalizing t key keyChars with
  | zero => exact h
  | succ i ih =>
    have hdigit : t.toNat % charsetSize < charsetSize := Nat.mod_lt _ (by decide)
    have hcons : (charset.getD (t.toNat % charsetSize) 'A' :: keyChars).map Char.toNat =
        (charByte (t % BitVec.ofNat 64 charsetSize).toNat :: key).map BitVec.toNat := by
      rw [List.map_cons, List.map_cons, h, BitVec.toNat_umod, hsize, hchars _ hdigit]
    have hstep := ih (t / BitVec.ofNat 64 charsetSize) hcons
    rwa [BitVec.toNat_udiv, hsize] at hstep

/-- The keys of an item have the same character codes. -/
theorem tostringKey_toNat (n : BitVec 64) :
    (tostringKey n.toNat).map Char.toNat = (OrbitCache.tostringKey n).map BitVec.toNat := by
  rw [tostringKey, complexTransform_toNat]
  exact tostringKeyLoop_toNat _ _ rfl

/-! ## Hashes -/

/-- A fold over machine words is the fold over integers when each step is. -/
theorem foldl_toNat {w : Nat} (f : BitVec w → BitVec 8 → BitVec w) (g : Nat → Nat → Nat)
    {key : Bytes} {keyChars : Str} (h : keyChars.map Char.toNat = key.map BitVec.toNat)
    (hstep : ∀ v, ∀ c ∈ key, g v.toNat c.toNat = (f v c).toNat) (v : BitVec w) :
    keyChars.foldl (fun v char => g v char.toNat) v.toNat = (key.foldl f v).toNat := by
  induction key generalizing v keyChars with
  | nil =>
    rw [List.map_nil, List.map_eq_nil_iff] at h
    subst h
    rfl
  | cons c key ih =>
    cases keyChars with
    | nil => cases h
    | cons char keyChars =>
      rw [List.map_cons, List.map_cons, List.cons.injEq] at h
      rw [List.foldl_cons, List.foldl_cons, h.1, hstep v c List.mem_cons_self]
      exact ih h.2 (fun v c hc => hstep v c (List.mem_cons_of_mem _ hc)) _

/-- A multiplication round of the hashes, with its shift and its constant as parameters. -/
theorem mix_toNat (s : Nat) (v : BitVec 64) {c : Nat} (hc : c < 2 ^ 64) :
    (((v.toNat >>> s) ^^^ v.toNat) * c) &&& 0xFFFFFFFFFFFFFFFF =
      ((((v >>> s) ^^^ v) * BitVec.ofNat 64 c) &&& 0xFFFFFFFFFFFFFFFF).toNat := by
  rw [OrbitCache.and_mask64, and_mask64, BitVec.toNat_mul, BitVec.toNat_xor,
    BitVec.toNat_ushiftRight, BitVec.toNat_ofNat, Nat.mod_eq_of_lt hc]

/-- The last round of the hashes, which has no multiplication. -/
theorem finish_toNat (s : Nat) (v : BitVec 64) :
    ((v.toNat >>> s) ^^^ v.toNat) &&& 0xFFFFFFFFFFFFFFFF =
      (((v >>> s) ^^^ v) &&& 0xFFFFFFFFFFFFFFFF).toNat := by
  rw [OrbitCache.and_mask64, and_mask64, ← BitVec.toNat_ushiftRight, ← BitVec.toNat_xor]
  exact Nat.mod_eq_of_lt (BitVec.isLt _)

/-- Adding a character to the hash, with the factor and the offset of the two functions as
parameters. -/
theorem step_toNat (m a : Nat) (v : BitVec 64) (c : BitVec 8) :
    (v.toNat * m + c.toNat + a) &&& 0xFFFFFFFFFFFFFFFF =
      ((v * BitVec.ofNat 64 m + c.setWidth 64 + BitVec.ofNat 64 a) &&&
        0xFFFFFFFFFFFFFFFF).toNat := by
  rw [OrbitCache.and_mask64, and_mask64, BitVec.toNat_add, BitVec.toNat_add, BitVec.toNat_mul,
    BitVec.toNat_setWidth, BitVec.toNat_ofNat, BitVec.toNat_ofNat]
  simp only [Nat.add_mod, Nat.mul_mod, Nat.mod_mod]

/-- `hash64_hi` and `hash64_str` give the same number for strings with the same character codes. -/
theorem hash64Hi_toNat {key : Bytes} {keyChars : Str}
    (h : keyChars.map Char.toNat = key.map BitVec.toNat) :
    hash64Hi keyChars = (hash64Str key).toNat := by
  have hfold := foldl_toNat (fun value c => (value * 31 + c.setWidth 64) &&& 0xFFFFFFFFFFFFFFFF)
    (fun value char => (value * 31 + char) &&& 0xFFFFFFFFFFFFFFFF) h
    (fun v c _ => (step_toNat 31 0 v c).trans (by rw [BitVec.add_zero]; rfl)) (0 : BitVec 64)
  have hinit : (0 : BitVec 64).toNat = 0 := rfl
  unfold hash64Hi hash64Str
  rw [hinit] at hfold
  simp only [hfold, mix_toNat _ _ (show 0xc4ceb9fe1a85ec53 < 2 ^ 64 by decide), finish_toNat]
  rfl

/-- `hash64_lo` and `hash64_str2` give the same number as well. -/
theorem hash64Lo_toNat {key : Bytes} {keyChars : Str}
    (h : keyChars.map Char.toNat = key.map BitVec.toNat) :
    hash64Lo keyChars = (hash64Str2 key).toNat := by
  have hfold := foldl_toNat
    (fun value c => (value * 33 + c.setWidth 64 + 0x45) &&& 0xFFFFFFFFFFFFFFFF)
    (fun value char => (value * 33 + char + 0x45) &&& 0xFFFFFFFFFFFFFFFF) h
    (fun v c _ => step_toNat 33 0x45 v c) (0xABCDEF : BitVec 64)
  have hinit : (0xABCDEF : BitVec 64).toNat = 0xABCDEF := rfl
  unfold hash64Lo hash64Str2
  rw [hinit] at hfold
  simp only [hfold, mix_toNat _ _ (show 0x123456789ABCDEF1 < 2 ^ 64 by decide),
    mix_toNat _ _ (show 0xFEDCBA9876543210 < 2 ^ 64 by decide), finish_toNat]
  rfl

/-- `fnv1_16_str` of the two programs, on an ASCII string: there no character is sign-extended. -/
theorem fnv116Str_toNat {key : Bytes} {keyChars : Str}
    (h : keyChars.map Char.toNat = key.map BitVec.toNat) (hascii : ∀ c ∈ key, c.toNat < 128) :
    fnv116Str keyChars = (OrbitCache.fnv116Str key).toNat := by
  refine foldl_toNat (fun hash c => (hash * 0x0101) ^^^ c.signExtend 16)
    (fun hash char => ((hash * 0x0101) ^^^ char) &&& 0xFFFF) h (fun v c hc => ?_)
    (0x811c : BitVec 16)
  have hlt := hascii c hc
  have hmsb : c.msb = false := by
    rw [BitVec.msb_eq_decide]
    simpa using hlt
  have hprime : (0x0101 : BitVec 16).toNat = 0x0101 := rfl
  have hchar : (c.signExtend 16).toNat = c.toNat % 2 ^ 16 := by
    rw [BitVec.signExtend_eq_setWidth_of_msb_false hmsb, BitVec.toNat_setWidth]
  rw [and_mask16, BitVec.toNat_xor, BitVec.toNat_mul, hprime, hchar, Nat.xor_mod_two_pow]

/-- The entry the controller installs for a key matches the hashes in the hosts' packets, half by
half. -/
theorem hkey_eq_hostHash {key : Bytes} {keyChars : Str}
    (h : keyChars.map Char.toNat = key.map BitVec.toNat) : hkey keyChars = hostHash key := by
  rw [hkey, hostHash, hash64Hi_toNat h, hash64Lo_toNat h]
  simp only [BitVec.ofNat_toNat, BitVec.setWidth_eq]

/-- Hosts, switch and controller agree on the key of every item, on its hashes and on the match key
of every packet that is built for it. -/
theorem hkey_extracted (n : BitVec 64) :
    ((tostringKey n.toNat).map Char.toNat = (OrbitCache.tostringKey n).map BitVec.toNat ∧
      (tostringKey n.toNat).length = 15) ∧
    hash64Hi (tostringKey n.toNat) = (hash64Str (OrbitCache.tostringKey n)).toNat ∧
    hash64Lo (tostringKey n.toNat) = (hash64Str2 (OrbitCache.tostringKey n)).toNat ∧
    fnv116Str (tostringKey n.toNat) = (OrbitCache.fnv116Str (OrbitCache.tostringKey n)).toNat ∧
    ∀ hdr valueSize, Builds (OrbitCache.tostringKey n) hdr →
      (OrbitcacheH.extract.run (hdr.sent valueSize)).map (fun r => r.1.hkey) =
        some (hkey (tostringKey n.toNat)) := by
  have hkeys := tostringKey_toNat n
  refine ⟨⟨hkeys, ?_⟩, hash64Hi_toNat hkeys, hash64Lo_toNat hkeys,
    fnv116Str_toNat hkeys fun c hc => (mem_tostringKey hc).2, ?_⟩
  · have hlen := congrArg List.length hkeys
    rwa [List.length_map, List.length_map, length_tostringKey] at hlen
  · intro hdr valueSize hbuilds
    rw [hkey_eq_hostHash hkeys]
    exact hbuilds.extract_sent (cString_keyField_tostringKey n) valueSize

/-- The install packet of item 0 matches its entry. -/
theorem hkey_extracted_preload :
    (OrbitcacheH.extract.run ((preloadHdr (OrbitCache.tostringKey 0)).sent 64)).map
        (fun r => r.1.hkey) =
      some (hkey (tostringKey (0 : BitVec 64).toNat)) :=
  (hkey_extracted 0).2.2.2.2 _ _ .preload

end OrbitCache.Controller
