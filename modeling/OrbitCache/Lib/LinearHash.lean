import Mathlib.Data.List.Nodup
import Mathlib.Data.List.Perm.Lattice
import Mathlib.Logic.Function.Basic

/-!
# Linear hashing

The addresses of a table that is split one bucket at a time: of `n` buckets the first `s` have been
split in two already, so `n + s` buckets are in use. `Distributed` says that buckets hold the
elements of a list, those with the same key in the order of the list. It is kept when a bucket is
split (`Distributed.split`) and when two buckets are put together again (`Distributed.merge`),
whatever came before, and a search in one bucket is a search in the list (`Distributed.find?_eq`,
and `Distributed.findM?_eq` for a test that may fail).
-/

namespace LinearHash

/-! ## Addresses -/

/-- The bucket of the hash `h`, in a table of `n + s` buckets of which the first `s` were split. -/
def addr (n s h : Nat) : Nat := if h % n < s then h % (2 * n) else h % n

/-- The bit of the hash that a split of `n` buckets looks at. -/
def high (n h : Nat) : Bool := h / n % 2 = 1

variable {n s h : Nat}

/-- The remainder by `2 * n` adds that bit to the remainder by `n`. -/
theorem mod_two_mul : h % (2 * n) = h % n + if high n h then n else 0 := by
  rw [Nat.mul_comm, Nat.mod_mul, high]
  rcases Nat.mod_two_eq_zero_or_one (h / n) with hq | hq <;> simp [hq]

/-- Before the first split the hash is taken modulo `n`. -/
@[simp] theorem addr_zero : addr n 0 h = h % n := by simp [addr]

/-- After the last split it is taken modulo `2 * n`. -/
theorem addr_self (hn : 0 < n) : addr n n h = h % (2 * n) := by
  rw [addr, if_pos (Nat.mod_lt h hn)]

/-- Every hash has one of the buckets in use. -/
theorem addr_lt (hn : 0 < n) : addr n s h < n + s := by
  have hlt : h % n < n := Nat.mod_lt h hn
  rw [addr, mod_two_mul]
  grind

/-- The split of the bucket `s` moves the hashes with the bit to the bucket `s + n`. -/
theorem addr_succ (hs : s < n) :
    addr n (s + 1) h = if addr n s h = s then s + (if high n h then n else 0) else addr n s h := by
  have hlt : h % n < n := Nat.mod_lt h (Nat.zero_lt_of_lt hs)
  rw [addr, addr, mod_two_mul]
  grind

/-- Undoing the split moves the hashes of the bucket `s + n` back to the bucket `s`. -/
theorem addr_eq_of_succ (hs : s < n) :
    addr n s h = if addr n (s + 1) h = s + n then s else addr n (s + 1) h := by
  have hlt : addr n s h < n + s := addr_lt (Nat.zero_lt_of_lt hs)
  rw [addr_succ hs]
  grind

/-! ## Distribution -/

variable {α : Type*} {key key' : α → Nat} {B B' : Nat → List α} {xs : List α} {x : α} {p q : Nat}

/-- Buckets hold the elements of a list by their keys: each is in its bucket, and elements with one
key are there in the order of the list. -/
structure Distributed (key : α → Nat) (n s : Nat) (B : Nat → List α) (xs : List α) : Prop where
  addr_of_mem : ∀ {p x}, x ∈ B p → addr n s (key x) = p
  filter_eq : ∀ v, (B (addr n s v)).filter (key · = v) = xs.filter (key · = v)

/-- The buckets with another element, at the end of its bucket. -/
def insertAt (p : Nat) (x : α) (B : Nat → List α) (q : Nat) : List α :=
  if q = p then B p ++ [x] else B q

/-- The buckets after the bucket `s` is split. -/
def splitAt (key : α → Nat) (n s : Nat) (B : Nat → List α) (q : Nat) : List α :=
  if q = s + n then (B s).filter fun x => high n (key x)
  else if q = s then (B s).filter fun x => !high n (key x)
  else B q

/-- The buckets after the buckets `s` and `s + n` are put together. -/
def mergeAt (n s : Nat) (B : Nat → List α) (q : Nat) : List α :=
  if q = s + n then []
  else if q = s then B s ++ B (s + n)
  else B q

/-- Empty buckets hold the empty list. -/
theorem distributed_nil : Distributed key n s (fun _ => []) [] where
  addr_of_mem hx := nomatch hx
  filter_eq _ := rfl

namespace Distributed

variable (hd : Distributed key n s B xs)
include hd

/-- An element is in the bucket of its key and in no other. -/
theorem mem_iff : x ∈ B p ↔ x ∈ xs ∧ addr n s (key x) = p := by
  have hkey : x ∈ B (addr n s (key x)) ↔ x ∈ xs := by
    have hfilter := congrArg (x ∈ ·) (hd.filter_eq (key x))
    simpa using hfilter
  constructor
  · intro hx
    have hp := hd.addr_of_mem hx
    exact ⟨hkey.mp (hp ▸ hx), hp⟩
  · rintro ⟨hx, rfl⟩
    exact hkey.mpr hx

/-- Two buckets share no element. -/
theorem disjoint (hpq : p ≠ q) : (B p).Disjoint (B q) := fun _ hp hq =>
  hpq ((hd.addr_of_mem hp).symm.trans (hd.addr_of_mem hq))

/-- The keys of other elements do not matter: keys that agree on the list are distributed alike. -/
theorem congr (hkey : ∀ x ∈ xs, key' x = key x) : Distributed key' n s B xs := by
  refine ⟨fun hx => ?_, fun v => ?_⟩
  · rw [hkey _ (hd.mem_iff.mp hx).1]
    exact hd.addr_of_mem hx
  · have hB : (B (addr n s v)).filter (key' · = v) = (B (addr n s v)).filter (key · = v) :=
      List.filter_congr fun x hx => by rw [hkey x (hd.mem_iff.mp hx).1]
    have hxs : xs.filter (key' · = v) = xs.filter (key · = v) :=
      List.filter_congr fun x hx => by rw [hkey x hx]
    rw [hB, hxs]
    exact hd.filter_eq v

/-- A search in the bucket of a key is a search in the list. -/
theorem find?_eq (v : Nat) (r : α → Bool) :
    (B (addr n s v)).find? (fun x => key x = v ∧ r x) = xs.find? fun x => key x = v ∧ r x := by
  have hfind := congrArg (List.find? r) (hd.filter_eq v)
  rw [List.find?_filter, List.find?_filter] at hfind
  simpa using hfind

/-- The buckets in use hold every element once, so all elements are reached through them. -/
theorem perm (hn : 0 < n) (hB : ∀ p < n + s, (B p).Nodup) (hxs : xs.Nodup) :
    ((List.range (n + s)).flatMap B).Perm xs := by
  have hnodup : ((List.range (n + s)).flatMap B).Nodup := by
    refine List.nodup_flatMap.mpr ⟨fun p hp => hB p (List.mem_range.mp hp), ?_⟩
    exact List.nodup_range.imp fun hpq => hd.disjoint hpq
  refine (List.perm_ext_iff_of_nodup hnodup hxs).mpr fun x => ?_
  simp only [List.mem_flatMap, List.mem_range, hd.mem_iff]
  exact ⟨fun ⟨_, _, hx, _⟩ => hx, fun hx => ⟨_, addr_lt hn, hx, rfl⟩⟩

/-- An element behind the others of its bucket is an element behind all others. -/
theorem insert (x : α) :
    Distributed key n s (insertAt (addr n s (key x)) x B) (xs ++ [x]) := by
  refine ⟨fun {p y} hy => ?_, fun v => ?_⟩
  · rw [insertAt] at hy
    split at hy
    · next hp =>
      rcases List.mem_append.mp hy with hy | hy
      · exact (hd.addr_of_mem hy).trans hp.symm
      · rw [List.mem_singleton.mp hy, hp]
    · exact hd.addr_of_mem hy
  · rw [List.filter_append, insertAt]
    split
    · next hv => rw [List.filter_append, ← hv, hd.filter_eq v]
    · next hv =>
      have hne : key x ≠ v := fun heq => hv (by rw [heq])
      have hx : [x].filter (key · = v) = [] := by simp [hne]
      rw [hd.filter_eq v, hx, List.append_nil]

/-- An element is taken out of its bucket and of the list. -/
theorem erase [DecidableEq α] (x : α) :
    Distributed key n s (fun p => (B p).filter (· ≠ x)) (xs.filter (· ≠ x)) := by
  refine ⟨fun hy => hd.addr_of_mem (List.mem_filter.mp hy).1, fun v => ?_⟩
  rw [List.filter_comm, hd.filter_eq v, List.filter_comm]

/-- The bucket `s` is split: the elements with the bit go to the bucket `s + n`. -/
theorem split (hs : s < n) : Distributed key n (s + 1) (splitAt key n s B) xs := by
  have hn : 0 < n := Nat.zero_lt_of_lt hs
  refine ⟨fun {p x} hx => ?_, fun v => ?_⟩
  · rw [splitAt] at hx
    rw [addr_succ hs]
    split at hx
    · obtain ⟨hx, hhigh⟩ := List.mem_filter.mp hx
      have haddr := hd.addr_of_mem hx
      grind
    · split at hx
      · obtain ⟨hx, hhigh⟩ := List.mem_filter.mp hx
        have haddr := hd.addr_of_mem hx
        grind
      · have haddr := hd.addr_of_mem hx
        grind
  · have hlt : addr n s v < n + s := addr_lt hn
    by_cases hv : addr n s v = s
    · -- the elements with this hash all go the same way
      rw [← hd.filter_eq v, hv]
      cases hhigh : high n v with
      | true =>
        have haddr : addr n (s + 1) v = s + n := by simp [addr_succ hs, hv, hhigh]
        rw [haddr, splitAt, if_pos rfl, List.filter_filter]
        exact List.filter_congr fun x _ => by grind
      | false =>
        have haddr : addr n (s + 1) v = s := by simp [addr_succ hs, hv, hhigh]
        rw [haddr, splitAt, if_neg (by omega), if_pos rfl, List.filter_filter]
        exact List.filter_congr fun x _ => by grind
    · have hsn : addr n s v ≠ s + n := by omega
      rw [addr_succ hs, if_neg hv, splitAt, if_neg hsn, if_neg hv, hd.filter_eq v]

end Distributed

/-- A search does not stop at an element that its test rejects, so such elements may be left out. -/
theorem findM?_filter {β : Type} {q : β → Bool} {r : β → Option Bool} {l : List β}
    (h : ∀ x, q x = false → r x = some false) : (l.filter q).findM? r = l.findM? r := by
  induction l with
  | nil => rfl
  | cons x l ih =>
    cases hx : q x with
    | true => rw [List.filter_cons_of_pos hx, List.findM?, List.findM?, ih]
    | false =>
      rw [List.filter_cons_of_neg (by simp [hx]), ih, List.findM?, h x hx]
      rfl

/-- A search whose test may fail, but never at elements with other keys, is a search in the list. -/
theorem Distributed.findM?_eq {β : Type} {key : β → Nat} {B : Nat → List β} {xs : List β}
    (hd : Distributed key n s B xs) (v : Nat) {r : β → Option Bool}
    (hr : ∀ x, key x ≠ v → r x = some false) : (B (addr n s v)).findM? r = xs.findM? r := by
  have hskip : ∀ l : List β, (l.filter (key · = v)).findM? r = l.findM? r := fun l =>
    findM?_filter fun x hx => hr x (by simpa using hx)
  rw [← hskip, hd.filter_eq v, hskip]

/-- When every bucket has been split, there are twice as many, and the next round of splits begins.
-/
theorem distributed_two_mul (hn : 0 < n) :
    Distributed key (2 * n) 0 B xs ↔ Distributed key n n B xs := by
  have haddr : ∀ v, addr (2 * n) 0 v = addr n n v := fun v => by rw [addr_zero, addr_self hn]
  constructor
  · intro hd
    refine ⟨fun hx => ?_, fun v => ?_⟩
    · rw [← haddr]
      exact hd.addr_of_mem hx
    · rw [← haddr]
      exact hd.filter_eq v
  · intro hd
    refine ⟨fun hx => ?_, fun v => ?_⟩
    · rw [haddr]
      exact hd.addr_of_mem hx
    · rw [haddr]
      exact hd.filter_eq v

/-- The buckets `s` and `s + n` are put together, which undoes the split. -/
theorem Distributed.merge (hd : Distributed key n (s + 1) B xs) (hs : s < n) :
    Distributed key n s (mergeAt n s B) xs := by
  have hn : 0 < n := Nat.zero_lt_of_lt hs
  refine ⟨fun {p x} hx => ?_, fun v => ?_⟩
  · rw [mergeAt] at hx
    rw [addr_eq_of_succ hs]
    split at hx
    · cases hx
    · split at hx
      · rcases List.mem_append.mp hx with hx | hx
        · have haddr := hd.addr_of_mem hx
          grind
        · have haddr := hd.addr_of_mem hx
          grind
      · have haddr := hd.addr_of_mem hx
        grind
  · have hlt : addr n s v < n + s := addr_lt hn
    have hsn : addr n s v ≠ s + n := by omega
    have hfilter := hd.filter_eq v
    rw [mergeAt, if_neg hsn]
    split
    · next hv =>
      rw [List.filter_append, ← hfilter]
      -- one of the two buckets has no element with this hash
      have hother : ∀ p, p ≠ addr n (s + 1) v → (B p).filter (key · = v) = [] := by
        intro p hp
        refine List.filter_eq_nil_iff.mpr fun x hx hkey => hp ?_
        rw [← hd.addr_of_mem hx, of_decide_eq_true hkey]
      cases hhigh : high n v with
      | true =>
        have haddr : addr n (s + 1) v = s + n := by simp [addr_succ hs, hv, hhigh]
        rw [haddr] at hother ⊢
        rw [hother s (by omega), List.nil_append]
      | false =>
        have haddr : addr n (s + 1) v = s := by simp [addr_succ hs, hv, hhigh]
        rw [haddr] at hother ⊢
        rw [hother (s + n) (by omega), List.append_nil]
    · next hv =>
      rw [addr_succ hs, if_neg hv] at hfilter
      exact hfilter

end LinearHash
