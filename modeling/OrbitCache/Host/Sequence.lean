import OrbitCache.Host.Client
import OrbitCache.Lib.Slots

/-!
# The sequence table

What `seq_get` returns for the requests a `tx_t` thread has sent. The slot of a sequence number is
its residue modulo `MAX_SEQ_HDRS`, which does not divide `2 ^ 32`: after the counter wraps, the
slots of the new requests are those of requests sent `2 ^ 32 % MAX_SEQ_HDRS` before them.
-/

namespace OrbitCache

/-- A request of a Tx thread: what it draws and the time it reads. These are arguments, so the
results hold for any workload. -/
structure TxRequest where
  isWrite : Bool
  key : Bytes
  value : Bytes
  latency : BitVec 32

namespace Client

/-- `2 ^ 32`, the number of sequence numbers. -/
abbrev seqNumbers : Nat := 2 ^ 32

section
variable (hash : Bytes → Hkey) (dest : Bytes → Endpoint) (self : Endpoint)

/-- The client after the requests of a Tx thread, from the first sequence number on. Replies do not
change what `seq_get` finds, so they are left out. -/
def sendAll (reqs : List TxRequest) : Client :=
  reqs.foldl (fun c r => (c.tx hash dest self r.isWrite r.key r.value r.latency).1) init

/-- `seq_get` finds the key of each of the last `MAX_SEQ_HDRS` requests, or of all of them if there
are fewer. -/
def Remembers (reqs : List TxRequest) : Prop :=
  ∀ i r, reqs[i]? = some r → reqs.length - min reqs.length maxSeqHdrs ≤ i →
    (sendAll hash dest self reqs).seqGet (BitVec.ofNat 32 i) = some r.key

/-- The slot of a sequence number in the table, which has `MAX_SEQ_HDRS` of them. -/
def seqSlot (seq2 : BitVec 32) : Nat := seq2.toNat % maxSeqHdrs

/-- The entries a Tx thread has put, in order: the number of each request, which wraps around, and
its key. -/
def entries (reqs : List TxRequest) : List (BitVec 32 × Bytes) :=
  reqs.mapIdx fun i r => (BitVec.ofNat 32 i, r.key.take (keySize - 1))

/-- One more request is one more entry. -/
theorem entries_concat (reqs : List TxRequest) (r : TxRequest) :
    entries (reqs ++ [r]) =
      entries reqs ++ [(BitVec.ofNat 32 reqs.length, r.key.take (keySize - 1))] :=
  List.mapIdx_concat

variable {hash dest self}

/-- The last request is sent by the client that sent those before it. -/
theorem sendAll_concat (reqs : List TxRequest) (r : TxRequest) :
    sendAll hash dest self (reqs ++ [r]) =
      ((sendAll hash dest self reqs).tx hash dest self r.isWrite r.key r.value r.latency).1 :=
  List.foldl_concat ..

/-- After the requests the counter is their number and the table has their entries: the table as a
whole, from which the results about single slots follow. -/
theorem sendAll_eq (reqs : List TxRequest) :
    (sendAll hash dest self reqs).seqGlobal = BitVec.ofNat 32 reqs.length ∧
    (sendAll hash dest self reqs).seqHdrs = Slots.puts seqSlot init.seqHdrs (entries reqs) := by
  induction reqs using List.reverseRecOn with
  | nil => exact ⟨rfl, rfl⟩
  | append_singleton reqs r ih =>
    obtain ⟨hseq, hhdrs⟩ := ih
    rw [sendAll_concat, entries_concat, Slots.puts_concat, ← hhdrs, tx]
    refine ⟨?_, ?_⟩
    · simp only [hseq, List.length_append, List.length_singleton, BitVec.ofNat_add]
      rfl
    · simp only [seqPut, hseq]
      rfl

/-- What `seq_get` returns is decided by the last entry of the slot. -/
theorem seqGet_sendAll (reqs : List TxRequest) (seq2 : BitVec 32) :
    (sendAll hash dest self reqs).seqGet seq2 =
      let e := Slots.puts seqSlot init.seqHdrs (entries reqs) (seqSlot seq2)
      if e.1 ≠ seq2 then none else some e.2 := by
  rw [seqGet, (sendAll_eq reqs).2]
  rfl

/-- The entry of a request has its sequence number and its key. -/
theorem entries_getElem? {reqs : List TxRequest} {i : Nat} {r : TxRequest} (h : reqs[i]? = some r) :
    (entries reqs)[i]? = some (BitVec.ofNat 32 i, r.key.take (keySize - 1)) := by
  rw [entries, List.getElem?_mapIdx, h, Option.map_some]

/-- The number of an entry is that of its request. -/
theorem entries_tag {reqs : List TxRequest} {i : Nat} {e : BitVec 32 × Bytes}
    (h : (entries reqs)[i]? = some e) : i < reqs.length ∧ e.1 = BitVec.ofNat 32 i := by
  rw [entries, List.getElem?_mapIdx, Option.map_eq_some_iff] at h
  obtain ⟨r, hr, rfl⟩ := h
  exact ⟨(List.getElem?_eq_some_iff.1 hr).1, rfl⟩

/-- The slot of a request: its number wraps around at `2 ^ 32` and then at the length of the table.
-/
theorem seqSlot_ofNat (i : Nat) : seqSlot (BitVec.ofNat 32 i) = i % seqNumbers % maxSeqHdrs := by
  rw [seqSlot, BitVec.toNat_ofNat]

/-- A request whose slot was not used since is remembered, with its whole key, because a key of
`KEY_SIZE - 1` characters fits the slot. -/
theorem seqGet_of_last {reqs : List TxRequest} {i : Nat} {r : TxRequest} (hi : reqs[i]? = some r)
    (hkey : r.key.length = keySize - 1)
    (hlast : ∀ j, i < j → j < reqs.length →
      j % seqNumbers % maxSeqHdrs ≠ i % seqNumbers % maxSeqHdrs) :
    (sendAll hash dest self reqs).seqGet (BitVec.ofNat 32 i) = some r.key := by
  have hentry := entries_getElem? hi
  have hputs : Slots.puts seqSlot init.seqHdrs (entries reqs) (seqSlot (BitVec.ofNat 32 i)) =
      (BitVec.ofNat 32 i, r.key.take (keySize - 1)) := by
    refine Slots.puts_of_last hentry fun j e' hj he' => ?_
    obtain ⟨hlt, htag⟩ := entries_tag he'
    rw [htag, seqSlot_ofNat, seqSlot_ofNat]
    exact hlast j hj hlt
  rw [seqGet_sendAll]
  simp only [hputs]
  rw [if_neg (by simp), List.take_of_length_le (Nat.le_of_eq hkey)]

/-- A request whose slot a later one took is not found, since the later one has another number. -/
theorem seqGet_of_taken {reqs : List TxRequest} {i j : Nat} (hij : i < j) (hj : j < reqs.length)
    (hslot : j % seqNumbers % maxSeqHdrs = i % seqNumbers % maxSeqHdrs)
    (hnear : reqs.length ≤ i + seqNumbers) :
    (sendAll hash dest self reqs).seqGet (BitVec.ofNat 32 i) = none := by
  have hentry := entries_getElem? (List.getElem?_eq_getElem hj)
  have hlater : ∃ j', j ≤ j' ∧ (entries reqs)[j']? =
      some (Slots.puts seqSlot init.seqHdrs (entries reqs) (seqSlot (BitVec.ofNat 32 j))) :=
    Slots.exists_later hentry
  obtain ⟨j', hle, hget⟩ := hlater
  obtain ⟨hlt, htag⟩ := entries_tag hget
  have hsame : seqSlot (BitVec.ofNat 32 i) = seqSlot (BitVec.ofNat 32 j) := by
    rw [seqSlot_ofNat, seqSlot_ofNat, hslot]
  rw [seqGet_sendAll, hsame]
  -- the entry is of a request after `i` and less than `2 ^ 32` away from it
  refine if_pos fun h => ?_
  rw [htag] at h
  have hmod := congrArg BitVec.toNat h
  rw [BitVec.toNat_ofNat, BitVec.toNat_ofNat] at hmod
  simp only [seqNumbers] at hnear
  omega

/-- Before the counter wraps, `seq_get` finds no other key than that of the request. -/
theorem eq_of_seqGet {reqs : List TxRequest} {i : Nat} {r : TxRequest} {key : Bytes}
    (hlen : reqs.length ≤ seqNumbers) (hi : reqs[i]? = some r) (hkey : r.key.length = keySize - 1)
    (hget : (sendAll hash dest self reqs).seqGet (BitVec.ofNat 32 i) = some key) : key = r.key := by
  have hentry := entries_getElem? hi
  obtain ⟨j, hij, hj⟩ : ∃ j, i ≤ j ∧ (entries reqs)[j]? =
      some (Slots.puts seqSlot init.seqHdrs (entries reqs) (seqSlot (BitVec.ofNat 32 i))) :=
    Slots.exists_later hentry
  obtain ⟨hlt, htag⟩ := entries_tag hj
  rw [seqGet_sendAll] at hget
  simp only [htag, ne_eq, ite_not, Option.ite_none_right_eq_some, Option.some.injEq] at hget
  obtain ⟨hseq, rfl⟩ := hget
  have hnumber (k : Nat) (hk : k < reqs.length) : (BitVec.ofNat 32 k).toNat = k := by
    rw [BitVec.toNat_ofNat]
    exact Nat.mod_eq_of_lt (hk.trans_le hlen)
  have hsame := congrArg BitVec.toNat hseq
  rw [hnumber j hlt, hnumber i (List.getElem?_eq_some_iff.1 hi).1] at hsame
  subst hsame
  rw [hentry, Option.some.injEq] at hj
  rw [← hj, List.take_of_length_le (Nat.le_of_eq hkey)]

/-- Before the counter wraps, `seq_get` returns a null pointer for exactly those requests that more
than `MAX_SEQ_HDRS - 1` others followed: the first of these took the slot. -/
theorem seqGet_eq_none_iff {reqs : List TxRequest} {i : Nat} {r : TxRequest}
    (hlen : reqs.length ≤ seqNumbers) (hi : reqs[i]? = some r)
    (hkey : r.key.length = keySize - 1) :
    (sendAll hash dest self reqs).seqGet (BitVec.ofNat 32 i) = none ↔
      i + maxSeqHdrs < reqs.length := by
  have hlt := (List.getElem?_eq_some_iff.1 hi).1
  simp only [seqNumbers] at hlen
  constructor
  · intro hnone
    by_contra hnear
    have hget : (sendAll hash dest self reqs).seqGet (BitVec.ofNat 32 i) = some r.key := by
      refine seqGet_of_last hi hkey fun j hij hj => ?_
      simp only [seqNumbers, maxSeqHdrs] at hnear ⊢
      omega
    rw [hnone] at hget
    cases hget
  · intro hfar
    refine seqGet_of_taken (j := i + maxSeqHdrs) (Nat.lt_add_of_pos_right (by decide)) hfar ?_ ?_
    · simp only [seqNumbers, maxSeqHdrs] at hfar ⊢
      omega
    · simp only [seqNumbers]
      omega

/-- The last `MAX_SEQ_HDRS` requests are remembered exactly if the counter did not wrap among them.
As long as it did not, their slots are different ones; after a wrap new requests take the slots of
requests that are still among the last. -/
theorem remembers_iff (reqs : List TxRequest) (hkeys : ∀ r ∈ reqs, r.key.length = keySize - 1) :
    Remembers hash dest self reqs ↔
      reqs.length < seqNumbers ∨ reqs.length % seqNumbers = 0 ∨
        maxSeqHdrs ≤ reqs.length % seqNumbers := by
  constructor
  · intro h
    by_contra hwrap
    simp only [seqNumbers, maxSeqHdrs] at hwrap
    -- the request that the newest one, or the last before the wrap, shares its slot with
    obtain ⟨i, j, hj, hlow, hij, hslot⟩ : ∃ i j, j < reqs.length ∧
        reqs.length - min reqs.length maxSeqHdrs ≤ i ∧ i < j ∧
        j % seqNumbers % maxSeqHdrs = i % seqNumbers % maxSeqHdrs := by
      simp only [seqNumbers, maxSeqHdrs]
      by_cases hk : reqs.length % 2 ^ 32 ≤ 44967296
      · exact ⟨reqs.length - 1 - 44967296, reqs.length - 1, by omega, by omega, by omega, by omega⟩
      · exact ⟨reqs.length - reqs.length % 2 ^ 32 - 1,
          reqs.length - reqs.length % 2 ^ 32 - 1 + 44967296, by omega, by omega, by omega, by omega⟩
    have hget := h i _ (List.getElem?_eq_getElem (Nat.lt_trans hij hj)) hlow
    have hwindow : reqs.length ≤ i + seqNumbers := by
      simp only [seqNumbers, maxSeqHdrs] at hlow ⊢
      omega
    rw [seqGet_of_taken hij hj hslot hwindow] at hget
    cases hget
  · intro h i r hi hlow
    refine seqGet_of_last hi (hkeys r (List.mem_of_getElem? hi)) fun j hij hj => ?_
    simp only [seqNumbers, maxSeqHdrs] at h hlow ⊢
    have hcycle : i / 2 ^ 32 = j / 2 ^ 32 := by omega
    have hi32 := Nat.div_add_mod i (2 ^ 32)
    have hj32 := Nat.div_add_mod j (2 ^ 32)
    rw [hcycle] at hi32
    omega

/-- Two requests are remembered, each with its key. -/
theorem remembers_two : Remembers (fun _ => (0, 0)) (fun _ => ⟨0, 0⟩) ⟨0, 0⟩
    [⟨false, tostringKey 0, [], 0⟩, ⟨true, tostringKey 1, [0], 0⟩] :=
  (remembers_iff _ (by simp)).2 (Or.inl (by decide))

/-- After `2 ^ 32 + 1` requests the one with the sequence number 4250000000 is lost. -/
theorem not_remembers_wrapped : ¬ Remembers (fun _ => (0, 0)) (fun _ => ⟨0, 0⟩) ⟨0, 0⟩
    (List.replicate (seqNumbers + 1) ⟨false, tostringKey 0, [], 0⟩) := by
  intro h
  have hget := h 4250000000 ⟨false, tostringKey 0, [], 0⟩
    (List.getElem?_replicate_of_lt (by decide)) (by rw [List.length_replicate]; decide)
  rw [seqGet_of_taken (j := seqNumbers) (by decide) (by simp) (by decide)
    (by rw [List.length_replicate]; decide)] at hget
  cases hget

end

end Client

end OrbitCache
