import OrbitCache.Host.Handler

/-!
# Lengths stay in range

The lengths a worker computes while it handles datagrams, one after the other and each of any
content. `allInRange_iff`: they stay in range exactly as long as every WRITE (and every fetch of
NetCache) has a full header and every READ (and every fetch of OrbitCache) is for a stored value of
at most `MAX_VALUE_SIZE` bytes; no handler checks either.
-/

namespace OrbitCache

/-- The lengths of a handler are in range, and none is that of an absent value. -/
structure Handled.InRange (p : Protocol) (h : Handled) : Prop where
  valueSize_le : ∀ valueSize ∈ h.valueSizes, valueSize.toNat ≤ maxValueSize
  pktSize_le : ∀ e ∈ h.sent, e.1.toNat ≤ sizeofBuffer p
  not_null : h.nullLength = false

/-- The value of a key is stored and fits into the buffer, header aside. -/
def Stored (s : ServerState) (key : Bytes) : Prop :=
  ∃ value, s.hashlin key = some value ∧ (strlen value).toNat ≤ maxValueSize

/-- What a handler needs of the buffer: a READ, a CRCTN and a fetch of OrbitCache find a value that
fits, a WRITE and a fetch of NetCache come with a full header. -/
def Expected (p : Protocol) (s : ServerState) (n : Nat) (stack : Stack) : Prop :=
  let op := opField s.recvBuffer
  match p with
  | .nocache =>
    (op = opRead → Stored s (tableKey .nocache s.recvBuffer stack)) ∧
      (op = opWrite → headerSize .nocache ≤ n)
  | .netcache =>
    (op = opRead → Stored s (tableKey .netcache s.recvBuffer stack)) ∧
      (op = opWrite ∨ op = opFetch → headerSize .netcache ≤ n)
  | .orbitcache =>
    (op = opRead ∨ op = opCrctn ∨ op = opFetch →
      Stored s (tableKey .orbitcache s.recvBuffer stack)) ∧
      (op = opWrite → headerSize .orbitcache ≤ n)

/-! ## The handlers -/

section
variable {p : Protocol} {s : ServerState} {n : Nat} {stack : Stack}

/-- A header and a value of a length in range fit into the buffer, without an overflow of the sum.
-/
theorem pktSize_le {valueSize : SizeT} (h : valueSize.toNat ≤ maxValueSize) :
    (BitVec.ofNat 64 (headerSize p) + valueSize).toNat ≤ sizeofBuffer p := by
  have hlt := headerSize_lt p
  rw [BitVec.toNat_add, toNat_headerSize, sizeofBuffer]
  simp only [maxValueSize] at h ⊢
  omega

/-- The length of what was received is in range exactly if the header is complete: a shorter
datagram makes the difference wrap around. -/
theorem receivedSize_le_iff (hn : n ≤ sizeofBuffer p) :
    (receivedSize p n).toNat ≤ maxValueSize ↔ headerSize p ≤ n := by
  have hlt := headerSize_lt p
  rw [receivedSize, BitVec.toNat_sub, toNat_headerSize, BitVec.toNat_ofNat]
  simp only [sizeofBuffer, maxValueSize] at hn ⊢
  omega

/-- A handler that sends a stored value: its lengths are in range if and only if the value is there
and fits. -/
theorem inRange_stored_iff {key : Bytes} {f : Bytes → Handled}
    (hf : ∀ value, (f value).valueSizes = [strlen value] ∧ (f value).nullLength = false ∧
      ∀ e ∈ (f value).sent, e.1 = BitVec.ofNat 64 (headerSize p) + strlen value) :
    (match s.hashlin key with
      | none => Handled.null
      | some value => f value).InRange p ↔ Stored s key := by
  cases hvalue : s.hashlin key with
  | none =>
    constructor
    · intro h
      cases h.not_null
    · rintro ⟨value, h, -⟩
      rw [hvalue] at h
      cases h
  | some value =>
    obtain ⟨hsizes, hnull, hsent⟩ := hf value
    constructor
    · intro h
      exact ⟨value, hvalue, h.valueSize_le _ (by rw [hsizes]; exact List.mem_singleton_self _)⟩
    · rintro ⟨value', h, hle⟩
      rw [hvalue, Option.some.injEq] at h
      subst h
      refine ⟨fun v hv => ?_, fun e he => ?_, hnull⟩
      · rw [hsizes, List.mem_singleton] at hv
        rw [hv]
        exact hle
      · rw [hsent e he]
        exact pktSize_le hle

/-- The READ handler of NoCache and NetCache sends a stored value. -/
theorem handleRead_inRange_iff :
    (handleRead p s stack).InRange p ↔ Stored s (tableKey p s.recvBuffer stack) :=
  inRange_stored_iff fun value => ⟨rfl, rfl, fun e he => by rw [List.mem_singleton.1 he]; rfl⟩

/-- So does that of OrbitCache. -/
theorem handleReadOrbitcache_inRange_iff :
    (handleReadOrbitcache s stack).InRange .orbitcache ↔
      Stored s (tableKey .orbitcache s.recvBuffer stack) :=
  inRange_stored_iff fun value => ⟨rfl, rfl, fun e he => by rw [List.mem_singleton.1 he]; rfl⟩

/-- And so does its fetch handler. -/
theorem handleFetchOrbitcache_inRange_iff :
    (handleFetchOrbitcache s stack).InRange .orbitcache ↔
      Stored s (tableKey .orbitcache s.recvBuffer stack) :=
  inRange_stored_iff fun value => ⟨rfl, rfl, fun e he => by rw [List.mem_singleton.1 he]; rfl⟩

/-- The number of bytes received is one as a `size_t`, since the buffer bounds it. -/
theorem toNat_ofNat_le (hn : n ≤ sizeofBuffer p) : (BitVec.ofNat 64 n).toNat ≤ sizeofBuffer p := by
  rw [BitVec.toNat_ofNat]
  exact (Nat.mod_le _ _).trans hn

/-- A header fits into the buffer. -/
theorem toNat_headerSize_le (p : Protocol) :
    (BitVec.ofNat 64 (headerSize p)).toNat ≤ sizeofBuffer p := by
  rw [toNat_headerSize, sizeofBuffer]
  exact Nat.le_add_right _ _

/-- A handler that stores what was received and sends no more than that or the header: its lengths
are in range if and only if the header was complete. -/
theorem inRange_received_iff {x : Handled} (hn : n ≤ sizeofBuffer p)
    (hsizes : x.valueSizes = [receivedSize p n]) (hnull : x.nullLength = false)
    (hsent : ∀ e ∈ x.sent, e.1.toNat ≤ sizeofBuffer p) : x.InRange p ↔ headerSize p ≤ n := by
  rw [← receivedSize_le_iff hn]
  constructor
  · intro h
    exact h.valueSize_le _ (by rw [hsizes]; exact List.mem_singleton_self _)
  · intro h
    refine ⟨fun v hv => ?_, hsent, hnull⟩
    rw [hsizes, List.mem_singleton] at hv
    rw [hv]
    exact h

/-- The WRITE handler stores what was received. -/
theorem handleWrite_inRange_iff (hn : n ≤ sizeofBuffer p) :
    (handleWrite p s n stack).InRange p ↔ headerSize p ≤ n := by
  refine inRange_received_iff hn rfl rfl fun e he => ?_
  rw [List.mem_singleton.1 he, sendto]
  simp only
  split
  · exact toNat_ofNat_le hn
  · exact toNat_headerSize_le p

/-- The fetch of NetCache stores what was received as well, so it needs a full header. -/
theorem handleFetchNetcache_inRange_iff (hn : n ≤ sizeofBuffer .netcache) :
    (handleFetchNetcache s n stack).InRange .netcache ↔ headerSize .netcache ≤ n := by
  refine inRange_received_iff hn rfl rfl fun e he => ?_
  rcases List.mem_cons.1 he with rfl | he
  · exact toNat_ofNat_le hn
  · rw [List.mem_singleton.1 he]
    exact toNat_headerSize_le .netcache

/-- A datagram without a handler computes no length. -/
theorem ignored_inRange : (Handled.ignored s).InRange p := ⟨nofun, nofun, rfl⟩

/-- One datagram is handled with lengths in range exactly if the buffer is as expected, by the
branches of each protocol. -/
theorem handleBuffer_inRange_iff (hn : n ≤ sizeofBuffer p) :
    (handleBuffer p s n stack).InRange p ↔ Expected p s n stack := by
  -- the operations are different, so at most one branch and one part of the condition apply
  have hrw : ¬ opRead = opWrite := by decide
  have hrf : ¬ opRead = opFetch := by decide
  have hwr : ¬ opWrite = opRead := by decide
  have hwf : ¬ opWrite = opFetch := by decide
  have hwc : ¬ opWrite = opCrctn := by decide
  have hfr : ¬ opFetch = opRead := by decide
  have hfw : ¬ opFetch = opWrite := by decide
  have hfc : ¬ opFetch = opCrctn := by decide
  have hcr : ¬ opCrctn = opRead := by decide
  have hcw : ¬ opCrctn = opWrite := by decide
  cases p with
  | nocache =>
    by_cases hread : opField s.recvBuffer = opRead
    · simp only [handleBuffer, Expected, hread, if_true, handleRead_inRange_iff, hrw, true_imp_iff,
        false_imp_iff, and_true]
    · by_cases hwrite : opField s.recvBuffer = opWrite
      · simp only [handleBuffer, Expected, hwrite, hwr, if_true, if_false, true_imp_iff,
          false_imp_iff, true_and, handleWrite_inRange_iff hn]
      · simp only [handleBuffer, Expected, hread, hwrite, if_false, false_imp_iff, and_true,
          ignored_inRange]
  | netcache =>
    by_cases hread : opField s.recvBuffer = opRead
    · simp only [handleBuffer, Expected, hread, if_true, handleRead_inRange_iff, hrw, hrf, or_self,
        true_imp_iff, false_imp_iff, and_true]
    · by_cases hwrite : opField s.recvBuffer = opWrite
      · simp only [handleBuffer, Expected, hwrite, hwr, if_true, if_false, true_or, true_imp_iff,
          false_imp_iff, true_and, handleWrite_inRange_iff hn]
      · by_cases hfetch : opField s.recvBuffer = opFetch
        · simp only [handleBuffer, Expected, hfetch, hfr, hfw, if_true, if_false, or_true,
            true_imp_iff, false_imp_iff, true_and, handleFetchNetcache_inRange_iff hn]
        · simp only [handleBuffer, Expected, hread, hwrite, hfetch, if_false, or_self,
            false_imp_iff, and_true, ignored_inRange]
  | orbitcache =>
    by_cases hread : opField s.recvBuffer = opRead
    · simp only [handleBuffer, Expected, hread, if_true, true_or, hrw, true_imp_iff, false_imp_iff,
        and_true, handleReadOrbitcache_inRange_iff]
    · by_cases hcrctn : opField s.recvBuffer = opCrctn
      · simp only [handleBuffer, Expected, hcrctn, if_true, true_or, or_true, hcw, true_imp_iff,
          false_imp_iff, and_true, handleReadOrbitcache_inRange_iff]
      · by_cases hfetch : opField s.recvBuffer = opFetch
        · simp only [handleBuffer, Expected, hfetch, hfr, hfc, hfw, or_self, or_true, if_true,
            if_false, true_imp_iff, false_imp_iff, and_true, handleFetchOrbitcache_inRange_iff]
        · by_cases hwrite : opField s.recvBuffer = opWrite
          · simp only [handleBuffer, Expected, hwrite, hwr, hwc, hwf, or_self, if_true, if_false,
              true_imp_iff, false_imp_iff, true_and, handleWrite_inRange_iff hn]
          · simp only [handleBuffer, Expected, hread, hcrctn, hfetch, hwrite, or_self, if_false,
              false_imp_iff, and_true, ignored_inRange]

end

/-! ## Histories -/

/-- A property of every datagram a worker handles, up to the first that it does not get past. -/
def AllHandled (p : Protocol) (P : ServerState → Nat → Stack → Prop) :
    ServerState → List (Bytes × Stack) → Prop
  | _, [] => True
  | s, (datagram, stack) :: rest =>
    P (s.recvfrom datagram) datagram.length stack ∧
      ∀ s', (handleDatagram p s datagram stack).after = some s' → AllHandled p P s' rest

/-- A worker computes lengths in range over a whole history exactly if every datagram of it is as
expected when it arrives, with the table and the buffer that the ones before have left. What is
expected is a property of the datagram and of the value that is stored for its key, and the
induction is on the history. -/
theorem allInRange_iff (p : Protocol) (s : ServerState) (history : List (Bytes × Stack))
    (hsize : ∀ e ∈ history, 1 ≤ e.1.length ∧ e.1.length ≤ sizeofBuffer p) :
    AllHandled p (fun s n stack => (handleBuffer p s n stack).InRange p) s history ↔
      AllHandled p (Expected p) s history := by
  induction history generalizing s with
  | nil => exact Iff.rfl
  | cons e rest ih =>
    obtain ⟨datagram, stack⟩ := e
    have hn := (hsize _ List.mem_cons_self).2
    have hrest := fun s' => ih s' fun e he => hsize e (List.mem_cons_of_mem _ he)
    simp only [AllHandled, handleBuffer_inRange_iff hn, hrest]

/-- A WRITE of one value byte and a READ of the key, in an OrbitCache worker. -/
theorem allInRange_writeRead :
    AllHandled .orbitcache
      (fun s n stack => (handleBuffer .orbitcache s n stack).InRange .orbitcache)
      ⟨fun _ => none, List.replicate (sizeofBuffer .orbitcache) 0⟩
      [(opWrite :: List.replicate 44 0, ⟨[], [], []⟩),
        (opRead :: List.replicate 43 0, ⟨[], [], []⟩)] := by
  refine (allInRange_iff .orbitcache _ _ ?_).2 ?_
  · intro e he
    rcases List.mem_cons.1 he with rfl | he
    · decide
    · rw [List.mem_singleton.1 he]
      decide
  · refine ⟨⟨fun h => absurd h (by decide), fun _ => by decide⟩, fun s' hs => ?_⟩
    obtain rfl := Option.some.inj hs
    exact ⟨⟨fun _ => ⟨[byteA], by decide +kernel, by decide⟩, fun h => absurd h (by decide)⟩,
      fun _ _ => trivial⟩

/-- A WRITE that consists of its operation only: the length of its value wraps around. -/
theorem not_allInRange_short :
    ¬ AllHandled .nocache (fun s n stack => (handleBuffer .nocache s n stack).InRange .nocache)
      ⟨fun _ => none, List.replicate (sizeofBuffer .nocache) 0⟩ [([opWrite], ⟨[], [], []⟩)] := by
  rintro ⟨h, -⟩
  have hle := h.valueSize_le (receivedSize .nocache 1) (List.mem_singleton_self _)
  revert hle
  decide

end OrbitCache
