import Mathlib.Data.Fintype.Basic
import OrbitCache.Netcache.Ingress

/-!
# What a NetCache packet does

What the control makes of a packet, as a `Verdict` that is a function of the tables, the registers
and the packet. `switchPass_regs`: it determines the registers after the pass;
`verdict_of_values`: only a READ of a VALID key leaves the switch with value headers.
-/

namespace OrbitCache.Netcache

/-- What becomes of the registers when a packet passes. Each verdict works on one index at most. -/
inductive Verdict where
  /-- No register is touched. -/
  | route
  /-- A READ of a key that is not VALID, or an R_REPLY: counted at `c`. -/
  | count (c : BitVec 32)
  /-- A READ of a VALID key: counted at `c` and answered with the values there, then cleared. -/
  | answer (c : BitVec 32)
  /-- A WRITE of a cached key. -/
  | invalidate (c : BitVec 32)
  /-- An F_REPLY: of a cached key at its index, of any other key at index 0. -/
  | validate (c : BitVec 32)
  deriving DecidableEq, Repr

/-- The registers with some of the values at an index cleared; states and counters stay. -/
def Registers.clear (r : Registers) (ns : List (Fin 16)) (c : BitVec 32) : Registers where
  cacheState := r.cacheState
  cacheCounter := r.cacheCounter
  value n := if n ∈ ns then Function.update (r.value n) c 0 else r.value n

/-- Clearing twice clears what either of the two clears. -/
theorem Registers.clear_clear (r : Registers) (ns ms : List (Fin 16)) (c : BitVec 32) :
    (r.clear ns c).clear ms c = r.clear (ns ++ ms) c := by
  simp only [clear, Registers.mk.injEq, true_and]
  funext n
  by_cases hn : n ∈ ns <;> by_cases hm : n ∈ ms <;> simp [hn, hm]

/-- The registers with the counter at an index incremented. -/
def Registers.count (r : Registers) (c : BitVec 32) : Registers :=
  { r with cacheCounter := Function.update r.cacheCounter c (r.cacheCounter c + 1) }

/-- The registers with the state at an index set. -/
def Registers.setState (r : Registers) (c : BitVec 32) (state : BitVec 8) : Registers :=
  { r with cacheState := Function.update r.cacheState c state }

/-- The registers after a pass, by the verdict on the packet. -/
def Verdict.regs (r : Registers) : Verdict → Registers
  | .route => r
  | .count c => r.count c
  | .answer c => (r.count c).clear (List.finRange 16) c
  | .invalidate c => r.setState c invalid
  | .validate c => r.setState c valid

section
variable {π : Type}

/-- The index of the key of a packet, if it is cached. -/
def ownIdx (t : Tables) (pkt : Packet π) : Option (BitVec 32) :=
  if pkt.IsNetcache then t.readCache pkt.netcache.hkey else none

/-- The verdict on a packet whose key is cached at `c`, by its operation and the state of the index.
-/
def hitVerdict (op : BitVec 8) (state : BitVec 8) (c : BitVec 32) : Verdict :=
  if op = opRead then if state = valid then .answer c else .count c
  else if op = opRReply then .count c
  else if op = opWrite then .invalidate c
  else if op = opFReply then .validate c
  else .route

/-- The verdict on a NetCache packet whose key is not cached: an `OP_F_REPLY` makes index 0 VALID.
-/
def missVerdict (op : BitVec 8) : Verdict := if op = opFReply then .validate 0 else .route

/-- The verdict on a packet, as the tables and the registers decide it. -/
def verdict (t : Tables) (r : Registers) (pkt : Packet π) : Verdict :=
  if pkt.IsNetcache then
    match t.readCache pkt.netcache.hkey with
    | some c => hitVerdict pkt.netcache.op (r.cacheState c) c
    | none => missVerdict pkt.netcache.op
  else .route

end

/-! ## The control -/

namespace Ingress

variable {t : Tables} {x : Ingress}

/-- Forwarding touches no register. -/
@[simp] theorem regs_ipv4Exact : (ipv4Exact t x).regs = x.regs := by
  unfold ipv4Exact
  split <;> rfl

/-- Forwarding changes no header. -/
@[simp] theorem hdr_ipv4Exact : (ipv4Exact t x).hdr = x.hdr := by
  unfold ipv4Exact
  split <;> rfl

/-- Reading a value leaves the metadata, so all sixteen actions work on one index. -/
@[simp] theorem igMd_getValueAction (n : Fin 16) (field : HeaderT → BitVec 32 → HeaderT)
    (x : Ingress) : (getValueAction n field x).igMd = x.igMd := rfl

/-- The register that is read is cleared at the index, and nothing else changes. -/
@[simp] theorem regs_getValueAction (n : Fin 16) (field : HeaderT → BitVec 32 → HeaderT)
    (x : Ingress) : (getValueAction n field x).regs = x.regs.clear [n] x.igMd.cacheIdx := by
  simp only [getValueAction, Registers.clear, Registers.mk.injEq, true_and]
  funext m
  rcases eq_or_ne m n with rfl | hne
  · simp
  · simp [hne]

/-- The sixteen actions of a hit clear every value register at the index. -/
theorem regs_getValues (x : Ingress) :
    (getValues4 (getValues3 (getValues2 (getValues1 x)))).regs =
      x.regs.clear (List.finRange 16) x.igMd.cacheIdx := by
  simp only [getValues1, getValues2, getValues3, getValues4, getValue1Action, getValue2Action,
    getValue3Action, getValue4Action, getValue5Action, getValue6Action, getValue7Action,
    getValue8Action, getValue9Action, getValue10Action, getValue11Action, getValue12Action,
    getValue13Action, getValue14Action, getValue15Action, getValue16Action, regs_getValueAction,
    igMd_getValueAction, Registers.clear_clear]
  rfl

/-- A READ clears the values exactly if the state that was read is VALID. -/
theorem regs_applyRead : (applyRead t x).regs =
    if x.igMd.cacheState = valid then x.regs.clear (List.finRange 16) x.igMd.cacheIdx
    else x.regs := by
  unfold applyRead
  split
  · rw [regs_ipv4Exact, turnAround, regs_getValues]
  · split
    · rw [regs_ipv4Exact]
    · rfl

/-- A WRITE of a cached key makes its index INVALID. -/
theorem regs_applyWrite : (applyWrite t x).regs =
    if x.igMd.isCached = yes then x.regs.setState x.igMd.cacheIdx invalid else x.regs := by
  unfold applyWrite
  rw [regs_ipv4Exact]
  split <;> rfl

/-- An `OP_F_REPLY` makes the index in the metadata VALID, whether the key is cached or not. -/
theorem regs_applyFReply :
    (applyFReply t x).regs = x.regs.setState x.igMd.cacheIdx valid := by
  rw [applyFReply, regs_ipv4Exact]
  rfl

/-- The pipeline behind the lookup of a NetCache packet whose key is cached. -/
theorem lookupBlock_hit {c : BitVec 32} (h : t.readCache x.hdr.netcache.hkey = some c) :
    lookupBlock t x =
      { x with hdr.udp.checksum := 0, igMd := ⟨yes, invalid, c⟩ } := by
  rw [lookupBlock, readCacheTable]
  simp only [h]

/-- The same for a key that is not: the index in the metadata stays as it was. -/
theorem lookupBlock_miss (h : t.readCache x.hdr.netcache.hkey = none) :
    lookupBlock t x =
      { x with hdr.udp.checksum := 0, igMd := ⟨no, invalid, x.igMd.cacheIdx⟩ } := by
  rw [lookupBlock, readCacheTable]
  simp only [h]

/-- The state of a cached key is read, and the packet is counted. -/
theorem countHit_hit (h : x.igMd.isCached = yes) : countHit x = { x with
    regs := x.regs.count x.igMd.cacheIdx
    igMd.cacheState := x.regs.cacheState x.igMd.cacheIdx } := by
  rw [countHit, if_pos h, readCacheStateAction, RegisterAction.readCacheState_execute]
  rfl

/-- The pipeline of a READ or an R_REPLY behind the lookup and the count. -/
theorem countHit_lookupBlock_hit {c : BitVec 32}
    (h : t.readCache x.hdr.netcache.hkey = some c) : countHit (lookupBlock t x) = { x with
      hdr.udp.checksum := 0, igMd := ⟨yes, x.regs.cacheState c, c⟩, regs := x.regs.count c } := by
  have hlookup := lookupBlock_hit h
  rw [countHit_hit (by rw [hlookup]), hlookup]

/-- A key that is not cached is not counted. -/
theorem countHit_lookupBlock_miss (h : t.readCache x.hdr.netcache.hkey = none) :
    countHit (lookupBlock t x) = { x with
      hdr.udp.checksum := 0, igMd := ⟨no, invalid, x.igMd.cacheIdx⟩ } := by
  have hno : ¬ no = yes := by decide
  rw [countHit, lookupBlock_miss h, if_neg hno]

/-- The lookup does not change the operation, on which the packet is dispatched. -/
theorem op_lookupBlock : (lookupBlock t x).hdr.netcache.op = x.hdr.netcache.op := by
  unfold lookupBlock readCacheTable
  split <;> rfl

/-- The count changes no header. -/
theorem hdr_countHit (x : Ingress) : (countHit x).hdr = x.hdr := by
  unfold countHit
  split <;> rfl

/-- A packet of another kind is forwarded. -/
theorem apply_of_not_valid (hvalid : x.hdr.netcacheValid = false) :
    apply t x = ipv4Exact t x := by
  rw [apply, if_neg (by simp [hvalid])]

/-- The branches of the `apply` block for a NetCache packet, the last of which does nothing behind
the lookup. -/
theorem apply_cases (hvalid : x.hdr.netcacheValid = true) :
    x.hdr.netcache.op = opRead ∧ apply t x = applyRead t (countHit (lookupBlock t x)) ∨
    x.hdr.netcache.op = opRReply ∧ apply t x = ipv4Exact t (countHit (lookupBlock t x)) ∨
    x.hdr.netcache.op = opWrite ∧ apply t x = applyWrite t (lookupBlock t x) ∨
    x.hdr.netcache.op = opWReply ∧ apply t x = ipv4Exact t (lookupBlock t x) ∨
    x.hdr.netcache.op = opFReply ∧ apply t x = applyFReply t (lookupBlock t x) ∨
    (x.hdr.netcache.op ≠ opRead ∧ x.hdr.netcache.op ≠ opRReply ∧ x.hdr.netcache.op ≠ opWrite ∧
      x.hdr.netcache.op ≠ opFReply) ∧ apply t x = lookupBlock t x := by
  rw [apply, if_pos hvalid]
  simp only [hdr_countHit, op_lookupBlock]
  rcases eq_or_ne x.hdr.netcache.op opRead with hread | hread
  · exact .inl ⟨hread, by rw [if_pos (.inl hread), if_pos hread]⟩
  rcases eq_or_ne x.hdr.netcache.op opRReply with hreply | hreply
  · exact .inr (.inl ⟨hreply, by rw [if_pos (.inr hreply), if_neg hread, if_pos hreply]⟩)
  rw [if_neg (not_or.2 ⟨hread, hreply⟩)]
  rcases eq_or_ne x.hdr.netcache.op opWrite with hwrite | hwrite
  · exact .inr (.inr (.inl ⟨hwrite, if_pos hwrite⟩))
  rw [if_neg hwrite]
  rcases eq_or_ne x.hdr.netcache.op opWReply with hwreply | hwreply
  · exact .inr (.inr (.inr (.inl ⟨hwreply, if_pos hwreply⟩)))
  rw [if_neg hwreply]
  rcases eq_or_ne x.hdr.netcache.op opFReply with hfreply | hfreply
  · exact .inr (.inr (.inr (.inr (.inl ⟨hfreply, if_pos hfreply⟩))))
  · exact .inr (.inr (.inr (.inr (.inr ⟨⟨hread, hreply, hwrite, hfreply⟩, if_neg hfreply⟩))))

/-- The registers after a packet whose key is cached at `c`, by the branches of the block. -/
theorem regs_apply_hit {c : BitVec 32} (hvalid : x.hdr.netcacheValid = true)
    (h : t.readCache x.hdr.netcache.hkey = some c) :
    (apply t x).regs = (hitVerdict x.hdr.netcache.op (x.regs.cacheState c) c).regs x.regs := by
  have hlookup := lookupBlock_hit h
  have hcount := countHit_lookupBlock_hit h
  rcases apply_cases (t := t) hvalid with ⟨hop, happly⟩ | ⟨hop, happly⟩ | ⟨hop, happly⟩ |
    ⟨hop, happly⟩ | ⟨hop, happly⟩ | ⟨⟨hread, hreply, hwrite, hfreply⟩, happly⟩
  · rw [happly, hop, hcount, regs_applyRead, hitVerdict, if_pos rfl]
    split <;> rfl
  · rw [happly, hop, hcount, regs_ipv4Exact]
    rfl
  · rw [happly, hop, hlookup, regs_applyWrite, if_pos rfl]
    rfl
  · rw [happly, hop, hlookup, regs_ipv4Exact]
    rfl
  · rw [happly, hop, hlookup, regs_applyFReply]
    rfl
  · rw [happly, hlookup, hitVerdict, if_neg hread, if_neg hreply, if_neg hwrite, if_neg hfreply]
    rfl

/-- The registers after a packet whose key is not cached, when the metadata starts with index 0. -/
theorem regs_apply_miss (hvalid : x.hdr.netcacheValid = true)
    (h : t.readCache x.hdr.netcache.hkey = none) (hidx : x.igMd.cacheIdx = 0) :
    (apply t x).regs = (missVerdict x.hdr.netcache.op).regs x.regs := by
  have hno : ¬ no = yes := by decide
  have hlookup := lookupBlock_miss h
  have hcount := countHit_lookupBlock_miss h
  rw [hidx] at hlookup hcount
  rcases apply_cases (t := t) hvalid with ⟨hop, happly⟩ | ⟨hop, happly⟩ | ⟨hop, happly⟩ |
    ⟨hop, happly⟩ | ⟨hop, happly⟩ | ⟨⟨-, -, -, hfreply⟩, happly⟩
  · rw [happly, hop, hcount, regs_applyRead]
    rfl
  · rw [happly, hop, hcount, regs_ipv4Exact]
    rfl
  · rw [happly, hop, hlookup, regs_applyWrite, if_neg hno]
    rfl
  · rw [happly, hop, hlookup, regs_ipv4Exact]
    rfl
  · rw [happly, hop, hlookup, regs_applyFReply]
    rfl
  · rw [happly, hlookup, missVerdict, if_neg hfreply]
    rfl

/-- The lookup adds no value headers. -/
theorem values_lookupBlock : (lookupBlock t x).hdr.values = x.hdr.values := by
  unfold lookupBlock readCacheTable
  split <;> rfl

/-- Only the READ of a VALID key gets value headers; in all other branches they stay as they were.
-/
theorem values_apply (hvalid : x.hdr.netcacheValid = true)
    (hstate : x.hdr.netcache.op = opRead → (countHit (lookupBlock t x)).igMd.cacheState ≠ valid) :
    (apply t x).hdr.values = x.hdr.values := by
  rcases apply_cases (t := t) hvalid with ⟨hop, happly⟩ | ⟨-, happly⟩ | ⟨-, happly⟩ |
    ⟨-, happly⟩ | ⟨-, happly⟩ | ⟨-, happly⟩
  · rw [happly, applyRead, if_neg (hstate hop)]
    split
    · rw [hdr_ipv4Exact, hdr_countHit, values_lookupBlock]
    · rw [hdr_countHit, values_lookupBlock]
  · rw [happly, hdr_ipv4Exact, hdr_countHit, values_lookupBlock]
  · rw [happly, applyWrite, hdr_ipv4Exact]
    split
    · exact values_lookupBlock
    · exact values_lookupBlock
  · rw [happly, hdr_ipv4Exact, values_lookupBlock]
  · rw [happly, applyFReply, hdr_ipv4Exact]
    exact values_lookupBlock
  · rw [happly, values_lookupBlock]

end Ingress

/-! ## A pass -/

section
variable {π : Type}

/-- The verdict determines the registers after a pass. -/
theorem switchPass_regs (t : Tables) (r : Registers) (pkt : Packet π) :
    (switchPass t r pkt).1 = (verdict t r pkt).regs r := by
  unfold switchPass verdict
  split
  · next h =>
    simp only [switchIngressParser_of_isNetcache h]
    split
    · next hlookup => exact Ingress.regs_apply_hit rfl hlookup
    · next hlookup => exact Ingress.regs_apply_miss rfl hlookup rfl
  · next h =>
    simp only [Ingress.apply_of_not_valid (x := .start (switchIngressParser pkt) r)
      (netcacheValid_of_not_isNetcache h), Ingress.regs_ipv4Exact]
    rfl

/-- A packet that leaves the switch with value headers is the answer to a READ. -/
theorem verdict_of_values {t : Tables} {r : Registers} {pkt : Packet π} {p : BitVec 9}
    {e : Emitted π} (hout : (switchPass t r pkt).2 = some (p, e)) (hvalues : e.values ≠ []) :
    ∃ c, verdict t r pkt = .answer c := by
  have hhdr : e.values = (Ingress.apply t (.start (switchIngressParser pkt) r)).hdr.values := by
    obtain ⟨port, -, hport⟩ := Option.map_eq_some_iff.1 hout
    rw [← (Prod.mk.inj hport).2]
    rfl
  by_contra hno
  refine hvalues (hhdr.trans ?_)
  by_cases h : pkt.IsNetcache
  · rw [switchIngressParser_of_isNetcache h]
    refine Ingress.values_apply rfl fun hop hvalid => hno ?_
    rw [verdict, if_pos h]
    split
    · next c hlookup =>
      rw [Ingress.countHit_lookupBlock_hit hlookup] at hvalid
      exact ⟨c, (if_pos hop).trans (if_pos hvalid)⟩
    · next hlookup =>
      rw [Ingress.countHit_lookupBlock_miss hlookup] at hvalid
      cases hvalid
  · rw [Ingress.apply_of_not_valid (netcacheValid_of_not_isNetcache h), Ingress.hdr_ipv4Exact]
    exact values_switchIngressParser pkt

end

end OrbitCache.Netcache
