import OrbitCache.Lib.Run
import OrbitCache.Netcache.Verdict

/-!
# Whose registers a NetCache packet changes

An `OP_F_REPLY` makes its key VALID without asking whether the lookup was a hit; one of a key that
is not cached marks whatever key has index 0. `ownOnly_iff`: that is all that goes wrong. Packets
otherwise touch the registers at the index of their own key only, and an entry a WRITE invalidated
answers no READ until an `OP_F_REPLY` of a key at its index.
-/

namespace OrbitCache.Netcache

/-- Two states of the registers agree at an index. -/
structure SameAt (r r' : Registers) (i : BitVec 32) : Prop where
  cacheState : r'.cacheState i = r.cacheState i
  cacheCounter : r'.cacheCounter i = r.cacheCounter i
  value : ∀ n, r'.value n i = r.value n i

section
variable {π : Type}

/-- A packet changes no register but those at the index of its own key, and none if it has none. -/
def Framed (t : Tables) (r : Registers) (pkt : Packet π) : Prop :=
  ∀ i, ownIdx t pkt ≠ some i → SameAt r (switchPass t r pkt).1 i

/-- An `OP_F_REPLY` of a key that is not cached, while index 0 is not VALID: it makes that index
VALID. -/
def Stray (t : Tables) (r : Registers) (pkt : Packet π) : Prop :=
  pkt.IsNetcache ∧ pkt.netcache.op = opFReply ∧ t.readCache pkt.netcache.hkey = none ∧
    r.cacheState 0 ≠ valid

instance (t : Tables) (r : Registers) (pkt : Packet π) : Decidable (Stray t r pkt) :=
  inferInstanceAs (Decidable (_ ∧ _ ∧ _ ∧ _))

/-! ## One packet -/

/-- A state agrees with itself everywhere. -/
theorem SameAt.rfl {r : Registers} {i : BitVec 32} : SameAt r r i :=
  ⟨.refl _, .refl _, fun _ => .refl _⟩

/-- Counting at another index changes nothing here. -/
theorem sameAt_count {r : Registers} {c i : BitVec 32} (h : i ≠ c) : SameAt r (r.count c) i :=
  ⟨.refl _, Function.update_of_ne h _ _, fun _ => .refl _⟩

/-- The state that was set is read. -/
theorem cacheState_setState {r : Registers} {c : BitVec 32} {state : BitVec 8} :
    (r.setState c state).cacheState c = state := by
  simp [Registers.setState]

/-- Setting the state of another index changes nothing here. -/
theorem sameAt_setState {r : Registers} {c i : BitVec 32} (h : i ≠ c) (state : BitVec 8) :
    SameAt r (r.setState c state) i :=
  ⟨Function.update_of_ne h _ _, .refl _, fun _ => .refl _⟩

/-- Clearing the words of another index changes nothing here. -/
theorem sameAt_clear {r : Registers} {c i : BitVec 32} (h : i ≠ c) (ns : List (Fin 16)) :
    SameAt r (r.clear ns c) i := by
  refine ⟨.refl _, .refl _, fun n => ?_⟩
  simp only [Registers.clear]
  split
  · exact Function.update_of_ne h _ _
  · exact .refl _

/-- Agreement goes through a third state. -/
theorem SameAt.trans {r r' r'' : Registers} {i : BitVec 32} (h : SameAt r r' i)
    (h' : SameAt r' r'' i) : SameAt r r'' i :=
  ⟨h'.cacheState.trans h.cacheState, h'.cacheCounter.trans h.cacheCounter,
    fun n => (h'.value n).trans (h.value n)⟩

/-- The index a verdict works on; forwarding works on none. -/
def Verdict.idx : Verdict → Option (BitVec 32)
  | .route => none
  | .count c | .answer c | .invalidate c | .validate c => some c

/-- A verdict changes the registers at its index only. -/
theorem Verdict.sameAt {v : Verdict} {i : BitVec 32} (h : v.idx ≠ some i) (r : Registers) :
    SameAt r (v.regs r) i := by
  have hne (c : BitVec 32) (hc : v.idx = some c) : i ≠ c := fun heq => h (heq ▸ hc)
  cases v with
  | route => exact .rfl
  | count c => exact sameAt_count (hne c rfl)
  | answer c => exact (sameAt_count (hne c rfl)).trans (sameAt_clear (hne c rfl) _)
  | invalidate c | validate c => exact sameAt_setState (hne c rfl) _

/-- A packet of a cached key works on its own index or on none. -/
theorem idx_hitVerdict (op state : BitVec 8) (c : BitVec 32) :
    (hitVerdict op state c).idx = none ∨ (hitVerdict op state c).idx = some c := by
  unfold hitVerdict
  split_ifs
  all_goals first | exact .inr rfl | exact .inl rfl

/-- A packet works on its own index, unless it is an `OP_F_REPLY` of a key that is not cached. -/
theorem idx_verdict {t : Tables} {r : Registers} {pkt : Packet π}
    (h : ¬ (pkt.IsNetcache ∧ pkt.netcache.op = opFReply ∧ t.readCache pkt.netcache.hkey = none)) :
    (verdict t r pkt).idx = none ∨ (verdict t r pkt).idx = ownIdx t pkt := by
  unfold verdict ownIdx
  split
  · next hnetcache =>
    split
    · next c hlookup =>
      rw [hlookup]
      exact idx_hitVerdict _ _ _
    · next hlookup =>
      refine .inl ?_
      rw [missVerdict, if_neg fun hop => h ⟨hnetcache, hop, hlookup⟩]
      rfl
  · exact .inl rfl

/-- What an `OP_F_REPLY` of a key that is not cached does: it makes index 0 VALID, which is not its
own. -/
theorem verdict_stray {t : Tables} {r : Registers} {pkt : Packet π} (hnetcache : pkt.IsNetcache)
    (hop : pkt.netcache.op = opFReply) (hlookup : t.readCache pkt.netcache.hkey = none) :
    ownIdx t pkt = none ∧ verdict t r pkt = .validate 0 := by
  rw [ownIdx, if_pos hnetcache, verdict, if_pos hnetcache, hlookup]
  exact ⟨rfl, if_pos hop⟩

/-- The frame law fails for stray packets only, since no other packet works on an index that is not
its own. -/
theorem framed_iff (t : Tables) (r : Registers) (pkt : Packet π) :
    Framed t r pkt ↔ ¬ Stray t r pkt := by
  constructor
  · rintro hframed ⟨hnetcache, hop, hlookup, hstate⟩
    obtain ⟨hown, hverdict⟩ := verdict_stray (r := r) hnetcache hop hlookup
    have hsame := (hframed 0 (by rw [hown]; exact Option.some_ne_none _ ∘ Eq.symm)).cacheState
    rw [switchPass_regs, hverdict] at hsame
    exact hstate (hsame.symm.trans cacheState_setState)
  · intro hstray i hown
    rw [switchPass_regs]
    by_cases h : pkt.IsNetcache ∧ pkt.netcache.op = opFReply ∧
        t.readCache pkt.netcache.hkey = none
    · obtain ⟨hnetcache, hop, hlookup⟩ := h
      have hvalid : r.cacheState 0 = valid :=
        not_ne_iff.1 fun hne => hstray ⟨hnetcache, hop, hlookup, hne⟩
      have hself : r.setState 0 valid = r := by
        rw [Registers.setState, ← hvalid, Function.update_eq_self]
      rw [(verdict_stray hnetcache hop hlookup).2, Verdict.regs, hself]
      exact .rfl
    · refine Verdict.sameAt (fun hidx => ?_) r
      rcases idx_verdict (r := r) h with hnone | hsome
      · rw [hnone] at hidx
        cases hidx
      · exact hown (hsome.symm.trans hidx)

/-! ## Runs -/

/-- A packet that arrives, and the tables that are installed then. -/
structure Arrival (π : Type) where
  tables : Tables
  pkt : Packet π

/-- The registers after a run of packets, each with the tables that are installed when it comes. -/
def after (r : Registers) (xs : List (Arrival π)) : Registers :=
  xs.foldl (fun r x => (switchPass x.tables r x.pkt).1) r

/-- The arrival is a packet of the operation, with a key that is mapped to the index. -/
def Arrival.IsOp (x : Arrival π) (op : BitVec 8) (i : BitVec 32) : Prop :=
  x.pkt.netcache.op = op ∧ ownIdx x.tables x.pkt = some i

/-- A WRITE of a key at the index passed, and since then no `OP_F_REPLY` of a key at it. -/
def Invalidated (xs : List (Arrival π)) (i : BitVec 32) : Prop :=
  ∃ pre x post, xs = pre ++ x :: post ∧ x.IsOp opWrite i ∧ ∀ y ∈ post, ¬ y.IsOp opFReply i

/-- The switch answers a packet itself: what leaves has value headers, which no packet has on the
way in. -/
def Answered (t : Tables) (r : Registers) (pkt : Packet π) : Prop :=
  ∃ p e, (switchPass t r pkt).2 = some (p, e) ∧ e.values ≠ []

/-- Packets touch their own key's state: in a run every packet is framed, and an index that was
invalidated is INVALID and answers no packet of a key at it. -/
structure OwnOnly (r : Registers) (xs : List (Arrival π)) : Prop where
  framed : ∀ ys x, ys ++ [x] <+: xs → Framed x.tables (after r ys) x.pkt
  invalid : ∀ ys i, ys <+: xs → Invalidated ys i → (after r ys).cacheState i = invalid
  unanswered : ∀ ys i, ys <+: xs → Invalidated ys i → ∀ x : Arrival π,
    ownIdx x.tables x.pkt = some i → ¬ Answered x.tables (after r ys) x.pkt

/-- The last packet passes the registers that the others have left. -/
theorem after_concat (r : Registers) (xs : List (Arrival π)) (x : Arrival π) :
    after r (xs ++ [x]) = (switchPass x.tables (after r xs) x.pkt).1 := by
  rw [after, List.foldl_append]
  rfl

/-- The last packet of a run that invalidated an index. -/
theorem invalidated_concat {xs : List (Arrival π)} {x : Arrival π} {i : BitVec 32}
    (h : Invalidated (xs ++ [x]) i) :
    x.IsOp opWrite i ∨ Invalidated xs i ∧ ¬ x.IsOp opFReply i := by
  obtain ⟨pre, w, post, hxs, hw, hpost⟩ := h
  rcases concat_eq_split hxs with ⟨-, rfl, -⟩ | ⟨post', rfl, hxs'⟩
  · exact .inl hw
  · have hbefore : Invalidated xs i :=
      ⟨pre, w, post', hxs', hw, fun y hy => hpost y (List.mem_append_left _ hy)⟩
    exact .inr ⟨hbefore, hpost x (List.mem_append_right _ (List.mem_singleton_self x))⟩

/-! ## Validity -/

/-- The index of a packet is that of its key. -/
theorem ownIdx_eq_some_iff {t : Tables} {pkt : Packet π} {i : BitVec 32} :
    ownIdx t pkt = some i ↔ pkt.IsNetcache ∧ t.readCache pkt.netcache.hkey = some i := by
  unfold ownIdx
  split
  · next h => exact ⟨fun hidx => ⟨h, hidx⟩, And.right⟩
  · next h =>
    constructor
    · intro hidx
      cases hidx
    · exact fun hidx => absurd hidx.1 h

/-- The verdict on a packet with an index is that on a cached key. -/
theorem verdict_own {t : Tables} {pkt : Packet π} {i : BitVec 32} (h : ownIdx t pkt = some i)
    (r : Registers) : verdict t r pkt = hitVerdict pkt.netcache.op (r.cacheState i) i := by
  obtain ⟨hnetcache, hlookup⟩ := ownIdx_eq_some_iff.1 h
  rw [verdict, if_pos hnetcache, hlookup]

/-- A WRITE invalidates its own index, whatever its state was. -/
theorem invalid_of_write {x : Arrival π} {i : BitVec 32} (h : x.IsOp opWrite i) (r : Registers) :
    (switchPass x.tables r x.pkt).1.cacheState i = invalid := by
  rw [switchPass_regs, verdict_own h.2, h.1]
  exact cacheState_setState

/-- Only an `OP_F_REPLY` of a key at an index, or a stray one, makes it VALID. -/
theorem invalid_step {x : Arrival π} {i : BitVec 32} {r : Registers} (hr : r.cacheState i = invalid)
    (hstray : ¬ Stray x.tables r x.pkt) (hfill : ¬ x.IsOp opFReply i) :
    (switchPass x.tables r x.pkt).1.cacheState i = invalid := by
  by_cases hown : ownIdx x.tables x.pkt = some i
  · have hop : x.pkt.netcache.op ≠ opFReply := fun heq => hfill ⟨heq, hown⟩
    rw [switchPass_regs, verdict_own hown, hitVerdict, if_neg hop]
    split_ifs
    · exact hr
    · exact hr
    · exact hr
    · exact cacheState_setState
    · exact hr
  · exact (((framed_iff _ _ _).2 hstray) i hown).cacheState.trans hr

/-- The registers of an index that was invalidated, in a run without stray packets: it is INVALID
until a fill of its own. -/
theorem invalid_of_invalidated {r : Registers} {xs : List (Arrival π)} {i : BitVec 32}
    (hstray : ∀ ys x, ys ++ [x] <+: xs → ¬ Stray x.tables (after r ys) x.pkt)
    (h : Invalidated xs i) : (after r xs).cacheState i = invalid := by
  induction xs using List.reverseRecOn with
  | nil =>
    obtain ⟨pre, x, post, hxs, -⟩ := h
    simp at hxs
  | append_singleton xs x ih =>
    rw [after_concat]
    rcases invalidated_concat h with hwrite | ⟨hbefore, hfill⟩
    · exact invalid_of_write hwrite _
    · have hprefix : ∀ ys y, ys ++ [y] <+: xs → ¬ Stray y.tables (after r ys) y.pkt :=
        fun ys y hys => hstray ys y (hys.trans (List.prefix_append xs [x]))
      exact invalid_step (ih hprefix hbefore) (hstray xs x (List.prefix_refl _)) hfill

/-- A key that is INVALID gets no answer from the switch. -/
theorem not_answered_of_invalid {x : Arrival π} {i : BitVec 32} {r : Registers}
    (hown : ownIdx x.tables x.pkt = some i) (hr : r.cacheState i = invalid) :
    ¬ Answered x.tables r x.pkt := by
  rintro ⟨p, e, hout, hvalues⟩
  obtain ⟨c, hverdict⟩ := verdict_of_values hout hvalues
  have hne : ¬ invalid = valid := by decide
  rw [verdict_own hown, hr, hitVerdict, if_neg hne] at hverdict
  split_ifs at hverdict

/-- In a run of packets with any lookup tables, every packet touches its own key's state only, and
what a WRITE invalidated stays so until an `OP_F_REPLY` of a key at its index, exactly if no
`OP_F_REPLY` of a key that is not cached comes while index 0 is not VALID. -/
theorem ownOnly_iff (r : Registers) (xs : List (Arrival π)) : OwnOnly r xs ↔
    ∀ ys x, ys ++ [x] <+: xs → ¬ Stray x.tables (after r ys) x.pkt := by
  constructor
  · exact fun h ys x hys => (framed_iff _ _ _).1 (h.framed ys x hys)
  · intro hstray
    have hinvalid : ∀ ys i, ys <+: xs → Invalidated ys i → (after r ys).cacheState i = invalid :=
      fun ys i hys h => invalid_of_invalidated (fun zs x hzs => hstray zs x (hzs.trans hys)) h
    exact {
      framed := fun ys x hys => (framed_iff _ _ _).2 (hstray ys x hys)
      invalid := hinvalid
      unanswered := fun ys i hys h x hown => not_answered_of_invalid hown (hinvalid ys i hys h) }

end

/-! ## An uncached reply -/

/-- The registers of a switch that was just started. -/
def zeroRegisters : Registers := ⟨fun _ => 0, fun _ => 0, fun _ _ => 0⟩

/-- Tables with the key (1, 1) at index 0, which forward everything to port 1. -/
def oneKey : Tables := ⟨fun _ => some 1, fun hkey => if hkey = (1, 1) then some 0 else none⟩

/-- A packet of a client, for the key (n, n). -/
def keyPacket (op : BitVec 8) (n : BitVec 64) : Packet Unit :=
  ⟨⟨0, 0, typeIpv4⟩, { Ipv4H.zero with protocol := typeUdp }, { UdpH.zero with dstPort := 1000 },
    { NetcacheH.zero with op := op, hkeyHi := n, hkeyLo := n }, ()⟩

/-- A WRITE of the cached key, then an F_REPLY of another one. -/
def writeThenStray : List (Arrival Unit) :=
  [⟨oneKey, keyPacket opWrite 1⟩, ⟨oneKey, keyPacket opFReply 2⟩]

/-- The key that was invalidated is VALID again, and the switch answers its READ. -/
theorem not_ownOnly_stray : Invalidated writeThenStray 0 ∧
    (after zeroRegisters writeThenStray).cacheState 0 = valid ∧
    Answered oneKey (after zeroRegisters writeThenStray) (keyPacket opRead 1) ∧
    ¬ OwnOnly zeroRegisters writeThenStray := by
  have hinvalidated : Invalidated writeThenStray 0 := by
    refine ⟨[], ⟨oneKey, keyPacket opWrite 1⟩, [⟨oneKey, keyPacket opFReply 2⟩], rfl,
      ⟨rfl, by decide⟩, fun y hy => ?_⟩
    rw [List.mem_singleton.1 hy]
    exact fun h => absurd h.2 (by decide)
  have hvalid : (after zeroRegisters writeThenStray).cacheState 0 = valid := by decide +kernel
  refine ⟨hinvalidated, hvalid, ?_, fun h => ?_⟩
  · exact ⟨1, _, rfl, List.cons_ne_nil _ _⟩
  · have hinvalid := h.invalid writeThenStray 0 (List.prefix_refl _) hinvalidated
    rw [hvalid] at hinvalid
    cases hinvalid

end OrbitCache.Netcache
