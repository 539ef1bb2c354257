import OrbitCache.Netcache.Reply

/-!
# What a run of NetCache packets leaves behind

The registers at an index are a function of the packets that came: the state is the one the last
WRITE or `OP_F_REPLY` gave it, the counter counts the READs and R_REPLYs, and the words are those of
the start of the run until the first READ of the VALID entry takes them. So it depends on the run
alone which READ the switch answers, and with what (`answers_history`).
-/

namespace OrbitCache.Netcache

section
variable {π : Type}

/-! ## The history of an index -/

/-- The state that a packet gives an index; an `OP_F_REPLY` of a key that is not cached works on
index 0. -/
def Arrival.setsState (x : Arrival π) (i : BitVec 32) : Option (BitVec 8) :=
  let idx := x.tables.readCache x.pkt.netcache.hkey
  if x.pkt.IsNetcache then
    if x.pkt.netcache.op = opWrite ∧ idx = some i then some invalid
    else if x.pkt.netcache.op = opFReply ∧ idx.getD 0 = i then some valid
    else none
  else none

/-- A READ or an R_REPLY of a key at the index, the two operations that the counter counts. -/
def Arrival.Counts (x : Arrival π) (i : BitVec 32) : Prop := x.IsOp opRead i ∨ x.IsOp opRReply i

instance (x : Arrival π) (op : BitVec 8) (i : BitVec 32) : Decidable (x.IsOp op i) :=
  inferInstanceAs (Decidable (_ ∧ _))

instance (x : Arrival π) (i : BitVec 32) : Decidable (x.Counts i) :=
  inferInstanceAs (Decidable (_ ∨ _))

/-- The state of an index after a run: the last one that a packet gave it. -/
def stateAfter (r : Registers) (xs : List (Arrival π)) (i : BitVec 32) : BitVec 8 :=
  (xs.filterMap fun x => x.setsState i).getLast?.getD (r.cacheState i)

/-- A READ of a key at the index has come while the index was VALID. -/
def Taken (r : Registers) (xs : List (Arrival π)) (i : BitVec 32) : Prop :=
  ∃ ys x, ys ++ [x] <+: xs ∧ x.IsOp opRead i ∧ stateAfter r ys i = valid

variable {r : Registers} {xs : List (Arrival π)} {x : Arrival π} {i : BitVec 32}

/-- The last packet gives the index its state, or leaves it as it was. -/
theorem stateAfter_concat (r : Registers) (xs : List (Arrival π)) (x : Arrival π) (i : BitVec 32) :
    stateAfter r (xs ++ [x]) i = (x.setsState i).getD (stateAfter r xs i) := by
  rw [stateAfter, List.filterMap_append, List.filterMap_cons]
  cases x.setsState i with
  | none => rw [List.filterMap_nil, List.append_nil, stateAfter, Option.getD_none]
  | some state => rw [List.filterMap_nil, List.getLast?_concat, Option.getD_some, Option.getD_some]

/-- Before the first packet nothing was taken. -/
theorem not_taken_nil (r : Registers) (i : BitVec 32) : ¬ Taken r ([] : List (Arrival π)) i := by
  rintro ⟨ys, x, hprefix, -⟩
  simp at hprefix

/-- The words were taken before, or the last packet takes them. -/
theorem taken_concat : Taken r (xs ++ [x]) i ↔
    Taken r xs i ∨ x.IsOp opRead i ∧ stateAfter r xs i = valid := by
  constructor
  · rintro ⟨ys, y, hprefix, hread, hstate⟩
    rcases List.prefix_concat_iff.1 hprefix with heq | hprefix
    · obtain ⟨rfl, hy⟩ := List.append_inj' heq rfl
      obtain rfl := (List.cons.inj hy).1
      exact .inr ⟨hread, hstate⟩
    · exact .inl ⟨ys, y, hprefix, hread, hstate⟩
  · rintro (⟨ys, y, hprefix, h⟩ | h)
    · exact ⟨ys, y, hprefix.trans (List.prefix_append xs [x]), h⟩
    · exact ⟨xs, x, List.prefix_refl _, h⟩

/-! ## One packet -/

/-- The state that a verdict gives an index, if any. -/
def Verdict.setsState (i : BitVec 32) : Verdict → Option (BitVec 8)
  | .invalidate c => if c = i then some invalid else none
  | .validate c => if c = i then some valid else none
  | .route | .count _ | .answer _ => none

/-- A verdict that counts at an index. -/
def Verdict.counts (i : BitVec 32) : Verdict → Bool
  | .count c | .answer c => c = i
  | .route | .invalidate _ | .validate _ => false

/-- The state of an index after a pass, by the verdict. -/
theorem cacheState_regs (r : Registers) (v : Verdict) (i : BitVec 32) :
    (v.regs r).cacheState i = (v.setsState i).getD (r.cacheState i) := by
  cases v with
  | route | count c | answer c => rfl
  | invalidate c | validate c =>
    rw [Verdict.regs, Verdict.setsState]
    split
    · next h => rw [← h, cacheState_setState, Option.getD_some]
    · next h => rw [(sameAt_setState (Ne.symm h) _).cacheState, Option.getD_none]

/-- The counter of an index after a pass, by the verdict. -/
theorem cacheCounter_regs (r : Registers) (v : Verdict) (i : BitVec 32) :
    (v.regs r).cacheCounter i = r.cacheCounter i + if v.counts i then 1 else 0 := by
  have hzero (z : BitVec 32) : z = z + 0 := (BitVec.add_zero z).symm
  cases v with
  | route | invalidate c | validate c => exact hzero _
  | count c | answer c =>
    rcases eq_or_ne c i with rfl | hne
    · rw [Verdict.counts, decide_eq_true rfl, if_pos rfl]
      exact Function.update_self ..
    · rw [Verdict.counts, decide_eq_false hne, if_neg Bool.false_ne_true, ← hzero]
      exact Function.update_of_ne hne.symm ..

/-- The words of an index after a pass: an answer clears them. -/
theorem value_regs (r : Registers) (v : Verdict) (n : Fin 16) (i : BitVec 32) :
    (v.regs r).value n i = if v = .answer i then 0 else r.value n i := by
  cases v with
  | route | count c | invalidate c | validate c => rfl
  | answer c =>
    rcases eq_or_ne c i with rfl | hne
    · rw [if_pos rfl, emptied_answer r c n]
    · rw [if_neg fun h => hne (Verdict.answer.inj h), Verdict.regs,
        (sameAt_clear hne.symm _).value n]
      rfl

/-- What a packet of a cached key does to an index depends on its operation alone. -/
theorem setsState_hitVerdict (op state : BitVec 8) (c i : BitVec 32) :
    (hitVerdict op state c).setsState i =
      if op = opWrite ∧ c = i then some invalid
      else if op = opFReply ∧ c = i then some valid else none := by
  have hne : opFReply ≠ opWrite := by decide
  have hnone (v : Verdict) (hwrite : op ≠ opWrite) (hfreply : op ≠ opFReply)
      (hv : v.setsState i = none) : v.setsState i =
        if op = opWrite ∧ c = i then some invalid
        else if op = opFReply ∧ c = i then some valid else none := by
    rw [hv, if_neg fun h => hwrite h.1, if_neg fun h => hfreply h.1]
  unfold hitVerdict
  split
  · next h =>
    subst h
    split <;> exact hnone _ (by decide) (by decide) rfl
  split
  · next h => exact hnone _ (by rw [h]; decide) (by rw [h]; decide) rfl
  split
  · next h => simp only [h, true_and, hne.symm, false_and, if_false, Verdict.setsState]
  · next hwrite =>
    split
    · next h => simp only [h, true_and, hne, false_and, if_false, Verdict.setsState]
    · next hfreply => exact hnone _ hwrite hfreply rfl

/-- A verdict gives an index the state that the packet gives it, which does not depend on the
registers. -/
theorem setsState_verdict (r : Registers) (x : Arrival π) (i : BitVec 32) :
    (verdict x.tables r x.pkt).setsState i = x.setsState i := by
  rw [verdict, Arrival.setsState]
  split
  · cases hlookup : x.tables.readCache x.pkt.netcache.hkey with
    | some c => simpa using setsState_hitVerdict x.pkt.netcache.op (r.cacheState c) c i
    | none =>
      simp only [reduceCtorEq, and_false, if_false, Option.getD_none, missVerdict]
      split
      · next hop => simp only [hop, true_and, Verdict.setsState]
      · next hop => simp only [hop, false_and, if_false, Verdict.setsState]
  · rfl

/-- Of the packets of a cached key, READs and R_REPLYs are counted, in every state. -/
theorem counts_hitVerdict (op state : BitVec 8) (c i : BitVec 32) :
    (hitVerdict op state c).counts i = true ↔ (op = opRead ∨ op = opRReply) ∧ c = i := by
  unfold hitVerdict
  split_ifs <;> simp_all [Verdict.counts]

/-- A verdict counts at an index if the packet counts there. -/
theorem counts_verdict (r : Registers) (x : Arrival π) (i : BitVec 32) :
    (verdict x.tables r x.pkt).counts i = true ↔ x.Counts i := by
  rw [Arrival.Counts, Arrival.IsOp, Arrival.IsOp, ← or_and_right, ownIdx_eq_some_iff, verdict]
  split
  · next hnetcache =>
    cases hlookup : x.tables.readCache x.pkt.netcache.hkey with
    | some c => simpa [hnetcache] using counts_hitVerdict x.pkt.netcache.op (r.cacheState c) c i
    | none =>
      have hcounts : (missVerdict x.pkt.netcache.op).counts i = false := by
        unfold missVerdict
        split <;> rfl
      simp [hcounts]
  · next hnetcache => simp [hnetcache, Verdict.counts]

/-- Only a READ of a VALID entry is answered. -/
theorem hitVerdict_eq_answer {op state : BitVec 8} {c i : BitVec 32}
    (h : hitVerdict op state c = .answer i) : op = opRead ∧ state = valid ∧ c = i := by
  unfold hitVerdict at h
  split_ifs at h with hop hvalid
  exact ⟨hop, hvalid, Verdict.answer.inj h⟩

/-- A verdict answers at an index if the packet is a READ there and the entry is VALID. -/
theorem verdict_eq_answer_iff (r : Registers) (x : Arrival π) (i : BitVec 32) :
    verdict x.tables r x.pkt = .answer i ↔ x.IsOp opRead i ∧ r.cacheState i = valid := by
  constructor
  · intro h
    rw [verdict] at h
    split at h
    · next hnetcache =>
      split at h
      · next c hlookup =>
        obtain ⟨hop, hvalid, rfl⟩ := hitVerdict_eq_answer h
        exact ⟨⟨hop, ownIdx_eq_some_iff.2 ⟨hnetcache, hlookup⟩⟩, hvalid⟩
      · unfold missVerdict at h
        split at h <;> cases h
    · cases h
  · rintro ⟨⟨hop, hown⟩, hvalid⟩
    rw [verdict_own hown, hitVerdict, if_pos hop, if_pos hvalid]

/-! ## Runs -/

/-- The registers at an index are those the history of the index tells. -/
structure Recorded (r : Registers) (xs : List (Arrival π)) (r' : Registers) (i : BitVec 32) :
    Prop where
  cacheState : r'.cacheState i = stateAfter r xs i
  cacheCounter : r'.cacheCounter i =
    r.cacheCounter i + BitVec.ofNat 32 (xs.countP fun x => x.Counts i)
  fresh : ¬ Taken r xs i → ∀ n, r'.value n i = r.value n i
  emptied : Taken r xs i → r'.Emptied i

/-- Before the first packet the registers are those of the start. -/
theorem recorded_nil (r : Registers) (i : BitVec 32) :
    Recorded r ([] : List (Arrival π)) r i where
  cacheState := rfl
  cacheCounter := (BitVec.add_zero _).symm
  fresh _ _ := rfl
  emptied h := absurd h (not_taken_nil r i)

/-- One more packet: its verdict changes the registers as the history says. -/
theorem Recorded.step {r' : Registers} (h : Recorded r xs r' i) (x : Arrival π) :
    Recorded r (xs ++ [x]) (switchPass x.tables r' x.pkt).1 i := by
  have hanswer := verdict_eq_answer_iff r' x i
  rw [h.cacheState] at hanswer
  rw [switchPass_regs]
  exact {
    cacheState := by
      rw [cacheState_regs, setsState_verdict, h.cacheState, stateAfter_concat]
    cacheCounter := by
      have hcounts := counts_verdict r' x i
      rw [cacheCounter_regs, h.cacheCounter, List.countP_append, List.countP_singleton,
        BitVec.ofNat_add, BitVec.add_assoc]
      simp only [hcounts, decide_eq_true_eq]
      split <;> rfl
    fresh := by
      intro hfresh n
      rw [taken_concat, not_or, ← hanswer] at hfresh
      rw [value_regs, if_neg hfresh.2, h.fresh hfresh.1 n]
    emptied := by
      intro htaken n
      rw [taken_concat, ← hanswer] at htaken
      rw [value_regs]
      rcases htaken with hbefore | hnow
      · rw [h.emptied hbefore n, ite_self]
      · rw [if_pos hnow] }

/-- After every run, by induction on its packets. -/
theorem recorded_after (r : Registers) (xs : List (Arrival π)) (i : BitVec 32) :
    Recorded r xs (after r xs) i := by
  induction xs using List.reverseRecOn with
  | nil => exact recorded_nil r i
  | append_singleton xs x ih =>
    rw [after_concat]
    exact ih.step x

/-- A reply depends on the words at its index, and on no other register. -/
theorem reply_congr {r r' : Registers} {c : BitVec 32} (h : ∀ n, r.value n c = r'.value n c)
    (pkt : Packet π) : pkt.reply r c = pkt.reply r' c := by
  simp only [Packet.reply, Registers.values, Registers.valueH, h]

/-- Exactly the READs of a VALID entry from a routable sender leave the switch with value
headers. -/
theorem answered_iff {t : Tables} {r : Registers} {pkt : Packet π} {p : BitVec 9}
    {e : Emitted π} : (switchPass t r pkt).2 = some (p, e) ∧ e.values ≠ [] ↔
      ∃ i, verdict t r pkt = .answer i ∧ t.ipv4Exact pkt.ipv4.srcAddr = some p ∧
        e = pkt.reply r i := by
  have hhit {i : BitVec 32} (h : verdict t r pkt = .answer i) :
      Hit t r pkt.netcache.hkey i pkt := by
    obtain ⟨⟨hop, hown⟩, hvalid⟩ := (verdict_eq_answer_iff r ⟨t, pkt⟩ i).1 h
    obtain ⟨hnetcache, hlookup⟩ := ownIdx_eq_some_iff.1 hown
    exact ⟨hnetcache, hop, rfl, hlookup, hvalid⟩
  constructor
  · rintro ⟨hout, hvalues⟩
    obtain ⟨i, hverdict⟩ := verdict_of_values hout hvalues
    rw [(hhit hverdict).switchPass] at hout
    obtain ⟨port, hroute, heq⟩ := Option.map_eq_some_iff.1 hout
    obtain ⟨rfl, rfl⟩ := Prod.mk.inj heq
    exact ⟨i, hverdict, hroute, rfl⟩
  · rintro ⟨i, hverdict, hroute, rfl⟩
    rw [(hhit hverdict).switchPass, hroute]
    exact ⟨rfl, List.cons_ne_nil _ _⟩

/-- Which packets the switch answers after a run, and with what: the words of the start until they
were taken, and cleared words after that. -/
theorem answered_after_iff (r : Registers) (xs : List (Arrival π)) (x : Arrival π) (p : BitVec 9)
    (e : Emitted π) : (switchPass x.tables (after r xs) x.pkt).2 = some (p, e) ∧ e.values ≠ [] ↔
      ∃ i, x.IsOp opRead i ∧ stateAfter r xs i = valid ∧
        x.tables.ipv4Exact x.pkt.ipv4.srcAddr = some p ∧
        (¬ Taken r xs i ∧ e = x.pkt.reply r i ∨
          Taken r xs i ∧ e = x.pkt.reply (r.clear (List.finRange 16) i) i) := by
  rw [answered_iff]
  refine exists_congr fun i => ?_
  have hrecorded := recorded_after r xs i
  have hreply : e = x.pkt.reply (after r xs) i ↔
      (¬ Taken r xs i ∧ e = x.pkt.reply r i ∨
        Taken r xs i ∧ e = x.pkt.reply (r.clear (List.finRange 16) i) i) := by
    by_cases htaken : Taken r xs i
    · have hwords : ∀ n, (after r xs).value n i = (r.clear (List.finRange 16) i).value n i :=
        fun n => (hrecorded.emptied htaken n).trans (emptied_answer r i n).symm
      rw [reply_congr hwords]
      simp only [htaken, not_true_eq_false, false_and, false_or, true_and]
    · rw [reply_congr (hrecorded.fresh htaken)]
      simp only [htaken, not_false_eq_true, true_and, false_and, or_false]
  rw [verdict_eq_answer_iff, hrecorded.cacheState, hreply, and_assoc]

/-- After every run the registers are those that the packets of the run tell, and the switch answers
exactly the READs of entries whose state was last made VALID: with the words of the start at the
first READ that took them, and with `EMPTY` words at every later one, whatever was written since. -/
theorem answers_history (r : Registers) (xs : List (Arrival π)) :
    (∀ i, Recorded r xs (after r xs) i) ∧ ∀ (x : Arrival π) (p : BitVec 9) (e : Emitted π),
      (switchPass x.tables (after r xs) x.pkt).2 = some (p, e) ∧ e.values ≠ [] ↔
        ∃ i, x.IsOp opRead i ∧ stateAfter r xs i = valid ∧
          x.tables.ipv4Exact x.pkt.ipv4.srcAddr = some p ∧
          (¬ Taken r xs i ∧ e = x.pkt.reply r i ∨
            Taken r xs i ∧ e = x.pkt.reply (r.clear (List.finRange 16) i) i) :=
  ⟨recorded_after r xs, answered_after_iff r xs⟩

end

end OrbitCache.Netcache
