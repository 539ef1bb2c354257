import OrbitCache.Host.Key
import OrbitCache.Lib.Endian
import OrbitCache.Lib.Framing
import OrbitCache.Netcache.Frame

/-!
# Replies of the NetCache switch

A READ that finds its key VALID is answered with the words at the index of the key
(`Hit.switchPass`), and each of the sixteen `get_Value` actions clears the word it reads. So two
READs of a key get the same bytes only if the words were zero before the first one
(`repeatable_iff`).
-/

namespace OrbitCache.Netcache

/-! ## Values -/

/-- The bytes of a value header: its four words in network order. -/
def ValueH.bytes (v : ValueH) : Bytes :=
  Endian.network 4 v.val1.toNat ++ Endian.network 4 v.val2.toNat ++
    Endian.network 4 v.val3.toNat ++ Endian.network 4 v.val4.toNat

/-- The bytes of the value headers of a frame, one after the other. -/
def Emitted.valueBytes {π : Type} (e : Emitted π) : Bytes := e.values.flatMap ValueH.bytes

namespace Registers

/-- All value words at an index are `EMPTY`, as they are once a READ has taken them. -/
def Emptied (r : Registers) (c : BitVec 32) : Prop := ∀ n, r.value n c = 0

/-- The sixteen words at an index, as they are sent. -/
theorem flatMap_values (r : Registers) (c : BitVec 32) : (r.values c).flatMap ValueH.bytes =
    (List.finRange 16).flatMap fun n => Endian.network 4 (r.value n c).toNat := by
  simp only [values, valueH, ValueH.bytes, List.flatMap_cons, List.flatMap_nil, List.append_nil,
    List.append_assoc]
  rfl

/-- They are 64 bytes. -/
theorem length_flatMap_values (r : Registers) (c : BitVec 32) :
    ((r.values c).flatMap ValueH.bytes).length = 64 := by
  rw [flatMap_values, List.length_flatMap]
  simp

/-- Zero words are sent as zero words are. -/
theorem Emptied.flatMap_eq {r r' : Registers} {c : BitVec 32} (h : r.Emptied c)
    (h' : r'.Emptied c) :
    (r.values c).flatMap ValueH.bytes = (r'.values c).flatMap ValueH.bytes := by
  rw [flatMap_values, flatMap_values]
  refine congrArg (List.flatMap · _) (funext fun n => ?_)
  rw [h n, h' n]

/-- Only zero words are sent as zero words are. -/
theorem emptied_of_flatMap_eq {r r' : Registers} {c : BitVec 32} (h' : r'.Emptied c)
    (h : (r.values c).flatMap ValueH.bytes = (r'.values c).flatMap ValueH.bytes) : r.Emptied c := by
  rw [flatMap_values, flatMap_values] at h
  intro n
  have hword := Framing.flatMap_inj (fun _ => Endian.length_network 4 _)
    (fun _ => Endian.length_network 4 _) h n (List.mem_finRange n)
  rw [← h' n]
  exact BitVec.eq_of_toNat_eq (Endian.network_inj (r.value n c).isLt (r'.value n c).isLt hword)

end Registers

/-! ## Hits -/

section
variable {π : Type}

/-- A READ of `k` that finds its key cached at `c` and VALID. -/
structure Hit (t : Tables) (r : Registers) (k : Hkey) (c : BitVec 32) (pkt : Packet π) : Prop where
  isNetcache : pkt.IsNetcache
  op : pkt.netcache.op = opRead
  hkey : pkt.netcache.hkey = k
  lookup : t.readCache k = some c
  valid : r.cacheState c = valid

/-- The reply to a READ that is answered with the words at `c`: turned around, with the operation of
a reply and `cached` set. -/
def Packet.reply (r : Registers) (c : BitVec 32) (pkt : Packet π) : Emitted π where
  ethernet := { pkt.ethernet with
    dstAddr := pkt.ethernet.srcAddr
    srcAddr := pkt.ethernet.dstAddr }
  ipv4 :=
    let ipv4 := { pkt.ipv4 with srcAddr := pkt.ipv4.dstAddr, dstAddr := pkt.ipv4.srcAddr }
    { ipv4 with hdrChecksum := ipv4.checksum }
  udp := { pkt.udp with
    srcPort := pkt.udp.dstPort
    dstPort := pkt.udp.srcPort
    checksum := 0 }
  netcache := { pkt.netcache with op := opRReply, cached := 1 }
  payload := pkt.payload
  values := r.values c

end

namespace Registers

/-- Clearing other registers leaves a register as it is. -/
theorem value_clear {r : Registers} {ns : List (Fin 16)} {n : Fin 16} (h : n ∉ ns)
    (c : BitVec 32) : (r.clear ns c).value n = r.value n := if_neg h

/-- A register that is cleared is `EMPTY` at the index and the same elsewhere. -/
theorem value_clear_of_mem {r : Registers} {ns : List (Fin 16)} {n : Fin 16} (h : n ∈ ns)
    (c : BitVec 32) : (r.clear ns c).value n = Function.update (r.value n) c 0 := if_pos h

end Registers

namespace Ingress

/-- The word that is read goes to its field. -/
@[simp] theorem hdr_getValueAction (n : Fin 16) (field : HeaderT → BitVec 32 → HeaderT)
    (x : Ingress) : (getValueAction n field x).hdr = field x.hdr (x.regs.value n x.igMd.cacheIdx) :=
  rfl

/-- The words of a hit are read before they are cleared, each into the field of its own. -/
theorem hdr_getValues (x : Ingress) :
    (getValues4 (getValues3 (getValues2 (getValues1 x)))).hdr =
      { x.hdr with
        value1 := x.regs.valueH x.igMd.cacheIdx 0 1 2 3
        value1Valid := true
        value2 := x.regs.valueH x.igMd.cacheIdx 4 5 6 7
        value2Valid := true
        value3 := x.regs.valueH x.igMd.cacheIdx 8 9 10 11
        value3Valid := true
        value4 := x.regs.valueH x.igMd.cacheIdx 12 13 14 15
        value4Valid := true } := by
  simp (disch := decide) only [getValues1, getValues2, getValues3, getValues4, getValue1Action,
    getValue2Action, getValue3Action, getValue4Action, getValue5Action, getValue6Action,
    getValue7Action, getValue8Action, getValue9Action, getValue10Action, getValue11Action,
    getValue12Action, getValue13Action, getValue14Action, getValue15Action, getValue16Action,
    regs_getValueAction, hdr_getValueAction, igMd_getValueAction, Registers.value_clear,
    Registers.valueH]

/-- What the control makes of a READ of a VALID key: the sixteen words, then the way back. -/
theorem apply_hit {t : Tables} {x : Ingress} {c : BitVec 32} (hvalid : x.hdr.netcacheValid = true)
    (hop : x.hdr.netcache.op = opRead) (hlookup : t.readCache x.hdr.netcache.hkey = some c)
    (hstate : x.regs.cacheState c = valid) : apply t x =
      ipv4Exact t (turnAround (getValues4 (getValues3 (getValues2 (getValues1 { x with
        hdr.udp.checksum := 0, igMd := ⟨yes, valid, c⟩, regs := x.regs.count c }))))) := by
  have hcount := countHit_lookupBlock_hit hlookup
  rw [hstate] at hcount
  have hread : (countHit (lookupBlock t x)).hdr.netcache.op = opRead := by rw [hcount, hop]
  rw [apply, if_pos hvalid]
  simp only [op_lookupBlock]
  rw [if_pos (.inl hop), if_pos hread, hcount, applyRead, if_pos rfl]

/-- `ipv4_exact` alone decides where a packet goes that nothing has dropped before. -/
theorem egressPort_ipv4Exact {t : Tables} {x : Ingress} (hdrop : x.dropCtl = 0) :
    (ipv4Exact t x).egressPort = t.ipv4Exact x.hdr.ipv4.dstAddr := by
  unfold ipv4Exact
  split
  · next hroute => rw [hroute, egressPort, ipv4Forward, if_pos hdrop]
  · next hroute =>
    have hset : ¬ (1 : BitVec 3) = 0 := by decide
    rw [hroute, egressPort, drop, if_neg hset]

end Ingress

section
variable {π : Type} {t : Tables} {r : Registers} {k : Hkey} {c : BitVec 32} {pkt : Packet π}

/-- A hit is answered if its sender is routable, and dropped otherwise. -/
theorem Hit.switchPass (h : Hit t r k c pkt) : (switchPass t r pkt).2 =
    (t.ipv4Exact pkt.ipv4.srcAddr).map fun p => (p, pkt.reply r c) := by
  have hlookup : t.readCache pkt.netcache.hkey = some c := by rw [h.hkey, h.lookup]
  have hparser := switchIngressParser_of_isNetcache h.isNetcache
  rw [Netcache.switchPass, hparser, Ingress.apply_hit rfl h.op hlookup h.valid,
    Ingress.egressPort_ipv4Exact rfl, Ingress.hdr_ipv4Exact, Ingress.turnAround,
    Ingress.hdr_getValues]
  rfl

/-- The value of a reply is the words at the index. -/
theorem valueBytes_reply (r : Registers) (c : BitVec 32) (pkt : Packet π) :
    (pkt.reply r c).valueBytes = (r.values c).flatMap ValueH.bytes := rfl

/-- A hit is answered, as far as the registers go. -/
theorem Hit.verdict_eq (h : Hit t r k c pkt) : verdict t r pkt = .answer c := by
  have hlookup : t.readCache pkt.netcache.hkey = some c := by rw [h.hkey, h.lookup]
  rw [verdict, if_pos h.isNetcache, hlookup]
  exact (if_pos h.op).trans (if_pos h.valid)

/-- A READ that gets value headers is a hit, since no other packet gets them. -/
theorem hit_of_values {p : BitVec 9} {e : Emitted π} (hop : pkt.netcache.op = opRead)
    (hkey : pkt.netcache.hkey = k) (hout : (switchPass t r pkt).2 = some (p, e))
    (hvalues : e.values ≠ []) : ∃ c, Hit t r k c pkt := by
  obtain ⟨c, hverdict⟩ := verdict_of_values hout hvalues
  unfold verdict at hverdict
  split at hverdict
  · next hnetcache =>
    split at hverdict
    · next d hlookup =>
      rw [hitVerdict, if_pos hop] at hverdict
      split at hverdict
      · next hvalid => exact ⟨d, hnetcache, hop, hkey, hkey ▸ hlookup, hvalid⟩
      · cases hverdict
    · rw [missVerdict, hop] at hverdict
      cases hverdict
  · cases hverdict

end

/-! ## Runs -/

/-- An answer leaves the words it has read `EMPTY`: the register actions take them. -/
theorem emptied_answer (r : Registers) (c : BitVec 32) :
    (Verdict.regs r (.answer c)).Emptied c := by
  intro n
  rw [Verdict.regs, Registers.value_clear_of_mem (List.mem_finRange n)]
  exact Function.update_self ..

/-- Words that are `EMPTY` stay so: no packet writes a value register. -/
theorem Registers.Emptied.regs {r : Registers} {c : BitVec 32} (h : r.Emptied c) (v : Verdict) :
    (v.regs r).Emptied c := by
  intro n
  cases v with
  | route | count d | invalidate d | validate d => exact h n
  | answer d =>
    rcases eq_or_ne c d with rfl | hne
    · exact emptied_answer r c n
    · rw [Verdict.regs, Registers.value_clear_of_mem (List.mem_finRange n)]
      exact (Function.update_of_ne hne ..).trans (h n)

section
variable {π : Type}

/-- The registers after a run of packets with tables that stay as they are, as the controller does
not touch them after start-up. -/
def afterPackets (t : Tables) (r : Registers) (pkts : List (Packet π)) : Registers :=
  after r (pkts.map fun pkt => ⟨t, pkt⟩)

/-- The `i`-th packet of a run is a READ of `k`, and the switch answers it with `e`. -/
def AnsweredWith (t : Tables) (r : Registers) (k : Hkey) (pkts : List (Packet π)) (i : Nat)
    (e : Emitted π) : Prop :=
  ∃ pkt p, pkts[i]? = some pkt ∧ pkt.netcache.op = opRead ∧ pkt.netcache.hkey = k ∧
    (switchPass t (afterPackets t r (pkts.take i)) pkt).2 = some (p, e) ∧ e.values ≠ []

/-- The READs of a key that the switch answers get the same bytes, whatever comes between them. -/
def Repeatable (t : Tables) (r : Registers) (k : Hkey) (pkts : List (Packet π)) : Prop :=
  ∀ i j e f, AnsweredWith t r k pkts i e → AnsweredWith t r k pkts j f → e.valueBytes = f.valueBytes

/-- The `i`-th packet of a run is a hit on `k` at `c`, and its sender is routable. -/
def ServedAt (t : Tables) (r : Registers) (k : Hkey) (pkts : List (Packet π)) (i : Nat)
    (c : BitVec 32) : Prop :=
  ∃ pkt, pkts[i]? = some pkt ∧ Hit t (afterPackets t r (pkts.take i)) k c pkt ∧
    (t.ipv4Exact pkt.ipv4.srcAddr).isSome

variable {t : Tables} {r : Registers} {k : Hkey} {c : BitVec 32} {pkts : List (Packet π)} {i : Nat}

/-- A key is served at one index only, as the tables stay. -/
theorem ServedAt.idx_unique {d : BitVec 32} {j : Nat} (h : ServedAt t r k pkts i c)
    (h' : ServedAt t r k pkts j d) : c = d := by
  obtain ⟨_, _, hhit, _⟩ := h
  obtain ⟨_, _, hhit', _⟩ := h'
  exact Option.some.inj (hhit.lookup.symm.trans hhit'.lookup)

/-- A run can be split anywhere. -/
theorem afterPackets_append (xs ys : List (Packet π)) :
    afterPackets t r (xs ++ ys) = afterPackets t (afterPackets t r xs) ys := by
  rw [afterPackets, List.map_append, after, List.foldl_append]
  rfl

/-- The next packet of a run passes the registers that the ones before it have left. -/
theorem afterPackets_take_succ {pkt : Packet π} (h : pkts[i]? = some pkt) :
    afterPackets t r (pkts.take (i + 1)) =
      (switchPass t (afterPackets t r (pkts.take i)) pkt).1 := by
  rw [List.take_add_one, h, afterPackets_append]
  rfl

/-- `EMPTY` words stay so over a run, by induction. -/
theorem Registers.Emptied.afterPackets (h : r.Emptied c) (pkts : List (Packet π)) :
    (afterPackets t r pkts).Emptied c := by
  induction pkts generalizing r with
  | nil => exact h
  | cons pkt pkts ih =>
    have hstep : (switchPass t r pkt).1.Emptied c := by
      rw [switchPass_regs]
      exact h.regs _
    exact ih hstep

/-- Behind a hit the words at its index are `EMPTY` for good. -/
theorem ServedAt.emptied {j : Nat} (h : ServedAt t r k pkts i c) (hij : i < j) :
    (afterPackets t r (pkts.take j)).Emptied c := by
  obtain ⟨pkt, hpkt, hhit, -⟩ := h
  have hsucc : (afterPackets t r (pkts.take (i + 1))).Emptied c := by
    rw [afterPackets_take_succ hpkt, switchPass_regs, hhit.verdict_eq]
    exact emptied_answer _ c
  obtain ⟨rest, hrest⟩ := List.take_prefix_take_left (l := pkts) (Nat.succ_le_of_lt hij)
  rw [← hrest, afterPackets_append]
  exact hsucc.afterPackets rest

/-- A READ that was answered was served, with the words at the index of its key. -/
theorem AnsweredWith.servedAt {e : Emitted π} (h : AnsweredWith t r k pkts i e) :
    ∃ c, ServedAt t r k pkts i c ∧
      e.valueBytes = ((afterPackets t r (pkts.take i)).values c).flatMap ValueH.bytes := by
  obtain ⟨pkt, p, hpkt, hop, hkey, hout, hvalues⟩ := h
  obtain ⟨c, hhit⟩ := hit_of_values hop hkey hout hvalues
  rw [hhit.switchPass] at hout
  obtain ⟨port, hport, hreply⟩ := Option.map_eq_some_iff.1 hout
  refine ⟨c, ⟨pkt, hpkt, hhit, Option.isSome_of_eq_some hport⟩, ?_⟩
  rw [← (Prod.mk.inj hreply).2, valueBytes_reply]

/-- A hit from a routable sender is answered, with the words at the index. -/
theorem ServedAt.answeredWith (h : ServedAt t r k pkts i c) : ∃ e, AnsweredWith t r k pkts i e ∧
    e.valueBytes = ((afterPackets t r (pkts.take i)).values c).flatMap ValueH.bytes := by
  obtain ⟨pkt, hpkt, hhit, hroute⟩ := h
  obtain ⟨p, hp⟩ := Option.isSome_iff_exists.1 hroute
  refine ⟨pkt.reply _ c, ⟨pkt, p, hpkt, hhit.op, hhit.hkey, ?_, List.cons_ne_nil _ _⟩, rfl⟩
  rw [hhit.switchPass, hp, Option.map_some]

/-- A READ that is served before another one must find nothing but `EMPTY` words. -/
theorem Repeatable.emptied {j : Nat} (h : Repeatable t r k pkts) (hij : i < j)
    (hi : ServedAt t r k pkts i c) (hj : ServedAt t r k pkts j c) :
    (afterPackets t r (pkts.take i)).Emptied c := by
  obtain ⟨e, he, hbytes⟩ := hi.answeredWith
  obtain ⟨f, hf, hbytes'⟩ := hj.answeredWith
  refine Registers.emptied_of_flatMap_eq (hi.emptied hij) ?_
  rw [← hbytes, ← hbytes', h i j e f he hf]

/-- Two answers have the same bytes if the words they are read from are sent as the same bytes. -/
theorem AnsweredWith.valueBytes_eq {j : Nat} {e f : Emitted π} (he : AnsweredWith t r k pkts i e)
    (hf : AnsweredWith t r k pkts j f)
    (h : ∀ c, ServedAt t r k pkts i c → ServedAt t r k pkts j c →
      ((afterPackets t r (pkts.take i)).values c).flatMap ValueH.bytes =
        ((afterPackets t r (pkts.take j)).values c).flatMap ValueH.bytes) :
    e.valueBytes = f.valueBytes := by
  obtain ⟨c, hi, hbytes⟩ := he.servedAt
  obtain ⟨d, hj, hbytes'⟩ := hf.servedAt
  obtain rfl : c = d := hi.idx_unique hj
  rw [hbytes, hbytes', h c hi hj]

/-- The switch answers the READs of a key with the same bytes exactly if, whenever it serves two of
them, the words at the index of the key are `EMPTY` already when the first one comes. -/
theorem repeatable_iff (t : Tables) (r : Registers) (k : Hkey) (pkts : List (Packet π)) :
    Repeatable t r k pkts ↔ ∀ i j c, i < j → ServedAt t r k pkts i c → ServedAt t r k pkts j c →
      (afterPackets t r (pkts.take i)).Emptied c := by
  constructor
  · intro h i j c hij hi hj
    exact h.emptied hij hi hj
  · intro h i j e f he hf
    refine he.valueBytes_eq hf fun c hi hj => ?_
    rcases Nat.lt_trichotomy i j with hij | rfl | hji
    · exact (h i j c hij hi hj).flatMap_eq (hi.emptied hij)
    · rfl
    · exact (hj.emptied hji).flatMap_eq (h j i c hji hj hi)

end

/-! ## Two READs -/

/-- The registers as the program starts with them, with the key at index 0 VALID. -/
def filledRegisters : Registers := ⟨fun _ => valid, fun _ => 0, fun _ _ => 1⟩

/-- Two READs of the key that is cached. -/
def twoReads : List (Packet Unit) := [keyPacket opRead 1, keyPacket opRead 1]

/-- The first READ gets ones, the second one zeros, although nothing was written in between. -/
theorem not_repeatable_reads :
    (∀ pkt ∈ twoReads, pkt.netcache.op = opRead ∧ pkt.netcache.hkey = (1, 1)) ∧
    ¬ Repeatable oneKey filledRegisters (1, 1) twoReads := by
  refine ⟨by decide, fun h => ?_⟩
  have hfirst : ServedAt oneKey filledRegisters (1, 1) twoReads 0 0 :=
    ⟨keyPacket opRead 1, rfl, ⟨by decide, rfl, rfl, rfl, rfl⟩, rfl⟩
  have hsecond : ServedAt oneKey filledRegisters (1, 1) twoReads 1 0 :=
    ⟨keyPacket opRead 1, rfl, ⟨by decide, rfl, rfl, rfl, by decide +kernel⟩, rfl⟩
  have hone := h.emptied Nat.zero_lt_one hfirst hsecond 0
  revert hone
  decide

end OrbitCache.Netcache
