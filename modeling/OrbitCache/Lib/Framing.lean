import Mathlib.Data.List.Basic

/-!
# Frames of one length on a stream

A sender writes frames of one length one after the other, and the stream is read in pieces that
have nothing to do with the frames: a read gives at least one element and at most as many as it asks
for, and none only at the end of the stream. `Framing.records` accumulates a frame, decodes it and
goes on; `Framing.records_take` says that it gets what was sent, and of a stream that was cut
the complete frames.
-/

namespace Framing

variable {α β γ : Type*}

/-- A stream of frames of one length has one split into frames. -/
theorem flatMap_inj {size : Nat} {f g : α → List β} (hf : ∀ x, (f x).length = size)
    (hg : ∀ x, (g x).length = size) {l : List α} (h : l.flatMap f = l.flatMap g) :
    ∀ x ∈ l, f x = g x := by
  induction l with
  | nil => simp
  | cons x l ih =>
    rw [List.flatMap_cons, List.flatMap_cons] at h
    obtain ⟨hhead, htail⟩ := List.append_inj h ((hf x).trans (hg x).symm)
    intro y hy
    rcases List.mem_cons.1 hy with rfl | hy
    · exact hhead
    · exact ih htail y hy

/-- A read of at most `n` elements, of which the stream has `pick` ready: what it gives and what it
leaves in the stream. -/
def recv (pick n : Nat) (stream : List β) : List β × List β :=
  (stream.take (max 1 (min pick n)), stream.drop (max 1 (min pick n)))

/-- The loop that reads a frame of `size` elements. The `i`-th read of the connection finds
`picks i` elements ready, and `call` reads were made before. The result is the number of reads, the
frame and the rest of the stream; there is none if the stream ends first. -/
def accumulate (picks : Nat → Nat) (size call : Nat) (buffer stream : List β) :
    Option (Nat × List β × List β) :=
  if _ : size ≤ buffer.length then some (call, buffer, stream)
  else if _ : (recv (picks call) (size - buffer.length) stream).1 = [] then none
  else
    accumulate picks size (call + 1)
      (buffer ++ (recv (picks call) (size - buffer.length) stream).1)
      (recv (picks call) (size - buffer.length) stream).2
termination_by size - buffer.length
decreasing_by
  rename_i hpiece
  have hpos := List.length_pos_iff.2 hpiece
  rw [List.length_append]
  omega

/-- A stream that holds the rest of the frame is read up to its end, whatever the pieces. -/
theorem accumulate_of_le (picks : Nat → Nat) {size : Nat} (call : Nat) (buffer stream : List β)
    (hbuffer : buffer.length ≤ size) (hle : size ≤ buffer.length + stream.length) :
    ∃ calls, accumulate picks size call buffer stream =
      some (calls, buffer ++ stream.take (size - buffer.length),
        stream.drop (size - buffer.length)) := by
  induction hn : size - buffer.length using Nat.strongRecOn
    generalizing call buffer stream with
  | ind n ih =>
    rw [accumulate]
    rcases Nat.eq_zero_or_pos n with hzero | hpos
    · refine ⟨call, ?_⟩
      rw [dif_pos (by omega), hzero, List.take_zero, List.append_nil, List.drop_zero]
    · -- The piece has between one element and what the frame lacks.
      obtain ⟨k, hk⟩ : ∃ k, k = max 1 (min (picks call) n) := ⟨_, rfl⟩
      have hkpos : 1 ≤ k := by omega
      have hkle : k ≤ n := by omega
      have hlen : (stream.take k).length = k := List.length_take_of_le (by omega)
      have hne : stream.take k ≠ [] := List.ne_nil_of_length_pos (by omega)
      have happend : (buffer ++ stream.take k).length = buffer.length + k := by
        rw [List.length_append, hlen]
      have hdrop : (stream.drop k).length = stream.length - k := List.length_drop
      obtain ⟨calls, hcalls⟩ := ih (n - k) (by omega) (call + 1)
        (buffer ++ stream.take k) (stream.drop k) (by omega) (by omega) (by omega)
      refine ⟨calls, ?_⟩
      simp only [recv, hn, ← hk]
      rw [dif_neg (by omega), dif_neg hne, hcalls, List.append_assoc, ← List.take_add,
        List.drop_drop, Nat.add_sub_cancel' hkle]

/-- A stream that ends within the frame gives none, by induction on the elements that are missing.
-/
theorem accumulate_of_lt (picks : Nat → Nat) {size : Nat} (call : Nat) (buffer stream : List β)
    (hlt : buffer.length + stream.length < size) :
    accumulate picks size call buffer stream = none := by
  induction hn : stream.length using Nat.strongRecOn generalizing call buffer stream with
  | ind n ih =>
    rw [accumulate, dif_neg (by omega)]
    by_cases hne : (recv (picks call) (size - buffer.length) stream).1 = []
    · exact dif_pos hne
    · have hpiece := List.length_pos_iff.2 hne
      have htotal := congrArg List.length
        (List.take_append_drop (max 1 (min (picks call) (size - buffer.length))) stream)
      rw [List.length_append] at htotal
      refine (dif_neg hne).trans (ih _ ?_ (call + 1) _ _ ?_ rfl)
      · simp only [recv] at hpiece ⊢
        omega
      · simp only [recv, List.length_append] at hpiece ⊢
        omega

/-- A frame takes its elements from the stream. -/
theorem length_of_accumulate {picks : Nat → Nat} {size call calls : Nat}
    {frame stream rest : List β}
    (h : accumulate picks size call [] stream = some (calls, frame, rest)) :
    rest.length + size = stream.length := by
  rcases Nat.lt_or_ge stream.length size with hlt | hle
  · rw [accumulate_of_lt picks call [] stream (by simpa using hlt)] at h
    cases h
  · obtain ⟨n, hn⟩ := accumulate_of_le picks call [] stream (Nat.zero_le size) (by simpa)
    rw [hn, List.length_nil, Nat.sub_zero] at h
    cases h
    rw [List.length_drop]
    omega

/-- The frames of a stream, decoded; the reader stops at the end of the stream and at a frame that
does not decode. -/
def records (unpack : List β → Option γ) {size : Nat} (hsize : 0 < size) (picks : Nat → Nat)
    (call : Nat) (stream : List β) : List γ :=
  match _ : accumulate picks size call [] stream with
  | none => []
  | some (calls, frame, rest) =>
    match unpack frame with
    | none => []
    | some record => record :: records unpack hsize picks calls rest
termination_by stream.length
decreasing_by
  rename_i h
  have hrest := length_of_accumulate h
  omega

section
variable {unpack : List β → Option γ} {size : Nat} (hsize : 0 < size) (picks : Nat → Nat)

/-- Nothing comes of a stream that is shorter than a frame. -/
theorem records_of_lt (call : Nat) (stream : List β) (hlt : stream.length < size) :
    records unpack hsize picks call stream = [] := by
  have hnone := accumulate_of_lt picks call [] stream (by simpa using hlt)
  rw [records]
  split
  · rfl
  · next heq =>
    rw [hnone] at heq
    cases heq

/-- The first frame is decoded, and the reader goes on behind it. -/
theorem records_append (call : Nat) {frame : List β} (stream : List β) {record : γ}
    (hlen : frame.length = size) (hunpack : unpack frame = some record) :
    ∃ calls, records unpack hsize picks call (frame ++ stream) =
      record :: records unpack hsize picks calls stream := by
  obtain ⟨calls, hsome⟩ := accumulate_of_le picks call [] (frame ++ stream) (Nat.zero_le size)
    (by simp; omega)
  rw [List.length_nil, Nat.sub_zero, List.nil_append, List.take_left' hlen,
    List.drop_left' hlen] at hsome
  refine ⟨calls, ?_⟩
  rw [records]
  split
  · next heq =>
    rw [hsome] at heq
    cases heq
  · next r heq =>
    rw [hsome] at heq
    cases heq
    simp only [hunpack]

/-- Of a stream of frames that is cut after `cut` elements, the reader gets the frames that are
complete, in order, whatever the pieces it reads. -/
theorem records_take {pack : α → List β} {decoded : α → γ} (xs : List α)
    (hlen : ∀ x ∈ xs, (pack x).length = size)
    (hunpack : ∀ x ∈ xs, unpack (pack x) = some (decoded x)) (cut call : Nat) :
    records unpack hsize picks call ((xs.flatMap pack).take cut) =
      (xs.take (cut / size)).map decoded := by
  induction xs generalizing cut call with
  | nil => simpa using records_of_lt hsize picks call [] hsize
  | cons x xs ih =>
    have hx := hlen x List.mem_cons_self
    rw [List.flatMap_cons]
    rcases Nat.lt_or_ge cut size with hlt | hge
    · rw [Nat.div_eq_of_lt hlt]
      exact records_of_lt hsize picks call _ (by rw [List.length_take]; omega)
    · obtain ⟨calls, hrest⟩ := records_append hsize picks call
        ((xs.flatMap pack).take (cut - size)) hx (hunpack x List.mem_cons_self)
      have htake : (pack x ++ xs.flatMap pack).take cut =
          pack x ++ (xs.flatMap pack).take (cut - size) := by
        rw [List.take_append, List.take_of_length_le (by omega), hx]
      have hdiv : cut / size = (cut - size) / size + 1 := by
        rw [← Nat.add_div_right _ hsize, Nat.sub_add_cancel hge]
      rw [htake, hrest, hdiv, List.take_succ_cons, List.map_cons]
      exact congrArg _ (ih (fun y hy => hlen y (List.mem_cons_of_mem _ hy))
        (fun y hy => hunpack y (List.mem_cons_of_mem _ hy)) _ _)

/-- The reader gets the frames that were sent, when the stream is not cut. -/
theorem records_flatMap {pack : α → List β} {decoded : α → γ} (xs : List α)
    (hlen : ∀ x ∈ xs, (pack x).length = size)
    (hunpack : ∀ x ∈ xs, unpack (pack x) = some (decoded x)) (call : Nat) :
    records unpack hsize picks call (xs.flatMap pack) = xs.map decoded := by
  -- The whole stream is the cut behind the last frame.
  have htotal : (xs.flatMap pack).length = xs.length * size := by
    rw [List.length_flatMap, List.map_congr_left hlen, List.map_const', List.sum_replicate_nat]
  have hall := records_take hsize picks xs hlen hunpack (xs.length * size) call
  rwa [List.take_of_length_le (Nat.le_of_eq htotal), Nat.mul_div_cancel _ hsize,
    List.take_length] at hall

end

end Framing
