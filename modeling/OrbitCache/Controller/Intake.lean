import OrbitCache.Controller.Dynamic
import OrbitCache.Lib.Dict
import OrbitCache.Lib.Run

/-!
# What becomes of the reports

The main loop of `controller.py` and the `handle_client` threads on their shared dictionary. A round
takes a copy of the dictionary, looks at the entries of the copy one by one, and then binds the name
to an empty dictionary: what the threads assigned in between is dropped.
`Intake.accounted_iff_undisturbed`: no report is lost exactly if no assignment ever falls between a
copy and the next rebinding. `Intake.round_of_rebind` connects the steps to `round`.
-/

namespace OrbitCache.Controller

/-- An assignment `unCachedKeyPopularity[key] = popularity`, with its number: two reports of the
same key and popularity are different reports. -/
structure Assigned where
  id : Nat
  key : Str
  popularity : Nat
  deriving DecidableEq

/-- The entry of the dictionary, without the number. -/
def Assigned.entry (r : Assigned) : Str × Nat := (r.key, r.popularity)

/-- Where the main loop is. The threads that receive reports run in all of these phases. -/
inductive Phase where
  /-- It waits for the next interval. -/
  | waiting
  /-- It has read the counters of the cached keys and rebuilt the heap from them. -/
  | rebuilt (cacheCounter : Nat → Nat) (hotkeyList : List HotKey)
  /-- It is in the candidate loop: the copy, what came of its entries so far, and those left. -/
  | admitting (cacheCounter : Nat → Nat) (copy : List Assigned) (round : RoundState)
      (todo : List Assigned)

/-- The entries of the copy that the candidate loop has not looked at. -/
def Phase.todo : Phase → List Assigned
  | .waiting | .rebuilt .. => []
  | .admitting _ _ _ todo => todo

/-- Whether the main loop is between a copy and the rebinding that ends its round. -/
def Phase.isAdmitting : Phase → Bool
  | .waiting | .rebuilt .. => false
  | .admitting .. => true

/-- A rebinding: how many assignments had been made when its copy was taken, and when it was. The
difference is what was assigned in between. -/
structure Rebinding where
  copied : Nat
  assigned : Nat

/-- The variables of the controller that the reports go through, and their history: what was
assigned, looked at and overwritten. -/
structure Intake where
  controller : ControllerState
  unCachedKeyPopularity : List Assigned
  phase : Phase
  /-- All assignments, oldest first. -/
  reports : List Assigned
  /-- What the candidate loop looked at. -/
  taken : List Assigned
  /-- What was in the dictionary when its key was assigned again. -/
  overwritten : List Assigned
  /-- The number of assignments when the latest copy was taken. -/
  copied : Nat
  rebindings : List Rebinding

/-- The steps of the threads and of the main loop, in any order that the phase of the main loop
allows. -/
inductive IntakeAction where
  | report (key : Str) (popularity : Nat)
  | readCounters (cacheCounter : Nat → Nat)
  | copy
  | admitKey
  | rebind

namespace Intake

/-- The controller before the first report, waiting. -/
def init : Intake := ⟨.init, [], .waiting, [], [], [], 0, []⟩

/-- A `handle_client` thread assigns a report. What the dictionary held for the key is overwritten.
-/
def report (s : Intake) (key : Str) (popularity : Nat) : Intake :=
  let r : Assigned := ⟨s.reports.length, key, popularity⟩
  { s with
    unCachedKeyPopularity := Dict.assign Assigned.key s.unCachedKeyPopularity r
    reports := s.reports ++ [r]
    overwritten := s.overwritten ++ s.unCachedKeyPopularity.filter fun e => e.key = key }

/-- The main loop takes its copy and begins the candidate loop with it. -/
def takeCopy (s : Intake) (cacheCounter : Nat → Nat) (hotkeyList : List HotKey) : Intake :=
  let c := s.controller
  { s with
    phase := .admitting cacheCounter s.unCachedKeyPopularity
      ⟨hotkeyList, c.cacheIdx, c.available, c.lookup, []⟩ s.unCachedKeyPopularity
    copied := s.reports.length }

/-- The candidate loop is done with an entry, whether the key was admitted or not. -/
def take (s : Intake) (cacheCounter : Nat → Nat) (copy : List Assigned) (round : RoundState)
    (e : Assigned) (todo : List Assigned) : Intake :=
  { s with
    phase := .admitting cacheCounter copy round todo
    taken := s.taken ++ [e] }

/-- The end of a round: the new hot list replaces the previous one and the dictionary is bound to a
new one, which is empty. -/
def rebound (s : Intake) (round : RoundState) : Intake :=
  { s with
    controller := ⟨round.hotkeyList, round.cacheIdx, round.available, round.lookup⟩
    unCachedKeyPopularity := []
    phase := .waiting
    rebindings := s.rebindings ++ [⟨s.copied, s.reports.length⟩] }

section
variable (heapq : Heapq HotKey HotKey.le)

/-- One step. A step of the main loop is possible in its phase only, and a report at any time. -/
def step (s : Intake) : IntakeAction → Option Intake
  | .report key popularity => some (s.report key popularity)
  | .readCounters cacheCounter =>
    match s.phase with
    | .waiting => do
      let cached ← readPopularity s.controller cacheCounter
      pure { s with phase := .rebuilt cacheCounter (rebuild heapq cached) }
    | _ => none
  | .copy =>
    match s.phase with
    | .rebuilt cacheCounter hotkeyList => some (s.takeCopy cacheCounter hotkeyList)
    | _ => none
  | .admitKey =>
    match s.phase with
    | .admitting cacheCounter copy round (e :: todo) => do
      let round ← Controller.admitKey heapq s.controller.previousHotkeyList round e.key e.popularity
      pure (s.take cacheCounter copy round e todo)
    | _ => none
  | .rebind =>
    match s.phase with
    | .admitting _ _ round [] => some (s.rebound round)
    | _ => none

/-- What a step can be, one constructor for each action, with the condition on the phase. The
invariants are proved by cases on it. -/
inductive Step (s : Intake) : IntakeAction → Intake → Prop
  | report (key popularity) : Step s (.report key popularity) (s.report key popularity)
  | readCounters {cacheCounter cached} : s.phase = .waiting →
      readPopularity s.controller cacheCounter = some cached →
      Step s (.readCounters cacheCounter)
        { s with phase := .rebuilt cacheCounter (rebuild heapq cached) }
  | copy {cacheCounter hotkeyList} : s.phase = .rebuilt cacheCounter hotkeyList →
      Step s .copy (s.takeCopy cacheCounter hotkeyList)
  | admitKey {cacheCounter copy round round' e todo} :
      s.phase = .admitting cacheCounter copy round (e :: todo) →
      Controller.admitKey heapq s.controller.previousHotkeyList round e.key e.popularity =
        some round' →
      Step s .admitKey (s.take cacheCounter copy round' e todo)
  | rebind {cacheCounter copy round} : s.phase = .admitting cacheCounter copy round [] →
      Step s .rebind (s.rebound round)

end

/-- A report is accounted for: the candidate loop looked at it, it was overwritten while it was in
the dictionary, or it is in the dictionary or in what is left of the copy and no round has ended
since it was assigned. -/
def Accounted (s : Intake) (r : Assigned) : Prop :=
  r ∈ s.taken ∨ r ∈ s.overwritten ∨
    (r ∈ s.unCachedKeyPopularity ∨ r ∈ s.phase.todo) ∧ ∀ b ∈ s.rebindings, b.assigned ≤ r.id

/-- Whether the dictionary was, at every rebinding, as it was when it was copied. -/
def Undisturbed (s : Intake) : Prop := ∀ b ∈ s.rebindings, b.assigned = b.copied

/-- A report that no round will take and no report will overwrite: it was neither taken nor
overwritten, and it is neither in the dictionary nor in what is left of the copy. -/
structure Lost (s : Intake) (r : Assigned) : Prop where
  not_taken : r ∉ s.taken
  not_overwritten : r ∉ s.overwritten
  not_stored : r ∉ s.unCachedKeyPopularity
  not_todo : r ∉ s.phase.todo

/-- Every report was taken or overwritten or still can be: nothing has disappeared without a trace.
-/
def NoneLost (s : Intake) : Prop := ∀ r ∈ s.reports, ¬ s.Lost r

/-! ## Steps -/

section
variable {heapq : Heapq HotKey HotKey.le} {s s' : Intake} {a : IntakeAction}

/-- A step that the function makes is one of the cases. -/
theorem Step.of_step (h : step heapq s a = some s') : Step heapq s a s' := by
  cases a with
  | report key popularity =>
    cases h
    exact .report key popularity
  | readCounters cacheCounter =>
    simp only [step] at h
    split at h
    · next hphase =>
      obtain ⟨cached, hcached, hs'⟩ := Option.bind_eq_some_iff.1 h
      cases hs'
      exact .readCounters hphase hcached
    · cases h
  | copy =>
    simp only [step] at h
    split at h
    · next hphase =>
      cases h
      exact .copy hphase
    · cases h
  | admitKey =>
    simp only [step] at h
    split at h
    · next hphase =>
      obtain ⟨round', hround, hs'⟩ := Option.bind_eq_some_iff.1 h
      cases hs'
      exact .admitKey hphase hround
    · cases h
  | rebind =>
    simp only [step] at h
    split at h
    · next hphase =>
      cases h
      exact .rebind hphase
    · cases h

/-! ## What the numbers of the assignments say -/

/-- Where the reports of each number are: everything that was copied has a number below that of the
copy, and what was assigned later is not taken in this round. -/
structure Inv (s : Intake) : Prop where
  copied_le : s.copied ≤ s.reports.length
  id_lt : ∀ r ∈ s.reports, r.id < s.reports.length
  stored_mem : ∀ r ∈ s.unCachedKeyPopularity, r ∈ s.reports
  taken_lt : ∀ r ∈ s.taken, r.id < s.copied
  todo_lt : ∀ r ∈ s.phase.todo, r.id < s.copied
  overwritten_lt : ∀ r ∈ s.overwritten, r.id + 1 < s.reports.length
  /-- What the dictionary held when it was copied. -/
  copy_taken : s.phase.isAdmitting = true → ∀ r ∈ s.unCachedKeyPopularity, r.id < s.copied →
    r ∈ s.taken ∨ r ∈ s.phase.todo
  assigned_le : ∀ b ∈ s.rebindings, b.assigned ≤ s.reports.length
  /-- What was assigned before a rebinding is not in the dictionary any more. -/
  stored_after : ∀ b ∈ s.rebindings, ∀ r ∈ s.unCachedKeyPopularity, b.assigned ≤ r.id
  todo_after : ∀ b ∈ s.rebindings, ∀ r ∈ s.phase.todo, b.assigned ≤ r.id
  /-- The latest assignment, if it came after the copy. -/
  newest : s.phase.isAdmitting = true → s.copied < s.reports.length →
    ∃ r ∈ s.unCachedKeyPopularity, r.id + 1 = s.reports.length

/-- Before the first report there is nothing to say. -/
theorem inv_init : init.Inv where
  copied_le := Nat.le_refl _
  id_lt := by simp [init]
  stored_mem := by simp [init]
  taken_lt := by simp [init]
  todo_lt := by simp [init, Phase.todo]
  overwritten_lt := by simp [init]
  copy_taken := by simp [init, Phase.isAdmitting]
  assigned_le := by simp [init]
  stored_after := by simp [init]
  todo_after := by simp [init]
  newest := by simp [init, Phase.isAdmitting]

/-- The dictionary after an assignment: the new report, and the reports of other keys. -/
theorem mem_report {key : Str} {popularity : Nat} {r : Assigned} :
    r ∈ (s.report key popularity).unCachedKeyPopularity ↔
      r = ⟨s.reports.length, key, popularity⟩ ∨
        r ∈ s.unCachedKeyPopularity ∧ r.key ≠ key :=
  Dict.mem_assign Assigned.key

/-- An assignment, which gets the next number: it is behind the copy, so the candidate loop does not
see it. -/
theorem Inv.report (h : s.Inv) (key : Str) (popularity : Nat) : (s.report key popularity).Inv where
  copied_le := by
    simp only [Intake.report, List.length_append, List.length_singleton]
    exact Nat.le_succ_of_le h.copied_le
  id_lt r hr := by
    simp only [Intake.report, List.length_append, List.length_singleton, List.mem_append,
      List.mem_singleton] at hr ⊢
    rcases hr with hr | rfl
    · exact Nat.lt_succ_of_lt (h.id_lt r hr)
    · exact Nat.lt_succ_self _
  stored_mem r hr := by
    rcases mem_report.1 hr with rfl | ⟨hr, -⟩
    · exact List.mem_append_right _ (List.mem_singleton_self _)
    · exact List.mem_append_left _ (h.stored_mem r hr)
  taken_lt := h.taken_lt
  todo_lt := h.todo_lt
  overwritten_lt r hr := by
    simp only [Intake.report, List.length_append, List.length_singleton, List.mem_append] at hr ⊢
    rcases hr with hr | hr
    · exact Nat.lt_succ_of_lt (h.overwritten_lt r hr)
    · exact Nat.succ_lt_succ (h.id_lt r (h.stored_mem r (List.mem_of_mem_filter hr)))
  copy_taken hadmitting r hr hlt := by
    rcases mem_report.1 hr with rfl | ⟨hr, -⟩
    · exact absurd hlt (Nat.not_lt.2 h.copied_le)
    · exact h.copy_taken hadmitting r hr hlt
  assigned_le b hb := by
    simp only [Intake.report, List.length_append, List.length_singleton]
    exact Nat.le_succ_of_le (h.assigned_le b hb)
  stored_after b hb r hr := by
    rcases mem_report.1 hr with rfl | ⟨hr, -⟩
    · exact h.assigned_le b hb
    · exact h.stored_after b hb r hr
  todo_after := h.todo_after
  newest _ _ := ⟨_, mem_report.2 (.inl rfl), by simp [Intake.report]⟩

/-- The copy holds what the dictionary holds, and all numbers so far are before it. -/
theorem Inv.takeCopy (h : s.Inv) (cacheCounter : Nat → Nat) (hotkeyList : List HotKey) :
    (s.takeCopy cacheCounter hotkeyList).Inv where
  copied_le := Nat.le_refl _
  id_lt := h.id_lt
  stored_mem := h.stored_mem
  taken_lt r hr := Nat.lt_of_lt_of_le (h.taken_lt r hr) h.copied_le
  todo_lt r hr := h.id_lt r (h.stored_mem r hr)
  overwritten_lt := h.overwritten_lt
  copy_taken _ _ hr _ := .inr hr
  assigned_le := h.assigned_le
  stored_after := h.stored_after
  todo_after := h.stored_after
  newest _ hlt := absurd hlt (Nat.lt_irrefl _)

/-- An entry of the copy is looked at. -/
theorem Inv.take (h : s.Inv) {cacheCounter : Nat → Nat} {copy : List Assigned}
    {round : RoundState} {e : Assigned} {todo : List Assigned}
    (hphase : s.phase = .admitting cacheCounter copy round (e :: todo)) (round' : RoundState) :
    (s.take cacheCounter copy round' e todo).Inv where
  copied_le := h.copied_le
  id_lt := h.id_lt
  stored_mem := h.stored_mem
  taken_lt r hr := by
    rcases List.mem_append.1 hr with hr | hr
    · exact h.taken_lt r hr
    · refine h.todo_lt r ?_
      rw [hphase, List.mem_singleton.1 hr]
      exact List.mem_cons_self
  todo_lt r hr := by
    refine h.todo_lt r ?_
    rw [hphase]
    exact List.mem_cons_of_mem _ hr
  overwritten_lt := h.overwritten_lt
  copy_taken _ r hr hlt := by
    rcases h.copy_taken (by rw [hphase]; rfl) r hr hlt with htaken | htodo
    · exact .inl (List.mem_append_left _ htaken)
    · rw [hphase] at htodo
      rcases List.mem_cons.1 htodo with rfl | htodo
      · exact .inl (List.mem_append_right _ (List.mem_singleton_self _))
      · exact .inr htodo
  assigned_le := h.assigned_le
  stored_after := h.stored_after
  todo_after b hb r hr := by
    refine h.todo_after b hb r ?_
    rw [hphase]
    exact List.mem_cons_of_mem _ hr
  newest _ := h.newest (by rw [hphase]; rfl)

/-- The end of a round leaves an empty dictionary, and no entry of the copy is left. -/
theorem Inv.rebound (h : s.Inv) (round : RoundState) : (s.rebound round).Inv where
  copied_le := h.copied_le
  id_lt := h.id_lt
  stored_mem := by simp [Intake.rebound]
  taken_lt := h.taken_lt
  todo_lt := by simp [Intake.rebound, Phase.todo]
  overwritten_lt := h.overwritten_lt
  copy_taken := by simp [Intake.rebound, Phase.isAdmitting]
  assigned_le b hb := by
    rcases List.mem_append.1 hb with hb | hb
    · exact h.assigned_le b hb
    · rw [List.mem_singleton.1 hb]
      exact Nat.le_refl _
  stored_after := by simp [Intake.rebound]
  todo_after := by simp [Intake.rebound, Phase.todo]
  newest := by simp [Intake.rebound, Phase.isAdmitting]

/-- One step keeps the invariant, by the lemmas on the single steps. -/
theorem Inv.step (h : s.Inv) (hstep : Step heapq s a s') : s'.Inv := by
  cases hstep with
  | report key popularity => exact h.report key popularity
  | readCounters hphase =>
    exact { h with
      todo_lt := by simp [Phase.todo]
      copy_taken := by simp [Phase.isAdmitting]
      todo_after := by simp [Phase.todo]
      newest := by simp [Phase.isAdmitting] }
  | copy => exact h.takeCopy _ _
  | admitKey hphase => exact h.take hphase _
  | rebind => exact h.rebound _

/-! ## Lost reports -/

/-- A report that is not lost is somewhere: one of the four places that `Lost` excludes. -/
theorem not_lost_iff {r : Assigned} : ¬ s.Lost r ↔
    r ∈ s.taken ∨ r ∈ s.overwritten ∨ r ∈ s.unCachedKeyPopularity ∨ r ∈ s.phase.todo := by
  constructor
  · intro h
    by_contra hno
    simp only [not_or] at hno
    exact h ⟨hno.1, hno.2.1, hno.2.2.1, hno.2.2.2⟩
  · rintro (h | h | h | h) hlost
    · exact hlost.not_taken h
    · exact hlost.not_overwritten h
    · exact hlost.not_stored h
    · exact hlost.not_todo h

/-- A report that was not lost is accounted for: if it is in the dictionary or in the copy, it was
assigned after the last rebinding. -/
theorem Inv.accounted_iff (h : s.Inv) {r : Assigned} : s.Accounted r ↔ ¬ s.Lost r := by
  rw [not_lost_iff]
  constructor
  · rintro (htaken | hover | ⟨hstored | htodo, -⟩)
    · exact .inl htaken
    · exact .inr (.inl hover)
    · exact .inr (.inr (.inl hstored))
    · exact .inr (.inr (.inr htodo))
  · rintro (htaken | hover | hstored | htodo)
    · exact .inl htaken
    · exact .inr (.inl hover)
    · exact .inr (.inr ⟨.inl hstored, fun b hb => h.stored_after b hb r hstored⟩)
    · exact .inr (.inr ⟨.inr htodo, fun b hb => h.todo_after b hb r htodo⟩)

/-- What is lost stays lost: only what is in the dictionary is copied or overwritten, and only what
is in the copy is taken. -/
theorem Lost.step {r : Assigned} (hlost : s.Lost r) (h : s.Inv) (hr : r ∈ s.reports)
    (hstep : Step heapq s a s') : s'.Lost r ∧ r ∈ s'.reports := by
  cases hstep with
  | report key popularity =>
    have hid := h.id_lt r hr
    refine ⟨⟨hlost.not_taken, ?_, ?_, hlost.not_todo⟩, List.mem_append_left _ hr⟩
    · intro hmem
      rcases List.mem_append.1 hmem with hmem | hmem
      · exact hlost.not_overwritten hmem
      · exact hlost.not_stored (List.mem_of_mem_filter hmem)
    · intro hmem
      rcases mem_report.1 hmem with rfl | ⟨hmem, -⟩
      · exact Nat.lt_irrefl _ hid
      · exact hlost.not_stored hmem
  | readCounters => exact ⟨{ hlost with not_todo := List.not_mem_nil }, hr⟩
  | copy => exact ⟨{ hlost with not_todo := hlost.not_stored }, hr⟩
  | admitKey hphase =>
    have htodo := hlost.not_todo
    rw [hphase] at htodo
    refine ⟨{ hlost with not_taken := ?_, not_todo := fun hmem => ?_ }, hr⟩
    · intro hmem
      rcases List.mem_append.1 hmem with hmem | hmem
      · exact hlost.not_taken hmem
      · exact htodo (List.mem_singleton.1 hmem ▸ List.mem_cons_self)
    · exact htodo (List.mem_cons_of_mem _ hmem)
  | rebind =>
    exact ⟨{ hlost with not_stored := List.not_mem_nil, not_todo := List.not_mem_nil }, hr⟩

/-- A step loses nothing, unless it drops what was assigned since the copy. -/
theorem NoneLost.step (hnone : s.NoneLost) (h : s.Inv) (hstep : Step heapq s a s')
    (hrebind : a = .rebind → s.reports.length = s.copied) : s'.NoneLost := by
  intro r hr
  rw [not_lost_iff]
  cases hstep with
  | report key popularity =>
    rcases List.mem_append.1 hr with hr | hr
    · rcases not_lost_iff.1 (hnone r hr) with htaken | hover | hstored | htodo
      · exact .inl htaken
      · exact .inr (.inl (List.mem_append_left _ hover))
      · by_cases hkey : r.key = key
        · refine .inr (.inl (List.mem_append_right _ (List.mem_filter.2 ⟨hstored, ?_⟩)))
          exact decide_eq_true hkey
        · exact .inr (.inr (.inl (mem_report.2 (.inr ⟨hstored, hkey⟩))))
      · exact .inr (.inr (.inr htodo))
    · exact .inr (.inr (.inl (mem_report.2 (.inl (List.mem_singleton.1 hr)))))
  | readCounters hphase =>
    have hr := not_lost_iff.1 (hnone r hr)
    rwa [hphase] at hr
  | copy hphase =>
    have hr := not_lost_iff.1 (hnone r hr)
    rw [hphase] at hr
    rcases hr with htaken | hover | hstored | htodo
    · exact .inl htaken
    · exact .inr (.inl hover)
    · exact .inr (.inr (.inl hstored))
    · cases htodo
  | admitKey hphase =>
    have hr := not_lost_iff.1 (hnone r hr)
    rw [hphase] at hr
    rcases hr with htaken | hover | hstored | htodo
    · exact .inl (List.mem_append_left _ htaken)
    · exact .inr (.inl hover)
    · exact .inr (.inr (.inl hstored))
    · rcases List.mem_cons.1 htodo with rfl | htodo
      · exact .inl (List.mem_append_right _ (List.mem_singleton_self _))
      · exact .inr (.inr (.inr htodo))
  | rebind hphase =>
    have hlt := h.id_lt r hr
    have hr := not_lost_iff.1 (hnone r hr)
    -- What the dictionary holds was in the copy, all of which was looked at.
    have hcopied := h.copy_taken (by rw [hphase]; rfl) r
    rw [hphase] at hr hcopied
    rcases hr with htaken | hover | hstored | htodo
    · exact .inl htaken
    · exact .inr (.inl hover)
    · rcases hcopied hstored (hrebind rfl ▸ hlt) with htaken | htodo
      · exact .inl htaken
      · cases htodo
    · cases htodo

/-- A rebinding after later assignments loses the latest of them: it is in the dictionary, which is
dropped, and not in the copy. -/
theorem lost_of_rebind (h : s.Inv) (hstep : Step heapq s .rebind s')
    (hne : s.reports.length ≠ s.copied) : ∃ r ∈ s'.reports, s'.Lost r := by
  cases hstep with
  | rebind hphase =>
    have hlt : s.copied < s.reports.length := Nat.lt_of_le_of_ne h.copied_le hne.symm
    obtain ⟨r, hr, hid⟩ := h.newest (by rw [hphase]; rfl) hlt
    refine ⟨r, h.stored_mem r hr, ⟨fun hmem => ?_, fun hmem => ?_, List.not_mem_nil,
      List.not_mem_nil⟩⟩
    · have htaken := h.taken_lt r hmem
      omega
    · have hover := h.overwritten_lt r hmem
      omega

/-- One step of the equivalence: only a rebinding can change either side, and it changes both. -/
theorem noneLost_iff_step (hiff : s.NoneLost ↔ s.Undisturbed) (h : s.Inv)
    (hstep : Step heapq s a s') : s'.NoneLost ↔ s'.Undisturbed := by
  have hback : s'.NoneLost → s.NoneLost := fun hnone r hr hlost =>
    hnone r (hlost.step h hr hstep).2 (hlost.step h hr hstep).1
  by_cases hrebind : a = .rebind
  · subst hrebind
    have hbindings : s'.Undisturbed ↔ s.Undisturbed ∧ s.reports.length = s.copied := by
      cases hstep
      simp only [Undisturbed, rebound, List.forall_mem_append, List.forall_mem_singleton]
    rw [hbindings, ← hiff]
    constructor
    · refine fun hnone => ⟨hback hnone, ?_⟩
      by_contra hne
      obtain ⟨r, hr, hlost⟩ := lost_of_rebind h hstep hne
      exact hnone r hr hlost
    · exact fun hnone => hnone.1.step h hstep fun _ => hnone.2
  · have hbindings : s'.rebindings = s.rebindings := by
      cases hstep with
      | rebind => exact absurd rfl hrebind
      | _ => rfl
    rw [Undisturbed, hbindings, ← Undisturbed, ← hiff]
    exact ⟨hback, fun hnone => hnone.step h hstep fun heq => absurd heq hrebind⟩

end

/-! ## Rounds -/

section
variable (heapq : Heapq HotKey HotKey.le)

/-- The candidate loop over the rest of the copy, without the history. -/
def admitAll (previousHotkeyList : List HotKey) (todo : List Assigned) (round : RoundState) :
    Option RoundState :=
  todo.foldlM (fun r e => Controller.admitKey heapq previousHotkeyList r e.key e.popularity) round

/-- The round of the main loop so far, as a part of `round`: the counters it has read, and what
became of the entries it has looked at. -/
structure Passing (s : Intake) : Prop where
  nodup : (s.unCachedKeyPopularity.map Assigned.key).Nodup
  rebuilt : ∀ cacheCounter hotkeyList, s.phase = .rebuilt cacheCounter hotkeyList →
    ∃ cached, readPopularity s.controller cacheCounter = some cached ∧
      hotkeyList = rebuild heapq cached
  admitting : ∀ cacheCounter copy round todo, s.phase = .admitting cacheCounter copy round todo →
    (copy.map Assigned.key).Nodup ∧ (∀ r ∈ copy, r ∈ s.taken ∨ r ∈ todo) ∧
      ∃ cached, readPopularity s.controller cacheCounter = some cached ∧
        admitAll heapq s.controller.previousHotkeyList copy ⟨rebuild heapq cached,
          s.controller.cacheIdx, s.controller.available, s.controller.lookup, []⟩ =
        admitAll heapq s.controller.previousHotkeyList todo round

end

section
variable {heapq : Heapq HotKey HotKey.le} {s s' : Intake} {a : IntakeAction}

/-- The numbers of the assignments aside, a report is an assignment to the dictionary. -/
theorem entries_report (key : Str) (popularity : Nat) :
    (s.report key popularity).unCachedKeyPopularity.map Assigned.entry =
      dictSet (s.unCachedKeyPopularity.map Assigned.entry) key popularity := by
  have hset : ∀ d : List (Str × Nat),
      Dict.assign Prod.fst d (key, popularity) = dictSet d key popularity := by
    intro d
    unfold Dict.assign dictSet
    simp only [List.mem_map]
  rw [← hset]
  exact Dict.map_assign Assigned.key Prod.fst (fun _ => rfl) _ _

/-- One step goes on with the round, or begins or ends one; a report touches none of it. -/
theorem Passing.step (h : s.Passing heapq) (hstep : Step heapq s a s') : s'.Passing heapq := by
  cases hstep with
  | report key popularity =>
    exact ⟨Dict.nodup_assign Assigned.key h.nodup _, h.rebuilt, h.admitting⟩
  | readCounters hphase hcached =>
    refine ⟨h.nodup, ?_, by simp⟩
    intro cacheCounter hotkeyList heq
    cases heq
    exact ⟨_, hcached, rfl⟩
  | copy hphase =>
    refine ⟨h.nodup, by simp [takeCopy], ?_⟩
    intro cacheCounter copy round todo heq
    cases heq
    obtain ⟨cached, hcached, rfl⟩ := h.rebuilt _ _ hphase
    exact ⟨h.nodup, fun r hr => .inr hr, cached, hcached, rfl⟩
  | admitKey hphase hround =>
    refine ⟨h.nodup, by simp [Intake.take], ?_⟩
    intro cacheCounter copy round todo heq
    cases heq
    obtain ⟨hnodup, hcopy, cached, hcached, hrest⟩ := h.admitting _ _ _ _ hphase
    refine ⟨hnodup, fun r hr => ?_, cached, hcached, hrest.trans ?_⟩
    · rcases hcopy r hr with htaken | htodo
      · exact .inl (List.mem_append_left _ htaken)
      · rcases List.mem_cons.1 htodo with rfl | htodo
        · exact .inl (List.mem_append_right _ (List.mem_singleton_self _))
        · exact .inr htodo
    · rw [admitAll, List.foldlM_cons, hround]
      rfl
  | rebind hphase => exact ⟨List.nodup_nil, by simp [rebound], by simp [rebound]⟩

end

/-! ## Runs -/

section
variable {heapq : Heapq HotKey HotKey.le} {s t : Intake}

/-- The runs of the threads and the main loop, in any interleaving. -/
abbrev Reaches (heapq : Heapq HotKey HotKey.le) : Intake → Intake → Prop :=
  Run (step heapq) fun _ _ => True

/-- Over a run, by induction. -/
theorem inv_of_run (h : Reaches heapq init s) : s.Inv :=
  h.invariant Inv inv_init fun _ _ _ hinv _ hstep => hinv.step (.of_step hstep)

/-- A lost report is never taken and never overwritten, however the run goes on. -/
theorem Lost.run {r : Assigned} (hlost : s.Lost r) (h : s.Inv) (hr : r ∈ s.reports)
    (hrun : Reaches heapq s t) : t.Lost r := by
  have hall : t.Inv ∧ t.Lost r ∧ r ∈ t.reports := by
    refine hrun.invariant (fun t => t.Inv ∧ t.Lost r ∧ r ∈ t.reports) ⟨h, hlost, hr⟩ ?_
    rintro u a v ⟨hinv, hu, hru⟩ - hstep
    exact ⟨hinv.step (.of_step hstep), hu.step hinv hru (.of_step hstep)⟩
  exact hall.2.1

/-- A rebinding ends a round of the dynamic controller over the entries of the copy, all of which
the candidate loop has looked at. -/
theorem round_of_rebind (h : Reaches heapq init s) {cacheCounter : Nat → Nat}
    {copy : List Assigned} {r : RoundState} (hphase : s.phase = .admitting cacheCounter copy r []) :
    (∀ e ∈ copy, e ∈ s.taken) ∧ ∃ inp : RoundInput, inp.cacheCounter = cacheCounter ∧
      inp.unCachedKeyPopularity.entries = copy.map (fun e => ⟨e.key, e.popularity⟩) ∧
      round heapq s.controller inp = some ((s.rebound r).controller, r.decisions) := by
  have hpassing : s.Passing heapq := h.invariant (fun u => u.Passing heapq)
    ⟨List.nodup_nil, by simp [init], by simp [init]⟩
    fun _ _ _ hu _ hstep => hu.step (.of_step hstep)
  obtain ⟨hnodup, hcopy, cached, hcached, hrest⟩ := hpassing.admitting _ _ _ _ hphase
  have hkeys :
      (copy.map fun e => (⟨e.key, e.popularity⟩ : Sigma fun _ : Str => Nat)).NodupKeys := by
    rwa [List.NodupKeys, List.keys, List.map_map]
  refine ⟨fun e he => (hcopy e he).resolve_right List.not_mem_nil, ⟨cacheCounter, ⟨_, hkeys⟩⟩, rfl,
    rfl, ?_⟩
  rw [round, hcached, Option.bind_eq_bind, Option.bind_some, List.foldlM_map]
  rw [admitAll, admitAll, List.foldlM_nil] at hrest
  rw [hrest]
  rfl

/-- Every report is accounted for exactly if none was ever assigned between a copy and the rebinding
after it. Both directions hold in every state that some interleaving of the main loop and its
threads reaches. -/
theorem accounted_iff_undisturbed (h : Reaches heapq init s) :
    (∀ r ∈ s.reports, s.Accounted r) ↔ s.Undisturbed := by
  have hall : s.Inv ∧ (s.NoneLost ↔ s.Undisturbed) := by
    refine h.invariant (fun s => s.Inv ∧ (s.NoneLost ↔ s.Undisturbed)) ⟨inv_init, ?_⟩ ?_
    · simp [NoneLost, Undisturbed, init]
    · rintro u a v ⟨hinv, hiff⟩ - hstep
      exact ⟨hinv.step (.of_step hstep), noneLost_iff_step hiff hinv (.of_step hstep)⟩
  rw [← hall.2, NoneLost]
  simp only [hall.1.accounted_iff]

/-- With the static counters and an empty copy, a report that arrives before the rebinding is
gone. -/
theorem not_accounted_late : ∃ s r, Reaches (.ofSorted HotKey.le) init s ∧ r ∈ s.reports ∧
    ∀ t, Reaches (.ofSorted HotKey.le) s t → r ∉ t.taken ∧ r ∉ t.overwritten := by
  obtain ⟨s, hs, hcheck⟩ := @Run.exists_of_exec_true _ _ (step (.ofSorted HotKey.le)) init
    [.readCounters fun _ => 0, .copy, .report ['A'] 200, .rebind]
    (fun s => decide (s.reports = [⟨0, ['A'], 200⟩] ∧ s.taken = [] ∧ s.overwritten = [] ∧
      s.unCachedKeyPopularity = [] ∧ s.phase.todo = [])) (by decide +kernel)
  obtain ⟨hreports, htaken, hover, hstored, htodo⟩ := of_decide_eq_true hcheck
  have hr : (⟨0, ['A'], 200⟩ : Assigned) ∈ s.reports := by rw [hreports]; exact List.mem_cons_self
  have hlost : s.Lost ⟨0, ['A'], 200⟩ := by
    refine ⟨?_, ?_, ?_, ?_⟩ <;> simp [htaken, hover, hstored, htodo]
  refine ⟨s, _, hs, hr, fun t ht => ?_⟩
  have hafter := hlost.run (inv_of_run hs) hr ht
  exact ⟨hafter.not_taken, hafter.not_overwritten⟩

/-- A report that was copied and looked at, and one after the rebinding. -/
theorem accounted_twoReports : ∃ s, Reaches (.ofSorted HotKey.le) init s ∧
    s.reports.length = 2 ∧ s.rebindings.length = 1 ∧ ∀ r ∈ s.reports, s.Accounted r := by
  obtain ⟨s, hs, hcheck⟩ := @Run.exists_of_exec_true _ _ (step (.ofSorted HotKey.le)) init
    [.report ['A'] 200, .readCounters fun _ => 0, .copy, .admitKey, .rebind, .report ['B'] 300]
    (fun s => decide (s.reports.length = 2 ∧ s.rebindings.length = 1 ∧
      ∀ b ∈ s.rebindings, b.assigned = b.copied)) (by decide +kernel)
  obtain ⟨hreports, hrebindings, hundisturbed⟩ := of_decide_eq_true hcheck
  exact ⟨s, hs, hreports, hrebindings, (accounted_iff_undisturbed hs).2 hundisturbed⟩

end

end Intake

end OrbitCache.Controller
