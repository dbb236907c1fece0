import Mathlib.Data.List.Induction
import Ssos.Shell.LineBuffer

/-!
# Upper and lower case

`shell_input_callback` sets its flag when a shift key is pressed and returns
before the `switch` when a key is released, so the flag is never cleared.

## Main results

- `heldAfter_iff` — the reference: which keys are held after a history of events
- `caseFollows_iff` — exactly when the case of the letters follows the shift keys
-/

namespace Ssos

open Allocation PartialRun

/-! ### Held keys -/

/-- Whether the key is held after the events. -/
def heldAfter (key : Key) (history : List KeyboardEvent) : Bool :=
  history.foldl (fun held event => if event.keycode = key then !event.isReleased else held) false

section Held
variable {key : Key} {history : List KeyboardEvent}

theorem heldAfter_concat (event : KeyboardEvent) :
    heldAfter key (history ++ [event]) =
      if event.keycode = key then !event.isReleased else heldAfter key history := by
  rw [heldAfter, List.foldl_append, ← heldAfter]
  rfl

/-- Where the last `x` with no `y` behind it stands in a list that gets longer. -/
theorem exists_split_concat_iff {α : Type*} {l : List α} {e x y : α} :
    (∃ before after, l ++ [e] = before ++ x :: after ∧ y ∉ after) ↔
      e = x ∨ e ≠ y ∧ ∃ before after, l = before ++ x :: after ∧ y ∉ after := by
  constructor
  · rintro ⟨before, after, hsplit, hafter⟩
    obtain rfl | ⟨rest, last, rfl⟩ := List.eq_nil_or_concat after
    · obtain ⟨_, hlast⟩ := List.append_inj' hsplit rfl
      exact Or.inl (List.singleton_inj.1 hlast)
    · rw [List.concat_eq_append] at hsplit hafter
      rw [← List.cons_append, ← List.append_assoc] at hsplit
      obtain ⟨hfront, hlast⟩ := List.append_inj' hsplit rfl
      obtain rfl := List.singleton_inj.1 hlast
      rw [List.mem_append, List.mem_singleton, not_or] at hafter
      exact Or.inr ⟨Ne.symm hafter.2, before, rest, hfront, hafter.1⟩
  · rintro (rfl | ⟨hne, before, after, rfl, hafter⟩)
    · exact ⟨l, [], rfl, List.not_mem_nil⟩
    · refine ⟨before, after ++ [e], by simp, ?_⟩
      rw [List.mem_append, List.mem_singleton, not_or]
      exact ⟨hafter, hne.symm⟩

/-- **A key is held** when it has been pressed and not released since. -/
theorem heldAfter_iff : heldAfter key history = true ↔
    ∃ before after, history = before ++ ⟨key, false⟩ :: after ∧ ⟨key, true⟩ ∉ after := by
  induction history using List.reverseRecOn with
  | nil =>
    refine iff_of_false Bool.false_ne_true ?_
    rintro ⟨before, after, hsplit, _⟩
    exact absurd hsplit (by simp)
  | append_singleton history event ih =>
    rw [heldAfter_concat, exists_split_concat_iff, ← ih]
    obtain ⟨keycode, isReleased⟩ := event
    by_cases hkey : keycode = key
    · subst hkey
      -- the last event decides
      cases isReleased <;> simp
    · have hother : ∀ released, (⟨keycode, isReleased⟩ : KeyboardEvent) ≠ ⟨key, released⟩ := by
        intro released heq
        exact hkey (congrArg KeyboardEvent.keycode heq)
      rw [if_neg hkey, or_iff_right (hother false), and_iff_right (hother true)]

end Held

/-- One of the two shift keys is held. -/
def shiftHeld (history : List KeyboardEvent) : Bool :=
  heldAfter .leftShift history || heldAfter .rightShift history

/-- The event is a press of one of the two shift keys. -/
def pressesShift (event : KeyboardEvent) : Bool :=
  !event.isReleased && (event.keycode == .leftShift || event.keycode == .rightShift)

/-- A key that is held has been pressed. -/
theorem any_pressesShift_of_shiftHeld {history : List KeyboardEvent}
    (hheld : shiftHeld history = true) : history.any pressesShift = true := by
  rw [List.any_eq_true]
  obtain hleft | hright := Bool.or_eq_true_iff.1 hheld
  · obtain ⟨before, after, rfl, _⟩ := heldAfter_iff.1 hleft
    exact ⟨_, List.mem_append_right before List.mem_cons_self, rfl⟩
  · obtain ⟨before, after, rfl, _⟩ := heldAfter_iff.1 hright
    exact ⟨_, List.mem_append_right before List.mem_cons_self, rfl⟩

/-! ### Runs -/

/-- The shell, and the events that have been delivered to it. -/
structure ShiftRun (H : Type*) where
  shell : Shell H
  history : List KeyboardEvent

def ShiftRun.initial {H : Type*} (heap : H) : ShiftRun H := ⟨Shell.initial heap, []⟩

/-- The events that a call delivers. -/
def ShellCall.events : ShellCall → List KeyboardEvent
  | .inputCallback event => [event]
  | .resetPromptBuffer => []

def shiftStep {H : Type*} (ops : HeapOps H) (s : ShiftRun H) (call : ShellCall) :
    Option (ShiftRun H) :=
  (shellStep ops s.shell call).map fun shell => ⟨shell, s.history ++ call.events⟩

/-- The call delivers the press of a letter key to a shell that has not stopped. -/
def TypesLetter {H : Type*} (s : ShiftRun H) (call : ShellCall) (keycode : Key) : Prop :=
  call = .inputCallback ⟨keycode, false⟩ ∧ letterChar false keycode ≠ 0 ∧ s.shell.stopped = false

/-- A letter that is typed is echoed, and appended unless the memory is
exhausted, in upper case if a shift key is held and in lower case otherwise. -/
def CaseFollows {H : Type*} (A : Allocator H) (s : ShiftRun H) (call : ShellCall) : Prop :=
  ∀ keycode, TypesLetter s call keycode →
    ∃ shell, shellStep A.toHeapOps s.shell call = some shell ∧
      shell.echoed = s.shell.echoed ++ [letterChar (shiftHeld s.history) keycode] ∧
      (shell.stopped = false → lineBytes A shell =
        lineBytes A s.shell ++ [letterChar (shiftHeld s.history) keycode])

/-- When a letter is typed, a shift key is held or none has been pressed before. -/
def ShiftUnambiguous {H : Type*} (s : ShiftRun H) (call : ShellCall) : Prop :=
  ∀ keycode, TypesLetter s call keycode →
    shiftHeld s.history = true ∨ s.history.any pressesShift = false

theorem shiftUnambiguous_inputCallback {H : Type*} {s : ShiftRun H} {event : KeyboardEvent} :
    ShiftUnambiguous s (.inputCallback event) ↔
      (event.isReleased = false ∧ letterChar false event.keycode ≠ 0 ∧ s.shell.stopped = false →
        shiftHeld s.history = true ∨ s.history.any pressesShift = false) := by
  constructor
  · rintro h ⟨hpressed, hletter, hrun⟩
    exact h event.keycode ⟨hpressed ▸ rfl, hletter, hrun⟩
  · rintro h keycode ⟨hcall, hletter, hrun⟩
    obtain rfl := ShellCall.inputCallback.inj hcall
    exact h ⟨rfl, hletter, hrun⟩

instance {H : Type*} (s : ShiftRun H) : ∀ call, Decidable (ShiftUnambiguous s call)
  | .inputCallback _ => decidable_of_iff _ shiftUnambiguous_inputCallback.symm
  | .resetPromptBuffer => isTrue fun _ htypes => ShellCall.noConfusion htypes.1

/-! ### The flag -/

section Flag
variable {H : Type*} {s : Shell H}

theorem letterChar_eq_zero_iff (held : Bool) (keycode : Key) :
    letterChar held keycode = 0 ↔ letterChar false keycode = 0 := by
  cases held <;> cases keycode <;> decide

/-- The two cases of a letter differ. -/
theorem letterChar_inj {held held' : Bool} {keycode : Key}
    (hletter : letterChar false keycode ≠ 0)
    (h : letterChar held keycode = letterChar held' keycode) : held = held' := by
  have hdiff : letterChar false keycode ≠ 0 →
      letterChar true keycode ≠ letterChar false keycode := by
    cases keycode <;> decide
  cases held <;> cases held' <;> first
    | rfl
    | exact absurd h (hdiff hletter)
    | exact absurd h.symm (hdiff hletter)

theorem setFlags_shiftIsHeld (keycode : Key) (s : Shell H) : (setFlags keycode s).shiftIsHeld =
    (keycode == .leftShift || keycode == .rightShift || s.shiftIsHeld) := by
  cases keycode <;> rfl

/-- What is done to the buffer leaves the echoed characters alone. -/
theorem moveLine_echoed {ops : HeapOps H} {newLine : ℕ} {s' : Shell H}
    (h : moveLine ops newLine s = some s') : s'.echoed = s.echoed := by
  rw [moveLine] at h
  by_cases hline : s.currentLine ≠ 0
  · rw [if_pos hline] at h
    cases hcopy : ops.copyBytes newLine s.currentLine s.lineSize s.heap with
    | none => simp [hcopy] at h
    | some heap =>
      simp only [hcopy, freeLine] at h
      cases hfree : ops.free s.currentLine heap with
      | none => simp [hfree] at h
      | some heap' =>
        simp only [hfree, Option.some_inj] at h
        rw [← h]
  · rw [if_neg hline, Option.some_inj] at h
    rw [← h]

theorem growLine_echoed {ops : HeapOps H} {s' : Shell H} (h : growLine ops s = some s') :
    s'.echoed = s.echoed := by
  rw [growLine] at h
  cases hres : ops.malloc
      (if s.lineCapacity ≠ 0 then (s.lineCapacity * 2 + 1) % 2 ^ 64 else 1) s.heap with
  | none => simp only [hres, reduceCtorEq] at h
  | some res =>
    simp only [hres] at h
    by_cases hp : res.1 = 0
    · rw [if_pos hp, Option.some_inj] at h
      rw [← h]
    · rw [if_neg hp] at h
      cases hmove : moveLine ops res.1
          { s with heap := res.2, obtained := s.obtained ++ [res.1] } with
      | none => simp [hmove] at h
      | some s₁ =>
        simp only [hmove, Option.some_inj] at h
        have hmoved := moveLine_echoed hmove
        rw [← h]
        exact hmoved

theorem storeChar_echoed {ops : HeapOps H} {c : UInt8} {s' : Shell H}
    (h : storeChar ops c s = some s') : s'.echoed = s.echoed := by
  rw [storeChar] at h
  cases hstore : ops.store (s.currentLine + s.lineSize) c s.heap with
  | none => simp [hstore] at h
  | some heap =>
    simp only [hstore, Option.some_inj] at h
    rw [← h]

/-- The echo does not depend on whether there is memory for the character. -/
theorem appendChar_echoed {ops : HeapOps H} {c : UInt8} {s' : Shell H}
    (h : appendChar ops c s = some s') : s'.echoed = s.echoed ++ [c] := by
  rw [appendChar] at h
  by_cases hfull : (s.lineSize + 1) % 2 ^ 64 > s.lineCapacity
  · simp only [if_pos hfull] at h
    cases hgrow : growLine ops { s with echoed := s.echoed ++ [c] } with
    | none => simp [hgrow] at h
    | some s₁ =>
      simp only [hgrow] at h
      have hgrown := growLine_echoed hgrow
      cases hstopped : s₁.stopped with
      | true =>
        rw [hstopped, if_pos rfl, Option.some_inj] at h
        rw [← h, hgrown]
      | false =>
        rw [hstopped, if_neg Bool.false_ne_true] at h
        rw [storeChar_echoed h, hgrown]
  · simp only [if_neg hfull] at h
    exact storeChar_echoed h

end Flag

/-! ### What is typed -/

section Case
variable {H : Type*} {A : Allocator H} {s : ShiftRun H}

/-- The flag remembers every press of a shift key, and no release. -/
structure FlagHolds (A : Allocator H) (s : ShiftRun H) : Prop where
  line : LineHolds A s.shell
  flag : s.shell.stopped = false → s.shell.shiftIsHeld = s.history.any pressesShift

theorem typedChars_letter {held : Bool} {keycode : Key} (hletter : letterChar false keycode ≠ 0) :
    typedChars held ⟨keycode, false⟩ = [letterChar held keycode] := by
  rw [typedChars, if_neg]
  rintro (hreleased | hzero)
  · exact Bool.noConfusion hreleased
  · exact hletter ((letterChar_eq_zero_iff held keycode).1 hzero)

/-- The callback sets the flag at a press of a shift key. -/
theorem shellInputCallback_shiftIsHeld {shell shell' : Shell H} (hs : LineHolds A shell)
    (hrun : shell.stopped = false) {event : KeyboardEvent}
    (h : shellInputCallback A.toHeapOps event shell = some shell') :
    shell'.shiftIsHeld = (pressesShift event || shell.shiftIsHeld) := by
  rw [shellInputCallback] at h
  rw [pressesShift]
  cases hreleased : event.isReleased with
  | true =>
    rw [hreleased, if_pos rfl, Option.some_inj] at h
    rw [← h]
    rfl
  | false =>
    rw [hreleased, if_neg Bool.false_ne_true] at h
    have hflag := setFlags_shiftIsHeld event.keycode shell
    by_cases hletter : letterChar shell.shiftIsHeld event.keycode ≠ 0
    · rw [if_pos hletter] at h
      rw [(setFlags_letter hletter shell).1] at h hflag
      obtain ⟨shell₁, happend, _, hkeeps, _⟩ := appendChar_spec hs hrun
        (letterChar shell.shiftIsHeld event.keycode)
      rw [happend, Option.some_inj] at h
      rw [← h, hkeeps.shiftIsHeld, Bool.not_false, Bool.true_and]
      exact hflag
    · rw [if_neg hletter, Option.some_inj] at h
      rw [← h, hflag]
      rfl

/-- **Step lemma.** -/
theorem shiftStep_holds (hs : FlagHolds A s) (call : ShellCall) :
    ∃ s', shiftStep A.toHeapOps s call = some s' ∧ FlagHolds A s' := by
  obtain ⟨shell, hstep, hline⟩ := shellStep_holds hs.line call
  rw [shiftStep, hstep]
  refine ⟨_, rfl, hline, ?_⟩
  intro hrun
  simp only at hrun ⊢
  unfold shellStep at hstep
  cases hstopped : s.shell.stopped with
  | true =>
    rw [hstopped, if_pos rfl, Option.some_inj] at hstep
    rw [← hstep, hstopped] at hrun
    exact Bool.noConfusion hrun
  | false =>
    rw [hstopped, if_neg Bool.false_ne_true] at hstep
    rw [List.any_append, ← hs.flag hstopped]
    cases call with
    | inputCallback event =>
      rw [shellInputCallback_shiftIsHeld hs.line hstopped hstep, ShellCall.events,
        List.any_cons, List.any_nil, Bool.or_false, Bool.or_comm]
    | resetPromptBuffer =>
      obtain ⟨shell', hreset, _, hkeeps, _⟩ := shellResetPromptBuffer_spec hs.line hstopped
      simp only [hreset, Option.some_inj] at hstep
      rw [← hstep, hkeeps.shiftIsHeld, ShellCall.events, List.any_nil, Bool.or_false]

/-- A letter appears in the case that the flag gives. -/
theorem FlagHolds.typesLetter (hs : FlagHolds A s) {call : ShellCall} {keycode : Key}
    (htypes : TypesLetter s call keycode) :
    ∃ shell, shellStep A.toHeapOps s.shell call = some shell ∧
      shell.echoed = s.shell.echoed ++ [letterChar s.shell.shiftIsHeld keycode] ∧
      (shell.stopped = false → lineBytes A shell =
        lineBytes A s.shell ++ [letterChar s.shell.shiftIsHeld keycode]) := by
  obtain ⟨rfl, hletter, hrun⟩ := htypes
  have htyped : typedChars s.shell.shiftIsHeld ⟨keycode, false⟩ =
      [letterChar s.shell.shiftIsHeld keycode] := typedChars_letter hletter
  have hsome : typedChars s.shell.shiftIsHeld ⟨keycode, false⟩ ≠ [] := by
    rw [htyped]
    exact List.cons_ne_nil _ _
  obtain ⟨c, hc, _, hres⟩ := shellInputCallback_typed A.toHeapOps hsome
  obtain rfl : letterChar s.shell.shiftIsHeld keycode = c :=
    List.singleton_inj.1 (htyped.symm.trans hc)
  obtain ⟨shell, happend, hline, _, _⟩ := appendChar_spec hs.line hrun
    (letterChar s.shell.shiftIsHeld keycode)
  have hecho := appendChar_echoed happend
  refine ⟨shell, ?_, hecho, ?_⟩
  · rw [shellStep, hrun, if_neg Bool.false_ne_true]
    exact hres.trans happend
  · intro hrun'
    rw [hline.bytes hrun', hecho, hs.line.bytes hrun]

/-- The case is right exactly when the flag is. -/
theorem caseFollows_iff_flag (hs : FlagHolds A s) (call : ShellCall) :
    CaseFollows A s call ↔ ShiftUnambiguous s call := by
  refine forall_congr' fun keycode => forall_congr' fun htypes => ?_
  obtain ⟨shell, hstep, hecho, hline⟩ := hs.typesLetter htypes
  have hflag := hs.flag htypes.2.2
  constructor
  · rintro ⟨shell', hstep', hecho', _⟩
    obtain rfl := Option.some_inj.1 (hstep.symm.trans hstep')
    have hletters := List.append_cancel_left (hecho.symm.trans hecho')
    have hheld := letterChar_inj htypes.2.1 (List.singleton_inj.1 hletters)
    cases hany : s.history.any pressesShift with
    | true =>
      left
      rw [← hheld, hflag, hany]
    | false => exact Or.inr rfl
  · intro hclear
    have hheld : s.shell.shiftIsHeld = shiftHeld s.history := by
      rw [hflag]
      obtain hheld | hnone := hclear
      · rw [hheld, any_pressesShift_of_shiftHeld hheld]
      · rw [hnone]
        by_contra hne
        have hheld := Bool.eq_true_of_not_eq_false fun hfalse => hne hfalse.symm
        rw [any_pressesShift_of_shiftHeld hheld] at hnone
        exact Bool.noConfusion hnone
    rw [← hheld]
    exact ⟨shell, hstep, hecho, hline⟩

end Case

/-- **The case of the letters** follows the shift keys in exactly the runs in
which every letter is typed with a shift key held or before the first press of
one. -/
theorem caseFollows_iff {H : Type*} (A : Allocator H) (calls : List ShellCall) :
    Along (shiftStep A.toHeapOps) (CaseFollows A) (ShiftRun.initial A.initial) calls ↔
      Along (shiftStep A.toHeapOps) ShiftUnambiguous (ShiftRun.initial A.initial) calls := by
  have hstart : FlagHolds A (ShiftRun.initial A.initial) := ⟨initial_holds, fun _ => rfl⟩
  refine Along.iff_of_invariant (A := fun _ _ => True) (fun s call hs _ => ?_) ?_ hstart
    (.of_forall (fun _ _ => trivial) calls)
  · exact caseFollows_iff_flag hs call
  · intro s call s' hs _ _ hstep
    obtain ⟨s₁, hstep₁, hholds⟩ := shiftStep_holds hs call
    exact Option.some_inj.1 (hstep₁.symm.trans hstep) ▸ hholds

/-- A is typed before Shift is pressed, and B while it is held. -/
theorem caseFollows_iff_bump :
    Along (shiftStep bump.toHeapOps) (CaseFollows bump) (ShiftRun.initial bump.initial)
      [.inputCallback ⟨.a, false⟩, .inputCallback ⟨.leftShift, false⟩, .inputCallback ⟨.b, false⟩,
        .inputCallback ⟨.leftShift, true⟩] :=
  (caseFollows_iff bump _).2 (by decide +kernel)

/-- Shift is pressed and released, and A typed. -/
theorem caseFollows_fails :
    ¬Along (shiftStep bump.toHeapOps) (CaseFollows bump) (ShiftRun.initial bump.initial)
      [.inputCallback ⟨.leftShift, false⟩, .inputCallback ⟨.leftShift, true⟩,
        .inputCallback ⟨.a, false⟩] := by
  intro h
  -- what can be said of the state in which A is typed
  have hbefore : (exec (shiftStep bump.toHeapOps) (ShiftRun.initial bump.initial)
      [.inputCallback ⟨.leftShift, false⟩, .inputCallback ⟨.leftShift, true⟩]).map
        (fun s => (s.shell.stopped, shiftHeld s.history, s.shell.echoed,
          (shellStep bump.toHeapOps s.shell (.inputCallback ⟨.a, false⟩)).map Shell.echoed)) =
      some (false, false, [], some [65]) := by decide
  obtain ⟨s, hexec, heq⟩ := Option.map_eq_some_iff.1 hbefore
  simp only [Prod.mk.injEq] at heq
  obtain ⟨hrun, hheld, hnothing, hupper⟩ := heq
  obtain ⟨hfollows, _⟩ := h.suffix hexec
  obtain ⟨shell, hstep, hecho, _⟩ := hfollows .a ⟨rfl, by decide, hrun⟩
  rw [hstep, Option.map_some, hecho, hnothing, hheld] at hupper
  exact absurd hupper (by decide)

end Ssos
