import Ssos.Shell.LineBuffer

/-!
# The main loop of the shell

The loop of `shell_init` takes its steps while key interrupts arrive between
them. The only link between the two is `shell_prompt_confirmed`: a letter that
is typed behind an Enter is lost when the loop has not yet cleared the line.

## Main results

- `linesSeparated_of_run` — resets that come before the next letter separate the lines
- `linesSeparated_fails` — a letter typed before the loop reacts
-/

namespace Ssos

open Allocation PartialRun

/-- Where the loop stands: about to display the prompt, to wait for an
interrupt, to test and clear the flag, or to reset the buffer. -/
inductive LoopPc
  | displayPrompt
  | waitForInterrupts
  | testConfirmed
  | resetPromptBuffer
deriving DecidableEq

/-- The shell and its loop. `typed` is bookkeeping: the letters typed since the
most recent Enter. -/
structure ShellLoop (H : Type*) where
  shell : Shell H
  pc : LoopPc
  typed : List UInt8

/-- The callback has just been installed. -/
def ShellLoop.initial {H : Type*} (heap : H) : ShellLoop H := ⟨.initial heap, .displayPrompt, []⟩

inductive ShellAction
  | key (event : KeyboardEvent)
  | loop
deriving DecidableEq

section Code
variable {H : Type*} (ops : HeapOps H)

/-- One step of the loop. -/
def shellLoopStep (s : ShellLoop H) : Option (ShellLoop H) :=
  match s.pc with
  | .displayPrompt => some { s with pc := .waitForInterrupts }
  | .waitForInterrupts => some { s with pc := .testConfirmed }
  | .testConfirmed =>
    if s.shell.promptConfirmed then
      some { s with shell := { s.shell with promptConfirmed := false }, pc := .resetPromptBuffer }
    else some { s with pc := .waitForInterrupts }
  | .resetPromptBuffer =>
    match shellResetPromptBuffer ops s.shell with
    | none => none
    | some shell => some { s with shell, pc := .displayPrompt }

/-- The letters typed since the most recent Enter, after one more event. -/
def typedAfter (shiftIsHeld : Bool) (event : KeyboardEvent) (typed : List UInt8) : List UInt8 :=
  if confirms event then [] else typed ++ typedChars shiftIsHeld event

/-- An event is handled as a whole between two steps of the loop. After `stop`
nothing happens any more. -/
def shellLoopRun (s : ShellLoop H) (action : ShellAction) : Option (ShellLoop H) :=
  if s.shell.stopped then some s
  else
    match action with
    | .loop => shellLoopStep ops s
    | .key event =>
      match shellInputCallback ops event s.shell with
      | none => none
      | some shell =>
        some { s with shell, typed := typedAfter s.shell.shiftIsHeld event s.typed }

end Code

section Lines
variable {H : Type*} (A : Allocator H)

/-- After the actions, if the loop is about to wait and has no confirmation
before it, the line holds the letters typed since the most recent Enter. -/
def LinesSeparated (actions : List ShellAction) : Prop :=
  ∃ s, exec (shellLoopRun A.toHeapOps) (ShellLoop.initial A.initial) actions = some s ∧
    (s.shell.stopped = false → s.pc = .waitForInterrupts → s.shell.promptConfirmed = false →
      lineBytes A s.shell = s.typed)

/-- Where the loop resets the buffer, no letter has been typed since the most
recent Enter. -/
def ResetsInTime (s : ShellLoop H) (action : ShellAction) : Prop :=
  action = .loop → s.pc = .resetPromptBuffer → s.typed = []

instance (s : ShellLoop H) (action : ShellAction) : Decidable (ResetsInTime s action) :=
  inferInstanceAs (Decidable (_ → _ → _))

/-- Unless a reset is due, the characters echoed since the last reset are those
typed since the most recent Enter. -/
structure LoopHolds (s : ShellLoop H) : Prop where
  line : LineHolds A s.shell
  separated : s.shell.stopped = false → s.shell.promptConfirmed = false →
    s.pc ≠ .resetPromptBuffer → s.shell.echoed = s.typed

variable {A} {s : ShellLoop H}

/-- **Step lemma.** -/
theorem shellLoopRun_holds (hs : LoopHolds A s) {action : ShellAction}
    (hreset : ResetsInTime s action) :
    ∃ s', shellLoopRun A.toHeapOps s action = some s' ∧ LoopHolds A s' := by
  unfold shellLoopRun
  cases hstopped : s.shell.stopped with
  | true =>
    rw [if_pos rfl]
    exact ⟨s, rfl, hs⟩
  | false =>
    rw [if_neg Bool.false_ne_true]
    have hline := hs.line
    cases action with
    | key event =>
      obtain ⟨shell, hres, hholds, hconfirmed, hecho⟩ := shellInputCallback_spec hline hstopped event
      simp only [hres]
      refine ⟨_, rfl, hholds, ?_⟩
      intro hrun hclear hpc
      rw [hconfirmed, Bool.or_eq_false_iff] at hclear
      rw [hecho hrun, hs.separated hstopped hclear.2 hpc, typedAfter, hclear.1,
        if_neg Bool.false_ne_true]
    | loop =>
      simp only [shellLoopStep]
      cases hpc : s.pc with
      | displayPrompt =>
        refine ⟨_, rfl, hline, ?_⟩
        intro hrun hclear _
        exact hs.separated hrun hclear (by simp [hpc])
      | waitForInterrupts =>
        refine ⟨_, rfl, hline, ?_⟩
        intro hrun hclear _
        exact hs.separated hrun hclear (by simp [hpc])
      | testConfirmed =>
        simp only
        cases hflag : s.shell.promptConfirmed with
        | true =>
          rw [if_pos rfl]
          refine ⟨_, rfl, ⟨⟨hline.size_le, hline.buffer, hline.stop_le, hline.capacity⟩,
            hline.bytes⟩, ?_⟩
          intro _ _ hne
          exact absurd rfl hne
        | false =>
          rw [if_neg Bool.false_ne_true]
          refine ⟨_, rfl, hline, ?_⟩
          intro hrun hclear _
          exact hs.separated hrun hclear (by simp [hpc])
      | resetPromptBuffer =>
        obtain ⟨shell, hres, hholds, _, _, hecho⟩ := shellResetPromptBuffer_spec hline hstopped
        simp only [hres]
        refine ⟨_, rfl, hholds, ?_⟩
        intro _ _ _
        rw [hecho, hreset rfl hpc]

end Lines

/-- **Lines are separated** in every run in which, at each reset, no letter has
been typed since the most recent Enter. -/
theorem linesSeparated_of_run {H : Type*} (A : Allocator H) {actions : List ShellAction}
    (htime : Along (shellLoopRun A.toHeapOps) ResetsInTime (ShellLoop.initial A.initial) actions) :
    LinesSeparated A actions := by
  have hstart : LoopHolds A (ShellLoop.initial A.initial) := ⟨initial_holds, fun _ _ _ => rfl⟩
  obtain ⟨s, hexec, hs⟩ := htime.exec_invariant (fun s action hs h => shellLoopRun_holds hs h) hstart
  refine ⟨s, hexec, ?_⟩
  intro hrun hpc hclear
  rw [hs.line.bytes hrun]
  exact hs.separated hrun hclear (by simp [hpc])

def pressed (keycode : Key) : ShellAction := .key ⟨keycode, false⟩

/-- A letter, Enter, the reaction of the loop, and another letter. -/
theorem linesSeparated_of_run_slow :
    LinesSeparated bump
      [.loop, pressed .a, pressed .enter, .loop, .loop, .loop, .loop, pressed .b] := by
  apply linesSeparated_of_run
  decide

/-- A letter, Enter and another letter, before the loop reacts. -/
theorem linesSeparated_fails :
    ¬LinesSeparated bump
      [.loop, pressed .a, pressed .enter, pressed .b, .loop, .loop, .loop, .loop] := by
  have hrun : (exec (shellLoopRun bump.toHeapOps) (ShellLoop.initial bump.initial)
      [.loop, pressed .a, pressed .enter, pressed .b, .loop, .loop, .loop, .loop]).map
        (fun s => (s.shell.stopped, s.pc, s.shell.promptConfirmed, lineBytes bump s.shell, s.typed)) =
      some (false, .waitForInterrupts, false, [], [98]) := by decide
  rintro ⟨s, hexec, hsep⟩
  rw [hexec, Option.map_some, Option.some_inj] at hrun
  simp only [Prod.mk.injEq] at hrun
  obtain ⟨hstopped, hpc, hclear, hline, htyped⟩ := hrun
  have heq := hsep hstopped hpc hclear
  rw [hline, htyped] at heq
  exact absurd heq (by decide)

end Ssos
