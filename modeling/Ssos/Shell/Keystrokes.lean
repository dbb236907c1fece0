import Ssos.Drivers.KeyboardPort
import Ssos.Drivers.ScancodeStreams
import Ssos.Shell.MainLoop

/-!
# From the keyboard to the shell

The keyboard, the interrupt controllers, the driver with its event buffer, the
callback and the main loop of `shell_init`, in any interleaving. The loop runs
between two handlers only.

## Main results

- `keystrokes_reach_shell` — the system refines the shell with whole key events
-/

namespace Ssos

open Allocation InterruptController PartialRun RingQueue Transducer

section System
variable {H : Type*}

/-- `shell_input_callback` called by the driver. A call of `stop` does not
return. -/
def shellCallback (ops : HeapOps H) (event : KeyboardEvent) (s : ShellLoop H) :
    Option (ShellLoop H) :=
  (shellLoopRun ops s (.key event)).filter fun s => !s.shell.stopped

inductive SystemOp
  | port (op : PortOp)
  | loop

def systemStep (ops : HeapOps H) (s : IrqSystem (KeyboardPort (ShellLoop H))) :
    SystemOp → Option (IrqSystem (KeyboardPort (ShellLoop H)))
  | .port op => portStep (shellCallback ops) s op
  | .loop =>
    match s.phase with
    | .idle => (shellLoopRun ops s.device.client .loop).map fun client =>
        { s with device := { s.device with client } }
    | _ => none

def ShellAction.event? : ShellAction → Option KeyboardEvent
  | .key event => some event
  | .loop => none

/-- Some run of the shell, in which the loop takes its steps between the events
of the bytes, leads to the state. -/
structure Shows (A : Allocator H) (read : List UInt8) (st : Keyboard × ShellLoop H) : Prop where
  callback : st.1.callback = true
  buffers : Buffers st.1 []
  decoder : st.1.decoder = final eventByte read .initial
  reached : ∃ actions, exec (shellLoopRun A.toHeapOps) (.initial A.initial) actions = some st.2 ∧
    actions.filterMap ShellAction.event? = eventsOf read .initial

section Steps
variable {A : Allocator H} {read : List UInt8} {st st' : Keyboard × ShellLoop H}

/-- The loop takes a step. -/
theorem Shows.loop (h : Shows A read st) {client : ShellLoop H}
    (hloop : shellLoopRun A.toHeapOps st.2 .loop = some client) : Shows A read (st.1, client) := by
  obtain ⟨actions, hexec, hevents⟩ := h.reached
  refine ⟨h.callback, h.buffers, h.decoder, actions ++ [.loop], exec_snoc hexec hloop, ?_⟩
  rw [List.filterMap_append, hevents]
  exact List.append_nil _

theorem eventsOf_concat (read : List UInt8) (b : UInt8) (d : Decoder) :
    eventsOf (read ++ [b]) d =
      eventsOf read d ++ (handledEvent b (final eventByte read d)).toList := by
  rw [eventsOf, outputs_append]
  exact congrArg (eventsOf read d ++ ·) (List.append_nil _)

theorem Shows.drives (A : Allocator H) : Drives (shellCallback A.toHeapOps) (Shows A) := by
  intro read b st st' h hbyte
  have hbuf : Buffers (st.1.advance b) [] := h.buffers.congr rfl rfl rfl
  obtain ⟨actions, hexec, hevents⟩ := h.reached
  have hdec : nextDecoder b st.1.decoder = final eventByte (read ++ [b]) .initial := by
    rw [h.decoder, final_append]
    rfl
  rw [handleByte] at hbyte
  cases he : handledEvent b st.1.decoder with
  | none =>
    rw [irqHandler_none he] at hbyte
    obtain rfl := Option.some_inj.1 hbyte
    refine ⟨h.callback, hbuf, hdec, actions, hexec, ?_⟩
    rw [eventsOf_concat, ← h.decoder, he, hevents]
    exact (List.append_nil _).symm
  | some event =>
    obtain ⟨k, hpush, hk, hcb, hd⟩ := hbuf.pushEvent_deliver h.callback (push_of_lt (by decide))
    rw [irqHandler_some he, hpush] at hbyte
    obtain ⟨client, hclient, rfl⟩ := Option.map_eq_some_iff.1 hbyte
    obtain ⟨hrun, -⟩ := Option.filter_eq_some_iff.1 hclient
    refine ⟨hcb, hk, hd.trans hdec, actions ++ [.key event], exec_snoc hexec hrun, ?_⟩
    rw [eventsOf_concat, ← h.decoder, he, List.filterMap_append, hevents]
    rfl

theorem PortInv.systemStep {s s' : IrqSystem (KeyboardPort (ShellLoop H))}
    (h : PortInv (Shows A) s) {op : SystemOp} (hstep : systemStep A.toHeapOps s op = some s') :
    PortInv (Shows A) s' := by
  cases op with
  | port op => exact h.step (Shows.drives A) hstep
  | loop =>
    rw [Ssos.systemStep] at hstep
    cases hphase : s.phase with
    | idle =>
      have heoi := h.eoi
      have hquiet := h.quiet
      have hfull := h.full
      have honce := h.once
      rw [hphase] at hstep heoi hquiet hfull honce
      obtain ⟨client, hloop, rfl⟩ := Option.map_eq_some_iff.1 hstep
      exact ⟨⟨h.ready, heoi, hquiet, h.accepted, h.accounted⟩, hfull, honce, h.sent,
        h.driven.loop hloop⟩
    | driver irqNum =>
      rw [hphase] at hstep
      exact absurd hstep (Option.some_ne_none s').symm
    | eoi writes =>
      rw [hphase] at hstep
      exact absurd hstep (Option.some_ne_none s').symm

/-- The line buffer is sound at every step, whether or not the resets come in time. -/
theorem shellLoopRun_line {s : ShellLoop H} (hs : LineHolds A s.shell) (action : ShellAction) :
    ∃ s', shellLoopRun A.toHeapOps s action = some s' ∧ LineHolds A s'.shell := by
  unfold shellLoopRun
  cases hstopped : s.shell.stopped with
  | true => exact ⟨s, rfl, hs⟩
  | false =>
    cases action with
    | key event =>
      obtain ⟨shell, hres, hholds, _⟩ := shellInputCallback_spec hs hstopped event
      simp only [hres]
      exact ⟨_, rfl, hholds⟩
    | loop =>
      rw [if_neg Bool.false_ne_true, shellLoopStep]
      cases s.pc with
      | displayPrompt => exact ⟨_, rfl, hs⟩
      | waitForInterrupts => exact ⟨_, rfl, hs⟩
      | testConfirmed =>
        by_cases hflag : s.shell.promptConfirmed = true
        · exact ⟨_, if_pos hflag, ⟨hs.size_le, hs.buffer, hs.stop_le, hs.capacity⟩, hs.bytes⟩
        · exact ⟨_, if_neg hflag, hs⟩
      | resetPromptBuffer =>
        obtain ⟨shell, hres, hholds, _⟩ := shellResetPromptBuffer_spec hs hstopped
        rw [hres]
        exact ⟨_, rfl, hholds⟩

theorem Shows.line (h : Shows A read st) : LineHolds A st.2.shell := by
  obtain ⟨actions, hexec, -⟩ := h.reached
  have hkeep : ∀ action ∈ actions, ∀ s s' : ShellLoop H, LineHolds A s.shell →
      shellLoopRun A.toHeapOps s action = some s' → LineHolds A s'.shell := by
    intro action _ s s' hs hstep
    obtain ⟨t, ht, hline⟩ := shellLoopRun_line hs action
    exact Option.some_inj.1 (ht.symm.trans hstep) ▸ hline
  exact exec_keeps hkeep initial_holds hexec

end Steps

/-- The events that are handled are those decoded, without the unknown keys. -/
theorem eventsOf_eq_filter (bytes : List UInt8) (d : Decoder) :
    eventsOf bytes d = (decode bytes d).filter fun event => event.keycode ≠ .unknown := by
  induction bytes generalizing d with
  | nil => rfl
  | cons b bytes ih =>
    have hhead : (handledEvent b d).toList =
        (decodeByte b d).1.filter fun event => event.keycode ≠ .unknown := by
      rw [handledEvent, decodeByte]
      by_cases hnone : (keyboardTranslateScancode b d).1.keycode = .none
      · simp [hnone]
      · by_cases hunknown : (keyboardTranslateScancode b d).1.keycode = .unknown
        · simp [hunknown]
        · simp [hnone, hunknown]
    have htail := ih (keyboardTranslateScancode b d).2
    rw [eventsOf, decode, outputs, outputs, List.filter_append, ← hhead]
    exact congrArg ((handledEvent b d).toList ++ ·) htail

/-- Ordinary keys have events of their own. -/
theorem eventsOf_streamBytes {keys : List KeyAction} (hkeys : ∀ a ∈ keys, a.Known) :
    eventsOf (streamBytes keys) .initial = keys.map KeyAction.event := by
  rw [eventsOf_eq_filter, decode, (streamBytes_loops hkeys).outputs, List.filter_eq_self]
  intro event hevent
  obtain ⟨a, ha, rfl⟩ := List.mem_map.1 hevent
  exact decide_eq_true (hkeys a ha).1

/-- **Keystrokes reach the shell.** Every run of the hardware, the driver and the
main loop is a run of the shell alone, in which whole key events come between
two steps of the loop: the events are those of the bytes read, in order. When
nothing is left to be handled they are the keys that were pressed and released.
The line buffer is sound all the time, and the loop is never stuck. -/
theorem keystrokes_reach_shell (A : Allocator H) {events : List BusEvent}
    (hinit : events.filterMap BusEvent.write? = picInit) {pics : Pair}
    (hpending : (events.foldl busStep pics).pending 1 = false) {ops : List SystemOp}
    {s : IrqSystem (KeyboardPort (ShellLoop H))}
    (hrun : exec (systemStep A.toHeapOps) (KeyboardPort.boot (events.foldl busStep pics)
      (keyboardInstallEventCallback .initial) (.initial A.initial)) ops = some s) :
    (∃ actions, exec (shellLoopRun A.toHeapOps) (.initial A.initial) actions = some s.device.client ∧
      actions.filterMap ShellAction.event? = eventsOf s.device.read .initial) ∧
    (∀ keys : List KeyAction, (∀ a ∈ keys, a.Known) → s.device.sent = streamBytes keys →
      s.phase = .idle → s.pics.pending 1 = false →
        eventsOf s.device.read .initial = keys.map KeyAction.event) ∧
    LineHolds A s.device.client.shell ∧
    (s.phase = .idle → ∃ s', systemStep A.toHeapOps s .loop = some s') := by
  obtain ⟨hready, hquiet⟩ := picInit_ready hinit pics
  have hstart : Shows A [] (keyboardInstallEventCallback .initial, .initial A.initial) :=
    ⟨rfl, Buffers.initial.congr rfl rfl rfl, rfl, [], rfl, rfl⟩
  have hinv := exec_keeps (fun _ _ _ _ hs hstep => PortInv.systemStep hs hstep)
    (PortInv.boot hready hquiet hpending hstart) hrun
  refine ⟨hinv.driven.reached, fun keys hkeys hsent hidle hnone => ?_, hinv.driven.line,
    fun hidle => ?_⟩
  · have hempty : s.device.outputFull = false := by
      rw [Bool.eq_false_iff]
      intro hfull
      rcases hinv.full.1 hfull with hp | hp
      · exact Bool.false_ne_true (hnone.symm.trans hp)
      · exact IrqPhase.noConfusion (hidle.symm.trans hp)
    have hread := hinv.sent
    rw [hempty, if_neg Bool.false_ne_true, List.append_nil] at hread
    rw [← hread, hsent, eventsOf_streamBytes hkeys]
  · obtain ⟨client, hloop, -⟩ := shellLoopRun_line hinv.driven.line .loop
    rw [systemStep, hidle]
    exact ⟨_, congrArg (Option.map _) hloop⟩

theorem keystrokes_reach_shell_pressA :
    let c : Controller := ⟨fun _ => true, fun _ => true, 0xFF, 0, 0, 0, .icw3, true, false⟩
    let pics := (picInit.map fun w => BusEvent.write w.1 w.2).foldl busStep ⟨c, c⟩
    ∃ s, exec (systemStep bump.toHeapOps)
        (KeyboardPort.boot pics (keyboardInstallEventCallback .initial) (.initial bump.initial))
        [.loop, .port (.send 0x1C), .port (.irq (.accept fun _ => false)), .port (.irq .driver),
          .port (.irq .write), .loop] = some s ∧
      eventsOf s.device.read .initial = [⟨.a, false⟩] := by
  intro c pics
  have hend : (exec (systemStep bump.toHeapOps)
      (KeyboardPort.boot pics (keyboardInstallEventCallback .initial) (.initial bump.initial))
      [.loop, .port (.send 0x1C), .port (.irq (.accept fun _ => false)), .port (.irq .driver),
        .port (.irq .write), .loop]).map (fun s => (s.device.sent, s.phase, s.pics.pending 1)) =
      some ([0x1C], .idle, false) := by
    decide
  obtain ⟨s, hs, hquiet⟩ := Option.map_eq_some_iff.1 hend
  obtain ⟨hsent, hquiet⟩ := Prod.mk.inj hquiet
  obtain ⟨hidle, hnone⟩ := Prod.mk.inj hquiet
  have hknown : ∀ a ∈ [(⟨false, 0x1C, false⟩ : KeyAction)], a.Known := by
    intro a ha
    obtain rfl := List.mem_singleton.1 ha
    exact ⟨by decide, by decide⟩
  have hreach := @keystrokes_reach_shell _ bump _ rfl ⟨c, c⟩ (by decide) _ _ hs
  exact ⟨s, hs, hreach.2.1 _ hknown hsent hidle hnone⟩

end System

end Ssos
