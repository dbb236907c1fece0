import Ssos.Drivers.KeyQueue
import Ssos.Interrupts.Dispatch

/-!
# The keyboard behind its interrupts

`keyboard_irq_handler` of `drivers/keyboard.c` as the driver of interrupt
request 1, with the output buffer of the keyboard controller on the other side.

## Main results

- `keyboard_reads_every_byte` — every byte is read exactly once, in order
-/

namespace Ssos

open InterruptController PartialRun

section Port
variable {S : Type*}

/-- The output buffer of the keyboard controller, the statics of the driver and
the state behind the callback. `sent` are the bytes that the keyboard has put
into the buffer, `read` those that the driver has taken out. -/
structure KeyboardPort (S : Type*) where
  data : UInt8
  outputFull : Bool
  sent : List UInt8
  read : List UInt8
  keyboard : Keyboard
  client : S

/-- `keyboard_irq_handler` on the driver and what the callback works on. -/
def handleByte (callback : KeyboardEvent → S → Option S) (s : Keyboard × S) (scancode : UInt8) :
    Option (Keyboard × S) :=
  match keyboardIrqHandler scancode s.1 with
  | none => none
  | some (none, keyboard) => some (keyboard, s.2)
  | some (some event, keyboard) => (callback event s.2).map fun client => (keyboard, client)

/-- The driver with `inb(KBD_DATA)`, which empties the output buffer. -/
def keyboardIrqDriver (callback : KeyboardEvent → S → Option S) (d : KeyboardPort S) :
    Option (KeyboardPort S) :=
  (handleByte callback (d.keyboard, d.client) d.data).map fun res =>
    { d with outputFull := false, read := d.read ++ [d.data], keyboard := res.1, client := res.2 }

def keyboardDrivers (callback : KeyboardEvent → S → Option S) : IrqDrivers (KeyboardPort S) :=
  idtInstallIrqDriver 1 (keyboardIrqDriver callback) idtIrqDrivers

inductive PortOp
  | send (data : UInt8)
  | irq (op : IrqOp)

/-- The keyboard sends when the output buffer is empty, and line 1 rises with
it. The line belongs to the keyboard; everything else happens at any time. -/
def portStep (callback : KeyboardEvent → S → Option S) (s : IrqSystem (KeyboardPort S)) :
    PortOp → Option (IrqSystem (KeyboardPort S))
  | .send data =>
    if s.device.outputFull then none
    else
      irqStep (keyboardDrivers callback)
        { s with device := { s.device with data, outputFull := true, sent := s.device.sent ++ [data] } }
        (.raise 1)
  | .irq (.raise line) =>
    if line = 1 then none else irqStep (keyboardDrivers callback) s (.raise line)
  | .irq (.withdraw line) =>
    if line = 1 then none else irqStep (keyboardDrivers callback) s (.withdraw line)
  | .irq op => irqStep (keyboardDrivers callback) s op

/-- The output buffer is full from the request up to the driver. `R` relates the
bytes that were read to what has become of them. -/
structure PortInv (R : List UInt8 → Keyboard × S → Prop) (s : IrqSystem (KeyboardPort S)) : Prop
    extends IrqInv s where
  full : s.device.outputFull = true ↔ s.pics.pending 1 = true ∨ s.phase = .driver 1
  once : s.phase = .driver 1 → s.pics.pending 1 = false
  sent : s.device.sent =
    s.device.read ++ if s.device.outputFull then [s.device.data] else []
  driven : R s.device.read (s.device.keyboard, s.device.client)

/-- Handling a byte keeps the relation. -/
def Drives (callback : KeyboardEvent → S → Option S) (R : List UInt8 → Keyboard × S → Prop) : Prop :=
  ∀ read b st st', R read st → handleByte callback st b = some st' → R (read ++ [b]) st'

section Steps
variable {callback : KeyboardEvent → S → Option S} {R : List UInt8 → Keyboard × S → Prop}
  {s s' : IrqSystem (KeyboardPort S)}

theorem PortInv.send (h : PortInv R s) {data : UInt8}
    (hstep : portStep callback s (.send data) = some s') : PortInv R s' := by
  rw [portStep] at hstep
  cases hfull : s.device.outputFull with
  | true =>
    rw [hfull, if_pos rfl] at hstep
    exact absurd hstep (Option.some_ne_none s').symm
  | false =>
    rw [hfull, if_neg Bool.false_ne_true] at hstep
    have hempty := (not_congr h.full).1 (by rw [hfull]; exact Bool.false_ne_true)
    have hinv : IrqInv ({ s with device := { s.device with
        data, outputFull := true, sent := s.device.sent ++ [data] } } : IrqSystem (KeyboardPort S)) :=
      ⟨h.ready, h.eoi, h.quiet, h.accepted, h.accounted⟩
    have hnext := hinv.raise hstep
    have hsent := h.sent
    rw [hfull, if_neg Bool.false_ne_true, List.append_nil] at hsent
    obtain rfl := Option.some_inj.1 hstep
    refine ⟨hnext, ⟨fun _ => Or.inl ?_, fun _ => rfl⟩, fun hphase => ?_, ?_, h.driven⟩
    · rw [Pair.pending_setLine, Function.update_self]
    · exact absurd (Or.inr hphase) hempty
    · simp only [hsent, if_true]

/-- Other lines do not touch the port. -/
theorem PortInv.setLine (h : PortInv R s) {line : ℕ} (hline : line ≠ 1) {level : Bool}
    (hinv : IrqInv s') (hpics : s'.pics = s.pics.setLine line level) (hphase : s'.phase = s.phase)
    (hdevice : s'.device = s.device) : PortInv R s' := by
  have hpending : s'.pics.pending 1 = s.pics.pending 1 := by
    rw [hpics, Pair.pending_setLine, Function.update_of_ne hline.symm]
  refine ⟨hinv, ?_, ?_, ?_, ?_⟩
  · rw [hpending, hphase, hdevice]
    exact h.full
  · rw [hpending, hphase]
    exact h.once
  · rw [hdevice]
    exact h.sent
  · rw [hdevice]
    exact h.driven

theorem PortInv.accept (h : PortInv R s) {falling : ℕ → Bool}
    (hstep : irqStep (keyboardDrivers callback) s (.accept falling) = some s') :
    PortInv R s' := by
  have hinv := h.toIrqInv.accept hstep
  obtain ⟨hphase, line, -, pics, hack, rfl⟩ := accept_cases h.toIrqInv hstep
  have hfull := h.full
  rw [hphase] at hfull
  have hbefore : s.device.outputFull = true ↔ s.pics.pending 1 = true :=
    hfull.trans (or_iff_left IrqPhase.noConfusion)
  by_cases hline : line = 1
  · subst hline
    obtain ⟨k, -, hk, hreal⟩ := hack.exists_line
    obtain rfl : 1 = k := Nat.add_left_cancel hk
    obtain ⟨hset, hcleared⟩ := hreal (by decide) (by decide)
    exact ⟨hinv, ⟨fun _ => Or.inr rfl, fun _ => hbefore.2 hset⟩, fun _ => hcleared, h.sent, h.driven⟩
  · have hother : pics.pending 1 = s.pics.pending 1 :=
      hack.pending_of_ne (by decide) (by decide) fun heq => hline (Nat.add_left_cancel heq)
    have hdriver : IrqPhase.driver line ≠ .driver 1 := fun heq => hline (IrqPhase.driver.inj heq)
    refine ⟨hinv, ?_, fun heq => absurd heq hdriver, h.sent, h.driven⟩
    simp only [hother]
    exact hbefore.trans (or_iff_left hdriver).symm

theorem PortInv.driver (h : PortInv R s) (hR : Drives callback R)
    (hstep : irqStep (keyboardDrivers callback) s .driver = some s') :
    PortInv R s' := by
  have hinv := h.toIrqInv.driver hstep
  obtain ⟨irqNum, device, hphase, hdriver, rfl⟩ := driver_cases hstep
  by_cases hone : irqNum = 1
  · subst hone
    rw [keyboardDrivers, idtInstallIrqDriver, Function.update_self] at hdriver
    obtain ⟨res, hbyte, rfl⟩ := Option.map_eq_some_iff.1 hdriver
    have hnone := h.once hphase
    have hsent := h.sent
    rw [if_pos (h.full.2 (Or.inr hphase))] at hsent
    refine ⟨hinv, ⟨fun hf => absurd hf Bool.false_ne_true, ?_⟩, fun heq => IrqPhase.noConfusion heq,
      ?_, hR _ _ _ _ h.driven hbyte⟩
    · rintro (hp | hp)
      · exact absurd (hnone.symm.trans hp) Bool.false_ne_true
      · exact IrqPhase.noConfusion hp
    · simp only [hsent, Bool.false_eq_true, if_false, List.append_nil]
  · rw [keyboardDrivers, idtInstallIrqDriver, Function.update_of_ne hone] at hdriver
    obtain rfl : s.device = device := Option.some_inj.1 hdriver
    have hfull := h.full
    rw [hphase] at hfull
    refine ⟨hinv, hfull.trans ?_, fun heq => IrqPhase.noConfusion heq, h.sent, h.driven⟩
    rw [or_iff_left fun heq => hone (IrqPhase.driver.inj heq), or_iff_left IrqPhase.noConfusion]

theorem PortInv.write (h : PortInv R s)
    (hstep : irqStep (keyboardDrivers callback) s .write = some s') :
    PortInv R s' := by
  have hinv := h.toIrqInv.write hstep
  have heoi := h.eoi
  obtain ⟨write, writes, hphase, rfl⟩ := write_cases hstep
  rw [hphase] at heoi
  have hpending := @Pair.pending_outb s.pics write (heoi write List.mem_cons_self)
  have hnext : (if writes.isEmpty then IrqPhase.idle else .eoi writes) ≠ .driver 1 := by
    cases writes <;> exact IrqPhase.noConfusion
  have hfull := h.full
  rw [hphase, or_iff_left IrqPhase.noConfusion] at hfull
  refine ⟨hinv, ?_, fun heq => absurd heq hnext, h.sent, h.driven⟩
  simp only [hpending]
  exact hfull.trans (or_iff_left hnext).symm

/-- **Step lemma.** -/
theorem PortInv.step (h : PortInv R s) (hR : Drives callback R) {op : PortOp}
    (hstep : portStep callback s op = some s') : PortInv R s' := by
  cases op with
  | send data => exact h.send hstep
  | irq op =>
    cases op with
    | raise line =>
      rw [portStep] at hstep
      split at hstep
      next => exact absurd hstep (Option.some_ne_none s').symm
      next hline =>
        have hinv := h.toIrqInv.raise hstep
        obtain rfl := Option.some_inj.1 hstep
        exact h.setLine hline hinv rfl rfl rfl
    | withdraw line =>
      rw [portStep] at hstep
      split at hstep
      next => exact absurd hstep (Option.some_ne_none s').symm
      next hline =>
        have hinv := h.toIrqInv.withdraw hstep
        obtain rfl := Option.some_inj.1 hstep
        exact h.setLine hline hinv rfl rfl rfl
    | accept falling =>
      have hirq : irqStep (keyboardDrivers callback) s (.accept falling) = some s' := hstep
      exact h.accept hirq
    | driver => exact h.driver hR hstep
    | write =>
      have hirq : irqStep (keyboardDrivers callback) s .write = some s' := hstep
      exact h.write hirq

end Steps

/-- The system when the driver has just been installed: the output buffer is
empty and no request is pending on line 1. -/
def KeyboardPort.boot (pics : Pair) (keyboard : Keyboard) (client : S) :
    IrqSystem (KeyboardPort S) := .boot pics ⟨0, false, [], [], keyboard, client⟩

theorem PortInv.boot {pics : Pair} (hready : pics.Ready 0x20) (hquiet : pics.Quiet)
    (hpending : pics.pending 1 = false) {keyboard : Keyboard} {client : S}
    {R : List UInt8 → Keyboard × S → Prop} (hR : R [] (keyboard, client)) :
    PortInv R (KeyboardPort.boot pics keyboard client) := by
  refine ⟨.boot hready hquiet _, ⟨fun hf => absurd hf Bool.false_ne_true, ?_⟩,
    fun heq => IrqPhase.noConfusion heq, rfl, hR⟩
  rintro (hp | hp)
  · exact absurd (hpending.symm.trans hp) Bool.false_ne_true
  · exact IrqPhase.noConfusion hp

/-- **Every byte is read once.** Whatever else happens on the other lines, the
driver reads the bytes that the keyboard sends, each of them once and in order;
the last one may still stand in the output buffer, and then line 1 requests an
interrupt or its handler is about to run. -/
theorem keyboard_reads_every_byte {events : List BusEvent}
    (hinit : events.filterMap BusEvent.write? = picInit) {pics : Pair}
    (hpending : (events.foldl busStep pics).pending 1 = false)
    {callback : KeyboardEvent → S → Option S} {keyboard : Keyboard} {client : S} {ops : List PortOp}
    {s : IrqSystem (KeyboardPort S)}
    (hrun : exec (portStep callback)
      (KeyboardPort.boot (events.foldl busStep pics) keyboard client) ops = some s) :
    s.device.sent = s.device.read ++ (if s.device.outputFull then [s.device.data] else []) ∧
    (s.device.outputFull = true ↔ s.pics.pending 1 = true ∨ s.phase = .driver 1) ∧
    exec (handleByte callback) (keyboard, client) s.device.read =
      some (s.device.keyboard, s.device.client) := by
  obtain ⟨hready, hquiet⟩ := picInit_ready hinit pics
  have hdrives : Drives callback fun read st =>
      exec (handleByte callback) (keyboard, client) read = some st :=
    fun _ _ _ _ hread hbyte => exec_snoc hread hbyte
  have hinv := exec_keeps (fun _ _ _ _ hs hstep => PortInv.step hs hdrives hstep)
    (PortInv.boot hready hquiet hpending rfl) hrun
  exact ⟨hinv.sent, hinv.full, hinv.driven⟩

theorem keyboard_reads_every_byte_pressA :
    let c : Controller := ⟨fun _ => true, fun _ => true, 0xFF, 0, 0, 0, .icw3, true, false⟩
    let pics := (picInit.map fun w => BusEvent.write w.1 w.2).foldl busStep ⟨c, c⟩
    ∃ s, exec (portStep fun _ u => some u) (KeyboardPort.boot pics .initial ())
        [.send 0x1C, .irq (.raise 0), .irq (.accept fun _ => false), .irq .driver, .irq .write,
          .irq (.accept fun _ => false), .irq .driver, .send 0xF0] = some s ∧
      s.device.sent = s.device.read ++ [0xF0] := by
  intro c pics
  obtain ⟨s, hs, hfull⟩ : ∃ s, exec (portStep fun _ u => some u)
      (KeyboardPort.boot pics .initial ())
      [.send 0x1C, .irq (.raise 0), .irq (.accept fun _ => false), .irq .driver, .irq .write,
        .irq (.accept fun _ => false), .irq .driver, .send 0xF0] = some s ∧
      (s.device.outputFull, s.device.data) = (true, 0xF0) :=
    Option.map_eq_some_iff.1 (by decide)
  have hsent := (@keyboard_reads_every_byte _ _ rfl ⟨c, c⟩ (by decide) _ _ _ _ _ hs).1
  obtain ⟨htrue, hdata⟩ := Prod.mk.inj hfull
  rw [htrue, hdata, if_pos rfl] at hsent
  exact ⟨s, hs, hsent⟩

end Port

end Ssos
