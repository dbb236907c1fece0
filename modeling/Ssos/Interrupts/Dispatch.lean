import Ssos.Foundations.PartialRuns
import Ssos.Interrupts.Pic
import Ssos.Interrupts.Stubs

/-!
# Interrupt requests and their drivers

`idt_irq_drivers`, `idt_irq_handler` and `idt_install_irq_driver` of
`interrupts/idt.c`, with the controllers on one side and the drivers on the
other. Interrupts are switched off while a handler runs, but requests come in
at any time.

## Main results

- `interrupts_of_run` — no request is lost, accepted twice or left in service
-/

namespace Ssos

open InterruptController PartialRun

section Dispatch
variable {D : Type*}

/-- `idt_irq_drivers`: what a driver does to the device and its own variables. -/
abbrev IrqDrivers (D : Type*) := ℕ → D → Option D

def idtDefaultIrqHandler (device : D) : Option D := some device

def idtIrqDrivers : IrqDrivers D := fun _ => idtDefaultIrqHandler

def idtInstallIrqDriver (irqNum : ℕ) (handler : D → Option D) (drivers : IrqDrivers D) :
    IrqDrivers D := Function.update drivers irqNum handler

/-- What `idt_irq_handler` has still to do. -/
inductive IrqPhase
  | idle
  | driver (irqNum : ℕ)
  | eoi (writes : List PortWrite)
deriving DecidableEq

/-- The ends of interrupt that are still to be sent. -/
def IrqPhase.writes : IrqPhase → List PortWrite
  | .idle => []
  | .driver irqNum => picSendEoi irqNum
  | .eoi writes => writes

/-- The controllers, the handler and the device. The last three fields count
the requests that have been latched, those withdrawn since, and list those that
the processor has accepted: the driver of each is the next to run. -/
structure IrqSystem (D : Type*) where
  pics : Pair
  phase : IrqPhase
  device : D
  latched : ℕ → ℕ
  withdrawn : ℕ → ℕ
  accepted : List ℕ

/-- Everything that can happen, in any order. -/
inductive IrqOp
  | raise (line : ℕ)
  | withdraw (line : ℕ)
  | accept (falling : ℕ → Bool)
  | driver
  | write

def irqStep (drivers : IrqDrivers D) (s : IrqSystem D) : IrqOp → Option (IrqSystem D)
  | .raise line => some { s with
      pics := s.pics.setLine line true
      latched := if s.pics.pending line then s.latched
        else Function.update s.latched line (s.latched line + 1) }
  | .withdraw line => some { s with
      pics := s.pics.setLine line false
      withdrawn := if s.pics.pending line then
          Function.update s.withdrawn line (s.withdrawn line + 1)
        else s.withdrawn }
  | .accept falling =>
    match s.phase with
    | .idle =>
      let (vector, pics) := s.pics.acknowledge falling
      let irqNum := vectorNumber vector
      some { s with
        pics
        phase := .driver irqNum
        withdrawn := fun line =>
          if line ≠ irqNum ∧ s.pics.pending line = true ∧ pics.pending line = false then
            s.withdrawn line + 1
          else s.withdrawn line
        accepted := s.accepted ++ [irqNum] }
    | _ => none
  | .driver =>
    match s.phase with
    | .driver irqNum =>
      (drivers irqNum s.device).map fun device =>
        { s with device, phase := .eoi (picSendEoi irqNum) }
    | _ => none
  | .write =>
    match s.phase with
    | .eoi (write :: writes) => some { s with
        pics := s.pics.outb write.1 write.2
        phase := if writes.isEmpty then .idle else .eoi writes }
    | _ => none

/-- The system behind `pic_init`. -/
def IrqSystem.boot (pics : Pair) (device : D) : IrqSystem D :=
  ⟨pics, .idle, device, fun line => (pics.pending line).toNat, fun _ => 0, []⟩

/-- The requests of a line are all accounted for. A spurious interrupt comes
with the number 7 or 15. -/
def Accounted (s : IrqSystem D) (line : ℕ) : Prop :=
  let settled := s.accepted.count line + s.withdrawn line + (s.pics.pending line).toNat
  s.latched line ≤ settled ∧ (line ≠ 7 → line ≠ 15 → s.latched line = settled)

structure IrqInv (s : IrqSystem D) : Prop where
  ready : s.pics.Ready 0x20
  eoi : ∀ write ∈ s.phase.writes, Pair.IsEoi write
  quiet : (s.pics.outbs s.phase.writes).Quiet
  accepted : ∀ irqNum ∈ s.accepted, irqNum < 16
  accounted : ∀ line, Accounted s line

section Steps
variable {drivers : IrqDrivers D} {s s' : IrqSystem D}

theorem picSendEoi_eq_endOf (irqNum : ℕ) : picSendEoi irqNum = Pair.endOf irqNum := by
  rw [picSendEoi, Pair.endOf]
  by_cases hlt : irqNum < 8
  · rw [if_pos hlt, if_neg (Nat.not_le_of_lt hlt)]
    rfl
  · rw [if_neg hlt, if_pos (Nat.le_of_not_lt hlt)]
    rfl

theorem IrqInv.boot {pics : Pair} (hready : pics.Ready 0x20) (hquiet : pics.Quiet) (device : D) :
    IrqInv (.boot pics device) where
  ready := hready
  eoi _ h := absurd h List.not_mem_nil
  quiet := hquiet
  accepted _ h := absurd h List.not_mem_nil
  accounted line := by simp [Accounted, IrqSystem.boot]

theorem IrqInv.raise (h : IrqInv s) {line : ℕ} (hstep : irqStep drivers s (.raise line) = some s') :
    IrqInv s' := by
  obtain rfl := Option.some_inj.1 hstep
  refine ⟨h.ready.setLine line true, h.eoi,
    (Pair.sameService_setLine line true s.pics).quiet_outbs h.eoi h.quiet, h.accepted, fun n => ?_⟩
  have hn := h.accounted n
  simp only [Accounted, Pair.pending_setLine] at hn ⊢
  by_cases hline : n = line
  · subst hline
    rw [Function.update_self]
    cases hp : s.pics.pending n with
    | true => simpa only [hp, if_true] using hn
    | false =>
      rw [hp] at hn
      rw [if_neg Bool.false_ne_true, Function.update_self]
      simp only [Bool.toNat_true, Bool.toNat_false] at hn ⊢
      exact ⟨by omega, fun h7 h15 => by rw [hn.2 h7 h15]⟩
  · rw [Function.update_of_ne hline]
    split
    next => exact hn
    next => rwa [Function.update_of_ne hline]

theorem IrqInv.withdraw (h : IrqInv s) {line : ℕ}
    (hstep : irqStep drivers s (.withdraw line) = some s') : IrqInv s' := by
  obtain rfl := Option.some_inj.1 hstep
  refine ⟨h.ready.setLine line false, h.eoi,
    (Pair.sameService_setLine line false s.pics).quiet_outbs h.eoi h.quiet, h.accepted, fun n => ?_⟩
  have hn := h.accounted n
  simp only [Accounted, Pair.pending_setLine] at hn ⊢
  by_cases hline : n = line
  · subst hline
    rw [Function.update_self]
    cases hp : s.pics.pending n with
    | true =>
      rw [hp] at hn
      rw [if_pos rfl, Function.update_self]
      simp only [Bool.toNat_true, Bool.toNat_false] at hn ⊢
      exact ⟨by omega, fun h7 h15 => by rw [hn.2 h7 h15]; omega⟩
    | false => simpa only [hp, Bool.false_eq_true, if_false] using hn
  · rw [Function.update_of_ne hline]
    split
    next => rwa [Function.update_of_ne hline]
    next => exact hn

/-- What an accepted interrupt does. -/
theorem accept_cases (h : IrqInv s) {falling : ℕ → Bool}
    (hstep : irqStep drivers s (.accept falling) = some s') :
    s.phase = .idle ∧ ∃ line < 16, ∃ pics,
      Pair.Acknowledged 0x20 falling s.pics (0x20 + line, pics) ∧
      s' = { s with
        pics
        phase := .driver line
        withdrawn := fun n =>
          if n ≠ line ∧ s.pics.pending n = true ∧ pics.pending n = false then s.withdrawn n + 1
          else s.withdrawn n
        accepted := s.accepted ++ [line] } := by
  rw [irqStep] at hstep
  cases hphase : s.phase with
  | idle =>
    have hquiet := h.quiet
    rw [hphase] at hquiet hstep
    have hack := h.ready.acknowledged hquiet falling
    generalize s.pics.acknowledge falling = result at hack hstep
    obtain ⟨vector, pics⟩ := result
    obtain ⟨line, hline, rfl, -⟩ := hack.exists_line
    have hnumber : vectorNumber (0x20 + line) = line := by
      rw [vectorNumber, if_neg (by omega), Nat.add_sub_cancel_left]
    simp only [hnumber] at hstep
    exact ⟨rfl, line, hline, pics, hack, (Option.some_inj.1 hstep).symm⟩
  | driver irqNum =>
    rw [hphase] at hstep
    exact absurd hstep (Option.some_ne_none s').symm
  | eoi writes =>
    rw [hphase] at hstep
    exact absurd hstep (Option.some_ne_none s').symm

theorem IrqInv.accept (h : IrqInv s) {falling : ℕ → Bool}
    (hstep : irqStep drivers s (.accept falling) = some s') : IrqInv s' := by
  obtain ⟨hphase, line, hline, pics, hack, rfl⟩ := accept_cases h hstep
  have hquiet := h.quiet
  rw [hphase] at hquiet
  have hend := hack.quiet_outbs hquiet
  rw [Nat.add_sub_cancel_left, ← picSendEoi_eq_endOf] at hend
  refine ⟨hack.ready h.ready, fun write => isEoi_of_mem_picSendEoi, hend, ?_, fun n => ?_⟩
  · intro irqNum hmem
    rcases List.mem_append.1 hmem with hold | hnew
    · exact h.accepted irqNum hold
    · exact List.mem_singleton.1 hnew ▸ hline
  · have hn := h.accounted n
    have hmono : pics.pending n = true → s.pics.pending n = true := hack.pending_of_pending
    simp only [Accounted, List.count_append, List.count_singleton] at hn ⊢
    by_cases hsame : n = line
    · subst hsame
      have hreal : n ≠ 7 → n ≠ 15 → s.pics.pending n = true ∧ pics.pending n = false := by
        obtain ⟨k, -, hk, hreal⟩ := hack.exists_line
        obtain rfl : n = k := Nat.add_left_cancel hk
        exact hreal
      rw [if_pos (beq_self_eq_true n), if_neg fun hc => hc.1 rfl]
      have hle := Bool.toNat_le (s.pics.pending n)
      refine ⟨by omega, fun h7 h15 => ?_⟩
      obtain ⟨hbefore, hafter⟩ := hreal h7 h15
      rw [hn.2 h7 h15, hbefore, hafter]
      simp only [Bool.toNat_true, Bool.toNat_false]
      omega
    · rw [if_neg fun hc => hsame (beq_iff_eq.1 hc).symm]
      cases hafter : pics.pending n with
      | true =>
        rw [hmono hafter] at hn
        rw [if_neg fun hc => Bool.false_ne_true hc.2.2.symm]
        exact hn
      | false =>
        cases hbefore : s.pics.pending n with
        | true =>
          rw [hbefore] at hn
          rw [if_pos ⟨hsame, rfl, rfl⟩]
          simp only [Bool.toNat_true, Bool.toNat_false] at hn ⊢
          exact ⟨by omega, fun h7 h15 => by rw [hn.2 h7 h15]; omega⟩
        | false =>
          rw [hbefore] at hn
          rw [if_neg fun hc => Bool.false_ne_true hc.2.1]
          exact hn

theorem driver_cases (hstep : irqStep drivers s .driver = some s') :
    ∃ irqNum device, s.phase = .driver irqNum ∧ drivers irqNum s.device = some device ∧
      s' = { s with device, phase := .eoi (picSendEoi irqNum) } := by
  rw [irqStep] at hstep
  cases hphase : s.phase with
  | driver irqNum =>
    rw [hphase] at hstep
    obtain ⟨device, hdevice, rfl⟩ := Option.map_eq_some_iff.1 hstep
    exact ⟨irqNum, device, rfl, hdevice, rfl⟩
  | idle =>
    rw [hphase] at hstep
    exact absurd hstep (Option.some_ne_none s').symm
  | eoi writes =>
    rw [hphase] at hstep
    exact absurd hstep (Option.some_ne_none s').symm

theorem write_cases (hstep : irqStep drivers s .write = some s') :
    ∃ write writes, s.phase = .eoi (write :: writes) ∧
      s' = { s with
        pics := s.pics.outb write.1 write.2
        phase := if writes.isEmpty then .idle else .eoi writes } := by
  rw [irqStep] at hstep
  cases hphase : s.phase with
  | eoi writes =>
    rw [hphase] at hstep
    cases writes with
    | nil => exact absurd hstep (Option.some_ne_none s').symm
    | cons write writes => exact ⟨write, writes, rfl, (Option.some_inj.1 hstep).symm⟩
  | idle =>
    rw [hphase] at hstep
    exact absurd hstep (Option.some_ne_none s').symm
  | driver irqNum =>
    rw [hphase] at hstep
    exact absurd hstep (Option.some_ne_none s').symm

theorem IrqInv.driver (h : IrqInv s) (hstep : irqStep drivers s .driver = some s') :
    IrqInv s' := by
  obtain ⟨irqNum, device, hphase, -, rfl⟩ := driver_cases hstep
  have hquiet := h.quiet
  rw [hphase] at hquiet
  exact ⟨h.ready, fun write => isEoi_of_mem_picSendEoi, hquiet, h.accepted, h.accounted⟩

theorem IrqInv.write (h : IrqInv s) (hstep : irqStep drivers s .write = some s') : IrqInv s' := by
  obtain ⟨write, writes, hphase, rfl⟩ := write_cases hstep
  have heoi := h.eoi
  have hquiet := h.quiet
  rw [hphase] at heoi hquiet
  have hwrite : Pair.IsEoi write := heoi write List.mem_cons_self
  have hrest : (if writes.isEmpty then IrqPhase.idle else .eoi writes).writes = writes := by
    cases writes <;> rfl
  refine ⟨h.ready.outb hwrite, ?_, ?_, h.accepted, fun line => ?_⟩
  · simp only [hrest]
    exact fun w hw => heoi w (List.mem_cons_of_mem write hw)
  · simp only [hrest]
    exact hquiet
  · simp only [Accounted, Pair.pending_outb hwrite]
    exact h.accounted line

/-- **Step lemma.** -/
theorem IrqInv.step (h : IrqInv s) {op : IrqOp} (hstep : irqStep drivers s op = some s') :
    IrqInv s' := by
  cases op with
  | raise line => exact h.raise hstep
  | withdraw line => exact h.withdraw hstep
  | accept falling => exact h.accept hstep
  | driver => exact h.driver hstep
  | write => exact h.write hstep

/-- **Run lemma.** -/
theorem IrqInv.run {ops : List IrqOp} (h : IrqInv s) (hrun : exec (irqStep drivers) s ops = some s') :
    IrqInv s' :=
  exec_keeps (fun _ _ _ _ hs hstep => hs.step hstep) h hrun

end Steps

/-- **No interrupt is lost.** From `pic_init` on, whatever the drivers do and in
whatever order requests come and go: between two handlers nothing is in service,
so that the next interrupt is the pending request of the highest priority, and a
line has been accepted once for each of its requests that is neither pending nor
withdrawn. Only the lines 7 and 15 are accepted for nothing, too. -/
theorem interrupts_of_run {events : List BusEvent}
    (hinit : events.filterMap BusEvent.write? = picInit) (pics : Pair) (device : D)
    (drivers : IrqDrivers D) {ops : List IrqOp} {s : IrqSystem D}
    (hrun : exec (irqStep drivers) (.boot (events.foldl busStep pics) device) ops = some s) :
    (s.phase = .idle → s.pics.Quiet ∧ (s.pics.acknowledge fun _ => false).1 =
      Pair.vectorOf 0x20 (Pair.priorityOrder.find? s.pics.pending)) ∧
    (∀ irqNum ∈ s.accepted, irqNum < 16) ∧
    ∀ line, line ≠ 7 → line ≠ 15 → s.latched line =
      s.accepted.count line + s.withdrawn line + (s.pics.pending line).toNat := by
  obtain ⟨hready, hquiet⟩ := picInit_ready hinit pics
  have hinv := (IrqInv.boot hready hquiet device).run hrun
  refine ⟨fun hidle => ?_, hinv.accepted, fun line => (hinv.accounted line).2⟩
  have hquiet' := hinv.quiet
  rw [hidle] at hquiet'
  exact ⟨hquiet', hinv.ready.acknowledge_first hquiet'⟩

theorem interrupts_of_run_timer :
    let c : Controller := ⟨fun _ => true, fun _ => true, 0xFF, 0, 0, 0, .icw3, true, false⟩
    let pics := (picInit.map fun w => BusEvent.write w.1 w.2).foldl busStep ⟨c, c⟩
    ∃ s, exec (irqStep idtIrqDrivers) (.boot pics ())
        [.raise 0, .raise 9, .accept fun _ => false, .driver, .write] = some s ∧
      s.latched 0 = s.accepted.count 0 + s.withdrawn 0 + (s.pics.pending 0).toNat := by
  intro c pics
  obtain ⟨s, hs⟩ : ∃ s, exec (irqStep idtIrqDrivers) (.boot pics ())
      [.raise 0, .raise 9, .accept fun _ => false, .driver, .write] = some s :=
    Option.isSome_iff_exists.1 (by decide)
  exact ⟨s, hs, (interrupts_of_run rfl ⟨c, c⟩ () idtIrqDrivers hs).2.2 0 (by decide) (by decide)⟩

end Dispatch

end Ssos
