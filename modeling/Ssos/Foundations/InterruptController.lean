import Mathlib.Data.List.Range
import Mathlib.Logic.Function.Basic

/-!
# A pair of interrupt controllers

Two programmable interrupt controllers of the 8259 kind, the second of them
cascaded on line 2 of the first. Requests are latched at their edges. A request
is acknowledged when it has the highest priority among those that are neither
masked nor blocked by an interrupt in service; a line that falls too late makes
a spurious interrupt.

## Main results

- `Pair.Ready.acknowledged` — what a quiet pair hands over
- `Pair.Ready.acknowledge_first` — requests are served in the order of their priorities
- `Pair.Acknowledged.quiet_outbs` — after its end of interrupt nothing is in service
-/

namespace InterruptController

/-- The initialisation word that a controller waits for. -/
inductive Awaits
  | nothing
  | icw2
  | icw3
  | icw4
deriving DecidableEq

/-- The registers of a controller, with the lines 0 to 7. -/
structure Controller where
  irr : ℕ → Bool
  isr : ℕ → Bool
  imr : UInt8
  vectorBase : ℕ
  cascade : UInt8
  mode : UInt8
  awaits : Awaits
  isSingle : Bool
  needsIcw4 : Bool

namespace Controller

/-- The request of the highest priority that is let through. -/
def request? (c : Controller) : Option ℕ :=
  (List.range 8).find? fun n =>
    c.irr n && !c.imr.toNat.testBit n && !(List.range (n + 1)).any c.isr

/-- Bit 1 of the fourth word: interrupts end when they are acknowledged. -/
def autoEoi (c : Controller) : Bool := c.mode &&& 2 ≠ 0

/-- The controller after a request has been acknowledged. -/
def enterService (c : Controller) (n : ℕ) : Controller :=
  { c with
    irr := Function.update c.irr n false
    isr := Function.update c.isr n !c.autoEoi }

/-- The controller after some of its lines have fallen. -/
def dropLines (falling : ℕ → Bool) (c : Controller) : Controller :=
  { c with irr := fun n => c.irr n && !falling n }

/-- A nonspecific end of interrupt. -/
def eoi (c : Controller) : Controller :=
  match (List.range 8).find? c.isr with
  | none => c
  | some n => { c with isr := Function.update c.isr n false }

/-- A write to the command port. Of the operation words only the nonspecific
end of interrupt is modelled. -/
def command (value : UInt8) (c : Controller) : Controller :=
  if value &&& 0x10 ≠ 0 then
    { c with
      irr := fun _ => false
      isr := fun _ => false
      imr := 0
      mode := if value &&& 0x01 ≠ 0 then c.mode else 0
      awaits := .icw2
      isSingle := decide (value &&& 0x02 ≠ 0)
      needsIcw4 := decide (value &&& 0x01 ≠ 0) }
  else if value = 0x20 then c.eoi
  else c

/-- A write to the data port. -/
def data (value : UInt8) (c : Controller) : Controller :=
  match c.awaits with
  | .nothing => { c with imr := value }
  | .icw2 =>
    { c with
      vectorBase := value.toNat / 8 * 8
      awaits := if c.isSingle then (if c.needsIcw4 then .icw4 else .nothing) else .icw3 }
  | .icw3 => { c with cascade := value, awaits := if c.needsIcw4 then .icw4 else .nothing }
  | .icw4 => { c with mode := value, awaits := .nothing }

/-- No interrupt is in service. -/
def Quiet (c : Controller) : Prop := c.isr = fun _ => false

variable {c : Controller} {n : ℕ}

theorem irr_of_request? (h : c.request? = some n) : c.irr n = true := by
  have hn := List.find?_some h
  simp only [Bool.and_eq_true] at hn
  exact hn.1.1

theorem lt_of_request? (h : c.request? = some n) : n < 8 :=
  List.mem_range.1 (List.mem_of_find?_eq_some h)

/-- A quiet controller without a mask lets the first request through. -/
theorem request?_of_quiet (hquiet : c.Quiet) (himr : c.imr = 0) :
    c.request? = (List.range 8).find? c.irr := by
  rw [request?, hquiet, himr]
  congr 1
  funext n
  simp

theorem eoi_of_quiet (hquiet : c.Quiet) : c.eoi = c := by
  have hnone : (List.range 8).find? c.isr = none := by
    rw [hquiet]
    rfl
  rw [eoi, hnone]

theorem quiet_eoi (hquiet : c.Quiet) : c.eoi.Quiet := by
  rw [eoi_of_quiet hquiet]
  exact hquiet

/-- An interrupt that was alone in service is ended. -/
theorem eoi_enterService (hquiet : c.Quiet) (hn : n < 8) : (c.enterService n).eoi.Quiet := by
  have hisr : (c.enterService n).isr = Function.update (fun _ => false) n !c.autoEoi := by
    rw [enterService, hquiet]
  cases hauto : c.autoEoi with
  | true =>
    have henter : (c.enterService n).Quiet := by
      rw [Quiet, hisr, hauto]
      exact Function.update_eq_self n _
    exact quiet_eoi henter
  | false =>
    rw [hauto] at hisr
    have hfind : (List.range 8).find? (c.enterService n).isr = some n := by
      rw [hisr, List.find?_range_eq_some]
      refine ⟨Function.update_self n _ _, List.mem_range.2 hn, fun k hk => ?_⟩
      rw [Function.update_of_ne (Nat.ne_of_lt hk)]
      rfl
    rw [eoi, hfind]
    show Function.update (c.enterService n).isr n false = fun _ => false
    rw [hisr, Function.update_idem]
    exact Function.update_eq_self n _

/-- The end of interrupt depends on nothing but the interrupts in service. -/
theorem isr_eoi_congr {d : Controller} (h : c.isr = d.isr) : c.eoi.isr = d.eoi.isr := by
  rw [eoi, eoi, h]
  cases (List.range 8).find? d.isr with
  | none => exact h
  | some n => rfl

/-- The controller but for its requests. -/
def forget (c : Controller) : Controller := { c with irr := fun _ => false }

theorem forget_eoi (c : Controller) : c.forget.eoi.forget = c.eoi.forget := by
  rw [eoi, eoi, show c.forget.isr = c.isr from rfl]
  cases (List.range 8).find? c.isr <;> rfl

theorem forget_command (value : UInt8) (c : Controller) :
    (c.forget.command value).forget = (c.command value).forget := by
  rw [command, command]
  split
  · rfl
  · split
    · exact forget_eoi c
    · rfl

theorem forget_data (value : UInt8) (c : Controller) :
    (c.forget.data value).forget = (c.data value).forget := by
  rw [data, data, show c.forget.awaits = c.awaits from rfl]
  cases c.awaits <;> rfl

end Controller

structure Pair where
  master : Controller
  slave : Controller

namespace Pair

/-- The request lines 0 to 15; line 2 belongs to the slave. -/
def pending (p : Pair) (line : ℕ) : Bool :=
  if line < 8 then p.master.irr line else p.slave.irr (line - 8)

def setLine (line : ℕ) (level : Bool) (p : Pair) : Pair :=
  if line < 8 then { p with master := { p.master with irr := Function.update p.master.irr line level } }
  else { p with slave := { p.slave with irr := Function.update p.slave.irr (line - 8) level } }

/-- The master with the request that the slave makes on line 2. -/
def masterView (p : Pair) : Controller :=
  { p.master with irr := Function.update p.master.irr 2 p.slave.request?.isSome }

/-- The two acknowledge cycles of the processor. `falling` are the lines of the
slave that fall after the master has chosen. The vector and the pair afterwards. -/
def acknowledge (falling : ℕ → Bool) (p : Pair) : ℕ × Pair :=
  match p.masterView.request? with
  | none => (p.master.vectorBase + 7, p)
  | some n =>
    if p.master.cascade.toNat.testBit n then
      let slave := p.slave.dropLines falling
      match slave.request? with
      | none => (slave.vectorBase + 7, ⟨p.master.enterService n, slave⟩)
      | some m => (slave.vectorBase + m, ⟨p.master.enterService n, slave.enterService m⟩)
    else (p.master.vectorBase + n, { p with master := p.master.enterService n })

/-- A write to one of the ports. -/
def outb (port : ℕ) (value : UInt8) (p : Pair) : Pair :=
  if port = 0x20 then { p with master := p.master.command value }
  else if port = 0x21 then { p with master := p.master.data value }
  else if port = 0xA0 then { p with slave := p.slave.command value }
  else if port = 0xA1 then { p with slave := p.slave.data value }
  else p

/-- The pair is set up and lets every request through. -/
structure Ready (vector : ℕ) (p : Pair) : Prop where
  master_imr : p.master.imr = 0
  slave_imr : p.slave.imr = 0
  cascade : p.master.cascade = 4
  master_awaits : p.master.awaits = .nothing
  slave_awaits : p.slave.awaits = .nothing
  master_base : p.master.vectorBase = vector
  slave_base : p.slave.vectorBase = vector + 8

def Quiet (p : Pair) : Prop := p.master.Quiet ∧ p.slave.Quiet

/-- Nonspecific ends of interrupt, by the port they go to. -/
def IsEoi (write : ℕ × UInt8) : Prop := write = (0x20, 0x20) ∨ write = (0xA0, 0x20)

def outbs (writes : List (ℕ × UInt8)) (p : Pair) : Pair :=
  writes.foldl (fun p write => p.outb write.1 write.2) p

/-- What an acknowledgement can hand over. -/
inductive Acknowledged (vector : ℕ) (falling : ℕ → Bool) (p : Pair) : ℕ × Pair → Prop
  | spurious (hnone : ∀ line < 16, line ≠ 2 → p.pending line = false) :
    Acknowledged vector falling p (vector + 7, p)
  | master (n : ℕ) (hn : n < 8) (hne : n ≠ 2) (hirr : p.master.irr n = true) :
    Acknowledged vector falling p (vector + n, { p with master := p.master.enterService n })
  | slaveSpurious (hnone : ∀ m < 8, p.slave.irr m = true → falling m = true) :
    Acknowledged vector falling p (vector + 8 + 7, ⟨p.master.enterService 2,
      p.slave.dropLines falling⟩)
  | slave (m : ℕ) (hm : m < 8) (hirr : p.slave.irr m = true) (hfalling : falling m = false) :
    Acknowledged vector falling p (vector + 8 + m, ⟨p.master.enterService 2,
      (p.slave.dropLines falling).enterService m⟩)

section Service
variable {vector : ℕ} {p q : Pair} {write : ℕ × UInt8} {writes : List (ℕ × UInt8)}

/-- The same interrupts are in service. -/
def SameService (p q : Pair) : Prop :=
  p.master.isr = q.master.isr ∧ p.slave.isr = q.slave.isr

theorem sameService_setLine (line : ℕ) (level : Bool) (p : Pair) :
    SameService (p.setLine line level) p := by
  rw [setLine]
  split <;> exact ⟨rfl, rfl⟩

theorem outb_master (p : Pair) : p.outb 0x20 0x20 = { p with master := p.master.eoi } := rfl

theorem outb_slave (p : Pair) : p.outb 0xA0 0x20 = { p with slave := p.slave.eoi } := rfl

theorem SameService.outb (h : SameService p q) (hwrite : IsEoi write) :
    SameService (p.outb write.1 write.2) (q.outb write.1 write.2) := by
  rcases hwrite with rfl | rfl
  · exact ⟨Controller.isr_eoi_congr h.1, h.2⟩
  · exact ⟨h.1, Controller.isr_eoi_congr h.2⟩

theorem SameService.quiet_outbs (h : SameService p q) (hwrites : ∀ write ∈ writes, IsEoi write)
    (hquiet : (q.outbs writes).Quiet) : (p.outbs writes).Quiet := by
  induction writes generalizing p q with
  | nil => exact ⟨h.1.trans hquiet.1, h.2.trans hquiet.2⟩
  | cons write writes ih =>
    exact ih (h.outb (hwrites write List.mem_cons_self))
      (fun w hw => hwrites w (List.mem_cons_of_mem write hw)) hquiet

theorem Ready.setLine (h : p.Ready vector) (line : ℕ) (level : Bool) :
    (p.setLine line level).Ready vector := by
  rw [Pair.setLine]
  split <;> exact ⟨h.1, h.2, h.3, h.4, h.5, h.6, h.7⟩

theorem Ready.outb (h : p.Ready vector) (hwrite : IsEoi write) :
    (p.outb write.1 write.2).Ready vector := by
  rcases hwrite with rfl | rfl
  · rw [outb_master, Controller.eoi]
    split <;> exact ⟨h.1, h.2, h.3, h.4, h.5, h.6, h.7⟩
  · rw [outb_slave, Controller.eoi]
    split <;> exact ⟨h.1, h.2, h.3, h.4, h.5, h.6, h.7⟩

theorem pending_outb (hwrite : IsEoi write) : (p.outb write.1 write.2).pending = p.pending := by
  rcases hwrite with rfl | rfl
  · rw [outb_master, Controller.eoi]
    split <;> rfl
  · rw [outb_slave, Controller.eoi]
    split <;> rfl

theorem pending_setLine (line : ℕ) (level : Bool) (p : Pair) :
    (p.setLine line level).pending = Function.update p.pending line level := by
  funext n
  by_cases hn : n = line
  · subst hn
    by_cases hlt : n < 8
    · simp only [pending, setLine, if_pos hlt, Function.update_self]
    · simp only [pending, setLine, if_neg hlt, Function.update_self]
  · rw [Function.update_of_ne hn]
    by_cases hlt : line < 8
    · simp only [pending, setLine, if_pos hlt, Function.update_of_ne hn]
    · by_cases hlt' : n < 8
      · simp only [pending, setLine, if_neg hlt, if_pos hlt']
      · have hne : n - 8 ≠ line - 8 := by omega
        simp only [pending, setLine, if_neg hlt, if_neg hlt', Function.update_of_ne hne]

/-- The pair but for its requests. -/
def forget (p : Pair) : Pair := ⟨p.master.forget, p.slave.forget⟩

theorem forget_setLine (line : ℕ) (level : Bool) (p : Pair) : (p.setLine line level).forget = p.forget := by
  rw [setLine]
  split <;> rfl

theorem forget_outb (port : ℕ) (value : UInt8) (p : Pair) :
    (p.forget.outb port value).forget = (p.outb port value).forget := by
  rw [outb, outb]
  split
  · exact congrArg (Pair.mk · p.slave.forget) (Controller.forget_command value p.master)
  split
  · exact congrArg (Pair.mk · p.slave.forget) (Controller.forget_data value p.master)
  split
  · exact congrArg (Pair.mk p.master.forget) (Controller.forget_command value p.slave)
  split
  · exact congrArg (Pair.mk p.master.forget) (Controller.forget_data value p.slave)
  · rfl

/-- Set-up and service do not depend on the requests. -/
theorem Ready.of_forget (h : p.forget.Ready vector) : p.Ready vector :=
  ⟨h.1, h.2, h.3, h.4, h.5, h.6, h.7⟩

theorem Quiet.of_forget (h : p.forget.Quiet) : p.Quiet := h

end Service

section Acknowledge
variable {vector : ℕ} {p : Pair}

theorem Quiet.masterView (h : p.Quiet) : p.masterView.Quiet := h.1

theorem Ready.request?_masterView (h : p.Ready vector) (hquiet : p.Quiet) :
    p.masterView.request? =
      (List.range 8).find? (Function.update p.master.irr 2 p.slave.request?.isSome) :=
  Controller.request?_of_quiet hquiet.masterView h.master_imr

theorem Ready.cascade_iff (h : p.Ready vector) (n : ℕ) :
    p.master.cascade.toNat.testBit n = true ↔ n = 2 := by
  have hpow : (4 : UInt8).toNat.testBit n = decide (2 = n) := Nat.testBit_two_pow (n := 2)
  rw [h.cascade, hpow, decide_eq_true_iff, eq_comm]

theorem Ready.acknowledged (h : p.Ready vector) (hquiet : p.Quiet) (falling : ℕ → Bool) :
    Acknowledged vector falling p (p.acknowledge falling) := by
  have hview := h.request?_masterView hquiet
  have hslave := Controller.request?_of_quiet hquiet.2 h.slave_imr
  rw [acknowledge]
  cases hn : p.masterView.request? with
  | none =>
    rw [hview, List.find?_eq_none] at hn
    simp only [h.master_base]
    refine .spurious fun line hline hne => ?_
    rw [pending]
    split
    next hlt =>
      have hirr := hn line (List.mem_range.2 hlt)
      rwa [Function.update_of_ne hne, Bool.not_eq_true] at hirr
    next hge =>
      have htwo := hn 2 (by decide)
      rw [Function.update_self, Bool.not_eq_true, Option.isSome_eq_false_iff, Option.isNone_iff_eq_none,
        hslave, List.find?_eq_none] at htwo
      exact Bool.not_eq_true _ ▸ htwo (line - 8) (List.mem_range.2 (by omega))
  | some n =>
    have hlt := Controller.lt_of_request? hn
    have hirr := Controller.irr_of_request? hn
    by_cases htwo : n = 2
    · subst htwo
      have hbase : (p.slave.dropLines falling).vectorBase = vector + 8 := h.slave_base
      have hfallen : (p.slave.dropLines falling).request? =
          (List.range 8).find? fun m => p.slave.irr m && !falling m :=
        Controller.request?_of_quiet hquiet.2 h.slave_imr
      simp only [(h.cascade_iff 2).2 rfl, if_true, hbase, hfallen]
      cases hm : (List.range 8).find? fun m => p.slave.irr m && !falling m with
      | none =>
        refine .slaveSpurious fun m hlt hirr => ?_
        have hfalls := List.find?_eq_none.1 hm m (List.mem_range.2 hlt)
        simpa [hirr] using hfalls
      | some m =>
        have hstands := List.find?_some hm
        simp only [Bool.and_eq_true, Bool.not_eq_true'] at hstands
        exact .slave m (List.mem_range.1 (List.mem_of_find?_eq_some hm)) hstands.1 hstands.2
    · have hbit : ¬ p.master.cascade.toNat.testBit n = true := fun hc => htwo ((h.cascade_iff n).1 hc)
      simp only [if_neg hbit, h.master_base]
      exact .master n hlt htwo ((Function.update_of_ne htwo _ _).symm.trans hirr)

/-- What the processor has to end: the slave first, if the vector is one of its own. -/
def endOf (line : ℕ) : List (ℕ × UInt8) :=
  if line < 8 then [(0x20, 0x20)] else [(0xA0, 0x20), (0x20, 0x20)]

section Acknowledged
variable {falling : ℕ → Bool} {result : ℕ × Pair}

/-- The vector tells the line. -/
theorem Acknowledged.exists_line (h : Acknowledged vector falling p result) :
    ∃ line < 16, result.1 = vector + line ∧
      (line ≠ 7 → line ≠ 15 → p.pending line = true ∧ result.2.pending line = false) := by
  cases h with
  | spurious => exact ⟨7, by decide, rfl, fun hne => absurd rfl hne⟩
  | master n hn _ hirr =>
    refine ⟨n, by omega, rfl, fun _ _ => ?_⟩
    rw [pending, pending, if_pos hn, if_pos hn]
    exact ⟨hirr, Function.update_self n _ _⟩
  | slaveSpurious => exact ⟨15, by decide, rfl, fun _ hne => absurd rfl hne⟩
  | slave m hm hirr =>
    refine ⟨8 + m, by omega, Nat.add_assoc vector 8 m, fun _ _ => ?_⟩
    rw [pending, pending, if_neg (by omega), if_neg (by omega), Nat.add_sub_cancel_left]
    exact ⟨hirr, Function.update_self m _ _⟩

/-- No request comes out of an acknowledgement. -/
theorem Acknowledged.pending_of_pending (h : Acknowledged vector falling p result) {line : ℕ}
    (hline : result.2.pending line = true) : p.pending line = true := by
  have hupdate : ∀ (irr : ℕ → Bool) (n k : ℕ), Function.update irr n false k = true → irr k = true := by
    intro irr n k hk
    by_cases heq : k = n
    · rw [heq, Function.update_self] at hk
      exact absurd hk Bool.false_ne_true
    · rwa [Function.update_of_ne heq] at hk
  have hdrop : ∀ k, (p.slave.dropLines falling).irr k = true → p.slave.irr k = true := fun k hk =>
    (Bool.and_eq_true _ _ ▸ hk : _ ∧ _).1
  cases h with
  | spurious => exact hline
  | master n hn hne hirr =>
    rw [pending] at hline ⊢
    split at hline
    next hlt => exact (if_pos hlt).trans (hupdate _ n line hline)
    next hge => exact (if_neg hge).trans hline
  | slaveSpurious =>
    rw [pending] at hline ⊢
    split at hline
    next hlt => exact (if_pos hlt).trans (hupdate _ 2 line hline)
    next hge => exact (if_neg hge).trans (hdrop _ hline)
  | slave m =>
    rw [pending] at hline ⊢
    split at hline
    next hlt => exact (if_pos hlt).trans (hupdate _ 2 line hline)
    next hge => exact (if_neg hge).trans (hdrop _ (hupdate _ m _ hline))

/-- The other lines of the master are left alone. -/
theorem Acknowledged.pending_of_ne (h : Acknowledged vector falling p result) {line : ℕ}
    (hline : line < 8) (htwo : line ≠ 2) (hne : result.1 ≠ vector + line) :
    result.2.pending line = p.pending line := by
  rw [pending, pending, if_pos hline, if_pos hline]
  cases h with
  | spurious => rfl
  | master n => exact Function.update_of_ne (fun heq => hne (congrArg (vector + ·) heq.symm)) _ _
  | slaveSpurious => exact Function.update_of_ne htwo _ _
  | slave m => exact Function.update_of_ne htwo _ _

theorem Acknowledged.ready (hready : p.Ready vector) (h : Acknowledged vector falling p result) :
    result.2.Ready vector := by
  obtain ⟨h1, h2, h3, h4, h5, h6, h7⟩ := hready
  cases h <;> exact ⟨h1, h2, h3, h4, h5, h6, h7⟩

/-- The end of interrupt that belongs to the vector leaves nothing in service. -/
theorem Acknowledged.quiet_outbs (hquiet : p.Quiet) (h : Acknowledged vector falling p result) :
    (result.2.outbs (endOf (result.1 - vector))).Quiet := by
  have hmaster : ∀ n < 8, (p.master.enterService n).eoi.Quiet := fun n =>
    Controller.eoi_enterService hquiet.1
  cases h with
  | spurious =>
    rw [Nat.add_sub_cancel_left]
    exact ⟨Controller.quiet_eoi hquiet.1, hquiet.2⟩
  | master n hn =>
    rw [Nat.add_sub_cancel_left, endOf, if_pos hn]
    exact ⟨hmaster n hn, hquiet.2⟩
  | slaveSpurious =>
    rw [Nat.add_assoc, Nat.add_sub_cancel_left]
    have hslave : (p.slave.dropLines falling).Quiet := hquiet.2
    exact ⟨hmaster 2 (by decide), Controller.quiet_eoi hslave⟩
  | slave m hm =>
    rw [Nat.add_assoc, Nat.add_sub_cancel_left, endOf, if_neg (by omega)]
    have hslave : (p.slave.dropLines falling).Quiet := hquiet.2
    exact ⟨hmaster 2 (by decide), Controller.eoi_enterService hslave hm⟩

end Acknowledged

/-- The lines in the order of their priorities. -/
def priorityOrder : List ℕ := [0, 1, 8, 9, 10, 11, 12, 13, 14, 15, 3, 4, 5, 6, 7]

def vectorOf (vector : ℕ) : Option ℕ → ℕ
  | none => vector + 7
  | some line => vector + line

/-- Where no line falls, the first request is handed over. -/
theorem Ready.acknowledge_first (h : p.Ready vector) (hquiet : p.Quiet) :
    (p.acknowledge fun _ => false).1 = vectorOf vector (priorityOrder.find? p.pending) := by
  have hslave := Controller.request?_of_quiet hquiet.2 h.slave_imr
  have hview : p.masterView.request? = ([0, 1].find? p.master.irr).or
      ((if p.slave.request?.isSome then some 2 else none).or ([3, 4, 5, 6, 7].find? p.master.irr)) := by
    rw [h.request?_masterView hquiet, show List.range 8 = [0, 1] ++ ([2] ++ [3, 4, 5, 6, 7]) from rfl,
      List.find?_append, List.find?_append]
    cases p.slave.request?.isSome <;> rfl
  have horder : priorityOrder.find? p.pending = ([0, 1].find? p.master.irr).or
      ((p.slave.request?.map (8 + ·)).or ([3, 4, 5, 6, 7].find? p.master.irr)) := by
    rw [show priorityOrder = [0, 1] ++ ((List.range 8).map (8 + ·) ++ [3, 4, 5, 6, 7]) from rfl,
      List.find?_append, List.find?_append, List.find?_map, hslave]
    have hpending : p.pending ∘ (8 + ·) = p.slave.irr := by
      funext m
      show p.pending (8 + m) = _
      rw [pending, if_neg (by omega), Nat.add_sub_cancel_left]
    rw [hpending]
    rfl
  -- only a request of the slave comes through line 2
  have hmaster : ∀ n, n ≠ 2 → p.masterView.request? = some n →
      (p.acknowledge fun _ => false).1 = vector + n := by
    intro n hne hn
    have hbit : ¬ p.master.cascade.toNat.testBit n = true := fun hc => hne ((h.cascade_iff n).1 hc)
    rw [acknowledge, hn]
    simp only [if_neg hbit, h.master_base]
  have hne : ∀ (lines : List ℕ) (n : ℕ), lines.find? p.master.irr = some n → 2 ∉ lines → n ≠ 2 := by
    rintro lines n hn htwo rfl
    exact htwo (List.mem_of_find?_eq_some hn)
  cases h01 : [0, 1].find? p.master.irr with
  | some n =>
    rw [h01, Option.some_or] at hview horder
    rw [horder, hmaster n (hne _ _ h01 (by decide)) hview, vectorOf]
  | none =>
    rw [h01, Option.none_or] at hview horder
    cases hm : p.slave.request? with
    | some m =>
      rw [hm, Option.isSome_some, if_pos rfl, Option.some_or] at hview
      rw [hm, Option.map_some, Option.some_or] at horder
      have hdrop : p.slave.dropLines (fun _ => false) = p.slave := by
        simp [Controller.dropLines]
      rw [horder, acknowledge, hview]
      simp only [(h.cascade_iff 2).2 rfl, if_true, hdrop, hm, h.slave_base, vectorOf]
      omega
    | none =>
      rw [hm, Option.isSome_none, if_neg Bool.false_ne_true, Option.none_or] at hview
      rw [hm, Option.map_none, Option.none_or] at horder
      cases h37 : [3, 4, 5, 6, 7].find? p.master.irr with
      | some n =>
        rw [horder, h37, hmaster n (hne _ _ h37 (by decide)) (hview.trans h37), vectorOf]
      | none =>
        rw [horder, acknowledge, hview, h37, vectorOf, h.master_base]

end Acknowledge

end Pair

end InterruptController
