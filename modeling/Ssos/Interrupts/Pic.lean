import Ssos.Foundations.InterruptController

/-!
# The interrupt controllers

`interrupts/pic.c`, as the port writes that its functions make.

## Main results

- `picInit_ready` — `pic_init` sets the controllers up from any state
-/

namespace Ssos

open InterruptController

/-- A write of a byte to a port. -/
abbrev PortWrite := ℕ × UInt8

def picMaster : ℕ := 0x20
def picSlave : ℕ := 0xA0
def picMasterCommand : ℕ := picMaster
def picMasterData : ℕ := picMaster + 1
def picSlaveCommand : ℕ := picSlave
def picSlaveData : ℕ := picSlave + 1

def icw1Icw4 : UInt8 := 0x01
def icw1Init : UInt8 := 0x10
def icw4Icw8086 : UInt8 := 0x01

def picEoi : UInt8 := 0x20

def ioWait : PortWrite := (0x80, 0)

def picRemap (masterOffset slaveOffset : UInt8) : List PortWrite :=
  [(picMasterCommand, icw1Init ||| icw1Icw4), ioWait, (picSlaveCommand, icw1Init ||| icw1Icw4), ioWait,
    (picMasterData, masterOffset), ioWait, (picSlaveData, slaveOffset), ioWait,
    (picMasterData, 4), ioWait, (picSlaveData, 2), ioWait,
    (picMasterData, icw4Icw8086), ioWait, (picSlaveData, icw4Icw8086), ioWait,
    (picMasterData, 0), (picSlaveData, 0)]

def picInit : List PortWrite := picRemap 0x20 0x28

def picSendEoi (irq : ℕ) : List PortWrite :=
  (if irq ≥ 8 then [(picSlaveCommand, picEoi)] else []) ++ [(picMasterCommand, picEoi)]

theorem isEoi_of_mem_picSendEoi {irq : ℕ} {write : PortWrite} (h : write ∈ picSendEoi irq) :
    Pair.IsEoi write := by
  rw [picSendEoi] at h
  split at h
  · rcases List.mem_cons.1 h with rfl | h
    · exact Or.inr rfl
    · exact Or.inl (List.mem_singleton.1 h)
  · exact Or.inl (List.mem_singleton.1 h)

/-! ### Setting up -/

/-- What happens on the bus while the controllers are set up. -/
inductive BusEvent
  | write (port : ℕ) (value : UInt8)
  | line (line : ℕ) (level : Bool)

def BusEvent.write? : BusEvent → Option PortWrite
  | .write port value => some (port, value)
  | .line _ _ => none

def busStep (p : Pair) : BusEvent → Pair
  | .write port value => p.outb port value
  | .line line level => p.setLine line level

theorem forget_outb_congr {p q : Pair} (h : p.forget = q.forget) (write : PortWrite) :
    (p.outb write.1 write.2).forget = (q.outb write.1 write.2).forget := by
  rw [← Pair.forget_outb, h, Pair.forget_outb]

/-- The requests that come in between do not disturb the writes. -/
theorem forget_foldl_busStep (events : List BusEvent) {p q : Pair} (h : p.forget = q.forget) :
    (events.foldl busStep p).forget = (q.outbs (events.filterMap BusEvent.write?)).forget := by
  induction events generalizing p q with
  | nil => exact h
  | cons event events ih =>
    cases event with
    | write port value => exact ih (forget_outb_congr h (port, value))
    | line line level => exact ih ((Pair.forget_setLine line level p).trans h)

/-- **Initialisation.** From any state, even in the middle of another
initialisation, and whatever requests come in meanwhile. -/
theorem picInit_ready {events : List BusEvent} (hwrites : events.filterMap BusEvent.write? = picInit)
    (p : Pair) :
    (events.foldl busStep p).Ready 0x20 ∧ (events.foldl busStep p).Quiet := by
  have hforget := forget_foldl_busStep events (Eq.refl p.forget)
  rw [hwrites] at hforget
  have hready : (p.outbs picInit).forget.Ready 0x20 := ⟨rfl, rfl, rfl, rfl, rfl, rfl, rfl⟩
  have hquiet : (p.outbs picInit).forget.Quiet := ⟨rfl, rfl⟩
  exact ⟨.of_forget (hforget ▸ hready), .of_forget (hforget ▸ hquiet)⟩

end Ssos
