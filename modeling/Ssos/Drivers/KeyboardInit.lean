import Ssos.Foundations.Polling
import Ssos.Foundations.Retry
import Ssos.Interrupts.Pic

/-!
# Setting the keyboard up

`keyboard_init` of `drivers/keyboard.c` with the functions that it calls, over
any device behind the ports, and a keyboard that asks for garbled bytes again.
Interrupts are enabled while the keyboard is set up: keys may be pressed at any
time, and once the driver is installed it may read bytes at any time.

## Main result

- `sendToKeyboard_of_offers` — a byte and its answer
-/

namespace Ssos

open Polling Retry

def maxRetryCount : ℕ := 3
def defaultScancodeSet : UInt8 := 2

def kbdData : ℕ := 0x60
def kbdStatus : ℕ := 0x64
def kbdCommand : ℕ := 0x64

def kbdCommandEnableScanning : UInt8 := 0xF4
def kbdCommandDisableScanning : UInt8 := 0xF5
def kbdCommandSetScancodeSet : UInt8 := 0xF0
def kbdCommandWriteCcb : UInt8 := 0x60

def ps2ConfigByte : UInt8 := 0b00100101

def kbdRespAck : UInt8 := 0xFA
def kbdRespResend : UInt8 := 0xFE

section Driver
variable {D : Type*} (dev : Device D)

/-- A turn of the loops that send a byte to the keyboard. -/
def sendToKeyboard (value : UInt8) (d : D) : Option UInt8 × D :=
  let d := dev.outb kbdData value d
  let d := dev.outb ioWait.1 ioWait.2 d
  let (resp, d) := dev.inb kbdData d
  (if resp = kbdRespResend then none else some resp, d)

def keyboardEnableScanning (d : D) : ℤ × D :=
  match retry (sendToKeyboard dev kbdCommandEnableScanning) maxRetryCount d with
  | (none, d) => (-1, d)
  | (some _, d) => (0, d)

def keyboardDisableScanning (d : D) : ℤ × D :=
  match retry (sendToKeyboard dev kbdCommandDisableScanning) maxRetryCount d with
  | (none, d) => (-1, d)
  | (some _, d) => (0, d)

def keyboardSetDefaultScancodeSet (d : D) : ℤ × D :=
  match retry (sendToKeyboard dev kbdCommandSetScancodeSet) maxRetryCount d with
  | (none, d) => (-1, d)
  | (some resp, d) =>
    if resp ≠ kbdRespAck then (-2, d)
    else
      match retry (sendToKeyboard dev defaultScancodeSet) maxRetryCount d with
      | (none, d) => (-3, d)
      | (some resp, d) => if resp ≠ kbdRespAck then (-4, d) else (0, d)

def keyboardFlushBuff : ℕ → D → Option D
  | 0, _ => none
  | fuel + 1, d =>
    let (status, d) := dev.inb kbdStatus d
    if status &&& 0x1 ≠ 0 then keyboardFlushBuff fuel (dev.inb kbdData d).2 else some d

/-- The test of `while (inb(KBD_STATUS) & 0x02)`. -/
def inputVerdict (status : UInt8) : Option Unit := if status &&& 0x02 ≠ 0 then none else some ()

def ps2ControllerConfigure (fuel : ℕ) (d : D) : Option D :=
  (pollUntil dev kbdStatus inputVerdict fuel d).bind fun (_, d) =>
    let d := dev.outb kbdCommand kbdCommandWriteCcb d
    (pollUntil dev kbdStatus inputVerdict fuel d).map fun (_, d) =>
      dev.outb kbdData ps2ConfigByte d

/-- `keyboard_init`; `install` is `idt_install_irq_driver(1, keyboard_irq_handler)`. -/
def keyboardInit (install : D → D) (fuel : ℕ) (d : D) : Option (ℤ × D) :=
  let (failed, d) := keyboardDisableScanning dev d
  if failed ≠ 0 then some (-1, d)
  else
    (keyboardFlushBuff dev fuel d).bind fun d =>
      (ps2ControllerConfigure dev fuel d).bind fun d =>
        let (failed, d) := keyboardSetDefaultScancodeSet dev d
        if failed ≠ 0 then some (-2, d)
        else
          let (failed, d) := keyboardEnableScanning dev (install d)
          if failed ≠ 0 then some (-3, d) else some (0, d)

end Driver

/-! ### The keyboard and its controller -/

/-- What the keyboard keeps. -/
structure KeyboardUnit where
  scanning : Bool
  scancodeSet : UInt8
  expectsSet : Bool
deriving DecidableEq

/-- The keyboard after a byte that it acknowledges. -/
def KeyboardUnit.obey (value : UInt8) (k : KeyboardUnit) : Option KeyboardUnit :=
  if k.expectsSet then some { k with scancodeSet := value, expectsSet := false }
  else if value = kbdCommandEnableScanning then some { k with scanning := true }
  else if value = kbdCommandDisableScanning then some { k with scanning := false }
  else if value = kbdCommandSetScancodeSet then some { k with expectsSet := true }
  else none

section Obey
variable {k : KeyboardUnit}

theorem KeyboardUnit.obey_enable (hset : k.expectsSet = false) :
    k.obey kbdCommandEnableScanning = some { k with scanning := true } := by
  rw [obey, if_neg (ne_true_of_eq_false hset), if_pos rfl]

theorem KeyboardUnit.obey_disable (hset : k.expectsSet = false) :
    k.obey kbdCommandDisableScanning = some { k with scanning := false } := by
  rw [obey, if_neg (ne_true_of_eq_false hset), if_neg (by decide), if_pos rfl]

theorem KeyboardUnit.obey_select (hset : k.expectsSet = false) :
    k.obey kbdCommandSetScancodeSet = some { k with expectsSet := true } := by
  rw [obey, if_neg (ne_true_of_eq_false hset), if_neg (by decide), if_neg (by decide), if_pos rfl]

end Obey

/-- What the controller and the keyboard are set to. The `n`th byte on its way
to the keyboard is garbled when `garbled n`; before the port access `n` the keys
`typed n` are pressed. -/
structure Ps2Setup where
  keyboard : KeyboardUnit
  expectsConfig : Bool
  config : UInt8
  installed : Bool
  garbled : ℕ → Bool
  transmissions : ℕ
  typed : ℕ → List UInt8

/-- A keyboard behind its controller. `queue` holds the bytes that wait to be
read. Before the port access `n` the interrupt handler, once installed, reads
`interrupts n` bytes. `sent` are the bytes from the keyboard since it started to
scan, `handled` those of them that the handler has read. -/
structure Ps2 extends Ps2Setup where
  queue : List UInt8
  last : UInt8
  inputBusy : ℕ
  lag : ℕ → ℕ
  interrupts : ℕ → ℕ
  accesses : ℕ
  sent : List UInt8
  handled : List UInt8

namespace Ps2

/-- The keyboard puts bytes into the queue. -/
def deliver (bytes : List UInt8) (d : Ps2) : Ps2 :=
  { d with queue := d.queue ++ bytes, sent := d.sent ++ bytes }

/-- The handler reads the first `n` bytes, or all there are. -/
def handle (n : ℕ) (d : Ps2) : Ps2 :=
  { d with
    queue := d.queue.drop n
    handled := d.handled ++ d.queue.take n
    last := (d.queue.take n).getLastD d.last }

/-- What happens before a port access. -/
def elapse (d : Ps2) : Ps2 :=
  let d₁ := d.deliver (if d.keyboard.scanning then d.typed d.accesses else [])
  let d₂ := d₁.handle (if d.installed then d.interrupts d.accesses else 0)
  { d₂ with accesses := d.accesses + 1 }

/-- The controller is busy with a byte that was written to it. -/
def startBusy (d : Ps2) : Ps2 := { d with inputBusy := d.lag d.accesses }

/-- A byte arrives at the keyboard. -/
def receive (value : UInt8) (d : Ps2) : Ps2 :=
  let garbled := d.garbled d.transmissions
  let d := { d with transmissions := d.transmissions + 1 }
  match if garbled then none else d.keyboard.obey value with
  | none => d.deliver [kbdRespResend]
  | some keyboard =>
    if keyboard.scanning ∧ ¬d.keyboard.scanning then
      { d with keyboard, queue := d.queue ++ [kbdRespAck], sent := [kbdRespAck], handled := [] }
    else { d with keyboard }.deliver [kbdRespAck]

/-- A read of the data port; with no byte waiting it gives the last one again. -/
def readData (d : Ps2) : UInt8 × Ps2 :=
  match d.queue with
  | [] => (d.last, d)
  | b :: queue => (b, { d with queue, last := b })

/-- Bit 0 is set while a byte waits to be read, bit 1 while the controller is busy. -/
def statusByte (full busy : Bool) : UInt8 :=
  (if full then 0x01 else 0) ||| if busy then 0x02 else 0

def status (d : Ps2) : UInt8 := statusByte (!d.queue.isEmpty) (d.inputBusy ≠ 0)

def inb (port : ℕ) (d : Ps2) : UInt8 × Ps2 :=
  if port = kbdData then d.elapse.readData
  else if port = kbdStatus then
    (d.elapse.status, { d.elapse with inputBusy := d.elapse.inputBusy - 1 })
  else (0xFF, d.elapse)

def outb (port : ℕ) (value : UInt8) (d : Ps2) : Ps2 :=
  if port = kbdData then
    if d.elapse.expectsConfig then
      { d.elapse with config := value, expectsConfig := false }.startBusy
    else (d.elapse.receive value).startBusy
  else if port = kbdCommand ∧ value = kbdCommandWriteCcb then
    { d.elapse with expectsConfig := true }.startBusy
  else d.elapse

def installDriver (d : Ps2) : Ps2 := { d with installed := true }

end Ps2

def ps2 : Device Ps2 := ⟨Ps2.inb, Ps2.outb, fun _ d => (0xFFFF, d.elapse), fun _ _ d => d.elapse⟩

/-! ### Port accesses -/

/-- No key reaches the queue. -/
def Ps2Setup.Silent (c : Ps2Setup) : Prop := c.keyboard.scanning = true → ∀ n, c.typed n = []

/-- The byte can be read, or the handler has read it and nothing came behind it. -/
def Ps2.Offers (b : UInt8) (d : Ps2) : Prop := d.queue = [b] ∨ d.queue = [] ∧ d.last = b

namespace Ps2

section Accesses
variable {d : Ps2} {b value : UInt8}

theorem elapse_setup (d : Ps2) : d.elapse.toPs2Setup = d.toPs2Setup := rfl

/-- The keys that are pressed before the next access. -/
def pressed (d : Ps2) : List UInt8 := if d.keyboard.scanning then d.typed d.accesses else []

/-- How many bytes the handler reads before the next access. -/
def taken (d : Ps2) : ℕ := if d.installed then d.interrupts d.accesses else 0

theorem pressed_eq_nil (hsilent : d.Silent) : d.pressed = [] := by
  rw [pressed]
  cases hscan : d.keyboard.scanning with
  | true => exact hsilent hscan d.accesses
  | false => rfl

theorem notMem_pressed (htyped : ∀ n, b ∉ d.typed n) : b ∉ d.pressed := by
  rw [pressed]
  cases d.keyboard.scanning with
  | true => exact htyped _
  | false => exact List.not_mem_nil

theorem elapse_queue (d : Ps2) : d.elapse.queue = (d.queue ++ d.pressed).drop d.taken := rfl

theorem elapse_last (d : Ps2) :
    d.elapse.last = ((d.queue ++ d.pressed).take d.taken).getLastD d.last := rfl

theorem elapse_queue_of_not_installed (hinst : d.installed = false) :
    d.elapse.queue = d.queue ++ d.pressed := by
  rw [elapse_queue, taken, hinst]
  rfl

theorem elapse_queue_nil (hsilent : d.Silent) (hqueue : d.queue = []) : d.elapse.queue = [] := by
  rw [elapse_queue, pressed_eq_nil hsilent, hqueue]
  exact List.drop_nil

theorem Offers.elapse (h : d.Offers b) (hsilent : d.Silent) : d.elapse.Offers b := by
  have hpressed := pressed_eq_nil hsilent
  obtain hqueue | ⟨hqueue, hlast⟩ := h
  · rw [Offers, elapse_queue, elapse_last, hpressed, hqueue, List.append_nil]
    cases d.taken with
    | zero => exact Or.inl rfl
    | succ n =>
      refine Or.inr ⟨List.drop_nil, ?_⟩
      rw [List.take_succ_cons, List.take_nil]
      rfl
  · refine Or.inr ⟨elapse_queue_nil hsilent hqueue, ?_⟩
    rw [elapse_last, hpressed, hqueue, List.append_nil, List.take_nil]
    exact hlast

theorem readData_setup (d : Ps2) : d.readData.2.toPs2Setup = d.toPs2Setup := by
  rw [readData]
  cases d.queue <;> rfl

theorem readData_mem (hne : d.queue ≠ []) : d.readData.1 ∈ d.queue := by
  obtain ⟨b, queue, hqueue⟩ := List.exists_cons_of_ne_nil hne
  rw [readData, hqueue]
  exact List.mem_cons_self

theorem Offers.readData (h : d.Offers b) : d.readData.1 = b ∧ d.readData.2.queue = [] := by
  obtain hqueue | ⟨hqueue, hlast⟩ := h
  · rw [Ps2.readData, hqueue]
    exact ⟨rfl, rfl⟩
  · rw [Ps2.readData, hqueue]
    exact ⟨hlast, hqueue⟩

theorem outb_kbdData (hconfig : d.expectsConfig = false) (value : UInt8) :
    d.outb kbdData value = (d.elapse.receive value).startBusy := by
  rw [outb, if_pos rfl]
  exact if_neg (by rw [elapse_setup, hconfig]; exact Bool.false_ne_true)

/-- The state in which the answer is read. -/
def answering (value : UInt8) (d : Ps2) : Ps2 := (d.elapse.receive value).startBusy.elapse.elapse

theorem sendToKeyboard_ps2 (hconfig : d.expectsConfig = false) (value : UInt8) :
    sendToKeyboard ps2 value d =
      (if (d.answering value).readData.1 = kbdRespResend then none
        else some (d.answering value).readData.1, (d.answering value).readData.2) := by
  have hwrite : ps2.outb kbdData value d = (d.elapse.receive value).startBusy :=
    outb_kbdData hconfig value
  rw [sendToKeyboard, hwrite]
  rfl

/-- A byte and its answer, when no key comes in between. -/
theorem sendToKeyboard_of_offers {resp : UInt8} (hconfig : d.expectsConfig = false)
    (hoffers : (d.elapse.receive value).Offers resp)
    (hsilent : (d.elapse.receive value).Silent) :
    ∃ d', sendToKeyboard ps2 value d = (if resp = kbdRespResend then none else some resp, d') ∧
      d'.queue = [] ∧ d'.toPs2Setup = (d.elapse.receive value).toPs2Setup := by
  have hstart : (d.elapse.receive value).startBusy.Offers resp := hoffers
  obtain ⟨hresp, hqueue⟩ := ((hstart.elapse hsilent).elapse hsilent).readData
  refine ⟨_, ?_, hqueue, readData_setup _⟩
  rw [sendToKeyboard_ps2 hconfig, ← hresp]
  rfl

theorem receive_garbled (hgarbled : d.garbled d.transmissions = true) :
    d.receive value =
      ({ d with transmissions := d.transmissions + 1 } : Ps2).deliver [kbdRespResend] := by
  simp only [receive, hgarbled, if_true]

theorem receive_obeyed {k : KeyboardUnit} (hpassed : d.garbled d.transmissions = false)
    (hobey : d.keyboard.obey value = some k) :
    d.receive value =
      if k.scanning ∧ ¬d.keyboard.scanning then
        { d with keyboard := k, transmissions := d.transmissions + 1,
                 queue := d.queue ++ [kbdRespAck], sent := [kbdRespAck], handled := [] }
      else
        ({ d with keyboard := k, transmissions := d.transmissions + 1 } : Ps2).deliver
          [kbdRespAck] := by
  simp only [receive, hpassed, hobey, Bool.false_eq_true, if_false]

end Accesses

end Ps2

end Ssos
