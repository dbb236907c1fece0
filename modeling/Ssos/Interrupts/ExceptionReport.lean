import Ssos.Drivers.ScreenText
import Ssos.Interrupts.Idt

/-!
# The report of an exception

`idt_exception_handler` of `interrupts/idt.c`, from the fault to the screen.

## Main results

- `exceptionText_inj` — what a report says can be read off it
- `exceptionReport_of_fault` — what the report of a fault says
-/

namespace Ssos

open ByteMemory StackMachine CharGrid

/-- The handler is called with the frame in `rdi` and the number in `rsi`. After
the report the kernel stops. -/
def idtExceptionHandler (e : Cpu Reg) (s : Screen) : Option Screen :=
  let frame := InterruptFrame.read e.mem (e.reg .rdi).toNat
  (screenPrint (text "[ERROR] Got exception ") s).bind fun s =>
    (screenPrintAddr (e.reg .rsi).toNat s).bind fun s =>
      (screenPrint (text " from address ") s).bind fun s =>
        (screenPrintAddr frame.rip.toNat s).bind fun s =>
          (screenPrint (text " with error code ") s).bind fun s =>
            (screenPrintAddr frame.errorCode.toNat s).bind fun s => screenPrint (text ".\n") s

def exceptionText (number address code : ℕ) : List UInt8 :=
  text "[ERROR] Got exception " ++ (addrText number ++ (text " from address " ++
    (addrText address ++ (text " with error code " ++ (addrText code ++ text ".\n")))))

theorem prints_idtExceptionHandler (e : Cpu Reg) :
    Prints (idtExceptionHandler e)
      (exceptionText (e.reg .rsi).toNat (InterruptFrame.read e.mem (e.reg .rdi).toNat).rip.toNat
        (InterruptFrame.read e.mem (e.reg .rdi).toNat).errorCode.toNat) := by
  refine (prints_print (by decide)).bind ((prints_printAddr _).bind ?_)
  refine (prints_print (by decide)).bind ((prints_printAddr _).bind ?_)
  exact (prints_print (by decide)).bind ((prints_printAddr _).bind (prints_print (by decide)))

/-! ### Reading the report -/

section Report
variable {a b : ℕ} {word rest rest' : List UInt8}

/-- The word does not go on with digits of an address. -/
def Separates (word : List UInt8) : Prop := ∃ sep tail, word = sep :: tail ∧ sep.toNat < 48

/-- An address ends where the next word starts. -/
theorem addrText_append_inj (hword : Separates word)
    (h : addrText a ++ (word ++ rest) = addrText b ++ (word ++ rest')) : a = b ∧ rest = rest' := by
  obtain ⟨sep, tail, rfl, hsep⟩ := hword
  have htake : ∀ (n : ℕ) (tail : List UInt8),
      (addrText n ++ sep :: tail).takeWhile (· ≠ sep) = addrText n := by
    intro n tail
    rw [List.takeWhile_append_of_pos, List.takeWhile_cons_of_neg (by simp), List.append_nil]
    intro ch hch
    have hrange := mem_addrText hch
    refine decide_eq_true ?_
    rintro rfl
    omega
  rw [List.cons_append, List.cons_append] at h
  have hfirst : addrText a = addrText b := by
    rw [← htake a (tail ++ rest), h, htake]
  rw [hfirst] at h
  exact ⟨addrText_injective hfirst,
    List.append_cancel_left (List.cons.inj (List.append_cancel_left h)).2⟩

/-- **Two faults with the same report** have the same number, address and code. -/
theorem exceptionText_inj {number address code number' address' code' : ℕ}
    (h : exceptionText number address code = exceptionText number' address' code') :
    number = number' ∧ address = address' ∧ code = code' := by
  have hfrom : Separates (text " from address ") := ⟨_, _, rfl, by decide⟩
  have hwith : Separates (text " with error code ") := ⟨_, _, rfl, by decide⟩
  have hstop : Separates (text ".\n") := ⟨_, _, rfl, by decide⟩
  rw [exceptionText, exceptionText, ← List.append_nil (text ".\n")] at h
  obtain ⟨hnumber, h⟩ := addrText_append_inj hfrom (List.append_cancel_left h)
  obtain ⟨haddress, h⟩ := addrText_append_inj hwith h
  exact ⟨hnumber, haddress, (addrText_append_inj hstop h).1⟩

end Report

/-! ### The fault -/

section Fault
variable {callee : Handler → Cpu Reg → Cpu Reg} {returnAddr : BitVec 64} {stub : Stub}
  {errorCode : Option (BitVec 64)} {c : Machine} {e : Cpu Reg} {vector : ℕ}

theorem isrStubTable_exception : ∀ vector < 32, ∀ stub ∈ isrStubTable[vector]?,
    stub.handler = .idtExceptionHandler := by decide

/-- What the handler takes for the address: #CP and #VC push an error code that
their stubs do not expect. -/
def reportedAddress (vector : ℕ) (errorCode : Option (BitVec 64)) (c : Machine) : BitVec 64 :=
  if vector = 21 ∨ vector = 29 then errorCode.getD 0 else c.rip

def reportedCode (vector : ℕ) (errorCode : Option (BitVec 64)) : BitVec 64 :=
  if vector = 21 ∨ vector = 29 then 0 else errorCode.getD 0

/-- A zero on top of an error code moves the frame by a word. -/
theorem Entered.read_shifted {code : BitVec 64} (h : Entered stub (some code) c e)
    (hzero : stub.pushesZero = true) :
    (InterruptFrame.read e.mem (e.reg .rdi).toNat).rip = code ∧
      (InterruptFrame.read e.mem (e.reg .rdi).toNat).errorCode = 0 := by
  have hwords : (entryWords stub (some code) c)[14]? = some 0 ∧
      (entryWords stub (some code) c)[15]? = some code := by
    simp [entryWords, hzero, savedRegs]
  rw [h.toNat_rdi]
  exact ⟨h.holds.load hwords.2, h.holds.load hwords.1⟩

/-- What the handler of a vector reads. -/
theorem Entered.reported (h : Entered stub errorCode c e) (hstub : isrStubTable[vector]? = some stub)
    (hvector : vector < 32) (hcode : errorCode.isSome = pushesErrorCode vector) :
    (e.reg .rsi).toNat = vector ∧
      (InterruptFrame.read e.mem (e.reg .rdi).toNat).rip = reportedAddress vector errorCode c ∧
      (InterruptFrame.read e.mem (e.reg .rdi).toNat).errorCode = reportedCode vector errorCode := by
  obtain ⟨hnumber, hzero⟩ := isrStubTable_spec vector (by omega) stub hstub
  refine ⟨?_, ?_⟩
  · rw [h.rsi, hnumber, vectorNumber, if_pos hvector, BitVec.toNat_ofNat]
    omega
  · by_cases hshift : vector = 21 ∨ vector = 29
    · have hpushes : stub.pushesZero = true ∧ pushesErrorCode vector = true := by
        obtain rfl | rfl := hshift
        all_goals
          obtain rfl := Option.some_inj.1 hstub
          exact ⟨rfl, rfl⟩
      rw [reportedAddress, reportedCode, if_pos hshift, if_pos hshift]
      obtain ⟨code, rfl⟩ := Option.isSome_iff_exists.1 (hcode.trans hpushes.2)
      exact h.read_shifted hpushes.1
    · have hmatch : stub.pushesZero = errorCode.isNone := by
        rw [hzero.2 (not_or.1 hshift), ← hcode, Option.not_isSome]
      rw [reportedAddress, reportedCode, if_neg hshift, if_neg hshift, h.read_frame hmatch]
      exact ⟨rfl, rfl⟩

end Fault

/-- **The report of a fault.** Behind `idt_init` every exception leads to the
handler, which prints the vector, the address of the interrupted code and the
error code, in a text that only they have; #CP and #VC are reported with the
error code as the address. -/
theorem exceptionReport_of_fault {idtEntries : ℕ} {isrStubAddr : ℕ → BitVec 64} {idtr : Idtr}
    {m m' : Mem} {stubAt : BitVec 64 → Option Stub} {callee : Handler → Cpu Reg → Cpu Reg}
    {returnAddr : BitVec 64} {vector : ℕ} {errorCode : Option (BitVec 64)} {c : Machine}
    (hinit : idtInit idtEntries isrStubAddr m = (idtr, m'))
    (hzero : ∀ x, idtEntries ≤ x → x < idtEntries + 16 * idtEntryCount → m x = 0)
    (hmem : ∀ x, idtEntries ≤ x → x < idtEntries + 16 * idtEntryCount → c.mem x = m' x)
    (hstubs : ∀ v < 48, stubAt (isrStubAddr v) = isrStubTable[v]?)
    (hvector : vector < 32) (hcode : errorCode.isSome = pushesErrorCode vector)
    (hroom : 256 ≤ c.sp.toNat) {fb : Framebuffer} {color n columns rows : ℕ}
    (hconsole : fb.Console color n columns rows) {s : Screen} {t : Terminal UInt8}
    (hs : ShowsGrid fb color n columns rows s t) :
    ∃ gate stub s', lookupGate idtr c.mem vector = some gate ∧ stubAt gate.offset = some stub ∧
      stub.handler = .idtExceptionHandler ∧
      idtExceptionHandler (c.handlerEntry callee returnAddr stub errorCode) s = some s' ∧
      ShowsGrid fb color n columns rows s' (feedAll columns rows t
        (exceptionText vector (reportedAddress vector errorCode c).toNat
          (reportedCode vector errorCode).toNat)) ∧
      ∀ number address code, exceptionText number address code =
          exceptionText vector (reportedAddress vector errorCode c).toNat
            (reportedCode vector errorCode).toNat →
        number = vector ∧ address = (reportedAddress vector errorCode c).toNat ∧
          code = (reportedCode vector errorCode).toNat := by
  have hgate := lookupGate_kept hinit hzero hmem (show vector < 256 by omega)
  rw [if_pos (by omega)] at hgate
  have hlt : vector < isrStubTable.length := hvector.trans (by decide)
  obtain ⟨stub, hstub⟩ : ∃ stub, isrStubTable[vector]? = some stub :=
    ⟨_, List.getElem?_eq_getElem hlt⟩
  have hentered : Entered stub errorCode c (c.handlerEntry callee returnAddr stub errorCode) :=
    handlerEntry_entered hroom
  obtain ⟨hnumber, haddress, hcode'⟩ := hentered.reported hstub hvector hcode
  obtain ⟨s', hprint, hs'⟩ := prints_idtExceptionHandler
    (c.handlerEntry callee returnAddr stub errorCode) _ _ _ _ _ s t hconsole hs
  rw [hnumber, haddress, hcode'] at hs'
  exact ⟨_, stub, s', hgate, (hstubs vector (by omega)).trans hstub,
    isrStubTable_exception vector hvector stub hstub, hprint, hs',
    fun number address code h => exceptionText_inj h⟩

/-- A page fault at 0x1234, on a screen of two columns and two rows. -/
theorem exceptionReport_of_fault_page :
    let isrStubAddr := fun v => BitVec.ofNat 64 (0x2000 + 64 * v)
    let stubAt := fun a : BitVec 64 => isrStubTable[(a.toNat - 0x2000) / 64]?
    let table := idtInit 0x100000 isrStubAddr fun _ => 0
    let callee := fun (_ : Handler) (e : Cpu Reg) => e
    let c : Machine := ⟨⟨fun _ => 7, 0x8000, table.2⟩, 0x1234, 0x28, 0x202, 0x30⟩
    let s := Screen.start framebuffer16x16 (fun _ => 0) 0xFFFFFF 1
    ∃ gate stub s', lookupGate table.1 c.mem 14 = some gate ∧ stubAt gate.offset = some stub ∧
      idtExceptionHandler (c.handlerEntry callee 0x3000 stub (some 2)) s = some s' ∧
      ShowsGrid framebuffer16x16 0xFFFFFF 1 2 2 s'
        (feedAll 2 2 (Terminal.empty blankChar) (exceptionText 14 0x1234 2)) := by
  intro isrStubAddr stubAt table callee c s
  have hstubs : ∀ v < 48, stubAt (isrStubAddr v) = isrStubTable[v]? := by
    intro v hv
    have hindex : ((isrStubAddr v).toNat - 0x2000) / 64 = v := by
      show ((BitVec.ofNat 64 (0x2000 + 64 * v)).toNat - 0x2000) / 64 = v
      rw [BitVec.toNat_ofNat]
      omega
    exact congrArg (isrStubTable[·]?) hindex
  have hmapped : framebuffer16x16.Mapped := ⟨rfl, by decide, by decide, by decide⟩
  have hconsole : framebuffer16x16.Console 0xFFFFFF 1 2 2 :=
    ⟨hmapped, ⟨rfl, rfl⟩, by decide, by decide, by decide⟩
  have hs : ShowsGrid framebuffer16x16 0xFFFFFF 1 2 2 s (Terminal.empty blankChar) :=
    ⟨renders_start (by decide) (fun _ _ _ => rfl) hmapped, Terminal.ready_empty (by decide) (by decide)⟩
  have hinit : idtInit 0x100000 isrStubAddr (fun _ => 0) = (table.1, table.2) := rfl
  have hroom : 256 ≤ c.sp.toNat := by decide
  obtain ⟨gate, stub, s', hgate, hstub, -, hprint, hs', -⟩ :=
    @exceptionReport_of_fault _ _ _ _ _ stubAt callee 0x3000 14 (some 2) c hinit (fun _ _ _ => rfl)
      (fun _ _ _ => rfl) hstubs (by decide) rfl hroom _ _ _ _ _ hconsole _ _ hs
  exact ⟨gate, stub, s', hgate, hstub, hprint, hs'⟩

end Ssos
