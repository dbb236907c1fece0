import Ssos.Foundations.RecordLayout
import Ssos.Interrupts.Stubs

/-!
# The interrupt descriptor table

`idt_set_descriptor` and `idt_init` of `interrupts/idt.c`, and the way a
processor looks a vector up in the table.

## Main results

- `lookupGate_idtInit` — every vector leads to its stub, or has no gate
- `takeVector_idtInit` — interrupts that come through the table are transparent
-/

namespace Ssos

open ByteMemory RecordLayout StackMachine

def idtEntryCount : ℕ := 256

def kernelCodeSelector : ℕ := 0x28

/-- The fields of `idt_entry_t`, as `idt_set_descriptor` writes them. -/
def idtEntry (isr : BitVec 64) (flags : UInt8) : List (ℕ × ℕ) :=
  [(2, (isr &&& 0xFFFF).toNat), (2, kernelCodeSelector), (1, 0), (1, flags.toNat),
    (2, ((isr >>> 16) &&& 0xFFFF).toNat), (4, ((isr >>> 32) &&& 0xFFFFFFFF).toNat), (4, 0)]

def idtSetDescriptor (idtEntries vector : ℕ) (isr : BitVec 64) (flags : UInt8) (m : Mem) : Mem :=
  storeFields (idtEntry isr flags) m (idtEntries + 16 * vector)

/-- The operand of `lidt`. -/
structure Idtr where
  limit : ℕ
  base : ℕ

/-- The loop over the vectors, up to `count`. -/
def idtInitLoop (idtEntries : ℕ) (isrStubAddr : ℕ → BitVec 64) : ℕ → Mem → Mem
  | 0, m => m
  | vector + 1, m =>
    idtSetDescriptor idtEntries vector (isrStubAddr vector) 0x8e
      (idtInitLoop idtEntries isrStubAddr vector m)

/-- `isrStubAddr` is the content of `isr_stub_table`. -/
def idtInit (idtEntries : ℕ) (isrStubAddr : ℕ → BitVec 64) (m : Mem) : Idtr × Mem :=
  (⟨16 * idtEntryCount - 1, idtEntries⟩, idtInitLoop idtEntries isrStubAddr 48 m)

/-! ### The lookup -/

/-- A gate of long mode. -/
structure Gate where
  offset : BitVec 64
  selector : ℕ
  ist : ℕ
  type : ℕ
  dpl : ℕ
deriving DecidableEq

def gateWidths : List ℕ := [2, 2, 1, 1, 2, 4, 4]

/-- The present gate that the fields of an entry describe. -/
def gateOfFields : List (ℕ × ℕ) → Option Gate
  | [(_, low), (_, selector), (_, ist), (_, attributes), (_, mid), (_, high), _] =>
    if attributes.testBit 7 then
      some ⟨BitVec.ofNat 64 (low + 2 ^ 16 * mid + 2 ^ 32 * high), selector, ist % 8,
        attributes % 16, attributes / 32 % 4⟩
    else none
  | _ => none

/-- The gate that a processor finds for a vector; `none` where it raises an
exception instead. -/
def lookupGate (idtr : Idtr) (m : Mem) (vector : ℕ) : Option Gate :=
  if 16 * vector + 15 ≤ idtr.limit then
    gateOfFields (readFields gateWidths m (idtr.base + 16 * vector))
  else none

/-- An interrupt gate for the kernel. -/
def interruptGate (isr : BitVec 64) : Gate := ⟨isr, kernelCodeSelector, 0, 14, 0⟩

section Table
variable {idtEntries count vector : ℕ} {isrStubAddr : ℕ → BitVec 64} {m : Mem}

theorem fits_idtEntry (isr : BitVec 64) (flags : UInt8) : Fits (idtEntry isr flags) := by
  have hflags := flags.toNat_lt
  simp only [Fits, idtEntry, List.forall_mem_cons, kernelCodeSelector]
  refine ⟨?_, by decide, by decide, by omega, ?_, ?_, by decide, fun _ h => absurd h List.not_mem_nil⟩
  all_goals
    rw [BitVec.toNat_and]
    exact lt_of_le_of_lt Nat.and_le_right (by decide)

/-- The parts of the address make the address. -/
theorem gateOfFields_idtEntry (isr : BitVec 64) :
    gateOfFields (idtEntry isr 0x8e) = some (interruptGate isr) := by
  have hlow : (isr &&& 0xFFFF).toNat = isr.toNat % 2 ^ 16 := by
    rw [BitVec.toNat_and]
    exact Nat.and_two_pow_sub_one_eq_mod isr.toNat 16
  have hmid : ((isr >>> 16) &&& 0xFFFF).toNat = isr.toNat / 2 ^ 16 % 2 ^ 16 := by
    rw [BitVec.toNat_and, BitVec.toNat_ushiftRight, Nat.shiftRight_eq_div_pow]
    exact Nat.and_two_pow_sub_one_eq_mod _ 16
  have hhigh : ((isr >>> 32) &&& 0xFFFFFFFF).toNat = isr.toNat / 2 ^ 32 % 2 ^ 32 := by
    rw [BitVec.toNat_and, BitVec.toNat_ushiftRight, Nat.shiftRight_eq_div_pow]
    exact Nat.and_two_pow_sub_one_eq_mod _ 32
  have hoffset : BitVec.ofNat 64 (isr.toNat % 2 ^ 16 + 2 ^ 16 * (isr.toNat / 2 ^ 16 % 2 ^ 16) +
      2 ^ 32 * (isr.toNat / 2 ^ 32 % 2 ^ 32)) = isr := by
    have hlt := isr.isLt
    apply BitVec.eq_of_toNat_eq
    rw [BitVec.toNat_ofNat]
    omega
  rw [idtEntry, hlow, hmid, hhigh]
  show some (Gate.mk (BitVec.ofNat 64 _) kernelCodeSelector 0 14 0) = _
  rw [hoffset]
  rfl

theorem idtInitLoop_apply_of_outside {x : ℕ}
    (hx : x < idtEntries ∨ idtEntries + 16 * count ≤ x) :
    idtInitLoop idtEntries isrStubAddr count m x = m x := by
  induction count with
  | zero => rfl
  | succ count ih =>
    rw [idtInitLoop, idtSetDescriptor, storeFields_apply_of_outside, ih (by omega)]
    have hsum : (widths (idtEntry (isrStubAddr count) 0x8e)).sum = 16 := rfl
    omega

theorem readFields_idtInitLoop (hvector : vector < count) :
    readFields gateWidths (idtInitLoop idtEntries isrStubAddr count m) (idtEntries + 16 * vector) =
      idtEntry (isrStubAddr vector) 0x8e := by
  induction count with
  | zero => exact absurd hvector (Nat.not_lt_zero vector)
  | succ count ih =>
    rw [idtInitLoop, idtSetDescriptor]
    rcases Nat.lt_succ_iff_lt_or_eq.1 hvector with hlt | rfl
    · rw [← ih hlt]
      refine readFields_congr fun x _ hend => storeFields_apply_of_outside (Or.inl ?_)
      have hsum : gateWidths.sum = 16 := rfl
      omega
    · exact readFields_storeFields (fits_idtEntry _ _) _ _

/-- **The table.** The array is a static one, so that the entries behind those
that are written are zero. -/
theorem lookupGate_idtInit {idtr : Idtr} {m' : Mem}
    (hinit : idtInit idtEntries isrStubAddr m = (idtr, m'))
    (hzero : ∀ x, idtEntries ≤ x → x < idtEntries + 16 * idtEntryCount → m x = 0) (vector : ℕ) :
    lookupGate idtr m' vector =
      if vector < 48 then some (interruptGate (isrStubAddr vector)) else none := by
  obtain ⟨rfl, rfl⟩ := Prod.mk.inj hinit
  have hlimit : 16 * vector + 15 ≤ 16 * idtEntryCount - 1 ↔ vector < 256 := by
    simp only [idtEntryCount]
    omega
  by_cases hvector : vector < 48
  · rw [lookupGate, if_pos (hlimit.2 (by omega)), if_pos hvector,
      readFields_idtInitLoop hvector, gateOfFields_idtEntry]
  · rw [lookupGate, if_neg hvector]
    split
    next hle =>
      have hlt := hlimit.1 hle
      have hattributes : loadLE 1 (idtInitLoop idtEntries isrStubAddr 48 m)
          (idtEntries + 16 * vector + 2 + 2 + 1) = 0 := by
        refine loadLE_eq_zero fun x hx hend => ?_
        rw [idtInitLoop_apply_of_outside (by omega)]
        exact hzero x (by omega) (by simp only [idtEntryCount]; omega)
      simp only [gateWidths, readFields, gateOfFields, hattributes]
      rfl
    next => rfl

/-- The table is read from the memory that keeps it. -/
theorem lookupGate_kept {idtr : Idtr} {m' mem : Mem}
    (hinit : idtInit idtEntries isrStubAddr m = (idtr, m'))
    (hzero : ∀ x, idtEntries ≤ x → x < idtEntries + 16 * idtEntryCount → m x = 0)
    (hmem : ∀ x, idtEntries ≤ x → x < idtEntries + 16 * idtEntryCount → mem x = m' x)
    (hvector : vector < 256) :
    lookupGate idtr mem vector =
      if vector < 48 then some (interruptGate (isrStubAddr vector)) else none := by
  rw [← lookupGate_idtInit hinit hzero, lookupGate, lookupGate, readFields_congr]
  intro x hx hend
  have hsum : gateWidths.sum = 16 := rfl
  obtain ⟨rfl, -⟩ := Prod.mk.inj hinit
  simp only [idtEntryCount] at *
  exact hmem x (by omega) (by omega)

end Table

/-! ### Delivery through the table -/

/-- The interrupt with the given vector. `stubAt` is the code that stands at an
address; without a gate or without a stub behind it there is no result. -/
def Machine.takeVector (idtr : Idtr) (stubAt : BitVec 64 → Option Stub)
    (callee : Handler → Cpu Reg → Cpu Reg) (returnAddr : BitVec 64) (vector : ℕ)
    (errorCode : Option (BitVec 64)) (c : Machine) : Option Machine :=
  (lookupGate idtr c.mem vector).bind fun gate =>
    (stubAt gate.offset).map fun stub =>
      c.interrupt callee returnAddr gate.offset (BitVec.ofNat 64 gate.selector) stub errorCode

/-- **Interrupts through the table.** Behind `idt_init` every interrupt request
and every exception but #CP and #VC runs its stub, and the interrupted code goes
on with all its registers; the other vectors have no gate. -/
theorem takeVector_idtInit {idtEntries : ℕ} {isrStubAddr : ℕ → BitVec 64} {idtr : Idtr}
    {m m' : Mem} {stubAt : BitVec 64 → Option Stub} {callee : Handler → Cpu Reg → Cpu Reg}
    {returnAddr : BitVec 64} {vector : ℕ} {errorCode : Option (BitVec 64)} {c : Machine}
    (hinit : idtInit idtEntries isrStubAddr m = (idtr, m'))
    (hzero : ∀ x, idtEntries ≤ x → x < idtEntries + 16 * idtEntryCount → m x = 0)
    (hmem : ∀ x, idtEntries ≤ x → x < idtEntries + 16 * idtEntryCount → c.mem x = m' x)
    (hstubs : ∀ v < 48, stubAt (isrStubAddr v) = isrStubTable[v]?)
    (hvector : vector < 256) (hne : vector ≠ 21 ∧ vector ≠ 29)
    (hcode : errorCode.isSome = pushesErrorCode vector) (hroom : 256 ≤ c.sp.toNat)
    (hreturns : ∀ stub e, Returns e (callee stub e)) :
    c.takeVector idtr stubAt callee returnAddr vector errorCode =
      isrStubTable[vector]?.map fun stub =>
        { c with mem := (callee stub.handler (c.handlerEntry callee returnAddr stub errorCode)).mem } := by
  rw [Machine.takeVector, lookupGate_kept hinit hzero hmem hvector]
  by_cases hlt : vector < 48
  · have hsome : isrStubTable[vector]? = some isrStubTable[vector] := List.getElem?_eq_getElem hlt
    obtain ⟨-, hpush⟩ := isrStubTable_spec vector hlt _ hsome
    rw [if_pos hlt, Option.bind_some, interruptGate, hstubs vector hlt, hsome, Option.map_some,
      Option.map_some, Machine.interrupt_restores _ hroom (hreturns _ _)]
    rw [hpush.2 hne, ← hcode, Option.not_isSome]
  · rw [if_neg hlt, List.getElem?_eq_none (Nat.le_of_not_lt hlt)]
    rfl

theorem takeVector_idtInit_keyboard :
    let isrStubAddr := fun v => BitVec.ofNat 64 (0x2000 + 64 * v)
    let stubAt := fun a : BitVec 64 => isrStubTable[(a.toNat - 0x2000) / 64]?
    let table := idtInit 0x100000 isrStubAddr fun _ => 0
    let callee := fun (_ : Handler) (e : Cpu Reg) => { e with sp := e.sp + 8 }
    let c : Machine := ⟨⟨fun _ => 7, 0x8000, table.2⟩, 0x1234, 0x28, 0x202, 0x30⟩
    (c.takeVector table.1 stubAt callee 0x3000 33 none).map (fun m => m.rip) = some 0x1234 := by
  intro isrStubAddr stubAt table callee c
  have hstubs : ∀ v < 48, stubAt (isrStubAddr v) = isrStubTable[v]? := by
    intro v hv
    have hindex : ((isrStubAddr v).toNat - 0x2000) / 64 = v := by
      show ((BitVec.ofNat 64 (0x2000 + 64 * v)).toNat - 0x2000) / 64 = v
      rw [BitVec.toNat_ofNat]
      omega
    exact congrArg (isrStubTable[·]?) hindex
  have hroom : 256 ≤ c.sp.toNat := by decide
  have hinit : idtInit 0x100000 isrStubAddr (fun _ => 0) = (table.1, table.2) := rfl
  have hreturns : ∀ (f : Handler) (e : Cpu Reg), Returns e (callee f e) := fun _ _ =>
    ⟨rfl, fun _ _ => rfl, fun _ _ _ => rfl⟩
  have htake : c.takeVector table.1 stubAt callee 0x3000 33 none = _ :=
    takeVector_idtInit hinit (fun _ _ _ => rfl) (fun _ _ _ => rfl) hstubs (by decide) (by decide) rfl
      hroom hreturns
  rw [htake]
  rfl

end Ssos
