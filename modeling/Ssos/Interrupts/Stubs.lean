import Ssos.Foundations.StackMachine

/-!
# Interrupt stubs

The stubs of `interrupts/isr.asm`, between the processor that delivers an
interrupt and the C functions that handle it. A stub saves the registers so
that they and what the processor has pushed form an `interrupt_frame_t`, and
restores them when the function returns.

## Main results

- `stub_transparent` — an interrupt leaves the interrupted code as it was
- `handsOver_iff` — which vectors hand over the frame of the interrupted code
-/

namespace Ssos

open ByteMemory StackMachine

/-- The general registers without the stack pointer. -/
inductive Reg
  | rax | rbx | rcx | rdx | rsi | rdi | rbp
  | r8 | r9 | r10 | r11 | r12 | r13 | r14 | r15
deriving DecidableEq

/-- The functions that the stubs call. -/
inductive Handler
  | idtExceptionHandler
  | idtIrqHandler
deriving DecidableEq

/-! ### The code -/

/-- The registers that a stub pushes, in order. -/
def savedRegs : List Reg :=
  [.rax, .rbx, .rcx, .rdx, .rsi, .rdi, .r8, .r9, .r10, .r11, .r12, .r13, .r14, .r15]

/-- The stubs that the three macros make. -/
inductive Stub
  | irqStub (number : ℕ)
  | isrErrStub (number : ℕ)
  | isrNoErrStub (number : ℕ)

namespace Stub

def number : Stub → ℕ
  | .irqStub number => number
  | .isrErrStub number => number
  | .isrNoErrStub number => number

def handler : Stub → Handler
  | .irqStub _ => .idtIrqHandler
  | .isrErrStub _ => .idtExceptionHandler
  | .isrNoErrStub _ => .idtExceptionHandler

/-- `push 0` in place of an error code. -/
def pushesZero : Stub → Bool
  | .irqStub _ => true
  | .isrErrStub _ => false
  | .isrNoErrStub _ => true

/-- The instructions before the call. -/
def prologue (stub : Stub) : List (Instr Reg Handler) :=
  (if stub.pushesZero then [.pushImm 0] else []) ++
    (savedRegs.map .push ++ [.movSp .rdi, .mov .rsi (BitVec.ofNat 64 stub.number)])

/-- The instructions behind the call, up to `iretq`. -/
def epilogue : List (Instr Reg Handler) := savedRegs.reverse.map .pop ++ [.addSp 8]

def code (stub : Stub) : List (Instr Reg Handler) :=
  stub.prologue ++ .call stub.handler :: epilogue

end Stub

def isrStubTable : List Stub :=
  [.isrNoErrStub 0, .isrNoErrStub 1, .isrNoErrStub 2, .isrNoErrStub 3, .isrNoErrStub 4,
    .isrNoErrStub 5, .isrNoErrStub 6, .isrNoErrStub 7, .isrErrStub 8, .isrNoErrStub 9,
    .isrErrStub 10, .isrErrStub 11, .isrErrStub 12, .isrErrStub 13, .isrErrStub 14,
    .isrNoErrStub 15, .isrNoErrStub 16, .isrErrStub 17, .isrNoErrStub 18, .isrNoErrStub 19,
    .isrNoErrStub 20, .isrNoErrStub 21, .isrNoErrStub 22, .isrNoErrStub 23, .isrNoErrStub 24,
    .isrNoErrStub 25, .isrNoErrStub 26, .isrNoErrStub 27, .isrNoErrStub 28, .isrNoErrStub 29,
    .isrErrStub 30, .isrNoErrStub 31,
    .irqStub 0, .irqStub 1, .irqStub 2, .irqStub 3, .irqStub 4, .irqStub 5, .irqStub 6, .irqStub 7,
    .irqStub 8, .irqStub 9, .irqStub 10, .irqStub 11, .irqStub 12, .irqStub 13, .irqStub 14,
    .irqStub 15]

/-! ### The processor -/

structure Machine extends Cpu Reg where
  rip : BitVec 64
  cs : BitVec 64
  rflags : BitVec 64
  ss : BitVec 64

/-- The flags that an interrupt gate clears: TF, IF, NT, RF and VM. -/
def gateClearedFlags : BitVec 64 := 0x34300#64

namespace Machine

/-- The stack with what the processor pushes, from an aligned stack pointer on. -/
def deliveredStack (errorCode : Option (BitVec 64)) (c : Machine) : Cpu Reg :=
  let cpu := pushWord c.ss { c.toCpu with sp := c.sp &&& ~~~15#64 }
  let cpu := pushWord c.rip (pushWord c.cs (pushWord c.rflags (pushWord c.sp cpu)))
  match errorCode with
  | none => cpu
  | some code => pushWord code cpu

/-- The delivery of an interrupt through an interrupt gate, on the stack in use. -/
def deliver (gateOffset gateSelector : BitVec 64) (errorCode : Option (BitVec 64)) (c : Machine) :
    Machine :=
  { c with
    toCpu := c.deliveredStack errorCode
    rip := gateOffset
    cs := gateSelector
    rflags := c.rflags &&& ~~~gateClearedFlags }

/-- The word `k` places above the stack pointer. -/
def stackWord (c : Machine) (k : ℕ) : BitVec 64 :=
  BitVec.ofNat 64 (loadLE 8 c.mem (c.sp.toNat + 8 * k))

def iretq (c : Machine) : Machine :=
  { c with
    rip := c.stackWord 0
    cs := c.stackWord 1
    rflags := c.stackWord 2
    sp := c.stackWord 3
    ss := c.stackWord 4 }

/-- The state in which the function called by the stub starts, with its return
address on the stack. -/
def handlerEntry (callee : Handler → Cpu Reg → Cpu Reg) (returnAddr : BitVec 64) (stub : Stub)
    (errorCode : Option (BitVec 64)) (c : Machine) : Cpu Reg :=
  pushWord returnAddr (exec callee returnAddr stub.prologue (c.deliveredStack errorCode))

/-- An interrupt from its delivery up to `iretq`. -/
def interrupt (callee : Handler → Cpu Reg → Cpu Reg) (returnAddr gateOffset gateSelector : BitVec 64)
    (stub : Stub) (errorCode : Option (BitVec 64)) (c : Machine) : Machine :=
  let c := c.deliver gateOffset gateSelector errorCode
  iretq { c with toCpu := exec callee returnAddr stub.code c.toCpu }

end Machine

/-! ### The frame -/

structure InterruptFrame where
  r15 : BitVec 64
  r14 : BitVec 64
  r13 : BitVec 64
  r12 : BitVec 64
  r11 : BitVec 64
  r10 : BitVec 64
  r9 : BitVec 64
  r8 : BitVec 64
  rdi : BitVec 64
  rsi : BitVec 64
  rdx : BitVec 64
  rcx : BitVec 64
  rbx : BitVec 64
  rax : BitVec 64
  errorCode : BitVec 64
  rip : BitVec 64
  cs : BitVec 64
  rflags : BitVec 64
  rsp : BitVec 64
  ss : BitVec 64
deriving DecidableEq

namespace InterruptFrame

/-- The fields in their order in memory. -/
def words (f : InterruptFrame) : List (BitVec 64) :=
  [f.r15, f.r14, f.r13, f.r12, f.r11, f.r10, f.r9, f.r8, f.rdi, f.rsi, f.rdx, f.rcx, f.rbx, f.rax,
    f.errorCode, f.rip, f.cs, f.rflags, f.rsp, f.ss]

/-- The packed structure at `p`. -/
def read (m : Mem) (p : ℕ) : InterruptFrame :=
  let field (k : ℕ) : BitVec 64 := BitVec.ofNat 64 (loadLE 8 m (p + 8 * k))
  ⟨field 0, field 1, field 2, field 3, field 4, field 5, field 6, field 7, field 8, field 9,
    field 10, field 11, field 12, field 13, field 14, field 15, field 16, field 17, field 18,
    field 19⟩

end InterruptFrame

/-- The frame of the interrupted code. -/
def Machine.frame (c : Machine) (errorCode : BitVec 64) : InterruptFrame where
  r15 := c.reg .r15
  r14 := c.reg .r14
  r13 := c.reg .r13
  r12 := c.reg .r12
  r11 := c.reg .r11
  r10 := c.reg .r10
  r9 := c.reg .r9
  r8 := c.reg .r8
  rdi := c.reg .rdi
  rsi := c.reg .rsi
  rdx := c.reg .rdx
  rcx := c.reg .rcx
  rbx := c.reg .rbx
  rax := c.reg .rax
  errorCode
  rip := c.rip
  cs := c.cs
  rflags := c.rflags
  rsp := c.sp
  ss := c.ss

theorem InterruptFrame.read_of_holds {m : Mem} {p : ℕ} {f : InterruptFrame}
    (h : HoldsWords m p f.words) : InterruptFrame.read m p = f := by
  cases f
  simp only [InterruptFrame.read, InterruptFrame.mk.injEq]
  refine ⟨?_, ?_, ?_, ?_, ?_, ?_, ?_, ?_, ?_, ?_, ?_, ?_, ?_, ?_, ?_, ?_, ?_, ?_, ?_, ?_⟩ <;>
    exact h.load rfl

/-! ### From the interrupted code to the handler -/

section Entry
variable {callee : Handler → Cpu Reg → Cpu Reg} {returnAddr : BitVec 64} {stub : Stub}
  {errorCode : Option (BitVec 64)} {c : Machine}

/-- The stack pointer is rounded down to a multiple of 16. -/
theorem toNat_aligned (sp : BitVec 64) : (sp &&& ~~~15#64).toNat = sp.toNat / 16 * 16 := by
  have hshift : sp &&& ~~~15#64 = sp >>> 4 <<< 4 := by
    apply BitVec.eq_of_getLsbD_eq
    intro i hi
    have hmask : ∀ i < 64, (~~~15#64).getLsbD i = decide (4 ≤ i) := by decide
    rw [BitVec.getLsbD_and, hmask i hi, BitVec.getLsbD_shiftLeft, BitVec.getLsbD_ushiftRight]
    by_cases hlow : i < 4
    · simp [hlow]
    · simp [hlow, hi, Nat.le_of_not_lt hlow]
  have hlt := sp.isLt
  rw [hshift, BitVec.toNat_shiftLeft, BitVec.toNat_ushiftRight, Nat.shiftRight_eq_div_pow,
    Nat.shiftLeft_eq]
  omega

/-- What the stub and the processor have put on the stack, from the top. -/
def entryWords (stub : Stub) (errorCode : Option (BitVec 64)) (c : Machine) : List (BitVec 64) :=
  savedRegs.reverse.map c.reg ++
    ((if stub.pushesZero then [0] else []) ++ (errorCode.toList ++ [c.rip, c.cs, c.rflags, c.sp, c.ss]))

theorem length_entryWords : (entryWords stub errorCode c).length =
    19 + (if stub.pushesZero then 1 else 0) + errorCode.toList.length := by
  cases errorCode <;> cases hzero : stub.pushesZero <;> simp [entryWords, savedRegs, hzero]

/-- The state in which the handler starts. -/
structure Entered (stub : Stub) (errorCode : Option (BitVec 64)) (c : Machine) (e : Cpu Reg) :
    Prop where
  rdi : e.reg .rdi = e.sp + 8
  rsi : e.reg .rsi = BitVec.ofNat 64 stub.number
  others : ∀ r, r ≠ .rdi → r ≠ .rsi → e.reg r = c.reg r
  sp : e.sp.toNat + 8 + 8 * (entryWords stub errorCode c).length = c.sp.toNat / 16 * 16
  holds : HoldsWords e.mem (e.sp.toNat + 8) (entryWords stub errorCode c)
  frame : ∀ x, c.sp.toNat ≤ x → e.mem x = c.mem x

/-- What the processor pushes. -/
theorem deliveredStack_pushed (hroom : 256 ≤ c.sp.toNat) (errorCode : Option (BitVec 64)) :
    Pushed { c.toCpu with sp := c.sp &&& ~~~15#64 } (c.deliveredStack errorCode)
      (errorCode.toList.length + 5) (errorCode.toList ++ [c.rip, c.cs, c.rflags, c.sp, c.ss]) := by
  have hbase := toNat_aligned c.sp
  have hstart : Pushed { c.toCpu with sp := c.sp &&& ~~~15#64 }
      { c.toCpu with sp := c.sp &&& ~~~15#64 } 0 [] := ⟨rfl, rfl, trivial, fun _ _ => rfl⟩
  have hroom' : ∀ n ≤ 10, 8 * (n + 1) ≤ ({ c.toCpu with sp := c.sp &&& ~~~15#64 } : Cpu Reg).sp.toNat := by
    intro n hn
    simp only [hbase]
    omega
  have hfive := ((((hstart.pushWord (hroom' 0 (by decide)) c.ss).pushWord (hroom' 1 (by decide))
    c.sp).pushWord (hroom' 2 (by decide)) c.rflags).pushWord (hroom' 3 (by decide)) c.cs).pushWord
      (hroom' 4 (by decide)) c.rip
  cases errorCode with
  | none => exact hfive
  | some code => exact hfive.pushWord (hroom' 5 (by decide)) code

theorem handlerEntry_entered (hroom : 256 ≤ c.sp.toNat) :
    Entered stub errorCode c (c.handlerEntry callee returnAddr stub errorCode) := by
  have hbase := toNat_aligned c.sp
  have hcode : errorCode.toList.length ≤ 1 := by cases errorCode <;> simp
  have hdelivered := deliveredStack_pushed hroom errorCode
  have hzero : Pushed { c.toCpu with sp := c.sp &&& ~~~15#64 }
      (exec callee returnAddr (if stub.pushesZero then [.pushImm 0] else [])
        (c.deliveredStack errorCode))
      (errorCode.toList.length + 5 + (if stub.pushesZero then 1 else 0))
      ((if stub.pushesZero then [0] else []) ++
        (errorCode.toList ++ [c.rip, c.cs, c.rflags, c.sp, c.ss])) := by
    cases stub.pushesZero with
    | false => exact hdelivered
    | true =>
      refine hdelivered.pushWord ?_ 0
      simp only [hbase]
      omega
  have hsaved := exec_pushes callee returnAddr hzero savedRegs (by
    simp only [hbase, savedRegs, List.length_cons, List.length_nil]
    split <;> omega)
  generalize hs : exec callee returnAddr (savedRegs.map .push) (exec callee returnAddr
    (if stub.pushesZero then [.pushImm 0] else []) (c.deliveredStack errorCode)) = s at hsaved
  have hentry : c.handlerEntry callee returnAddr stub errorCode = pushWord returnAddr
      ⟨Function.update (Function.update s.reg .rdi s.sp) .rsi (BitVec.ofNat 64 stub.number),
        s.sp, s.mem⟩ := by
    rw [Machine.handlerEntry, Stub.prologue, exec_append, exec_append, hs]
    rfl
  have hlen := @length_entryWords stub errorCode c
  have hsp : s.sp.toNat + 8 * (entryWords stub errorCode c).length = c.sp.toNat / 16 * 16 := by
    rw [← hbase, ← hsaved.sp, hlen]
    simp only [savedRegs, List.length_cons, List.length_nil]
    omega
  have hlen' : (entryWords stub errorCode c).length ≤ 21 := by
    rw [hlen]
    split <;> omega
  have hnext : (s.sp - 8).toNat + 8 = s.sp.toNat := by bv_omega
  rw [hentry]
  refine ⟨?_, ?_, ?_, ?_, ?_, ?_⟩
  · show s.sp = s.sp - 8 + 8
    bv_omega
  · rfl
  · intro r hrdi hrsi
    show Function.update (Function.update s.reg .rdi s.sp) .rsi _ r = c.reg r
    rw [Function.update_of_ne hrsi, Function.update_of_ne hrdi, hsaved.reg]
  · show (s.sp - 8).toNat + 8 + _ = _
    rw [hnext, hsp]
  · show HoldsWords (storeLE 8 s.mem (s.sp - 8).toNat returnAddr.toNat) ((s.sp - 8).toNat + 8) _
    rw [hnext]
    exact hsaved.holds.congr fun x hx _ => storeLE_apply_of_outside (by omega)
  · intro x hx
    show storeLE 8 s.mem (s.sp - 8).toNat returnAddr.toNat x = c.mem x
    rw [storeLE_apply_of_outside (by omega)]
    refine hsaved.frame x (Or.inr ?_)
    simp only [hbase]
    omega

end Entry

/-! ### Back to the interrupted code -/

/-- The registers that a function keeps. -/
def calleeSaved : List Reg := [.rbx, .rbp, .r12, .r13, .r14, .r15]

/-- The calling convention for a function that runs from `e` to `e'` and does
not write to the frame behind its return address. -/
structure Returns (e e' : Cpu Reg) : Prop where
  sp : e'.sp = e.sp + 8
  saved : ∀ r ∈ calleeSaved, e'.reg r = e.reg r
  frame : ∀ x, e.sp.toNat + 8 ≤ x → x < e.sp.toNat + 168 → e'.mem x = e.mem x

section Return
variable {callee : Handler → Cpu Reg → Cpu Reg} {returnAddr gateOffset gateSelector : BitVec 64}
  {stub : Stub} {errorCode : Option (BitVec 64)} {c : Machine}

/-- The stack is the frame when the stub pushes a zero just where the processor
pushes no error code. -/
theorem entryWords_eq_words (hcode : stub.pushesZero = errorCode.isNone) :
    entryWords stub errorCode c = (c.frame (errorCode.getD 0)).words := by
  cases errorCode <;> simp [entryWords, hcode, savedRegs, InterruptFrame.words, Machine.frame]

/-- The epilogue with `iretq`, on a stack that holds the frame. -/
theorem epilogue_restores {e : Cpu Reg} {word : BitVec 64} {m : Machine}
    (hholds : HoldsWords e.mem e.sp.toNat
      (savedRegs.reverse.map c.reg ++ [word, c.rip, c.cs, c.rflags, c.sp, c.ss]))
    (hroom : e.sp.toNat + 160 < 2 ^ 64) (hrbp : e.reg .rbp = c.reg .rbp) :
    Machine.iretq { m with toCpu := exec callee returnAddr Stub.epilogue e } =
      { c with mem := e.mem } := by
  have hlen : savedRegs.reverse.length = 14 := rfl
  have hpops := exec_pops callee returnAddr (show savedRegs.reverse.Nodup by decide) hholds (by omega)
  have hexec : exec callee returnAddr Stub.epilogue e =
      ⟨c.reg, e.sp + 120, e.mem⟩ := by
    rw [Stub.epilogue, exec_append, hpops]
    show Cpu.mk _ (e.sp + BitVec.ofNat 64 (8 * 14) + 8) e.mem = _
    rw [Cpu.mk.injEq]
    refine ⟨?_, by bv_omega, rfl⟩
    funext r
    cases r <;> first | rfl | exact hrbp
  have hsp : (e.sp + 120).toNat = e.sp.toNat + 8 * 15 := by bv_omega
  have hword : ∀ k v, [c.rip, c.cs, c.rflags, c.sp, c.ss][k]? = some v →
      BitVec.ofNat 64 (loadLE 8 e.mem ((e.sp + 120).toNat + 8 * k)) = v := by
    intro k v hk
    have hfive : HoldsWords e.mem (e.sp.toNat + 8 * 15) [c.rip, c.cs, c.rflags, c.sp, c.ss] :=
      (List.append_cons _ word _ ▸ hholds).of_append
    rw [hsp]
    exact hfive.load hk
  rw [hexec]
  simp only [Machine.iretq, Machine.stackWord, hword 0 _ rfl, hword 1 _ rfl, hword 2 _ rfl,
    hword 3 _ rfl, hword 4 _ rfl]

section Entered
variable {e e' : Cpu Reg} {m : Machine}

/-- The return address and the frame behind it, on the aligned stack. -/
theorem Entered.sp_add (h : Entered stub errorCode c e) (hcode : stub.pushesZero = errorCode.isNone) :
    e.sp.toNat + 168 = c.sp.toNat / 16 * 16 := by
  have hsp := h.sp
  rw [entryWords_eq_words hcode, show (c.frame (errorCode.getD 0)).words.length = 20 from rfl] at hsp
  omega

theorem Entered.toNat_rdi (h : Entered stub errorCode c e) :
    (e.reg .rdi).toNat = e.sp.toNat + 8 := by
  have hsp := h.sp
  have hlt := c.sp.isLt
  rw [h.rdi]
  bv_omega

theorem Entered.read_frame (h : Entered stub errorCode c e)
    (hcode : stub.pushesZero = errorCode.isNone) :
    InterruptFrame.read e.mem (e.reg .rdi).toNat = c.frame (errorCode.getD 0) := by
  rw [h.toNat_rdi]
  exact InterruptFrame.read_of_holds (entryWords_eq_words hcode ▸ h.holds)

theorem Entered.restores (h : Entered stub errorCode c e)
    (hcode : stub.pushesZero = errorCode.isNone) (hreturns : Returns e e') :
    Machine.iretq { m with toCpu := exec callee returnAddr Stub.epilogue e' } =
      { c with mem := e'.mem } := by
  have hsp := h.sp_add hcode
  have hlt := c.sp.isLt
  have hback : e'.sp.toNat = e.sp.toNat + 8 := by
    rw [hreturns.sp]
    bv_omega
  have hholds : HoldsWords e'.mem e'.sp.toNat (entryWords stub errorCode c) := by
    rw [hback]
    refine h.holds.congr fun x hx hend => hreturns.frame x hx ?_
    rw [entryWords_eq_words hcode] at hend
    exact hend.trans_le (Nat.le_of_eq (Nat.add_assoc _ 8 160))
  rw [entryWords_eq_words hcode] at hholds
  refine epilogue_restores hholds (by omega) ?_
  rw [hreturns.saved .rbp (by decide), h.others .rbp (by decide) (by decide)]

end Entered

theorem Machine.interrupt_eq :
    c.interrupt callee returnAddr gateOffset gateSelector stub errorCode =
      Machine.iretq { c.deliver gateOffset gateSelector errorCode with
        toCpu := exec callee returnAddr Stub.epilogue
          (callee stub.handler (c.handlerEntry callee returnAddr stub errorCode)) } := by
  rw [Machine.interrupt, Stub.code, exec_append, exec_call]
  rfl

theorem Machine.interrupt_restores (hcode : stub.pushesZero = errorCode.isNone)
    (hroom : 256 ≤ c.sp.toNat)
    (hreturns : Returns (c.handlerEntry callee returnAddr stub errorCode)
      (callee stub.handler (c.handlerEntry callee returnAddr stub errorCode))) :
    c.interrupt callee returnAddr gateOffset gateSelector stub errorCode =
      { c with mem :=
        (callee stub.handler (c.handlerEntry callee returnAddr stub errorCode)).mem } := by
  rw [Machine.interrupt_eq]
  exact (handlerEntry_entered hroom).restores hcode hreturns

/-- **Interrupts are transparent.** The function called by the stub gets the
frame of the interrupted code, on an aligned stack that stands below everything
the interrupted code has on its own. When it returns, the interrupted code goes
on with all its registers and flags; only what the function has written to
memory is new. -/
theorem stub_transparent (hcode : stub.pushesZero = errorCode.isNone) (hroom : 256 ≤ c.sp.toNat)
    (hreturns : Returns (c.handlerEntry callee returnAddr stub errorCode)
      (callee stub.handler (c.handlerEntry callee returnAddr stub errorCode))) :
    let e := c.handlerEntry callee returnAddr stub errorCode
    (InterruptFrame.read e.mem (e.reg .rdi).toNat = c.frame (errorCode.getD 0) ∧
      e.reg .rsi = BitVec.ofNat 64 stub.number ∧ e.sp.toNat % 16 = 8 ∧
      ∀ x, c.sp.toNat ≤ x → e.mem x = c.mem x) ∧
    c.interrupt callee returnAddr gateOffset gateSelector stub errorCode =
      { c with mem := (callee stub.handler e).mem } := by
  have hentered : Entered stub errorCode c (c.handlerEntry callee returnAddr stub errorCode) :=
    handlerEntry_entered hroom
  have hsp := hentered.sp_add hcode
  exact ⟨⟨hentered.read_frame hcode, hentered.rsi, by omega, hentered.frame⟩,
    Machine.interrupt_restores hcode hroom hreturns⟩

end Return

theorem stub_transparent_timer :
    let callee := fun (_ : Handler) (e : Cpu Reg) =>
      { e with reg := Function.update e.reg .rax 0, sp := e.sp + 8 }
    let c : Machine := ⟨⟨fun _ => 7, 0x8000, fun _ => 0⟩, 0x1234, 0x28, 0x202, 0x30⟩
    (c.interrupt callee 0x2000 0x3000 0x28 (.irqStub 0) none).reg = c.reg := by
  intro callee c
  have hreturns : ∀ e : Cpu Reg, Returns e (callee .idtIrqHandler e) := fun e =>
    ⟨rfl, fun r hr => Function.update_of_ne (by rintro rfl; exact absurd hr (by decide)) 0 e.reg,
      fun _ _ _ => rfl⟩
  have hroom : 256 ≤ c.sp.toNat := by decide
  rw [(stub_transparent rfl hroom (hreturns _)).2]

/-! ### The exceptions -/

/-- The vectors for which a processor pushes an error code: #DF, #TS, #NP, #SS,
#GP, #PF, #AC, #CP, #VC and #SX. -/
def pushesErrorCode (vector : ℕ) : Bool := vector ∈ [8, 10, 11, 12, 13, 14, 17, 21, 29, 30]

/-- The number that the handler of a vector expects: exceptions are counted
from 0, interrupt requests from 32. -/
def vectorNumber (vector : ℕ) : ℕ := if vector < 32 then vector else vector - 32

/-- Whatever the vector interrupts, its handler gets the frame of that code. -/
def HandsOver (vector : ℕ) (stub : Stub) : Prop :=
  ∀ (callee : Handler → Cpu Reg → Cpu Reg) (returnAddr : BitVec 64)
    (errorCode : Option (BitVec 64)) (c : Machine),
    errorCode.isSome = pushesErrorCode vector → 256 ≤ c.sp.toNat →
      let e := c.handlerEntry callee returnAddr stub errorCode
      InterruptFrame.read e.mem (e.reg .rdi).toNat = c.frame (errorCode.getD 0) ∧
        e.reg .rsi = BitVec.ofNat 64 (vectorNumber vector) ∧ e.sp.toNat % 16 = 8

theorem isrStubTable_spec : ∀ vector < 48, ∀ stub ∈ isrStubTable[vector]?,
    stub.number = vectorNumber vector ∧
      (stub.pushesZero = !pushesErrorCode vector ↔ vector ≠ 21 ∧ vector ≠ 29) := by
  decide

/-- A stub that pushes a zero on top of an error code hands over the zero. -/
theorem not_handsOver {vector : ℕ} {stub : Stub} (hzero : stub.pushesZero = true)
    (hvector : pushesErrorCode vector = true) : ¬ HandsOver vector stub := by
  intro h
  let c : Machine := ⟨⟨fun _ => 0, 256, fun _ => 0⟩, 0, 0, 0, 0⟩
  obtain ⟨hread, -⟩ := h (fun _ e => e) 0 (some 1) c hvector.symm (by decide)
  have hentered : Entered stub (some 1) c (c.handlerEntry (fun _ e => e) 0 stub (some 1)) :=
    handlerEntry_entered (by decide)
  have hword : (entryWords stub (some 1) c)[14]? = some 0 := by
    simp [entryWords, hzero, savedRegs]
  have hload := hentered.holds.load hword
  rw [← hentered.toNat_rdi] at hload
  have hone := congrArg InterruptFrame.errorCode hread
  exact absurd (hload.symm.trans hone) (by decide)

/-- **Exceptions.** Every vector of the table gets the frame of the interrupted
code, except #CP and #VC: their stubs take the error code for the instruction
pointer. -/
theorem handsOver_iff {vector : ℕ} {stub : Stub} (hstub : isrStubTable[vector]? = some stub) :
    HandsOver vector stub ↔ vector ≠ 21 ∧ vector ≠ 29 := by
  have hlt : vector < 48 := (List.getElem?_eq_some_iff.1 hstub).1
  obtain ⟨hnumber, hzero⟩ := isrStubTable_spec vector hlt stub hstub
  rw [← hzero]
  constructor
  · intro h
    by_contra hne
    rw [hzero, not_and_or, not_not, not_not] at hne
    obtain rfl | rfl := hne
    all_goals
      obtain rfl := Option.some_inj.1 hstub
      exact not_handsOver rfl rfl h
  · intro h callee returnAddr errorCode c hcode hroom
    have hcode' : stub.pushesZero = errorCode.isNone := by
      rw [h, ← hcode, Option.not_isSome]
    have hentered : Entered stub errorCode c (c.handlerEntry callee returnAddr stub errorCode) :=
      handlerEntry_entered hroom
    have hsp := hentered.sp_add hcode'
    exact ⟨hentered.read_frame hcode', hnumber ▸ hentered.rsi, by omega⟩

theorem handsOver_pageFault : HandsOver 14 (.isrErrStub 14) :=
  (handsOver_iff rfl).2 (by decide)

end Ssos
