import Ssos.Foundations.ByteMemory

/-!
# A stack machine

Registers that are saved on a stack in byte memory and restored from it. The
stack grows downwards in words of 64 bits; the stack pointer is no register of
the file. Instructions may call functions by name, and what a function does to
the machine is a parameter.

## Main results

- `exec_pushes` — pushed registers stand on the stack, the last one on top
- `exec_pops` — registers are popped in the order in which their values stand there
-/

namespace StackMachine

open ByteMemory

/-- The registers, the stack pointer and the memory. -/
structure Cpu (R : Type*) where
  reg : R → BitVec 64
  sp : BitVec 64
  mem : Mem

inductive Instr (R F : Type*)
  | push (r : R)
  | pushImm (value : BitVec 64)
  | pop (r : R)
  | mov (r : R) (value : BitVec 64)
  | movSp (r : R)
  | addSp (value : BitVec 64)
  | call (f : F)

section Machine
variable {R F : Type*}

def pushWord (value : BitVec 64) (c : Cpu R) : Cpu R :=
  { c with sp := c.sp - 8, mem := storeLE 8 c.mem (c.sp - 8).toNat value.toNat }

def topWord (c : Cpu R) : BitVec 64 := BitVec.ofNat 64 (loadLE 8 c.mem c.sp.toNat)

/-- `callee f` is what `f` does from its entry up to its return, which takes
the return address off the stack. -/
def step [DecidableEq R] (callee : F → Cpu R → Cpu R) (returnAddr : BitVec 64) (c : Cpu R) :
    Instr R F → Cpu R
  | .push r => pushWord (c.reg r) c
  | .pushImm value => pushWord value c
  | .pop r => { c with reg := Function.update c.reg r (topWord c), sp := c.sp + 8 }
  | .mov r value => { c with reg := Function.update c.reg r value }
  | .movSp r => { c with reg := Function.update c.reg r c.sp }
  | .addSp value => { c with sp := c.sp + value }
  | .call f => callee f (pushWord returnAddr c)

def exec [DecidableEq R] (callee : F → Cpu R → Cpu R) (returnAddr : BitVec 64)
    (program : List (Instr R F)) (c : Cpu R) : Cpu R :=
  program.foldl (step callee returnAddr) c

/-- The words stand one behind the other from `a` on. -/
def HoldsWords (m : Mem) : ℕ → List (BitVec 64) → Prop
  | _, [] => True
  | a, v :: vs => loadLE 8 m a = v.toNat ∧ HoldsWords m (a + 8) vs

variable {m m' : Mem} {a : ℕ} {vs : List (BitVec 64)}

theorem HoldsWords.congr (h : HoldsWords m a vs)
    (hm : ∀ x, a ≤ x → x < a + 8 * vs.length → m' x = m x) : HoldsWords m' a vs := by
  induction vs generalizing a with
  | nil => trivial
  | cons v vs ih =>
    rw [List.length_cons] at hm
    refine ⟨?_, ih h.2 fun x hx hlt => hm x (by omega) (by omega)⟩
    rw [← h.1]
    exact loadLE_congr fun x hx hlt => hm x hx (by omega)

/-- The words are loaded one by one. -/
theorem HoldsWords.load (h : HoldsWords m a vs) {k : ℕ} {v : BitVec 64} (hk : vs[k]? = some v) :
    BitVec.ofNat 64 (loadLE 8 m (a + 8 * k)) = v := by
  induction vs generalizing a k with
  | nil => exact absurd hk.symm (Option.some_ne_none v)
  | cons u vs ih =>
    cases k with
    | zero =>
      obtain rfl := Option.some_inj.1 hk
      rw [Nat.mul_zero, Nat.add_zero, h.1, BitVec.ofNat_toNat, BitVec.setWidth_eq]
    | succ k =>
      have hrest := ih h.2 hk
      rwa [Nat.add_assoc, Nat.add_comm 8, ← Nat.mul_add_one] at hrest

theorem HoldsWords.of_append {us : List (BitVec 64)} (h : HoldsWords m a (us ++ vs)) :
    HoldsWords m (a + 8 * us.length) vs := by
  induction us generalizing a with
  | nil => exact h
  | cons u us ih =>
    have hrest := ih h.2
    rw [show a + 8 + 8 * us.length = a + 8 * (us.length + 1) by omega] at hrest
    exact hrest

/-- A word pushed on the stack stands in front of those that were there. -/
theorem HoldsWords.pushWord {c : Cpu R} (h : HoldsWords c.mem c.sp.toNat vs)
    (hroom : 8 ≤ c.sp.toNat) (value : BitVec 64) :
    HoldsWords (StackMachine.pushWord value c).mem (StackMachine.pushWord value c).sp.toNat
      (value :: vs) := by
  have hsp : (c.sp - 8).toNat + 8 = c.sp.toNat := by bv_omega
  refine ⟨loadLE_storeLE_of_lt _ _ value.isLt, ?_⟩
  show HoldsWords (storeLE 8 c.mem (c.sp - 8).toNat value.toNat) ((c.sp - 8).toNat + 8) vs
  rw [hsp]
  exact h.congr fun x hx _ => storeLE_apply_of_outside (by omega)

/-- What pushing words below a stack pointer does to the machine. -/
structure Pushed (c c' : Cpu R) (n : ℕ) (vs : List (BitVec 64)) : Prop where
  reg : c'.reg = c.reg
  sp : c'.sp.toNat + 8 * n = c.sp.toNat
  holds : HoldsWords c'.mem c'.sp.toNat vs
  frame : ∀ x, x < c'.sp.toNat ∨ c.sp.toNat ≤ x → c'.mem x = c.mem x

/-- One more word. -/
theorem Pushed.pushWord {c c' : Cpu R} {n : ℕ} (h : Pushed c c' n vs)
    (hroom : 8 * (n + 1) ≤ c.sp.toNat) (value : BitVec 64) :
    Pushed c (StackMachine.pushWord value c') (n + 1) (value :: vs) := by
  have hsp := h.sp
  have hnext : (c'.sp - 8).toNat + 8 = c'.sp.toNat := by bv_omega
  refine ⟨h.reg, ?_, h.holds.pushWord (by omega) value, ?_⟩
  · show (c'.sp - 8).toNat + 8 * (n + 1) = c.sp.toNat
    omega
  · intro x hx
    have hx' : x < (c'.sp - 8).toNat ∨ c.sp.toNat ≤ x := hx
    show storeLE 8 c'.mem (c'.sp - 8).toNat value.toNat x = c.mem x
    rw [storeLE_apply_of_outside (by omega)]
    exact h.frame x (by omega)

variable [DecidableEq R] (callee : F → Cpu R → Cpu R) (returnAddr : BitVec 64)

theorem exec_append (p q : List (Instr R F)) (c : Cpu R) :
    exec callee returnAddr (p ++ q) c = exec callee returnAddr q (exec callee returnAddr p c) :=
  List.foldl_append

theorem exec_call (f : F) (p : List (Instr R F)) (c : Cpu R) :
    exec callee returnAddr (.call f :: p) c =
      exec callee returnAddr p (callee f (pushWord returnAddr c)) := rfl

/-- **Pushes.** -/
theorem exec_pushes {c c' : Cpu R} {n : ℕ} (h : Pushed c c' n vs) (rs : List R)
    (hroom : 8 * (n + rs.length) ≤ c.sp.toNat) :
    Pushed c (exec callee returnAddr (rs.map .push) c') (n + rs.length)
      (rs.reverse.map c.reg ++ vs) := by
  induction rs generalizing c' n vs with
  | nil => exact h
  | cons r rs ih =>
    rw [List.length_cons] at hroom ⊢
    have hfirst : exec callee returnAddr ((r :: rs).map .push) c' =
        exec callee returnAddr (rs.map .push) (pushWord (c.reg r) c') := by
      rw [← h.reg]
      rfl
    have hrest := ih (h.pushWord (by omega) (c.reg r)) (by omega)
    rw [Nat.add_assoc, Nat.add_comm 1] at hrest
    rw [hfirst, List.reverse_cons, List.map_append, List.append_assoc, List.map_singleton,
      List.singleton_append]
    exact hrest

/-- **Pops.** The registers get the values that stand on the stack; memory is
not changed. -/
theorem exec_pops {value : R → BitVec 64} {rs : List R} (hnodup : rs.Nodup) {c : Cpu R}
    (h : HoldsWords c.mem c.sp.toNat (rs.map value ++ vs))
    (hroom : c.sp.toNat + 8 * rs.length < 2 ^ 64) :
    exec callee returnAddr (rs.map .pop) c =
      { c with
        reg := fun r => if r ∈ rs then value r else c.reg r
        sp := c.sp + BitVec.ofNat 64 (8 * rs.length) } := by
  induction rs generalizing c with
  | nil => simp [exec]
  | cons r rs ih =>
    obtain ⟨hr, hnodup⟩ := List.nodup_cons.1 hnodup
    rw [List.length_cons] at hroom
    have htop : topWord c = value r := by
      rw [topWord, h.1, BitVec.ofNat_toNat, BitVec.setWidth_eq]
    have hsp : (c.sp + 8).toNat = c.sp.toNat + 8 := by bv_omega
    have hrest := @ih hnodup ⟨Function.update c.reg r (topWord c), c.sp + 8, c.mem⟩
      (by rw [hsp]; exact h.2) (by rw [hsp]; omega)
    refine Eq.trans hrest ?_
    simp only [htop, Cpu.mk.injEq, and_true, List.length_cons]
    constructor
    · funext r'
      by_cases heq : r' = r
      · subst heq
        rw [if_neg hr, Function.update_self, if_pos List.mem_cons_self]
      · simp only [Function.update_of_ne heq, List.mem_cons, heq, false_or]
    · bv_omega

end Machine

end StackMachine
