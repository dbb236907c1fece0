import Mathlib.Data.List.Basic
import Ssos.Foundations.ByteMemory

/-!
# Allocators

What a client of `malloc` and `free` relies on. The operations of a heap may
have no result; the contract of an allocator says when they have one, which
blocks are live afterwards, and that the live blocks keep their bytes. An
access outside the live blocks and a `free` of anything else have no result.

## Main results

- `copyBytes_spec` — copying a range into a live block
- `moveBytes_spec` — moving the contents of a block to a new one
- `bump` — an allocator that never uses memory twice
-/

namespace Allocation

open ByteMemory

structure Block where
  addr : ℕ
  size : ℕ
deriving DecidableEq

/-- The bytes of a block. -/
def Block.Has (b : Block) (a : ℕ) : Prop := b.addr ≤ a ∧ a < b.addr + b.size

instance (b : Block) (a : ℕ) : Decidable (b.Has a) := inferInstanceAs (Decidable (_ ∧ _))

def Block.Apart (b c : Block) : Prop := b.addr + b.size ≤ c.addr ∨ c.addr + c.size ≤ b.addr

/-- The operations on a heap of type `H`; `malloc` answers 0 when it has no room. -/
structure HeapOps (H : Type*) where
  malloc : ℕ → H → Option (ℕ × H)
  free : ℕ → H → Option H
  load : H → ℕ → UInt8
  store : ℕ → UInt8 → H → Option H

/-- `for (i = 0; i < n; i++) dest[i] = src[i]`. -/
def HeapOps.copyBytes {H : Type*} (ops : HeapOps H) (dest src : ℕ) : ℕ → H → Option H
  | 0, h => some h
  | n + 1, h =>
    match ops.copyBytes dest src n h with
    | none => none
    | some h => ops.store (dest + n) (ops.load h (src + n)) h

/-- The contract, over an address space of 64 bits. -/
structure Allocator (H : Type*) extends HeapOps H where
  live : H → List Block
  initial : H
  live_initial : live initial = []
  malloc_defined : ∀ n h, ∃ res, malloc n h = some res
  malloc_null : ∀ n h h', malloc n h = some (0, h') → live h' = live h
  malloc_fresh : ∀ n h p h', malloc n h = some (p, h') → p ≠ 0 →
    live h' = ⟨p, n⟩ :: live h ∧ p + n ≤ 2 ^ 64 ∧ ∀ b ∈ live h, Block.Apart ⟨p, n⟩ b
  malloc_load : ∀ n h p h', malloc n h = some (p, h') → ∀ b ∈ live h, ∀ a, b.Has a →
    load h' a = load h a
  free_defined : ∀ h, ∀ b ∈ live h, ∃ h', free b.addr h = some h'
  free_live : ∀ p h h', free p h = some h' → ∃ b ∈ live h, b.addr = p ∧ live h' = (live h).erase b
  free_load : ∀ p h h', free p h = some h' → ∀ b ∈ live h', ∀ a, b.Has a → load h' a = load h a
  store_defined : ∀ a v h, ∀ b ∈ live h, b.Has a → ∃ h', store a v h = some h'
  store_inside : ∀ a v h h', store a v h = some h' → ∃ b ∈ live h, b.Has a
  store_live : ∀ a v h h', store a v h = some h' → live h' = live h
  store_load : ∀ a v h h', store a v h = some h' → load h' = Function.update (load h) a v

section Copy
variable {H : Type*} (A : Allocator H) {h : H} {b : Block} {src n : ℕ}

/-- A range next to a live block is copied to its front. -/
theorem Allocator.copyBytes_spec (hb : b ∈ A.live h) (hn : n ≤ b.size)
    (hapart : b.Apart ⟨src, n⟩) :
    ∃ h', A.copyBytes b.addr src n h = some h' ∧ A.live h' = A.live h ∧
      ∀ a, A.load h' a =
        if b.addr ≤ a ∧ a < b.addr + n then A.load h (src + (a - b.addr)) else A.load h a := by
  induction n with
  | zero =>
    refine ⟨h, rfl, rfl, ?_⟩
    intro a
    rw [if_neg (by omega)]
  | succ n ih =>
    simp only [Block.Apart] at hapart ih
    obtain ⟨h₁, hcopy, hlive, hload⟩ := ih (by omega) (by omega)
    have hhas : b.Has (b.addr + n) := ⟨by omega, by omega⟩
    obtain ⟨h₂, hstore⟩ :=
      A.store_defined (b.addr + n) (A.load h₁ (src + n)) h₁ b (hlive ▸ hb) hhas
    refine ⟨h₂, ?_, ?_, ?_⟩
    · rw [HeapOps.copyBytes, hcopy]
      exact hstore
    · rw [A.store_live _ _ _ _ hstore, hlive]
    · intro a
      rw [A.store_load _ _ _ _ hstore]
      by_cases ha : a = b.addr + n
      · subst ha
        rw [Function.update_self, hload, if_neg (by omega), if_pos (by omega),
          Nat.add_sub_cancel_left]
      · rw [Function.update_of_ne ha, hload]
        by_cases hin : b.addr ≤ a ∧ a < b.addr + n
        · rw [if_pos hin, if_pos (by omega)]
        · rw [if_neg hin, if_neg (by omega)]

/-- The front of one block is moved to the other, and the block is freed. -/
theorem Allocator.moveBytes_spec {old : Block} (hlive : A.live h = [b, old])
    (hne : b.addr ≠ old.addr) (hn : n ≤ b.size) (hold : n ≤ old.size) (hapart : b.Apart old) :
    ∃ h₁ h₂, A.copyBytes b.addr old.addr n h = some h₁ ∧ A.free old.addr h₁ = some h₂ ∧
      A.live h₂ = [b] ∧ ∀ i < n, A.load h₂ (b.addr + i) = A.load h (old.addr + i) := by
  have hb : b ∈ A.live h := hlive ▸ List.mem_cons_self
  have haway : b.Apart ⟨old.addr, n⟩ := by
    simp only [Block.Apart] at hapart ⊢
    omega
  obtain ⟨h₁, hcopy, hlive₁, hload₁⟩ := A.copyBytes_spec hb hn haway
  rw [hlive] at hlive₁
  have hmem : old ∈ A.live h₁ := by
    rw [hlive₁]
    exact List.mem_cons_of_mem _ (List.mem_singleton_self _)
  obtain ⟨h₂, hfree⟩ := A.free_defined h₁ old hmem
  obtain ⟨c, hc, haddr, hlive₂⟩ := A.free_live _ _ _ hfree
  have hlast : A.live h₂ = [b] := by
    rw [hlive₁, List.mem_cons, List.mem_singleton] at hc
    obtain rfl | rfl := hc
    · exact absurd haddr hne
    · have hbc : ¬(b == c) = true := fun heq => hne (congrArg Block.addr (eq_of_beq heq))
      rw [hlive₂, hlive₁, List.erase_cons_tail hbc, List.erase_cons_head]
  refine ⟨h₁, h₂, hcopy, hfree, hlast, ?_⟩
  intro i hi
  have hhas : b.Has (b.addr + i) :=
    ⟨Nat.le_add_right _ i, Nat.add_lt_add_left (hi.trans_le hn) b.addr⟩
  rw [A.free_load _ _ _ hfree b (hlast ▸ List.mem_singleton_self b) _ hhas, hload₁,
    if_pos ⟨Nat.le_add_right _ i, Nat.add_lt_add_left hi b.addr⟩, Nat.add_sub_cancel_left]

end Copy

/-! ### One heap seen as another -/

/-- `f` carries the operations over, as long as requests are small. -/
structure HeapOps.Carries {H H' : Type*} (ops : HeapOps H) (ops' : HeapOps H') (f : H → H')
    (small : ℕ → Prop) : Prop where
  malloc : ∀ n h, small n → (ops.malloc n h).map (fun res => (res.1, f res.2)) = ops'.malloc n (f h)
  free : ∀ p h, (ops.free p h).map f = ops'.free p (f h)
  load : ∀ h, ops'.load (f h) = ops.load h
  store : ∀ a v h, (ops.store a v h).map f = ops'.store a v (f h)

/-- What is carried over includes copying. -/
theorem HeapOps.Carries.copyBytes {H H' : Type*} {ops : HeapOps H} {ops' : HeapOps H'} {f : H → H'}
    {small : ℕ → Prop} (hc : ops.Carries ops' f small) (dest src n : ℕ) (h : H) :
    (ops.copyBytes dest src n h).map f = ops'.copyBytes dest src n (f h) := by
  induction n with
  | zero => rfl
  | succ n ih =>
    rw [HeapOps.copyBytes, HeapOps.copyBytes, ← ih]
    cases ops.copyBytes dest src n h with
    | none => rfl
    | some h₁ =>
      simp only [Option.map_some, hc.load]
      exact hc.store _ _ _

/-! ### An allocator that moves on -/

/-- Every live block ends before the next free address. -/
structure BumpHeap where
  mem : Mem
  next : ℕ
  live : List Block
  next_pos : 0 < next
  fits : ∀ b ∈ live, b.addr + b.size ≤ next

namespace BumpHeap

def empty : BumpHeap := ⟨fun _ => 0, 1, [], Nat.one_pos, fun _ hb => absurd hb List.not_mem_nil⟩

def malloc (n : ℕ) (h : BumpHeap) : ℕ × BumpHeap :=
  if h.next + n ≤ 2 ^ 64 then
    (h.next,
      { h with
        next := h.next + n
        live := ⟨h.next, n⟩ :: h.live
        next_pos := Nat.add_pos_left h.next_pos n
        fits := by
          intro b hb
          cases List.mem_cons.1 hb with
          | inl heq => rw [heq]
          | inr hmem => exact (h.fits b hmem).trans (Nat.le_add_right _ _) })
  else (0, h)

def free (p : ℕ) (h : BumpHeap) : Option BumpHeap :=
  (h.live.find? fun b => b.addr = p).map fun b =>
    { h with
      live := h.live.erase b
      fits := fun c hc => h.fits c (List.mem_of_mem_erase hc) }

def store (a : ℕ) (v : UInt8) (h : BumpHeap) : Option BumpHeap :=
  if ∃ b ∈ h.live, b.Has a then some { h with mem := Function.update h.mem a v } else none

end BumpHeap

def bump : Allocator BumpHeap where
  malloc n h := some (h.malloc n)
  free := BumpHeap.free
  load := BumpHeap.mem
  store := BumpHeap.store
  live := BumpHeap.live
  initial := BumpHeap.empty
  live_initial := rfl
  malloc_defined n h := ⟨_, rfl⟩
  malloc_null := by
    intro n h h' hres
    have heq := Option.some_inj.1 hres
    rw [BumpHeap.malloc] at heq
    by_cases hroom : h.next + n ≤ 2 ^ 64
    · rw [if_pos hroom] at heq
      exact absurd (Prod.mk.inj heq).1 h.next_pos.ne'
    · rw [if_neg hroom] at heq
      rw [(Prod.mk.inj heq).2]
  malloc_fresh := by
    intro n h p h' hres hp
    have heq := Option.some_inj.1 hres
    rw [BumpHeap.malloc] at heq
    by_cases hroom : h.next + n ≤ 2 ^ 64
    · rw [if_pos hroom] at heq
      obtain ⟨rfl, rfl⟩ := Prod.mk.inj heq
      exact ⟨rfl, hroom, fun b hb => Or.inr (h.fits b hb)⟩
    · rw [if_neg hroom] at heq
      exact absurd (Prod.mk.inj heq).1.symm hp
  malloc_load := by
    intro n h p h' hres b hb a ha
    have heq := Option.some_inj.1 hres
    rw [BumpHeap.malloc] at heq
    by_cases hroom : h.next + n ≤ 2 ^ 64
    · rw [if_pos hroom] at heq
      rw [← (Prod.mk.inj heq).2]
    · rw [if_neg hroom] at heq
      rw [← (Prod.mk.inj heq).2]
  free_defined := by
    intro h b hb
    cases hfind : h.live.find? fun c => c.addr = b.addr with
    | none => exact absurd (decide_eq_true rfl) (List.find?_eq_none.1 hfind b hb)
    | some c => exact ⟨_, by rw [BumpHeap.free, hfind, Option.map_some]⟩
  free_live := by
    intro p h h' hres
    obtain ⟨b, hfind, rfl⟩ := Option.map_eq_some_iff.1 hres
    have haddr := List.find?_some hfind
    exact ⟨b, List.mem_of_find?_eq_some hfind, of_decide_eq_true haddr, rfl⟩
  free_load := by
    intro p h h' hres b _ a _
    obtain ⟨c, _, rfl⟩ := Option.map_eq_some_iff.1 hres
    rfl
  store_defined := by
    intro a v h b hb ha
    exact ⟨_, if_pos ⟨b, hb, ha⟩⟩
  store_inside := by
    intro a v h h' hres
    by_contra hout
    rw [BumpHeap.store, if_neg hout] at hres
    exact Option.some_ne_none h' hres.symm
  store_live := by
    intro a v h h' hres
    obtain ⟨_, heq⟩ := Option.ite_none_right_eq_some.1 hres
    rw [← Option.some_inj.1 heq]
  store_load := by
    intro a v h h' hres
    obtain ⟨_, heq⟩ := Option.ite_none_right_eq_some.1 hres
    rw [← Option.some_inj.1 heq]

end Allocation
