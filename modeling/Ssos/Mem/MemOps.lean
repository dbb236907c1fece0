import Ssos.Foundations.ByteMemory

/-!
# Byte loops

`memset` and `memmove` of `mem/mem.c`, byte by byte in the order of the loops.

## Main result

- `memmove_correct` — `memmove` copies the bytes from before the call, whatever the overlap
-/

namespace Ssos

open ByteMemory

/-- `for (i = 0; i < n; i++) p[i] = c`. -/
def memset (m : Mem) (s : ℕ) (c : UInt8) : ℕ → Mem
  | 0 => m
  | n + 1 => Function.update (memset m s c n) (s + n) c

/-- `for (i = 0; i < n; i++) pdest[i] = psrc[i]`. -/
def copyUp (m : Mem) (dest src : ℕ) : ℕ → Mem
  | 0 => m
  | n + 1 =>
    let m := copyUp m dest src n
    Function.update m (dest + n) (m (src + n))

/-- `for (i = n; i > 0; i--) pdest[i - 1] = psrc[i - 1]`. -/
def copyDown (dest src : ℕ) : ℕ → Mem → Mem
  | 0, m => m
  | n + 1, m => copyDown dest src n (Function.update m (dest + n) (m (src + n)))

def memmove (m : Mem) (dest src n : ℕ) : Mem :=
  if src > dest then copyUp m dest src n
  else if src < dest then copyDown dest src n m
  else m

theorem memset_apply (m : Mem) (s : ℕ) (c : UInt8) (n x : ℕ) :
    memset m s c n x = if s ≤ x ∧ x < s + n then c else m x := by
  induction n with
  | zero =>
    rw [memset, if_neg (by omega)]
  | succ n ih =>
    rw [memset]
    by_cases hx : x = s + n
    · subst hx
      rw [Function.update_self, if_pos (by omega)]
    · rw [Function.update_of_ne hx, ih]
      by_cases hin : s ≤ x ∧ x < s + n
      · rw [if_pos hin, if_pos (by omega)]
      · rw [if_neg hin, if_neg (by omega)]

/-- Copying up is right when the source does not start below the target. -/
theorem copyUp_apply {dest src : ℕ} (m : Mem) (hle : dest ≤ src) (n x : ℕ) :
    copyUp m dest src n x = if dest ≤ x ∧ x < dest + n then m (src + (x - dest)) else m x := by
  induction n generalizing x with
  | zero => rw [copyUp, if_neg (by omega)]
  | succ n ih =>
    rw [copyUp]
    by_cases hx : x = dest + n
    · subst hx
      rw [Function.update_self, if_pos (by omega), ih, if_neg (by omega), Nat.add_sub_cancel_left]
    · rw [Function.update_of_ne hx, ih]
      by_cases hin : dest ≤ x ∧ x < dest + n
      · rw [if_pos hin, if_pos (by omega)]
      · rw [if_neg hin, if_neg (by omega)]

/-- Copying down is right when the target does not start below the source. -/
theorem copyDown_apply {dest src : ℕ} (m : Mem) (hle : src ≤ dest) (n x : ℕ) :
    copyDown dest src n m x =
      if dest ≤ x ∧ x < dest + n then m (src + (x - dest)) else m x := by
  induction n generalizing m with
  | zero => rw [copyDown, if_neg (by omega)]
  | succ n ih =>
    rw [copyDown, ih]
    by_cases hin : dest ≤ x ∧ x < dest + n
    · rw [if_pos hin, if_pos (by omega), Function.update_of_ne (by omega)]
    · rw [if_neg hin]
      by_cases hx : x = dest + n
      · subst hx
        rw [Function.update_self, if_pos (by omega), Nat.add_sub_cancel_left]
      · rw [Function.update_of_ne hx, if_neg (by omega)]

/-- `memmove` copies whatever the overlap. -/
theorem memmove_apply (m : Mem) (dest src n x : ℕ) :
    memmove m dest src n x = if dest ≤ x ∧ x < dest + n then m (src + (x - dest)) else m x := by
  rw [memmove]
  by_cases hgt : src > dest
  · rw [if_pos hgt, copyUp_apply m hgt.le]
  · rw [if_neg hgt]
    by_cases hlt : src < dest
    · rw [if_pos hlt, copyDown_apply m hlt.le]
    · have he : dest = src := by omega
      subst he
      rw [if_neg hlt]
      by_cases hin : dest ≤ x ∧ x < dest + n
      · rw [if_pos hin, Nat.add_sub_cancel' hin.1]
      · rw [if_neg hin]

/-- **`memmove` is right for every overlap**: the target gets the bytes that the
source held before the call, and no other byte changes. -/
theorem memmove_correct (m : Mem) (dest src n : ℕ) :
    (∀ i < n, memmove m dest src n (dest + i) = m (src + i)) ∧
      ∀ a, a < dest ∨ dest + n ≤ a → memmove m dest src n a = m a := by
  constructor
  · intro i hi
    rw [memmove_apply, if_pos ⟨Nat.le_add_right dest i, Nat.add_lt_add_left hi dest⟩,
      Nat.add_sub_cancel_left]
  · intro a hout
    rw [memmove_apply, if_neg (by omega)]

end Ssos
