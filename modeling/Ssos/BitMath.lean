import Mathlib.Data.Nat.Bitwise
import Mathlib.Data.Nat.Log
import Mathlib.Tactic.Ring

/-!
# Size arithmetic

The integer helpers of `misc/bit_math.c` and the alignment macros of
`misc/bit_math.h`, on natural numbers with the wrap-around of `uint64_t`
written out.

## Main results

- `roundPow2Boundary_eq_two_pow` — up to `2 ^ 32` the rounding is exact
- `logb_two_pow` — `logb` of a 32-bit power of two is its exponent
- `logb_roundPow2Boundary_of_no_gap`, `logb_roundPow2Boundary_of_gap` — the rounding and
  the logarithm above `2 ^ 31`
-/

namespace Ssos

/-- `ALIGN_UP(x, align)` on `uint64_t`. -/
def alignUp (x align : ℕ) : ℕ := (x + (align - 1)) % 2 ^ 64 &&& (2 ^ 64 - align)

/-- `ALIGN_DOWN(x, align)` on `uint64_t`. -/
def alignDown (x align : ℕ) : ℕ := x &&& (2 ^ 64 - align)

/-- `__builtin_clz` takes the low 32 bits of its argument; its result for `0`
is undefined. -/
def builtinClz (x : ℕ) : Option ℕ :=
  if x % 2 ^ 32 = 0 then none else some (31 - Nat.log2 (x % 2 ^ 32))

def logb (x : ℕ) : Option ℕ := (builtinClz x).map fun clz => 31 - clz

/-- The five shift-and-or steps of `roundPow2Boundary`. -/
def smear (x : ℕ) : ℕ :=
  let x := x ||| x >>> 1
  let x := x ||| x >>> 2
  let x := x ||| x >>> 4
  let x := x ||| x >>> 8
  x ||| x >>> 16

/-- `x--` on `uint64_t`. -/
def decr64 (x : ℕ) : ℕ := if x = 0 then 2 ^ 64 - 1 else x - 1

/-- `x--`, the shift-and-or steps, `x++`. -/
def roundPow2Boundary (x : ℕ) : ℕ := (smear (decr64 x) + 1) % 2 ^ 64

/-- Bit `i` of `y` is set when one of the `w` bits of `x` from `i` upwards is. -/
def Smeared (x y w : ℕ) : Prop :=
  ∀ i, y.testBit i = true ↔ ∃ j < w, x.testBit (i + j) = true

theorem Smeared.step {x y w : ℕ} (h : Smeared x y w) : Smeared x (y ||| y >>> w) (w + w) := by
  intro i
  rw [Nat.testBit_or, Nat.testBit_shiftRight, Bool.or_eq_true, h, h]
  constructor
  · intro hor
    cases hor with
    | inl hlow =>
      obtain ⟨j, hj, hb⟩ := hlow
      exact ⟨j, by omega, hb⟩
    | inr hhigh =>
      obtain ⟨j, hj, hb⟩ := hhigh
      refine ⟨w + j, by omega, ?_⟩
      rwa [show i + (w + j) = w + i + j by omega]
  · intro ⟨j, hj, hb⟩
    by_cases hw : j < w
    · exact Or.inl ⟨j, hw, hb⟩
    · refine Or.inr ⟨j - w, by omega, ?_⟩
      rwa [show w + i + (j - w) = i + j by omega]

theorem smeared_smear (x : ℕ) : Smeared x (smear x) 32 := by
  have h1 : Smeared x x 1 := by
    intro i
    constructor
    · intro hb
      exact ⟨0, by omega, hb⟩
    · intro ⟨j, hj, hb⟩
      obtain rfl : j = 0 := by omega
      exact hb
  exact h1.step.step.step.step.step

/-- A 32-bit value is smeared to the all-ones value of its bit length. -/
theorem smear_eq {x : ℕ} (hx : x ≠ 0) (hlt : x < 2 ^ 32) :
    smear x = 2 ^ (Nat.log2 x + 1) - 1 := by
  have htop : Nat.log2 x < 32 := (Nat.log2_lt hx).2 hlt
  apply Nat.eq_of_testBit_eq
  intro i
  rw [Nat.testBit_two_pow_sub_one, Bool.eq_iff_iff, smeared_smear x i, decide_eq_true_eq]
  constructor
  · intro ⟨j, _, hb⟩
    have hle : i + j ≤ Nat.log2 x := (Nat.le_log2 hx).2 (Nat.ge_two_pow_of_testBit hb)
    omega
  · intro hi
    refine ⟨Nat.log2 x - i, by omega, ?_⟩
    rw [Nat.add_sub_cancel' (by omega)]
    exact Nat.testBit_log2 hx

/-- Up to `2 ^ 32` the rounding gives the least power of two not below `x`. -/
theorem roundPow2Boundary_eq_two_pow {x : ℕ} (hpos : 1 ≤ x) (hle : x ≤ 2 ^ 32) :
    roundPow2Boundary x = 2 ^ Nat.clog 2 x := by
  obtain ⟨y, rfl⟩ : ∃ y, x = y + 1 := ⟨x - 1, by omega⟩
  have hdec : decr64 (y + 1) = y := by simp [decr64]
  rw [roundPow2Boundary, hdec]
  by_cases hy : y = 0
  · subst hy
    rfl
  · have hlow : 2 ^ Nat.log2 y ≤ y := Nat.log2_self_le hy
    have hhigh : y < 2 ^ (Nat.log2 y + 1) := Nat.lt_log2_self
    have hlog : Nat.clog 2 (y + 1) = Nat.log2 y + 1 := by
      refine le_antisymm (Nat.clog_le_of_le_pow hhigh) ?_
      exact (Nat.lt_clog_iff_pow_lt (by omega)).2 (by omega)
    have hbits : Nat.log2 y + 1 ≤ 32 := (Nat.log2_lt hy).2 (by omega)
    have hpow : 2 ^ (Nat.log2 y + 1) ≤ 2 ^ 32 := Nat.pow_le_pow_right (by omega) hbits
    rw [smear_eq hy (by omega), hlog]
    omega

theorem logb_two_pow {k : ℕ} (hk : k < 32) : logb (2 ^ k) = some k := by
  have hlt : 2 ^ k < 2 ^ 32 := Nat.pow_lt_pow_right (by omega) hk
  have hpos : 0 < 2 ^ k := Nat.two_pow_pos k
  have hclz : builtinClz (2 ^ k) = some (31 - k) := by
    rw [builtinClz, Nat.mod_eq_of_lt hlt, if_neg hpos.ne', Nat.log2_two_pow]
  rw [logb, hclz, Option.map_some]
  congr 1
  omega

/-- The exponent that `kmalloc` computes from a size. -/
theorem logb_roundPow2Boundary {x : ℕ} (hpos : 1 ≤ x) (hle : x ≤ 2 ^ 31) :
    logb (roundPow2Boundary x) = some (Nat.clog 2 x) := by
  have hk : Nat.clog 2 x < 32 := Nat.lt_succ_of_le (Nat.clog_le_of_le_pow hle)
  rw [roundPow2Boundary_eq_two_pow hpos (by omega), logb_two_pow hk]

/-! ### Sizes above 2 ^ 31 -/

/-- 32 zero bits in a row below the top bit, which the shift-and-or steps do not
fill completely. -/
def HasGap (y : ℕ) : Prop := ∃ i, 2 ^ (i + 32) ≤ y ∧ y / 2 ^ i % 2 ^ 32 = 0

theorem bits_eq_zero_iff {y i w : ℕ} :
    y / 2 ^ i % 2 ^ w = 0 ↔ ∀ j < w, y.testBit (i + j) = false := by
  constructor
  · intro hz j hj
    have hbit : (y / 2 ^ i % 2 ^ w).testBit j = false := by
      rw [hz]
      exact Nat.zero_testBit j
    rw [Nat.testBit_mod_two_pow, decide_eq_true hj, Bool.true_and, Nat.testBit_div_two_pow] at hbit
    exact Nat.add_comm j i ▸ hbit
  · intro h
    apply Nat.eq_of_testBit_eq
    intro j
    rw [Nat.testBit_mod_two_pow, Nat.zero_testBit, Nat.testBit_div_two_pow]
    by_cases hj : j < w
    · rw [Nat.add_comm, h j hj, Bool.and_false]
    · rw [decide_eq_false hj, Bool.false_and]

section Large
variable {y : ℕ}

/-- The bits below the top bit that lie within reach of it are filled. -/
theorem testBit_smear_of_near {i : ℕ} (hy : y ≠ 0) (hlow : y.log2 < i + 32) (hle : i ≤ y.log2) :
    (smear y).testBit i = true := by
  refine (smeared_smear y i).2 ⟨y.log2 - i, by omega, ?_⟩
  rw [Nat.add_sub_cancel' hle]
  exact Nat.testBit_log2 hy

/-- Without a gap the value is smeared to all ones. -/
theorem smear_eq_of_no_gap (hy : y ≠ 0) (hgap : ¬HasGap y) : smear y = 2 ^ (y.log2 + 1) - 1 := by
  apply Nat.eq_of_testBit_eq
  intro i
  rw [Nat.testBit_two_pow_sub_one]
  by_cases hi : i < y.log2 + 1
  · rw [decide_eq_true hi]
    by_cases hnear : y.log2 < i + 32
    · exact testBit_smear_of_near hy hnear (by omega)
    · -- a zero bit this far below the top would start a gap
      by_contra hbit
      refine hgap ⟨i, (Nat.le_log2 hy).1 (by omega), bits_eq_zero_iff.2 fun j hj => ?_⟩
      rw [← Bool.not_eq_true]
      exact fun hset => hbit ((smeared_smear y i).2 ⟨j, hj, hset⟩)
  · rw [decide_eq_false hi, ← Bool.not_eq_true, smeared_smear y i]
    rintro ⟨j, _, hset⟩
    have hle : i + j ≤ y.log2 := (Nat.le_log2 hy).2 (Nat.ge_two_pow_of_testBit hset)
    omega

/-- A gap leaves a zero bit. -/
theorem exists_testBit_smear_of_gap (hgap : HasGap y) :
    ∃ i, i + 32 ≤ y.log2 ∧ (smear y).testBit i = false := by
  obtain ⟨i, hle, hzero⟩ := hgap
  have hy : y ≠ 0 := (hle.trans_lt' (Nat.two_pow_pos _)).ne'
  refine ⟨i, (Nat.le_log2 hy).2 hle, ?_⟩
  rw [← Bool.not_eq_true, smeared_smear y i]
  rintro ⟨j, hj, hset⟩
  rw [bits_eq_zero_iff.1 hzero j hj] at hset
  exact Bool.noConfusion hset

theorem roundPow2Boundary_succ (y : ℕ) : roundPow2Boundary (y + 1) = (smear y + 1) % 2 ^ 64 := by
  rw [roundPow2Boundary, decr64, if_neg (Nat.succ_ne_zero y), Nat.add_sub_cancel]

theorem logb_eq_none {x : ℕ} (h : x % 2 ^ 32 = 0) : logb x = none := by
  rw [logb, builtinClz, if_pos h, Option.map_none]

theorem logb_eq_31 {x : ℕ} (h : 2 ^ 31 ≤ x % 2 ^ 32) : logb x = some 31 := by
  have hlt : x % 2 ^ 32 < 2 ^ 32 := Nat.mod_lt _ (Nat.two_pow_pos 32)
  have hlog : (x % 2 ^ 32).log2 = 31 := (Nat.log2_eq_iff (by omega)).2 ⟨h, hlt⟩
  rw [logb, builtinClz, if_neg (by omega), hlog, Option.map_some]

/-- Above `2 ^ 31` and without a gap the low 32 bits of the rounded size are zero,
and `__builtin_clz` has no defined result. -/
theorem logb_roundPow2Boundary_of_no_gap (hlow : 2 ^ 31 ≤ y) (hgap : ¬HasGap y) :
    logb (roundPow2Boundary (y + 1)) = none := by
  have hy : y ≠ 0 := by omega
  have htop : 31 ≤ y.log2 := (Nat.le_log2 hy).2 hlow
  have hdvd : 2 ^ 32 ∣ 2 ^ (y.log2 + 1) := Nat.pow_dvd_pow 2 (by omega)
  have hpos : 0 < 2 ^ (y.log2 + 1) := Nat.two_pow_pos _
  apply logb_eq_none
  rw [roundPow2Boundary_succ, smear_eq_of_no_gap hy hgap]
  omega

/-- With a gap the carry stops below bit 31. -/
theorem logb_roundPow2Boundary_of_gap (hhigh : y < 2 ^ 63) (hgap : HasGap y) :
    logb (roundPow2Boundary (y + 1)) = some 31 := by
  obtain ⟨i, hi, hzero⟩ := exists_testBit_smear_of_gap hgap
  have hy : y ≠ 0 := by
    rintro rfl
    rw [Nat.log2_zero] at hi
    omega
  have htop : y.log2 < 63 := (Nat.log2_lt hy).2 hhigh
  have hset : (smear y % 2 ^ 32).testBit 31 = true := by
    rw [Nat.testBit_mod_two_pow, testBit_smear_of_near hy (by omega) (by omega)]
    rfl
  have hne : smear y % 2 ^ 32 ≠ 2 ^ 32 - 1 := by
    intro hall
    have hbit : (smear y % 2 ^ 32).testBit i = true := by
      rw [hall, Nat.testBit_two_pow_sub_one]
      exact decide_eq_true (by omega)
    rw [Nat.testBit_mod_two_pow, hzero, Bool.and_false] at hbit
    exact Bool.noConfusion hbit
  have hge : 2 ^ 31 ≤ smear y % 2 ^ 32 := Nat.ge_two_pow_of_testBit hset
  apply logb_eq_31
  rw [roundPow2Boundary_succ]
  omega

end Large

example : logb (roundPow2Boundary (2 ^ 31 + 1)) = none := by decide
example : logb (roundPow2Boundary (2 ^ 32 + 1)) = some 31 := by decide

end Ssos
