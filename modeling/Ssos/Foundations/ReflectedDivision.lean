import Mathlib.Algebra.Polynomial.Div
import Mathlib.RingTheory.AdjoinRoot
import Mathlib.Algebra.Field.ZMod

/-!
# Reflected shift registers

A register whose lowest bit stands for the highest power, shifted to the right,
with a constant added whenever a one drops out, multiplies a polynomial over
the field of two elements by `X` modulo a generator. Feeding it chunks of a
message computes the remainder of the message.

## Main results

- `mk_regPoly_step` — one shift is a multiplication by `X`
- `mk_regPoly_absorb` — what a chunk of the message contributes
- `modByMonic_eq_regPoly` — the register holds the remainder
-/

namespace ReflectedDivision

open Polynomial

/-- The polynomial of a list of bits; the first bit belongs to the highest power. -/
noncomputable def bitsPoly : List Bool → (ZMod 2)[X]
  | [] => 0
  | b :: bs => (if b then X ^ bs.length else 0) + bitsPoly bs

/-- The bits of a register, lowest first. -/
def regBits {w : ℕ} (r : BitVec w) : List Bool := (List.range w).map r.getLsbD

noncomputable def regPoly {w : ℕ} (r : BitVec w) : (ZMod 2)[X] := bitsPoly (regBits r)

/-- The generator whose lower coefficients are those of the constant. -/
noncomputable def generator {w : ℕ} (g : BitVec w) : (ZMod 2)[X] := X ^ w + regPoly g

/-- One shift. -/
def step {w : ℕ} (g r : BitVec w) : BitVec w := if r.getLsbD 0 then r >>> 1 ^^^ g else r >>> 1

section Bits
variable {bits bits' : List Bool} {n : ℕ}

theorem bitsPoly_append (bits bits' : List Bool) :
    bitsPoly (bits ++ bits') = bitsPoly bits * X ^ bits'.length + bitsPoly bits' := by
  induction bits with
  | nil => rw [List.nil_append, bitsPoly, zero_mul, zero_add]
  | cons b bits ih =>
    rw [List.cons_append, bitsPoly, bitsPoly, ih, List.length_append]
    cases b with
    | false => simp
    | true =>
      simp only [if_true]
      ring

theorem bitsPoly_replicate_false (n : ℕ) : bitsPoly (List.replicate n false) = 0 := by
  induction n with
  | zero => rfl
  | succ n ih => rw [List.replicate_succ, bitsPoly, ih, if_neg Bool.false_ne_true, zero_add]

theorem bitsPoly_replicate_true (n : ℕ) :
    bitsPoly (List.replicate n true) = ∑ i ∈ Finset.range n, X ^ i := by
  induction n with
  | zero => rfl
  | succ n ih =>
    rw [List.replicate_succ, bitsPoly, ih, if_pos rfl, List.length_replicate,
      Finset.sum_range_succ, add_comm]

/-- Exclusive or is addition. -/
theorem bitsPoly_map_xor (is : List ℕ) (f g : ℕ → Bool) :
    bitsPoly (is.map fun i => f i ^^ g i) = bitsPoly (is.map f) + bitsPoly (is.map g) := by
  induction is with
  | nil => rw [List.map_nil, List.map_nil, List.map_nil, bitsPoly, add_zero]
  | cons i is ih =>
    rw [List.map_cons, List.map_cons, List.map_cons, bitsPoly, bitsPoly, bitsPoly, ih,
      List.length_map, List.length_map, List.length_map]
    cases f i <;> cases g i
    · simp
    · simp only [Bool.false_xor, if_true, Bool.false_eq_true, if_false]
      ring
    · simp only [Bool.xor_false, if_true, Bool.false_eq_true, if_false]
      ring
    · have htwo : (X : (ZMod 2)[X]) ^ is.length + X ^ is.length = 0 := CharTwo.add_self_eq_zero _
      simp only [Bool.true_xor, Bool.not_true, if_true, Bool.false_eq_true, if_false]
      linear_combination -htwo

theorem degree_bitsPoly_lt (bits : List Bool) : (bitsPoly bits).degree < bits.length := by
  induction bits with
  | nil => exact Polynomial.degree_zero.trans_lt (WithBot.bot_lt_coe _)
  | cons b bits ih =>
    rw [bitsPoly, List.length_cons]
    have hlt : (bits.length : WithBot ℕ) < (bits.length + 1 : ℕ) :=
      WithBot.coe_lt_coe.2 (Nat.lt_succ_self _)
    refine (degree_add_le _ _).trans_lt (max_lt ?_ (ih.trans hlt))
    cases b with
    | false => exact Polynomial.degree_zero.trans_lt (WithBot.bot_lt_coe _)
    | true => exact (degree_X_pow_le _).trans_lt hlt

/-- The coefficients are the bits. -/
theorem coeff_bitsPoly {i : ℕ} (hi : i < bits.length) :
    (bitsPoly bits).coeff (bits.length - 1 - i) = if bits[i] then 1 else 0 := by
  induction bits generalizing i with
  | nil => exact absurd hi (Nat.not_lt_zero i)
  | cons b bits ih =>
    rw [bitsPoly, coeff_add, List.length_cons, Nat.add_sub_cancel]
    cases i with
    | zero =>
      have hzero : (bitsPoly bits).coeff bits.length = 0 :=
        coeff_eq_zero_of_degree_lt (degree_bitsPoly_lt bits)
      rw [Nat.sub_zero, hzero, add_zero, List.getElem_cons_zero]
      cases b with
      | false => rfl
      | true => simp
    | succ i =>
      rw [List.length_cons] at hi
      have hi' : i < bits.length := by omega
      have hsub : bits.length - (i + 1) = bits.length - 1 - i := by omega
      have hne : bits.length - 1 - i ≠ bits.length := by omega
      rw [List.getElem_cons_succ, hsub, ih hi']
      cases b with
      | false => simp
      | true => simp [coeff_X_pow, hne]

end Bits

section Register
variable {w n : ℕ} {g r r' : BitVec w}

theorem length_regBits (r : BitVec w) : (regBits r).length = w := by
  rw [regBits, List.length_map, List.length_range]

theorem getElem?_regBits (r : BitVec w) {i : ℕ} (hi : i < w) :
    (regBits r)[i]? = some (r.getLsbD i) := by
  rw [regBits, List.getElem?_map, List.getElem?_range hi, Option.map_some]

theorem regPoly_xor (r r' : BitVec w) : regPoly (r ^^^ r') = regPoly r + regPoly r' := by
  have hbits : regBits (r ^^^ r') = (List.range w).map fun i => r.getLsbD i ^^ r'.getLsbD i :=
    List.map_congr_left fun i _ => BitVec.getLsbD_xor
  rw [regPoly, hbits, bitsPoly_map_xor]
  rfl

/-- Shifting multiplies by `X` and drops the lowest bit, the highest power. -/
theorem X_mul_regPoly (hw : 0 < w) (r : BitVec w) :
    X * regPoly r = regPoly (r >>> 1) + if r.getLsbD 0 then X ^ w else 0 := by
  obtain ⟨n, rfl⟩ := Nat.exists_eq_succ_of_ne_zero hw.ne'
  have hbits : regBits r = r.getLsbD 0 :: (List.range n).map fun i => r.getLsbD (i + 1) := by
    rw [regBits, List.range_succ_eq_map, List.map_cons, List.map_map]
    rfl
  have hshift : regBits (r >>> 1) = ((List.range n).map fun i => r.getLsbD (i + 1)) ++ [false] := by
    rw [regBits, List.range_succ, List.map_append, List.map_singleton]
    congr 1
    · apply List.map_congr_left
      intro i _
      rw [BitVec.getLsbD_ushiftRight, Nat.add_comm]
    · rw [BitVec.getLsbD_ushiftRight, BitVec.getLsbD_of_ge r (1 + n) (by omega)]
  rw [regPoly, regPoly, hbits, hshift, bitsPoly, bitsPoly_append, List.length_map, List.length_range,
    List.length_singleton, bitsPoly, bitsPoly, if_neg Bool.false_ne_true, add_zero, add_zero, pow_one]
  cases r.getLsbD 0 with
  | false =>
    simp only [Bool.false_eq_true, if_false]
    ring
  | true =>
    simp only [if_true, Nat.succ_eq_add_one]
    ring

/-- A shift multiplies by `X` modulo the generator. -/
theorem mk_regPoly_step (hw : 0 < w) (g r : BitVec w) :
    AdjoinRoot.mk (generator g) (regPoly (step g r)) =
      AdjoinRoot.mk (generator g) X * AdjoinRoot.mk (generator g) (regPoly r) := by
  rw [← map_mul, X_mul_regPoly hw, step]
  cases r.getLsbD 0 with
  | false => rw [if_neg Bool.false_ne_true, if_neg Bool.false_ne_true, add_zero]
  | true =>
    have hself : AdjoinRoot.mk (generator g) (X ^ w + regPoly g) = 0 := AdjoinRoot.mk_self
    have htwo : AdjoinRoot.mk (generator g) (regPoly g + regPoly g) = 0 := by
      rw [CharTwo.add_self_eq_zero, map_zero]
    rw [map_add] at hself htwo
    rw [if_pos rfl, if_pos rfl, regPoly_xor, map_add, map_add]
    linear_combination htwo - hself

theorem mk_regPoly_iterate (hw : 0 < w) (g r : BitVec w) (n : ℕ) :
    AdjoinRoot.mk (generator g) (regPoly ((step g)^[n] r)) =
      AdjoinRoot.mk (generator g) X ^ n * AdjoinRoot.mk (generator g) (regPoly r) := by
  induction n with
  | zero => rw [Function.iterate_zero_apply, pow_zero, one_mul]
  | succ n ih => rw [Function.iterate_succ_apply', mk_regPoly_step hw, ih, pow_succ', mul_assoc]

theorem regPoly_setWidth (hn : n ≤ w) (b : BitVec n) :
    regPoly (b.setWidth w) = bitsPoly (regBits b) * X ^ (w - n) := by
  obtain ⟨d, rfl⟩ := Nat.exists_eq_add_of_le hn
  have hbits : regBits (b.setWidth (n + d)) = regBits b ++ List.replicate d false := by
    rw [regBits, regBits, List.range_add, List.map_append, List.map_map]
    congr 1
    · refine List.map_congr_left fun i hi => ?_
      have hlt := List.mem_range.1 hi
      rw [BitVec.getLsbD_setWidth, decide_eq_true (by omega), Bool.true_and]
    · refine List.eq_replicate_iff.2 ⟨by rw [List.length_map, List.length_range], fun c hc => ?_⟩
      obtain ⟨i, _, rfl⟩ := List.mem_map.1 hc
      rw [Function.comp_apply, BitVec.getLsbD_setWidth, BitVec.getLsbD_of_ge b _ (by omega),
        Bool.and_false]
  rw [regPoly, hbits, bitsPoly_append, bitsPoly_replicate_false, add_zero, List.length_replicate,
    Nat.add_sub_cancel_left]

/-- A chunk of `n` bits is added to the register, which is shifted `n` times. -/
def absorb (g : BitVec w) (r : BitVec w) (b : BitVec n) : BitVec w :=
  (step g)^[n] (r ^^^ b.setWidth w)

theorem mk_regPoly_absorb (hw : 0 < w) (hn : n ≤ w) (g r : BitVec w) (b : BitVec n) :
    AdjoinRoot.mk (generator g) (regPoly (absorb g r b)) =
      AdjoinRoot.mk (generator g) X ^ n * AdjoinRoot.mk (generator g) (regPoly r) +
        AdjoinRoot.mk (generator g) X ^ w * AdjoinRoot.mk (generator g) (bitsPoly (regBits b)) := by
  have hpow : (X : (ZMod 2)[X]) ^ n * (bitsPoly (regBits b) * X ^ (w - n)) =
      X ^ w * bitsPoly (regBits b) := by
    rw [mul_left_comm, ← pow_add, Nat.add_sub_cancel' hn, mul_comm]
  rw [absorb, mk_regPoly_iterate hw, regPoly_xor, regPoly_setWidth hn, ← map_pow, ← map_pow,
    ← map_mul, ← map_mul, ← map_mul, ← map_add, mul_add, hpow]

/-- **A whole message.** -/
theorem mk_regPoly_foldl (hw : 0 < w) (hn : n ≤ w) (g r : BitVec w) (bs : List (BitVec n)) :
    AdjoinRoot.mk (generator g) (regPoly (bs.foldl (absorb g) r)) =
      AdjoinRoot.mk (generator g)
        (bitsPoly (bs.flatMap regBits) * X ^ w + regPoly r * X ^ (bs.flatMap regBits).length) := by
  induction bs generalizing r with
  | nil => rw [List.foldl_nil, List.flatMap_nil, bitsPoly, zero_mul, zero_add, List.length_nil,
      pow_zero, mul_one]
  | cons b bs ih =>
    rw [List.foldl_cons, ih, List.flatMap_cons, bitsPoly_append, List.length_append, length_regBits,
      map_add, map_mul, map_mul, mk_regPoly_absorb hw hn]
    simp only [map_add, map_mul, map_pow]
    ring

theorem degree_regPoly_lt (r : BitVec w) : (regPoly r).degree < w := by
  have hlt := degree_bitsPoly_lt (regBits r)
  rwa [length_regBits] at hlt

theorem generator_monic (g : BitVec w) : (generator g).Monic :=
  monic_X_pow_add (degree_regPoly_lt g)

theorem degree_generator (g : BitVec w) : (generator g).degree = w := by
  have hlead : (regPoly g).degree < (X ^ w : (ZMod 2)[X]).degree := by
    rw [degree_X_pow]
    exact degree_regPoly_lt g
  rw [generator, degree_add_eq_left_of_degree_lt hlead, degree_X_pow]

/-- The register holds the remainder of everything it is congruent to. -/
theorem modByMonic_eq_regPoly {p : (ZMod 2)[X]}
    (h : AdjoinRoot.mk (generator g) (regPoly r) = AdjoinRoot.mk (generator g) p) :
    p %ₘ generator g = regPoly r := by
  obtain ⟨q, hq⟩ := AdjoinRoot.mk_eq_mk.1 h.symm
  have hdeg : (regPoly r).degree < (generator g).degree := by
    rw [degree_generator]
    exact degree_regPoly_lt r
  have hsum : regPoly r + generator g * q = p := by
    rw [← hq]
    ring
  exact (div_modByMonic_unique q (regPoly r) (generator_monic g) ⟨hsum, hdeg⟩).2

/-- Bit `i` of the register is the coefficient of the power `w - 1 - i`. -/
theorem coeff_regPoly (r : BitVec w) {i : ℕ} (hi : i < w) :
    (regPoly r).coeff (w - 1 - i) = if r.getLsbD i then 1 else 0 := by
  have hlen : i < (regBits r).length := by rwa [length_regBits]
  have hcoeff := coeff_bitsPoly hlen
  rw [length_regBits] at hcoeff
  rw [regPoly, hcoeff]
  simp only [regBits, List.getElem_map, List.getElem_range]

end Register

end ReflectedDivision
