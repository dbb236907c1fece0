import Mathlib.RingTheory.PrincipalIdealDomain
import Mathlib.Algebra.Polynomial.FieldDivision
import Ssos.Foundations.ReflectedDivision

/-!
# Burst errors

Two messages that differ in a window no wider than the register leave different
registers: the difference is a polynomial of a degree below that of the
generator, times a power of `X`, and a generator with a constant coefficient
has no factor in common with `X`.

## Main result

- `eq_of_foldl_absorb_eq` — messages with the same register and a short difference are equal
-/

namespace ReflectedDivision

open Polynomial

/-- All places where the lists differ lie in a window of `w` places. -/
def Burst (w : ℕ) (bits bits' : List Bool) : Prop :=
  ∃ k, ∀ i, bits[i]? ≠ bits'[i]? → k ≤ i ∧ i < k + w

section Windows
variable {w : ℕ} {bits bits' : List Bool}

/-- The lists agree in front of the window and behind it. -/
theorem Burst.split (h : Burst w bits bits') : ∃ k, bits.take k = bits'.take k ∧
    bits.drop (k + w) = bits'.drop (k + w) := by
  obtain ⟨k, hk⟩ := h
  have hsame : ∀ i, i < k ∨ k + w ≤ i → bits[i]? = bits'[i]? := by
    intro i hi
    by_contra hne
    have hwindow := hk i hne
    omega
  refine ⟨k, List.ext_getElem? fun i => ?_, List.ext_getElem? fun i => ?_⟩
  · rw [List.getElem?_take, List.getElem?_take]
    by_cases hi : i < k
    · rw [if_pos hi, if_pos hi, hsame i (Or.inl hi)]
    · rw [if_neg hi, if_neg hi]
  · rw [List.getElem?_drop, List.getElem?_drop, hsame _ (Or.inr (Nat.le_add_right _ i))]

theorem take_append_window (bits : List Bool) (k w : ℕ) :
    bits = bits.take k ++ ((bits.drop k).take w ++ bits.drop (k + w)) := by
  rw [← List.drop_drop, List.take_append_drop, List.take_append_drop]

/-- The bits are determined by their number and their polynomial. -/
theorem eq_of_bitsPoly_eq (hlen : bits.length = bits'.length)
    (h : bitsPoly bits = bitsPoly bits') : bits = bits' := by
  apply List.ext_getElem hlen
  intro i hi hi'
  have hcoeff := coeff_bitsPoly hi
  rw [h, hlen, coeff_bitsPoly hi'] at hcoeff
  cases hb : bits[i] <;> cases hb' : bits'[i] <;> simp [hb, hb'] at hcoeff ⊢

end Windows

section Generator
variable {w n : ℕ} {g r : BitVec w}

/-- The highest bit of the constant is the constant coefficient. -/
theorem isCoprime_generator_X (hw : 0 < w) (hg : g.getLsbD (w - 1) = true) :
    IsCoprime (generator g) X := by
  have hcoeff := coeff_regPoly g (Nat.sub_one_lt hw.ne')
  rw [Nat.sub_self, hg, if_pos rfl] at hcoeff
  have hzero : (generator g).coeff 0 ≠ 0 := by
    rw [generator, coeff_add, coeff_X_pow, if_neg hw.ne, hcoeff, zero_add]
    exact one_ne_zero
  have hndvd : ¬X ∣ generator g := fun hdvd => hzero (X_dvd_iff.1 hdvd)
  exact ((irreducible_X (R := ZMod 2)).coprime_iff_not_dvd.2 hndvd).symm

/-- Windows of which a shifted difference is a multiple of the generator. -/
theorem window_eq_of_dvd (hw : 0 < w) (hg : g.getLsbD (w - 1) = true) {mid mid' : List Bool}
    (hlen : mid.length = mid'.length) (hmid : mid.length ≤ w) {N : ℕ}
    (h : generator g ∣ (bitsPoly mid - bitsPoly mid') * X ^ N) : mid = mid' := by
  have hdvd : generator g ∣ bitsPoly mid - bitsPoly mid' :=
    (isCoprime_generator_X hw hg).pow_right.dvd_of_dvd_mul_right h
  have hlt : ∀ bits : List Bool, bits.length ≤ w → (bitsPoly bits).degree < w := by
    intro bits hbits
    exact (degree_bitsPoly_lt bits).trans_le (WithBot.coe_le_coe.2 hbits)
  have hdeg : (bitsPoly mid - bitsPoly mid').degree < (generator g).degree := by
    rw [degree_generator]
    exact (degree_sub_le _ _).trans_lt (max_lt (hlt mid hmid) (hlt mid' (hlen ▸ hmid)))
  exact eq_of_bitsPoly_eq hlen (sub_eq_zero.1 (eq_zero_of_dvd_of_degree_lt hdvd hdeg))

/-- **Short differences are seen.** Messages of one length whose bits differ in
a window no wider than the register, and that leave the same register, are the
same. -/
theorem eq_of_foldl_absorb_eq (hw : 0 < w) (hn : n ≤ w) (hg : g.getLsbD (w - 1) = true)
    {bs bs' : List (BitVec n)} (hlen : (bs.flatMap regBits).length = (bs'.flatMap regBits).length)
    (hburst : Burst w (bs.flatMap regBits) (bs'.flatMap regBits))
    (h : bs.foldl (absorb g) r = bs'.foldl (absorb g) r) :
    bs.flatMap regBits = bs'.flatMap regBits := by
  have hmk := mk_regPoly_foldl hw hn g r bs
  rw [h, mk_regPoly_foldl hw hn, hlen] at hmk
  generalize bs.flatMap regBits = bits at hlen hburst hmk ⊢
  generalize bs'.flatMap regBits = bits' at hlen hburst hmk ⊢
  obtain ⟨k, hpre, hpost⟩ := hburst.split
  have hbits := take_append_window bits k w
  have hbits' := take_append_window bits' k w
  rw [← hpre, ← hpost] at hbits'
  have hmid : ((bits.drop k).take w).length = ((bits'.drop k).take w).length := by
    rw [List.length_take, List.length_take, List.length_drop, List.length_drop, hlen]
  have hdiff : bitsPoly bits' - bitsPoly bits =
      (bitsPoly ((bits'.drop k).take w) - bitsPoly ((bits.drop k).take w)) *
        X ^ (bits.drop (k + w)).length := by
    conv_lhs => rw [hbits, hbits']
    rw [bitsPoly_append, bitsPoly_append, bitsPoly_append, bitsPoly_append, List.length_append,
      List.length_append, hmid]
    ring
  have hdvd : generator g ∣ (bitsPoly ((bits'.drop k).take w) - bitsPoly ((bits.drop k).take w)) *
      X ^ ((bits.drop (k + w)).length + w) := by
    rw [pow_add, ← mul_assoc, ← hdiff, sub_mul]
    have hsub := AdjoinRoot.mk_eq_mk.1 hmk
    rwa [add_sub_add_right_eq_sub] at hsub
  have hwindow := window_eq_of_dvd hw hg hmid.symm (List.length_take_le _ _) hdvd
  rw [hbits, hbits', hwindow]

end Generator

end ReflectedDivision
