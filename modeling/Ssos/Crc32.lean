import Mathlib.Data.List.GetD
import Ssos.Foundations.BurstErrors

/-!
# The checksum

`calculate_ccitt32_ansi_crc32` of `misc/bit_math.c` and the polynomial division
that it stands for.

## Main results

- `crc32_eq_reference` — the checksum is the reflected and complemented remainder
- `crc32_ne_of_burst` — two messages with a short difference have two checksums
-/

namespace Ssos

open Polynomial ReflectedDivision

/-- The body of the inner loop. -/
def crcBit (crc : BitVec 32) : BitVec 32 :=
  if crc &&& 1#32 ≠ 0#32 then crc >>> 1 ^^^ 0xEDB88320#32 else crc >>> 1

/-- The body of the outer loop. -/
def crcByte (crc : BitVec 32) (byte : UInt8) : BitVec 32 :=
  crcBit^[8] (crc ^^^ byte.toBitVec.setWidth 32)

def calculateCcitt32AnsiCrc32 (data : List UInt8) : BitVec 32 :=
  data.foldl crcByte 0xFFFFFFFF#32 ^^^ 0xFFFFFFFF#32

/-! ### The reference -/

/-- The bits of the message, every byte least significant bit first. -/
def messageBits (data : List UInt8) : List Bool := data.flatMap fun byte => regBits byte.toBitVec

/-- The message as a polynomial: its first bit belongs to the highest power. -/
noncomputable def messagePoly (data : List UInt8) : (ZMod 2)[X] := bitsPoly (messageBits data)

noncomputable def crcGenerator : (ZMod 2)[X] :=
  X ^ 32 + X ^ 26 + X ^ 23 + X ^ 22 + X ^ 16 + X ^ 12 + X ^ 11 + X ^ 10 + X ^ 8 + X ^ 7 + X ^ 5 +
    X ^ 4 + X ^ 2 + X + 1

/-- The word whose bit `i` is the coefficient of `X ^ i`. -/
noncomputable def coeffBits (p : (ZMod 2)[X]) : BitVec 32 :=
  (BitVec.ofBoolListLE ((List.range 32).map fun i => decide (p.coeff i = 1))).setWidth 32

noncomputable def crcRemainder (data : List UInt8) : (ZMod 2)[X] :=
  (messagePoly data * X ^ 32 + (∑ i ∈ Finset.range 32, X ^ i) * X ^ (8 * data.length)) %ₘ
    crcGenerator

/-- The remainder with its bits reversed and complemented. -/
noncomputable def crc32Reference (data : List UInt8) : BitVec 32 :=
  ~~~(coeffBits (crcRemainder data)).reverse

/-! ### The register -/

theorem crcBit_eq_step (crc : BitVec 32) : crcBit crc = step 0xEDB88320#32 crc := by
  rw [crcBit, step, BitVec.and_one_eq_setWidth_ofBool_getLsbD]
  cases crc.getLsbD 0 with
  | false => rw [if_neg (by decide), if_neg (by decide)]
  | true => rw [if_pos (by decide), if_pos rfl]

theorem crcByte_eq_absorb (crc : BitVec 32) (byte : UInt8) :
    crcByte crc byte = absorb 0xEDB88320#32 crc byte.toBitVec := by
  have hbit : crcBit = step 0xEDB88320#32 := funext crcBit_eq_step
  rw [crcByte, absorb, hbit]

theorem foldl_crcByte (data : List UInt8) (crc : BitVec 32) :
    data.foldl crcByte crc = (data.map UInt8.toBitVec).foldl (absorb 0xEDB88320#32) crc := by
  have hbyte : crcByte = fun crc byte => absorb 0xEDB88320#32 crc byte.toBitVec := by
    funext crc byte
    exact crcByte_eq_absorb crc byte
  rw [hbyte, List.foldl_map]

theorem length_messageBits (data : List UInt8) : (messageBits data).length = 8 * data.length := by
  induction data with
  | nil => rfl
  | cons byte data ih =>
    rw [messageBits, List.flatMap_cons, List.length_append, length_regBits, List.length_cons]
    rw [messageBits] at ih
    omega

/-- Bit `i` of a message stands in byte `i / 8`. -/
theorem getElem?_messageBits (data : List UInt8) (i : ℕ) :
    (messageBits data)[i]? = data[i / 8]?.map fun byte => byte.toBitVec.getLsbD (i % 8) := by
  induction data generalizing i with
  | nil => rfl
  | cons byte data ih =>
    rw [messageBits, List.flatMap_cons, ← messageBits]
    by_cases hi : i < 8
    · rw [List.getElem?_append_left (by rwa [length_regBits]), getElem?_regBits _ hi,
        Nat.div_eq_of_lt hi, Nat.mod_eq_of_lt hi]
      rfl
    · obtain ⟨j, rfl⟩ := Nat.exists_eq_add_of_le' (not_lt.1 hi)
      rw [List.getElem?_append_right (by rw [length_regBits]; omega), length_regBits,
        Nat.add_sub_cancel, ih, Nat.add_div_right j (by decide), Nat.add_mod_right,
        List.getElem?_cons_succ]

theorem messageBits_injective : Function.Injective messageBits := by
  intro data data' h
  apply List.ext_getElem?
  intro i
  have hlen := congrArg List.length h
  rw [length_messageBits, length_messageBits] at hlen
  have hbit : ∀ j < 8, data[i]?.map (fun byte => byte.toBitVec.getLsbD j) =
      data'[i]?.map fun byte => byte.toBitVec.getLsbD j := by
    intro j hj
    have hj' := congrArg (fun bits : List Bool => bits[8 * i + j]?) h
    simp only [getElem?_messageBits] at hj'
    have hdiv : (8 * i + j) / 8 = i := by omega
    have hmod : (8 * i + j) % 8 = j := by omega
    rwa [hdiv, hmod] at hj'
  by_cases hi : i < data.length
  · have hi' : i < data'.length := by omega
    rw [List.getElem?_eq_getElem hi, List.getElem?_eq_getElem hi'] at hbit ⊢
    refine congrArg some (UInt8.toBitVec_inj.1 (BitVec.eq_of_getLsbD_eq fun j hj => ?_))
    exact Option.some_inj.1 (hbit j hj)
  · rw [List.getElem?_eq_none (by omega), List.getElem?_eq_none (by omega)]

/-- The constant is the generator without its highest power, reflected. -/
theorem generator_eq_crcGenerator : generator 0xEDB88320#32 = crcGenerator := by
  have hbits : regBits 0xEDB88320#32 =
      [false, false, false, false, false, true, false, false, true, true, false, false, false,
        false, false, true, false, false, false, true, true, true, false, true, true, false, true,
        true, false, true, true, true] := by decide
  rw [generator, regPoly, hbits, crcGenerator]
  simp only [bitsPoly, List.length_cons, List.length_nil, if_true, Bool.false_eq_true, if_false]
  ring

/-- The initial register is the polynomial of thirty-two ones. -/
theorem regPoly_ones : regPoly 0xFFFFFFFF#32 = ∑ i ∈ Finset.range 32, X ^ i := by
  have hbits : regBits 0xFFFFFFFF#32 = List.replicate 32 true := by decide
  rw [regPoly, hbits, bitsPoly_replicate_true]

/-- The register at the end of the loops holds the remainder. -/
theorem crcRemainder_eq (data : List UInt8) :
    crcRemainder data = regPoly (data.foldl crcByte 0xFFFFFFFF#32) := by
  have hmessage : (data.map UInt8.toBitVec).flatMap regBits = messageBits data := List.flatMap_map ..
  have hfold := mk_regPoly_foldl (by decide : 0 < 32) (by decide : 8 ≤ 32) 0xEDB88320#32
    0xFFFFFFFF#32 (data.map UInt8.toBitVec)
  rw [← foldl_crcByte, hmessage, length_messageBits, regPoly_ones] at hfold
  rw [crcRemainder, ← generator_eq_crcGenerator]
  exact modByMonic_eq_regPoly hfold

/-- Reading the coefficients off backwards gives the register. -/
theorem reverse_coeffBits_regPoly (r : BitVec 32) : (coeffBits (regPoly r)).reverse = r := by
  apply BitVec.eq_of_getLsbD_eq
  intro i hi
  have hbit : (coeffBits (regPoly r)).getLsbD (32 - 1 - i) = r.getLsbD i := by
    rw [coeffBits, BitVec.getLsbD_setWidth, BitVec.getLsbD_ofBoolListLE, decide_eq_true (by omega),
      Bool.true_and, List.getD_eq_getElem _ _ (by simp; omega), List.getElem_map,
      List.getElem_range, coeff_regPoly r hi]
    cases r.getLsbD i <;> decide
  rw [BitVec.getLsbD_reverse, BitVec.getMsbD_eq_getLsbD, decide_eq_true hi, Bool.true_and, hbit]

/-- **The checksum is polynomial division**: for every message it is the
remainder, reversed and complemented. -/
theorem crc32_eq_reference (data : List UInt8) :
    calculateCcitt32AnsiCrc32 data = crc32Reference data := by
  have hones : (0xFFFFFFFF#32 : BitVec 32) = BitVec.allOnes 32 := by decide
  rw [calculateCcitt32AnsiCrc32, crc32Reference, crcRemainder_eq, reverse_coeffBits_regPoly, hones,
    BitVec.xor_allOnes]

/-- **Short bursts are detected.** Messages of one length whose differences lie
in thirty-two consecutive bits have different checksums. -/
theorem crc32_ne_of_burst {a b : List UInt8} (hlen : a.length = b.length) (hne : a ≠ b)
    (hburst : Burst 32 (messageBits a) (messageBits b)) :
    calculateCcitt32AnsiCrc32 a ≠ calculateCcitt32AnsiCrc32 b := by
  intro hcrc
  have hmessage : ∀ data : List UInt8,
      (data.map UInt8.toBitVec).flatMap regBits = messageBits data := fun data => List.flatMap_map ..
  have hfold : (a.map UInt8.toBitVec).foldl (absorb 0xEDB88320#32) 0xFFFFFFFF#32 =
      (b.map UInt8.toBitVec).foldl (absorb 0xEDB88320#32) 0xFFFFFFFF#32 := by
    rw [← foldl_crcByte, ← foldl_crcByte]
    exact (BitVec.xor_left_inj _).1 hcrc
  have hbits := eq_of_foldl_absorb_eq (by decide : 0 < 32) (by decide : 8 ≤ 32) (by decide)
    (by rw [hmessage, hmessage, length_messageBits, length_messageBits, hlen])
    (by rwa [hmessage, hmessage]) hfold
  rw [hmessage, hmessage] at hbits
  exact hne (messageBits_injective hbits)

-- the check value: the nine digits 123456789
example : calculateCcitt32AnsiCrc32 [49, 50, 51, 52, 53, 54, 55, 56, 57] = 0xCBF43926#32 := by
  decide +kernel

end Ssos
