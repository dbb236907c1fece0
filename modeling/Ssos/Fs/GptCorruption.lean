import Ssos.Fs.Gpt

/-!
# Corrupt headers

What `gpt_init` makes of blocks whose header is not what was written: the
checksum sees every short burst, but a rejected header has been copied into the
statics all the same.

## Main results

- `crc32_detects_bursts` — short bursts change the checksum and are rejected
- `gptInit_keeps_vars_iff` — when a rejected header leaves no trace
-/

namespace Ssos

open ByteMemory RecordLayout ReflectedDivision

/-- The result of a block whose checksum was found right. -/
def PastChecksum (result : ℤ) : Prop := result = 0 ∨ result = -7

/-- A burst of at most 32 bits in a header that spares its checksum field. -/
structure HeaderBurst (bytes bytes' : List UInt8) : Prop where
  ne : bytes ≠ bytes'
  burst : Burst 32 (messageBits bytes) (messageBits bytes')
  spares_crc : ∀ i, 0x10 ≤ i → i < 0x14 → bytes[i]? = bytes'[i]?

section Burst
variable {m m' : Mem} {a a' : ℕ}

theorem pastChecksum_verdict {h : GptHeader} (hpast : PastChecksum h.verdict) :
    h.crc32 = h.checksum := by
  by_contra hne
  rw [PastChecksum, GptHeader.verdict, GptHeader.checks] at hpast
  simp only [firstFailing, decide_eq_true_eq, if_neg hne] at hpast
  split at hpast
  · split at hpast
    · split at hpast
      · omega
      · omega
    · omega
  · omega

/-- The bytes that the checksum is computed over. -/
theorem getElem?_zeroed (m : Mem) (a i : ℕ) :
    (bytesAt (memset m (a + 0x10) 0 4) a 92)[i]? =
      if 0x10 ≤ i ∧ i < 0x14 then some 0 else (bytesAt m a 92)[i]? := by
  rw [getElem?_bytesAt, getElem?_bytesAt, memset_apply]
  by_cases hfield : 0x10 ≤ i ∧ i < 0x14
  · rw [if_pos hfield, if_pos (by omega), if_pos (by omega)]
  · rw [if_neg hfield, if_neg (show ¬(a + 0x10 ≤ a + i ∧ a + i < a + 0x10 + 4) by omega)]

/-- Zeroing the checksum field keeps the burst. -/
theorem HeaderBurst.zeroed (h : HeaderBurst (bytesAt m a 92) (bytesAt m' a' 92)) :
    bytesAt (memset m (a + 0x10) 0 4) a 92 ≠ bytesAt (memset m' (a' + 0x10) 0 4) a' 92 ∧
      Burst 32 (messageBits (bytesAt (memset m (a + 0x10) 0 4) a 92))
        (messageBits (bytesAt (memset m' (a' + 0x10) 0 4) a' 92)) := by
  constructor
  · intro he
    apply h.ne
    apply List.ext_getElem?
    intro i
    have hi := congrArg (fun bytes : List UInt8 => bytes[i]?) he
    simp only [getElem?_zeroed] at hi
    by_cases hfield : 0x10 ≤ i ∧ i < 0x14
    · exact h.spares_crc i hfield.1 hfield.2
    · rwa [if_neg hfield, if_neg hfield] at hi
  · obtain ⟨k, hk⟩ := h.burst
    refine ⟨k, fun i hne => hk i fun he => hne ?_⟩
    rw [getElem?_messageBits, getElem?_messageBits] at he ⊢
    rw [getElem?_zeroed, getElem?_zeroed]
    by_cases hfield : 0x10 ≤ i / 8 ∧ i / 8 < 0x14
    · rw [if_pos hfield, if_pos hfield]
    · rwa [if_neg hfield, if_neg hfield]

theorem HeaderBurst.crc32_eq (h : HeaderBurst (bytesAt m a 92) (bytesAt m' a' 92)) :
    (readHeader m a).crc32 = (readHeader m' a').crc32 := by
  have hload : loadLE 4 m (a + 0x10) = loadLE 4 m' (a' + 0x10) := by
    apply loadLE_shift
    intro i hi
    have hbyte := h.spares_crc (0x10 + i) (by omega) (by omega)
    rw [getElem?_bytesAt, getElem?_bytesAt, if_pos (by omega), if_pos (by omega)] at hbyte
    rw [Nat.add_assoc, Nat.add_assoc]
    exact Option.some_inj.1 hbyte
  exact congrArg (BitVec.ofNat 32) hload

theorem HeaderBurst.checksum_ne (h : HeaderBurst (bytesAt m a 92) (bytesAt m' a' 92)) :
    (readHeader m a).checksum ≠ (readHeader m' a').checksum := by
  obtain ⟨hne, hburst⟩ := h.zeroed
  have hlen : (bytesAt (memset m (a + 0x10) 0 4) a 92).length =
      (bytesAt (memset m' (a' + 0x10) 0 4) a' 92).length := by
    rw [length_bytesAt, length_bytesAt]
  rw [checksum_readHeader, checksum_readHeader]
  exact crc32_ne_of_burst hlen hne hburst

end Burst

/-- **CRC-32 detects every short burst**, and a header that passed the checksum
fails it after one outside the checksum field. -/
theorem crc32_detects_bursts :
    (∀ a b : List UInt8, a.length = b.length → a ≠ b → Burst 32 (messageBits a) (messageBits b) →
      calculateCcitt32AnsiCrc32 a ≠ calculateCcitt32AnsiCrc32 b) ∧
    ∀ (m m' : Mem) (a a' : ℕ) (vars vars' : GptVars),
      HeaderBurst (bytesAt m a 92) (bytesAt m' a' 92) →
      PastChecksum (gptInit (some a) (some m) vars).1 →
      (readHeader m' a').crc32 ≠ (readHeader m' a').checksum ∧
        ¬PastChecksum (gptInit (some a') (some m') vars').1 := by
  refine ⟨fun a b hlen hne hburst => crc32_ne_of_burst hlen hne hburst, ?_⟩
  intro m m' a a' vars vars' hcorrupt hpast
  rw [gptInit_result] at hpast ⊢
  have hsum := hcorrupt.checksum_ne
  rw [← pastChecksum_verdict hpast, hcorrupt.crc32_eq] at hsum
  exact ⟨hsum, fun hpast' => hsum (pastChecksum_verdict hpast')⟩

/-- A valid header with another first byte of its GUID. -/
theorem crc32_detects_bursts_guid :
    let vars : GptVars := ⟨2047, 34, 2014, fun i => UInt8.ofNat i, 2, 128, 128, 0xAB54D286#32⟩
    let block := memOf (GptHeader.sealed vars 0).bytes 4096
    ¬PastChecksum (gptInit (some 4096) (some (Function.update block 4152 (block 4152 + 1))) vars).1 := by
  intro vars block
  have hbytes := bytesAt_memOf (GptHeader.sealed vars 0).bytes 4096
  rw [GptHeader.length_bytes] at hbytes
  have hsame : ∀ i ≠ 56, (bytesAt block 4096 92)[i]? =
      (bytesAt (Function.update block 4152 (block 4152 + 1)) 4096 92)[i]? := by
    intro i hi
    rw [getElem?_bytesAt, getElem?_bytesAt, Function.update_of_ne (by omega)]
  have hflip : HeaderBurst (bytesAt block 4096 92)
      (bytesAt (Function.update block 4152 (block 4152 + 1)) 4096 92) := by
    refine ⟨fun he => ?_, ⟨448, fun i hne => ?_⟩, fun i hlo hhi => hsame i (by omega)⟩
    · have hguid := congrArg (fun bytes : List UInt8 => bytes[56]?) he
      simp only [getElem?_bytesAt, Function.update_self] at hguid
      rw [if_pos (by decide), if_pos (by decide)] at hguid
      exact absurd (Option.some_inj.1 hguid).symm (by simp)
    · rw [getElem?_messageBits, getElem?_messageBits] at hne
      by_contra hout
      exact hne (by rw [hsame _ (by omega)])
  refine (crc32_detects_bursts.2 _ _ _ _ vars vars hflip (Or.inl ?_)).2
  rw [gptInit_result, readHeader_of_bytes hbytes]
  exact (GptHeader.verdict_eq_zero_iff _).2 (GptHeader.valid_sealed vars 0)

/-- The statics are as before a header that is rejected. -/
def KeepsVars (gptHeader : Option ℕ) (diskRead : Option Mem) (vars : GptVars) : Prop :=
  (gptInit gptHeader diskRead vars).1 ≠ 0 → (gptInit gptHeader diskRead vars).2 = vars

/-- **A rejected header leaves no trace** only when nothing was read or when its
geometry is the one already in the statics. -/
theorem gptInit_keeps_vars_iff (gptHeader : Option ℕ) (diskRead : Option Mem) (vars : GptVars) :
    KeepsVars gptHeader diskRead vars ↔ ∀ a m, gptHeader = some a → diskRead = some m →
      (readHeader m a).Valid ∨ (readHeader m a).toGptVars = vars := by
  cases gptHeader with
  | none => exact iff_of_true (fun _ => rfl) fun a m ha => absurd ha.symm (Option.some_ne_none a)
  | some a =>
    cases diskRead with
    | none => exact iff_of_true (fun _ => rfl) fun a m _ hm => absurd hm.symm (Option.some_ne_none m)
    | some m =>
      rw [KeepsVars, gptInit_result, gptInit_vars, ne_eq, GptHeader.verdict_eq_zero_iff]
      constructor
      · intro hkeeps a' m' ha hm
        obtain rfl := Option.some_inj.1 ha
        obtain rfl := Option.some_inj.1 hm
        exact Classical.or_iff_not_imp_left.2 hkeeps
      · intro hread hinvalid
        exact (hread a m rfl rfl).resolve_left hinvalid

/-- A block of zeros but for a backup address, with the statics as the linker
leaves them. -/
theorem gptInit_leaves_trace : ¬∀ gptHeader diskRead vars, KeepsVars gptHeader diskRead vars := by
  intro h
  have hkeeps := h (some 4096) (some (Function.update (fun _ => 0) 4128 1))
    ⟨0, 0, 0, fun _ => 0, 0, 0, 0, 0⟩
  rw [KeepsVars] at hkeeps
  have hresult : (gptInit (some 4096) (some (Function.update (fun _ => 0) 4128 1))
    ⟨0, 0, 0, fun _ => 0, 0, 0, 0, 0⟩).1 = -3 := by decide
  have hlba := congrArg GptVars.backupLba (hkeeps (by rw [hresult]; decide))
  exact absurd hlba (by decide)

end Ssos
