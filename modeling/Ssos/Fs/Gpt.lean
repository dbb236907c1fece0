import Ssos.Crc32
import Ssos.Foundations.RecordLayout
import Ssos.Mem.MemOps

/-!
# The GPT header

`gpt_init` of `fs/gpt.c`, which reads the header of the partition table from
block 1, and the layout of that header on the disk.

## Main result

- `gptInit_exact` — which sectors are accepted and what is read from them
-/

namespace Ssos

open ByteMemory RecordLayout

/-- The statics of `fs/gpt.c`. -/
structure GptVars where
  backupLba : BitVec 64
  firstUsableLba : BitVec 64
  lastUsableLba : BitVec 64
  diskGuid : Fin 16 → UInt8
  partitionEntriesLba : BitVec 64
  numPartitionEntries : BitVec 32
  partitionEntrySize : BitVec 32
  crc32PartitionArray : BitVec 32

/-- `memcpy` into a `uint64_t`. -/
def loadU64 (m : Mem) (a : ℕ) : BitVec 64 := BitVec.ofNat 64 (loadLE 8 m a)

/-- `memcpy` into a `uint32_t`. -/
def loadU32 (m : Mem) (a : ℕ) : BitVec 32 := BitVec.ofNat 32 (loadLE 4 m a)

/-- `kmalloc(512)` has given the buffer `gptHeader`, or nothing; `disk_read` has
left the memory `diskRead` with block 1 in the buffer, or has failed. The result
and the statics afterwards. -/
def gptInit (gptHeader : Option ℕ) (diskRead : Option Mem) (vars : GptVars) : ℤ × GptVars :=
  match gptHeader, diskRead with
  | none, _ => (-1, vars)
  | some _, none => (-2, vars)
  | some gptHeader, some m =>
    let signature := loadU64 m (gptHeader + 0x00)
    let gptRevision := loadU32 m (gptHeader + 0x08)
    let headerSize := loadU32 m (gptHeader + 0x0C)
    let crc32Header := loadU32 m (gptHeader + 0x10)
    let m := memset m (gptHeader + 0x10) 0 4
    let currLba := loadU64 m (gptHeader + 0x18)
    let vars : GptVars := {
      backupLba := loadU64 m (gptHeader + 0x20)
      firstUsableLba := loadU64 m (gptHeader + 0x28)
      lastUsableLba := loadU64 m (gptHeader + 0x30)
      diskGuid := fun i => m (gptHeader + 0x38 + i)
      partitionEntriesLba := loadU64 m (gptHeader + 0x48)
      numPartitionEntries := loadU32 m (gptHeader + 0x50)
      partitionEntrySize := loadU32 m (gptHeader + 0x54)
      crc32PartitionArray := loadU32 m (gptHeader + 0x58) }
    if signature ≠ 0x5452415020494645#64 then (-3, vars)
    else if gptRevision ≠ 0x00010000#32 then (-4, vars)
    else if headerSize ≠ 92#32 then (-5, vars)
    else if calculateCcitt32AnsiCrc32 (bytesAt m gptHeader headerSize.toNat) ≠ crc32Header then
      (-6, vars)
    else if currLba ≠ 1#64 then (-7, vars)
    else (0, vars)

/-! ### The layout of the header -/

/-- A header, whatever its fields say. -/
structure GptHeader extends GptVars where
  signature : BitVec 64
  revision : BitVec 32
  headerSize : BitVec 32
  crc32 : BitVec 32
  reserved : BitVec 32
  currLba : BitVec 64

/-- The code of the first check that fails, or 0. -/
def firstFailing : List (Bool × ℤ) → ℤ
  | [] => 0
  | (passed, code) :: checks => if passed then firstFailing checks else code

namespace GptHeader

/-- The fields in front of the GUID, at the offsets from 0 to 56. -/
def front (h : GptHeader) : List (ℕ × ℕ) :=
  [(8, h.signature.toNat), (4, h.revision.toNat), (4, h.headerSize.toNat), (4, h.crc32.toNat),
    (4, h.reserved.toNat), (8, h.currLba.toNat), (8, h.backupLba.toNat),
    (8, h.firstUsableLba.toNat), (8, h.lastUsableLba.toNat)]

/-- The fields behind the GUID, at the offsets from 72 to 92. -/
def back (h : GptHeader) : List (ℕ × ℕ) :=
  [(8, h.partitionEntriesLba.toNat), (4, h.numPartitionEntries.toNat),
    (4, h.partitionEntrySize.toNat), (4, h.crc32PartitionArray.toNat)]

def frontWidths : List ℕ := [8, 4, 4, 4, 4, 8, 8, 8, 8]

def backWidths : List ℕ := [8, 4, 4, 4]

theorem widths_front (h : GptHeader) : widths h.front = frontWidths := rfl

theorem widths_back (h : GptHeader) : widths h.back = backWidths := rfl

/-- The 92 bytes of the header. -/
def bytes (h : GptHeader) : List UInt8 := encode h.front ++ List.ofFn h.diskGuid ++ encode h.back

/-- The checksum of the header with its checksum field zeroed. -/
def checksum (h : GptHeader) : BitVec 32 := calculateCcitt32AnsiCrc32 { h with crc32 := 0 }.bytes

structure Valid (h : GptHeader) : Prop where
  signature_eq : h.signature = 0x5452415020494645#64
  revision_eq : h.revision = 0x00010000#32
  headerSize_eq : h.headerSize = 92#32
  crc32_eq : h.crc32 = h.checksum
  currLba_eq : h.currLba = 1#64

/-- The checks in their order, each with the result that names it. -/
def checks (h : GptHeader) : List (Bool × ℤ) :=
  [(h.signature = 0x5452415020494645#64, -3), (h.revision = 0x00010000#32, -4),
    (h.headerSize = 92#32, -5), (h.crc32 = h.checksum, -6), (h.currLba = 1#64, -7)]

def verdict (h : GptHeader) : ℤ := firstFailing h.checks

end GptHeader

/-- The header that stands at `a`. -/
def readHeader (m : Mem) (a : ℕ) : GptHeader where
  signature := loadU64 m (a + 0x00)
  revision := loadU32 m (a + 0x08)
  headerSize := loadU32 m (a + 0x0C)
  crc32 := loadU32 m (a + 0x10)
  reserved := loadU32 m (a + 0x14)
  currLba := loadU64 m (a + 0x18)
  backupLba := loadU64 m (a + 0x20)
  firstUsableLba := loadU64 m (a + 0x28)
  lastUsableLba := loadU64 m (a + 0x30)
  diskGuid := fun i => m (a + 0x38 + i)
  partitionEntriesLba := loadU64 m (a + 0x48)
  numPartitionEntries := loadU32 m (a + 0x50)
  partitionEntrySize := loadU32 m (a + 0x54)
  crc32PartitionArray := loadU32 m (a + 0x58)

/-! ### Reading the layout -/

section Layout
variable {m : Mem} {a : ℕ} {h : GptHeader}

theorem toNat_loadU64 (m : Mem) (a : ℕ) : (loadU64 m a).toNat = loadLE 8 m a := by
  rw [loadU64, BitVec.toNat_ofNat]
  exact Nat.mod_eq_of_lt (loadLE_lt 8 m a)

theorem toNat_loadU32 (m : Mem) (a : ℕ) : (loadU32 m a).toNat = loadLE 4 m a := by
  rw [loadU32, BitVec.toNat_ofNat]
  exact Nat.mod_eq_of_lt (loadLE_lt 4 m a)

theorem readHeader_front (m : Mem) (a : ℕ) :
    readFields GptHeader.frontWidths m a = (readHeader m a).front := by
  simp only [readHeader, GptHeader.front, GptHeader.frontWidths, readFields, toNat_loadU64,
    toNat_loadU32, Nat.add_assoc, Nat.reduceAdd, Nat.add_zero]

theorem readHeader_back (m : Mem) (a : ℕ) :
    readFields GptHeader.backWidths m (a + 72) = (readHeader m a).back := by
  simp only [readHeader, GptHeader.back, GptHeader.backWidths, readFields, toNat_loadU64,
    toNat_loadU32, Nat.add_assoc, Nat.reduceAdd]

theorem GptHeader.fits_front (h : GptHeader) : Fits h.front := by
  simp only [Fits, GptHeader.front, List.forall_mem_cons]
  exact ⟨h.signature.isLt, h.revision.isLt, h.headerSize.isLt, h.crc32.isLt, h.reserved.isLt,
    h.currLba.isLt, h.backupLba.isLt, h.firstUsableLba.isLt, h.lastUsableLba.isLt,
    fun _ hmem => absurd hmem List.not_mem_nil⟩

theorem GptHeader.fits_back (h : GptHeader) : Fits h.back := by
  simp only [Fits, GptHeader.back, List.forall_mem_cons]
  exact ⟨h.partitionEntriesLba.isLt, h.numPartitionEntries.isLt, h.partitionEntrySize.isLt,
    h.crc32PartitionArray.isLt, fun _ hmem => absurd hmem List.not_mem_nil⟩

/-- The three parts of the bytes in memory. -/
theorem bytesAt_header (m : Mem) (a : ℕ) :
    bytesAt m a 92 = bytesAt m a 56 ++ bytesAt m (a + 56) 16 ++ bytesAt m (a + 72) 20 := by
  rw [← bytesAt_add m a 56 16, ← bytesAt_add m a (56 + 16) 20]

/-- What is read encodes to the bytes it was read from. -/
theorem bytes_readHeader (m : Mem) (a : ℕ) : (readHeader m a).bytes = bytesAt m a 92 := by
  rw [GptHeader.bytes, ← readHeader_front, ← readHeader_back, encode_readFields, encode_readFields,
    bytesAt_header]
  rfl

/-- A header is determined by the fields on either side of its GUID and the GUID. -/
theorem GptHeader.eq_of_parts {h' : GptHeader} (hfront : h.front = h'.front)
    (hguid : h.diskGuid = h'.diskGuid) (hback : h.back = h'.back) : h = h' := by
  obtain ⟨⟨_, _, _, _, _, _, _, _⟩, _, _, _, _, _, _⟩ := h
  obtain ⟨⟨_, _, _, _, _, _, _, _⟩, _, _, _, _, _, _⟩ := h'
  simp only [front, back, List.cons.injEq, Prod.mk.injEq, BitVec.toNat_inj, true_and,
    and_true] at hfront hguid hback
  simp only [hfront, hguid, hback]

/-- The header in memory is the only one with these bytes. -/
theorem readHeader_of_bytes (hbytes : bytesAt m a 92 = h.bytes) : readHeader m a = h := by
  have hlen : (encode h.front).length = 56 := by
    rw [length_encode, h.widths_front]
    rfl
  rw [bytesAt_header, GptHeader.bytes] at hbytes
  obtain ⟨hleft, hback⟩ := List.append_inj hbytes (by
    rw [List.length_append, List.length_append, length_bytesAt, length_bytesAt, hlen,
      List.length_ofFn])
  obtain ⟨hfront, hguid⟩ := List.append_inj hleft (by rw [length_bytesAt, hlen])
  have hfields : readFields (widths h.front) m a = h.front :=
    readFields_of_bytesAt h.fits_front hfront
  have hfields' : readFields (widths h.back) m (a + 72) = h.back :=
    readFields_of_bytesAt h.fits_back hback
  rw [h.widths_front, readHeader_front] at hfields
  rw [h.widths_back, readHeader_back] at hfields'
  exact GptHeader.eq_of_parts hfields (List.ofFn_injective hguid) hfields'

theorem GptHeader.length_bytes (h : GptHeader) : h.bytes.length = 92 := by
  rw [bytes, List.length_append, List.length_append, length_encode, length_encode, List.length_ofFn,
    widths_front, widths_back]
  rfl

/-- Zeroing the four bytes of the checksum zeroes that field and no other. -/
theorem readHeader_memset (m : Mem) (a : ℕ) :
    readHeader (memset m (a + 0x10) 0 4) a = { readHeader m a with crc32 := 0 } := by
  have hload : ∀ n o, o + n ≤ 0x10 ∨ 0x14 ≤ o →
      loadLE n (memset m (a + 0x10) 0 4) (a + o) = loadLE n m (a + o) := by
    intro n o ho
    apply loadLE_congr
    intro x hx hlt
    rw [memset_apply, if_neg (by omega)]
  have hzero : loadLE 4 (memset m (a + 0x10) 0 4) (a + 0x10) = 0 := by
    apply loadLE_eq_zero
    intro x hx hlt
    rw [memset_apply, if_pos (by omega)]
  have hguid : ∀ i : Fin 16, memset m (a + 0x10) 0 4 (a + 0x38 + i) = m (a + 0x38 + i) := by
    intro i
    rw [memset_apply, if_neg (by omega)]
  have hfirst := hload 8 0 (by omega)
  simp only [Nat.add_zero] at hfirst
  simp [readHeader, loadU64, loadU32, hload, hfirst, hzero, hguid]

/-- The checksum is computed over the memory in which its field is zeroed. -/
theorem checksum_readHeader (m : Mem) (a : ℕ) : (readHeader m a).checksum =
    calculateCcitt32AnsiCrc32 (bytesAt (memset m (a + 0x10) 0 4) a 92) := by
  rw [GptHeader.checksum, ← readHeader_memset, bytes_readHeader]

end Layout

/-! ### The checks -/

theorem firstFailing_eq_zero_iff {checks : List (Bool × ℤ)}
    (hcodes : ∀ check ∈ checks, check.2 ≠ 0) :
    firstFailing checks = 0 ↔ ∀ check ∈ checks, check.1 = true := by
  induction checks with
  | nil => exact iff_of_true rfl fun _ hmem => absurd hmem List.not_mem_nil
  | cons check checks ih =>
    obtain ⟨passed, code⟩ := check
    obtain ⟨hcode, hrest⟩ := List.forall_mem_cons.1 hcodes
    rw [firstFailing, List.forall_mem_cons]
    cases passed with
    | false =>
      rw [if_neg Bool.false_ne_true]
      exact iff_of_false hcode fun hall => Bool.false_ne_true hall.1
    | true =>
      rw [if_pos rfl, ih hrest]
      exact (and_iff_right rfl).symm

/-- Only a valid header passes every check. -/
theorem GptHeader.verdict_eq_zero_iff (h : GptHeader) : h.verdict = 0 ↔ h.Valid := by
  rw [verdict, firstFailing_eq_zero_iff (by simp [checks])]
  simp only [checks, List.forall_mem_cons, decide_eq_true_eq]
  constructor
  · intro ⟨hsignature, hrevision, hsize, hcrc, hlba, _⟩
    exact ⟨hsignature, hrevision, hsize, hcrc, hlba⟩
  · intro ⟨hsignature, hrevision, hsize, hcrc, hlba⟩
    exact ⟨hsignature, hrevision, hsize, hcrc, hlba, fun _ hmem => absurd hmem List.not_mem_nil⟩

/-- A valid header for any contents of its other fields. -/
def GptHeader.sealed (vars : GptVars) (reserved : BitVec 32) : GptHeader :=
  let h : GptHeader := {
    vars with
    signature := 0x5452415020494645#64
    revision := 0x00010000#32
    headerSize := 92#32
    crc32 := 0
    reserved := reserved
    currLba := 1#64 }
  { h with crc32 := h.checksum }

/-- The checksum does not depend on the checksum field. -/
theorem GptHeader.checksum_withCrc (h : GptHeader) (crc : BitVec 32) :
    { h with crc32 := crc }.checksum = h.checksum := by
  rw [checksum, checksum]

theorem GptHeader.valid_sealed (vars : GptVars) (reserved : BitVec 32) :
    (sealed vars reserved).Valid :=
  ⟨rfl, rfl, rfl, (checksum_withCrc _ _).symm, rfl⟩

/-- The code in terms of the header before and after its checksum is zeroed. -/
theorem gptInit_unfold (gptHeader : ℕ) (m : Mem) (vars : GptVars) :
    gptInit (some gptHeader) (some m) vars =
      let h := readHeader m gptHeader
      let m := memset m (gptHeader + 0x10) 0 4
      let vars := (readHeader m gptHeader).toGptVars
      if h.signature ≠ 0x5452415020494645#64 then (-3, vars)
      else if h.revision ≠ 0x00010000#32 then (-4, vars)
      else if h.headerSize ≠ 92#32 then (-5, vars)
      else if calculateCcitt32AnsiCrc32 (bytesAt m gptHeader h.headerSize.toNat) ≠ h.crc32 then
        (-6, vars)
      else if (readHeader m gptHeader).currLba ≠ 1#64 then (-7, vars)
      else (0, vars) := rfl

/-- The code reads the header and runs the checks. -/
theorem gptInit_eq (gptHeader : ℕ) (m : Mem) (vars : GptVars) :
    gptInit (some gptHeader) (some m) vars =
      ((readHeader m gptHeader).verdict, (readHeader m gptHeader).toGptVars) := by
  have hcrc : (readHeader m gptHeader).headerSize = 92#32 →
      calculateCcitt32AnsiCrc32 (bytesAt (memset m (gptHeader + 0x10) 0 4) gptHeader
        (readHeader m gptHeader).headerSize.toNat) = (readHeader m gptHeader).checksum := by
    intro hsize
    rw [hsize, checksum_readHeader]
    rfl
  rw [gptInit_unfold, GptHeader.verdict, GptHeader.checks]
  simp only [readHeader_memset, firstFailing, decide_eq_true_eq]
  by_cases hsignature : (readHeader m gptHeader).signature = 0x5452415020494645#64
  · by_cases hrevision : (readHeader m gptHeader).revision = 0x00010000#32
    · by_cases hsize : (readHeader m gptHeader).headerSize = 92#32
      · rw [hcrc hsize]
        by_cases hsum : (readHeader m gptHeader).crc32 = (readHeader m gptHeader).checksum
        · by_cases hlba : (readHeader m gptHeader).currLba = 1#64
          · simp [hsignature, hrevision, hsize, ← hsum, hlba]
          · simp [hsignature, hrevision, hsize, ← hsum, hlba]
        · simp [hsignature, hrevision, hsize, hsum, Ne.symm hsum]
      · simp [hsignature, hrevision, hsize]
    · simp [hsignature, hrevision]
  · simp [hsignature]

theorem gptInit_result (gptHeader : ℕ) (m : Mem) (vars : GptVars) :
    (gptInit (some gptHeader) (some m) vars).1 = (readHeader m gptHeader).verdict := by
  rw [gptInit_eq]

theorem gptInit_vars (gptHeader : ℕ) (m : Mem) (vars : GptVars) :
    (gptInit (some gptHeader) (some m) vars).2 = (readHeader m gptHeader).toGptVars := by
  rw [gptInit_eq]

/-- **Exactly the valid headers are accepted.** For every content of the block:
the result is 0 when the first 92 bytes encode a valid header and only then;
every valid header that stands there is accepted and leaves its fields in the
statics; and the 92 bytes always encode one header, whose first failing check
the result names. -/
theorem gptInit_exact (gptHeader : ℕ) (m : Mem) (vars : GptVars) :
    ((gptInit (some gptHeader) (some m) vars).1 = 0 ↔
      ∃ h : GptHeader, h.Valid ∧ bytesAt m gptHeader 92 = h.bytes) ∧
    (∀ h : GptHeader, h.Valid → bytesAt m gptHeader 92 = h.bytes →
      gptInit (some gptHeader) (some m) vars = (0, h.toGptVars)) ∧
    ∃! h : GptHeader, bytesAt m gptHeader 92 = h.bytes ∧
      (gptInit (some gptHeader) (some m) vars).1 = h.verdict := by
  have hread := (bytes_readHeader m gptHeader).symm
  have hverdict := gptInit_result gptHeader m vars
  refine ⟨?_, ?_, ?_⟩
  · rw [hverdict, GptHeader.verdict_eq_zero_iff]
    constructor
    · intro hvalid
      exact ⟨readHeader m gptHeader, hvalid, hread⟩
    · intro ⟨h, hvalid, hbytes⟩
      rwa [readHeader_of_bytes hbytes]
  · intro h hvalid hbytes
    rw [gptInit_eq, readHeader_of_bytes hbytes, h.verdict_eq_zero_iff.2 hvalid]
  · refine ⟨readHeader m gptHeader, ⟨hread, hverdict⟩, ?_⟩
    intro h ⟨hbytes, _⟩
    exact (readHeader_of_bytes hbytes).symm

/-- A block with a valid header in the buffer at 4096, accepted by the code. -/
theorem gptInit_exact_sealed :
    let vars : GptVars := ⟨2047, 34, 2014, fun i => UInt8.ofNat i, 2, 128, 128, 0xAB54D286#32⟩
    let block := memOf (GptHeader.sealed vars 0).bytes 4096
    gptInit (some 4096) (some block) ⟨0, 0, 0, fun _ => 0, 0, 0, 0, 0⟩ = (0, vars) := by
  intro vars block
  have hbytes := bytesAt_memOf (GptHeader.sealed vars 0).bytes 4096
  rw [GptHeader.length_bytes] at hbytes
  exact (gptInit_exact 4096 block _).2.1 _ (GptHeader.valid_sealed vars 0) hbytes

end Ssos
