import Mathlib.Data.List.MinMax
import Ssos.Mem.FrameScan

/-!
# The initial bitmap

`paging_init_frame_allocator` of `mem/paging.c` picks the largest usable region
of the memory map and marks its pages free. The bit to set is shifted as an
`int`, which goes wrong from the 32nd page of a bucket on.

## Main results

- `selectRegion_eq` — the region is the first largest one
- `bitmapExact_iff` — exactly when the bitmap is that of the region
-/

namespace Ssos

open RunScan PartialRun

structure LimineMemmapEntry where
  base : Word
  length : Word
  type : Word

def limineMemmapUsable : Word := 0

/-- The linker symbols `virt_kernel_start` and `virt_kernel_end`. -/
structure KernelImage where
  virtKernelStart : Word
  virtKernelEnd : Word

/-- `ALIGN_UP(x, PAGE_SIZE)`. -/
def alignUpPage (x : Word) : Word := (x + (pageBytes - 1#64)) &&& ~~~(pageBytes - 1#64)

/-- `ALIGN_DOWN(x, PAGE_SIZE)`. -/
def alignDownPage (x : Word) : Word := x &&& ~~~(pageBytes - 1#64)

/-- The part of a region on the larger side of the kernel, if the two overlap:
`usable_start` and `usable_end`. -/
def cutKernel (regionStart regionEnd kstart kend : Word) : Word × Word :=
  if regionStart < kend ∧ regionEnd > kstart then
    let sizeBefore := if kstart > regionStart then kstart - regionStart else 0
    let sizeAfter := if regionEnd > kend then regionEnd - kend else 0
    if sizeBefore ≥ sizeAfter then (regionStart, kstart) else (kend, regionEnd)
  else (regionStart, regionEnd)

/-- The part of an entry that the loop considers; there is none where the loop
goes on to the next entry. -/
def usableRange (kernel : KernelImage) (hhdmStart : Word) (mmapEntry : LimineMemmapEntry) :
    Option (Word × Word) :=
  if mmapEntry.type = limineMemmapUsable then
    let regionStart := alignUpPage mmapEntry.base
    let regionEnd := alignDownPage (mmapEntry.base + mmapEntry.length)
    if regionEnd ≤ regionStart then none
    else
      let kstart := alignUpPage (kernel.virtKernelStart - hhdmStart)
      let kend := alignDownPage (kernel.virtKernelEnd - hhdmStart)
      let usable := cutKernel regionStart regionEnd kstart kend
      if usable.2 ≤ usable.1 + pageBytes then none else some usable
  else none

/-- `best_base`, `best_len` and `usable_block_found`. -/
structure BestRegion where
  base : Word
  len : Word
  found : Bool

/-- One turn of the loop over the memory map. -/
def considerEntry (kernel : KernelImage) (hhdmStart : Word) (best : BestRegion)
    (mmapEntry : LimineMemmapEntry) : BestRegion :=
  match usableRange kernel hhdmStart mmapEntry with
  | none => best
  | some (usableStart, usableEnd) =>
    let usableLength := usableEnd - usableStart
    if !best.found ∨ usableLength > best.len then ⟨usableStart, usableLength, true⟩ else best

def selectRegion (kernel : KernelImage) (hhdmStart : Word) (mmapEntries : List LimineMemmapEntry) :
    BestRegion :=
  mmapEntries.foldl (considerEntry kernel hhdmStart) ⟨0, 0, false⟩

/-- `1 << n` is shifted as an `int` and then extended to 64 bits with its sign;
from 32 on the shift is undefined. -/
def intBit (n : ℕ) : Option Word := if n < 32 then some ((1#32 <<< n).signExtend 64) else none

/-- `pages[page_idx / BUCKET_SIZE] |= 1 << (page_idx % BUCKET_SIZE)`. -/
def markFree (pages : ℕ → Word) (pageIdx : ℕ) : Option (ℕ → Word) :=
  (intBit (pageIdx % bucketSize)).map fun bit =>
    Function.update pages (pageIdx / bucketSize) (pages (pageIdx / bucketSize) ||| bit)

/-- `cr3` is what `paging_read_cr3` returns. The result is missing where a shift
is undefined. -/
def pagingInitFrameAllocator (cr3 : Word) (kernel : KernelImage)
    (mmapEntries : List LimineMemmapEntry) (hhOff : Word) (s : Paging) : Option (ℤ × Paging) :=
  let s := { s with kernelPml4 := cr3 + hhOff, hhdmStart := hhOff }
  let best := selectRegion kernel hhOff mmapEntries
  if !best.found then some (-1, s)
  else
    let pageCount := (best.len / pageBytes).toNat
    let presentPageCount := if pageCount > maxPages then maxPages else pageCount
    match exec markFree s.pages (List.range presentPageCount) with
    | none => none
    | some pages => some (0, { s with pages, physPageBase := best.base, presentPageCount })

/-! ### The extent of an entry, in pages -/

/-- The whole pages of an entry, or of its larger part on one side of the kernel. -/
def usablePages (kernel : KernelImage) (hhdmStart : Word) (mmapEntry : LimineMemmapEntry) : ℕ :=
  let first := (mmapEntry.base + 0x1FFFFF#64).toNat / 0x200000
  let last := (mmapEntry.base + mmapEntry.length).toNat / 0x200000
  let kernelFirst := (kernel.virtKernelStart - hhdmStart + 0x1FFFFF#64).toNat / 0x200000
  let kernelLast := (kernel.virtKernelEnd - hhdmStart).toNat / 0x200000
  if mmapEntry.type ≠ limineMemmapUsable then 0
  else if first < kernelLast ∧ kernelFirst < last then max (kernelFirst - first) (last - kernelLast)
  else last - first

/-- The address of page `n` of the address space. -/
def pageWord (n : ℕ) : Word := BitVec.ofNat 64 (n * 0x200000)

section PageWord
variable {a b : ℕ}

theorem toNat_pageWord (ha : a < 2 ^ 43) : (pageWord a).toNat = a * 0x200000 := by
  rw [pageWord, BitVec.toNat_ofNat, Nat.mod_eq_of_lt (by omega)]

theorem pageWord_lt (ha : a < 2 ^ 43) (hb : b < 2 ^ 43) : pageWord a < pageWord b ↔ a < b := by
  rw [BitVec.lt_def, toNat_pageWord ha, toNat_pageWord hb]
  omega

theorem pageWord_le (ha : a < 2 ^ 43) (hb : b < 2 ^ 43) : pageWord a ≤ pageWord b ↔ a ≤ b := by
  rw [BitVec.le_def, toNat_pageWord ha, toNat_pageWord hb]
  omega

theorem pageWord_sub (ha : a < 2 ^ 43) (hle : b ≤ a) :
    pageWord a - pageWord b = pageWord (a - b) := by
  have hb : b < 2 ^ 43 := by omega
  apply BitVec.eq_of_toNat_eq
  rw [BitVec.toNat_sub_of_le ((pageWord_le hb ha).2 hle), toNat_pageWord ha, toNat_pageWord hb,
    toNat_pageWord (by omega), Nat.sub_mul]

theorem pageWord_succ (a : ℕ) : pageWord a + pageBytes = pageWord (a + 1) := by
  rw [pageWord, pageWord, Nat.add_mul, BitVec.ofNat_add]
  rfl

theorem pageWord_div (ha : a < 2 ^ 43) : (pageWord a / pageBytes).toNat = a := by
  rw [BitVec.toNat_udiv, toNat_pageWord ha]
  exact Nat.mul_div_cancel a (by decide)

theorem alignDownPage_eq (x : Word) : alignDownPage x = pageWord (x.toNat / 0x200000) := by
  have hlt := x.isLt
  have hshift : alignDownPage x = x >>> 21 <<< 21 := by
    apply BitVec.eq_of_getLsbD_eq
    intro i hi
    have hmask : ∀ i < 64, (~~~(pageBytes - 1#64)).getLsbD i = decide (21 ≤ i) := by decide
    rw [alignDownPage, BitVec.getLsbD_and, hmask i hi, BitVec.getLsbD_shiftLeft,
      BitVec.getLsbD_ushiftRight]
    by_cases hlow : i < 21
    · simp [hlow]
    · simp [hlow, hi, Nat.le_of_not_lt hlow]
  apply BitVec.eq_of_toNat_eq
  rw [hshift, BitVec.toNat_shiftLeft, BitVec.toNat_ushiftRight, Nat.shiftRight_eq_div_pow,
    Nat.shiftLeft_eq, toNat_pageWord (by omega)]
  omega

theorem alignUpPage_eq (x : Word) :
    alignUpPage x = pageWord ((x + 0x1FFFFF#64).toNat / 0x200000) := by
  have hmask : pageBytes - 1#64 = 0x1FFFFF#64 := by decide
  rw [← alignDownPage_eq, alignUpPage, alignDownPage, hmask]

theorem page_lt (x : Word) : x.toNat / 0x200000 < 2 ^ 43 := by
  have hlt := x.isLt
  omega

end PageWord

section Extent
variable {kernel : KernelImage} {hhdmStart : Word} {mmapEntry : LimineMemmapEntry}

/-- What `cutKernel` keeps, in page numbers. -/
def cutPages (first last kernelFirst kernelLast : ℕ) : ℕ × ℕ :=
  if first < kernelLast ∧ kernelFirst < last then
    if last - kernelLast ≤ kernelFirst - first then (first, kernelFirst) else (kernelLast, last)
  else (first, last)

theorem cutPages_sub (first last kernelFirst kernelLast : ℕ) :
    (cutPages first last kernelFirst kernelLast).2 - (cutPages first last kernelFirst kernelLast).1 =
      if first < kernelLast ∧ kernelFirst < last then max (kernelFirst - first) (last - kernelLast)
      else last - first := by
  rw [cutPages]
  by_cases hmeet : first < kernelLast ∧ kernelFirst < last
  · rw [if_pos hmeet, if_pos hmeet]
    by_cases hbefore : last - kernelLast ≤ kernelFirst - first
    · rw [if_pos hbefore, max_eq_left hbefore]
    · rw [if_neg hbefore, max_eq_right (by omega)]
  · rw [if_neg hmeet, if_neg hmeet]

/-- Nothing is kept of an entry without a whole page. -/
theorem cutPages_of_le {first last : ℕ} (hle : last ≤ first) (kernelFirst kernelLast : ℕ) :
    (cutPages first last kernelFirst kernelLast).2 ≤
      (cutPages first last kernelFirst kernelLast).1 := by
  rw [cutPages]
  split_ifs <;> omega

theorem cutPages_lt {first last kernelFirst kernelLast n : ℕ} (hfirst : first < n) (hlast : last < n)
    (hkfirst : kernelFirst < n) (hklast : kernelLast < n) :
    (cutPages first last kernelFirst kernelLast).1 < n ∧
      (cutPages first last kernelFirst kernelLast).2 < n := by
  rw [cutPages]
  split_ifs <;> exact ⟨by assumption, by assumption⟩

theorem cutPages_fst_lt {first last : ℕ} (hlt : first < last) (kernelFirst kernelLast : ℕ) :
    (cutPages first last kernelFirst kernelLast).1 < last := by
  rw [cutPages]
  split_ifs <;> omega

/-- The cut in terms of page numbers. -/
theorem cutKernel_pageWord {first last kernelFirst kernelLast : ℕ} (hlt : first < last)
    (hlast : last < 2 ^ 43) (hkfirst : kernelFirst < 2 ^ 43) (hklast : kernelLast < 2 ^ 43) :
    cutKernel (pageWord first) (pageWord last) (pageWord kernelFirst) (pageWord kernelLast) =
      (pageWord (cutPages first last kernelFirst kernelLast).1,
        pageWord (cutPages first last kernelFirst kernelLast).2) := by
  have hfirst : first < 2 ^ 43 := by omega
  have hsize : ∀ {a b : ℕ}, a < 2 ^ 43 → b < 2 ^ 43 →
      (if pageWord b > pageWord a then pageWord b - pageWord a else 0) = pageWord (b - a) := by
    intro a b ha hb
    by_cases hab : a < b
    · rw [if_pos ((pageWord_lt ha hb).2 hab), pageWord_sub hb hab.le]
    · rw [if_neg (fun h => hab ((pageWord_lt ha hb).1 h)), Nat.sub_eq_zero_of_le (by omega)]
      rfl
  rw [cutKernel, cutPages]
  simp only [gt_iff_lt, pageWord_lt hfirst hklast, pageWord_lt hkfirst hlast]
  by_cases hmeet : first < kernelLast ∧ kernelFirst < last
  · rw [if_pos hmeet, if_pos hmeet]
    have hbefore := hsize hfirst hkfirst
    have hafter := hsize hklast hlast
    simp only [gt_iff_lt] at hbefore hafter
    simp only [hbefore, hafter, ge_iff_le]
    by_cases hge : last - kernelLast ≤ kernelFirst - first
    · rw [if_pos ((pageWord_le (by omega) (by omega)).2 hge), if_pos hge]
    · rw [if_neg (fun h => hge ((pageWord_le (by omega) (by omega)).1 h)), if_neg hge]
  · rw [if_neg hmeet, if_neg hmeet]

/-- What the loop considers of an entry, in page numbers. -/
def consideredPages (kernel : KernelImage) (hhdmStart : Word) (mmapEntry : LimineMemmapEntry) :
    ℕ × ℕ :=
  cutPages ((mmapEntry.base + 0x1FFFFF#64).toNat / 0x200000)
    ((mmapEntry.base + mmapEntry.length).toNat / 0x200000)
    ((kernel.virtKernelStart - hhdmStart + 0x1FFFFF#64).toNat / 0x200000)
    ((kernel.virtKernelEnd - hhdmStart).toNat / 0x200000)

theorem consideredPages_lt (kernel : KernelImage) (hhdmStart : Word)
    (mmapEntry : LimineMemmapEntry) :
    (consideredPages kernel hhdmStart mmapEntry).1 < 2 ^ 43 ∧
      (consideredPages kernel hhdmStart mmapEntry).2 < 2 ^ 43 :=
  cutPages_lt (page_lt _) (page_lt _) (page_lt _) (page_lt _)

theorem usablePages_eq (htype : mmapEntry.type = limineMemmapUsable) :
    usablePages kernel hhdmStart mmapEntry =
      (consideredPages kernel hhdmStart mmapEntry).2 -
        (consideredPages kernel hhdmStart mmapEntry).1 := by
  rw [usablePages, if_neg (not_not_intro htype), consideredPages, cutPages_sub]

/-- **One turn of the loop** goes on to the next entry when no more than one
page is left. -/
theorem usableRange_eq (htype : mmapEntry.type = limineMemmapUsable) :
    usableRange kernel hhdmStart mmapEntry =
      if (consideredPages kernel hhdmStart mmapEntry).2 ≤
          (consideredPages kernel hhdmStart mmapEntry).1 + 1 then none
      else some (pageWord (consideredPages kernel hhdmStart mmapEntry).1,
        pageWord (consideredPages kernel hhdmStart mmapEntry).2) := by
  obtain ⟨hleft, hright⟩ := consideredPages_lt kernel hhdmStart mmapEntry
  rw [usableRange, if_pos htype]
  rw [consideredPages] at hleft hright ⊢
  simp only [alignUpPage_eq, alignDownPage_eq]
  have hfirst := page_lt (mmapEntry.base + 0x1FFFFF#64)
  have hlast := page_lt (mmapEntry.base + mmapEntry.length)
  have hkfirst := page_lt (kernel.virtKernelStart - hhdmStart + 0x1FFFFF#64)
  have hklast := page_lt (kernel.virtKernelEnd - hhdmStart)
  -- from here on the four bounds are only numbers of pages
  generalize (mmapEntry.base + 0x1FFFFF#64).toNat / 0x200000 = first at *
  generalize (mmapEntry.base + mmapEntry.length).toNat / 0x200000 = last at *
  generalize (kernel.virtKernelStart - hhdmStart + 0x1FFFFF#64).toNat / 0x200000 = kernelFirst at *
  generalize (kernel.virtKernelEnd - hhdmStart).toNat / 0x200000 = kernelLast at *
  by_cases hle : last ≤ first
  · have hnone := cutPages_of_le hle kernelFirst kernelLast
    rw [if_pos ((pageWord_le hlast hfirst).2 hle), if_pos (by omega)]
  · have hstart := cutPages_fst_lt (Nat.lt_of_not_le hle) kernelFirst kernelLast
    rw [if_neg (fun h => hle ((pageWord_le hlast hfirst).1 h)),
      cutKernel_pageWord (Nat.lt_of_not_le hle) hlast hkfirst hklast, pageWord_succ]
    by_cases hsmall : (cutPages first last kernelFirst kernelLast).2 ≤
        (cutPages first last kernelFirst kernelLast).1 + 1
    · rw [if_pos hsmall, if_pos ((pageWord_le hright (by omega)).2 hsmall)]
    · rw [if_neg hsmall, if_neg (fun h => hsmall ((pageWord_le hright (by omega)).1 h))]

/-- What the loop body takes from an entry. -/
theorem usableRange_cases (kernel : KernelImage) (hhdmStart : Word) (mmapEntry : LimineMemmapEntry) :
    usableRange kernel hhdmStart mmapEntry = none ∧ usablePages kernel hhdmStart mmapEntry ≤ 1 ∨
    ∃ a b, a + 1 < b ∧ b < 2 ^ 43 ∧
      usableRange kernel hhdmStart mmapEntry = some (pageWord a, pageWord b) ∧
      usablePages kernel hhdmStart mmapEntry = b - a := by
  by_cases htype : mmapEntry.type = limineMemmapUsable
  · rw [usableRange_eq htype, usablePages_eq htype]
    have hlt := (consideredPages_lt kernel hhdmStart mmapEntry).2
    by_cases hsmall : (consideredPages kernel hhdmStart mmapEntry).2 ≤
        (consideredPages kernel hhdmStart mmapEntry).1 + 1
    · rw [if_pos hsmall]
      exact Or.inl ⟨rfl, by omega⟩
    · rw [if_neg hsmall]
      exact Or.inr ⟨_, _, by omega, hlt, rfl, rfl⟩
  · rw [usableRange, usablePages, if_neg htype, if_pos htype]
    exact Or.inl ⟨rfl, by decide⟩

end Extent

/-! ### The largest region -/

/-- The regions that the loop takes from the memory map. -/
def usableRanges (kernel : KernelImage) (hhdmStart : Word) (mmapEntries : List LimineMemmapEntry) :
    List (Word × Word) :=
  mmapEntries.filterMap (usableRange kernel hhdmStart)

/-- `usable_length` of a region. -/
def rangeLength (range : Word × Word) : ℕ := (range.2 - range.1).toNat

/-- **The choice.** The loop finds the first of the longest regions. -/
theorem selectRegion_eq (kernel : KernelImage) (hhdmStart : Word)
    (mmapEntries : List LimineMemmapEntry) :
    selectRegion kernel hhdmStart mmapEntries =
      match (usableRanges kernel hhdmStart mmapEntries).argmax rangeLength with
      | none => ⟨0, 0, false⟩
      | some range => ⟨range.1, range.2 - range.1, true⟩ := by
  induction mmapEntries using List.reverseRecOn with
  | nil => rfl
  | append_singleton mmapEntries mmapEntry ih =>
    rw [selectRegion, List.foldl_append, ← selectRegion, ih, List.foldl_cons, List.foldl_nil,
      considerEntry, usableRanges, usableRanges, List.filterMap_append, List.filterMap_cons]
    cases hrange : usableRange kernel hhdmStart mmapEntry with
    | none => simp
    | some range =>
      simp only [List.filterMap_nil, List.argmax_concat]
      cases List.argmax rangeLength (mmapEntries.filterMap (usableRange kernel hhdmStart)) with
      | none => simp
      | some best =>
        have hlen : range.2 - range.1 > best.2 - best.1 ↔ rangeLength best < rangeLength range :=
          BitVec.lt_def
        simp only [hlen, Bool.not_true, Bool.false_eq_true, false_or]
        by_cases hlt : rangeLength best < rangeLength range
        · rw [if_pos hlt, if_pos hlt]
        · rw [if_neg hlt, if_neg hlt]

/-- The length of what is taken from an entry. -/
theorem rangeLength_eq {kernel : KernelImage} {hhdmStart : Word} {mmapEntry : LimineMemmapEntry}
    {range : Word × Word} (hrange : usableRange kernel hhdmStart mmapEntry = some range) :
    rangeLength range = usablePages kernel hhdmStart mmapEntry * 0x200000 ∧
      ((range.2 - range.1) / pageBytes).toNat = usablePages kernel hhdmStart mmapEntry := by
  cases usableRange_cases kernel hhdmStart mmapEntry with
  | inl hnone => exact absurd (hnone.1.symm.trans hrange) (Option.some_ne_none range).symm
  | inr hsome =>
    obtain ⟨a, b, hab, hb, heq, hcount⟩ := hsome
    obtain rfl := Option.some_inj.1 (heq.symm.trans hrange)
    have hsub : pageWord b - pageWord a = pageWord (b - a) := pageWord_sub hb (by omega)
    rw [rangeLength, hsub, hcount, toNat_pageWord (by omega), pageWord_div (by omega)]
    exact ⟨rfl, rfl⟩

/-- The pages of the region that is chosen are the most that any entry has. -/
theorem regionPages_le_iff {kernel : KernelImage} {hhdmStart : Word}
    {mmapEntries : List LimineMemmapEntry} {n : ℕ} (hn : 1 ≤ n)
    (hfound : (selectRegion kernel hhdmStart mmapEntries).found = true) :
    ((selectRegion kernel hhdmStart mmapEntries).len / pageBytes).toNat ≤ n ↔
      ∀ mmapEntry ∈ mmapEntries, usablePages kernel hhdmStart mmapEntry ≤ n := by
  rw [selectRegion_eq] at hfound ⊢
  cases hmax : (usableRanges kernel hhdmStart mmapEntries).argmax rangeLength with
  | none =>
    rw [hmax] at hfound
    exact absurd hfound Bool.false_ne_true
  | some range =>
    obtain ⟨mmapEntry, hmem, hrange⟩ := List.mem_filterMap.1 (List.argmax_mem hmax)
    simp only
    rw [(rangeLength_eq hrange).2]
    constructor
    · intro hle other hother
      cases usableRange_cases kernel hhdmStart other with
      | inl hnone => exact hnone.2.trans hn
      | inr hsome =>
        obtain ⟨a, b, _, _, heq, _⟩ := hsome
        have hlen : rangeLength (pageWord a, pageWord b) ≤ rangeLength range :=
          List.le_of_mem_argmax (List.mem_filterMap.2 ⟨other, hother, heq⟩) hmax
        rw [(rangeLength_eq heq).1, (rangeLength_eq hrange).1] at hlen
        omega
    · intro hall
      exact hall mmapEntry hmem

/-! ### The bitmap -/

theorem intBit_of_lt {n : ℕ} (hn : n < 31) : intBit n = some (1#64 <<< n) := by
  have hall : ∀ n < 31, intBit n = some (1#64 <<< n) := by decide
  exact hall n hn

/-- Up to the 31st page the marking is right. -/
theorem exec_markFree_le {n : ℕ} (hn : n ≤ 31) :
    ∃ pages, exec markFree (fun _ => 0) (List.range n) = some pages ∧
      ∀ i, pageBit pages i = decide (i < n) := by
  induction n with
  | zero =>
    refine ⟨_, rfl, ?_⟩
    intro i
    exact BitVec.getLsbD_zero
  | succ n ih =>
    obtain ⟨pages, hexec, hbits⟩ := ih (by omega)
    have hmark : markFree pages n = some (setPage pages n) := by
      have hmod : n % bucketSize = n := Nat.mod_eq_of_lt (by rw [bucketSize_eq]; omega)
      rw [markFree, setPage, hmod, intBit_of_lt (by omega), Option.map_some]
    refine ⟨setPage pages n, ?_, ?_⟩
    · rw [List.range_succ, exec_append, hexec, Option.bind_some, exec_cons hmark]
      rfl
    · intro i
      rw [pageBit_setPage, hbits]
      by_cases heq : i = n
      · simp [heq]
      · simp only [heq, decide_false, Bool.or_false]
        congr 1
        exact propext (by omega)

/-- The 32nd page takes the rest of its bucket with it. -/
theorem exec_markFree_32 :
    ∃ pages, exec markFree (fun _ => 0) (List.range 32) = some pages ∧ pageBit pages 32 = true := by
  obtain ⟨pages, hexec, _⟩ := exec_markFree_le (le_refl 31)
  have hmark : markFree pages 31 =
      some (Function.update pages 0 (pages 0 ||| 0xFFFFFFFF80000000#64)) := by
    have hbit : intBit (31 % bucketSize) = some 0xFFFFFFFF80000000#64 := by decide
    rw [markFree, hbit]
    rfl
  refine ⟨Function.update pages 0 (pages 0 ||| 0xFFFFFFFF80000000#64), ?_, ?_⟩
  · rw [List.range_succ, exec_append, hexec, Option.bind_some, exec_cons hmark]
    rfl
  · rw [pageBit]
    have hlow : 32 / bucketSize = 0 := rfl
    rw [hlow, Function.update_self, BitVec.getLsbD_or]
    exact Bool.or_eq_true_iff.2 (Or.inr (by decide))

/-- Behind the 32nd page the shift is undefined. -/
theorem exec_markFree_gt {n : ℕ} (hn : 32 < n) :
    exec markFree (fun _ => 0) (List.range n) = none := by
  obtain ⟨pages, hexec, _⟩ := exec_markFree_32
  obtain ⟨d, rfl⟩ := Nat.exists_eq_add_of_le hn
  have hundef : markFree pages 32 = none := rfl
  have hstuck : exec markFree (fun _ => 0) (List.range (32 + 1)) = none := by
    rw [List.range_succ, exec_append, hexec, Option.bind_some, exec, hundef]
  rw [Nat.succ_eq_add_one, List.range_add, exec_append, hstuck, Option.bind_none]

/-- Where a region is chosen, the call has a result, which is 0, and leaves the
bits of the region's pages set and no others. -/
def BitmapExact (cr3 : Word) (kernel : KernelImage) (mmapEntries : List LimineMemmapEntry)
    (hhOff : Word) (s : Paging) : Prop :=
  let best := selectRegion kernel hhOff mmapEntries
  best.found = true →
    ∃ s', pagingInitFrameAllocator cr3 kernel mmapEntries hhOff { s with pages := fun _ => 0 } =
        some (0, s') ∧
      ∀ i < maxPages, pageBit s'.pages i = true ↔ i < min (best.len / pageBytes).toNat maxPages

/-- `page_count > MAX_PAGES ? MAX_PAGES : page_count`. -/
theorem capped_eq_min (n : ℕ) : (if n > maxPages then maxPages else n) = min n maxPages := by
  by_cases hn : n > maxPages
  · rw [if_pos hn, min_eq_right hn.le]
  · rw [if_neg hn, min_eq_left (Nat.le_of_not_lt hn)]

section Exact
variable (cr3 : Word) (kernel : KernelImage) (mmapEntries : List LimineMemmapEntry) (hhOff : Word)
  (s : Paging)

theorem pagingInitFrameAllocator_eq (hfound : (selectRegion kernel hhOff mmapEntries).found = true) :
    pagingInitFrameAllocator cr3 kernel mmapEntries hhOff { s with pages := fun _ => 0 } =
      let presentPageCount :=
        min ((selectRegion kernel hhOff mmapEntries).len / pageBytes).toNat maxPages
      (exec markFree (fun _ => 0) (List.range presentPageCount)).map fun pages =>
        (0, { s with
          kernelPml4 := cr3 + hhOff
          hhdmStart := hhOff
          pages
          physPageBase := (selectRegion kernel hhOff mmapEntries).base
          presentPageCount }) := by
  rw [pagingInitFrameAllocator]
  simp only [hfound, capped_eq_min, Bool.not_true, Bool.false_eq_true, if_false]
  cases exec markFree (fun _ => 0) (List.range
      (min ((selectRegion kernel hhOff mmapEntries).len / pageBytes).toNat maxPages)) with
  | none => rfl
  | some pages => rfl

/-- With a region of 32 pages or more the bitmap is not exact. -/
theorem not_bitmapExact (hfound : (selectRegion kernel hhOff mmapEntries).found = true)
    (hlen : 31 < ((selectRegion kernel hhOff mmapEntries).len / pageBytes).toNat) :
    ¬BitmapExact cr3 kernel mmapEntries hhOff s := by
  intro hexact
  obtain ⟨s', hres, hbits⟩ := hexact hfound
  rw [pagingInitFrameAllocator_eq cr3 kernel mmapEntries hhOff s hfound] at hres
  generalize ((selectRegion kernel hhOff mmapEntries).len / pageBytes).toNat = n at hlen hres hbits
  simp only at hres
  by_cases h32 : n = 32
  · subst h32
    obtain ⟨pages, hexec, hbit⟩ := exec_markFree_32
    have hmin : min 32 maxPages = 32 := rfl
    rw [hmin, hexec, Option.map_some] at hres
    obtain rfl := (Prod.mk.inj (Option.some_inj.1 hres)).2
    have hlt := (hbits 32 (by decide)).1 hbit
    rw [hmin] at hlt
    exact absurd hlt (lt_irrefl 32)
  · have hgt : 32 < min n maxPages := lt_min (by omega) (by decide)
    rw [exec_markFree_gt hgt, Option.map_none] at hres
    exact Option.some_ne_none _ hres.symm

/-- **The bitmap is exact** for the memory maps in which no usable entry has,
on the side of the kernel that counts, more than 31 whole pages. -/
theorem bitmapExact_iff :
    BitmapExact cr3 kernel mmapEntries hhOff s ↔
      ∀ mmapEntry ∈ mmapEntries, usablePages kernel hhOff mmapEntry ≤ 31 := by
  by_cases hfound : (selectRegion kernel hhOff mmapEntries).found = true
  · rw [← regionPages_le_iff (by decide) hfound]
    constructor
    · intro hexact
      by_contra hlen
      exact not_bitmapExact cr3 kernel mmapEntries hhOff s hfound (Nat.lt_of_not_le hlen) hexact
    · intro hlen _
      rw [pagingInitFrameAllocator_eq cr3 kernel mmapEntries hhOff s hfound]
      have hmin : min ((selectRegion kernel hhOff mmapEntries).len / pageBytes).toNat maxPages =
          ((selectRegion kernel hhOff mmapEntries).len / pageBytes).toNat :=
        min_eq_left (hlen.trans (by decide))
      obtain ⟨pages, hexec, hbits⟩ := exec_markFree_le hlen
      simp only [hmin, hexec, Option.map_some]
      refine ⟨_, rfl, ?_⟩
      intro i _
      rw [hbits, decide_eq_true_eq]
  · -- no region is chosen: the bitmap is trivially exact, and no entry has a page to offer
    constructor
    · intro _ mmapEntry hmem
      cases usableRange_cases kernel hhOff mmapEntry with
      | inl hnone => exact hnone.2.trans (by decide)
      | inr hsome =>
        obtain ⟨a, b, _, _, heq, _⟩ := hsome
        refine absurd ?_ hfound
        rw [selectRegion_eq]
        cases hmax : (usableRanges kernel hhOff mmapEntries).argmax rangeLength with
        | none =>
          have hnil := List.argmax_eq_none.1 hmax
          have hrange : (pageWord a, pageWord b) ∈ usableRanges kernel hhOff mmapEntries :=
            List.mem_filterMap.2 ⟨mmapEntry, hmem, heq⟩
          rw [hnil] at hrange
          exact absurd hrange List.not_mem_nil
        | some range => rfl
    · intro _ hfound'
      exact absurd hfound' hfound

end Exact

/-- One usable entry of 64 MiB at 16 MiB: the 32 pages of the region mark 64. -/
theorem bitmapExact_fails :
    ¬BitmapExact 0 ⟨0xFFFFFFFF80000000#64, 0xFFFFFFFF80200000#64⟩
      [⟨0x1000000#64, 0x4000000#64, limineMemmapUsable⟩] 0xFFFF800000000000#64
      ⟨0, fun _ => 0, 0, 0, 0, 0, fun _ => 0, []⟩ :=
  not_bitmapExact _ _ _ _ _ (by decide) (by decide)

end Ssos
