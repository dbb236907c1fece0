import Ssos.Foundations.FirstMaximum
import Ssos.Mem.FrameInit

/-!
# The region of the frame allocator

Which region `paging_init_frame_allocator` records. The rounding of the kernel
image goes inwards, so the pages in which it starts and ends count as free; and
a region of a single page is passed over.

## Main results

- `initFrameAllocator_cases` — the result for any value of an undefined shift
- `regionFree_iff` — exactly when the region recorded is free memory
- `findsBest_iff` — exactly when the largest region is found
-/

namespace Ssos

open FirstMaximum

/-! ### The result -/

/-- `1 << n` with the value that `undefinedShift` gives where C gives none. -/
def intBitOr (undefinedShift : ℕ → Word) (n : ℕ) : Word := (intBit n).getD (undefinedShift n)

def markFreeOr (undefinedShift : ℕ → Word) (pages : ℕ → Word) (pageIdx : ℕ) : ℕ → Word :=
  Function.update pages (pageIdx / bucketSize)
    (pages (pageIdx / bucketSize) ||| intBitOr undefinedShift (pageIdx % bucketSize))

/-- `paging_init_frame_allocator` where an undefined shift has some value. -/
def initFrameAllocatorOr (undefinedShift : ℕ → Word) (cr3 : Word) (kernel : KernelImage)
    (mmapEntries : List LimineMemmapEntry) (hhOff : Word) (s : Paging) : ℤ × Paging :=
  let s := { s with kernelPml4 := cr3 + hhOff, hhdmStart := hhOff }
  let best := selectRegion kernel hhOff mmapEntries
  if !best.found then (-1, s)
  else
    let pageCount := (best.len / pageBytes).toNat
    let presentPageCount := if pageCount > maxPages then maxPages else pageCount
    (0, { s with
      pages := (List.range presentPageCount).foldl (markFreeOr undefinedShift) s.pages
      physPageBase := best.base
      presentPageCount })

section Shift
variable (undefinedShift : ℕ → Word)

theorem exec_markFree {pages pages' : ℕ → Word} {pageIdxs : List ℕ}
    (h : PartialRun.exec markFree pages pageIdxs = some pages') :
    pageIdxs.foldl (markFreeOr undefinedShift) pages = pages' := by
  induction pageIdxs generalizing pages with
  | nil => exact Option.some_inj.1 h
  | cons pageIdx pageIdxs ih =>
    cases hbit : intBit (pageIdx % bucketSize) with
    | none =>
      have hstuck : markFree pages pageIdx = none := by rw [markFree, hbit, Option.map_none]
      rw [PartialRun.exec, hstuck] at h
      exact absurd h (Option.some_ne_none pages').symm
    | some bit =>
      have hstep : markFree pages pageIdx = some (markFreeOr undefinedShift pages pageIdx) := by
        rw [markFree, hbit, Option.map_some, markFreeOr, intBitOr, hbit, Option.getD_some]
      rw [PartialRun.exec_cons hstep] at h
      exact ih h

/-- A result without an undefined shift is the result. -/
theorem initFrameAllocatorOr_of_some {cr3 : Word} {kernel : KernelImage}
    {mmapEntries : List LimineMemmapEntry} {hhOff : Word} {s : Paging} {res : ℤ × Paging}
    (h : pagingInitFrameAllocator cr3 kernel mmapEntries hhOff s = some res) :
    initFrameAllocatorOr undefinedShift cr3 kernel mmapEntries hhOff s = res := by
  rw [pagingInitFrameAllocator] at h
  rw [initFrameAllocatorOr]
  simp only at h ⊢
  by_cases hfound : (!(selectRegion kernel hhOff mmapEntries).found) = true
  · rw [if_pos hfound] at h ⊢
    exact Option.some_inj.1 h
  · rw [if_neg hfound] at h ⊢
    generalize (if ((selectRegion kernel hhOff mmapEntries).len / pageBytes).toNat > maxPages then
      maxPages else ((selectRegion kernel hhOff mmapEntries).len / pageBytes).toNat) = n at h ⊢
    cases hexec : PartialRun.exec markFree s.pages (List.range n) with
    | none =>
      rw [hexec] at h
      exact absurd h (Option.some_ne_none res).symm
    | some pages =>
      rw [hexec] at h
      rw [exec_markFree undefinedShift hexec]
      exact Option.some_inj.1 h

end Shift

/-! ### Extents -/

/-- The number of the first whole page of an entry. -/
def LimineMemmapEntry.firstPage (e : LimineMemmapEntry) : ℕ := (e.base.toNat + 0x1FFFFF) / 0x200000

/-- The number of the page in which it ends. -/
def LimineMemmapEntry.endPage (e : LimineMemmapEntry) : ℕ :=
  (e.base.toNat + e.length.toNat) / 0x200000

/-- The whole pages of a usable entry. -/
def LimineMemmapEntry.wholePages (e : LimineMemmapEntry) : ℕ :=
  if e.type = limineMemmapUsable then e.endPage - e.firstPage else 0

/-- The byte at `a` belongs to the entry. -/
def LimineMemmapEntry.Covers (e : LimineMemmapEntry) (a : ℕ) : Prop :=
  e.base.toNat ≤ a ∧ a < e.base.toNat + e.length.toNat

namespace KernelImage
variable (kernel : KernelImage) (hhdmStart : Word)

/-- Where the kernel starts in physical memory. -/
def physStart : ℕ := (kernel.virtKernelStart - hhdmStart).toNat

def physEnd : ℕ := (kernel.virtKernelEnd - hhdmStart).toNat

/-- The byte at `a` belongs to the kernel. -/
def Covers (a : ℕ) : Prop := kernel.physStart hhdmStart ≤ a ∧ a < kernel.physEnd hhdmStart

/-- The page behind the one in which the kernel starts, unless it starts with a page. -/
def firstPage : ℕ := (kernel.physStart hhdmStart + 0x1FFFFF) / 0x200000

def endPage : ℕ := kernel.physEnd hhdmStart / 0x200000

/-- The code takes the entry and the kernel to overlap. -/
def Splits (e : LimineMemmapEntry) : Prop :=
  e.firstPage < kernel.endPage hhdmStart ∧ kernel.firstPage hhdmStart < e.endPage

instance (e : LimineMemmapEntry) : Decidable (kernel.Splits hhdmStart e) :=
  inferInstanceAs (Decidable (_ ∧ _))

end KernelImage

/-- Neither the ends of the entries nor the rounding wraps around. -/
structure MapFits (kernel : KernelImage) (hhdmStart : Word)
    (mmapEntries : List LimineMemmapEntry) : Prop where
  entry_end : ∀ e ∈ mmapEntries, e.base.toNat + e.length.toNat < 2 ^ 64
  entry_round : ∀ e ∈ mmapEntries, e.base.toNat + 0x1FFFFF < 2 ^ 64
  kernel_round : kernel.physStart hhdmStart + 0x1FFFFF < 2 ^ 64

/-- The pages of an entry that the loop considers. -/
def keptPages (kernel : KernelImage) (hhdmStart : Word) (e : LimineMemmapEntry) : ℕ × ℕ :=
  cutPages e.firstPage e.endPage (kernel.firstPage hhdmStart) (kernel.endPage hhdmStart)

section Extents
variable {kernel : KernelImage} {hhdmStart : Word} {mmapEntries : List LimineMemmapEntry}
  {e : LimineMemmapEntry}

theorem MapFits.consideredPages_eq (h : MapFits kernel hhdmStart mmapEntries)
    (he : e ∈ mmapEntries) :
    consideredPages kernel hhdmStart e = keptPages kernel hhdmStart e := by
  have hend := h.entry_end e he
  have hround := h.entry_round e he
  have hkernel : (kernel.virtKernelStart - hhdmStart).toNat + (0x1FFFFF#64).toNat < 2 ^ 64 :=
    h.kernel_round
  have hadd : ∀ {a b : Word}, a.toNat + b.toNat < 2 ^ 64 → (a + b).toNat = a.toNat + b.toNat := by
    intro a b hlt
    rw [BitVec.toNat_add, Nat.mod_eq_of_lt hlt]
  rw [consideredPages, keptPages, hadd hend, hadd hround, hadd hkernel]
  rfl

theorem keptPages_of_not_splits (h : ¬kernel.Splits hhdmStart e) :
    keptPages kernel hhdmStart e = (e.firstPage, e.endPage) := if_neg h

/-- The kernel takes pages away from an entry that it splits. -/
theorem keptPages_sub_lt (hpos : e.firstPage < e.endPage) (h : kernel.Splits hhdmStart e) :
    (keptPages kernel hhdmStart e).2 - (keptPages kernel hhdmStart e).1 <
      e.endPage - e.firstPage := by
  obtain ⟨hlow, hhigh⟩ := h
  rw [keptPages, cutPages_sub, if_pos ⟨hlow, hhigh⟩]
  omega

/-- What is kept lies in the entry. -/
theorem keptPages_inside (kernel : KernelImage) (hhdmStart : Word) (e : LimineMemmapEntry) :
    e.firstPage ≤ (keptPages kernel hhdmStart e).1 ∧
      (keptPages kernel hhdmStart e).2 ≤ e.endPage := by
  rw [keptPages, cutPages]
  split_ifs <;> omega

/-- The bytes of the first pages of what is kept are bytes of the entry. -/
theorem keptPages_bytes {count : ℕ}
    (hlong : (keptPages kernel hhdmStart e).1 < (keptPages kernel hhdmStart e).2)
    (hcount : count ≤ (keptPages kernel hhdmStart e).2 - (keptPages kernel hhdmStart e).1) :
    e.base.toNat ≤ (keptPages kernel hhdmStart e).1 * 0x200000 ∧
      (keptPages kernel hhdmStart e).1 * 0x200000 + count * 0x200000 ≤
        e.base.toNat + e.length.toNat := by
  obtain ⟨hfirst, hend⟩ := keptPages_inside kernel hhdmStart e
  rw [LimineMemmapEntry.firstPage] at hfirst
  rw [LimineMemmapEntry.endPage] at hend
  generalize keptPages kernel hhdmStart e = kept at *
  omega

end Extents

/-! ### The choice -/

section Choice
variable (undefinedShift : ℕ → Word) (cr3 : Word) (kernel : KernelImage)
  (mmapEntries : List LimineMemmapEntry) (hhOff : Word) (s : Paging)

/-- The longest region comes from the entry with the most pages left. -/
theorem argmax_usableRanges :
    (usableRanges kernel hhOff mmapEntries).argmax rangeLength =
      (mmapEntries.argmax (usablePages kernel hhOff)).bind (usableRange kernel hhOff) := by
  refine argmax_filterMap ?_ ?_ mmapEntries
  · intro x y u v hx hy
    rw [(rangeLength_eq hx).1, (rangeLength_eq hy).1]
    exact Nat.mul_lt_mul_right (by decide)
  · intro x y v hx hy
    obtain hskipped | ⟨a, b, _, _, hrange, _⟩ := usableRange_cases kernel hhOff x
    · obtain hnone | ⟨a, b, hab, _, _, hcount⟩ := usableRange_cases kernel hhOff y
      · exact absurd (hnone.1.symm.trans hy) (Option.some_ne_none v).symm
      · omega
    · exact absurd (hx.symm.trans hrange) (Option.some_ne_none _).symm

/-- What is recorded when the region comes from the entry `e`. -/
structure RegionOf (e : LimineMemmapEntry) (res : ℤ × Paging) : Prop where
  first : IsFirstMax (usablePages kernel hhOff) mmapEntries e
  usable : e.type = limineMemmapUsable
  long : (keptPages kernel hhOff e).1 + 1 < (keptPages kernel hhOff e).2
  small : (keptPages kernel hhOff e).2 < 2 ^ 43
  selected : selectRegion kernel hhOff mmapEntries =
    ⟨pageWord (keptPages kernel hhOff e).1,
      pageWord ((keptPages kernel hhOff e).2 - (keptPages kernel hhOff e).1), true⟩
  ret : res.1 = 0
  base : res.2.physPageBase = pageWord (keptPages kernel hhOff e).1
  count : res.2.presentPageCount =
    min ((keptPages kernel hhOff e).2 - (keptPages kernel hhOff e).1) maxPages

variable {kernel mmapEntries hhOff}

theorem usablePages_eq_kept (hfits : MapFits kernel hhOff mmapEntries) {e : LimineMemmapEntry}
    (he : e ∈ mmapEntries) (htype : e.type = limineMemmapUsable) :
    usablePages kernel hhOff e = (keptPages kernel hhOff e).2 - (keptPages kernel hhOff e).1 := by
  rw [usablePages_eq htype, hfits.consideredPages_eq he]

/-- An entry with two pages or more left gives the range of what is kept of it. -/
theorem usableRange_kept (hfits : MapFits kernel hhOff mmapEntries) {e : LimineMemmapEntry}
    (he : e ∈ mmapEntries) :
    (usableRange kernel hhOff e = none ∧ usablePages kernel hhOff e ≤ 1) ∨
      (e.type = limineMemmapUsable ∧
        (keptPages kernel hhOff e).1 + 1 < (keptPages kernel hhOff e).2 ∧
        (keptPages kernel hhOff e).2 < 2 ^ 43 ∧
        usableRange kernel hhOff e = some (pageWord (keptPages kernel hhOff e).1,
          pageWord (keptPages kernel hhOff e).2)) := by
  obtain hskipped | ⟨a, b, hab, _, hrange, hcount⟩ := usableRange_cases kernel hhOff e
  · exact Or.inl hskipped
  · have husable : e.type = limineMemmapUsable := by
      by_contra htype
      rw [usablePages, if_pos htype] at hcount
      omega
    have hkept : usableRange kernel hhOff e = _ := usableRange_eq husable
    have hlt := consideredPages_lt kernel hhOff e
    rw [hfits.consideredPages_eq he] at hkept hlt
    have hlong : ¬(keptPages kernel hhOff e).2 ≤ (keptPages kernel hhOff e).1 + 1 := by
      intro hsmall
      rw [if_pos hsmall, hrange] at hkept
      exact Option.some_ne_none _ hkept
    rw [if_neg hlong] at hkept
    exact Or.inr ⟨husable, Nat.lt_of_not_le hlong, hlt.2, hkept⟩

theorem initFrameAllocatorOr_of_not_found
    (hselect : selectRegion kernel hhOff mmapEntries = ⟨0, 0, false⟩) :
    (initFrameAllocatorOr undefinedShift cr3 kernel mmapEntries hhOff s).1 = -1 := by
  rw [initFrameAllocatorOr, hselect]
  rfl

/-- What is recorded of a region of `n` pages from page `a` on. -/
theorem initFrameAllocatorOr_of_found {a n : ℕ} (hn : n < 2 ^ 43)
    (hselect : selectRegion kernel hhOff mmapEntries = ⟨pageWord a, pageWord n, true⟩) :
    let res := initFrameAllocatorOr undefinedShift cr3 kernel mmapEntries hhOff s
    res.1 = 0 ∧ res.2.physPageBase = pageWord a ∧ res.2.presentPageCount = min n maxPages := by
  intro res
  have hres : res = initFrameAllocatorOr undefinedShift cr3 kernel mmapEntries hhOff s := rfl
  rw [initFrameAllocatorOr, hselect] at hres
  rw [hres, ← capped_eq_min]
  refine ⟨rfl, rfl, ?_⟩
  simp only [pageWord_div hn]
  rfl

/-- **The result.** Either no entry has two pages left, or the region comes
from the first entry with the most. -/
theorem initFrameAllocator_cases (hfits : MapFits kernel hhOff mmapEntries) :
    let res := initFrameAllocatorOr undefinedShift cr3 kernel mmapEntries hhOff s
    (res.1 = -1 ∧ ∀ e ∈ mmapEntries, usablePages kernel hhOff e ≤ 1) ∨
      ∃ e, RegionOf kernel mmapEntries hhOff e res := by
  have hselect := selectRegion_eq kernel hhOff mmapEntries
  rw [argmax_usableRanges] at hselect
  cases hmax : mmapEntries.argmax (usablePages kernel hhOff) with
  | none =>
    rw [hmax] at hselect
    refine Or.inl ⟨initFrameAllocatorOr_of_not_found undefinedShift cr3 s hselect, ?_⟩
    rw [List.argmax_eq_none.1 hmax]
    exact fun e he => absurd he List.not_mem_nil
  | some e =>
    have hfirst := isFirstMax_iff.2 hmax
    rw [hmax, Option.bind_some] at hselect
    obtain ⟨hnone, hle⟩ | ⟨husable, hlong, hsmall, hrange⟩ := usableRange_kept hfits hfirst.mem
    · rw [hnone] at hselect
      exact Or.inl ⟨initFrameAllocatorOr_of_not_found undefinedShift cr3 s hselect,
        fun other hother => (hfirst.le hother).trans hle⟩
    · rw [hrange] at hselect
      simp only at hselect
      rw [pageWord_sub hsmall (by omega)] at hselect
      obtain ⟨hret, hbase, hcount⟩ :=
        initFrameAllocatorOr_of_found undefinedShift cr3 s (by omega) hselect
      exact Or.inr ⟨e, hfirst, husable, hlong, hsmall, hselect, hret, hbase, hcount⟩

end Choice

/-! ### The region is free memory -/

/-- Where the call returns 0, the region recorded consists of whole pages, lies
in one usable entry and shares no byte with the kernel. -/
def RegionFree (undefinedShift : ℕ → Word) (cr3 : Word) (kernel : KernelImage)
    (mmapEntries : List LimineMemmapEntry) (hhOff : Word) (s : Paging) : Prop :=
  let res := initFrameAllocatorOr undefinedShift cr3 kernel mmapEntries hhOff s
  let regionStart := res.2.physPageBase.toNat
  let regionEnd := regionStart + res.2.presentPageCount * 0x200000
  res.1 = 0 →
    regionStart % 0x200000 = 0 ∧
      (∃ e ∈ mmapEntries, e.type = limineMemmapUsable ∧ e.base.toNat ≤ regionStart ∧
        regionEnd ≤ e.base.toNat + e.length.toNat) ∧
      ∀ a, regionStart ≤ a → a < regionEnd → ¬kernel.Covers hhOff a

/-- The pages kept of the entry, as many of them as are managed, are clear of
the kernel: where the kernel splits the entry, its edge next to them has to be
the edge of a page, or out of reach. -/
def KernelClear (kernel : KernelImage) (hhOff : Word) (e : LimineMemmapEntry) : Prop :=
  kernel.physEnd hhOff ≤ kernel.physStart hhOff ∨
    if kernel.Splits hhOff e then
      if e.endPage - kernel.endPage hhOff ≤ kernel.firstPage hhOff - e.firstPage then
        kernel.physStart hhOff % 0x200000 = 0 ∨ maxPages < kernel.firstPage hhOff - e.firstPage
      else kernel.physEnd hhOff % 0x200000 = 0
    else kernel.physEnd hhOff ≤ e.firstPage * 0x200000 ∨
      min e.endPage (e.firstPage + maxPages) * 0x200000 ≤ kernel.physStart hhOff

section Free
variable {kernel : KernelImage} {hhOff : Word} {e : LimineMemmapEntry}

/-- Two ranges, the first of them not empty, share no byte. -/
theorem ranges_apart_iff {x y k l : ℕ} (hxy : x < y) :
    (∀ a, x ≤ a → a < y → ¬(k ≤ a ∧ a < l)) ↔ l ≤ k ∨ l ≤ x ∨ y ≤ k := by
  constructor
  · intro hall
    by_contra hmeet
    -- the later of the two starts lies in both
    exact hall (max x k) (le_max_left x k) (by omega) (by omega)
  · intro hapart a hxa hay hkl
    omega

/-- The pages in front of the kernel reach into it when it starts within a page
and that page is managed. -/
theorem clear_before_iff {first kernelFirst physStart physEnd : ℕ}
    (hkernel : kernelFirst = (physStart + 0x1FFFFF) / 0x200000) (hmeet : first < physEnd / 0x200000)
    (hlong : first + 1 < kernelFirst) :
    (physEnd ≤ first * 0x200000 ∨
        first * 0x200000 + min (kernelFirst - first) 2560 * 0x200000 ≤ physStart) ↔
      physStart % 0x200000 = 0 ∨ 2560 < kernelFirst - first := by
  by_cases hcap : kernelFirst - first ≤ 2560
  · rw [min_eq_left hcap]
    omega
  · rw [min_eq_right (by omega)]
    omega

/-- The pages behind it reach into it when it ends within a page. -/
theorem clear_after_iff {kernelLast last physStart physEnd : ℕ}
    (hkernel : kernelLast = physEnd / 0x200000) (hlong : kernelLast + 1 < last)
    (hpos : physStart < physEnd) :
    (physEnd ≤ kernelLast * 0x200000 ∨
        kernelLast * 0x200000 + min (last - kernelLast) 2560 * 0x200000 ≤ physStart) ↔
      physEnd % 0x200000 = 0 := by
  by_cases hcap : last - kernelLast ≤ 2560
  · rw [min_eq_left hcap]
    omega
  · rw [min_eq_right (by omega)]
    omega

theorem clear_whole_iff {first last physStart physEnd : ℕ} (hlong : first + 1 < last) :
    (physEnd ≤ first * 0x200000 ∨
        first * 0x200000 + min (last - first) 2560 * 0x200000 ≤ physStart) ↔
      physEnd ≤ first * 0x200000 ∨ min last (first + 2560) * 0x200000 ≤ physStart := by
  by_cases hcap : last - first ≤ 2560
  · rw [min_eq_left hcap, min_eq_left (by omega)]
    omega
  · rw [min_eq_right (by omega), min_eq_right (by omega)]
    omega

/-- The managed pages of what is kept are apart from the kernel. -/
theorem kernelClear_iff
    (hlong : (keptPages kernel hhOff e).1 + 1 < (keptPages kernel hhOff e).2) :
    (∀ a, (keptPages kernel hhOff e).1 * 0x200000 ≤ a →
        a < (keptPages kernel hhOff e).1 * 0x200000 +
          min ((keptPages kernel hhOff e).2 - (keptPages kernel hhOff e).1) 2560 * 0x200000 →
        ¬kernel.Covers hhOff a) ↔ KernelClear kernel hhOff e := by
  have hsome : 0 < min ((keptPages kernel hhOff e).2 - (keptPages kernel hhOff e).1) 2560 :=
    lt_min (by omega) (by decide)
  refine (ranges_apart_iff (by omega)).trans (or_congr_right' fun hkernel => ?_)
  by_cases hsplit : kernel.Splits hhOff e
  · rw [if_pos hsplit]
    by_cases hbefore : e.endPage - kernel.endPage hhOff ≤ kernel.firstPage hhOff - e.firstPage
    · have hkept : keptPages kernel hhOff e = (e.firstPage, kernel.firstPage hhOff) :=
        (if_pos hsplit).trans (if_pos hbefore)
      rw [hkept] at hlong ⊢
      rw [if_pos hbefore]
      exact clear_before_iff rfl hsplit.1 hlong
    · have hkept : keptPages kernel hhOff e = (kernel.endPage hhOff, e.endPage) :=
        (if_pos hsplit).trans (if_neg hbefore)
      rw [hkept] at hlong ⊢
      rw [if_neg hbefore]
      exact clear_after_iff rfl hlong (Nat.lt_of_not_le hkernel)
  · rw [keptPages_of_not_splits hsplit] at hlong ⊢
    rw [if_neg hsplit]
    exact clear_whole_iff hlong

end Free

section Main
variable (undefinedShift : ℕ → Word) (cr3 : Word) {kernel : KernelImage}
  {mmapEntries : List LimineMemmapEntry} {hhOff : Word} (s : Paging)

theorem RegionOf.regionStart {e : LimineMemmapEntry} {res : ℤ × Paging}
    (h : RegionOf kernel mmapEntries hhOff e res) :
    res.2.physPageBase.toNat = (keptPages kernel hhOff e).1 * 0x200000 := by
  have hsmall := h.small
  have hlong := h.long
  rw [h.base, toNat_pageWord (by omega)]

/-- **The region recorded is free memory** if and only if the pages kept of the
first entry that has the most are clear of the kernel. -/
theorem regionFree_iff (hfits : MapFits kernel hhOff mmapEntries) :
    RegionFree undefinedShift cr3 kernel mmapEntries hhOff s ↔
      ∀ e, IsFirstMax (usablePages kernel hhOff) mmapEntries e →
        2 ≤ usablePages kernel hhOff e → KernelClear kernel hhOff e := by
  obtain ⟨hret, hfew⟩ | ⟨e, hregion⟩ :=
    initFrameAllocator_cases undefinedShift cr3 s hfits
  · refine iff_of_true ?_ ?_
    · intro hzero
      rw [hret] at hzero
      exact absurd hzero (by decide)
    · intro e hfirst htwo
      exact absurd (hfew e hfirst.mem) (by omega)
  · have hlong := hregion.long
    rw [RegionFree]
    simp only [hregion.regionStart, hregion.count]
    constructor
    · intro hfree e' hfirst' _
      rw [hfirst'.unique hregion.first, ← kernelClear_iff hlong]
      exact (hfree hregion.ret).2.2
    · rintro hclear -
      have htwo : 2 ≤ usablePages kernel hhOff e := by
        rw [usablePages_eq_kept hfits hregion.first.mem hregion.usable]
        exact Nat.le_sub_of_add_le' hlong
      have hstart : (keptPages kernel hhOff e).1 < (keptPages kernel hhOff e).2 :=
        (Nat.lt_add_one _).trans hlong
      have hcap : min ((keptPages kernel hhOff e).2 - (keptPages kernel hhOff e).1) maxPages ≤
          (keptPages kernel hhOff e).2 - (keptPages kernel hhOff e).1 := min_le_left _ _
      obtain ⟨hbase, hend⟩ := keptPages_bytes hstart hcap
      exact ⟨Nat.mul_mod_left _ _, ⟨e, hregion.first.mem, hregion.usable, hbase, hend⟩,
        (kernelClear_iff hlong).2 (hclear e hregion.first htwo)⟩

end Main

/-- 64 MiB of usable memory from address 0 on. -/
def lowMemory : List LimineMemmapEntry := [⟨0x0#64, 0x4000000#64, limineMemmapUsable⟩]

/-- An allocator before its initialisation. -/
def blankPaging : Paging := ⟨0, fun _ => 0, 0, 0, 0, 0, fun _ => 0, []⟩

/-- A kernel of a single page at 16 MiB. -/
theorem regionFree_iff_onePage :
    RegionFree (fun _ => 0) 0 ⟨0xFFFF800001000000#64, 0xFFFF800001200000#64⟩ lowMemory
        0xFFFF800000000000#64 blankPaging ↔
      ∀ e, IsFirstMax (usablePages ⟨0xFFFF800001000000#64, 0xFFFF800001200000#64⟩
          0xFFFF800000000000#64) lowMemory e →
        2 ≤ usablePages ⟨0xFFFF800001000000#64, 0xFFFF800001200000#64⟩ 0xFFFF800000000000#64 e →
          KernelClear ⟨0xFFFF800001000000#64, 0xFFFF800001200000#64⟩ 0xFFFF800000000000#64 e :=
  regionFree_iff _ _ _ ⟨by decide, by decide, by decide⟩

/-- A kernel that ends within its page: the page is recorded as free. -/
theorem regionFree_fails :
    MapFits ⟨0xFFFF800001000000#64, 0xFFFF800001123000#64⟩ 0xFFFF800000000000#64 lowMemory ∧
      ¬RegionFree (fun _ => 0) 0 ⟨0xFFFF800001000000#64, 0xFFFF800001123000#64⟩ lowMemory
        0xFFFF800000000000#64 blankPaging := by
  refine ⟨⟨by decide, by decide, by decide⟩, fun hfree => ?_⟩
  obtain ⟨_, _, hclear⟩ := hfree (by decide)
  exact hclear 0x1000000 (by decide) (by decide) ⟨by decide, by decide⟩

/-! ### The largest region is found -/

/-- The call returns 0 if and only if some usable entry has a whole page, and
then the region is all of the first entry with the most, recorded up to the
greatest number of pages that can be managed. -/
def FindsBest (undefinedShift : ℕ → Word) (cr3 : Word) (kernel : KernelImage)
    (mmapEntries : List LimineMemmapEntry) (hhOff : Word) (s : Paging) : Prop :=
  let res := initFrameAllocatorOr undefinedShift cr3 kernel mmapEntries hhOff s
  (res.1 = 0 ↔ ∃ e ∈ mmapEntries, 1 ≤ e.wholePages) ∧
    (res.1 = 0 → ∃ e, IsFirstMax LimineMemmapEntry.wholePages mmapEntries e ∧
      e.type = limineMemmapUsable ∧
      selectRegion kernel hhOff mmapEntries =
        ⟨pageWord e.firstPage, pageWord (e.endPage - e.firstPage), true⟩ ∧
      res.2.physPageBase = pageWord e.firstPage ∧
      res.2.presentPageCount = min (e.endPage - e.firstPage) maxPages)

section Best
variable (undefinedShift : ℕ → Word) (cr3 : Word) {kernel : KernelImage}
  {mmapEntries : List LimineMemmapEntry} {hhOff : Word} (s : Paging) {e : LimineMemmapEntry}

/-- A kernel with at least one byte does not split an entry that it does not meet. -/
theorem not_splits_of_apart (hkernel : kernel.physStart hhOff < kernel.physEnd hhOff)
    (hlong : e.firstPage < e.endPage) (hapart : ∀ a, e.Covers a → ¬kernel.Covers hhOff a) :
    ¬kernel.Splits hhOff e := by
  rintro ⟨hlow, hhigh⟩
  have hlow' : (e.base.toNat + 0x1FFFFF) / 0x200000 < kernel.physEnd hhOff / 0x200000 := hlow
  have hhigh' : (kernel.physStart hhOff + 0x1FFFFF) / 0x200000 <
      (e.base.toNat + e.length.toNat) / 0x200000 := hhigh
  have hlong' : (e.base.toNat + 0x1FFFFF) / 0x200000 <
      (e.base.toNat + e.length.toNat) / 0x200000 := hlong
  clear hlow hhigh hlong
  -- the later of the two starts belongs to both
  exact hapart (max e.base.toNat (kernel.physStart hhOff))
    ⟨le_max_left _ _, max_lt (by omega) (by omega)⟩
    ⟨le_max_right _ _, max_lt (by omega) hkernel⟩

/-- The loop sees no more pages than there are. -/
theorem usablePages_le (hfits : MapFits kernel hhOff mmapEntries) (he : e ∈ mmapEntries) :
    usablePages kernel hhOff e ≤ e.wholePages := by
  by_cases htype : e.type = limineMemmapUsable
  · rw [usablePages_eq_kept hfits he htype, LimineMemmapEntry.wholePages, if_pos htype]
    obtain ⟨hfirst, hend⟩ := keptPages_inside kernel hhOff e
    exact tsub_le_tsub hend hfirst
  · rw [usablePages, if_pos htype]
    exact Nat.zero_le _

/-- It sees all of them if and only if the kernel does not split the entry. -/
theorem usablePages_eq_iff (hfits : MapFits kernel hhOff mmapEntries) (he : e ∈ mmapEntries)
    (hpos : 1 ≤ e.wholePages) :
    usablePages kernel hhOff e = e.wholePages ↔ ¬kernel.Splits hhOff e := by
  have htype : e.type = limineMemmapUsable := by
    by_contra htype
    rw [LimineMemmapEntry.wholePages, if_neg htype] at hpos
    exact absurd hpos (by decide)
  rw [LimineMemmapEntry.wholePages, if_pos htype] at hpos ⊢
  rw [usablePages_eq_kept hfits he htype]
  constructor
  · intro heq hsplit
    have hlt := keptPages_sub_lt (Nat.lt_of_sub_pos hpos) hsplit
    exact absurd heq hlt.ne
  · intro hsplit
    rw [keptPages_of_not_splits hsplit]

theorem wholePages_pos (hpos : 1 ≤ e.wholePages) :
    e.type = limineMemmapUsable ∧ e.firstPage < e.endPage ∧
      e.wholePages = e.endPage - e.firstPage := by
  rw [LimineMemmapEntry.wholePages] at hpos ⊢
  by_cases htype : e.type = limineMemmapUsable
  · rw [if_pos htype] at hpos ⊢
    exact ⟨htype, Nat.lt_of_sub_pos hpos, rfl⟩
  · rw [if_neg htype] at hpos
    exact absurd hpos (by decide)

/-- The largest entry is chosen when it has two pages and is not split. -/
theorem findsBest_of_largest (hfits : MapFits kernel hhOff mmapEntries)
    (hlargest : IsFirstMax LimineMemmapEntry.wholePages mmapEntries e) (htwo : 2 ≤ e.wholePages)
    (hsplit : ¬kernel.Splits hhOff e) :
    FindsBest undefinedShift cr3 kernel mmapEntries hhOff s := by
  have hpos : 1 ≤ e.wholePages := Nat.le_of_lt htwo
  obtain ⟨husable, hlong, hpages⟩ := wholePages_pos hpos
  have heq := (usablePages_eq_iff hfits hlargest.mem hpos).2 hsplit
  have hfirst : IsFirstMax (usablePages kernel hhOff) mmapEntries e :=
    hlargest.of_le (fun y hy => usablePages_le hfits hy) heq
  obtain ⟨_, hfew⟩ | ⟨e', hregion⟩ := initFrameAllocator_cases undefinedShift cr3 s hfits
  · have hone := hfew e hlargest.mem
    rw [heq] at hone
    exact absurd (htwo.trans hone) (by decide)
  · obtain rfl := hregion.first.unique hfirst
    have hselected := hregion.selected
    have hbase := hregion.base
    have hcount := hregion.count
    rw [keptPages_of_not_splits hsplit] at hselected hbase hcount
    exact ⟨iff_of_true hregion.ret ⟨e', hlargest.mem, hpos⟩,
      fun _ => ⟨e', hlargest, husable, hselected, hbase, hcount⟩⟩

/-- The first entry with the most pages can only be found when it has two, and
is not split. -/
theorem FindsBest.largest (hfits : MapFits kernel hhOff mmapEntries)
    (hbest : FindsBest undefinedShift cr3 kernel mmapEntries hhOff s)
    (hlargest : IsFirstMax LimineMemmapEntry.wholePages mmapEntries e) (hpos : 1 ≤ e.wholePages) :
    2 ≤ e.wholePages ∧ ¬kernel.Splits hhOff e := by
  obtain ⟨hfound, hchosen⟩ := hbest
  have hret := hfound.2 ⟨e, hlargest.mem, hpos⟩
  obtain ⟨e₁, hlargest₁, _, hselected₁, _⟩ := hchosen hret
  obtain rfl := hlargest₁.unique hlargest
  obtain ⟨hnone, _⟩ | ⟨e', hregion⟩ := initFrameAllocator_cases undefinedShift cr3 s hfits
  · exact absurd (hnone.symm.trans hret) (by decide)
  · have hmem := hregion.first.mem
    have hkept := usablePages_eq_kept hfits hmem hregion.usable
    have hlong := hregion.long
    obtain ⟨husable, _, hpages⟩ := wholePages_pos hpos
    have hsmall := hregion.small
    have hend : e₁.endPage < 2 ^ 43 := by
      have hlt := hfits.entry_end e₁ hlargest.mem
      rw [LimineMemmapEntry.endPage]
      omega
    -- the region chosen comes from an entry with the same first page and as many pages
    have hsame := BestRegion.mk.inj (hregion.selected.symm.trans hselected₁)
    have hstart := congrArg BitVec.toNat hsame.1
    have hlen := congrArg BitVec.toNat hsame.2.1
    rw [toNat_pageWord (by omega), toNat_pageWord (by omega)] at hstart hlen
    have hcount : usablePages kernel hhOff e' = e₁.wholePages := by omega
    refine ⟨by omega, fun hsplit => ?_⟩
    have hle := usablePages_le hfits hmem
    have hwhole : usablePages kernel hhOff e' = e'.wholePages :=
      le_antisymm hle (hcount ▸ hlargest.le hmem)
    have hpos' : 1 ≤ e'.wholePages := by omega
    have hsplit' := (usablePages_eq_iff hfits hmem hpos').1 hwhole
    rw [keptPages_of_not_splits hsplit'] at hstart hlen
    refine hsplit' ?_
    have hfirst : e'.firstPage = e₁.firstPage := by omega
    have hlast : e'.endPage = e₁.endPage := by omega
    rw [KernelImage.Splits, hfirst, hlast]
    exact hsplit

/-- Without a whole page none is found. -/
theorem findsBest_of_none (hfits : MapFits kernel hhOff mmapEntries)
    (hnone : ∀ e ∈ mmapEntries, e.wholePages = 0) :
    FindsBest undefinedShift cr3 kernel mmapEntries hhOff s := by
  obtain ⟨hret, _⟩ | ⟨e, hregion⟩ := initFrameAllocator_cases undefinedShift cr3 s hfits
  · have hfailed : (initFrameAllocatorOr undefinedShift cr3 kernel mmapEntries hhOff s).1 ≠ 0 := by
      rw [hret]
      decide
    refine ⟨iff_of_false hfailed ?_, fun hzero => absurd hzero hfailed⟩
    rintro ⟨e, he, hpos⟩
    rw [hnone e he] at hpos
    exact absurd hpos (by decide)
  · have hlong := hregion.long
    have hle := usablePages_le hfits hregion.first.mem
    rw [usablePages_eq_kept hfits hregion.first.mem hregion.usable,
      hnone e hregion.first.mem] at hle
    omega

/-- **The largest region is found** if and only if it has more than one page
(and, should the kernel have no byte at all, is not split by it). -/
theorem findsBest_iff (hfits : MapFits kernel hhOff mmapEntries)
    (hapart : ∀ e ∈ mmapEntries, e.type = limineMemmapUsable →
      ∀ a, e.Covers a → ¬kernel.Covers hhOff a) :
    FindsBest undefinedShift cr3 kernel mmapEntries hhOff s ↔
      ∀ e, IsFirstMax LimineMemmapEntry.wholePages mmapEntries e → 1 ≤ e.wholePages →
        2 ≤ e.wholePages ∧
          (kernel.physEnd hhOff ≤ kernel.physStart hhOff → ¬kernel.Splits hhOff e) := by
  constructor
  · intro hbest e hlargest hpos
    obtain ⟨htwo, hsplit⟩ := hbest.largest undefinedShift cr3 s hfits hlargest hpos
    exact ⟨htwo, fun _ => hsplit⟩
  · intro hcond
    by_cases hsome : ∃ e ∈ mmapEntries, 1 ≤ e.wholePages
    · obtain ⟨e₀, he₀, hpos₀⟩ := hsome
      obtain ⟨e, hlargest⟩ := exists_isFirstMax (f := LimineMemmapEntry.wholePages) he₀
      have hpos : 1 ≤ e.wholePages := hpos₀.trans (hlargest.le he₀)
      obtain ⟨husable, hlong, _⟩ := wholePages_pos hpos
      obtain ⟨htwo, hempty⟩ := hcond e hlargest hpos
      refine findsBest_of_largest undefinedShift cr3 s hfits hlargest htwo ?_
      obtain hkernel | hkernel := le_or_gt (kernel.physEnd hhOff) (kernel.physStart hhOff)
      · exact hempty hkernel
      · exact not_splits_of_apart hkernel hlong (hapart e hlargest.mem husable)
    · refine findsBest_of_none undefinedShift cr3 s hfits fun e he => ?_
      by_contra hne
      exact hsome ⟨e, he, Nat.one_le_iff_ne_zero.2 hne⟩

end Best

/-- The kernel image of 2 MiB at 64 MiB, behind `lowMemory`. -/
theorem findsBest_iff_lowMemory :
    FindsBest (fun _ => 0) 0 ⟨0xFFFF800004000000#64, 0xFFFF800004200000#64⟩ lowMemory
        0xFFFF800000000000#64 blankPaging ↔
      ∀ e, IsFirstMax LimineMemmapEntry.wholePages lowMemory e → 1 ≤ e.wholePages →
        2 ≤ e.wholePages ∧
          (KernelImage.physEnd ⟨0xFFFF800004000000#64, 0xFFFF800004200000#64⟩
              0xFFFF800000000000#64 ≤
            KernelImage.physStart ⟨0xFFFF800004000000#64, 0xFFFF800004200000#64⟩
              0xFFFF800000000000#64 →
            ¬KernelImage.Splits ⟨0xFFFF800004000000#64, 0xFFFF800004200000#64⟩
              0xFFFF800000000000#64 e) := by
  refine findsBest_iff _ _ _ ⟨by decide, by decide, by decide⟩ ?_
  intro e he _ a ha hkernel
  obtain rfl := List.mem_singleton.1 he
  have hend : a < 0x4000000 := ha.2
  have hstart : 0x4000000 ≤ a := hkernel.1
  omega

/-- A usable entry of exactly one whole page. -/
theorem findsBest_fails :
    MapFits ⟨0xFFFF800004000000#64, 0xFFFF800004200000#64⟩ 0xFFFF800000000000#64
        [⟨0x1000000#64, 0x200000#64, limineMemmapUsable⟩] ∧
      ¬FindsBest (fun _ => 0) 0 ⟨0xFFFF800004000000#64, 0xFFFF800004200000#64⟩
        [⟨0x1000000#64, 0x200000#64, limineMemmapUsable⟩] 0xFFFF800000000000#64 blankPaging := by
  refine ⟨⟨by decide, by decide, by decide⟩, fun hbest => ?_⟩
  have hret := hbest.1.2 ⟨_, List.mem_singleton_self _, by decide⟩
  exact absurd hret (by decide)

end Ssos
