import Mathlib.Order.Interval.Finset.Nat
import Ssos.Mem.Paging
import Ssos.Foundations.PartialRuns

/-!
# Which pages the frame allocator hands out

The scan remembers the last used page, not the page behind it, and skips empty
buckets without starting over. So the pages that `paging_alloc_pages` hands
out are the free pages it counted only when these are the very first pages.

## Main results

- `scanBuckets_eq` — the two loops are one scan over the pages of the non-empty buckets
- `framesFree_iff` — exactly when the pages handed out were free
-/

namespace Ssos

open ByteMemory RunScan PartialRun

/-! ### Bits of the bitmap -/

/-- Bit `i` of the bitmap: page `i` is free. -/
def pageBit (pages : ℕ → Word) (i : ℕ) : Bool := (pages (i / bucketSize)).getLsbD (i % bucketSize)

/-- Address of page `i`. -/
def pageAddr (s : Paging) (i : ℕ) : Word := s.physPageBase + BitVec.ofNat 64 i * pageBytes

/-- Index of the page at a virtual address. -/
def pageIndex (s : Paging) (addr : Word) : ℕ :=
  ((addr - s.hhdmStart - s.physPageBase) / pageBytes).toNat

theorem bucketSize_eq : bucketSize = 64 := rfl

theorem getLsbD_bit (i j : ℕ) (hj : j < 64) : (1#64 <<< i).getLsbD j = decide (j = i) := by
  rw [BitVec.getLsbD_shiftLeft, BitVec.getLsbD_one]
  by_cases h : j = i
  · subst h
    simp [hj]
  · simp only [h, decide_false]
    by_cases hlt : j < i
    · simp [hlt]
    · have hne : j - i ≠ 0 := by omega
      simp [hne]

theorem pageBit_clearPage (pages : ℕ → Word) (i j : ℕ) :
    pageBit (clearPage pages i) j = (pageBit pages j && decide (j ≠ i)) := by
  rw [pageBit, pageBit, clearPage, bucketSize_eq]
  by_cases hb : j / 64 = i / 64
  · rw [hb, Function.update_self, BitVec.getLsbD_and, BitVec.getLsbD_not,
      getLsbD_bit _ _ (Nat.mod_lt _ (by omega)), decide_eq_true (Nat.mod_lt j (by omega)),
      Bool.true_and, ← decide_not]
    congr 2
    exact propext (by omega)
  · rw [Function.update_of_ne hb]
    have hne : j ≠ i := fun h => hb (h ▸ rfl)
    simp [hne]

theorem pageBit_setPage (pages : ℕ → Word) (i j : ℕ) :
    pageBit (setPage pages i) j = (pageBit pages j || decide (j = i)) := by
  rw [pageBit, pageBit, setPage, bucketSize_eq]
  by_cases hb : j / 64 = i / 64
  · rw [hb, Function.update_self, BitVec.getLsbD_or, getLsbD_bit _ _ (Nat.mod_lt _ (by omega))]
    congr 2
    exact propext (by omega)
  · rw [Function.update_of_ne hb]
    have hne : j ≠ i := fun h => hb (h ▸ rfl)
    simp [hne]

theorem bit_test (w : Word) {i : ℕ} (hi : i < 64) :
    decide (w &&& (1#64 <<< i) ≠ 0) = w.getLsbD i := by
  cases hw : w.getLsbD i with
  | true =>
    refine decide_eq_true fun hz => ?_
    have hbit := congrArg (fun v => BitVec.getLsbD v i) hz
    simp [BitVec.getLsbD_and, hw, getLsbD_bit i i hi] at hbit
  | false =>
    refine decide_eq_false (not_not.2 ?_)
    refine BitVec.eq_of_getLsbD_eq fun j hj => ?_
    rw [BitVec.getLsbD_and, getLsbD_bit i j hj]
    by_cases h : j = i
    · subst h
      simp [hw]
    · simp [h]

theorem pageIndex_add (base : Word) {k : ℕ} (hk : k < 2 ^ 43) :
    ((base + BitVec.ofNat 64 k * pageBytes - base) / pageBytes).toNat = k := by
  have hcancel : base + BitVec.ofNat 64 k * pageBytes - base = BitVec.ofNat 64 k * pageBytes := by
    rw [BitVec.add_comm, BitVec.add_sub_cancel]
  have hsize : pageBytes.toNat = 2 ^ 21 := by decide
  rw [hcancel, BitVec.toNat_udiv, BitVec.toNat_mul, BitVec.toNat_ofNat, hsize,
    Nat.mod_eq_of_lt (show k < 2 ^ 64 by omega), Nat.mod_eq_of_lt (by omega),
    Nat.mul_div_cancel _ (by decide)]

theorem pageIndex_pageAddr (s : Paging) {k : ℕ} (hk : k < 2 ^ 43) :
    pageIndex s (pageAddr s k + s.hhdmStart) = k := by
  rw [pageIndex, BitVec.add_sub_cancel]
  exact pageIndex_add s.physPageBase hk

theorem pageAddr_add (s : Paging) (i j : ℕ) :
    pageAddr s i + BitVec.ofNat 64 j * pageBytes = pageAddr s (i + j) := by
  rw [pageAddr, pageAddr, BitVec.add_assoc, ← BitVec.add_mul, ← BitVec.ofNat_add]

theorem pageAddr_succ (s : Paging) (i : ℕ) : pageAddr s i + pageBytes = pageAddr s (i + 1) := by
  rw [← pageAddr_add s i 1, BitVec.one_mul]

/-! ### The scan -/

/-- The pages of the non-empty buckets among those listed. -/
def pagesOf (pages : ℕ → Word) (buckets : List ℕ) : List ℕ :=
  (buckets.filter fun b => pages b ≠ 0).flatMap fun b =>
    (List.range bucketSize).map (bucketSize * b + ·)

/-- The pages that the scan looks at: those of the non-empty buckets. -/
def visitedPages (pages : ℕ → Word) : List ℕ := pagesOf pages (List.range totalBucketCount)

theorem scanBucket_eq (s : Paging) (pages : ℕ → Word) (count b : ℕ) (p : Progress Word) :
    scanBucket (pages b) (pageAddr s (bucketSize * b)) count p =
      scan (pageBit pages) (pageAddr s) count
        ((List.range bucketSize).map (bucketSize * b + ·)) p := by
  rw [scan_map, scanBucket]
  refine scan_congr fun i hi => ?_
  have hi64 : i < 64 := List.mem_range.1 hi
  constructor
  · rw [bit_test _ hi64, Function.comp_apply, pageBit, bucketSize_eq]
    congr 1
    · congr 1
      omega
    · omega
  · rw [Function.comp_apply, pageAddr_add]

/-- **The scan.** The two loops are one pass over the pages of the non-empty buckets. -/
theorem scanBuckets_eq (s : Paging) (pages : ℕ → Word) (count n b : ℕ) (p : Progress Word) :
    scanBuckets pages count (List.range' b n) (pageAddr s (bucketSize * b)) p =
      (scan (pageBit pages) (pageAddr s) count (pagesOf pages (List.range' b n)) p).getRight? := by
  induction n generalizing b p with
  | zero => rfl
  | succ n ih =>
    have hnext : pageAddr s (bucketSize * b) + BitVec.ofNat 64 bucketSize * pageBytes =
        pageAddr s (bucketSize * (b + 1)) := pageAddr_add s (bucketSize * b) bucketSize
    rw [List.range'_succ, scanBuckets, hnext]
    by_cases hz : pages b = 0
    · have hskip : pagesOf pages (b :: List.range' (b + 1) n) =
          pagesOf pages (List.range' (b + 1) n) := by
        rw [pagesOf, List.filter_cons_of_neg (by simp [hz]), pagesOf]
      rw [hskip]
      simp only [hz, ne_eq, not_true_eq_false, if_false]
      exact ih _ _
    · have htake : pagesOf pages (b :: List.range' (b + 1) n) =
          (List.range bucketSize).map (bucketSize * b + ·) ++
            pagesOf pages (List.range' (b + 1) n) := by
        have hpos : (fun b => decide (pages b ≠ 0)) b = true := decide_eq_true hz
        rw [pagesOf, List.filter_cons, if_pos hpos, List.flatMap_cons, pagesOf]
      rw [htake, scan_append, scanBucket_eq]
      simp only [ne_eq, hz, not_false_eq_true, if_true]
      cases scan (pageBit pages) (pageAddr s) count
        ((List.range bucketSize).map (bucketSize * b + ·)) p with
      | inl q => exact ih _ _
      | inr c => rfl

section Candidates
variable (s : Paging) {count : ℕ} (xs : List ℕ)

theorem scan_some_iff (hc : 0 < count) (c : Word) :
    (scan (pageBit s.pages) (pageAddr s) count xs ⟨0, s.physPageBase⟩).getRight? = some c ↔
      ∃ k, c = pageAddr s k ∧ FirstRun (pageBit s.pages) id count xs 0 0 k := by
  have hbase : s.physPageBase = pageAddr s 0 := by simp [pageAddr]
  rw [Sum.getRight?_eq_some_iff, scan_eq_found_iff hc, hbase]
  exact firstRun_map_mark

theorem scan_none_iff (hc : 0 < count) :
    (scan (pageBit s.pages) (pageAddr s) count xs ⟨0, s.physPageBase⟩).getRight? = none ↔
      ¬HasRun count (xs.map (pageBit s.pages)) := by
  have hfound : (∃ c, scan (pageBit s.pages) (pageAddr s) count xs ⟨0, s.physPageBase⟩ = .inr c) ↔
      HasRun count (xs.map (pageBit s.pages)) := scan_found_iff hc
  rw [← hfound, Option.eq_none_iff_forall_ne_some, not_exists]
  refine forall_congr' fun c => ?_
  rw [ne_eq, Sum.getRight?_eq_some_iff]

end Candidates

/-- The scan stops with page `k` as its candidate. -/
def Selects (pages : ℕ → Word) (count k : ℕ) : Prop :=
  FirstRun (pageBit pages) id count (visitedPages pages) 0 0 k

theorem scanBuckets_start (s : Paging) (count : ℕ) :
    scanBuckets s.pages count (List.range totalBucketCount) s.physPageBase ⟨0, s.physPageBase⟩ =
      (scan (pageBit s.pages) (pageAddr s) count (visitedPages s.pages)
        ⟨0, s.physPageBase⟩).getRight? := by
  have hbase : s.physPageBase = pageAddr s 0 := by simp [pageAddr]
  have hscan := scanBuckets_eq s s.pages count totalBucketCount 0 ⟨0, s.physPageBase⟩
  rwa [← List.range_eq_range', Nat.mul_zero, ← hbase] at hscan

/-- The candidate page of a scan that stops. -/
theorem scanBuckets_some_iff (s : Paging) {count : ℕ} (hc : 0 < count) (c : Word) :
    scanBuckets s.pages count (List.range totalBucketCount) s.physPageBase ⟨0, s.physPageBase⟩ =
        some c ↔ ∃ k, c = pageAddr s k ∧ Selects s.pages count k := by
  rw [scanBuckets_start, scan_some_iff s _ hc]
  rfl

/-- The scan fails exactly without a run among the visited pages. -/
theorem scanBuckets_none_iff (s : Paging) {count : ℕ} (hc : 0 < count) :
    scanBuckets s.pages count (List.range totalBucketCount) s.physPageBase ⟨0, s.physPageBase⟩ =
        none ↔
      ¬HasRun count ((visitedPages s.pages).map (pageBit s.pages)) := by
  rw [scanBuckets_start, scan_none_iff s _ hc]

/-! ### Marking -/

/-- Mapping changes the memory, the table pool and nothing else. -/
structure SameStatics (s s' : Paging) : Prop where
  hhdmStart : s'.hhdmStart = s.hhdmStart
  physPageBase : s'.physPageBase = s.physPageBase
  kernelPml4 : s'.kernelPml4 = s.kernelPml4
  presentPageCount : s'.presentPageCount = s.presentPageCount

theorem SameStatics.trans {s s' s'' : Paging} (h : SameStatics s s') (h' : SameStatics s' s'') :
    SameStatics s s'' :=
  ⟨h'.1.trans h.1, h'.2.trans h.2, h'.3.trans h.3, h'.4.trans h.4⟩

theorem SameStatics.pageIndex_eq {s s' : Paging} (h : SameStatics s s') (a : Word) :
    pageIndex s' a = pageIndex s a := by
  rw [pageIndex, pageIndex, h.hhdmStart, h.physPageBase]

theorem SameStatics.pageAddr_eq {s s' : Paging} (h : SameStatics s s') (i : ℕ) :
    pageAddr s' i = pageAddr s i := by
  rw [pageAddr, pageAddr, h.physPageBase]

theorem pagingEnsureEntry_frame (table idx : Word) (s : Paging) :
    SameStatics s (pagingEnsureEntry table idx s) ∧
      (pagingEnsureEntry table idx s).pages = s.pages := by
  by_cases h : tableEntry s.mem table idx &&& pagePresent = 0
  · rw [pagingEnsureEntry, if_pos h]
    simp only [pagingGetPageEntryWithAlloc, and_true]
    exact ⟨rfl, rfl, rfl, rfl⟩
  · rw [pagingEnsureEntry, if_neg h]
    exact ⟨⟨rfl, rfl, rfl, rfl⟩, rfl⟩

theorem pagingMapPage_frame (phys pml4 : Word) (s : Paging) :
    SameStatics s (pagingMapPage phys pml4 s) ∧ (pagingMapPage phys pml4 s).pages = s.pages := by
  unfold pagingMapPage
  extract_lets virt pml4Idx pdptIdx pdIdx ptIdx s₁ pdpt s₂ pd s₃ pt
  obtain ⟨h₁, p₁⟩ := pagingEnsureEntry_frame pml4 pml4Idx s
  obtain ⟨h₂, p₂⟩ := pagingEnsureEntry_frame pdpt pdptIdx s₁
  obtain ⟨h₃, p₃⟩ := pagingEnsureEntry_frame pd pdIdx s₂
  have hall := (h₁.trans h₂).trans h₃
  exact ⟨⟨hall.1, hall.2, hall.3, hall.4⟩, (p₃.trans p₂).trans p₁⟩

/-- One turn of the marking loop. -/
def markPage (currAddr : Word) (s : Paging) : Paging :=
  let s := pagingMapPage currAddr s.kernelPml4 s
  let pageIdx := ((currAddr - s.physPageBase) / pageBytes).toNat
  { s with pages := clearPage s.pages pageIdx }

theorem markPages_cons (left : ℕ) (currAddr : Word) (s : Paging) :
    markPages (left + 1) currAddr s =
      markPages left (currAddr + pageBytes) (markPage currAddr s) := rfl

theorem markPage_frame (currAddr : Word) (s : Paging) : SameStatics s (markPage currAddr s) := by
  obtain ⟨hframe, _⟩ := pagingMapPage_frame currAddr s.kernelPml4 s
  exact ⟨hframe.1, hframe.2, hframe.3, hframe.4⟩

theorem markPage_pages {k : ℕ} (s : Paging) (hk : k < 2 ^ 43) :
    (markPage (pageAddr s k) s).pages = clearPage s.pages k := by
  obtain ⟨hframe, hpages⟩ := pagingMapPage_frame (pageAddr s k) s.kernelPml4 s
  have hidx : ((pageAddr s k - (pagingMapPage (pageAddr s k) s.kernelPml4 s).physPageBase) /
      pageBytes).toNat = k := by
    rw [hframe.physPageBase]
    exact pageIndex_add s.physPageBase hk
  rw [markPage]
  simp only [hidx, hpages]

/-- Marking clears the bits of the run and no others. -/
theorem markPages_spec (count : ℕ) {k : ℕ} (s : Paging) (hk : k + count ≤ 2 ^ 43) :
    SameStatics s (markPages count (pageAddr s k) s) ∧
      ∀ j, pageBit (markPages count (pageAddr s k) s).pages j =
        (pageBit s.pages j && !decide (k ≤ j ∧ j < k + count)) := by
  induction count generalizing k s with
  | zero =>
    refine ⟨⟨rfl, rfl, rfl, rfl⟩, fun j => ?_⟩
    rw [decide_eq_false (by omega), Bool.not_false, Bool.and_true]
    rfl
  | succ count ih =>
    have hstat := markPage_frame (pageAddr s k) s
    obtain ⟨hrest, hbits⟩ := ih (markPage (pageAddr s k) s) (k := k + 1) (by omega)
    rw [hstat.pageAddr_eq] at hrest hbits
    rw [markPages_cons, pageAddr_succ]
    refine ⟨hstat.trans hrest, fun j => ?_⟩
    rw [hbits, markPage_pages s (by omega), pageBit_clearPage, Bool.and_assoc]
    congr 1
    by_cases hj : j = k
    · subst hj
      simp
    · rw [decide_eq_true hj, Bool.true_and]
      congr 2
      exact propext (by omega)

/-! ### One call -/

/-- The answer is `NULL`, or the address of `count` managed pages that were all
free and whose bits, and no others, are cleared afterwards. -/
def HandsOutFree (s : Paging) (count : ℕ) (res : Word × Paging) : Prop :=
  res.1 ≠ 0 →
    (∀ i < count, pageIndex s res.1 + i < maxPages ∧
      pageBit s.pages (pageIndex s res.1 + i) = true) ∧
    ∀ j < maxPages, pageBit res.2.pages j = (pageBit s.pages j &&
      !decide (pageIndex s res.1 ≤ j ∧ j < pageIndex s res.1 + count))

def FramesFree (s : Paging) (count : ℕ) : Prop := HandsOutFree s count (pagingAllocPages count s)

/-- The first pages are free. -/
def FirstPagesFree (pages : ℕ → Word) (count : ℕ) : Prop :=
  count ≤ maxPages ∧ ∀ i < count, pageBit pages i = true

/-- The first pages are free, or the buckets that are not zero have no run. -/
def ScanExact (pages : ℕ → Word) (count : ℕ) : Prop :=
  FirstPagesFree pages count ∨ ¬HasRun count ((visitedPages pages).map (pageBit pages))

/-- No managed page lies at virtual address `0`. -/
def NoNullPage (s : Paging) : Prop := ∀ i < maxPages, pageAddr s i + s.hhdmStart ≠ 0

/-- No managed page has a wrapped address. -/
theorem noNullPage_of_le {s : Paging} (hpos : 0 < s.physPageBase.toNat + s.hhdmStart.toNat)
    (hle : s.physPageBase.toNat + s.hhdmStart.toNat + maxPages * 0x200000 ≤ 2 ^ 64) :
    NoNullPage s := by
  intro i hi hz
  have hsize : pageBytes.toNat = 0x200000 := by decide
  have hval : (pageAddr s i + s.hhdmStart).toNat = 0 := congrArg BitVec.toNat hz
  rw [pageAddr, BitVec.toNat_add, BitVec.toNat_add, BitVec.toNat_mul, hsize,
    BitVec.toNat_ofNat] at hval
  simp only [maxPages] at hi hle
  omega

section OneCall
variable {s : Paging} {count : ℕ}

/-- The pages that the scan skips are those of the buckets that are zero. -/
theorem pagesOf_range (pages : ℕ → Word) (m : ℕ) : pagesOf pages (List.range m) =
    (List.range (bucketSize * m)).filter fun i => decide (pages (i / bucketSize) ≠ 0) := by
  induction m with
  | zero => rfl
  | succ m ih =>
    have happ : pagesOf pages (List.range (m + 1)) =
        pagesOf pages (List.range m) ++ pagesOf pages [m] := by
      rw [pagesOf, List.range_succ, List.filter_append, List.flatMap_append]
      rfl
    have hbucket : ∀ i ∈ (List.range bucketSize).map (bucketSize * m + ·), i / bucketSize = m := by
      intro i hi
      obtain ⟨j, hj, rfl⟩ := List.mem_map.1 hi
      have hlt := List.mem_range.1 hj
      rw [bucketSize_eq] at hlt ⊢
      omega
    rw [happ, ih, Nat.mul_succ, List.range_add, List.filter_append]
    congr 1
    by_cases hz : pages m = 0
    · rw [pagesOf, List.filter_cons, if_neg (by simp [hz]), List.filter_nil, List.flatMap_nil]
      refine (List.filter_eq_nil_iff.2 fun i hi => ?_).symm
      rw [hbucket i hi, decide_eq_true_eq]
      exact not_not.2 hz
    · rw [pagesOf, List.filter_cons, if_pos (decide_eq_true hz), List.filter_nil,
        List.flatMap_singleton]
      refine (List.filter_eq_self.2 fun i hi => ?_).symm
      rw [hbucket i hi]
      exact decide_eq_true hz

theorem visitedPages_eq (pages : ℕ → Word) : visitedPages pages =
    (List.range maxPages).filter fun i => decide (pages (i / bucketSize) ≠ 0) :=
  pagesOf_range pages totalBucketCount

/-- The pages that the scan looks at come in ascending order. -/
theorem visitedPages_sublist (pages : ℕ → Word) :
    (visitedPages pages).Sublist (List.range maxPages) := by
  rw [visitedPages_eq]
  exact List.filter_sublist

/-- A free page is not skipped. -/
theorem bucket_ne_zero {pages : ℕ → Word} {i : ℕ} (h : pageBit pages i = true) :
    pages (i / bucketSize) ≠ 0 := by
  intro hz
  rw [pageBit, hz] at h
  simp at h

theorem mem_visitedPages {pages : ℕ → Word} {i : ℕ} (h : i ∈ visitedPages pages) : i < maxPages :=
  List.mem_range.1 ((visitedPages_sublist pages).subset h)

/-- The candidate is page 0 or a page in use. -/
theorem Selects.candidate {pages : ℕ → Word} {k : ℕ} (h : Selects pages count k) :
    k = 0 ∨ pageBit pages k = false := by
  obtain ⟨rfl, _⟩ | ⟨ys, x, zs, _, hx, rfl, _⟩ := h
  · exact Or.inl rfl
  · exact Or.inr hx

theorem Selects.lt {pages : ℕ → Word} {k : ℕ} (h : Selects pages count k) : k < maxPages := by
  obtain ⟨rfl, _⟩ | ⟨ys, x, zs, he, _, rfl, _⟩ := h
  · decide
  · have hmem : k ∈ visitedPages pages := by
      rw [he]
      exact List.mem_append_right ys List.mem_cons_self
    exact mem_visitedPages hmem

/-- The selected run consists of managed pages. -/
theorem Selects.add_le {pages : ℕ → Word} {k : ℕ} (h : Selects pages count k) :
    k + count ≤ maxPages := by
  have hlen : ∀ {bits : List Bool}, List.replicate count true <+: bits → count ≤ bits.length := by
    intro bits hpre
    have hle := hpre.length_le
    rwa [List.length_replicate] at hle
  obtain ⟨rfl, hpre⟩ | ⟨ys, x, zs, he, _, rfl, hpre, _⟩ := h
  · have hle := hlen hpre
    have hsub := (visitedPages_sublist pages).length_le
    rw [List.replicate_zero, List.nil_append, List.length_map] at hle
    rw [List.length_range] at hsub
    omega
  · have hsub : (k :: zs).Sublist (List.range maxPages) := by
      refine List.Sublist.trans ?_ (visitedPages_sublist pages)
      rw [he]
      exact List.sublist_append_right ys (k :: zs)
    have hpw := List.pairwise_lt_range.sublist hsub
    have hle := hlen hpre
    rw [List.length_map] at hle
    have hin : zs.toFinset ⊆ Finset.Ioo k maxPages := by
      intro z hz
      have hmem := List.mem_toFinset.1 hz
      exact Finset.mem_Ioo.2 ⟨List.rel_of_pairwise_cons hpw hmem,
        List.mem_range.1 (hsub.subset (List.mem_cons_of_mem k hmem))⟩
    have hcard := Finset.card_le_card hin
    have hnodup : zs.Nodup := (List.nodup_range.sublist hsub).of_cons
    have hk : k < maxPages := List.mem_range.1 (hsub.subset List.mem_cons_self)
    rw [List.toFinset_card_of_nodup hnodup, Nat.card_Ioo] at hcard
    omega

theorem FirstPagesFree.selects {pages : ℕ → Word} (h : FirstPagesFree pages count) :
    Selects pages count 0 := by
  have hfree : ∀ i < count, pageBit pages (0 + i) = true := by
    intro i hi
    rw [Nat.zero_add]
    exact h.2 i hi
  rw [Selects, visitedPages_eq, List.range_eq_range']
  exact Or.inl ⟨rfl, replicate_prefix_filter h.1 hfree
    fun i hi => decide_eq_true (bucket_ne_zero hi)⟩

/-- The call when the scan stops at page `k`. -/
theorem pagingAllocPages_some {k : ℕ} (hk : k + count ≤ 2 ^ 43)
    (h : scanBuckets s.pages count (List.range totalBucketCount) s.physPageBase
      ⟨0, s.physPageBase⟩ = some (pageAddr s k)) :
    (pagingAllocPages count s).1 = pageAddr s k + s.hhdmStart ∧
      SameStatics s (pagingAllocPages count s).2 ∧
      ∀ j, pageBit (pagingAllocPages count s).2.pages j =
        (pageBit s.pages j && !decide (k ≤ j ∧ j < k + count)) := by
  rw [pagingAllocPages, h]
  exact ⟨rfl, markPages_spec count s hk⟩

theorem pagingAllocPages_none
    (h : scanBuckets s.pages count (List.range totalBucketCount) s.physPageBase
      ⟨0, s.physPageBase⟩ = none) : pagingAllocPages count s = (0, s) := by
  rw [pagingAllocPages, h]

/-- An exact scan stops at page 0 or not at all. -/
theorem ScanExact.scan (hc : 0 < count) (h : ScanExact s.pages count) :
    (FirstPagesFree s.pages count ∧
      scanBuckets s.pages count (List.range totalBucketCount) s.physPageBase
        ⟨0, s.physPageBase⟩ = some (pageAddr s 0)) ∨ pagingAllocPages count s = (0, s) := by
  obtain hfree | hno := h
  · exact Or.inl ⟨hfree, (scanBuckets_some_iff s hc _).2 ⟨0, rfl, hfree.selects⟩⟩
  · exact Or.inr (pagingAllocPages_none ((scanBuckets_none_iff s hc).2 hno))

/-- When the scan is exact the pages handed out were free. -/
theorem ScanExact.framesFree (hc : 0 < count) (h : ScanExact s.pages count) :
    FramesFree s count ∧ SameStatics s (pagingAllocPages count s).2 ∧
      ∀ j, pageBit s.pages j = false → pageBit (pagingAllocPages count s).2.pages j = false := by
  obtain ⟨hfree, hscan⟩ | hnone := h.scan hc
  · have hle := hfree.1
    simp only [maxPages] at hle
    obtain ⟨ha, hstat, hbits⟩ := pagingAllocPages_some (by omega) hscan
    have hidx : pageIndex s (pagingAllocPages count s).1 = 0 := by
      rw [ha, pageIndex_pageAddr s (by omega)]
    refine ⟨fun _ => ?_, hstat, fun j hj => by rw [hbits, hj, Bool.false_and]⟩
    simp only [hidx, Nat.zero_add]
    refine ⟨fun i hi => ⟨hi.trans_le hfree.1, hfree.2 i hi⟩, fun j _ => ?_⟩
    rw [hbits, Nat.zero_add]
  · rw [hnone]
    refine ⟨fun hne => ?_, ⟨rfl, rfl, rfl, rfl⟩, fun _ hj => hj⟩
    exact absurd (congrArg Prod.fst hnone) hne

/-- Otherwise it hands out a page that was in use. -/
theorem FramesFree.scanExact (hc : 0 < count) (hnull : NoNullPage s) (h : FramesFree s count) :
    ScanExact s.pages count := by
  by_cases hrun : HasRun count ((visitedPages s.pages).map (pageBit s.pages))
  · left
    obtain ⟨c, hscan⟩ := Option.ne_none_iff_exists'.1
      fun hnone => (scanBuckets_none_iff s hc).1 hnone hrun
    obtain ⟨k, rfl, hsel⟩ := (scanBuckets_some_iff s hc c).1 hscan
    have hk := hsel.lt
    have ha : (pagingAllocPages count s).1 = pageAddr s k + s.hhdmStart := by
      rw [pagingAllocPages, hscan]
    have hidx : pageIndex s (pagingAllocPages count s).1 = k := by
      simp only [maxPages] at hk
      rw [ha, pageIndex_pageAddr s (by omega)]
    obtain ⟨hfree, _⟩ := h (ha ▸ hnull k hk)
    simp only [hidx] at hfree
    obtain rfl | hused := hsel.candidate
    · have hlast := (hfree (count - 1) (by omega)).1
      exact ⟨by omega, fun i hi => by simpa using (hfree i hi).2⟩
    · have hfirst := (hfree 0 hc).2
      rw [Nat.add_zero, hused] at hfirst
      exact Bool.noConfusion hfirst
  · exact Or.inr hrun

end OneCall

/-! ### Runs -/

/-- The allocator and the runs handed out and not yet freed. -/
structure FrameState where
  paging : Paging
  runs : List (Word × ℕ)

inductive FrameOp
  | alloc (count : ℕ)
  | free (run : Word × ℕ)

def frameStep (s : FrameState) : FrameOp → Option FrameState
  | .alloc count =>
    let res := pagingAllocPages count s.paging
    some ⟨res.2, if res.1 = 0 then s.runs else (res.1, count) :: s.runs⟩
  | .free run => some ⟨pagingFreePages run.1 run.2 s.paging, s.runs.erase run⟩

/-- At least one page is asked for, and only runs handed out are freed. -/
def FrameLawful (s : FrameState) : FrameOp → Prop
  | .alloc count => 1 ≤ count
  | .free run => run ∈ s.runs

/-- Every scan of the run is exact. -/
def ScansExact (s : FrameState) : FrameOp → Prop
  | .alloc count => ScanExact s.paging.pages count
  | .free _ => True

/-- Every allocation of the run hands out free pages. -/
def AllocsFree (s : FrameState) : FrameOp → Prop
  | .alloc count => FramesFree s.paging count
  | .free _ => True

/-- Page `j` belongs to the run. -/
def InRun (p : Paging) (run : Word × ℕ) (j : ℕ) : Prop :=
  pageIndex p run.1 ≤ j ∧ j < pageIndex p run.1 + run.2

/-- No page belongs to two runs, and the pages of all runs are marked used. -/
structure NotShared (s : FrameState) : Prop where
  apart : s.runs.Pairwise fun r r' => ∀ j, InRun s.paging r j → ¬InRun s.paging r' j
  used : ∀ r ∈ s.runs, ∀ j, InRun s.paging r j → j < maxPages ∧ pageBit s.paging.pages j = false

theorem freeLoop_spec (count present left off : ℕ) (pages : ℕ → Word) (j : ℕ) :
    pageBit (freeLoop count present left off pages) j =
      (pageBit pages j || decide (off ≤ j ∧ j < off + left ∧ j < count ∧ j < present)) := by
  induction left generalizing off pages with
  | zero =>
    rw [freeLoop, decide_eq_false (by omega), Bool.or_false]
  | succ left ih =>
    rw [freeLoop]
    by_cases h : off < count ∧ off < present
    · rw [if_pos h, ih, pageBit_setPage, Bool.or_assoc]
      congr 1
      by_cases hj : j = off
      · subst hj
        rw [decide_eq_true rfl, Bool.true_or, decide_eq_true (by omega)]
      · rw [decide_eq_false hj, Bool.false_or]
        exact decide_eq_decide.2 (by omega)
    · rw [if_neg h, decide_eq_false (by omega), Bool.or_false]

/-- Freeing sets bits of the freed run only. -/
theorem pagingFreePages_spec (p : Paging) (addr : Word) (count : ℕ) :
    SameStatics p (pagingFreePages addr count p) ∧
      ∀ j, ¬InRun p (addr, count) j →
        pageBit (pagingFreePages addr count p).pages j = pageBit p.pages j := by
  unfold pagingFreePages
  extract_lets phys off
  by_cases halign : phys % pageBytes ≠ 0
  · rw [if_pos halign]
    exact ⟨⟨rfl, rfl, rfl, rfl⟩, fun _ _ => rfl⟩
  · rw [if_neg halign]
    by_cases hlow : phys < p.physPageBase
    · rw [if_pos hlow]
      exact ⟨⟨rfl, rfl, rfl, rfl⟩, fun _ _ => rfl⟩
    · rw [if_neg hlow]
      refine ⟨⟨rfl, rfl, rfl, rfl⟩, fun j hj => ?_⟩
      have hoff : pageIndex p addr = off := rfl
      simp only [InRun, hoff] at hj
      rw [freeLoop_spec, decide_eq_false (by omega), Bool.or_false]

theorem InRun.congr {p p' : Paging} (h : SameStatics p p') {r : Word × ℕ} {j : ℕ} :
    InRun p' r j ↔ InRun p r j := by
  rw [InRun, InRun, h.pageIndex_eq]

/-- A new run of free pages shares no page with the old runs. -/
theorem NotShared.alloc {s : FrameState} (hs : NotShared s) {count : ℕ} {res : Word × Paging}
    (hfree : HandsOutFree s.paging count res) (hstat : SameStatics s.paging res.2)
    (hkeep : ∀ j, pageBit s.paging.pages j = false → pageBit res.2.pages j = false) :
    NotShared ⟨res.2, if res.1 = 0 then s.runs else (res.1, count) :: s.runs⟩ := by
  have hold : ∀ r ∈ s.runs, ∀ j, InRun res.2 r j → j < maxPages ∧ pageBit res.2.pages j = false := by
    intro r hr j hj
    obtain ⟨hlt, hused⟩ := hs.used r hr j ((InRun.congr hstat).1 hj)
    exact ⟨hlt, hkeep j hused⟩
  have hapart : s.runs.Pairwise fun r r' => ∀ j, InRun res.2 r j → ¬InRun res.2 r' j :=
    hs.apart.imp fun hab j hj hj' => hab j ((InRun.congr hstat).1 hj) ((InRun.congr hstat).1 hj')
  by_cases hz : res.1 = 0
  · rw [if_pos hz]
    exact ⟨hapart, hold⟩
  · rw [if_neg hz]
    obtain ⟨hbits, hcleared⟩ := hfree hz
    -- the pages of the new run were free, those of the old runs were not
    have hnew : ∀ j, InRun s.paging (res.1, count) j →
        j < maxPages ∧ pageBit s.paging.pages j = true := by
      intro j ⟨hle, hlt⟩
      obtain ⟨i, rfl⟩ := Nat.exists_eq_add_of_le hle
      exact hbits i (Nat.lt_of_add_lt_add_left hlt)
    refine ⟨List.pairwise_cons.2 ⟨fun r hr j hj hj' => ?_, hapart⟩, fun r hr j hj => ?_⟩
    · have hused := (hs.used r hr j ((InRun.congr hstat).1 hj')).2
      rw [(hnew j ((InRun.congr hstat).1 hj)).2] at hused
      exact Bool.noConfusion hused
    · obtain rfl | hr := List.mem_cons.1 hr
      · have hj' := (InRun.congr hstat).1 hj
        have hlt := (hnew j hj').1
        rw [InRun] at hj'
        refine ⟨hlt, ?_⟩
        rw [hcleared j hlt, decide_eq_true hj', Bool.not_true, Bool.and_false]
      · exact hold r hr j hj

/-- Freeing a run leaves the pages of the other runs marked used. -/
theorem NotShared.free {s : FrameState} (hs : NotShared s) {run : Word × ℕ} (hrun : run ∈ s.runs) :
    NotShared ⟨pagingFreePages run.1 run.2 s.paging, s.runs.erase run⟩ := by
  obtain ⟨hstat, hbits⟩ := pagingFreePages_spec s.paging run.1 run.2
  obtain ⟨hfirst, hrest⟩ := List.pairwise_cons.1
    (((List.perm_cons_erase hrun).pairwise_iff fun h j hj hj' => h j hj' hj).1 hs.apart)
  refine ⟨?_, fun r hr j hj => ?_⟩
  · exact hrest.imp fun hab j hj hj' => hab j ((InRun.congr hstat).1 hj) ((InRun.congr hstat).1 hj')
  · have hj' := (InRun.congr hstat).1 hj
    obtain ⟨hlt, hused⟩ := hs.used r (List.mem_of_mem_erase hr) j hj'
    refine ⟨hlt, ?_⟩
    rw [hbits j fun hjr => hfirst r hr j hjr hj']
    exact hused

/-- **Step lemma.** An exact scan hands out pages of no other run, and a free
gives back pages of the freed run only. -/
theorem frameStep_notShared {s : FrameState} {op : FrameOp} (hs : NotShared s)
    (hlaw : FrameLawful s op) (hexact : ScansExact s op) :
    ∃ s', frameStep s op = some s' ∧ NotShared s' := by
  cases op with
  | alloc count =>
    obtain ⟨hfree, hstat, hkeep⟩ := ScanExact.framesFree hlaw hexact
    exact ⟨_, rfl, hs.alloc hfree hstat hkeep⟩
  | free run => exact ⟨_, rfl, hs.free hlaw⟩

/-- **Page frames are handed out once**, exactly as far as the scans are exact:
a call hands out free pages if and only if its scan is exact, and in every run
of exact scans and lawful frees no page belongs to two runs. -/
theorem framesFree_iff {s : Paging} (hnull : NoNullPage s) :
    (∀ count, 1 ≤ count → (FramesFree s count ↔ ScanExact s.pages count)) ∧
      ∀ ops, Along frameStep (fun t op => FrameLawful t op ∧ ScansExact t op) ⟨s, []⟩ ops →
        (∃ t, exec frameStep ⟨s, []⟩ ops = some t ∧ NotShared t) ∧
          Along frameStep AllocsFree ⟨s, []⟩ ops := by
  refine ⟨fun count hc => ⟨fun h => h.scanExact hc hnull, fun h => (h.framesFree hc).1⟩, ?_⟩
  intro ops hops
  have hstart : NotShared ⟨s, []⟩ :=
    ⟨List.Pairwise.nil, fun r hr => absurd hr List.not_mem_nil⟩
  constructor
  · exact hops.exec_invariant (fun t op ht h => frameStep_notShared ht h.1 h.2) hstart
  · refine hops.mono fun t op h => ?_
    cases op with
    | alloc count => exact (ScanExact.framesFree h.1 h.2).1
    | free run => trivial

/-- A memory with the first page used and all others free. -/
def firstPageUsed : Paging where
  hhdmStart := 0xFFFF800000000000#64
  pages := fun b => if b = 0 then 0xFFFFFFFFFFFFFFFE#64 else 0xFFFFFFFFFFFFFFFF#64
  physPageBase := 0x1000000#64
  kernelPml4 := 0xFFFF800000001000#64
  presentPageCount := 2560
  currFreePageTable := 0xFFFF800000200000#64
  mem := fun _ => 0
  fresh := []

theorem framesFree_iff_firstPageUsed :
    (∀ count, 1 ≤ count → (FramesFree firstPageUsed count ↔ ScanExact firstPageUsed.pages count)) ∧
      ∀ ops, Along frameStep (fun t op => FrameLawful t op ∧ ScansExact t op)
          ⟨firstPageUsed, []⟩ ops →
        (∃ t, exec frameStep ⟨firstPageUsed, []⟩ ops = some t ∧ NotShared t) ∧
          Along frameStep AllocsFree ⟨firstPageUsed, []⟩ ops :=
  framesFree_iff (noNullPage_of_le (by decide) (by decide))

/-- A request for one page gets the used page in front of the free one. -/
theorem framesFree_fails : ¬∀ (s : Paging) (count : ℕ), 1 ≤ count → FramesFree s count := by
  intro h
  have haddr : (pagingAllocPages 1 firstPageUsed).1 = 0xFFFF800001000000#64 := by decide +kernel
  obtain ⟨hfree, _⟩ := h firstPageUsed 1 le_rfl (by rw [haddr]; decide)
  have hused := (hfree 0 Nat.one_pos).2
  rw [haddr] at hused
  exact absurd hused (by decide +kernel)

end Ssos
