import Ssos.Mem.FrameScan

/-!
# Skipped buckets

The scan of `paging_alloc_pages` does not look at the pages of a bucket that is
zero. It fails only when there is no run at all, and stays inside the bitmap;
but the count and the candidate survive a skipped bucket, so that its answer is
not always that of a scan over all pages.

## Main results

- `allocHonest` — `NULL` means that there is no run, and a run is in range
- `skipping_sameAsPlain_iff` — when skipping makes no difference
-/

namespace Ssos

open RunScan

/-- Page `k` starts `count` free pages of the bitmap. -/
def FreeRun (pages : ℕ → Word) (count k : ℕ) : Prop :=
  k + count ≤ maxPages ∧ ∀ i < count, pageBit pages (k + i) = true

theorem hasRun_pages_iff (pages : ℕ → Word) (count : ℕ) :
    HasRun count ((List.range maxPages).map (pageBit pages)) ↔ ∃ k, FreeRun pages count k :=
  hasRun_range_iff

/-- A run is not lost by skipping. -/
theorem hasRun_visited {pages : ℕ → Word} {count : ℕ}
    (h : HasRun count ((List.range maxPages).map (pageBit pages))) :
    HasRun count ((visitedPages pages).map (pageBit pages)) := by
  rw [visitedPages_eq]
  exact h.filter fun i hi => decide_eq_true (bucket_ne_zero hi)

section Honest
variable {s : Paging} {count : ℕ}

/-- Addresses of managed pages do not wrap. -/
theorem toNat_pageAddr (hle : s.physPageBase.toNat + s.hhdmStart.toNat + maxPages * 0x200000 ≤ 2 ^ 64)
    {k : ℕ} (hk : k < maxPages) : (pageAddr s k + s.hhdmStart).toNat =
      s.physPageBase.toNat + s.hhdmStart.toNat + k * 0x200000 := by
  have hsize : pageBytes.toNat = 0x200000 := by decide
  simp only [maxPages] at hle hk
  rw [pageAddr, BitVec.toNat_add, BitVec.toNat_add, BitVec.toNat_mul, hsize, BitVec.toNat_ofNat]
  omega

/-- **Failure is honest and a run is in range.** When the answer is `NULL` no
`count` consecutive pages are free and nothing has changed; otherwise the run
lies in the managed pages, and so do the indices with which it is marked. -/
theorem allocHonest (hpos : 0 < s.physPageBase.toNat + s.hhdmStart.toNat)
    (hle : s.physPageBase.toNat + s.hhdmStart.toNat + maxPages * 0x200000 ≤ 2 ^ 64)
    (hc : 1 ≤ count) :
    ((pagingAllocPages count s).1 = 0 →
        (¬∃ k, FreeRun s.pages count k) ∧ (pagingAllocPages count s).2 = s) ∧
      ((pagingAllocPages count s).1 ≠ 0 →
        (s.physPageBase.toNat + s.hhdmStart.toNat ≤ (pagingAllocPages count s).1.toNat ∧
          (pagingAllocPages count s).1.toNat + count * 0x200000 ≤
            s.physPageBase.toNat + s.hhdmStart.toNat + maxPages * 0x200000) ∧
        ∀ i < count, pageIndex s ((pagingAllocPages count s).1 + BitVec.ofNat 64 i * pageBytes) /
          bucketSize < totalBucketCount) := by
  cases hscan : scanBuckets s.pages count (List.range totalBucketCount) s.physPageBase
      ⟨0, s.physPageBase⟩ with
  | none =>
    rw [pagingAllocPages_none hscan]
    refine ⟨fun _ => ⟨fun hrun => ?_, rfl⟩, fun hne => absurd rfl hne⟩
    exact (scanBuckets_none_iff s hc).1 hscan (hasRun_visited ((hasRun_pages_iff _ _).2 hrun))
  | some c =>
    obtain ⟨k, rfl, hsel⟩ := (scanBuckets_some_iff s hc c).1 hscan
    have hk := hsel.lt
    have hfit := hsel.add_le
    have haddr : (pagingAllocPages count s).1 = pageAddr s k + s.hhdmStart := by
      rw [pagingAllocPages, hscan]
    have hval := toNat_pageAddr hle hk
    rw [haddr]
    refine ⟨fun hz => absurd hz (noNullPage_of_le hpos hle k hk), fun _ => ⟨?_, fun i hi => ?_⟩⟩
    · omega
    · have hnext : pageAddr s k + s.hhdmStart + BitVec.ofNat 64 i * pageBytes =
          pageAddr s (k + i) + s.hhdmStart := by
        rw [← pageAddr_add, BitVec.add_assoc, BitVec.add_comm s.hhdmStart, ← BitVec.add_assoc]
      simp only [maxPages] at hfit
      rw [hnext, pageIndex_pageAddr s (by omega), bucketSize_eq]
      exact (Nat.div_lt_iff_lt_mul (by decide)).2 (show k + i < 40 * 64 by omega)

end Honest

/-- The first page in use, the others free: a run of two pages. -/
theorem allocHonest_firstPageUsed :
    ((pagingAllocPages 2 firstPageUsed).1 = 0 →
        (¬∃ k, FreeRun firstPageUsed.pages 2 k) ∧ (pagingAllocPages 2 firstPageUsed).2 = firstPageUsed) ∧
      ((pagingAllocPages 2 firstPageUsed).1 ≠ 0 →
        (0xFFFF800001000000 ≤ (pagingAllocPages 2 firstPageUsed).1.toNat ∧
          (pagingAllocPages 2 firstPageUsed).1.toNat + 2 * 0x200000 ≤
            0xFFFF800001000000 + maxPages * 0x200000) ∧
        ∀ i < 2, pageIndex firstPageUsed
          ((pagingAllocPages 2 firstPageUsed).1 + BitVec.ofNat 64 i * pageBytes) /
            bucketSize < totalBucketCount) :=
  allocHonest (by decide) (by decide) (by decide)

/-! ### The scan of all pages -/

/-- The `bucket_index` loop without the test `if (pages[bucket_index])`. -/
def scanAllBuckets (pages : ℕ → Word) (count : ℕ) : List ℕ → Word → Progress Word → Option Word
  | [], _, _ => none
  | bucketIndex :: rest, bucketBaseAddr, p =>
    let next := bucketBaseAddr + BitVec.ofNat 64 bucketSize * pageBytes
    match scanBucket (pages bucketIndex) bucketBaseAddr count p with
    | .inr candidateAddr => some candidateAddr
    | .inl p => scanAllBuckets pages count rest next p

/-- `paging_alloc_pages` without the test. -/
def pagingAllocPagesPlain (count : ℕ) (s : Paging) : Word × Paging :=
  match scanAllBuckets s.pages count (List.range totalBucketCount) s.physPageBase
      ⟨0, s.physPageBase⟩ with
  | none => (0, s)
  | some candidateAddr => (candidateAddr + s.hhdmStart, markPages count candidateAddr s)

theorem scanAllBuckets_eq (s : Paging) (pages : ℕ → Word) (count n b : ℕ) (p : Progress Word) :
    scanAllBuckets pages count (List.range' b n) (pageAddr s (bucketSize * b)) p =
      (scan (pageBit pages) (pageAddr s) count (List.range' (bucketSize * b) (bucketSize * n))
        p).getRight? := by
  induction n generalizing b p with
  | zero => rfl
  | succ n ih =>
    have hnext : pageAddr s (bucketSize * b) + BitVec.ofNat 64 bucketSize * pageBytes =
        pageAddr s (bucketSize * (b + 1)) := pageAddr_add s (bucketSize * b) bucketSize
    have hsplit : List.range' (bucketSize * b) (bucketSize * (n + 1)) =
        (List.range bucketSize).map (bucketSize * b + ·) ++
          List.range' (bucketSize * (b + 1)) (bucketSize * n) := by
      rw [Nat.mul_succ, Nat.add_comm, ← List.range'_append_1, List.range'_eq_map_range, Nat.mul_succ]
    rw [List.range'_succ, scanAllBuckets, hnext, hsplit, scan_append, scanBucket_eq]
    cases scan (pageBit pages) (pageAddr s) count
      ((List.range bucketSize).map (bucketSize * b + ·)) p with
    | inl q => exact ih _ _
    | inr c => rfl

theorem scanAllBuckets_start (s : Paging) (count : ℕ) :
    scanAllBuckets s.pages count (List.range totalBucketCount) s.physPageBase
        ⟨0, s.physPageBase⟩ =
      (scan (pageBit s.pages) (pageAddr s) count (List.range maxPages)
        ⟨0, s.physPageBase⟩).getRight? := by
  have hbase : s.physPageBase = pageAddr s 0 := by simp [pageAddr]
  have hscan := scanAllBuckets_eq s s.pages count totalBucketCount 0 ⟨0, s.physPageBase⟩
  rwa [← List.range_eq_range', Nat.mul_zero, ← hbase, ← List.range_eq_range'] at hscan

/-! ### Where skipping makes no difference -/

/-- Page `k` is in use, lies in a bucket that is looked at, and is followed by
the first run that the skipping scan counts. -/
structure RunBehind (pages : ℕ → Word) (count k : ℕ) : Prop where
  used : pageBit pages k = false
  visited : pages (k / bucketSize) ≠ 0
  free : FreeRun pages count (k + 1)
  first : ¬HasRun count (((List.range k).filter fun i => decide (pages (i / bucketSize) ≠ 0)).map
    (pageBit pages))

/-- The skipping scan counts no run, or the first pages, or a run that does not
touch a skipped bucket. -/
def SkipHarmless (pages : ℕ → Word) (count : ℕ) : Prop :=
  ScanExact pages count ∨ ∃ k, RunBehind pages count k

/-- The answer and the bitmap are those of the scan of all pages. -/
def SameAsPlain (s : Paging) (count : ℕ) : Prop :=
  (pagingAllocPages count s).1 = (pagingAllocPagesPlain count s).1 ∧
    (pagingAllocPages count s).2.pages = (pagingAllocPagesPlain count s).2.pages

section Plain
variable {s : Paging} {pages : ℕ → Word} {count k : ℕ}

/-- The scan of all pages stops with page `k` as its candidate. -/
def PlainSelects (pages : ℕ → Word) (count k : ℕ) : Prop :=
  FirstRun (pageBit pages) id count (List.range maxPages) 0 0 k

theorem plainSelects_iff : PlainSelects pages count k ↔ k = 0 ∧ FirstPagesFree pages count ∨
    pageBit pages k = false ∧ FreeRun pages count (k + 1) ∧
      ¬HasRun count ((List.range k).map (pageBit pages)) := by
  have hiff : FirstRun (pageBit pages) id count ((List.range maxPages).filter fun _ => true) 0 0 k ↔
      _ := firstRun_filter_range_iff
  simp only [List.filter_true, and_true] at hiff
  rw [PlainSelects, hiff, List.range_eq_range', replicate_prefix_range'_iff,
    replicate_prefix_range'_iff]
  refine or_congr ?_ ⟨?_, ?_⟩
  · simp only [Nat.zero_add, FirstPagesFree]
  · intro ⟨hk, hused, ⟨hle, hall⟩, hno⟩
    exact ⟨hused, ⟨by omega, hall⟩, hno⟩
  · intro ⟨hused, ⟨hle, hall⟩, hno⟩
    exact ⟨by omega, hused, ⟨by omega, hall⟩, hno⟩

theorem PlainSelects.lt (h : PlainSelects pages count k) : k < maxPages := by
  rcases plainSelects_iff.1 h with ⟨rfl, _⟩ | ⟨_, hfree, _⟩
  · decide
  · have hle := hfree.1
    omega

/-- Such a run is counted by both scans, with the page in front of it as the
candidate. -/
theorem RunBehind.selects (h : RunBehind pages count k) :
    Selects pages count k ∧ PlainSelects pages count k := by
  obtain ⟨hfit, hall⟩ := h.free
  constructor
  · rw [Selects, visitedPages_eq, firstRun_filter_range_iff]
    refine Or.inr ⟨⟨by omega, decide_eq_true h.visited⟩, h.used, ?_, h.first⟩
    exact replicate_prefix_filter (by omega) hall fun i hi => decide_eq_true (bucket_ne_zero hi)
  · refine plainSelects_iff.2 (Or.inr ⟨h.used, h.free, fun hrun => h.first ?_⟩)
    exact hrun.filter fun i hi => decide_eq_true (bucket_ne_zero hi)

/-- Two scans with one candidate have counted one run. -/
theorem skipHarmless_of_selects (hc : 0 < count) (h : Selects pages count k)
    (hplain : PlainSelects pages count k) : SkipHarmless pages count := by
  rcases plainSelects_iff.1 hplain with ⟨_, hfirst⟩ | ⟨hused, hfree, _⟩
  · exact Or.inl (Or.inl hfirst)
  · rw [Selects, visitedPages_eq, firstRun_filter_range_iff] at h
    rcases h with ⟨rfl, _⟩ | ⟨⟨_, hvisited⟩, _, _, hfirst⟩
    · -- the run starts at page 1, in the bucket of page 0
      have hone : pages ((0 + 1 + 0) / bucketSize) ≠ 0 := bucket_ne_zero (hfree.2 0 hc)
      refine Or.inr ⟨0, hused, hone, hfree, ?_⟩
      exact not_hasRun_replicate (n := 0) hc
    · exact Or.inr ⟨k, hused, of_decide_eq_true hvisited, hfree, hfirst⟩

/-- With equal scans the calls do the same. -/
theorem sameAsPlain_of_scan_eq
    (h : scanBuckets s.pages count (List.range totalBucketCount) s.physPageBase
        ⟨0, s.physPageBase⟩ =
      scanAllBuckets s.pages count (List.range totalBucketCount) s.physPageBase
        ⟨0, s.physPageBase⟩) : SameAsPlain s count := by
  have hcall : pagingAllocPages count s = pagingAllocPagesPlain count s := by
    rw [pagingAllocPages, h]
    rfl
  rw [SameAsPlain, hcall]
  exact ⟨rfl, rfl⟩

theorem SkipHarmless.sameAsPlain (hc : 0 < count) (h : SkipHarmless s.pages count) :
    SameAsPlain s count := by
  have hboth : ∀ k, Selects s.pages count k → PlainSelects s.pages count k →
      SameAsPlain s count := by
    intro k hsel hplain
    apply sameAsPlain_of_scan_eq
    rw [(scanBuckets_some_iff s hc _).2 ⟨k, rfl, hsel⟩, scanAllBuckets_start]
    exact ((scan_some_iff s _ hc _).2 ⟨k, rfl, hplain⟩).symm
  rcases h with (hfirst | hno) | ⟨k, hrun⟩
  · exact hboth 0 hfirst.selects (plainSelects_iff.2 (Or.inl ⟨rfl, hfirst⟩))
  · apply sameAsPlain_of_scan_eq
    rw [(scanBuckets_none_iff s hc).2 hno, scanAllBuckets_start]
    exact ((scan_none_iff s _ hc).2 fun hrun => hno (hasRun_visited hrun)).symm
  · exact hboth k hrun.selects.1 hrun.selects.2

/-- Different answers of the scans are different addresses. -/
theorem SameAsPlain.skipHarmless (hnull : NoNullPage s) (hc : 0 < count)
    (h : SameAsPlain s count) : SkipHarmless s.pages count := by
  cases hscan : scanBuckets s.pages count (List.range totalBucketCount) s.physPageBase
      ⟨0, s.physPageBase⟩ with
  | none => exact Or.inl (Or.inr ((scanBuckets_none_iff s hc).1 hscan))
  | some c =>
    obtain ⟨k, rfl, hsel⟩ := (scanBuckets_some_iff s hc c).1 hscan
    have hk := hsel.lt
    have haddr := h.1
    rw [pagingAllocPages, hscan, pagingAllocPagesPlain] at haddr
    cases hplain : scanAllBuckets s.pages count (List.range totalBucketCount) s.physPageBase
        ⟨0, s.physPageBase⟩ with
    | none =>
      rw [hplain] at haddr
      exact absurd haddr (hnull k hk)
    | some c' =>
      rw [scanAllBuckets_start] at hplain
      obtain ⟨k', rfl, hsel'⟩ := (scan_some_iff s _ hc c').1 hplain
      have hk' := PlainSelects.lt hsel'
      rw [scanAllBuckets_start, hplain] at haddr
      have hidx : pageIndex s (pageAddr s k + s.hhdmStart) =
          pageIndex s (pageAddr s k' + s.hhdmStart) := congrArg (pageIndex s) haddr
      simp only [maxPages] at hk hk'
      rw [pageIndex_pageAddr s (by omega), pageIndex_pageAddr s (by omega)] at hidx
      subst hidx
      exact skipHarmless_of_selects hc hsel hsel'

end Plain

/-- **Skipping full buckets** is only an optimisation when the run that is
counted touches no skipped bucket. -/
theorem skipping_sameAsPlain_iff (s : Paging) {count : ℕ} (hc : 1 ≤ count) :
    (SkipHarmless s.pages count → SameAsPlain s count) ∧
      (NoNullPage s → SameAsPlain s count → SkipHarmless s.pages count) :=
  ⟨fun h => h.sameAsPlain hc, fun hnull h => h.skipHarmless hnull hc⟩

/-- With the first page in use the run of two pages lies behind it. -/
theorem skipping_sameAsPlain_iff_firstPageUsed : SameAsPlain firstPageUsed 2 := by
  refine (skipping_sameAsPlain_iff firstPageUsed (by decide)).1 (Or.inr ⟨0, ?_⟩)
  exact ⟨by decide, by decide, ⟨by decide, by decide⟩, not_hasRun_replicate (n := 0) (by decide)⟩

/-- The first bucket in use, the others free. -/
def firstBucketUsed : Paging := { firstPageUsed with pages := fun b =>
  if b = 0 then 0 else 0xFFFFFFFFFFFFFFFF#64 }

/-- The skipping scan answers page 0, the scan of all pages page 63. -/
theorem skipping_differs : ¬∀ (s : Paging) (count : ℕ), 1 ≤ count → SameAsPlain s count := by
  intro h
  have haddr : (pagingAllocPages 1 firstBucketUsed).1 = 0xFFFF800001000000#64 := by decide +kernel
  have hplain : (pagingAllocPagesPlain 1 firstBucketUsed).1 = 0xFFFF800008E00000#64 := by
    decide +kernel
  have hsame := (h firstBucketUsed 1 le_rfl).1
  rw [haddr, hplain] at hsame
  exact absurd hsame (by decide)

end Ssos
