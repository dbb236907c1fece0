import Ssos.Mem.TablePool

/-!
# The frame allocator after the boot

As long as nothing is freed, the pages in use are the first ones. The scan then
stops in front of the free pages behind them, at the last page in use, or at
page 0 when the pages in use fill whole buckets. So every request but the
first is given a page that an earlier request was given.

## Main results

- `UsedUpTo.alloc` — one request behind the pages in use
- `handOuts_of_boot` — the answers to all requests after the initialisation
-/

namespace Ssos

open RunScan PartialRun

/-- The first `used` pages are in use, the others of the `n` pages are free. -/
def UsedUpTo (n used : ℕ) (pages : ℕ → Word) : Prop :=
  ∀ i < n, pageBit pages i = decide (used ≤ i)

/-- Where the scan stops behind `used` pages. -/
def pageInFront (used : ℕ) : ℕ := if used % bucketSize = 0 then 0 else used - 1

/-- The number of pages in use after one more request. -/
def usedAfter (used count : ℕ) : ℕ := max used (pageInFront used + count)

def usedStep (used count : ℕ) : Option ℕ := some (usedAfter used count)

/-- The request asks for no more pages than are free. -/
def FitsBehind (n used count : ℕ) : Prop := 1 ≤ count ∧ used + count ≤ n

instance (n used count : ℕ) : Decidable (FitsBehind n used count) :=
  inferInstanceAs (Decidable (_ ∧ _))

/-- The requests with the page each is answered with, when `used` pages are in use. -/
def bootHandOuts : ℕ → List ℕ → List (ℕ × ℕ)
  | _, [] => []
  | used, count :: counts => (pageInFront used, count) :: bootHandOuts (usedAfter used count) counts

/-- The requests with the address each is answered with. -/
def handOuts : Paging → List ℕ → List (Word × ℕ)
  | _, [] => []
  | s, count :: counts =>
    ((pagingAllocPages count s).1, count) :: handOuts (pagingAllocPages count s).2 counts

/-! ### One request -/

section Request
variable {n used count : ℕ} {pages : ℕ → Word} {s : Paging}

theorem pageInFront_le (used : ℕ) : pageInFront used ≤ used := by
  rw [pageInFront]
  split <;> omega

theorem pageInFront_lt (hpos : 0 < used) : pageInFront used < used := by
  rw [pageInFront]
  split <;> omega

/-- A bucket whose pages are all in use is zero. -/
theorem bucket_eq_zero {b : ℕ} (h : ∀ i, i / bucketSize = b → pageBit pages i = false) :
    pages b = 0 := by
  apply BitVec.eq_of_getLsbD_eq
  intro r hr
  have hbit := h (bucketSize * b + r) (by rw [bucketSize_eq]; omega)
  rw [pageBit, bucketSize_eq, show (64 * b + r) / 64 = b by omega,
    show (64 * b + r) % 64 = r by omega] at hbit
  rw [hbit]
  exact BitVec.getLsbD_zero.symm

theorem UsedUpTo.not_hasRun (h : UsedUpTo n used pages) (hn : used ≤ n) (hc : 0 < count) {m : ℕ}
    (hm : m ≤ used) (keep : ℕ → Bool) :
    ¬HasRun count (((List.range m).filter keep).map (pageBit pages)) := by
  intro hrun
  have hmem := hrun.subset (List.mem_replicate.2 ⟨by omega, rfl⟩)
  obtain ⟨i, hi, hbit⟩ := List.mem_map.1 hmem
  have hlt := List.mem_range.1 (List.mem_of_mem_filter hi)
  rw [h i (by omega), decide_eq_true_eq] at hbit
  omega

/-- The free pages behind those in use are the first run that the scan counts. -/
theorem UsedUpTo.prefix_behind (h : UsedUpTo n used pages) (hn : n ≤ maxPages)
    (hfit : FitsBehind n used count) : List.replicate count true <+:
      ((List.range' used (maxPages - used)).filter fun i => decide (pages (i / bucketSize) ≠ 0)).map
        (pageBit pages) := by
  obtain ⟨_, hle⟩ := hfit
  apply replicate_prefix_filter (by omega)
  · intro i hi
    rw [h (used + i) (by omega)]
    exact decide_eq_true (Nat.le_add_right used i)
  · exact fun i hi => decide_eq_true (bucket_ne_zero hi)

/-- **The scan** stops in front of the free pages. -/
theorem UsedUpTo.selects (h : UsedUpTo n used pages) (hn : n ≤ maxPages)
    (hfit : FitsBehind n used count) : Selects pages count (pageInFront used) := by
  have hbehind := h.prefix_behind hn hfit
  obtain ⟨hc, hle⟩ := hfit
  rw [Selects, visitedPages_eq, firstRun_filter_range_iff, pageInFront]
  by_cases hfull : used % bucketSize = 0
  · -- whole buckets are in use and are skipped, so the run is in front of the list
    rw [if_pos hfull]
    have hskip : ((List.range used).filter fun i => decide (pages (i / bucketSize) ≠ 0)) = [] := by
      refine List.filter_eq_nil_iff.2 fun i hi => ?_
      rw [decide_eq_true_eq]
      refine not_not.2 (bucket_eq_zero fun j hj => ?_)
      have hlt := List.mem_range.1 hi
      rw [bucketSize_eq] at hfull hj
      rw [h j (by omega), decide_eq_false_iff_not]
      omega
    have hsplit : List.range maxPages = List.range used ++ List.range' used (maxPages - used) := by
      obtain ⟨m, hm⟩ := Nat.exists_eq_add_of_le (show used ≤ maxPages by omega)
      rw [hm, List.range_eq_range', List.range_eq_range', ← List.range'_append_1, Nat.zero_add,
        Nat.add_sub_cancel_left]
    refine Or.inl ⟨rfl, ?_⟩
    rw [hsplit, List.filter_append, hskip, List.nil_append]
    exact hbehind
  · rw [if_neg hfull]
    have hbucket : (used - 1) / bucketSize = used / bucketSize := by
      rw [bucketSize_eq] at hfull ⊢
      omega
    have hpos : 0 < used := Nat.pos_of_ne_zero fun hz => hfull (by rw [hz]; rfl)
    have hfree : pageBit pages used = true := by
      rw [h used (by omega)]
      exact decide_eq_true le_rfl
    refine Or.inr ⟨⟨by omega, ?_⟩, ?_, ?_, h.not_hasRun (by omega) hc (Nat.sub_le used 1) _⟩
    · rw [hbucket]
      exact decide_eq_true (bucket_ne_zero hfree)
    · rw [h (used - 1) (by omega), decide_eq_false_iff_not]
      omega
    · rw [show used - 1 + 1 = used by omega, show maxPages - (used - 1) - 1 = maxPages - used by omega]
      exact hbehind

/-- **Step lemma.** One request behind the pages in use. -/
theorem UsedUpTo.alloc (h : UsedUpTo n used s.pages) (hn : n ≤ maxPages)
    (hfit : FitsBehind n used count) :
    (pagingAllocPages count s).1 = pageAddr s (pageInFront used) + s.hhdmStart ∧
      SameStatics s (pagingAllocPages count s).2 ∧
      UsedUpTo n (usedAfter used count) (pagingAllocPages count s).2.pages := by
  have hfront := pageInFront_le used
  have hscan := (scanBuckets_some_iff s hfit.1 _).2 ⟨_, rfl, h.selects hn hfit⟩
  have hsmall : pageInFront used + count ≤ 2 ^ 43 := by
    have hle := hfit.2
    simp only [maxPages] at hn
    omega
  obtain ⟨haddr, hstat, hbits⟩ := pagingAllocPages_some hsmall hscan
  refine ⟨haddr, hstat, fun i hi => ?_⟩
  rw [hbits, h i hi, ← decide_not, ← Bool.decide_and, usedAfter]
  apply decide_eq_decide.2
  omega

end Request

/-! ### All requests -/

/-- The first `used` pages have been handed out. -/
def CoveredBy (used : ℕ) (given : List (ℕ × ℕ)) : Prop :=
  ∀ i < used, ∃ g ∈ given, g.1 ≤ i ∧ i < g.1 + g.2

section Run
variable {n used : ℕ} {s : Paging} {given : List (ℕ × ℕ)}

theorem CoveredBy.snoc (h : CoveredBy used given) (count : ℕ) :
    CoveredBy (usedAfter used count) (given ++ [(pageInFront used, count)]) := by
  intro i hi
  by_cases hold : i < used
  · obtain ⟨g, hg, hin⟩ := h i hold
    exact ⟨g, List.mem_append_left _ hg, hin⟩
  · have hle := pageInFront_le used
    rw [usedAfter] at hi
    exact ⟨_, List.mem_append_right given List.mem_cons_self, by omega, by omega⟩

/-- Behind some pages in use every request is given one of them. -/
theorem bootHandOuts_overlap (hcover : CoveredBy used given) (hused : given ≠ [] → 0 < used)
    {counts : List ℕ} (hfit : Along usedStep (FitsBehind n) used counts) {before after : List (ℕ × ℕ)}
    {g : ℕ × ℕ} (h : bootHandOuts used counts = before ++ g :: after) (hne : given ++ before ≠ []) :
    ∃ e ∈ given ++ before, e.1 ≤ g.1 ∧ g.1 < e.1 + e.2 := by
  induction counts generalizing used given before with
  | nil => exact absurd h.symm (by simp [bootHandOuts])
  | cons count counts ih =>
    rw [bootHandOuts] at h
    cases before with
    | nil =>
      obtain ⟨rfl, _⟩ := List.cons.inj h
      rw [List.append_nil] at hne ⊢
      exact hcover _ (pageInFront_lt (hused hne))
    | cons g₀ before =>
      obtain ⟨rfl, hrest⟩ := List.cons.inj h
      have hpos : 0 < usedAfter used count := by
        have hc := hfit.1.1
        rw [usedAfter]
        omega
      have hnext := ih (hcover.snoc count) (fun _ => hpos) (hfit.2 _ rfl) hrest (by simp)
      rwa [List.append_assoc, List.singleton_append] at hnext

/-- **Run lemma.** The answers are those behind the pages in use. -/
theorem UsedUpTo.handOuts_eq (h : UsedUpTo n used s.pages) (hn : n ≤ maxPages) {counts : List ℕ}
    (hfit : Along usedStep (FitsBehind n) used counts) :
    handOuts s counts =
      (bootHandOuts used counts).map fun g => (pageAddr s g.1 + s.hhdmStart, g.2) := by
  induction counts generalizing used s with
  | nil => rfl
  | cons count counts ih =>
    obtain ⟨haddr, hstat, hnext⟩ := h.alloc hn hfit.1
    rw [handOuts, bootHandOuts, List.map_cons, haddr, ih hnext (hfit.2 _ rfl), hstat.hhdmStart]
    simp only [hstat.pageAddr_eq]

end Run

section Boot
variable {undefinedShift : ℕ → Word} {cr3 : Word} {kernel : KernelImage}
  {mmapEntries : List LimineMemmapEntry} {hhOff : Word} {s boot : Paging}

/-- The region that is recorded, and no page of it is in use. -/
structure FreshRegion (hhOff : Word) (boot : Paging) : Prop where
  base : ∃ a, boot.physPageBase = pageWord a
  hhdmStart : boot.hhdmStart = hhOff
  count_ge : 2 ≤ boot.presentPageCount
  count_le : boot.presentPageCount ≤ maxPages
  used : UsedUpTo boot.presentPageCount 0 boot.pages

/-- After the initialisation no page is in use. -/
theorem freshRegion_of_init
    (hinit : initFrameAllocatorOr undefinedShift cr3 kernel mmapEntries hhOff s = (0, boot)) :
    FreshRegion hhOff boot := by
  have hselect := selectRegion_eq kernel hhOff mmapEntries
  cases hmax : (usableRanges kernel hhOff mmapEntries).argmax rangeLength with
  | none =>
    rw [hmax] at hselect
    have hret := initFrameAllocatorOr_of_not_found undefinedShift cr3 s hselect
    rw [hinit] at hret
    exact absurd hret (show (0 : ℤ) ≠ -1 by decide)
  | some range =>
    rw [hmax] at hselect
    obtain ⟨e, _, hrange⟩ := List.mem_filterMap.1 (List.argmax_mem hmax)
    obtain ⟨hnone, _⟩ | ⟨a, b, hab, hb, hsome, _⟩ := usableRange_cases kernel hhOff e
    · exact absurd (hnone.symm.trans hrange) (Option.some_ne_none range).symm
    · obtain rfl := Option.some_inj.1 (hsome.symm.trans hrange)
      simp only at hselect
      rw [pageWord_sub hb (by omega)] at hselect
      obtain ⟨_, hbase, hcount⟩ :=
        initFrameAllocatorOr_of_found undefinedShift cr3 s (by omega) hselect
      rw [hinit] at hbase hcount
      rw [initFrameAllocatorOr, hselect] at hinit
      have hboot : _ = boot := congrArg Prod.snd hinit
      simp only at hbase hcount
      have hpages : boot.pages =
          (List.range boot.presentPageCount).foldl (markFreeOr undefinedShift) s.pages := by
        rw [← hboot]
        rfl
      refine ⟨⟨a, hbase⟩, ?_, ?_, ?_, ?_⟩
      · rw [← hboot]
        rfl
      · rw [hcount]
        exact le_min (by omega) (by decide)
      · rw [hcount]
        exact min_le_right _ _
      · intro i hi
        rw [hpages, pageBit_marked undefinedShift hi]
        exact (decide_eq_true (Nat.zero_le i)).symm

/-- **Every answer but the first overlaps an earlier one.** After the
initialisation, requests that fit in the free pages are answered with the last
page in use or with page 0, and the first page of every answer but the first
belongs to an earlier one. -/
theorem handOuts_of_boot
    (hinit : initFrameAllocatorOr undefinedShift cr3 kernel mmapEntries hhOff s = (0, boot))
    {counts : List ℕ} (hfit : Along usedStep (FitsBehind boot.presentPageCount) 0 counts) :
    handOuts boot counts =
        (bootHandOuts 0 counts).map (fun g => (pageAddr boot g.1 + boot.hhdmStart, g.2)) ∧
      ∀ before g after, handOuts boot counts = before ++ g :: after → before ≠ [] →
        ∃ e ∈ before, ∃ i < e.2, g.1 = e.1 + BitVec.ofNat 64 i * pageBytes := by
  have hfresh := freshRegion_of_init hinit
  have hrun := hfresh.used.handOuts_eq hfresh.count_le hfit
  refine ⟨hrun, fun before g after h hne => ?_⟩
  rw [hrun] at h
  obtain ⟨before', rest, hsplit, rfl, hrest⟩ := List.map_eq_append_iff.1 h
  obtain ⟨g', after', rfl, rfl, rfl⟩ := List.map_eq_cons_iff.1 hrest
  have hcover : CoveredBy 0 [] := fun i hi => absurd hi (Nat.not_lt_zero i)
  have hne' : ([] : List (ℕ × ℕ)) ++ before' ≠ [] := by simpa using hne
  obtain ⟨e, he, hlow, hhigh⟩ :=
    bootHandOuts_overlap hcover (fun hnil => absurd rfl hnil) hfit hsplit hne'
  refine ⟨_, List.mem_map_of_mem he, g'.1 - e.1, by simp only; omega, ?_⟩
  have hpage : pageAddr boot g'.1 =
      pageAddr boot e.1 + BitVec.ofNat 64 (g'.1 - e.1) * pageBytes := by
    rw [pageAddr_add, Nat.add_sub_cancel' hlow]
  simp only
  rw [hpage, BitVec.add_assoc, BitVec.add_comm _ boot.hhdmStart, ← BitVec.add_assoc]

end Boot

/-- The region of `lowMemory` behind a kernel of one page. -/
def lowRegion : Paging :=
  (initFrameAllocatorOr (fun _ => 0) 0x1000#64 ⟨0xFFFF800001000000#64, 0xFFFF800001200000#64⟩
    lowMemory 0xFFFF800000000000#64 noTables).2

theorem lowRegion_init : initFrameAllocatorOr (fun _ => 0) 0x1000#64
    ⟨0xFFFF800001000000#64, 0xFFFF800001200000#64⟩ lowMemory 0xFFFF800000000000#64 noTables =
      (0, lowRegion) :=
  Prod.ext (by decide) rfl

/-- Three requests on this region. -/
theorem handOuts_of_boot_lowRegion :
    handOuts lowRegion [1, 2, 3] = (bootHandOuts 0 [1, 2, 3]).map
        (fun g => (pageAddr lowRegion g.1 + lowRegion.hhdmStart, g.2)) ∧
      ∀ before g after, handOuts lowRegion [1, 2, 3] = before ++ g :: after → before ≠ [] →
        ∃ e ∈ before, ∃ i < e.2, g.1 = e.1 + BitVec.ofNat 64 i * pageBytes :=
  handOuts_of_boot lowRegion_init (by decide)

/-- Single pages are answered with the same page each time. -/
example : bootHandOuts 0 [1, 1, 1, 2, 3] = [(0, 1), (0, 1), (0, 1), (0, 2), (1, 3)] := by decide

end Ssos
