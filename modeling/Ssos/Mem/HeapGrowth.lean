import Ssos.Mem.KernelMemory

/-!
# How the heap grows after the boot

The frame allocator answers each turn of the growth loop with a run that
starts with the last page of the run before, and the first turn with the page
that the heap already has. So the first request that does not fit in a page is
given a block over all blocks in use.

## Main results

- `heapRuns_of_boot` — each run of the heap starts in the run before it
- `firstGrowth_of_boot` — the first large request after any small ones
-/

namespace Ssos

open ByteMemory Buddy PartialRun

/-! ### The runs of the heap -/

/-- The page that run `i` of the heap starts with. -/
def bootPage (i : ℕ) : ℕ := 2 ^ i - i - 1

/-- Run `i`, when the first page is at `base`. -/
def bootRun (base i : ℕ) : Window := ⟨base + bootPage i * pageSize, log2PageSize + i⟩

/-- The runs after `j` turns of the growth loop, the newest first. -/
def bootRuns (base : ℕ) : ℕ → List Window
  | 0 => [bootRun base 0]
  | j + 1 => bootRun base (j + 1) :: bootRuns base j

/-- The heap after `j` turns of the growth loop since the boot. -/
structure GrownTo (base n j : ℕ) (h : Heap) (frames : Paging) : Prop where
  sizes : SizesOk h
  level : h.highestLevel = 18 + j
  runs : h.runs = bootRuns base j
  used : UsedUpTo n (bootPage (j + 1) + 1) frames.pages
  first : frames.firstAddr = base

section Runs
variable {base n i j : ℕ} {h h' : Heap} {frames : Paging}

theorem bootPage_add (i : ℕ) : bootPage i + i + 1 = 2 ^ i := by
  have hpow : i < 2 ^ i := Nat.lt_two_pow_self
  rw [bootPage]
  omega

theorem bootPage_succ (i : ℕ) : bootPage (i + 1) + 1 = bootPage i + 2 ^ i := by
  have hthis := bootPage_add i
  have hnext := bootPage_add (i + 1)
  rw [pow_succ] at hnext
  omega

/-- The last page of a run is the first one of the next. -/
theorem bootRun_overlap (base i : ℕ) :
    (bootRun base (i + 1)).addr + pageSize = (bootRun base i).stop := by
  have hstop : (bootRun base i).stop = base + bootPage i * pageSize + 2 ^ (log2PageSize + i) := rfl
  have hsize : 2 ^ (log2PageSize + i) = 2 ^ i * pageSize := by
    rw [pow_add, Nat.mul_comm]
    rfl
  rw [hstop, hsize, Nat.add_assoc, ← Nat.add_mul, ← bootPage_succ, Nat.add_mul, Nat.one_mul,
    ← Nat.add_assoc]
  rfl

theorem bootRuns_chain (base j : ℕ) :
    (bootRuns base j).IsChain fun newer older => newer.addr + pageSize = older.stop := by
  induction j with
  | zero => exact List.isChain_singleton _
  | succ j ih =>
    cases j with
    | zero => exact List.isChain_pair.2 (bootRun_overlap base 0)
    | succ j => exact List.isChain_cons_cons.2 ⟨bootRun_overlap base (j + 1), ih⟩

/-- The managed pages cover the runs of ten turns at most. -/
theorem turns_le (hj : 2 ^ (j + 1) ≤ maxPages + j) : j ≤ 10 := by
  by_contra hlarge
  obtain ⟨k, rfl⟩ := Nat.exists_eq_add_of_lt (not_le.1 hlarge)
  have hpow : k < 2 ^ k := Nat.lt_two_pow_self
  have hsplit : 2 ^ (10 + k + 1 + 1) = 4096 * 2 ^ k := by
    rw [show 10 + k + 1 + 1 = 12 + k by omega, pow_add]
    rfl
  simp only [maxPages] at hj
  omega

/-- The runs leave no bucket full. -/
theorem pageInFront_bootPage (hj : 2 ^ (j + 2) ≤ maxPages + j + 1) :
    pageInFront (bootPage (j + 1) + 1) = bootPage (j + 1) := by
  have hsmall : j + 1 ≤ 10 := turns_le hj
  have hall : ∀ j < 10, (bootPage (j + 1) + 1) % bucketSize ≠ 0 := by decide
  rw [pageInFront, if_neg (hall j hsmall), Nat.add_sub_cancel]

theorem fitsBehind_bootPage (hfit : 2 ^ (j + 2) ≤ n + j + 1) :
    FitsBehind n (bootPage (j + 1) + 1) (2 ^ (j + 1)) := by
  have hpage := bootPage_add (j + 1)
  have hone : 1 ≤ 2 ^ (j + 1) := Nat.one_le_two_pow
  rw [pow_succ] at hfit
  exact ⟨hone, by omega⟩

/-- A turn below the last one fits if the last one does. -/
theorem fits_of_lt {J : ℕ} (hlt : j < J) (hfit : 2 ^ (J + 1) ≤ n + J) :
    2 ^ (j + 2) ≤ n + j + 1 := by
  obtain ⟨k, rfl⟩ := Nat.exists_eq_add_of_lt hlt
  have hpow : k < 2 ^ k := Nat.lt_two_pow_self
  have hone : 1 ≤ 2 ^ (j + 2) := Nat.one_le_two_pow
  have hsplit : 2 ^ (j + k + 1 + 1) = 2 ^ (j + 2) * 2 ^ k := by
    rw [← pow_add]
    congr 1
    omega
  rw [hsplit] at hfit
  have hmul : 2 ^ (j + 2) + k ≤ 2 ^ (j + 2) * 2 ^ k := by
    obtain ⟨c, hc⟩ := Nat.exists_eq_add_of_le hone
    obtain ⟨d, hd⟩ := Nat.exists_eq_add_of_lt hpow
    rw [hc, hd]
    nlinarith
  omega

theorem GrownTo.sameSizes (hg : GrownTo base n j h frames) (hsame : SameSizes h h') :
    GrownTo base n j h' frames where
  sizes := by
    refine ⟨?_, ?_, ?_⟩
    · exact hsame.highestLevel ▸ hg.sizes.level_ge
    · exact hsame.highestLevel ▸ hg.sizes.level_lt
    · rw [hsame.highestBlockSize, hsame.highestLevel, hg.sizes.size_eq]
  level := hsame.highestLevel.trans hg.level
  runs := hsame.runs.trans hg.runs
  used := hg.used
  first := hg.first

/-- What the frame allocator answers to the next turn. -/
theorem GrownTo.alloc (hg : GrownTo base n j h frames) (hn : n ≤ maxPages)
    (hle : base + maxPages * 0x200000 ≤ 2 ^ 64) (hfit : 2 ^ (j + 2) ≤ n + j + 1) :
    (pagingAllocPages (2 ^ (j + 1)) frames).1.toNat = (bootRun base (j + 1)).addr ∧
      UsedUpTo n (bootPage (j + 2) + 1) (pagingAllocPages (2 ^ (j + 1)) frames).2.pages ∧
      (pagingAllocPages (2 ^ (j + 1)) frames).2.firstAddr = base := by
  have hfits := fitsBehind_bootPage hfit
  obtain ⟨haddr, hstat, hused⟩ := hg.used.alloc hn hfits
  have hfront := pageInFront_bootPage (hfit.trans (Nat.add_le_add_right (Nat.add_le_add_right hn j) 1))
  have hlt : bootPage (j + 1) < maxPages :=
    Nat.lt_of_succ_le (((Nat.le_add_right _ _).trans hfits.2).trans hn)
  refine ⟨?_, ?_, ?_⟩
  · have hfirst := hg.first
    rw [Paging.firstAddr] at hfirst
    rw [haddr, hfront, toNat_pageAddr (by rw [hfirst]; exact hle) hlt, hfirst]
    rfl
  · have hmax : bootPage (j + 1) + 1 ≤ bootPage (j + 1) + 2 ^ (j + 1) :=
      Nat.add_le_add_left hfits.1 _
    rwa [usedAfter, hfront, max_eq_right hmax, ← bootPage_succ] at hused
  · rw [Paging.firstAddr, hstat.physPageBase, hstat.hhdmStart]
    exact hg.first

/-- **Step lemma.** One turn of the growth loop. -/
theorem GrownTo.turn (hg : GrownTo base n j h frames) (hn : n ≤ maxPages) (hpos : 0 < base)
    (hle : base + maxPages * 0x200000 ≤ 2 ^ 64) (hfit : 2 ^ (j + 2) ≤ n + j + 1) (hj : j < 15) :
    let answer := pagingAllocPages (h.highestBlockSize * 2 / pageSize) frames
    growStep (fun _ => answer.1.toNat) h =
        (true, h.raised.withRun (bootRun base (j + 1)).addr) ∧
      GrownTo base n (j + 1) (h.raised.withRun (bootRun base (j + 1)).addr) answer.2 := by
  intro answer
  have hcount : h.highestBlockSize * 2 / pageSize = 2 ^ (j + 1) := by
    rw [hg.sizes.count_eq, hg.level]
    congr 1
    omega
  have hanswer : answer = pagingAllocPages (2 ^ (j + 1)) frames := by rw [← hcount]
  obtain ⟨haddr, hused, hfirst⟩ := hg.alloc hn hle hfit
  have hlevel : h.highestLevel + 1 < 34 := by
    have hl := hg.level
    omega
  rw [hanswer, haddr]
  constructor
  · have hne : (grantAt (fun _ => (bootRun base (j + 1)).addr) (h.highestLevel + 1)).addr ≠ 0 :=
      Nat.ne_of_gt (Nat.add_pos_left hpos _)
    exact growStep_granted hg.sizes hne
  · refine ⟨(hg.sizes.raised hlevel).withRun _, ?_, ?_, hused, hfirst⟩
    · rw [withRun_highestLevel, raised_highestLevel, hg.level, Nat.add_assoc]
    · have hruns : (h.raised.withRun (bootRun base (j + 1)).addr).runs =
          ⟨(bootRun base (j + 1)).addr, h.highestLevel + 1 + 3⟩ :: h.runs := rfl
      rw [hruns, hg.runs, hg.level, bootRuns, bootRun]
      congr 2
      simp only [log2PageSize]
      omega

/-- **The growth loop** is granted every run that it asks for. -/
theorem GrownTo.loop {J bytes levels : ℕ} (hg : GrownTo base n j h frames) (hn : n ≤ maxPages)
    (hpos : 0 < base) (hle : base + maxPages * 0x200000 ≤ 2 ^ 64) (hfit : 2 ^ (J + 1) ≤ n + J)
    (hJ : J ≤ 10) (hbytes : bytes ≤ 2 ^ (21 + J)) (hj : j ≤ J) (hlevels : J < j + levels) :
    ∃ j' ≤ J, (growFrames bytes levels h frames).1 = true ∧
      GrownTo base n j' (growFrames bytes levels h frames).2.1
        (growFrames bytes levels h frames).2.2 := by
  induction levels generalizing j h frames with
  | zero => omega
  | succ levels ih =>
    rw [growFrames]
    by_cases hlarge : bytes > h.highestBlockSize
    · have hlt : j < J := by
        by_contra hge
        obtain rfl : j = J := Nat.le_antisymm hj (not_lt.1 hge)
        rw [hg.sizes.size_eq, hg.level, show 18 + j + 3 = 21 + j by omega] at hlarge
        omega
      have hturn := fits_of_lt hlt hfit
      have hlevel : ¬h.highestLevel + 1 ≥ memBlocksMaxLevelCount := by
        rw [hg.level, memBlocksMaxLevelCount]
        omega
      obtain ⟨hstep, hg'⟩ := hg.turn hn hpos hle hturn (by omega)
      rw [if_pos hlarge, if_neg hlevel]
      simp only
      rw [hstep]
      exact ih hg' hlt (by omega)
    · rw [if_neg hlarge]
      exact ⟨j, hj, rfl, hg⟩

end Runs

/-! ### Runs from the boot on -/

section Boot
variable {undefinedShift : ℕ → Word} {cr3 : Word} {kernel : KernelImage}
  {mmapEntries : List LimineMemmapEntry} {hhOff : Word} {s region : Paging} {mem : Mem}
  {boot m m' : KernelMemory} {base n J bytes : ℕ}

/-- The memory after at most `J` turns. -/
def GrownWithin (base n J : ℕ) (m : KernelMemory) : Prop :=
  ∃ j ≤ J, GrownTo base n j m.state.heap m.frames

theorem Booted.grownTo (hb : Booted region mem boot) : GrownTo region.firstAddr
    region.presentPageCount 0 boot.state.heap boot.frames := by
  have hstart : (kallocInit region.firstAddr (Heap.initial mem)).2 =
      (Heap.initial mem).withRun region.firstAddr := by
    rw [kallocInit, if_neg hb.pos.ne']
    rfl
  have hheap : boot.state.heap = (Heap.initial mem).withRun region.firstAddr := by
    rw [hb.state, HeapState.start, hstart]
  rw [hheap]
  refine ⟨(initial_ok mem).repr.sizesOk.withRun _, rfl, ?_, hb.used, hb.first⟩
  have hzero : bootPage 0 = 0 := rfl
  rw [bootRuns, bootRun, hzero, Nat.zero_mul, Nat.add_zero]
  rfl

/-- **Step lemma.** Whatever is called, the runs are those of the growth loop. -/
theorem GrownWithin.step (hg : GrownWithin base n J m) (hn : n ≤ maxPages)
    (hpos : 0 < base) (hle : base + maxPages * 0x200000 ≤ 2 ^ 64) (hfit : 2 ^ (J + 1) ≤ n + J)
    (hJ : J ≤ 10) {op : MemOp} (hop : ∀ bytes, op = .kmalloc bytes → bytes + metaSize ≤ 2 ^ (21 + J))
    (hstep : memStep m op = some m') : GrownWithin base n J m' := by
  obtain ⟨j, hj, hg⟩ := hg
  cases op with
  | kmalloc bytes =>
    rw [memStep, kmallocFrames] at hstep
    by_cases hz : bytes = 0
    · rw [if_pos hz] at hstep
      obtain rfl := Option.some_inj.1 hstep
      exact ⟨j, hj, hg⟩
    · have hbytes : (bytes + metaSize) % 2 ^ 64 ≤ 2 ^ (21 + J) :=
        (Nat.mod_le _ _).trans (hop bytes rfl)
      have hlevels : J < j + (memBlocksMaxLevelCount - m.state.heap.highestLevel) := by
        rw [hg.level, memBlocksMaxLevelCount]
        omega
      obtain ⟨j', hj', hgranted, hg'⟩ := hg.loop hn hpos hle hfit hJ hbytes hj hlevels
      rw [if_neg hz] at hstep
      simp only at hstep
      generalize growFrames ((bytes + metaSize) % 2 ^ 64)
        (memBlocksMaxLevelCount - m.state.heap.highestLevel) m.state.heap m.frames = res
        at hstep hgranted hg'
      obtain ⟨granted, h', frames'⟩ := res
      simp only at hstep hgranted hg'
      rw [hgranted] at hstep
      simp only at hstep
      cases hres : allocLevel ((bytes + metaSize) % 2 ^ 64) h' with
      | none =>
        rw [hres] at hstep
        exact absurd hstep.symm (Option.some_ne_none m')
      | some res =>
        rw [hres] at hstep
        obtain rfl := Option.some_inj.1 hstep
        exact ⟨j', hj', hg'.sameSizes (sameSizes_allocLevel hres)⟩
  | kfree ptr =>
    obtain ⟨state, hstate, rfl⟩ := Option.map_eq_some_iff.1 hstep
    obtain ⟨f, hres, rfl⟩ := kfree_of_step hstate
    exact ⟨j, hj, hg.sameSizes (sameSizes_kfree hres)⟩
  | write addr value =>
    obtain rfl := Option.some_inj.1 hstep
    exact ⟨j, hj, hg.sameSizes ⟨rfl, rfl, rfl⟩⟩

/-- **Each run of the heap starts in the run before it.** From the boot on,
whatever the callers do, as long as the free pages cover the growth: the runs
that the heap has obtained are known, and the last page of each is the first
page of the next. -/
theorem heapRuns_of_boot
    (hinit : initFrameAllocatorOr undefinedShift cr3 kernel mmapEntries hhOff s = (0, region))
    (hle : region.firstAddr + maxPages * 0x200000 ≤ 2 ^ 64)
    (hboot : bootHeap mem region = some boot) (hfit : 2 ^ (J + 1) ≤ region.presentPageCount + J)
    {ops : List MemOp} (hops : ∀ bytes, .kmalloc bytes ∈ ops → bytes + metaSize ≤ 2 ^ (21 + J))
    (hexec : exec memStep boot ops = some m) :
    ∃ j ≤ J, m.state.heap.highestLevel = 18 + j ∧
      m.state.heap.runs = bootRuns region.firstAddr j ∧
      m.state.heap.runs.IsChain fun newer older => newer.addr + pageSize = older.stop := by
  have hf := freshRegion_of_init hinit
  have hb := hf.booted hle hboot
  have hJ : J ≤ 10 := turns_le (hfit.trans (Nat.add_le_add_right hf.count_le J))
  have hstart : GrownWithin region.firstAddr region.presentPageCount J boot :=
    ⟨0, Nat.zero_le J, hb.grownTo⟩
  have hinv : GrownWithin region.firstAddr region.presentPageCount J m := by
    refine exec_keeps ?_ hstart hexec
    intro op hop m m' hg hstep
    exact hg.step hf.count_le hb.pos hle hfit hJ (fun bytes he => hops bytes (he ▸ hop)) hstep
  obtain ⟨j, hj, hg⟩ := hinv
  refine ⟨j, hj, hg.level, hg.runs, ?_⟩
  rw [hg.runs]
  exact bootRuns_chain _ j

/-! ### The first large request -/

/-- The size class of what fits two pages and not one. -/
theorem logb_twoPages (hlow : 2 ^ 21 < bytes + 16) (hhigh : bytes + 16 ≤ 2 ^ 22) :
    logb (roundPow2Boundary (bytes + 16)) = some (19 + 3) := by
  rw [logb_roundPow2Boundary (by omega) (by omega)]
  refine congrArg some (le_antisymm ?_ ?_)
  · exact Nat.clog_le_of_le_pow hhigh
  · exact (Nat.lt_clog_iff_pow_lt (by decide)).2 hlow

/-- The first turn of the growth loop answers with the heap's own page. -/
theorem PageInv.growFrames (hf : FreshRegion hhOff region) (hb : Booted region mem boot)
    (hinv : PageInv region.firstAddr m.state) (hframes : m.frames = boot.frames)
    (hle : region.firstAddr + maxPages * 0x200000 ≤ 2 ^ 64)
    (hcount : 3 ≤ region.presentPageCount) (hlow : 2 ^ 21 < bytes) (hhigh : bytes ≤ 2 ^ 22) :
    ∃ frames, Ssos.growFrames bytes (memBlocksMaxLevelCount - m.state.heap.highestLevel)
      m.state.heap m.frames =
        (true, m.state.heap.raised.withRun region.firstAddr, frames) := by
  obtain ⟨⟨free, live, hs⟩, ho⟩ := hinv
  have hruns : m.state.heap.runs = bootRuns region.firstAddr 0 := by
    have hzero : bootPage 0 = 0 := rfl
    rw [ho.runs, bootRuns, bootRun, hzero, Nat.zero_mul, Nat.add_zero]
    rfl
  have hg : GrownTo region.firstAddr region.presentPageCount 0 m.state.heap m.frames :=
    ⟨hs.ok.repr.sizesOk, ho.highest, hruns, hframes ▸ hb.used, by rw [hframes, hb.first]⟩
  have hfit : 2 ^ (0 + 2) ≤ region.presentPageCount + 0 + 1 := Nat.succ_le_succ hcount
  obtain ⟨hstep, hg'⟩ := hg.turn hf.count_le hb.pos hle hfit (by decide)
  have haddr : (bootRun region.firstAddr 1).addr = region.firstAddr := by
    have hone : bootPage 1 = 0 := rfl
    rw [bootRun, hone, Nat.zero_mul, Nat.add_zero]
  rw [haddr] at hstep hg'
  have hlarge : bytes > m.state.heap.highestBlockSize := by
    rw [hs.ok.repr.size_eq, ho.highest]
    exact hlow
  have hlevel : ¬m.state.heap.highestLevel + 1 ≥ memBlocksMaxLevelCount := by
    rw [ho.highest]
    decide
  have hturns : memBlocksMaxLevelCount - m.state.heap.highestLevel = 14 + 1 + 1 := by
    rw [ho.highest]
    rfl
  refine ⟨(pagingAllocPages (m.state.heap.highestBlockSize * 2 / pageSize) m.frames).2, ?_⟩
  rw [hturns, Ssos.growFrames, if_pos hlarge, if_neg hlevel]
  simp only
  rw [hstep]
  simp only
  -- the second turn finds the run large enough
  rw [Ssos.growFrames, if_neg]
  rw [hg'.sizes.size_eq, hg'.level]
  exact not_lt.2 hhigh

/-- A request for more than a page is given that page. -/
theorem PageInv.grow (hf : FreshRegion hhOff region) (hb : Booted region mem boot) (hinv : PageInv region.firstAddr m.state)
    (hframes : m.frames = boot.frames) (hle : region.firstAddr + maxPages * 0x200000 ≤ 2 ^ 64)
    (hcount : 3 ≤ region.presentPageCount) (hlow : 2 ^ 21 < bytes + 16)
    (hhigh : bytes + 16 ≤ 2 ^ 22) :
    ∃ m', memStep m (.kmalloc bytes) = some m' ∧
      m'.state.live = ⟨region.firstAddr + 16, bytes⟩ :: m.state.live := by
  obtain ⟨frames, hgrow⟩ := hinv.growFrames hf hb hframes hle hcount hlow hhigh
  have hlevel := hinv.2.highest
  have hz : bytes ≠ 0 := by
    rintro rfl
    exact absurd hlow (by decide)
  have hmod : (bytes + metaSize) % 2 ^ 64 = bytes + 16 :=
    Nat.mod_eq_of_lt (hhigh.trans_lt (by decide))
  have hhead : (m.state.heap.raised.withRun region.firstAddr).memBlocks 19 =
      region.firstAddr := by
    have htop : m.state.heap.raised.highestLevel = 19 := by rw [raised_highestLevel, hlevel]
    rw [← htop]
    exact withRun_memBlocks_self _ _
  have hcall : (kmallocFrames bytes m.state.heap m.frames).1 =
      some (takeBlock ((m.state.heap.raised.withRun region.firstAddr).setHead 19
        (blockNext (m.state.heap.raised.withRun region.firstAddr).mem region.firstAddr))
        region.firstAddr) := by
    rw [kmallocFrames, if_neg hz, hmod]
    simp only
    rw [hgrow]
    simp only
    rw [allocLevel_eq (logb_twoPages hlow hhigh), hhead, if_pos hb.pos.ne']
  rw [memStep]
  generalize kmallocFrames bytes m.state.heap m.frames = res at hcall
  obtain ⟨answer, frames'⟩ := res
  obtain rfl := hcall
  have hne : region.firstAddr + metaSize ≠ 0 := Nat.ne_of_gt (Nat.add_pos_left hb.pos _)
  have hlive : (if region.firstAddr + metaSize = 0 then m.state.live
      else ⟨region.firstAddr + metaSize, bytes⟩ :: m.state.live) =
        ⟨region.firstAddr + 16, bytes⟩ :: m.state.live := by
    rw [if_neg hne, metaSize_eq]
  exact ⟨_, rfl, hlive⟩

/-- What is in use on the page lies behind its first header. -/
theorem PageInv.alloc_inside {page : ℕ} (hinv : PageInv page m.state) {a : Alloc}
    (ha : a ∈ m.state.live) : page + 16 ≤ a.ptr ∧ a.ptr + a.bytes ≤ page + 2 ^ 21 := by
  obtain ⟨⟨free, live, hs⟩, ho⟩ := hinv
  obtain ⟨b, hb, hptr, _, hfit⟩ := hs.owned.block a ha
  obtain ⟨r, hroot, hsub⟩ := hs.ok.repr.tiling.within b (Or.inr hb)
  rw [ho.roots_eq] at hroot
  obtain rfl : r = pageWindow page := hroot
  have hstart : page ≤ b.addr := hsub.addr_le
  have hstop : b.addr + 2 ^ b.order ≤ page + 2 ^ 21 := hsub.stop_le
  omega

theorem Booted.pageInv (hb : Booted region mem boot) (hf : FreshRegion hhOff region)
    (halign : 2 ^ 21 ∣ hhOff.toNat) (hle : region.firstAddr + maxPages * 0x200000 ≤ 2 ^ 64) :
    PageInv region.firstAddr boot.state := by
  obtain ⟨hs, ho⟩ := start_holds mem (hf.pageOk halign hb.pos hle)
  rw [hb.state]
  exact ⟨⟨_, _, hs⟩, ho⟩

/-- **The first growth hands out the page a second time.** After the boot with
three free pages or more and any run of lawful calls with small requests, the
first request for more than a page and at most two is answered with the heap's
own page, and every allocation in use lies inside of the one handed out. -/
theorem firstGrowth_of_boot
    (hinit : initFrameAllocatorOr undefinedShift cr3 kernel mmapEntries hhOff s = (0, region))
    (hle : region.firstAddr + maxPages * 0x200000 ≤ 2 ^ 64) (halign : 2 ^ 21 ∣ hhOff.toNat)
    (hboot : bootHeap mem region = some boot) (hcount : 3 ≤ region.presentPageCount)
    {ops : List MemOp} (hops : Along memStep SmallCall boot ops)
    (hlow : 2 ^ 21 < bytes + metaSize) (hhigh : bytes + metaSize ≤ 2 ^ 22) :
    ∃ m m', exec memStep boot ops = some m ∧ memStep m (.kmalloc bytes) = some m' ∧
      m'.state.live = ⟨region.firstAddr + metaSize, bytes⟩ :: m.state.live ∧
      ∀ a ∈ m.state.live, region.firstAddr + metaSize ≤ a.ptr ∧
        a.ptr + a.bytes ≤ region.firstAddr + metaSize + bytes := by
  have hf := freshRegion_of_init hinit
  have hb := hf.booted hle hboot
  have hstart := hb.pageInv hf halign hle
  have hrun : ∃ m, exec memStep boot ops = some m ∧
      PageInv region.firstAddr m.state ∧ m.frames = boot.frames := by
    refine Along.exec_invariant ?_ ⟨hstart, rfl⟩ hops
    intro m op ⟨hinv, hframes⟩ hop
    obtain ⟨m', hstep, hinv', hsame⟩ := hinv.smallCall hop
    exact ⟨m', hstep, hinv', hsame.trans hframes⟩
  obtain ⟨m, hexec, hinv, hframes⟩ := hrun
  rw [metaSize_eq] at hlow hhigh ⊢
  obtain ⟨m', hstep, hlive⟩ := hinv.grow hf hb hframes hle hcount hlow hhigh
  refine ⟨m, m', hexec, hstep, hlive, fun a ha => ?_⟩
  obtain ⟨hfirst, hlast⟩ := hinv.alloc_inside ha
  refine ⟨hfirst, hlast.trans ?_⟩
  rw [Nat.add_assoc, Nat.add_comm 16]
  exact Nat.add_le_add_left hlow.le _

end Boot

/-! ### The boot on one region -/

def lowBoot : KernelMemory :=
  ⟨(pagingAllocPages 1 lowRegion).2, HeapState.start (fun _ => 0) lowRegion.firstAddr⟩

theorem lowRegion_wrap : lowRegion.firstAddr + maxPages * 0x200000 ≤ 2 ^ 64 := by decide

theorem lowBoot_boot : bootHeap (fun _ => 0) lowRegion = some lowBoot :=
  ((freshRegion_of_init lowRegion_init).bootHeap_iff lowRegion_wrap).2 ⟨by decide, rfl⟩

theorem lowBoot_grow : ∃ m, exec memStep lowBoot [.kmalloc 0x200000] = some m := by
  have hf := freshRegion_of_init lowRegion_init
  have hb := hf.booted lowRegion_wrap lowBoot_boot
  obtain ⟨m, hstep, _⟩ := (hb.pageInv hf (by decide) lowRegion_wrap).grow hf hb rfl lowRegion_wrap
    (show 3 ≤ lowRegion.presentPageCount by decide) (show 2 ^ 21 < 0x200000 + 16 by decide) (by decide)
  exact ⟨m, PartialRun.exec_cons hstep⟩

/-- A request of two MiB after the boot. -/
theorem heapRuns_of_boot_lowBoot : ∃ m, exec memStep lowBoot [.kmalloc 0x200000] = some m ∧
    ∃ j ≤ 1, m.state.heap.highestLevel = 18 + j ∧
      m.state.heap.runs = bootRuns lowRegion.firstAddr j ∧
      m.state.heap.runs.IsChain fun newer older => newer.addr + pageSize = older.stop := by
  obtain ⟨m, hexec⟩ := lowBoot_grow
  refine ⟨m, hexec, heapRuns_of_boot (J := 1) lowRegion_init lowRegion_wrap lowBoot_boot
    (by decide) (fun bytes hmem => ?_) hexec⟩
  obtain rfl := MemOp.kmalloc.inj (List.mem_singleton.1 hmem)
  decide

/-- The same behind an allocation of 100 bytes. -/
theorem firstGrowth_of_boot_lowBoot : ∃ m m', exec memStep lowBoot [.kmalloc 100] = some m ∧
    memStep m (.kmalloc 0x200000) = some m' ∧
    m'.state.live = ⟨lowRegion.firstAddr + metaSize, 0x200000⟩ :: m.state.live ∧
    ∀ a ∈ m.state.live, lowRegion.firstAddr + metaSize ≤ a.ptr ∧
      a.ptr + a.bytes ≤ lowRegion.firstAddr + metaSize + 0x200000 :=
  firstGrowth_of_boot lowRegion_init lowRegion_wrap (by decide) lowBoot_boot (by decide)
    ⟨⟨show 100 < 2 ^ 64 by decide, show 100 ≤ 2 ^ 21 - 16 by decide⟩, fun _ _ => trivial⟩
    (by decide) (by decide)

end Ssos
