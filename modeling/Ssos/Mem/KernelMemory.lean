import Ssos.Mem.BootFrames
import Ssos.Mem.HeapSizes
import Ssos.Mem.SkippedBuckets

/-!
# The heap over the frame allocator

`kmalloc` as the kernel runs it: the runs for the heap come from the frame
allocator that `paging_init_frame_allocator` has set up and from which
`kalloc_init` has taken the first page. What one call is answered depends on
the page count only, so that a run of the two together is a run of the heap
with a page allocator that answers the same.

## Main results

- `memStep_eq` — a step of the memory is a step of the heap
- `FreshRegion.booted` — the heap starts on the first page of the region
-/

namespace Ssos

open ByteMemory Buddy PartialRun

/-- The frame allocator, and the heap with the blocks handed out. -/
structure KernelMemory where
  frames : Paging
  state : HeapState

inductive MemOp
  | kmalloc (bytes : ℕ)
  | kfree (ptr : ℕ)
  | write (addr : ℕ) (value : UInt8)

/-- The growth loop of `kmalloc`. -/
def growFrames (bytes : ℕ) : ℕ → Heap → Paging → Bool × Heap × Paging
  | 0, h, frames => (false, h, frames)
  | levels + 1, h, frames =>
    if bytes > h.highestBlockSize then
      if h.highestLevel + 1 ≥ memBlocksMaxLevelCount then (false, h, frames)
      else
        let (addr, frames) := pagingAllocPages (h.highestBlockSize * 2 / pageSize) frames
        match growStep (fun _ => addr.toNat) h with
        | (false, h) => (false, h, frames)
        | (true, h) => growFrames bytes levels h frames
    else (true, h, frames)

def kmallocFrames (bytes : ℕ) (h : Heap) (frames : Paging) : Option (ℕ × Heap) × Paging :=
  if bytes = 0 then (some (0, h), frames)
  else
    let bytes := (bytes + metaSize) % 2 ^ 64
    match growFrames bytes (memBlocksMaxLevelCount - h.highestLevel) h frames with
    | (false, h, frames) => (some (0, h), frames)
    | (true, h, frames) => (allocLevel bytes h, frames)

def memStep (m : KernelMemory) : MemOp → Option KernelMemory
  | .kmalloc bytes =>
    match kmallocFrames bytes m.state.heap m.frames with
    | (none, _) => none
    | (some (p, h), frames) =>
      some ⟨frames, h, if p = 0 then m.state.live else ⟨p, bytes⟩ :: m.state.live⟩
  | .kfree ptr => (heapStep m.state (.kfree ptr)).map (⟨m.frames, ·⟩)
  | .write addr value => (heapStep m.state (.write addr value)).map (⟨m.frames, ·⟩)

/-- `kalloc_init` on the region that `paging_init_frame_allocator` has recorded;
there is no memory when it fails. -/
def bootHeap (mem : Mem) (frames : Paging) : Option KernelMemory :=
  let (page, frames) := pagingAllocPages 1 frames
  let (ret, heap) := kallocInit page.toNat (Heap.initial mem)
  if ret ≠ 0 then none else some ⟨frames, heap, []⟩

/-- The same step of the heap, with the page allocator's answers. -/
def MemOp.heapOp (palloc : ℕ → ℕ) : MemOp → HeapOp
  | .kmalloc bytes => .kmalloc bytes palloc
  | .kfree ptr => .kfree ptr
  | .write addr value => .write addr value

/-- The callers' promise, and requests that fit the first page. -/
def SmallCall (m : KernelMemory) (op : MemOp) : Prop :=
  Lawful m.state (op.heapOp fun _ => 0) ∧ Small (op.heapOp fun _ => 0)

/-- Virtual address of the first page. -/
def Paging.firstAddr (s : Paging) : ℕ := s.physPageBase.toNat + s.hhdmStart.toNat

/-! ### The answers of one call -/

/-- What the frame allocator answers to `count`, `2 * count`, … pages, asked
for in this order. -/
def frameAnswers : ℕ → ℕ → Paging → ℕ → ℕ
  | 0, _, _ => fun _ => 0
  | turns + 1, count, frames =>
    Function.update (frameAnswers turns (2 * count) (pagingAllocPages count frames).2) count
      (pagingAllocPages count frames).1.toNat

section Answers
variable {palloc palloc' : ℕ → ℕ} {bytes n : ℕ} {h : Heap} {frames : Paging}

theorem growStep_congr
    (heq : palloc (h.highestBlockSize * 2 / pageSize) = palloc' (h.highestBlockSize * 2 / pageSize)) :
    growStep palloc h = growStep palloc' h := by
  rw [growStep, growStep]
  simp only [heq]

/-- The pages asked for at the next level. -/
theorem SizesOk.count_eq (hs : SizesOk h) :
    h.highestBlockSize * 2 / pageSize = 2 ^ (h.highestLevel + 1 - 18) :=
  growStep_page_count id hs

theorem SizesOk.growStep (hs : SizesOk h) (hlt : h.highestLevel + 1 < 34) (palloc : ℕ → ℕ) :
    SizesOk (growStep palloc h).2 ∧
      (Ssos.growStep palloc h).2.highestLevel = h.highestLevel + 1 := by
  by_cases hz : (grantAt palloc (h.highestLevel + 1)).addr = 0
  · rw [growStep_refused hs hz]
    exact ⟨hs.raised hlt, rfl⟩
  · rw [growStep_granted hs hz]
    exact ⟨(hs.raised hlt).withRun _, rfl⟩

/-- The growth loop asks for ever larger runs. -/
theorem growHeap_congr (hs : SizesOk h)
    (heq : ∀ L, h.highestLevel < L → palloc (2 ^ (L - 18)) = palloc' (2 ^ (L - 18))) :
    growHeap palloc bytes n h = growHeap palloc' bytes n h := by
  induction n generalizing h with
  | zero => rfl
  | succ n ih =>
    rw [growHeap, growHeap]
    by_cases hbytes : bytes > h.highestBlockSize
    · by_cases hlt : h.highestLevel + 1 ≥ memBlocksMaxLevelCount
      · rw [if_pos hbytes, if_pos hbytes, if_pos hlt, if_pos hlt]
      · rw [if_pos hbytes, if_pos hbytes, if_neg hlt, if_neg hlt]
        have hstep : growStep palloc h = growStep palloc' h := by
          apply growStep_congr
          rw [hs.count_eq]
          exact heq _ (Nat.lt_succ_self _)
        obtain ⟨hs', hlevel⟩ := hs.growStep (not_le.1 hlt) palloc'
        rw [hstep]
        cases hres : growStep palloc' h with
        | mk granted h' =>
          rw [hres] at hs' hlevel
          cases granted with
          | false => rfl
          | true => exact ih hs' fun L hL => heq L (by simp only at hlevel; omega)
    · rw [if_neg hbytes, if_neg hbytes]

theorem growHeap_frameAnswers (hs : SizesOk h) :
    growHeap (frameAnswers n (2 ^ (h.highestLevel + 1 - 18)) frames) bytes n h =
      ((growFrames bytes n h frames).1, (growFrames bytes n h frames).2.1) := by
  induction n generalizing h frames with
  | zero => rfl
  | succ n ih =>
    rw [growHeap, growFrames]
    by_cases hbytes : bytes > h.highestBlockSize
    · by_cases hlt : h.highestLevel + 1 ≥ memBlocksMaxLevelCount
      · rw [if_pos hbytes, if_pos hbytes, if_pos hlt, if_pos hlt]
      · rw [if_pos hbytes, if_pos hbytes, if_neg hlt, if_neg hlt, hs.count_eq]
        generalize hanswer : pagingAllocPages (2 ^ (h.highestLevel + 1 - 18)) frames = answer
        obtain ⟨addr, frames'⟩ := answer
        have hstep : growStep (frameAnswers (n + 1) (2 ^ (h.highestLevel + 1 - 18)) frames) h =
            growStep (fun _ => addr.toNat) h := by
          apply growStep_congr
          rw [hs.count_eq, frameAnswers, Function.update_self, hanswer]
        obtain ⟨hs', hlevel⟩ := hs.growStep (not_le.1 hlt) fun _ => addr.toNat
        rw [hstep]
        simp only
        cases hres : growStep (fun _ => addr.toNat) h with
        | mk granted h' =>
          rw [hres] at hs' hlevel
          cases granted with
          | false => rfl
          | true =>
            simp only at hs' hlevel ⊢
            rw [← ih hs', hlevel]
            apply growHeap_congr hs'
            -- this turn's count is not asked for again
            intro L hL
            have hge := hs.level_ge
            have hne : 2 ^ (L - 18) ≠ 2 ^ (h.highestLevel + 1 - 18) := fun hpow => by
              have hexp := Nat.pow_right_injective le_rfl hpow
              omega
            have hnext : 2 * 2 ^ (h.highestLevel + 1 - 18) = 2 ^ (h.highestLevel + 1 + 1 - 18) := by
              rw [← pow_succ']
              congr 1
              omega
            rw [frameAnswers, Function.update_of_ne hne, hanswer, hnext]
    · rw [if_neg hbytes, if_neg hbytes]

/-- **A call over the frame allocator** is a call with its answers. -/
theorem kmallocFrames_eq (hs : SizesOk h) (bytes : ℕ) (frames : Paging) :
    (kmallocFrames bytes h frames).1 =
      kmalloc (frameAnswers (memBlocksMaxLevelCount - h.highestLevel)
        (2 ^ (h.highestLevel + 1 - 18)) frames) bytes h := by
  rw [kmallocFrames, kmalloc]
  by_cases hz : bytes = 0
  · rw [if_pos hz, if_pos hz]
  · rw [if_neg hz, if_neg hz]
    simp only
    rw [growHeap_frameAnswers hs]
    generalize growFrames ((bytes + metaSize) % 2 ^ 64) (memBlocksMaxLevelCount - h.highestLevel) h
      frames = res
    obtain ⟨granted, h', frames'⟩ := res
    cases granted <;> rfl

end Answers

section Steps
variable {m : KernelMemory} {page : ℕ} {op : MemOp}

/-- **The memory refines the heap.** A step over the frame allocator is a step
of the heap whose page allocator gives the same answers. -/
theorem memStep_eq (hs : SizesOk m.state.heap) (op : MemOp) :
    (memStep m op).map KernelMemory.state = heapStep m.state (op.heapOp
      (frameAnswers (memBlocksMaxLevelCount - m.state.heap.highestLevel)
        (2 ^ (m.state.heap.highestLevel + 1 - 18)) m.frames)) := by
  cases op with
  | kmalloc bytes =>
    rw [MemOp.heapOp, heapStep, memStep, ← kmallocFrames_eq hs]
    generalize kmallocFrames bytes m.state.heap m.frames = res
    obtain ⟨_ | ⟨p, h⟩, frames⟩ := res
    · rfl
    · rfl
  | kfree ptr =>
    rw [memStep, Option.map_map]
    exact Option.map_id_apply
  | write addr value => rfl

/-- A request that fits the largest block leaves the frame allocator alone. -/
theorem kmallocFrames_frames {bytes : ℕ} (hs : SizesOk m.state.heap)
    (hle : (bytes + metaSize) % 2 ^ 64 ≤ m.state.heap.highestBlockSize) :
    (kmallocFrames bytes m.state.heap m.frames).2 = m.frames := by
  rw [kmallocFrames]
  by_cases hz : bytes = 0
  · rw [if_pos hz]
  · obtain ⟨n, hn⟩ := Nat.exists_eq_succ_of_ne_zero hs.levels_pos.ne'
    rw [if_neg hz, hn]
    simp only [growFrames, if_neg (not_lt.2 hle)]

/-- **Step lemma.** Small calls keep the heap on its page and the frames as they are. -/
theorem PageInv.smallCall (hinv : PageInv page m.state) (hop : SmallCall m op) :
    ∃ m', memStep m op = some m' ∧ PageInv page m'.state ∧ m'.frames = m.frames := by
  obtain ⟨hlaw, hsmall⟩ := hop
  obtain ⟨⟨free, live, hs⟩, ho⟩ := hinv
  have hsizes := hs.ok.repr.sizesOk
  have hstep := memStep_eq hsizes op
  generalize frameAnswers (memBlocksMaxLevelCount - m.state.heap.highestLevel)
    (2 ^ (m.state.heap.highestLevel + 1 - 18)) m.frames = palloc at hstep
  have hlaw' : Lawful m.state (op.heapOp palloc) := by cases op <;> exact hlaw
  have hsmall' : Small (op.heapOp palloc) := by cases op <;> exact hsmall
  obtain ⟨s', hheap, hinv'⟩ := smallStep_inv ⟨⟨free, live, hs⟩, ho⟩ hlaw' hsmall'
  rw [hheap] at hstep
  obtain ⟨m', hmem, rfl⟩ := Option.map_eq_some_iff.1 hstep
  refine ⟨m', hmem, hinv', ?_⟩
  cases op with
  | kmalloc bytes =>
    have hle : (bytes + metaSize) % 2 ^ 64 ≤ m.state.heap.highestBlockSize := by
      rw [hsizes.size_eq, ho.highest, metaSize_eq]
      have hbytes : bytes ≤ 2 ^ 21 - 16 := hsmall
      omega
    have hframes := kmallocFrames_frames hsizes hle
    rw [memStep] at hmem
    generalize kmallocFrames bytes m.state.heap m.frames = res at hmem hframes
    obtain ⟨_ | ⟨p, h⟩, frames⟩ := res
    · exact absurd hmem.symm (Option.some_ne_none m')
    · obtain rfl := Option.some_inj.1 hmem
      exact hframes
  | kfree ptr =>
    obtain ⟨_, _, rfl⟩ := Option.map_eq_some_iff.1 hmem
    rfl
  | write addr value =>
    obtain rfl := Option.some_inj.1 hmem
    rfl

end Steps

/-! ### The boot -/

/-- The memory after the boot: the heap has the first page of the region. -/
structure Booted (region : Paging) (mem : Mem) (boot : KernelMemory) : Prop where
  state : boot.state = HeapState.start mem region.firstAddr
  pos : 0 < region.firstAddr
  first : boot.frames.firstAddr = region.firstAddr
  used : UsedUpTo region.presentPageCount 1 boot.frames.pages

section Boot
variable {hhOff : Word} {mem : Mem} {region : Paging} {boot : KernelMemory}

/-- The first request of all is answered with the first page. -/
theorem FreshRegion.allocFirst (hf : FreshRegion hhOff region)
    (hle : region.firstAddr + maxPages * 0x200000 ≤ 2 ^ 64) :
    (pagingAllocPages 1 region).1.toNat = region.firstAddr ∧
      (pagingAllocPages 1 region).2.firstAddr = region.firstAddr ∧
      UsedUpTo region.presentPageCount 1 (pagingAllocPages 1 region).2.pages := by
  have hfits : FitsBehind region.presentPageCount 0 1 :=
    ⟨le_rfl, (Nat.le_succ 1).trans hf.count_ge⟩
  obtain ⟨haddr, hstat, hused⟩ := hf.used.alloc hf.count_le hfits
  refine ⟨?_, ?_, hused⟩
  · rw [Paging.firstAddr] at hle ⊢
    rw [haddr, show pageInFront 0 = 0 by rfl, toNat_pageAddr hle (by decide), Nat.zero_mul,
      Nat.add_zero]
  · rw [Paging.firstAddr, hstat.physPageBase, hstat.hhdmStart, Paging.firstAddr]

/-- The boot succeeds unless the first page is at address 0. -/
theorem FreshRegion.bootHeap_iff (hf : FreshRegion hhOff region)
    (hle : region.firstAddr + maxPages * 0x200000 ≤ 2 ^ 64) :
    bootHeap mem region = some boot ↔ 0 < region.firstAddr ∧
      boot = ⟨(pagingAllocPages 1 region).2, HeapState.start mem region.firstAddr⟩ := by
  obtain ⟨hpage, _⟩ := hf.allocFirst hle
  rw [bootHeap, HeapState.start]
  simp only
  rw [hpage]
  by_cases hz : region.firstAddr = 0
  · rw [kallocInit, if_pos hz]
    refine iff_of_false (fun hsome => ?_) fun hpos => absurd hz hpos.1.ne'
    exact absurd hsome.symm (Option.some_ne_none boot)
  · have hret : (kallocInit region.firstAddr (Heap.initial mem)).1 = 0 := by
      rw [kallocInit, if_neg hz]
    rw [if_neg (not_not.2 hret), Option.some_inj]
    constructor
    · rintro rfl
      exact ⟨Nat.pos_of_ne_zero hz, rfl⟩
    · rintro ⟨_, rfl⟩
      rfl

theorem FreshRegion.booted (hf : FreshRegion hhOff region)
    (hle : region.firstAddr + maxPages * 0x200000 ≤ 2 ^ 64)
    (hboot : bootHeap mem region = some boot) : Booted region mem boot := by
  obtain ⟨hpos, rfl⟩ := (hf.bootHeap_iff hle).1 hboot
  obtain ⟨_, hfirst, hused⟩ := hf.allocFirst hle
  exact ⟨rfl, hpos, hfirst, hused⟩

/-- With an aligned direct map the first page is one that the heap can use. -/
theorem FreshRegion.pageOk (hf : FreshRegion hhOff region) (halign : 2 ^ 21 ∣ hhOff.toNat)
    (hpos : 0 < region.firstAddr) (hle : region.firstAddr + maxPages * 0x200000 ≤ 2 ^ 64) :
    PageOk region.firstAddr where
  nonnull := hpos.ne'
  aligned := by
    obtain ⟨a, ha⟩ := hf.base
    have hbase : 2 ^ 21 ∣ region.physPageBase.toNat := by
      rw [ha, pageWord, BitVec.toNat_ofNat]
      exact (Nat.dvd_mod_iff (Nat.pow_dvd_pow 2 (by decide))).2 (Nat.dvd_mul_left _ a)
    rw [Paging.firstAddr, hf.hhdmStart]
    exact Nat.dvd_add hbase halign
  stop := by
    simp only [maxPages] at hle
    omega

end Boot

end Ssos
