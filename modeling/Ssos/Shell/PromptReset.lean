import Ssos.Mem.FirstPage
import Ssos.Mem.KfreeSteps
import Ssos.Shell.LineBuffer

/-!
# Resetting the prompt under interrupts

`shell_reset_prompt_buffer` and the `kfree` it calls, statement by statement on
the kernel heap, with key interrupts between the statements. The callback runs
as a whole. A letter that arrives inside the reset starts a buffer that the
last statement forgets.

## Main results

- `promptConsistent_of_run` — without letters inside a reset the line stays consistent
- `promptConsistent_fails` — a letter before the last statement
-/

namespace Ssos

open Allocation PartialRun Buddy Window PointerList

/-! ### The shell on the kernel heap -/

/-- The operations of the kernel heap; `palloc` gives the answers of
`paging_alloc_pages`. A `kfree` of a pointer that is not live and a store
outside the live payloads have no result. -/
def kernelHeap (palloc : ℕ → ℕ) : HeapOps HeapState where
  malloc bytes s :=
    match kmalloc palloc bytes s.heap with
    | none => none
    | some (p, h) => some (p, ⟨h, if p = 0 then s.live else ⟨p, bytes⟩ :: s.live⟩)
  free ptr s := if ∃ a ∈ s.live, a.ptr = ptr then heapStep s (.kfree ptr) else none
  load s := s.heap.mem
  store addr value s :=
    if ∃ a ∈ s.live, a.ptr ≤ addr ∧ addr < a.ptr + a.bytes then heapStep s (.write addr value)
    else none

/-- Where the main loop stands in `shell_reset_prompt_buffer`: outside it, or
before its statements behind the first one. -/
inductive ResetPc
  | outside
  | clearSize
  | testLine
  | callKfree
  | inKfree (pc : KfreePc)
  | clearLine

structure Prompt where
  shell : Shell HeapState
  pc : ResetPc

/-- The shell after `kalloc_init` on `page`. -/
def Prompt.start (mem : ByteMemory.Mem) (page : ℕ) : Prompt :=
  ⟨.initial (HeapState.start mem page), .outside⟩

inductive PromptAction
  | reset
  | key (event : KeyboardEvent) (palloc : ℕ → ℕ)

/-- The next statement of the reset; outside it, the first one. A buffer stops
being live when `kfree` is called for it. -/
def resetStep (s : Prompt) : Option Prompt :=
  match s.pc with
  | .outside => some ⟨{ s.shell with lineCapacity := 0 }, .clearSize⟩
  | .clearSize => some ⟨{ s.shell with lineSize := 0 }, .testLine⟩
  | .testLine => some { s with pc := if s.shell.currentLine ≠ 0 then .callKfree else .clearLine }
  | .callKfree =>
    let ptr := s.shell.currentLine
    if ptr = 0 ∨ ∃ a ∈ s.shell.heap.live, a.ptr = ptr then
      some ⟨{ s.shell with
        heap := { s.shell.heap with live := s.shell.heap.live.filter fun a => a.ptr ≠ ptr }
        released := s.shell.released ++ [ptr] }, .inKfree (kfreeStart ptr)⟩
    else none
  | .inKfree pc =>
    if pc = .done then some { s with pc := .clearLine }
    else
      match kfreeStep s.shell.heap.heap pc with
      | none => none
      | some (pc, h) => some ⟨{ s.shell with heap := { s.shell.heap with heap := h } }, .inKfree pc⟩
  | .clearLine => some ⟨{ s.shell with currentLine := 0, echoed := [] }, .outside⟩

/-- An event is handled as a whole between two statements. After `stop` nothing
happens any more. -/
def promptStep (s : Prompt) (action : PromptAction) : Option Prompt :=
  if s.shell.stopped then some s
  else
    match action with
    | .reset => resetStep s
    | .key event palloc =>
      match shellInputCallback (kernelHeap palloc) event s.shell with
      | none => none
      | some shell => some { s with shell }

/-- The buffer is a live block of at least the recorded capacity and on no free
list, or there is none. -/
structure LineConsistent (s : Shell HeapState) : Prop where
  null_iff : s.currentLine = 0 ↔ s.lineCapacity = 0
  live : s.currentLine ≠ 0 → ∃ a ∈ s.heap.live, a.ptr = s.currentLine ∧ s.lineCapacity ≤ a.bytes
  unlisted : s.currentLine ≠ 0 → ∀ L xs,
    Linked (blockNext s.heap.heap.mem) (s.heap.heap.memBlocks L) xs → s.currentLine - metaSize ∉ xs
  size_le : s.lineSize ≤ s.lineCapacity

/-- Every statement and every handler of the run has a result, so no buffer is
freed twice; and outside the reset the line is consistent. -/
def PromptConsistent (mem : ByteMemory.Mem) (page : ℕ) (actions : List PromptAction) : Prop :=
  ∃ s, exec promptStep (Prompt.start mem page) actions = some s ∧
    (s.shell.stopped = false → s.pc = .outside → LineConsistent s.shell)

/-! ### The condition on a step -/

/-- Inside the reset no letter is typed. -/
def NoLetterInside (s : Prompt) : PromptAction → Prop
  | .reset => True
  | .key event _ => s.pc ≠ .outside → typedChars s.shell.shiftIsHeld event = []

/-! ### The callback on the kernel heap -/

section Heap
variable {page : ℕ} {st st' : HeapState} {free live : Set Window} {palloc : ℕ → ℕ} {a : Alloc}

/-- States of one heap: the same blocks and the same allocations. -/
structure SameHeap (st st' : HeapState) : Prop where
  live : st'.live = st.live
  runs : st'.heap.runs = st.heap.runs
  level : st'.heap.highestLevel = st.heap.highestLevel

theorem SameHeap.onPage (h : SameHeap st st') (ho : OnPage page st) : OnPage page st' :=
  ⟨h.runs.trans ho.runs, h.level.trans ho.highest⟩

/-- A store inside a live payload. -/
theorem kernelHeap_store (palloc : ℕ → ℕ) (hs : Holds st free live) (ha : a ∈ st.live) {addr : ℕ}
    (hle : a.ptr ≤ addr) (hlt : addr < a.ptr + a.bytes) (value : UInt8) :
    ∃ st', (kernelHeap palloc).store addr value st = some st' ∧ Holds st' free live ∧
      SameHeap st st' := by
  refine ⟨_, if_pos ⟨a, ha, hle, hlt⟩, hs.write (Or.inl ⟨a, ha, hle, hlt⟩), rfl, rfl, rfl⟩

/-- Copying to the front of a live payload. -/
theorem kernelHeap_copyBytes (palloc : ℕ → ℕ) (hs : Holds st free live) (ha : a ∈ st.live)
    (src : ℕ) {n : ℕ}
    (hn : n ≤ a.bytes) :
    ∃ st', (kernelHeap palloc).copyBytes a.ptr src n st = some st' ∧ Holds st' free live ∧
      SameHeap st st' := by
  induction n with
  | zero => exact ⟨st, rfl, hs, rfl, rfl, rfl⟩
  | succ n ih =>
    obtain ⟨st₁, hcopy, hs₁, hsame₁⟩ := ih (by omega)
    obtain ⟨st₂, hstore, hs₂, hsame₂⟩ := kernelHeap_store palloc hs₁
      (hsame₁.live ▸ ha) (Nat.le_add_right a.ptr n) (by omega)
      ((kernelHeap palloc).load st₁ (src + n))
    refine ⟨st₂, ?_, hs₂, hsame₂.live.trans hsame₁.live, hsame₂.runs.trans hsame₁.runs,
      hsame₂.level.trans hsame₁.level⟩
    rw [HeapOps.copyBytes, hcopy]
    exact hstore

/-- Freeing a live pointer. -/
theorem kernelHeap_free (palloc : ℕ → ℕ) (hinv : PageInv page st) (ha : a ∈ st.live) :
    ∃ st', (kernelHeap palloc).free a.ptr st = some st' ∧ PageInv page st' ∧
      st'.live = st.live.filter fun c => c.ptr ≠ a.ptr := by
  have hlaw : Lawful st (.kfree a.ptr) := Or.inr ⟨a, ha, rfl⟩
  obtain ⟨st', hstep, hinv'⟩ := smallStep_inv hinv hlaw trivial
  obtain ⟨f, _, rfl⟩ := kfree_of_step hstep
  exact ⟨_, (if_pos ⟨a, ha, rfl⟩).trans hstep, hinv', rfl⟩

/-- An allocation, whatever `paging_alloc_pages` would answer. -/
theorem kernelHeap_malloc (palloc : ℕ → ℕ) (hinv : PageInv page st) {n : ℕ}
    (hn : n ≤ 2 ^ 21 - 16) :
    ∃ p st', (kernelHeap palloc).malloc n st = some (p, st') ∧ PageInv page st' ∧
      st'.live = if p = 0 then st.live else ⟨p, n⟩ :: st.live := by
  have hlaw : Lawful st (.kmalloc n palloc) := lt_of_le_of_lt hn (by decide)
  obtain ⟨st', hstep, hinv'⟩ := smallStep_inv hinv hlaw hn
  obtain ⟨p, h, hres, rfl⟩ := kmalloc_of_step hstep
  refine ⟨p, _, ?_, hinv', rfl⟩
  simp only [kernelHeap, hres]

/-- A new allocation has a pointer of its own. -/
theorem HeapInv.new_ptr_ne (hinv : HeapInv st) {new : Alloc} {allocs : List Alloc}
    (hlive : st.live = new :: allocs) (ha : a ∈ allocs) : new.ptr ≠ a.ptr := by
  obtain ⟨free, live, hs⟩ := hinv
  have hnodup := hs.owned.nodup
  rw [hlive, List.map_cons, List.nodup_cons] at hnodup
  intro heq
  exact hnodup.1 (heq ▸ List.mem_map_of_mem ha)

/-- Next to another allocation a new one gets half of the page at most. -/
theorem PageInv.new_bytes_le (hinv : PageInv page st) {new : Alloc} {allocs : List Alloc}
    (hlive : st.live = new :: allocs) (ha : a ∈ allocs) : new.bytes + 16 ≤ 2 ^ 20 := by
  have hne := hinv.1.new_ptr_ne hlive ha
  obtain ⟨⟨free, live, hs⟩, ho⟩ := hinv
  obtain ⟨b, hb, hptr, _, hfit⟩ := hs.owned.block new (hlive ▸ List.mem_cons_self)
  obtain ⟨d, hd, hptr', _⟩ := hs.owned.block a (hlive ▸ List.mem_cons_of_mem _ ha)
  have hsub := ho.sub_page hs (Or.inr hb)
  have hle : b.order ≤ 21 := hsub.order_le
  by_cases hfull : b.order = 21
  · -- the block of the whole page contains the other one
    have hpage : b = pageWindow page := hsub.eq_of_order_eq hfull
    have hmem : d.addr ∈ b := hpage ▸ (ho.sub_page hs (Or.inr hd)).mem d.addr_mem
    have heq := hs.ok.repr.tiling.apart d (Or.inr hd) b (Or.inr hb) d.addr d.addr_mem hmem
    rw [hptr, hptr', heq] at hne
    exact absurd rfl hne
  · have hpow : 2 ^ b.order ≤ 2 ^ 20 := Nat.pow_le_pow_right (by decide) (by omega)
    omega

theorem HeapInv.ptr_ne_zero (hinv : HeapInv st) (ha : a ∈ st.live) : a.ptr ≠ 0 := by
  obtain ⟨free, live, hs⟩ := hinv
  obtain ⟨b, _, hptr, _⟩ := hs.owned.block a ha
  omega

/-- The block of a live allocation is on no free list. -/
theorem HeapInv.unlisted (hinv : HeapInv st) (ha : a ∈ st.live) {L : ℕ} {xs : List ℕ}
    (hlinked : Linked (blockNext st.heap.mem) (st.heap.memBlocks L) xs) :
    a.ptr - metaSize ∉ xs := by
  obtain ⟨free, live, hs⟩ := hinv
  obtain ⟨b, hb, hptr, _⟩ := hs.owned.block a ha
  obtain ⟨ys, hlinked', _, hmem⟩ := hs.ok.repr.lists L
  obtain rfl := hlinked.unique hlinked'
  rw [hmem, metaSize_eq, hptr, Nat.add_sub_cancel]
  intro hfree
  have heq := hs.ok.repr.tiling.apart.eq_of_addr (Or.inl hfree) (Or.inr hb) rfl
  exact Set.disjoint_left.1 hs.ok.repr.disjoint hfree (heq ▸ hb)

end Heap

/-- The heap is intact and still on its first page, and the line, if there is
one, is an allocation of the recorded size. -/
structure LineLive (page : ℕ) (s : Shell HeapState) : Prop where
  heap : PageInv page s.heap
  size_le : s.lineSize ≤ s.lineCapacity
  capacity_le : s.lineCapacity + 16 ≤ 2 ^ 20
  line : (s.currentLine = 0 ∧ s.lineCapacity = 0) ∨
    (0 < s.lineCapacity ∧ (⟨s.currentLine, s.lineCapacity⟩ : Alloc) ∈ s.heap.live)

section Callback
variable {page : ℕ} {s : Shell HeapState} {event : KeyboardEvent}

theorem LineLive.consistent (hs : LineLive page s) : LineConsistent s := by
  obtain ⟨hnull, hzero⟩ | ⟨hpos, hmem⟩ := hs.line
  · exact ⟨iff_of_true hnull hzero, fun hne => absurd hnull hne, fun hne => absurd hnull hne,
      hs.size_le⟩
  · refine ⟨iff_of_false (hs.heap.1.ptr_ne_zero hmem) hpos.ne', ?_, ?_, hs.size_le⟩
    · intro _
      exact ⟨_, hmem, rfl, le_rfl⟩
    · intro _ L xs hlinked
      exact hs.heap.1.unlisted hmem hlinked

/-- The line is moved to an allocation that has just been made. -/
theorem moveLine_live (palloc : ℕ → ℕ) (hs : LineLive page s) {p n : ℕ} {st₁ : HeapState}
    (hinv₁ : PageInv page st₁) (hlive₁ : st₁.live = ⟨p, n⟩ :: s.heap.live) (hn : s.lineSize ≤ n) :
    ∃ s', moveLine (kernelHeap palloc) p
        { s with heap := st₁, obtained := s.obtained ++ [p] } = some s' ∧
      PageInv page s'.heap ∧ (⟨p, n⟩ : Alloc) ∈ s'.heap.live ∧ s'.lineSize = s.lineSize := by
  have hnew : (⟨p, n⟩ : Alloc) ∈ st₁.live := hlive₁ ▸ List.mem_cons_self
  rw [moveLine]
  by_cases hnull : s.currentLine = 0
  · simp only [if_neg (not_not_intro hnull)]
    exact ⟨_, rfl, hinv₁, hnew, rfl⟩
  · obtain ⟨_, hmem⟩ := hs.line.resolve_left fun hzero => hnull hzero.1
    have hmem₁ : (⟨s.currentLine, s.lineCapacity⟩ : Alloc) ∈ st₁.live :=
      hlive₁ ▸ List.mem_cons_of_mem _ hmem
    have hne : p ≠ s.currentLine := hinv₁.1.new_ptr_ne hlive₁ hmem
    obtain ⟨⟨free, live, hs₁⟩, ho₁⟩ := hinv₁
    obtain ⟨st₂, hcopy, hs₂, hsame⟩ := kernelHeap_copyBytes palloc hs₁ hnew s.currentLine hn
    obtain ⟨st₃, hfree, hinv₃, hlive₃⟩ := kernelHeap_free palloc
      ⟨⟨free, live, hs₂⟩, hsame.onPage ho₁⟩ (hsame.live ▸ hmem₁)
    simp only [if_pos hnull, hcopy, freeLine, hfree]
    refine ⟨_, rfl, hinv₃, ?_, rfl⟩
    rw [hlive₃, hsame.live]
    exact List.mem_filter.2 ⟨hnew, decide_eq_true hne⟩

/-- A line with a buffer grows beside it, so to half of the page at most. -/
theorem LineLive.next_le (hs : LineLive page s) {p : ℕ} {st₁ : HeapState}
    (hinv₁ : PageInv page st₁)
    (hlive₁ : st₁.live = ⟨p, s.lineCapacity * 2 + 1⟩ :: s.heap.live) :
    s.lineCapacity * 2 + 1 + 16 ≤ 2 ^ 20 := by
  obtain ⟨_, hzero⟩ | ⟨_, hmem⟩ := hs.line
  · omega
  · exact hinv₁.new_bytes_le hlive₁ hmem

/-- Growing the line stops or makes room. -/
theorem growLine_live (palloc : ℕ → ℕ) (hs : LineLive page s) :
    ∃ s', growLine (kernelHeap palloc) s = some s' ∧
      (s'.stopped = false → LineLive page s' ∧ s'.lineSize < s'.lineCapacity) := by
  have hcap := hs.capacity_le
  have hsize := hs.size_le
  have heq := nextCapacity_eq (show s.lineCapacity < 2 ^ 63 by omega)
  have hlt : s.lineCapacity < s.lineCapacity * 2 + 1 := by omega
  rw [growLine]
  simp only [heq]
  obtain ⟨p, st₁, hres, hinv₁, hlive₁⟩ := kernelHeap_malloc palloc hs.heap
    (show s.lineCapacity * 2 + 1 ≤ 2 ^ 21 - 16 by omega)
  simp only [hres]
  by_cases hp : p = 0
  · rw [if_pos hp]
    refine ⟨_, rfl, ?_⟩
    intro hstopped
    exact Bool.noConfusion hstopped
  · rw [if_neg hp] at hlive₁ ⊢
    obtain ⟨s', hmove, hinv', hnew, hsame⟩ :=
      moveLine_live palloc hs hinv₁ hlive₁ (hsize.trans hlt.le)
    simp only [hmove]
    refine ⟨_, rfl, ?_⟩
    intro _
    refine ⟨⟨hinv', ?_, hs.next_le hinv₁ hlive₁, Or.inr ⟨Nat.succ_pos _, hnew⟩⟩, ?_⟩
    · exact hsame.le.trans (hsize.trans hlt.le)
    · exact hsame.trans_lt (hsize.trans_lt hlt)

theorem storeChar_live (palloc : ℕ → ℕ) (hs : LineLive page s) (hlt : s.lineSize < s.lineCapacity)
    (c : UInt8) :
    ∃ s', storeChar (kernelHeap palloc) c s = some s' ∧ LineLive page s' := by
  obtain ⟨_, hzero⟩ | ⟨hpos, hmem⟩ := hs.line
  · omega
  · have hcap := hs.capacity_le
    obtain ⟨⟨free, live, hheap⟩, ho⟩ := hs.heap
    obtain ⟨st, hstore, hs', hsame⟩ := kernelHeap_store palloc hheap hmem
      (Nat.le_add_right _ s.lineSize) (Nat.add_lt_add_left hlt _) c
    have hmod : (s.lineSize + 1) % 2 ^ 64 = s.lineSize + 1 := Nat.mod_eq_of_lt (by omega)
    rw [storeChar]
    simp only [hstore, hmod]
    exact ⟨_, rfl, ⟨⟨free, live, hs'⟩, hsame.onPage ho⟩, hlt, hcap,
      Or.inr ⟨hpos, hsame.live ▸ hmem⟩⟩

theorem appendChar_live (palloc : ℕ → ℕ) (hs : LineLive page s) (c : UInt8) :
    ∃ s', appendChar (kernelHeap palloc) c s = some s' ∧
      (s'.stopped = false → LineLive page s') := by
  have hs' : LineLive page { s with echoed := s.echoed ++ [c] } :=
    ⟨hs.heap, hs.size_le, hs.capacity_le, hs.line⟩
  have hcap := hs.capacity_le
  have hsize := hs.size_le
  have hmod : (s.lineSize + 1) % 2 ^ 64 = s.lineSize + 1 := Nat.mod_eq_of_lt (by omega)
  rw [appendChar]
  simp only [hmod]
  by_cases hfull : s.lineSize + 1 > s.lineCapacity
  · rw [if_pos hfull]
    obtain ⟨s₁, hgrow, hs₁⟩ := growLine_live palloc hs'
    simp only [hgrow]
    cases hstopped : s₁.stopped with
    | true =>
      rw [if_pos rfl]
      refine ⟨s₁, rfl, ?_⟩
      intro hrun
      exact Bool.noConfusion (hrun.symm.trans hstopped)
    | false =>
      rw [if_neg Bool.false_ne_true]
      obtain ⟨hlive, hlt⟩ := hs₁ hstopped
      obtain ⟨s₂, hstore, hs₂⟩ := storeChar_live palloc hlive hlt c
      exact ⟨s₂, hstore, fun _ => hs₂⟩
  · rw [if_neg hfull]
    obtain ⟨s₂, hstore, hs₂⟩ := storeChar_live palloc hs' (by
      show s.lineSize < s.lineCapacity
      omega) c
    exact ⟨s₂, hstore, fun _ => hs₂⟩

/-- The callback outside the reset. -/
theorem shellInputCallback_live (palloc : ℕ → ℕ) (hs : LineLive page s) (event : KeyboardEvent) :
    ∃ s', shellInputCallback (kernelHeap palloc) event s = some s' ∧
      (s'.stopped = false → LineLive page s') := by
  by_cases hsilent : typedChars s.shiftIsHeld event = []
  · obtain ⟨shiftIsHeld, hres⟩ := shellInputCallback_silent (kernelHeap palloc) hsilent
    exact ⟨_, hres, fun _ => ⟨hs.heap, hs.size_le, hs.capacity_le, hs.line⟩⟩
  · obtain ⟨c, _, _, hres⟩ := shellInputCallback_typed (kernelHeap palloc) hsilent
    rw [hres]
    exact appendChar_live palloc hs c

end Callback

/-! ### The reset -/

/-- What is true before each statement. -/
def PromptHolds (page : ℕ) (s : Prompt) : Prop :=
  match s.pc with
  | .outside => LineLive page s.shell
  | .clearSize => PageInv page s.shell.heap ∧ s.shell.lineCapacity = 0 ∧
      (s.shell.currentLine = 0 ∨ ∃ a ∈ s.shell.heap.live, a.ptr = s.shell.currentLine)
  | .testLine => PageInv page s.shell.heap ∧ s.shell.lineCapacity = 0 ∧ s.shell.lineSize = 0 ∧
      (s.shell.currentLine = 0 ∨ ∃ a ∈ s.shell.heap.live, a.ptr = s.shell.currentLine)
  | .callKfree => PageInv page s.shell.heap ∧ s.shell.lineCapacity = 0 ∧ s.shell.lineSize = 0 ∧
      ∃ a ∈ s.shell.heap.live, a.ptr = s.shell.currentLine
  | .inKfree pc => s.shell.lineCapacity = 0 ∧ s.shell.lineSize = 0 ∧
      ∃ h, KfreeRuns pc s.shell.heap.heap h ∧ PageInv page { s.shell.heap with heap := h }
  | .clearLine => PageInv page s.shell.heap ∧ s.shell.lineCapacity = 0 ∧ s.shell.lineSize = 0

section Reset
variable {page : ℕ} {s : Prompt}

/-- One statement. -/
theorem resetStep_holds (hs : PromptHolds page s) :
    ∃ s', resetStep s = some s' ∧ PromptHolds page s' := by
  obtain ⟨shell, pc⟩ := s
  cases pc with
  | outside =>
    have hline : LineLive page shell := hs
    refine ⟨_, rfl, hline.heap, rfl, ?_⟩
    obtain ⟨hnull, _⟩ | ⟨_, hmem⟩ := hline.line
    · exact Or.inl hnull
    · exact Or.inr ⟨_, hmem, rfl⟩
  | clearSize =>
    obtain ⟨hheap, hcap, hline⟩ := hs
    exact ⟨_, rfl, hheap, hcap, rfl, hline⟩
  | testLine =>
    obtain ⟨hheap, hcap, hsize, hline⟩ := hs
    refine ⟨_, rfl, ?_⟩
    by_cases hnull : shell.currentLine = 0
    · rw [if_neg (not_not_intro hnull)]
      exact ⟨hheap, hcap, hsize⟩
    · rw [if_pos hnull]
      exact ⟨hheap, hcap, hsize, hline.resolve_left hnull⟩
  | callKfree =>
    obtain ⟨hheap, hcap, hsize, a, ha, hptr⟩ := hs
    simp only at hptr
    have hlaw : Lawful shell.heap (.kfree shell.currentLine) := Or.inr ⟨a, ha, hptr⟩
    obtain ⟨st', hstep, hinv'⟩ := smallStep_inv hheap hlaw trivial
    refine ⟨_, if_pos hlaw, hcap, hsize, ?_⟩
    obtain ⟨f, hfree, rfl⟩ := kfree_of_step hstep
    exact ⟨f.heap, KfreeRuns.of_kfree hfree, hinv'⟩
  | inKfree pc =>
    -- between the statements of `kfree` the heap is only on its way to an intact one
    obtain ⟨hcap, hsize, h, hruns, hheap⟩ := hs
    by_cases hdone : pc = .done
    · subst hdone
      cases hruns with
      | done => exact ⟨_, rfl, hheap, hcap, hsize⟩
      | step hstep _ => exact absurd hstep.symm (Option.some_ne_none _)
    · obtain ⟨pc', h₁, hstep, hrest⟩ := hruns.next hdone
      refine ⟨⟨{ shell with heap := { shell.heap with heap := h₁ } }, .inKfree pc'⟩, ?_, hcap, hsize,
        h, hrest, hheap⟩
      simp only [resetStep, if_neg hdone, hstep]
  | clearLine =>
    obtain ⟨hheap, hcap, hsize⟩ := hs
    have hzero : shell.lineCapacity = 0 := hcap
    refine ⟨_, rfl, hheap, le_of_eq (hsize.trans hcap.symm), ?_, Or.inl ⟨rfl, hcap⟩⟩
    show shell.lineCapacity + 16 ≤ 2 ^ 20
    omega

/-- **Step lemma.** -/
theorem promptStep_holds (hs : s.shell.stopped = false → PromptHolds page s)
    {action : PromptAction} (hsilent : NoLetterInside s action) :
    ∃ s', promptStep s action = some s' ∧ (s'.shell.stopped = false → PromptHolds page s') := by
  unfold promptStep
  cases hstopped : s.shell.stopped with
  | true =>
    rw [if_pos rfl]
    exact ⟨s, rfl, hs⟩
  | false =>
    rw [if_neg Bool.false_ne_true]
    have hholds := hs hstopped
    cases action with
    | reset =>
      obtain ⟨s', hres, hs'⟩ := resetStep_holds hholds
      exact ⟨s', hres, fun _ => hs'⟩
    | key event palloc =>
      obtain ⟨shell, pc⟩ := s
      by_cases hpc : pc = .outside
      · subst hpc
        obtain ⟨shell', hres, hlive⟩ := shellInputCallback_live palloc hholds event
        simp only [hres]
        exact ⟨_, rfl, hlive⟩
      · -- the callback leaves the line and the heap alone
        obtain ⟨shiftIsHeld, hres⟩ :=
          shellInputCallback_silent (kernelHeap palloc) (hsilent hpc)
        simp only [hres]
        refine ⟨_, rfl, ?_⟩
        intro _
        cases pc with
        | outside => exact absurd rfl hpc
        | _ => exact hholds

theorem promptStep_key_pc {s' : Prompt} {event : KeyboardEvent} {palloc : ℕ → ℕ}
    (h : promptStep s (.key event palloc) = some s') : s'.pc = s.pc := by
  rw [promptStep] at h
  by_cases hstopped : s.shell.stopped = true
  · rw [if_pos hstopped] at h
    exact Option.some_inj.1 h ▸ rfl
  · simp only [if_neg hstopped] at h
    split at h
    · exact absurd h.symm (Option.some_ne_none s')
    · exact Option.some_inj.1 h ▸ rfl

end Reset

/-- **The prompt is reset safely** in every run in which no letter is handled
between the first and the last statement of a reset. -/
theorem promptConsistent_of_run {page : ℕ} (hp : PageOk page) (mem : ByteMemory.Mem)
    {actions : List PromptAction}
    (hrun : Along promptStep NoLetterInside (Prompt.start mem page) actions) :
    PromptConsistent mem page actions := by
  have hstart :
      (Prompt.start mem page).shell.stopped = false → PromptHolds page (Prompt.start mem page) := by
    intro _
    obtain ⟨hs, ho⟩ := start_holds mem hp
    exact ⟨⟨⟨_, _, hs⟩, ho⟩, le_rfl, show 0 + 16 ≤ 2 ^ 20 by decide, Or.inl ⟨rfl, rfl⟩⟩
  obtain ⟨s, hexec, hs⟩ := hrun.exec_invariant (fun s action hs h => promptStep_holds hs h) hstart
  refine ⟨s, hexec, ?_⟩
  intro hstopped hpc
  have hholds := hs hstopped
  rw [PromptHolds, hpc] at hholds
  exact hholds.consistent

/-- Two letters, and a reset that frees their buffer, with Shift pressed after
its first statement. -/
theorem promptConsistent_of_run_letters :
    PromptConsistent (fun _ => 0) 0x200000
      ([.key ⟨.a, false⟩ fun _ => 0, .key ⟨.b, false⟩ fun _ => 0, .reset,
        .key ⟨.leftShift, false⟩ fun _ => 0] ++ List.replicate 141 .reset) := by
  refine promptConsistent_of_run ⟨by decide, by decide, by decide⟩ _ ?_
  refine ⟨fun hpc => absurd rfl hpc, fun s₁ h₁ => ?_⟩
  refine ⟨fun hpc => absurd (promptStep_key_pc h₁) hpc, fun s₂ _ => ⟨trivial, fun s₃ _ => ?_⟩⟩
  refine ⟨fun _ => ?_, fun s₄ _ => ?_⟩
  · cases s₃.shell.shiftIsHeld <;> rfl
  · refine .mono ?_ (.of_mem (R := fun action => action = .reset) fun _ => List.eq_of_mem_replicate)
    rintro _ _ rfl
    trivial

/-- The heap after `kalloc_init` serves every small request. -/
theorem start_serves {page : ℕ} (hp : PageOk page) (mem : ByteMemory.Mem) (palloc : ℕ → ℕ)
    {bytes : ℕ} (hpos : bytes ≠ 0) (hsmall : bytes + 16 ≤ 2 ^ 21) :
    ∃ p h, kmalloc palloc bytes (HeapState.start mem page).heap = some (p, h) ∧ p ≠ 0 := by
  obtain ⟨⟨hok, _⟩, _, hlevel⟩ := start_holds mem hp
  have hfits : bytes + 16 ≤ (HeapState.start mem page).heap.highestBlockSize := by
    rw [hok.repr.size_eq, hlevel]
    omega
  rw [kmalloc_eq_allocLevel hok.repr.sizesOk hpos (by omega) hfits]
  obtain ⟨_, hempty⟩ | ⟨⟨p, h⟩, heq, b, _, htook⟩ :=
    allocLevel_spec hok (show 16 < bytes + 16 by omega) (by omega)
  · have hclass : Nat.clog 2 (bytes + 16) ≤ 18 + 3 := Nat.clog_le_of_le_pow hsmall
    exact absurd ((start_head hp mem).symm.trans (hempty 18 hclass hlevel.ge)) hp.nonnull
  · refine ⟨p, h, heq, ?_⟩
    have hptr : p = b.addr + 16 := htook.ptr
    omega

/-- A letter that is handled just before the last statement: its buffer is
forgotten, its capacity stays. -/
theorem promptConsistent_fails :
    ¬PromptConsistent (fun _ => 0) 0x200000
      [.reset, .reset, .reset, .key ⟨.a, false⟩ fun _ => 0, .reset] := by
  have hpage : PageOk 0x200000 := ⟨by decide, by decide, by decide⟩
  obtain ⟨p, h, hres, hp⟩ := start_serves hpage (fun _ => 0) (fun _ => 0) one_ne_zero (by decide)
  obtain ⟨shell, hletter, hcap, hrunning⟩ : ∃ shell, shellInputCallback (kernelHeap fun _ => 0)
      ⟨.a, false⟩ (Shell.initial (HeapState.start (fun _ => 0) 0x200000)) = some shell ∧
      shell.lineCapacity = 1 ∧ shell.stopped = false := by
    have hnew : letterChar false .a ≠ 0 := by decide
    have hlive : (HeapState.start (fun _ => 0) 0x200000).live = [] := rfl
    simp [shellInputCallback, setFlags, hnew, appendChar, growLine, moveLine, storeChar,
      kernelHeap, heapStep, Shell.initial, hres, hp, hlive]
  have hkey : promptStep ⟨.initial (HeapState.start (fun _ => 0) 0x200000), .clearLine⟩
      (.key ⟨.a, false⟩ fun _ => 0) = some ⟨shell, .clearLine⟩ := by
    simp only [promptStep, hletter]
    rfl
  have hlast : promptStep ⟨shell, .clearLine⟩ .reset =
      some ⟨{ shell with currentLine := 0, echoed := [] }, .outside⟩ :=
    if_neg (hrunning ▸ Bool.false_ne_true)
  have hbefore : exec promptStep (Prompt.start (fun _ => 0) 0x200000) [.reset, .reset, .reset] =
      some ⟨.initial (HeapState.start (fun _ => 0) 0x200000), .clearLine⟩ := rfl
  rintro ⟨s, hexec, hcons⟩
  have hsplit : exec promptStep (Prompt.start (fun _ => 0) 0x200000)
      ([.reset, .reset, .reset] ++ [.key ⟨.a, false⟩ fun _ => 0, .reset]) = some s := hexec
  rw [exec_append, hbefore, Option.bind_some, exec_cons hkey, exec_cons hlast] at hsplit
  obtain rfl := Option.some_inj.1 hsplit
  have hzero := (hcons hrunning rfl).null_iff.1 rfl
  exact absurd (hzero.symm.trans hcap) zero_ne_one

end Ssos
