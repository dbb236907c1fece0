import Ssos.Mem.HeapRuns
import Ssos.Mem.HeaderWalk

/-!
# Frees on a grown heap

After growth the heap has several runs of different sizes that are only
page-aligned, but the merge loop still flips address bits up to one global
level. Frees stay inside the heap as long as every freed block is confined. A
block that is not confined sends the merge loop to a stray address.

## Main results

- `freesInside_of_confined_run` — confined frees examine and produce blocks of the heap only
- `freesInside_fails` — a run that leaves the heap
-/

namespace Ssos

open ByteMemory Buddy Window PointerList PartialRun

/-- The block that `kfree` put on a free list. -/
def Freed.made (f : Freed) : Window :=
  ⟨f.block, blockLevel f.heap.mem f.block + memBlocksBaseLevel⟩

/-- `kfree ptr` examines only starts of blocks of the heap, and the block it
produces lies in one page run and meets no block of another live pointer. -/
def FreeStaysInside (s : HeapState) (ptr : ℕ) : Prop :=
  ∃ f, kfree ptr s.heap = some f ∧
    (∀ a ∈ f.examined, ∃ b ∈ heapBlocks s.heap, b.addr = a) ∧
    (ptr ≠ 0 → (∃ r ∈ s.heap.runs, ∀ x, x ∈ f.made → x ∈ r) ∧
      ∀ a ∈ s.live, a.ptr ≠ ptr → ∀ x, x ∈ f.made → x ∉ usedBlock s.heap.mem a.ptr)

/-- Every free of the run stays inside the heap. -/
def FreesInside (s : HeapState) : HeapOp → Prop
  | .kfree ptr => FreeStaysInside s ptr
  | _ => True

section Confined
variable {s : HeapState} {free live : Set Window}

/-- A confined free stays inside the heap. -/
theorem Holds.freeStaysInside (hs : Holds s free live) {b : Window} (hb : b ∈ live)
    (hconf : Confined s.heap live b) : FreeStaysInside s (b.addr + 16) := by
  obtain ⟨f, s', hf, hok, _⟩ := hs.freed hb hconf
  obtain ⟨free', c, ok', hc, hcaddr, _, r, hroot, hcr⟩ := hok.made
  have hmade : f.made = c := by
    have hlevel := ok'.level_of_mem (Or.inl hc)
    rw [hcaddr] at hlevel
    exact Window.ext hcaddr.symm hlevel
  refine ⟨f, hf, fun a ha => ?_, fun _ => ⟨⟨r, hroot, fun x hx => ?_⟩, ?_⟩⟩
  · obtain ⟨d, hd, hda⟩ := hok.starts a ha
    exact ⟨d, (hs.ok.mem_heapBlocks d).2 hd, hda⟩
  · rw [hmade] at hx
    exact hcr.mem hx
  · intro a ha hne x hx
    obtain ⟨d, hd, hptr, _⟩ := hs.owned.block a ha
    rw [hptr, hs.usedBlock_eq hd]
    rw [hmade] at hx
    refine ok'.repr.free_notMem_used hc ⟨hd, fun hdb => hne ?_⟩ hx
    obtain rfl : d = b := hdb
    exact hptr

theorem HeapInv.freesInside {op : HeapOp} (hinv : HeapInv s) (hlaw : Lawful s op)
    (hconf : StaysConfined s op) : FreesInside s op := by
  obtain ⟨free, live, hs⟩ := hinv
  cases op with
  | kmalloc bytes palloc => trivial
  | write addr value => trivial
  | kfree ptr =>
    by_cases hz : ptr = 0
    · refine ⟨⟨[], 0, s.heap⟩, by rw [kfree, if_pos hz], ?_, fun hne => absurd hz hne⟩
      exact fun a ha => absurd ha List.not_mem_nil
    · obtain ⟨a, ha, rfl⟩ := hlaw.resolve_left hz
      obtain ⟨b, hb, hptr, _⟩ := hs.owned.block a ha
      have hc := hconf.resolve_left hz
      rw [hs.liveBlocks_eq, hptr, hs.usedBlock_eq hb] at hc
      rw [FreesInside, hptr]
      exact hs.freeStaysInside hb hc

end Confined

/-- **Confined frees stay inside the heap.** In every run whose requests are
served within `2 ^ 31` bytes or refused and whose frees are confined, every
step is defined and every free examines and produces blocks of the heap only. -/
theorem freesInside_of_confined_run {page : ℕ} (hp : PageOk page) (mem : Mem)
    {ops : List HeapOp}
    (hops : Along heapStep (fun s op => (Lawful s op ∧ Granted s op) ∧ StaysConfined s op)
      (HeapState.start mem page) ops) :
    (∃ s, exec heapStep (HeapState.start mem page) ops = some s) ∧
      Along heapStep FreesInside (HeapState.start mem page) ops := by
  have hstart : HeapInv (HeapState.start mem page) := ⟨_, _, (start_holds mem hp).1⟩
  have hstep : ∀ s op, HeapInv s → (Lawful s op ∧ Granted s op) ∧ StaysConfined s op →
      ∃ s', heapStep s op = some s' ∧ HeapInv s' := fun s op hinv h =>
    heapStep_inv hinv h.1.1 h.1.2 h.2
  constructor
  · obtain ⟨s, hexec, _⟩ := hops.exec_invariant hstep hstart
    exact ⟨s, hexec⟩
  · refine hops.of_invariant ?_ (fun s op hinv h => hinv.freesInside h.1.1 h.2) hstart
    intro s op s' hinv h hs'
    obtain ⟨s₁, hs₁, hinv₁⟩ := hstep s op hinv h
    rw [hs₁] at hs'
    exact Option.some_inj.1 hs' ▸ hinv₁

/-! ### A heap that has grown once -/

/-- Memory outside the heap whose bytes happen to look like a free block. -/
def strayHeader : Mem := fun a => if a = 0x600008 then 18 else if a = 0x600009 then 1 else 0

/-- The page allocator answers a request for two pages. -/
def grantTwo : ℕ → ℕ := fun count => if count = 2 then 0x800000 else 0

/-- The page is used up; a second request makes the heap grow by one run. -/
def growOnce : List HeapOp := [.kmalloc 0x1FFFF0 grantTwo, .kmalloc 0x200000 grantTwo]

theorem growOnce_page : PageOk 0x400000 := ⟨by decide, by decide, by decide⟩

/-- Requests of up to two MiB ask for level 19 at most. -/
theorem asked_two_mib {h : Heap} (hlevel : 18 ≤ h.highestLevel) {size L : ℕ}
    (hsize : size ≤ 0x200010) (hask : Asked h size L) : L = 19 := by
  obtain ⟨hlow, _, hlt⟩ := hask
  by_contra hne
  have hpow : 2 ^ 22 ≤ 2 ^ (L + 2) := Nat.pow_le_pow_right (by decide) (by omega)
  omega

/-- The request that uses up the page is small, so the heap is still on its page. -/
theorem growOnce_first {mem : Mem} {palloc : ℕ → ℕ} {s : HeapState}
    (hs : heapStep (HeapState.start mem 0x400000) (.kmalloc 0x1FFFF0 palloc) = some s) :
    PageInv 0x400000 s := by
  obtain ⟨hs₀, ho₀⟩ := start_holds mem growOnce_page
  have hlaw : Lawful (HeapState.start mem 0x400000) (.kmalloc 0x1FFFF0 palloc) :=
    show 0x1FFFF0 < 2 ^ 64 by decide
  have hsmall : Small (.kmalloc 0x1FFFF0 palloc) := show 0x1FFFF0 ≤ 2 ^ 21 - 16 by decide
  obtain ⟨s', hs', hinv⟩ := smallStep_inv ⟨⟨_, _, hs₀⟩, ho₀⟩ hlaw hsmall
  exact Option.some_inj.1 (hs'.symm.trans hs) ▸ hinv

theorem growOnce_state {s : HeapState}
    (h : exec heapStep (HeapState.start strayHeader 0x400000) growOnce = some s) :
    s.live.map Alloc.ptr = [0x800010, 0x400010] ∧
      s.heap.runs = [⟨0x800000, 22⟩, ⟨0x400000, 21⟩] ∧ s.heap.highestLevel = 19 ∧
      heapBlocks s.heap = [⟨0x800000, 22⟩, ⟨0x400000, 21⟩] := by
  have heval : (exec heapStep (HeapState.start strayHeader 0x400000) growOnce).map
      (fun s => (s.live.map Alloc.ptr, s.heap.runs, s.heap.highestLevel, heapBlocks s.heap)) =
      some ([0x800010, 0x400010], [⟨0x800000, 22⟩, ⟨0x400000, 21⟩], 19,
        [⟨0x800000, 22⟩, ⟨0x400000, 21⟩]) := by decide +kernel
  rw [h, Option.map_some, Option.some_inj] at heval
  simpa only [Prod.mk.injEq] using heval

theorem growOnce_frees {s : HeapState}
    (h : exec heapStep (HeapState.start strayHeader 0x400000) growOnce = some s) :
    usedBlock s.heap.mem 0x800010 = ⟨0x800000, 22⟩ ∧
      (kfree 0x400010 s.heap).map Freed.examined = some [0x600000] := by
  have heval : (exec heapStep (HeapState.start strayHeader 0x400000) growOnce).map
      (fun s => (usedBlock s.heap.mem 0x800010, (kfree 0x400010 s.heap).map Freed.examined)) =
      some (⟨0x800000, 22⟩, some [0x600000]) := by decide +kernel
  rw [h, Option.map_some, Option.some_inj] at heval
  simpa only [Prod.mk.injEq] using heval

/-- Both requests keep the promises of callers and page allocator, whatever
follows them. -/
theorem growOnce_along {P : HeapState → HeapOp → Prop} (ops : List HeapOp)
    (hP : ∀ s bytes palloc, bytes + 16 ≤ 2 ^ 31 → Lawful s (.kmalloc bytes palloc) →
      Granted s (.kmalloc bytes palloc) → P s (.kmalloc bytes palloc))
    (hops : ∀ s, exec heapStep (HeapState.start strayHeader 0x400000) growOnce = some s →
      Along heapStep P s ops) :
    Along heapStep P (HeapState.start strayHeader 0x400000) (growOnce ++ ops) := by
  obtain ⟨hs₀, ho₀⟩ := start_holds strayHeader growOnce_page
  have hlaw : ∀ s : HeapState, ∀ bytes ≤ 0x200000, Lawful s (.kmalloc bytes grantTwo) := by
    intro s bytes hb
    simp only [Lawful]
    omega
  refine ⟨hP _ _ _ (by decide) (hlaw _ _ (by decide)) ?_, fun s₁ hs₁ => ⟨hP _ _ _ (by decide)
    (hlaw _ _ (by decide)) ?_, fun s₂ hs₂ => hops s₂ ?_⟩⟩
  · refine GrantOk.of_le _ hs₀.ok.repr ?_
    rw [hs₀.ok.repr.size_eq, ho₀.highest]
    decide
  · obtain ⟨_, ho⟩ := growOnce_first hs₁
    have hlevel : ∀ L, Asked s₁.heap ((0x200000 + metaSize) % 2 ^ 64) L → L = 19 := fun L hask =>
      asked_two_mib ho.highest.ge (by rw [metaSize_eq]; decide) hask
    refine ⟨fun L hL _ => ?_, fun K L hK hL hlt => ?_⟩
    · obtain rfl := hlevel L hL
      refine ⟨by decide, by decide, by decide, fun r hroot x hx hxr => ?_⟩
      rw [ho.roots_eq] at hroot
      obtain rfl : r = pageWindow 0x400000 := hroot
      have hlow : 0x800000 ≤ x := hx.1
      have hhigh : x < 0x400000 + 2 ^ 21 := hxr.2
      omega
    · have := hlevel K hK
      have := hlevel L hL
      omega
  · rw [growOnce, exec_cons hs₁, exec_cons hs₂]
    rfl

/-- The larger run is a block of the largest order, so its free merges nothing. -/
theorem freesInside_of_confined_run_growOnce :
    (∃ s, exec heapStep (HeapState.start strayHeader 0x400000)
        (growOnce ++ [.kfree 0x800010]) = some s) ∧
      Along heapStep FreesInside (HeapState.start strayHeader 0x400000)
        (growOnce ++ [.kfree 0x800010]) := by
  refine freesInside_of_confined_run growOnce_page strayHeader (growOnce_along _ ?_ ?_)
  · exact fun s bytes palloc hle hlaw hg => ⟨⟨hlaw, hg⟩, Or.inl hle⟩
  · intro s hs
    obtain ⟨hptrs, hruns, hhigh, _⟩ := growOnce_state hs
    have hblock := (growOnce_frees hs).1
    refine ⟨⟨⟨Or.inr ?_, trivial⟩, Or.inr ?_⟩, fun _ _ => trivial⟩
    · have hmem : 0x800010 ∈ s.live.map Alloc.ptr := by
        rw [hptrs]
        decide
      exact List.mem_map.1 hmem
    · have hroot : (⟨0x800000, 22⟩ : Window) ∈ s.heap.roots := by
        rw [Heap.roots, hruns]
        exact List.mem_cons_self
      rw [hblock]
      refine ⟨_, hroot, _, Sub.refl _, Sub.refl _, Or.inl ?_⟩
      rw [hhigh]

/-- Freeing the first page leaves the heap: its merge loop takes the stray
bytes at `0x600000` for a buddy. -/
theorem freesInside_fails :
    ¬∀ (page : ℕ) (mem : Mem) (ops : List HeapOp), PageOk page →
      Along heapStep (fun s op => Lawful s op ∧ Granted s op) (HeapState.start mem page) ops →
      Along heapStep FreesInside (HeapState.start mem page) ops := by
  intro hall
  obtain ⟨hs₀, ho₀⟩ := start_holds strayHeader growOnce_page
  -- the two requests are defined, and the free after them is lawful
  have hgrow : Along heapStep (fun s op => (Lawful s op ∧ Granted s op) ∧ StaysConfined s op)
      (HeapState.start strayHeader 0x400000) growOnce :=
    growOnce_along [] (fun s bytes palloc hle hlaw hg => ⟨⟨hlaw, hg⟩, Or.inl hle⟩)
      fun _ _ => trivial
  obtain ⟨s, hs, _⟩ := hgrow.exec_invariant
    (fun s op hinv h => heapStep_inv hinv h.1.1 h.1.2 h.2) ⟨_, _, hs₀⟩
  obtain ⟨hptrs, _, _, hblocks⟩ := growOnce_state hs
  have hexamined := (growOnce_frees hs).2
  have hrun := hall 0x400000 strayHeader (growOnce ++ [.kfree 0x400010]) growOnce_page
    (growOnce_along _ (fun s bytes palloc _ hlaw hg => ⟨hlaw, hg⟩) fun s' hs' => ?_)
  · obtain ⟨f, hf, hstarts, _⟩ := (hrun.suffix hs).1
    rw [hf] at hexamined
    have hlist : f.examined = [0x600000] := Option.some_inj.1 hexamined
    obtain ⟨b, hb, hba⟩ := hstarts 0x600000 (by rw [hlist]; exact List.mem_singleton_self _)
    rw [hblocks] at hb
    have hno : ∀ b ∈ ([⟨0x800000, 22⟩, ⟨0x400000, 21⟩] : List Window), b.addr ≠ 0x600000 := by
      decide
    exact hno b hb hba
  · obtain rfl := Option.some_inj.1 (hs.symm.trans hs')
    refine ⟨⟨Or.inr ?_, trivial⟩, fun _ _ => trivial⟩
    have hmem : 0x400010 ∈ s.live.map Alloc.ptr := by
      rw [hptrs]
      decide
    exact List.mem_map.1 hmem

end Ssos
