import Ssos.Mem.HeapRuns
import Ssos.Mem.HeaderWalk

/-!
# The heap on its first page

As long as all requests fit the first page, the headers in memory tile the
page, the free lists hold exactly the free blocks, the callers' payloads are
apart, and the free blocks are the largest aligned windows that the live
blocks leave, whatever the order of the calls.

## Main results

- `buddyInvariant_of_run` — tiling, free lists and payloads in every state of every run
- `coalescing_of_run` — the free blocks are a function of the live blocks
- `nullMeansNoRoom_of_run` — `kmalloc` fails only when no aligned window is clear
-/

namespace Ssos

open ByteMemory Buddy Window PointerList PartialRun

/-- The blocks that the headers in the page describe. -/
def pageBlocks (m : Mem) (page : ℕ) : List Window := runBlocks m (pageWindow page)

/-- The free ones. -/
def pageFree (m : Mem) (page : ℕ) : List Window := runFree m (pageWindow page)

/-! ### Tiling, lists, payloads -/

structure BuddyInvariant (page : ℕ) (s : HeapState) : Prop where
  tiles : Contiguous (page + 2 ^ 21) page (pageBlocks s.heap.mem page)
  aligned : ∀ b ∈ pageBlocks s.heap.mem page, 2 ^ b.order ∣ b.addr
  lists : ∀ L, ∃ xs, Linked (blockNext s.heap.mem) (s.heap.memBlocks L) xs ∧ xs.Nodup ∧
    ∀ a, a ∈ xs ↔
      (⟨a, L + 3⟩ : Window) ∈ pageBlocks s.heap.mem page ∧ blockIsFree s.heap.mem a = true
  payloads : ∀ a ∈ s.live, 16 ∣ a.ptr ∧ ∃ b ∈ pageBlocks s.heap.mem page,
    blockIsFree s.heap.mem b.addr = false ∧ a.ptr = b.addr + 16 ∧ a.ptr + a.bytes ≤ b.stop
  apart : s.live.Pairwise fun a a' => a.ptr + a.bytes ≤ a'.ptr ∨ a'.ptr + a'.bytes ≤ a.ptr
  headers : ∀ a ∈ s.live, ∀ b ∈ pageBlocks s.heap.mem page,
    a.ptr + a.bytes ≤ b.addr ∨ b.addr + 16 ≤ a.ptr

section Invariant
variable {page : ℕ} {s : HeapState} {free live : Set Window}

/-- Every block of a heap that is on its page lies in the page's tree. -/
theorem OnPage.sub_page (ho : OnPage page s) (hs : Holds s free live) {b : Window}
    (hb : b ∈ free ∪ live) : Sub b (pageWindow page) := by
  obtain ⟨r, hroot, hsub⟩ := hs.ok.repr.tiling.within b hb
  rw [ho.roots_eq] at hroot
  obtain rfl : r = pageWindow page := hroot
  exact hsub

theorem OnPage.mem_pageBlocks (ho : OnPage page s) (hs : Holds s free live) (b : Window) :
    b ∈ pageBlocks s.heap.mem page ↔ b ∈ free ∪ live := by
  rw [pageBlocks, (hs.ok.runBlocks_spec ho.root_mem).2]
  exact ⟨And.left, fun hb => ⟨hb, ho.sub_page hs hb⟩⟩

theorem OnPage.mem_pageFree (ho : OnPage page s) (hs : Holds s free live) (b : Window) :
    b ∈ pageFree s.heap.mem page ↔ b ∈ free := by
  rw [pageFree, hs.ok.mem_runFree ho.root_mem]
  exact ⟨And.left, fun hb => ⟨hb, ho.sub_page hs (Or.inl hb)⟩⟩

theorem OnPage.aligned (ho : OnPage page s) (hs : Holds s free live) :
    2 ^ (pageWindow page).order ∣ (pageWindow page).addr :=
  hs.ok.repr.root_aligned _ ho.root_mem

/-- The payload of an allocation lies in its block behind the header. -/
theorem Holds.payload (hs : Holds s free live) {a : Alloc} (ha : a ∈ s.live) :
    ∃ b ∈ live, a.ptr = b.addr + 16 ∧ a.ptr + a.bytes ≤ b.stop := by
  obtain ⟨b, hb, hptr, _, hfit⟩ := hs.owned.block a ha
  refine ⟨b, hb, hptr, ?_⟩
  simp only [Window.stop]
  omega

/-- Different pointers have payloads apart. -/
theorem Holds.payloads_apart (hs : Holds s free live) {a a' : Alloc} (ha : a ∈ s.live)
    (ha' : a' ∈ s.live) (hne : a.ptr ≠ a'.ptr) :
    a.ptr + a.bytes ≤ a'.ptr ∨ a'.ptr + a'.bytes ≤ a.ptr := by
  obtain ⟨b, hb, hptr, hstop⟩ := hs.payload ha
  obtain ⟨b', hb', hptr', hstop'⟩ := hs.payload ha'
  have hbb : b ≠ b' := by
    rintro rfl
    exact hne (hptr.trans hptr'.symm)
  have := hs.ok.repr.tiling.apart.stop_le (Or.inr hb) (Or.inr hb') hbb
  omega

theorem PageInv.buddyInvariant (hinv : PageInv page s) : BuddyInvariant page s := by
  obtain ⟨⟨free, live, hs⟩, ho⟩ := hinv
  have hr := hs.ok.repr
  exact
    { tiles := (hs.ok.runBlocks_spec ho.root_mem).1
      aligned := fun b hb => by
        have hsub := ho.sub_page hs ((ho.mem_pageBlocks hs b).1 hb)
        exact ((sub_iff_aligned (ho.aligned hs)).1 hsub).1
      lists := by
        intro L
        obtain ⟨xs, hl, hnd, hmem⟩ := hr.lists L
        refine ⟨xs, hl, hnd, fun a => ?_⟩
        rw [hmem a, ho.mem_pageBlocks hs]
        constructor
        · intro hf
          exact ⟨Or.inl hf, hr.isFree _ hf⟩
        · intro ⟨hb, hf⟩
          exact (hs.ok.isFree_iff hb).1 hf
      payloads := by
        intro a ha
        obtain ⟨b, hb, hptr, hstop⟩ := hs.payload ha
        have h16 := hr.aligned16 (Or.inr hb)
        exact ⟨by omega, b, (ho.mem_pageBlocks hs b).2 (Or.inr hb), (hs.ok.marked b hb).2, hptr,
          hstop⟩
      apart := (List.pairwise_map.1 hs.owned.nodup).imp_of_mem fun ha ha' hne =>
        hs.payloads_apart ha ha' hne
      headers := by
        intro a ha b hb
        obtain ⟨c, hc, hptr, hstop⟩ := hs.payload ha
        have hb' := (ho.mem_pageBlocks hs b).1 hb
        have hhdr : b.addr + 15 ∈ b := hr.header_mem hb' (by omega) (by omega)
        by_cases hbc : c = b
        · subst hbc
          omega
        · have := hr.tiling.apart.stop_le (Or.inr hc) hb' hbc
          have := hhdr.2
          omega }

end Invariant

/-- Every sequence of small requests and frees of live pointers runs to its end
on the first page. -/
theorem pageInv_of_run {page : ℕ} (hp : PageOk page) (mem : Mem) {ops : List HeapOp}
    (hops : Along heapStep (fun s op => Lawful s op ∧ Small op) (HeapState.start mem page) ops) :
    ∃ s, exec heapStep (HeapState.start mem page) ops = some s ∧ PageInv page s := by
  obtain ⟨hs, ho⟩ := start_holds mem hp
  exact hops.exec_invariant (fun s op hinv h => smallStep_inv hinv h.1 h.2) ⟨⟨_, _, hs⟩, ho⟩

/-- On the page at 2 MiB: two requests, a write to the payload of the second, a
free of the first, whose block is merged, and one more request. -/
def smallCalls : List HeapOp :=
  [.kmalloc 100 fun _ => 0, .kmalloc 5000 fun _ => 0, .write 0x3FC010 7, .kfree 0x3FFF90,
    .kmalloc 64 fun _ => 0]

theorem smallCalls_small : Along heapStep (fun s op => Lawful s op ∧ Small op)
    (HeapState.start (fun _ => 0) 0x200000) smallCalls := by decide +kernel

/-- **Buddy invariant.** Every sequence of small requests, frees of live
pointers and writes to payloads runs to its end on the first page, and the
invariant holds afterwards. -/
theorem buddyInvariant_of_run {page : ℕ} (hp : PageOk page) (mem : Mem) {ops : List HeapOp}
    (hops : Along heapStep (fun s op => Lawful s op ∧ Small op) (HeapState.start mem page) ops) :
    ∃ s, exec heapStep (HeapState.start mem page) ops = some s ∧ BuddyInvariant page s := by
  obtain ⟨s, hexec, hinv⟩ := pageInv_of_run hp mem hops
  exact ⟨s, hexec, hinv.buddyInvariant⟩

theorem buddyInvariant_of_run_at_0x200000 :
    ∃ s, exec heapStep (HeapState.start (fun _ => 0) 0x200000) smallCalls = some s ∧
      BuddyInvariant 0x200000 s := by
  exact buddyInvariant_of_run ⟨by decide, by decide, by decide⟩ _ smallCalls_small

/-! ### The free blocks as a function of the live blocks -/

/-- A size-aligned window of the page that meets no live block. -/
structure OpenWindow (page : ℕ) (s : HeapState) (w : Window) : Prop where
  aligned : 2 ^ w.order ∣ w.addr
  lower : page ≤ w.addr
  upper : w.stop ≤ page + 2 ^ 21
  clear : ∀ b ∈ liveBlocks s, ∀ x, x ∈ w → x ∉ b

/-- One that lies in no other. -/
def MaximalOpenWindow (page : ℕ) (s : HeapState) (w : Window) : Prop :=
  OpenWindow page s w ∧ ∀ v, OpenWindow page s v → (∀ x, x ∈ w → x ∈ v) → v = w

structure Coalescing (page : ℕ) (s : HeapState) : Prop where
  maximal : ∀ w, w ∈ pageFree s.heap.mem page ↔ MaximalOpenWindow page s w
  noBuddies : ∀ b ∈ pageFree s.heap.mem page, ∀ c ∈ pageFree s.heap.mem page,
    b.order = c.order → b.addr ^^^ 2 ^ b.order ≠ c.addr
  restores : ∀ bytes palloc p h, bytes ≤ 2 ^ 21 - 16 →
    kmalloc palloc bytes s.heap = some (p, h) → p ≠ 0 →
    ∃ f, kfree p h = some f ∧ ∀ w, w ∈ pageFree f.heap.mem page ↔ w ∈ pageFree s.heap.mem page
  drains : ∀ ptrs : List ℕ, ptrs.Perm (s.live.map Alloc.ptr) →
    ∃ s', exec heapStep s (ptrs.map HeapOp.kfree) = some s' ∧
      pageFree s'.heap.mem page = [pageWindow page]

section Coalescing
variable {page : ℕ} {s : HeapState} {free live : Set Window}

theorem OnPage.openWindow_iff (ho : OnPage page s) (hs : Holds s free live) (w : Window) :
    OpenWindow page s w ↔ Vacant s.heap.roots live w := by
  have hsub := sub_iff_aligned (w := w) (ho.aligned hs)
  rw [Vacant, ho.roots_eq]
  constructor
  · intro hw
    refine ⟨⟨_, rfl, hsub.2 ⟨hw.aligned, hw.lower, hw.upper⟩⟩, fun b hb => ?_⟩
    exact hw.clear b ((hs.mem_liveBlocks b).2 hb)
  · rintro ⟨⟨r, rfl, hw⟩, hclear⟩
    obtain ⟨haligned, hlower, hupper⟩ := hsub.1 hw
    exact ⟨haligned, hlower, hupper, fun b hb => hclear b ((hs.mem_liveBlocks b).1 hb)⟩

theorem OnPage.maximalOpenWindow_iff (ho : OnPage page s) (hs : Holds s free live) (w : Window) :
    MaximalOpenWindow page s w ↔ MaximalVacant s.heap.roots live w := by
  rw [MaximalOpenWindow, MaximalVacant, ho.openWindow_iff hs]
  simp only [ho.openWindow_iff hs]

theorem HeapOk.free_iff {h : Heap} (ok : HeapOk h free live) (w : Window) :
    w ∈ free ↔ MaximalVacant h.roots live w :=
  ok.coalesced.free_iff_maximal ok.repr.tiling ok.repr.roots_apart ok.repr.disjoint w

/-- Buddies would be the two halves of one node. -/
theorem OnPage.no_buddies (ho : OnPage page s) (hs : Holds s free live) {b c : Window}
    (hb : b ∈ free) (hc : c ∈ free) (hoc : b.order = c.order) :
    b.addr ^^^ 2 ^ b.order ≠ c.addr := by
  intro hxor
  have hbs := ho.sub_page hs (Or.inl hb)
  have hcs := ho.sub_page hs (Or.inl hc)
  have hne : b ≠ c := by
    rintro rfl
    have hzero := congrArg (b.addr ^^^ ·) hxor
    simp only [← Nat.xor_assoc, Nat.xor_self, Nat.zero_xor] at hzero
    exact (Nat.two_pow_pos b.order).ne' hzero
  have hlt : b.order < (pageWindow page).order := by
    refine lt_of_le_of_ne hbs.order_le fun he => hne ?_
    rw [hbs.eq_of_order_eq he, hcs.eq_of_order_eq (hoc ▸ he)]
  obtain ⟨w, t, hw, hwo, hhalf⟩ := hbs.exists_halves hlt
  have hwpos : 0 < w.order := by omega
  have halign := ((sub_iff_aligned (ho.aligned hs)).1 hw).1
  have hto := hhalf.symm.order_eq
  have hct : c = t := Window.ext (hxor.symm.trans (hhalf.xor_eq hwpos halign)) (by omega)
  subst hct
  refine hs.ok.coalesced _ ho.root_mem w hw hwpos ?_
  obtain ⟨rfl, rfl⟩ | ⟨rfl, rfl⟩ := hhalf
  · exact ⟨hb, hc⟩
  · exact ⟨hc, hb⟩

/-- `kfree` undoes `kmalloc`. -/
theorem OnPage.kfree_kmalloc (ho : OnPage page s) (hs : Holds s free live) {bytes p : ℕ}
    {palloc : ℕ → ℕ} {h : Heap} (hsmall : bytes ≤ 2 ^ 21 - 16)
    (hres : Ssos.kmalloc palloc bytes s.heap = some (p, h)) (hp : p ≠ 0) :
    ∃ f, kfree p h = some f ∧
      ∀ w, w ∈ pageFree f.heap.mem page ↔ w ∈ pageFree s.heap.mem page := by
  obtain ⟨res, heq, hserved, hruns, hlevel⟩ := ho.kmalloc hs hsmall palloc
  obtain rfl := Option.some_inj.1 (heq.symm.trans hres)
  have ho' : OnPage page ⟨h, ⟨p, bytes⟩ :: s.live⟩ := ⟨hruns.trans ho.runs, hlevel.trans ho.highest⟩
  obtain ⟨_, _, hz⟩ | ⟨b, free', hptr, hfresh, hs'⟩ := hs.served hserved
  · exact absurd hz hp
  · rw [if_neg hp] at hs'
    obtain rfl : p = b.addr + 16 := hptr
    have hb : b ∈ insert b live := Or.inl rfl
    obtain ⟨f, s'', hf, hok, _, hheap, _, free'', hs''⟩ := hs'.freed hb (ho'.confined hs' hb)
    have ho'' : OnPage page s'' :=
      ⟨by rw [hheap, hok.runs, ho'.runs], by rw [hheap, hok.highest, ho'.highest]⟩
    have hlive : insert b live \ {b} = live := Set.insert_sdiff_self_of_notMem hfresh
    refine ⟨f, hf, fun w => ?_⟩
    have hw := ho''.mem_pageFree hs'' w
    rw [hheap] at hw
    rw [hw, ho.mem_pageFree hs, hs''.ok.free_iff, hs.ok.free_iff, hlive, ho''.roots_eq,
      ho.roots_eq]

/-- A heap without live blocks is one free block. -/
theorem OnPage.pageFree_empty (ho : OnPage page s) (hs : Holds s free ∅) :
    pageFree s.heap.mem page = [pageWindow page] := by
  have hfree := hs.ok.coalesced.free_eq_roots hs.ok.repr.tiling hs.ok.repr.roots_apart
  have hmem : pageWindow page ∈ free := hfree ▸ ho.root_mem
  have hblocks : pageBlocks s.heap.mem page = [pageWindow page] :=
    walk_single (hs.ok.level_of_mem (Or.inl hmem))
  show (pageBlocks s.heap.mem page).filter (fun b => blockIsFree s.heap.mem b.addr) = _
  rw [hblocks]
  exact List.filter_eq_self.2 fun b hb =>
    List.mem_singleton.1 hb ▸ hs.ok.repr.isFree _ hmem

/-- Freeing all live pointers, in any order. -/
theorem PageInv.drains (hinv : PageInv page s) {ptrs : List ℕ}
    (hperm : ptrs.Perm (s.live.map Alloc.ptr)) :
    ∃ s', exec heapStep s (ptrs.map HeapOp.kfree) = some s' ∧
      pageFree s'.heap.mem page = [pageWindow page] := by
  induction ptrs generalizing s with
  | nil =>
    obtain ⟨⟨free, live, hs⟩, ho⟩ := hinv
    have hnil : s.live = [] := List.map_eq_nil_iff.1 hperm.nil_eq.symm
    have hlive : live = ∅ := by
      ext b
      refine ⟨fun hb => ?_, fun hb => absurd hb (Set.notMem_empty b)⟩
      obtain ⟨a, ha, _⟩ := hs.owned.owner b hb
      rw [hnil] at ha
      exact absurd ha List.not_mem_nil
    subst hlive
    exact ⟨s, rfl, ho.pageFree_empty hs⟩
  | cons ptr ptrs ih =>
    obtain ⟨⟨free, live, hs⟩, ho⟩ := hinv
    obtain ⟨hmem, hrest⟩ := List.cons_perm_iff_perm_erase.1 hperm
    obtain ⟨a, ha, rfl⟩ := List.mem_map.1 hmem
    obtain ⟨b, hb, hptr, _⟩ := hs.owned.block a ha
    obtain ⟨f, s₁, _, hok, hstep, hheap, hlive₁, free', hs₁⟩ := hs.freed hb (ho.confined hs hb)
    rw [← hptr] at hstep hlive₁
    have ho₁ : OnPage page s₁ :=
      ⟨by rw [hheap, hok.runs, ho.runs], by rw [hheap, hok.highest, ho.highest]⟩
    rw [List.map_cons, exec_cons hstep]
    refine ih ⟨⟨free', _, hs₁⟩, ho₁⟩ ?_
    have herase : (s.live.map Alloc.ptr).erase a.ptr = s₁.live.map Alloc.ptr := by
      rw [hs.owned.nodup.erase_eq_filter, List.filter_map, hlive₁]
      refine congrArg (List.map Alloc.ptr) (List.filter_congr fun a' _ => ?_)
      by_cases he : a'.ptr = a.ptr <;> simp [he]
    exact herase ▸ hrest

theorem PageInv.coalescing (hinv : PageInv page s) : Coalescing page s where
  maximal := by
    obtain ⟨⟨free, live, hs⟩, ho⟩ := hinv
    intro w
    rw [ho.mem_pageFree hs, ho.maximalOpenWindow_iff hs, hs.ok.free_iff]
  noBuddies := by
    obtain ⟨⟨free, live, hs⟩, ho⟩ := hinv
    intro b hb c hc
    exact ho.no_buddies hs ((ho.mem_pageFree hs b).1 hb) ((ho.mem_pageFree hs c).1 hc)
  restores := by
    obtain ⟨⟨free, live, hs⟩, ho⟩ := hinv
    exact fun bytes palloc p h hsmall hres hp => ho.kfree_kmalloc hs hsmall hres hp
  drains := fun ptrs hperm => hinv.drains hperm

end Coalescing

/-- **Complete coalescing.** After every such sequence the free blocks are the
maximal open windows, freeing undoes allocating, and freeing everything in any
order leaves one free block. -/
theorem coalescing_of_run {page : ℕ} (hp : PageOk page) (mem : Mem) {ops : List HeapOp}
    (hops : Along heapStep (fun s op => Lawful s op ∧ Small op) (HeapState.start mem page) ops) :
    ∃ s, exec heapStep (HeapState.start mem page) ops = some s ∧ Coalescing page s := by
  obtain ⟨s, hexec, hinv⟩ := pageInv_of_run hp mem hops
  exact ⟨s, hexec, hinv.coalescing⟩

theorem coalescing_of_run_at_0x200000 :
    ∃ s, exec heapStep (HeapState.start (fun _ => 0) 0x200000) smallCalls = some s ∧
      Coalescing 0x200000 s := by
  exact coalescing_of_run ⟨by decide, by decide, by decide⟩ _ smallCalls_small

/-! ### Failed requests -/

/-- `kmalloc` returns `NULL` exactly when every aligned window of the size class
meets a live block, and changes nothing then. -/
def NullMeansNoRoom (page : ℕ) (s : HeapState) : Prop :=
  ∀ bytes palloc, 1 ≤ bytes → bytes ≤ 2 ^ 21 - 16 →
    ∃ p h, kmalloc palloc bytes s.heap = some (p, h) ∧
      (p = 0 ↔ ∀ w : Window, w.order = Nat.clog 2 (bytes + 16) → 2 ^ w.order ∣ w.addr →
        page ≤ w.addr → w.stop ≤ page + 2 ^ 21 → ∃ b ∈ liveBlocks s, ∃ x, x ∈ w ∧ x ∈ b) ∧
      (p = 0 → h = s.heap)

section NullMeansNoRoom
variable {page : ℕ} {s : HeapState} {free live : Set Window}

/-- An open window lies in a free block. -/
theorem OnPage.exists_free_of_openWindow (ho : OnPage page s) (hs : Holds s free live)
    {w : Window} (hw : OpenWindow page s w) : ∃ f ∈ free, Sub w f := by
  obtain ⟨⟨r, hroot, hsub⟩, hclear⟩ := (ho.openWindow_iff hs w).1 hw
  have hr := hs.ok.repr
  exact hs.ok.coalesced.exists_free_sup hr.tiling hr.roots_apart hroot hsub hclear

/-- With empty lists from a level up there is no open window of that size. -/
theorem OnPage.not_openWindow (ho : OnPage page s) (hs : Holds s free live) {order : ℕ}
    (hempty : ∀ L, order ≤ L + 3 → L ≤ s.heap.highestLevel → s.heap.memBlocks L = 0)
    {w : Window} (hw : w.order = order) : ¬OpenWindow page s w := by
  intro hopen
  obtain ⟨f, hf, hsub⟩ := ho.exists_free_of_openWindow hs hopen
  have hr := hs.ok.repr
  have hlow := hr.order_ge f (Or.inl hf)
  have hhigh := hr.order_le (Or.inl hf)
  have horder := hsub.order_le
  have hz := hempty (f.order - 3) (by omega) (by omega)
  exact hr.notMem_of_head_eq_zero hz hf (by omega)

/-- The block that was taken is an open window. -/
theorem OnPage.openWindow_of_took (ho : OnPage page s) (hs : Holds s free live) {b : Window}
    {res : ℕ × Heap} (htook : Took s.heap live b res) : OpenWindow page s b := by
  obtain ⟨free', ok'⟩ := htook.ok
  have hr' := ok'.repr
  refine (ho.openWindow_iff hs b).2 ⟨?_, fun c hc x hxb hxc => htook.fresh ?_⟩
  · have hwithin := hr'.tiling.within b (Or.inr (Or.inl rfl))
    rwa [Heap.roots, htook.runs] at hwithin
  · have he := hr'.tiling.apart b (Or.inr (Or.inl rfl)) c (Or.inr (Or.inr hc)) x hxb hxc
    exact he ▸ hc

theorem PageInv.nullMeansNoRoom (hinv : PageInv page s) : NullMeansNoRoom page s := by
  obtain ⟨⟨free, live, hs⟩, ho⟩ := hinv
  intro bytes palloc hpos hsmall
  have hfit : bytes + 16 ≤ s.heap.highestBlockSize := by
    rw [hs.ok.repr.size_eq, ho.highest]
    omega
  rw [kmalloc_eq_allocLevel hs.ok.repr.sizesOk (by omega) (by omega) hfit]
  obtain ⟨heq, hempty⟩ | ⟨⟨p, h⟩, heq, b, hb, htook⟩ :=
    allocLevel_spec hs.ok (show 16 < bytes + 16 by omega) (by omega)
  · refine ⟨0, s.heap, heq, iff_of_true rfl fun w hw haligned hlower hupper => ?_, fun _ => rfl⟩
    by_contra hmeets
    refine ho.not_openWindow hs hempty hw ⟨haligned, hlower, hupper, fun b hb x hxw hxb => ?_⟩
    exact hmeets ⟨b, hb, x, hxw, hxb⟩
  · have hptr : p = b.addr + 16 := htook.ptr
    have hne : p ≠ 0 := by omega
    refine ⟨p, h, heq, iff_of_false hne fun hall => ?_, fun hz => absurd hz hne⟩
    have hopen := ho.openWindow_of_took hs htook
    obtain ⟨c, hc, x, hxb, hxc⟩ := hall b hb hopen.aligned hopen.lower hopen.upper
    exact hopen.clear c hc x hxb hxc

end NullMeansNoRoom

/-- **`NULL` means no room.** After every sequence of small requests and frees
of live pointers, a small request fails exactly when every aligned window of
its size class meets a live block; and then nothing has changed. -/
theorem nullMeansNoRoom_of_run {page : ℕ} (hp : PageOk page) (mem : Mem) {ops : List HeapOp}
    (hops : Along heapStep (fun s op => Lawful s op ∧ Small op) (HeapState.start mem page) ops) :
    ∃ s, exec heapStep (HeapState.start mem page) ops = some s ∧ NullMeansNoRoom page s := by
  obtain ⟨s, hexec, hinv⟩ := pageInv_of_run hp mem hops
  exact ⟨s, hexec, hinv.nullMeansNoRoom⟩

theorem nullMeansNoRoom_of_run_at_0x200000 :
    ∃ s, exec heapStep (HeapState.start (fun _ => 0) 0x200000) smallCalls = some s ∧
      NullMeansNoRoom 0x200000 s := by
  exact nullMeansNoRoom_of_run ⟨by decide, by decide, by decide⟩ _ smallCalls_small

end Ssos
