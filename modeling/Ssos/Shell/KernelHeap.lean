import Ssos.Mem.Payloads
import Ssos.Shell.PromptReset

/-!
# The kernel heap as an allocator

On its first page the kernel heap meets the contract of an allocator: blocks
are apart, no call disturbs the contents of another block, and what is live can
be freed. Requests beyond the page are left out; here they are refused.

## Main results

- `pageAllocator` — the contract
- `PageHeap.malloc_ne_zero` — when half of the page is clear for certain
-/

namespace Ssos

open Allocation Buddy ByteMemory Window PartialRun

/-! ### Blocks of the size class -/

/-- Every allocation has a block of its size class. -/
def SizedBlocks (s : HeapState) : Prop :=
  ∀ a ∈ s.live, (usedBlock s.heap.mem a.ptr).order = Nat.clog 2 (a.bytes + 16)

section Sized
variable {page : ℕ} {s s' : HeapState} {free free' live live' : Set Window}

/-- The header in front of a pointer, read off the marks. -/
theorem Marked.usedBlock_eq {m : Mem} {blocks : Set Window} (hm : Marked m blocks) {b : Window}
    (hb : b ∈ blocks) : usedBlock m (b.addr + 16) = b := by
  rw [usedBlock, metaSize_eq, Nat.add_sub_cancel]
  exact Window.ext rfl (hm b hb).1

/-- An allocation whose block stays live keeps its size class. -/
theorem SizedBlocks.keep (hsized : SizedBlocks s) (hs : Holds s free live)
    (hs' : Marked s'.heap.mem live') {a : Alloc} (ha : a ∈ s.live)
    (hstays : ∀ b ∈ live, a.ptr = b.addr + 16 → b ∈ live') :
    (usedBlock s'.heap.mem a.ptr).order = Nat.clog 2 (a.bytes + 16) := by
  obtain ⟨b, hb, hptr, -⟩ := hs.payload ha
  rw [← hsized a ha, hptr, hs'.usedBlock_eq (hstays b hb hptr), hs.usedBlock_eq hb]

/-- **Step lemma** for the size classes. -/
theorem smallStep_sized {op : HeapOp} (hinv : PageInv page s) (hsized : SizedBlocks s)
    (hlaw : Lawful s op) (hsmall : Small op) (hstep : heapStep s op = some s') :
    SizedBlocks s' := by
  obtain ⟨⟨free, live, hs⟩, ho⟩ := hinv
  cases op with
  | kmalloc bytes palloc =>
    obtain ⟨p, h, hres, rfl⟩ := kmalloc_of_step hstep
    obtain ⟨res, heq, hserved, -⟩ := ho.kmalloc hs hsmall palloc
    obtain rfl := Option.some_inj.1 (heq.symm.trans hres)
    obtain ⟨hz, free', ok'⟩ | ⟨b, hptr, hfresh, hpos, horder, free', ok'⟩ := hserved
    · intro a ha
      rw [if_pos hz] at ha
      exact hsized.keep hs ok'.marked ha fun _ hb _ => hb
    · have hne : p ≠ 0 := by
        rw [show p = b.addr + 16 from hptr]
        omega
      intro a ha
      rw [if_neg hne] at ha
      obtain rfl | ha := List.mem_cons.1 ha
      · show (usedBlock h.mem p).order = Nat.clog 2 (bytes + 16)
        rw [show p = b.addr + 16 from hptr, ok'.marked.usedBlock_eq (Or.inl rfl), horder]
      · exact hsized.keep hs ok'.marked ha fun _ hb _ => Or.inr hb
  | kfree ptr =>
    by_cases hz : ptr = 0
    · subst hz
      obtain rfl := Option.some_inj.1 hstep
      exact fun a ha => hsized a (List.mem_filter.1 ha).1
    · obtain ⟨c, hc, rfl⟩ := hlaw.resolve_left hz
      obtain ⟨b, hb, hptr, _⟩ := hs.owned.block c hc
      obtain ⟨f, s₁, -, -, hstep₁, -, hlive, free', hs₁⟩ := hs.freed hb (ho.confined hs hb)
      rw [← hptr] at hstep₁ hlive
      obtain rfl := Option.some_inj.1 (hstep.symm.trans hstep₁)
      intro a ha
      rw [hlive] at ha
      obtain ⟨ha, hne⟩ := List.mem_filter.1 ha
      refine hsized.keep hs hs₁.ok.marked ha fun d hd hd' => ⟨hd, fun he => ?_⟩
      obtain rfl : d = b := he
      exact of_decide_eq_true hne (hd'.trans hptr.symm)
  | write addr value =>
    have hs' := hs.write hlaw
    obtain rfl := Option.some_inj.1 hstep
    exact fun a ha => hsized.keep hs hs'.ok.marked ha fun _ hb _ => hb

end Sized

/-! ### The heap on its first page -/

/-- An intact heap on its first page. -/
structure PageHeap (page : ℕ) where
  state : HeapState
  inv : PageInv page state
  sized : SizedBlocks state

namespace PageHeap

variable {page : ℕ}

def start (hp : PageOk page) (mem : Mem) : PageHeap page where
  state := HeapState.start mem page
  inv := ⟨⟨_, _, (start_holds mem hp).1⟩, (start_holds mem hp).2⟩
  sized := fun _ ha => absurd ha List.not_mem_nil

/-- What a step leads to. -/
theorem step (h : PageHeap page) {op : HeapOp} (hlaw : Lawful h.state op) (hsmall : Small op)
    {s : HeapState} (hstep : heapStep h.state op = some s) : PageInv page s ∧ SizedBlocks s := by
  obtain ⟨s', hs', hinv⟩ := smallStep_inv h.inv hlaw hsmall
  obtain rfl := Option.some_inj.1 (hs'.symm.trans hstep)
  exact ⟨hinv, smallStep_sized h.inv h.sized hlaw hsmall hstep⟩

/-- The page allocator, which no call of `kmalloc` on the first page asks. -/
def noPages : ℕ → ℕ := fun _ => 0

theorem malloc_step {palloc : ℕ → ℕ} {n p : ℕ} {s s' : HeapState}
    (hres : (kernelHeap palloc).malloc n s = some (p, s')) :
    heapStep s (.kmalloc n palloc) = some s' ∧ kmalloc palloc n s.heap = some (p, s'.heap) ∧
      s'.live = if p = 0 then s.live else ⟨p, n⟩ :: s.live := by
  simp only [kernelHeap] at hres
  rw [heapStep]
  cases hk : kmalloc palloc n s.heap with
  | none =>
    rw [hk] at hres
    exact absurd hres.symm (Option.some_ne_none _)
  | some res =>
    rw [hk] at hres
    obtain ⟨rfl, rfl⟩ := Prod.mk.inj (Option.some_inj.1 hres)
    exact ⟨rfl, rfl, rfl⟩

theorem free_step {palloc : ℕ → ℕ} {p : ℕ} {s s' : HeapState}
    (hres : (kernelHeap palloc).free p s = some s') :
    (∃ a ∈ s.live, a.ptr = p) ∧ heapStep s (.kfree p) = some s' :=
  Option.ite_none_right_eq_some.1 hres

theorem store_step {palloc : ℕ → ℕ} {a : ℕ} {v : UInt8} {s s' : HeapState}
    (hres : (kernelHeap palloc).store a v s = some s') :
    (∃ c ∈ s.live, c.ptr ≤ a ∧ a < c.ptr + c.bytes) ∧ heapStep s (.write a v) = some s' :=
  Option.ite_none_right_eq_some.1 hres

def malloc (n : ℕ) (h : PageHeap page) : Option (ℕ × PageHeap page) :=
  if hn : n ≤ 2 ^ 21 - 16 then
    ((kernelHeap noPages).malloc n h.state).pmap
      (fun res hres => (res.1, ⟨res.2, hres.1, hres.2⟩))
      fun _ hres => h.step (show Lawful h.state (.kmalloc n noPages) from hn.trans_lt (by decide)) hn
        (malloc_step hres).1
  else some (0, h)

def free (p : ℕ) (h : PageHeap page) : Option (PageHeap page) :=
  ((kernelHeap noPages).free p h.state).pmap (fun s hs => ⟨s, hs.1, hs.2⟩)
    fun _ hres => h.step (show Lawful h.state (.kfree p) from Or.inr (free_step hres).1) trivial
      (free_step hres).2

def store (a : ℕ) (v : UInt8) (h : PageHeap page) : Option (PageHeap page) :=
  ((kernelHeap noPages).store a v h.state).pmap (fun s hs => ⟨s, hs.1, hs.2⟩)
    fun _ hres => h.step (show Lawful h.state (.write a v) from Or.inl (store_step hres).1) trivial
      (store_step hres).2

/-- The allocations, as blocks. -/
def live (h : PageHeap page) : List Block := h.state.live.map fun a => ⟨a.ptr, a.bytes⟩

section Inversion
variable {h h' : PageHeap page} {n p a : ℕ} {v : UInt8}

theorem malloc_eq_some (hres : h.malloc n = some (p, h')) :
    (n ≤ 2 ^ 21 - 16 ∧ (kernelHeap noPages).malloc n h.state = some (p, h'.state)) ∨
      (2 ^ 21 - 16 < n ∧ p = 0 ∧ h' = h) := by
  rw [malloc] at hres
  by_cases hn : n ≤ 2 ^ 21 - 16
  · rw [dif_pos hn] at hres
    obtain ⟨res, _, hk, heq⟩ := Option.pmap_eq_some_iff.1 hres
    obtain ⟨rfl, rfl⟩ := Prod.mk.inj heq
    exact Or.inl ⟨hn, hk⟩
  · rw [dif_neg hn] at hres
    obtain ⟨rfl, rfl⟩ := Prod.mk.inj (Option.some_inj.1 hres)
    exact Or.inr ⟨not_le.1 hn, rfl, rfl⟩

/-- Small requests are served without asking for pages. -/
theorem kernelHeap_malloc_eq (h : PageHeap page) (palloc : ℕ → ℕ) (hn : n ≤ 2 ^ 21 - 16) :
    (kernelHeap palloc).malloc n h.state = (kernelHeap noPages).malloc n h.state := by
  obtain ⟨⟨free, live, hs⟩, ho⟩ := h.inv
  have hfit : n + 16 ≤ h.state.heap.highestBlockSize := by
    rw [hs.ok.repr.size_eq, ho.highest]
    omega
  simp only [kernelHeap]
  by_cases hz : n = 0
  · rw [kmalloc, kmalloc, if_pos hz, if_pos hz]
  · have hlt : n + 16 < 2 ^ 64 := by omega
    rw [kmalloc_eq_allocLevel hs.ok.repr.sizesOk hz hlt hfit,
      kmalloc_eq_allocLevel hs.ok.repr.sizesOk hz hlt hfit]

theorem map_malloc (h : PageHeap page) (hn : n ≤ 2 ^ 21 - 16) :
    (h.malloc n).map (fun res => (res.1, res.2.state)) = (kernelHeap noPages).malloc n h.state := by
  rw [malloc, dif_pos hn, Option.map_pmap]
  exact (Option.pmap_eq_map _ id _ _).trans Option.map_id_apply

theorem map_free (h : PageHeap page) :
    (h.free p).map state = (kernelHeap noPages).free p h.state := by
  rw [free, Option.map_pmap]
  exact (Option.pmap_eq_map _ id _ _).trans Option.map_id_apply

theorem map_store (h : PageHeap page) :
    (h.store a v).map state = (kernelHeap noPages).store a v h.state := by
  rw [store, Option.map_pmap]
  exact (Option.pmap_eq_map _ id _ _).trans Option.map_id_apply

theorem free_eq_some (hres : h.free p = some h') :
    (kernelHeap noPages).free p h.state = some h'.state := by
  obtain ⟨s, _, hk, rfl⟩ := Option.pmap_eq_some_iff.1 hres
  exact hk

theorem store_eq_some (hres : h.store a v = some h') :
    (kernelHeap noPages).store a v h.state = some h'.state := by
  obtain ⟨s, _, hk, rfl⟩ := Option.pmap_eq_some_iff.1 hres
  exact hk

theorem mem_live {b : Block} : b ∈ h.live ↔ ∃ c ∈ h.state.live, (⟨c.ptr, c.bytes⟩ : Block) = b :=
  List.mem_map

/-- A lawful step spares the payload of a block that stays. -/
theorem step_keeps {op : HeapOp} (hlaw : Lawful h.state op) (hsmall : Small op)
    (hstep : heapStep h.state op = some h'.state) {b : Block} (hb : b ∈ h.live)
    (hfree : op ≠ .kfree b.addr) (hwrite : ∀ value, op ≠ .write a value) (ha : b.Has a) :
    h'.state.heap.mem a = h.state.heap.mem a := by
  obtain ⟨c, hc, rfl⟩ := mem_live.1 hb
  obtain ⟨⟨-, hg⟩, hconf⟩ := h.inv.confines hlaw hsmall
  exact (heapStep_keeps h.inv.1 hlaw hg hconf hstep hc hfree).2 a ha.1 ha.2 hwrite

/-- Filtering by the pointer removes the one block that has it. -/
theorem live_filter (h : PageHeap page) {c : Alloc} (hc : c ∈ h.state.live) :
    ((h.state.live.filter fun a => a.ptr ≠ c.ptr).map fun a => (⟨a.ptr, a.bytes⟩ : Block)) =
      h.live.erase ⟨c.ptr, c.bytes⟩ := by
  obtain ⟨⟨free, live, hs⟩, -⟩ := h.inv
  have hnodup : (h.state.live.map Alloc.ptr).Nodup := hs.owned.nodup
  rw [PageHeap.live]
  generalize h.state.live = allocs at hc hnodup
  induction allocs with
  | nil => exact absurd hc List.not_mem_nil
  | cons a allocs ih =>
    rw [List.map_cons, List.nodup_cons] at hnodup
    by_cases hac : a.ptr = c.ptr
    · -- the head has the pointer, and nothing behind it has
      obtain rfl : c = a := (List.mem_cons.1 hc).resolve_right fun hmem =>
        hnodup.1 (hac ▸ List.mem_map_of_mem hmem)
      have hrest : (allocs.filter fun a => a.ptr ≠ c.ptr) = allocs := by
        refine List.filter_eq_self.2 fun d hd => decide_eq_true fun he => ?_
        exact hnodup.1 (he ▸ List.mem_map_of_mem hd)
      rw [List.filter_cons_of_neg (by simp), hrest, List.map_cons, List.erase_cons_head]
    · have hne : ¬((⟨a.ptr, a.bytes⟩ : Block) == ⟨c.ptr, c.bytes⟩) = true := fun he =>
        hac (congrArg Block.addr (eq_of_beq he))
      have hmem : c ∈ allocs := (List.mem_cons.1 hc).resolve_left fun he => hac (he ▸ rfl)
      rw [List.filter_cons_of_pos (by simpa using hac), List.map_cons, List.map_cons,
        List.erase_cons_tail hne, ih hmem hnodup.2]

end Inversion

end PageHeap

/-- **The contract.** -/
def pageAllocator {page : ℕ} (hp : PageOk page) (mem : Mem) : Allocator (PageHeap page) where
  malloc := PageHeap.malloc
  free := PageHeap.free
  load h := h.state.heap.mem
  store := PageHeap.store
  live := PageHeap.live
  initial := .start hp mem
  live_initial := rfl
  malloc_defined := by
    intro n h
    by_cases hn : n ≤ 2 ^ 21 - 16
    · obtain ⟨s, hs, -⟩ := smallStep_inv h.inv
        (show Lawful h.state (.kmalloc n PageHeap.noPages) from hn.trans_lt (by decide)) hn
      obtain ⟨p, heap, hk, -⟩ := kmalloc_of_step hs
      have hmap := h.map_malloc hn
      simp only [kernelHeap, hk] at hmap
      obtain ⟨res, hres, -⟩ := Option.map_eq_some_iff.1 hmap
      exact ⟨res, hres⟩
    · exact ⟨_, dif_neg hn⟩
  malloc_null := by
    intro n h h' hres
    obtain ⟨-, hk⟩ | ⟨-, -, rfl⟩ := PageHeap.malloc_eq_some hres
    · have hlive := (PageHeap.malloc_step hk).2.2
      rw [if_pos rfl] at hlive
      rw [PageHeap.live, hlive, PageHeap.live]
    · rfl
  malloc_fresh := by
    intro n h p h' hres hp
    obtain ⟨-, hk⟩ | ⟨-, hz, -⟩ := PageHeap.malloc_eq_some hres
    · have hlive := (PageHeap.malloc_step hk).2.2
      rw [if_neg hp] at hlive
      obtain ⟨⟨free, live, hs⟩, -⟩ := h'.inv
      have hnew : (⟨p, n⟩ : Alloc) ∈ h'.state.live := hlive ▸ List.mem_cons_self
      refine ⟨by rw [PageHeap.live, hlive, List.map_cons, PageHeap.live], ?_, fun b hb => ?_⟩
      · obtain ⟨b, hb, -, hstop⟩ := hs.payload hnew
        exact hstop.trans (hs.ok.repr.stop_le (Or.inr hb))
      · obtain ⟨c, hc, rfl⟩ := PageHeap.mem_live.1 hb
        exact hs.payloads_apart hnew (hlive ▸ List.mem_cons_of_mem _ hc)
          (h'.inv.1.new_ptr_ne hlive hc)
    · exact absurd hz hp
  malloc_load := by
    intro n h p h' hres b hb a ha
    obtain ⟨hn, hk⟩ | ⟨-, -, rfl⟩ := PageHeap.malloc_eq_some hres
    · exact PageHeap.step_keeps
        (show Lawful h.state (.kmalloc n PageHeap.noPages) from hn.trans_lt (by decide)) hn
        (PageHeap.malloc_step hk).1 hb (fun he => HeapOp.noConfusion he)
        (fun _ he => HeapOp.noConfusion he) ha
    · rfl
  free_defined := by
    intro h b hb
    obtain ⟨c, hc, rfl⟩ := PageHeap.mem_live.1 hb
    have hlaw : Lawful h.state (.kfree c.ptr) := Or.inr ⟨c, hc, rfl⟩
    obtain ⟨s, hs, -⟩ := smallStep_inv h.inv hlaw trivial
    have hkernel : (kernelHeap PageHeap.noPages).free c.ptr h.state = some s :=
      (if_pos ⟨c, hc, rfl⟩).trans hs
    obtain ⟨h', hres, -⟩ := Option.map_eq_some_iff.1 (h.map_free.trans hkernel)
    exact ⟨h', hres⟩
  free_live := by
    intro p h h' hres
    obtain ⟨⟨c, hc, rfl⟩, hstep⟩ := PageHeap.free_step (PageHeap.free_eq_some hres)
    obtain ⟨f, -, heq⟩ := kfree_of_step hstep
    refine ⟨⟨c.ptr, c.bytes⟩, PageHeap.mem_live.2 ⟨c, hc, rfl⟩, rfl, ?_⟩
    rw [PageHeap.live, heq]
    exact h.live_filter hc
  free_load := by
    intro p h h' hres b hb a ha
    obtain ⟨⟨c, hc, rfl⟩, hstep⟩ := PageHeap.free_step (PageHeap.free_eq_some hres)
    obtain ⟨f, -, heq⟩ := kfree_of_step hstep
    obtain ⟨d, hd, rfl⟩ := PageHeap.mem_live.1 hb
    rw [heq] at hd
    obtain ⟨hd, hne⟩ := List.mem_filter.1 hd
    have hlaw : Lawful h.state (.kfree c.ptr) := Or.inr ⟨c, hc, rfl⟩
    refine PageHeap.step_keeps hlaw trivial hstep (PageHeap.mem_live.2 ⟨d, hd, rfl⟩) (fun he => ?_)
      (fun _ he => HeapOp.noConfusion he) ha
    exact of_decide_eq_true hne (HeapOp.kfree.inj he).symm
  store_defined := by
    intro a v h b hb ha
    obtain ⟨c, hc, rfl⟩ := PageHeap.mem_live.1 hb
    have hkernel : (kernelHeap PageHeap.noPages).store a v h.state =
        heapStep h.state (.write a v) := if_pos ⟨c, hc, ha⟩
    obtain ⟨h', hres, -⟩ := Option.map_eq_some_iff.1 (h.map_store.trans hkernel)
    exact ⟨h', hres⟩
  store_inside := by
    intro a v h h' hres
    obtain ⟨⟨c, hc, ha⟩, -⟩ := PageHeap.store_step (PageHeap.store_eq_some hres)
    exact ⟨_, PageHeap.mem_live.2 ⟨c, hc, rfl⟩, ha⟩
  store_live := by
    intro a v h h' hres
    obtain ⟨-, hstep⟩ := PageHeap.store_step (PageHeap.store_eq_some hres)
    rw [PageHeap.live, ← Option.some_inj.1 hstep, PageHeap.live]
  store_load := by
    intro a v h h' hres
    obtain ⟨-, hstep⟩ := PageHeap.store_step (PageHeap.store_eq_some hres)
    rw [← Option.some_inj.1 hstep]

/-! ### Room on the page -/

namespace PageHeap

variable {page n p : ℕ} {h h' : PageHeap page}

/-- A small request is refused exactly when every window of its size class
meets a block. -/
theorem malloc_null_iff (hpos : 1 ≤ n) (hn : n ≤ 2 ^ 21 - 16) (hres : h.malloc n = some (p, h')) :
    p = 0 ↔ ∀ w : Window, w.order = Nat.clog 2 (n + 16) → 2 ^ w.order ∣ w.addr →
      page ≤ w.addr → w.stop ≤ page + 2 ^ 21 → ∃ b ∈ liveBlocks h.state, ∃ x, x ∈ w ∧ x ∈ b := by
  obtain ⟨q, heap, hk, hnull, -⟩ := h.inv.nullMeansNoRoom n noPages hpos hn
  obtain ⟨-, hkernel⟩ | ⟨hlt, -⟩ := malloc_eq_some hres
  · obtain ⟨-, hk', -⟩ := malloc_step hkernel
    obtain ⟨rfl, -⟩ := Prod.mk.inj (Option.some_inj.1 (hk.symm.trans hk'))
    exact hnull
  · omega

/-- Where the block of an allocation lies. -/
theorem liveBlock_spec {b : Window} (hb : b ∈ liveBlocks h.state) :
    (∃ c ∈ h.live, b.order = Nat.clog 2 (c.size + 16)) ∧ 2 ^ b.order ∣ b.addr ∧ page ≤ b.addr ∧
      b.stop ≤ page + 2 ^ 21 := by
  obtain ⟨⟨free, live, hs⟩, ho⟩ := h.inv
  have hsub := ho.sub_page hs (Or.inr ((hs.mem_liveBlocks b).1 hb))
  obtain ⟨a, ha, rfl⟩ := List.mem_map.1 hb
  exact ⟨⟨_, mem_live.2 ⟨a, ha, rfl⟩, h.sized a ha⟩, (sub_iff_aligned (ho.aligned hs)).1 hsub⟩

/-- Next to one block in a half of the page there is room in the other half. -/
theorem malloc_ne_zero (hone : h.live.length ≤ 1) (hsize : ∀ c ∈ h.live, c.size + 16 ≤ 2 ^ 20)
    (hpos : 1 ≤ n) (hn : n + 16 ≤ 2 ^ 20) (hres : h.malloc n = some (p, h')) : p ≠ 0 := by
  rw [Ne, malloc_null_iff hpos (by omega) hres]
  intro hall
  obtain ⟨⟨free, live, hs⟩, ho⟩ := h.inv
  have hpage : 2 ^ 21 ∣ page := ho.aligned hs
  have horder : Nat.clog 2 (n + 16) ≤ 20 := Nat.clog_le_of_le_pow hn
  have hpow : 2 ^ Nat.clog 2 (n + 16) ≤ 2 ^ 20 := Nat.pow_le_pow_right (by decide) horder
  have hdvd : 2 ^ Nat.clog 2 (n + 16) ∣ 2 ^ 20 := Nat.pow_dvd_pow 2 horder
  have hlow : 2 ^ Nat.clog 2 (n + 16) ∣ page := hdvd.trans (Dvd.dvd.trans (by decide) hpage)
  obtain ⟨b, hb, x, hxw, hxb⟩ := hall ⟨page, Nat.clog 2 (n + 16)⟩ rfl hlow le_rfl
    (by simp only [Window.stop]; omega)
  obtain ⟨c, hc, y, hyw, hyc⟩ := hall ⟨page + 2 ^ 20, Nat.clog 2 (n + 16)⟩ rfl
    (Nat.dvd_add hlow hdvd) (Nat.le_add_right _ _) (by simp only [Window.stop]; omega)
  -- both windows meet the only block, which lies in one of the two halves
  obtain rfl : b = c := by
    have hlen : (liveBlocks h.state).length ≤ 1 := by
      rw [PageHeap.live, List.length_map] at hone
      rwa [liveBlocks, List.length_map]
    obtain ⟨i, hi, rfl⟩ := List.getElem_of_mem hb
    obtain ⟨j, hj, rfl⟩ := List.getElem_of_mem hc
    obtain rfl : i = j := by omega
    rfl
  obtain ⟨⟨d, hd, hbo⟩, ⟨i, hi⟩, hble, hbstop⟩ := liveBlock_spec hb
  have hbo20 : b.order ≤ 20 := hbo ▸ Nat.clog_le_of_le_pow (hsize d hd)
  obtain ⟨j, hj⟩ : 2 ^ b.order ∣ page + 2 ^ 20 :=
    Nat.dvd_add ((Nat.pow_dvd_pow 2 (by omega)).trans hpage) (Nat.pow_dvd_pow 2 hbo20)
  have hx1 : x < page + 2 ^ Nat.clog 2 (n + 16) := hxw.2
  have hx2 : b.addr ≤ x := hxb.1
  have hy1 : page + 2 ^ 20 ≤ y := hyw.1
  have hy2 : y < b.addr + 2 ^ b.order := hyc.2
  have hlt : 2 ^ b.order * i < 2 ^ b.order * j := by omega
  have hij : i + 1 ≤ j := lt_of_mul_lt_mul_left hlt (Nat.zero_le _)
  have hstop : 2 ^ b.order * (i + 1) ≤ 2 ^ b.order * j := Nat.mul_le_mul_left _ hij
  rw [Nat.mul_succ] at hstop
  omega

/-- Next to any block there is no room for the whole page. -/
theorem malloc_eq_zero {c : Block} (hc : c ∈ h.live) (hn : 2 ^ 20 < n + 16)
    (hres : h.malloc n = some (p, h')) : p = 0 := by
  by_contra hp
  obtain ⟨-, hkernel⟩ | ⟨-, hz, -⟩ := malloc_eq_some hres
  · have hlive := (malloc_step hkernel).2.2
    rw [if_neg hp] at hlive
    obtain ⟨a, ha, -⟩ := mem_live.1 hc
    have hle : n + 16 ≤ 2 ^ 20 := h'.inv.new_bytes_le hlive ha
    omega
  · exact hp hz

end PageHeap

end Ssos
