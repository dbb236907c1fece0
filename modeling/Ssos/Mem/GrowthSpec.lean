import Ssos.Mem.KmallocSpec

/-!
# Growing the heap

The heap starts with one page and grows by page runs of doubled size. A new
run is a new root with one free block. A refused run leaves the blocks alone,
although the recorded sizes have already been doubled.

## Main results

- `HeapOk.insertRoot` — a fresh run joins the heap as one free block
- `growHeap_spec` — what the growth loop does under the page allocator's promise
-/

namespace Ssos

open ByteMemory Buddy Window PointerList

/-- The recorded sizes belong to one level of the table. -/
structure SizesOk (h : Heap) : Prop where
  level_ge : 18 ≤ h.highestLevel
  level_lt : h.highestLevel < 34
  size_eq : h.highestBlockSize = 2 ^ (h.highestLevel + 3)

theorem Repr.sizesOk {h : Heap} {free live : Set Window} (hr : Repr h free live) : SizesOk h :=
  ⟨hr.level_ge, hr.level_lt, hr.size_eq⟩

/-- The levels left for the growth loop. -/
theorem SizesOk.levels_pos {h : Heap} (hs : SizesOk h) :
    0 < memBlocksMaxLevelCount - h.highestLevel := Nat.sub_pos_of_lt hs.level_lt

theorem SizesOk.levels_cover {h : Heap} (hs : SizesOk h) :
    34 ≤ memBlocksMaxLevelCount - h.highestLevel + h.highestLevel :=
  (Nat.sub_add_cancel hs.level_lt.le).ge

/-! ### A new run -/

/-- The header that a new run starts with. -/
def freshHeader (m : Mem) (a level : ℕ) : Mem := setIsFree (setLevel (setNext m a 0) a level) a true

theorem blockNext_setLevel_self {m : Mem} {a v : ℕ} :
    blockNext (setLevel m a v) a = blockNext m a :=
  loadLE_update_of_outside (by omega)

theorem blockNext_setIsFree_self {m : Mem} {a : ℕ} {f : Bool} :
    blockNext (setIsFree m a f) a = blockNext m a :=
  loadLE_update_of_outside (by omega)

section FreshHeader
variable {m : Mem} {a level : ℕ}

theorem freshHeader_write : HeaderWrite m (freshHeader m a level) a :=
  (((HeaderWrite.refl m a).setNext 0).setLevel level).setIsFree true

theorem blockNext_freshHeader : blockNext (freshHeader m a level) a = 0 := by
  rw [freshHeader, blockNext_setIsFree_self, blockNext_setLevel_self]
  exact loadLE_storeLE_of_lt m a (by omega)

theorem blockLevel_freshHeader (h : level < 256) :
    blockLevel (freshHeader m a level) a = level := by
  rw [freshHeader, blockLevel_setIsFree_self, blockLevel_setLevel_self h]

theorem blockIsFree_freshHeader : blockIsFree (freshHeader m a level) a = true :=
  blockIsFree_setIsFree_self

end FreshHeader

/-- A run that the page allocator may hand out to the heap `h`. -/
structure FreshRun (h : Heap) (w : Window) : Prop where
  pos : 0 < w.addr
  aligned : 2 ^ 21 ∣ w.addr
  stop : w.stop ≤ 2 ^ 64
  apart : ∀ r ∈ h.roots, ∀ x, x ∈ w → x ∉ r

/-- `h` with the run of the top level as one free block. -/
def Heap.withRun (h : Heap) (p : ℕ) : Heap :=
  { h.setHead h.highestLevel p with
    mem := freshHeader h.mem p h.highestLevel
    runs := ⟨p, h.highestLevel + memBlocksBaseLevel⟩ :: h.runs }

section Growth
variable {h : Heap} {free live : Set Window}

theorem FreshRun.notMem {w : Window} (hw : FreshRun h w) (hr : Repr h free live) {b : Window}
    (hb : b ∈ free ∪ live) {x : ℕ} (hx : x ∈ b) : x ∉ w := by
  intro hxw
  obtain ⟨r, hroot, hs⟩ := hr.tiling.within b hb
  exact hw.apart r hroot x hxw (hs.mem hx)

@[simp] theorem withRun_memBlocks_self (h : Heap) (p : ℕ) :
    (h.withRun p).memBlocks h.highestLevel = p := Function.update_self _ _ _

theorem withRun_memBlocks_of_ne {K p : ℕ} (hK : K ≠ h.highestLevel) :
    (h.withRun p).memBlocks K = h.memBlocks K := Function.update_of_ne hK _ _

theorem withRun_roots (h : Heap) (p : ℕ) :
    (h.withRun p).roots = insert ⟨p, h.highestLevel + 3⟩ h.roots := by
  ext r
  show r ∈ (⟨p, h.highestLevel + 3⟩ :: h.runs) ↔ _
  exact List.mem_cons

/-- The headers of the old blocks are untouched. -/
theorem FreshRun.header_eq {p : ℕ} (hw : FreshRun h ⟨p, h.highestLevel + 3⟩)
    (hr : Repr h free live) {b : Window} (hb : b ∈ free ∪ live) {x : ℕ} (hx : b.addr ≤ x)
    (hlt : x < b.addr + 16) : (h.withRun p).mem x = h.mem x := by
  refine freshHeader_write x ?_
  by_contra hcon
  have hge := hr.level_ge
  have hsize : 2 ^ 5 ≤ 2 ^ (h.highestLevel + 3) := Nat.pow_le_pow_right (by omega) (by omega)
  refine hw.notMem hr hb (hr.header_mem hb hx hlt) ⟨?_, ?_⟩
  · show p ≤ x
    omega
  · show x < p + 2 ^ (h.highestLevel + 3)
    omega

/-- The run alone is on the list of the top level. -/
theorem FreshRun.lists {p : ℕ} (hw : FreshRun h ⟨p, h.highestLevel + 3⟩) (hr : Repr h free live)
    (htop : ∀ b ∈ free, b.order ≠ h.highestLevel + 3) (L : ℕ) :
    ∃ xs, Linked (blockNext (h.withRun p).mem) ((h.withRun p).memBlocks L) xs ∧ xs.Nodup ∧
      ∀ a, a ∈ xs ↔ (⟨a, L + 3⟩ : Window) ∈ insert ⟨p, h.highestLevel + 3⟩ free := by
  by_cases hL : L = h.highestLevel
  · subst hL
    rw [withRun_memBlocks_self]
    refine ⟨[p], ⟨rfl, hw.pos.ne', blockNext_freshHeader⟩, List.nodup_singleton p, fun a => ?_⟩
    rw [List.mem_singleton, Set.mem_insert_iff, Window.ext_iff]
    have hno : (⟨a, h.highestLevel + 3⟩ : Window) ∉ free := fun hf => htop _ hf rfl
    simp [hno]
  · obtain ⟨xs, hl, hnd, hmem⟩ := hr.lists L
    rw [withRun_memBlocks_of_ne hL]
    refine ⟨xs, hl.congr fun a ha => ?_, hnd, fun a => ?_⟩
    · have hfree : (⟨a, L + 3⟩ : Window) ∈ free ∪ live := Or.inl ((hmem a).1 ha)
      exact (header_congr fun x hx hlt => hw.header_eq hr hfree hx hlt).1
    · rw [hmem a, Set.mem_insert_iff, Window.ext_iff]
      simp [hL]

theorem Repr.insertRoot (hr : Repr h free live) {p : ℕ}
    (hw : FreshRun h ⟨p, h.highestLevel + 3⟩)
    (htop : ∀ b ∈ free, b.order ≠ h.highestLevel + 3) :
    Repr (h.withRun p) (insert ⟨p, h.highestLevel + 3⟩ free) live := by
  have hge := hr.level_ge
  have hlt := hr.level_lt
  have hhdr := fun b (hb : b ∈ free) => header_congr (a := b.addr) fun x hx hlt =>
    hw.header_eq hr (Or.inl hb) hx hlt
  refine
    { level_ge := hge, level_lt := hlt, size_eq := hr.size_eq
      roots_apart := ?_, root_pos := ?_, root_aligned := ?_, root_stop := ?_, root_order := ?_
      tiling := ?_, disjoint := ?_, order_ge := ?_, level := ?_, isFree := ?_
      lists := hw.lists hr htop }
  · rw [withRun_roots]
    exact hr.roots_apart.insert hw.apart
  · rw [withRun_roots, Set.forall_mem_insert]
    exact ⟨hw.pos, hr.root_pos⟩
  · rw [withRun_roots, Set.forall_mem_insert]
    exact ⟨hw.aligned, hr.root_aligned⟩
  · rw [withRun_roots, Set.forall_mem_insert]
    exact ⟨hw.stop, hr.root_stop⟩
  · rw [withRun_roots, Set.forall_mem_insert]
    exact ⟨⟨show 21 ≤ h.highestLevel + 3 by omega, le_rfl⟩, hr.root_order⟩
  · rw [withRun_roots, Set.insert_union]
    exact hr.tiling.insert_root hw.apart
  · rw [Set.disjoint_insert_left]
    refine ⟨fun hl => ?_, hr.disjoint⟩
    exact hw.notMem hr (Or.inr hl) (Window.addr_mem _) (Window.addr_mem _)
  · rw [Set.insert_union, Set.forall_mem_insert]
    exact ⟨show 5 ≤ h.highestLevel + 3 by omega, hr.order_ge⟩
  · rw [Set.forall_mem_insert]
    refine ⟨congrArg (· + 3) (blockLevel_freshHeader (by omega)), fun b hb => ?_⟩
    rw [(hhdr b hb).2.1]
    exact hr.level b hb
  · rw [Set.forall_mem_insert]
    refine ⟨blockIsFree_freshHeader, fun b hb => ?_⟩
    rw [(hhdr b hb).2.2]
    exact hr.isFree b hb

/-- **A new run.** When the top level has no block yet, a fresh run of that
level joins the heap as one free block. -/
theorem HeapOk.insertRoot (ok : HeapOk h free live) {p : ℕ}
    (hw : FreshRun h ⟨p, h.highestLevel + 3⟩)
    (htop : ∀ b ∈ free, b.order ≠ h.highestLevel + 3) :
    HeapOk (h.withRun p) (insert ⟨p, h.highestLevel + 3⟩ free) live := by
  obtain ⟨hr, hmk, hc⟩ := ok
  refine ⟨hr.insertRoot hw htop, ?_, ?_⟩
  · exact hmk.frame fun b hb x hx hlt => hw.header_eq hr (Or.inr hb) hx hlt
  · rw [withRun_roots]
    refine Coalesced.insert_top (hc.insert_root fun b hb => ?_) ?_
    · exact hw.notMem hr (Or.inl hb) b.addr_mem
    · rw [Set.forall_mem_insert]
      exact ⟨le_rfl, fun r hroot => (hr.root_order r hroot).2⟩

/-! ### The growth loop -/

/-- The doubled sizes with an empty list at the new level. -/
def Heap.raised (h : Heap) : Heap :=
  { h.setHead (h.highestLevel + 1) 0 with
    highestBlockSize := h.highestBlockSize * 2
    highestLevel := h.highestLevel + 1 }

theorem HeapOk.raised (ok : HeapOk h free live) (hlt : h.highestLevel + 1 < 34) :
    HeapOk h.raised free live := by
  obtain ⟨hr, hmk, hc⟩ := ok
  refine ⟨?_, hmk, hc⟩
  exact
    { hr with
      level_ge := by
        have := hr.level_ge
        simp only [Heap.raised]
        omega
      level_lt := hlt
      size_eq := by
        simp only [Heap.raised]
        rw [hr.size_eq, ← pow_succ]
      root_order := fun r hroot => by
        have := hr.root_order r hroot
        simp only [Heap.raised]
        omega
      lists := by
        intro L
        by_cases hL : L = h.highestLevel + 1
        · subst hL
          refine ⟨[], by simp [Linked, Heap.raised, Heap.setHead], List.nodup_nil, fun a => ?_⟩
          refine ⟨fun ha => absurd ha List.not_mem_nil, fun hf => ?_⟩
          have hle := hr.order_le (Or.inl hf)
          simp only at hle
          omega
        · have hhead : h.raised.memBlocks L = h.memBlocks L := by
            simp [Heap.raised, Heap.setHead, Function.update_of_ne hL]
          rw [hhead]
          exact hr.lists L }

/-- The run that the page allocator answers for a block of level `L`. -/
def grantAt (palloc : ℕ → ℕ) (L : ℕ) : Window := ⟨palloc (2 ^ (L - 18)), L + 3⟩

/-- The growth loop asks for a run of level `L` if it gets that far. -/
def Asked (h : Heap) (bytes L : ℕ) : Prop :=
  h.highestLevel < L ∧ L < memBlocksMaxLevelCount ∧ 2 ^ (L + 2) < bytes

/-- The promise of the page allocator for one call of `kmalloc`: the runs it
hands out are page-aligned and disjoint from the heap and from one another. -/
structure GrantOk (h : Heap) (palloc : ℕ → ℕ) (bytes : ℕ) : Prop where
  fresh : ∀ L, Asked h bytes L → (grantAt palloc L).addr ≠ 0 → FreshRun h (grantAt palloc L)
  distinct : ∀ K L, Asked h bytes K → Asked h bytes L → K < L → (grantAt palloc K).addr ≠ 0 →
    (grantAt palloc L).addr ≠ 0 → ∀ x, x ∈ grantAt palloc K → x ∉ grantAt palloc L

/-- The request cannot be met: it exceeds the largest level of the table, or
the page allocator refuses one of the runs that the loop would ask for. -/
def Refused (h : Heap) (palloc : ℕ → ℕ) (bytes : ℕ) : Prop :=
  2 ^ 36 < bytes ∨ ∃ L, Asked h bytes L ∧ (grantAt palloc L).addr = 0

/-- A request that fits the largest block asks for nothing. -/
theorem GrantOk.of_le {bytes : ℕ} (palloc : ℕ → ℕ) (hr : Repr h free live)
    (hle : bytes ≤ h.highestBlockSize) : GrantOk h palloc bytes := by
  have hnone : ∀ L, ¬Asked h bytes L := by
    intro L ⟨hL, _, hlt⟩
    have hpow : 2 ^ (h.highestLevel + 3) ≤ 2 ^ (L + 2) :=
      Nat.pow_le_pow_right (by omega) (by omega)
    rw [hr.size_eq] at hle
    omega
  exact ⟨fun L hL => absurd hL (hnone L), fun K _ hK => absurd hK (hnone K)⟩

variable {palloc : ℕ → ℕ}

/-- The run asked for in one turn. -/
theorem growStep_page_count (palloc : ℕ → ℕ) (hs : SizesOk h) :
    palloc (h.highestBlockSize * 2 / pageSize) = (grantAt palloc (h.highestLevel + 1)).addr := by
  have hge := hs.level_ge
  have hsize : h.highestBlockSize * 2 = 2 ^ (h.highestLevel + 1 - 18) * 2 ^ 21 := by
    rw [hs.size_eq, ← pow_succ, ← pow_add]
    congr 1
    omega
  have hpage : pageSize = 2 ^ 21 := by decide
  rw [hsize, hpage, Nat.mul_div_cancel _ (by positivity)]
  rfl

theorem growStep_refused (hs : SizesOk h)
    (hz : (grantAt palloc (h.highestLevel + 1)).addr = 0) :
    growStep palloc h = (false, h.raised) := by
  have hp := (growStep_page_count palloc hs).trans hz
  rw [growStep]
  simp only [hp, if_true]
  rfl

theorem growStep_granted (hs : SizesOk h)
    (hp : (grantAt palloc (h.highestLevel + 1)).addr ≠ 0) :
    growStep palloc h =
      (true, h.raised.withRun (grantAt palloc (h.highestLevel + 1)).addr) := by
  rw [growStep]
  simp only [growStep_page_count palloc hs, if_neg hp]
  refine congrArg (Prod.mk true) ?_
  simp only [Heap.withRun, Heap.raised, Heap.setHead, Function.update_idem]
  rfl

/-- A granted turn keeps the heap and the promise for the larger levels. -/
theorem HeapOk.granted {bytes : ℕ} (ok : HeapOk h free live)
    (hask : Asked h bytes (h.highestLevel + 1)) (hg : GrantOk h palloc bytes)
    (hp : (grantAt palloc (h.highestLevel + 1)).addr ≠ 0) :
    HeapOk (h.raised.withRun (grantAt palloc (h.highestLevel + 1)).addr)
        (insert (grantAt palloc (h.highestLevel + 1)) free) live ∧
      GrantOk (h.raised.withRun (grantAt palloc (h.highestLevel + 1)).addr) palloc bytes := by
  have hfresh := hg.fresh _ hask hp
  have hasked : ∀ L, Asked (h.raised.withRun (grantAt palloc (h.highestLevel + 1)).addr) bytes L →
      Asked h bytes L ∧ h.highestLevel + 1 < L := fun L ⟨hL, hL34, hlt⟩ =>
    ⟨⟨(Nat.lt_succ_self _).trans hL, hL34, hlt⟩, hL⟩
  refine ⟨?_, ?_⟩
  · refine (ok.raised hask.2.1).insertRoot
      ⟨hfresh.pos, hfresh.aligned, hfresh.stop, hfresh.apart⟩ ?_
    intro b hb
    have hle := ok.repr.order_le (Or.inl hb)
    simp only [Heap.raised]
    omega
  · have hroots : ∀ r ∈ (h.raised.withRun (grantAt palloc (h.highestLevel + 1)).addr).roots,
        r = grantAt palloc (h.highestLevel + 1) ∨ r ∈ h.roots := fun r hroot => by
      obtain rfl | hroot := List.mem_cons.1 hroot
      · exact Or.inl rfl
      · exact Or.inr hroot
    refine ⟨fun L hL hne => ?_, fun K L hK hL => ?_⟩
    · obtain ⟨hL, hlt⟩ := hasked L hL
      have hf := hg.fresh L hL hne
      refine ⟨hf.pos, hf.aligned, hf.stop, fun r hroot x hx => ?_⟩
      obtain rfl | hroot := hroots r hroot
      · exact fun hxr => hg.distinct _ L hask hL hlt hp hne x hxr hx
      · exact hf.apart r hroot x hx
    · exact hg.distinct K L (hasked K hK).1 (hasked L hL).1

/-- What the growth loop has done: the heap is intact, its runs are kept, and
on success the largest block size covers the request. -/
structure Grew (palloc : ℕ → ℕ) (bytes : ℕ) (h : Heap) (live : Set Window) (res : Bool × Heap) :
    Prop where
  ok : ∃ free, HeapOk res.2 free live
  fits : res.1 = true → bytes ≤ res.2.highestBlockSize
  runs : ∀ r ∈ h.roots, r ∈ res.2.roots
  added : ∀ r ∈ res.2.roots, r ∈ h.roots ∨
    ∃ L, Asked h bytes L ∧ r = grantAt palloc L ∧ r.addr ≠ 0
  highest : h.highestLevel ≤ res.2.highestLevel

/-- The growth loop keeps the heap intact under the page allocator's promise. -/
theorem growHeap_spec {bytes n : ℕ} (ok : HeapOk h free live) (hg : GrantOk h palloc bytes)
    (hn : 34 ≤ n + h.highestLevel) : Grew palloc bytes h live (growHeap palloc bytes n h) := by
  induction n generalizing h free with
  | zero =>
    have := ok.repr.level_lt
    omega
  | succ n ih =>
    rw [growHeap]
    by_cases hbytes : bytes > h.highestBlockSize
    · rw [if_pos hbytes]
      by_cases hlt : h.highestLevel + 1 < memBlocksMaxLevelCount
      · rw [if_neg (not_le.2 hlt)]
        have hask : Asked h bytes (h.highestLevel + 1) :=
          ⟨Nat.lt_succ_self _, hlt, ok.repr.size_eq ▸ hbytes⟩
        by_cases hz : (grantAt palloc (h.highestLevel + 1)).addr = 0
        · rw [growStep_refused ok.repr.sizesOk hz]
          exact ⟨⟨free, ok.raised hlt⟩, Bool.noConfusion, fun r hr => hr, fun r hr => Or.inl hr,
            Nat.le_succ _⟩
        · rw [growStep_granted ok.repr.sizesOk hz]
          obtain ⟨ok', hg'⟩ := ok.granted hask hg hz
          have hrest := ih ok' hg' (by
            show 34 ≤ n + (h.highestLevel + 1)
            omega)
          refine ⟨hrest.ok, hrest.fits, fun r hr => ?_, fun r hr => ?_, ?_⟩
          · exact hrest.runs r (List.mem_cons_of_mem _ hr)
          · obtain hr | ⟨L, ⟨hL, hL34, hLb⟩, he⟩ := hrest.added r hr
            · obtain rfl | hr := List.mem_cons.1 hr
              · exact Or.inr ⟨h.highestLevel + 1, hask, rfl, hz⟩
              · exact Or.inl hr
            · exact Or.inr ⟨L, ⟨(Nat.lt_succ_self _).trans hL, hL34, hLb⟩, he⟩
          · exact (Nat.le_succ _).trans hrest.highest
      · rw [if_pos (not_lt.1 hlt)]
        exact ⟨⟨free, ok⟩, Bool.noConfusion, fun r hr => hr, fun r hr => Or.inl hr, le_rfl⟩
    · rw [if_neg hbytes]
      exact ⟨⟨free, ok⟩, fun _ => not_lt.1 hbytes, fun r hr => hr, fun r hr => Or.inl hr, le_rfl⟩

/-- A refused request ends the growth loop without success. -/
theorem growHeap_refused {bytes n : ℕ} (ok : HeapOk h free live) (hg : GrantOk h palloc bytes)
    (href : Refused h palloc bytes) : (growHeap palloc bytes n h).1 = false := by
  induction n generalizing h free with
  | zero => rfl
  | succ n ih =>
    have hlevel := ok.repr.level_lt
    have hbytes : bytes > h.highestBlockSize := by
      rw [ok.repr.size_eq]
      obtain hbig | ⟨L, ⟨hL, _, hlt⟩, _⟩ := href
      · have hle : 2 ^ (h.highestLevel + 3) ≤ 2 ^ 36 := Nat.pow_le_pow_right (by omega) (by omega)
        omega
      · have hle : 2 ^ (h.highestLevel + 3) ≤ 2 ^ (L + 2) :=
          Nat.pow_le_pow_right (by omega) (by omega)
        omega
    rw [growHeap, if_pos hbytes]
    by_cases hlt : h.highestLevel + 1 < memBlocksMaxLevelCount
    · rw [if_neg (not_le.2 hlt)]
      have hask : Asked h bytes (h.highestLevel + 1) :=
        ⟨Nat.lt_succ_self _, hlt, ok.repr.size_eq ▸ hbytes⟩
      by_cases hz : (grantAt palloc (h.highestLevel + 1)).addr = 0
      · rw [growStep_refused ok.repr.sizesOk hz]
      · rw [growStep_granted ok.repr.sizesOk hz]
        obtain ⟨ok', hg'⟩ := ok.granted hask hg hz
        apply ih ok' hg'
        obtain hbig | ⟨L, ⟨hL, hL34, hb⟩, hzero⟩ := href
        · exact Or.inl hbig
        · -- the refused run is none of those obtained so far
          have hne : h.highestLevel + 1 ≠ L := fun he => hz (he ▸ hzero)
          exact Or.inr ⟨L, ⟨lt_of_le_of_ne hL hne, hL34, hb⟩, hzero⟩
    · rw [if_pos (not_lt.1 hlt)]

end Growth

end Ssos
