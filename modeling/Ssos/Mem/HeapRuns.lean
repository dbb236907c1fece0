import Ssos.Mem.GrowthSpec
import Ssos.Mem.KfreeSpec
import Ssos.Foundations.PartialRuns

/-!
# Runs of the heap

The heap together with the allocations its callers hold, and the steps that
the callers take: `kmalloc`, `kfree`, and writes to memory. The conditions on
single steps are what the callers promise (`Lawful`), what the page allocator
promises (`Granted`), and the two conditions under which the code is right:
small requests on the first page (`Small`) and, on a grown heap, frees whose
merging is bound to stop inside an aligned window (`StaysConfined`).

## Main results

- `kmalloc_spec` — every outcome of `kmalloc`
- `heapStep_inv` — a step that meets the conditions is defined and keeps the heap intact
- `smallStep_inv` — the same on the first page, where small requests suffice
-/

namespace Ssos

open ByteMemory Buddy Window PointerList PartialRun

/-! ### States and steps -/

/-- A live result of `kmalloc` and the size that was asked for. -/
structure Alloc where
  ptr : ℕ
  bytes : ℕ
deriving DecidableEq

structure HeapState where
  heap : Heap
  live : List Alloc

inductive HeapOp
  | kmalloc (bytes : ℕ) (pagingAllocPages : ℕ → ℕ)
  | kfree (ptr : ℕ)
  | write (addr : ℕ) (value : UInt8)

def heapStep (s : HeapState) : HeapOp → Option HeapState
  | .kmalloc bytes palloc =>
    match kmalloc palloc bytes s.heap with
    | none => none
    | some (p, h) => some ⟨h, if p = 0 then s.live else ⟨p, bytes⟩ :: s.live⟩
  | .kfree ptr =>
    match kfree ptr s.heap with
    | none => none
    | some f => some ⟨f.heap, s.live.filter fun a => a.ptr ≠ ptr⟩
  | .write addr value =>
    some { s with heap := { s.heap with mem := Function.update s.heap.mem addr value } }

theorem kmalloc_of_step {s s' : HeapState} {bytes : ℕ} {palloc : ℕ → ℕ}
    (hstep : heapStep s (.kmalloc bytes palloc) = some s') :
    ∃ p h, kmalloc palloc bytes s.heap = some (p, h) ∧
      s' = ⟨h, if p = 0 then s.live else ⟨p, bytes⟩ :: s.live⟩ := by
  rw [heapStep] at hstep
  cases hres : kmalloc palloc bytes s.heap with
  | none =>
    rw [hres] at hstep
    exact absurd hstep.symm (Option.some_ne_none s')
  | some res =>
    rw [hres] at hstep
    exact ⟨res.1, res.2, rfl, (Option.some_inj.1 hstep).symm⟩

theorem kfree_of_step {s s' : HeapState} {ptr : ℕ} (hstep : heapStep s (.kfree ptr) = some s') :
    ∃ f, kfree ptr s.heap = some f ∧ s' = ⟨f.heap, s.live.filter fun a => a.ptr ≠ ptr⟩ := by
  rw [heapStep] at hstep
  cases hres : kfree ptr s.heap with
  | none =>
    rw [hres] at hstep
    exact absurd hstep.symm (Option.some_ne_none s')
  | some f =>
    rw [hres] at hstep
    exact ⟨f, rfl, (Option.some_inj.1 hstep).symm⟩

/-- The state after a successful `kalloc_init` on `page`. -/
def HeapState.start (mem : Mem) (page : ℕ) : HeapState :=
  ⟨(kallocInit page (Heap.initial mem)).2, []⟩

/-- The block that the header in front of a live pointer describes. -/
def usedBlock (m : Mem) (ptr : ℕ) : Window :=
  ⟨ptr - metaSize, blockLevel m (ptr - metaSize) + memBlocksBaseLevel⟩

def liveBlocks (s : HeapState) : List Window := s.live.map fun a => usedBlock s.heap.mem a.ptr

/-- The callers' promise: sizes are 64-bit values, only live pointers are
freed, and memory is written inside live payloads or outside the heap. -/
def Lawful (s : HeapState) : HeapOp → Prop
  | .kmalloc bytes _ => bytes < 2 ^ 64
  | .kfree ptr => ptr = 0 ∨ ∃ a ∈ s.live, a.ptr = ptr
  | .write addr _ =>
    (∃ a ∈ s.live, a.ptr ≤ addr ∧ addr < a.ptr + a.bytes) ∨ ∀ r ∈ s.heap.runs, addr ∉ r

instance (s : HeapState) : ∀ op, Decidable (Lawful s op)
  | .kmalloc bytes _ => inferInstanceAs (Decidable (bytes < 2 ^ 64))
  | .kfree ptr => inferInstanceAs (Decidable (ptr = 0 ∨ ∃ a ∈ s.live, a.ptr = ptr))
  | .write addr _ => inferInstanceAs (Decidable
      ((∃ a ∈ s.live, a.ptr ≤ addr ∧ addr < a.ptr + a.bytes) ∨ ∀ r ∈ s.heap.runs, addr ∉ r))

/-- The page allocator's promise. -/
def Granted (s : HeapState) : HeapOp → Prop
  | .kmalloc bytes palloc => GrantOk s.heap palloc ((bytes + metaSize) % 2 ^ 64)
  | _ => True

/-- Requests that fit the first page. -/
def Small : HeapOp → Prop
  | .kmalloc bytes _ => bytes ≤ 2 ^ 21 - 16
  | _ => True

instance : ∀ op, Decidable (Small op)
  | .kmalloc bytes _ => inferInstanceAs (Decidable (bytes ≤ 2 ^ 21 - 16))
  | .kfree _ => isTrue trivial
  | .write _ _ => isTrue trivial

/-- Requests are at most `2 ^ 31` bytes with their header or cannot be met, and
every freed block is confined. -/
def StaysConfined (s : HeapState) : HeapOp → Prop
  | .kmalloc bytes palloc => bytes + metaSize ≤ 2 ^ 31 ∨
    bytes + metaSize < 2 ^ 64 ∧ Refused s.heap palloc (bytes + metaSize)
  | .kfree ptr => ptr = 0 ∨ Confined s.heap {b | b ∈ liveBlocks s} (usedBlock s.heap.mem ptr)
  | .write _ _ => True

/-! ### Every outcome of kmalloc -/

/-- What the growth loop compares: the request with its header. -/
def requestSize (bytes : ℕ) : ℕ := (bytes + metaSize) % 2 ^ 64

/-- A call of `kmalloc` returned `NULL` or handed out a fresh block of the
size class of the request. -/
def Served (live : Set Window) (bytes : ℕ) (res : ℕ × Heap) : Prop :=
  (res.1 = 0 ∧ ∃ free, HeapOk res.2 free live) ∨
    ∃ b : Window, res.1 = b.addr + 16 ∧ b ∉ live ∧ 0 < bytes ∧
      b.order = Nat.clog 2 (bytes + 16) ∧ ∃ free, HeapOk res.2 free (insert b live)

section Kmalloc
variable {h : Heap} {free live : Set Window} {palloc : ℕ → ℕ} {bytes : ℕ}

theorem requestSize_eq (hlt : bytes + 16 < 2 ^ 64) : requestSize bytes = bytes + 16 := by
  rw [requestSize, metaSize_eq, Nat.mod_eq_of_lt hlt]

theorem kmalloc_unfold (hz : bytes ≠ 0) : kmalloc palloc bytes h =
    match growHeap palloc (requestSize bytes) (memBlocksMaxLevelCount - h.highestLevel) h with
    | (false, h) => some (0, h)
    | (true, h) => allocLevel (requestSize bytes) h := if_neg hz

/-- `kmalloc` for a size that does not wrap with its header. -/
theorem kmalloc_eq (hz : bytes ≠ 0) (hlt : bytes + 16 < 2 ^ 64) :
    kmalloc palloc bytes h =
      match growHeap palloc (bytes + 16) (memBlocksMaxLevelCount - h.highestLevel) h with
      | (false, h) => some (0, h)
      | (true, h) => allocLevel (bytes + 16) h := by
  rw [kmalloc_unfold hz, requestSize_eq hlt]

/-- A request that fits the largest block does not make the heap grow. -/
theorem kmalloc_eq_allocLevel (hs : SizesOk h) (hz : bytes ≠ 0) (hlt : bytes + 16 < 2 ^ 64)
    (hfit : bytes + 16 ≤ h.highestBlockSize) :
    kmalloc palloc bytes h = allocLevel (bytes + 16) h := by
  rw [kmalloc_eq hz hlt, growHeap_of_le palloc hs.levels_pos hfit]

theorem allocLevel_served (ok : HeapOk h free live) (hpos : 0 < bytes)
    (hle : bytes + 16 ≤ 2 ^ 31) :
    ∃ res, allocLevel (bytes + 16) h = some res ∧ Served live bytes res ∧
      res.2.runs = h.runs ∧ res.2.highestLevel = h.highestLevel := by
  obtain ⟨heq, _⟩ | ⟨res, heq, b, hb, htook⟩ := allocLevel_spec ok (by omega) hle
  · exact ⟨(0, h), heq, Or.inl ⟨rfl, free, ok⟩, rfl, rfl⟩
  · exact ⟨res, heq, Or.inr ⟨b, htook.ptr, htook.fresh, hpos, hb, htook.ok⟩, htook.runs,
      htook.level⟩

/-- `kmalloc` for a request that fits the largest block: the heap does not grow. -/
theorem kmalloc_fits (ok : HeapOk h free live) (hle : bytes + 16 ≤ 2 ^ 31)
    (hfit : bytes + 16 ≤ h.highestBlockSize) :
    ∃ res, kmalloc palloc bytes h = some res ∧ Served live bytes res ∧
      res.2.runs = h.runs ∧ res.2.highestLevel = h.highestLevel := by
  by_cases hz : bytes = 0
  · exact ⟨(0, h), by rw [kmalloc, if_pos hz], Or.inl ⟨rfl, free, ok⟩, rfl, rfl⟩
  · obtain ⟨res, heq, hserved⟩ := allocLevel_served ok (Nat.pos_of_ne_zero hz) hle
    exact ⟨res, (kmalloc_eq_allocLevel ok.repr.sizesOk hz (by omega) hfit).trans heq, hserved⟩

/-- **Every outcome of `kmalloc`**, when the page allocator keeps its promise and
the request is at most `2 ^ 31` bytes with its header or cannot be met. -/
theorem kmalloc_spec (ok : HeapOk h free live) (hg : GrantOk h palloc (bytes + 16))
    (hb : bytes + 16 ≤ 2 ^ 31 ∨ bytes + 16 < 2 ^ 64 ∧ Refused h palloc (bytes + 16)) :
    ∃ res, kmalloc palloc bytes h = some res ∧ Served live bytes res := by
  by_cases hz : bytes = 0
  · exact ⟨(0, h), by rw [kmalloc, if_pos hz], Or.inl ⟨rfl, free, ok⟩⟩
  have hgrew := growHeap_spec ok hg ok.repr.sizesOk.levels_cover
  rw [kmalloc_eq hz (by omega)]
  cases hres : growHeap palloc (bytes + 16) (memBlocksMaxLevelCount - h.highestLevel) h with
  | mk fits h₁ =>
    rw [hres] at hgrew
    obtain ⟨free₁, ok₁⟩ := hgrew.ok
    cases fits with
    | false => exact ⟨(0, h₁), rfl, Or.inl ⟨rfl, free₁, ok₁⟩⟩
    | true =>
      have hle : bytes + 16 ≤ 2 ^ 31 := by
        refine hb.resolve_right fun ⟨_, href⟩ => ?_
        have hfalse := growHeap_refused (n := memBlocksMaxLevelCount - h.highestLevel) ok hg href
        rw [hres] at hfalse
        exact Bool.noConfusion hfalse
      obtain ⟨res, heq, hserved, _⟩ := allocLevel_served ok₁ (Nat.pos_of_ne_zero hz) hle
      exact ⟨res, heq, hserved⟩

end Kmalloc

/-! ### The callers' allocations and the live blocks -/

/-- Every allocation owns one live block, which has room for it. -/
structure Owned (allocs : List Alloc) (live : Set Window) : Prop where
  block : ∀ a ∈ allocs, ∃ b ∈ live, a.ptr = b.addr + 16 ∧ 0 < a.bytes ∧
    a.bytes + 16 ≤ 2 ^ b.order
  owner : ∀ b ∈ live, ∃ a ∈ allocs, a.ptr = b.addr + 16
  nodup : (allocs.map Alloc.ptr).Nodup

section Owned
variable {allocs : List Alloc} {live : Set Window} {b : Window}

theorem Owned.insert (ho : Owned allocs live) (hnew : ∀ c ∈ live, c.addr ≠ b.addr) {bytes : ℕ}
    (hpos : 0 < bytes) (hfit : bytes + 16 ≤ 2 ^ b.order) :
    Owned (⟨b.addr + 16, bytes⟩ :: allocs) (insert b live) where
  block := by
    intro a ha
    obtain rfl | ha := List.mem_cons.1 ha
    · exact ⟨b, Or.inl rfl, rfl, hpos, hfit⟩
    · obtain ⟨c, hc, h⟩ := ho.block a ha
      exact ⟨c, Or.inr hc, h⟩
  owner := by
    intro c hc
    obtain rfl | hc := hc
    · exact ⟨_, List.mem_cons_self, rfl⟩
    · obtain ⟨a, ha, he⟩ := ho.owner c hc
      exact ⟨a, List.mem_cons_of_mem _ ha, he⟩
  nodup := by
    rw [List.map_cons, List.nodup_cons]
    refine ⟨fun hmem => ?_, ho.nodup⟩
    obtain ⟨a, ha, he⟩ := List.mem_map.1 hmem
    obtain ⟨c, hc, hptr, _⟩ := ho.block a ha
    have he' : a.ptr = b.addr + 16 := he
    exact hnew c hc (by omega)

theorem Owned.erase (ho : Owned allocs live) (hinj : ∀ c ∈ live, c.addr = b.addr → c = b) :
    Owned (allocs.filter fun a => a.ptr ≠ b.addr + 16) (live \ {b}) where
  block := by
    intro a ha
    obtain ⟨ha, hne⟩ := List.mem_filter.1 ha
    obtain ⟨c, hc, hptr, h⟩ := ho.block a ha
    refine ⟨c, ⟨hc, fun he => of_decide_eq_true hne ?_⟩, hptr, h⟩
    obtain rfl : c = b := he
    exact hptr
  owner := by
    intro c ⟨hc, hne⟩
    obtain ⟨a, ha, hptr⟩ := ho.owner c hc
    refine ⟨a, List.mem_filter.2 ⟨ha, decide_eq_true fun he => hne ?_⟩, hptr⟩
    exact hinj c hc (by omega)
  nodup := ho.nodup.sublist (List.Sublist.map _ List.filter_sublist)

end Owned

/-- The heap is intact and its live blocks are those of the callers. -/
structure Holds (s : HeapState) (free live : Set Window) : Prop where
  ok : HeapOk s.heap free live
  owned : Owned s.live live

section Holds
variable {s : HeapState} {free live : Set Window}

theorem Holds.usedBlock_eq (hs : Holds s free live) {b : Window} (hb : b ∈ live) :
    usedBlock s.heap.mem (b.addr + 16) = b := by
  rw [usedBlock, metaSize_eq, Nat.add_sub_cancel]
  exact Window.ext rfl (hs.ok.marked b hb).1

/-- The live blocks are read off the headers in front of the live pointers. -/
theorem Holds.mem_liveBlocks (hs : Holds s free live) (b : Window) :
    b ∈ liveBlocks s ↔ b ∈ live := by
  rw [liveBlocks, List.mem_map]
  constructor
  · rintro ⟨a, ha, rfl⟩
    obtain ⟨c, hc, hptr, _⟩ := hs.owned.block a ha
    rw [hptr, hs.usedBlock_eq hc]
    exact hc
  · intro hb
    obtain ⟨a, ha, hptr⟩ := hs.owned.owner b hb
    exact ⟨a, ha, by rw [hptr, hs.usedBlock_eq hb]⟩

theorem Holds.liveBlocks_eq (hs : Holds s free live) : {b | b ∈ liveBlocks s} = live :=
  Set.ext hs.mem_liveBlocks

theorem Holds.addr_inj (hs : Holds s free live) {b c : Window} (hb : b ∈ live) (hc : c ∈ live)
    (he : b.addr = c.addr) : b = c :=
  hs.ok.repr.tiling.apart.eq_of_addr (Or.inr hb) (Or.inr hc) he

/-! ### Steps -/

/-- The state after a call of `kmalloc`. -/
theorem Holds.served (hs : Holds s free live) {bytes : ℕ} {res : ℕ × Heap}
    (hserved : Served live bytes res) :
    (∃ free', Holds ⟨res.2, if res.1 = 0 then s.live else ⟨res.1, bytes⟩ :: s.live⟩ free' live ∧
        res.1 = 0) ∨
      ∃ b free', res.1 = b.addr + 16 ∧ b ∉ live ∧
        Holds ⟨res.2, if res.1 = 0 then s.live else ⟨res.1, bytes⟩ :: s.live⟩ free'
          (insert b live) := by
  obtain ⟨hz, free', ok'⟩ | ⟨b, hptr, hfresh, hpos, horder, free', ok'⟩ := hserved
  · rw [if_pos hz]
    exact Or.inl ⟨free', ⟨ok', hs.owned⟩, hz⟩
  · have hne : res.1 ≠ 0 := by omega
    rw [if_neg hne, hptr]
    refine Or.inr ⟨b, free', rfl, hfresh, ok', hs.owned.insert (fun c hc he => hfresh ?_) hpos ?_⟩
    · have hcb := ok'.repr.tiling.apart.eq_of_addr (Or.inr (Or.inr hc)) (Or.inr (Or.inl rfl)) he
      exact hcb ▸ hc
    · rw [horder]
      exact Nat.le_pow_clog (by omega) _

/-- The state after freeing a confined block. -/
theorem Holds.freed (hs : Holds s free live) {b : Window} (hb : b ∈ live)
    (hconf : Confined s.heap live b) :
    ∃ f s', kfree (b.addr + 16) s.heap = some f ∧ FreedOk s.heap free live b f ∧
      heapStep s (.kfree (b.addr + 16)) = some s' ∧ s'.heap = f.heap ∧
      s'.live = (s.live.filter fun a => a.ptr ≠ b.addr + 16) ∧
      ∃ free', Holds s' free' (live \ {b}) := by
  obtain ⟨f, hf, hok⟩ := kfree_spec hs.ok hb hconf
  obtain ⟨free', _, ok', _⟩ := hok.made
  refine ⟨f, ⟨f.heap, s.live.filter fun a => a.ptr ≠ b.addr + 16⟩, hf, hok, ?_, rfl, rfl,
    free', ok', ?_⟩
  · rw [heapStep, hf]
  · exact hs.owned.erase fun c hc he => hs.addr_inj hc hb he

/-- A write inside a live payload or outside the heap. -/
theorem Holds.write (hs : Holds s free live) {addr : ℕ} {value : UInt8}
    (hlaw : Lawful s (.write addr value)) :
    Holds { s with heap := { s.heap with mem := Function.update s.heap.mem addr value } }
      free live := by
  have hr := hs.ok.repr
  -- the address is behind the header of every block that it lies in, and only in live ones
  have hspare : ∀ b ∈ free ∪ live, addr ∈ b → b ∈ live ∧ b.addr + 16 ≤ addr := by
    intro b hb hx
    obtain ⟨a, ha, hle, hlt⟩ | hout := hlaw
    · obtain ⟨c, hc, hptr, _, hfit⟩ := hs.owned.block a ha
      have hxc : addr ∈ c := ⟨by omega, by simp only [Window.stop]; omega⟩
      obtain rfl := hr.tiling.apart b hb c (Or.inr hc) addr hx hxc
      exact ⟨hc, by omega⟩
    · obtain ⟨r, hroot, hsub⟩ := hr.tiling.within b hb
      exact absurd (hsub.mem hx) (hout r hroot)
  refine ⟨⟨?_, ?_, hs.ok.coalesced⟩, hs.owned⟩
  · refine hr.frame fun b hb x hx => Function.update_of_ne ?_ _ _
    rintro rfl
    exact Set.disjoint_left.1 hr.disjoint hb (hspare b (Or.inl hb) hx).1
  · refine hs.ok.marked.frame fun b hb x hx hlt => Function.update_of_ne ?_ _ _
    rintro rfl
    have := hspare b (Or.inr hb) (hr.header_mem (Or.inr hb) hx hlt)
    omega

end Holds

/-- What holds between the calls of a run. -/
def HeapInv (s : HeapState) : Prop := ∃ free live, Holds s free live

/-- **Step lemma.** A step that meets all conditions is defined and keeps the
heap intact. -/
theorem heapStep_inv {s : HeapState} {op : HeapOp} (hinv : HeapInv s) (hlaw : Lawful s op)
    (hg : Granted s op) (hconf : StaysConfined s op) :
    ∃ s', heapStep s op = some s' ∧ HeapInv s' := by
  obtain ⟨free, live, hs⟩ := hinv
  cases op with
  | kmalloc bytes palloc =>
    rw [StaysConfined, metaSize_eq] at hconf
    rw [Granted, metaSize_eq, Nat.mod_eq_of_lt (by omega)] at hg
    obtain ⟨res, heq, hserved⟩ := kmalloc_spec hs.ok hg hconf
    refine ⟨_, by rw [heapStep, heq], ?_⟩
    obtain ⟨free', hs', _⟩ | ⟨b, free', _, _, hs'⟩ := hs.served hserved
    · exact ⟨free', live, hs'⟩
    · exact ⟨free', insert b live, hs'⟩
  | kfree ptr =>
    by_cases hz : ptr = 0
    · subst hz
      refine ⟨_, rfl, free, live, hs.ok, ?_⟩
      have hall : (s.live.filter fun a => a.ptr ≠ 0) = s.live := by
        refine List.filter_eq_self.2 fun a ha => decide_eq_true ?_
        obtain ⟨b, _, hptr, _⟩ := hs.owned.block a ha
        omega
      rw [hall]
      exact hs.owned
    · obtain ⟨a, ha, rfl⟩ := hlaw.resolve_left hz
      obtain ⟨b, hb, hptr, _⟩ := hs.owned.block a ha
      have hc := hconf.resolve_left hz
      rw [hs.liveBlocks_eq, hptr, hs.usedBlock_eq hb] at hc
      obtain ⟨_, s', _, _, hstep, _, _, free', hs'⟩ := hs.freed hb hc
      exact ⟨s', hptr ▸ hstep, free', _, hs'⟩
  | write addr value => exact ⟨_, rfl, free, live, hs.write hlaw⟩

/-! ### The first page -/

/-- The window of the first page. -/
def pageWindow (page : ℕ) : Window := ⟨page, log2PageSize⟩

/-- What `paging_alloc_pages(1)` answers during `kalloc_init`. -/
structure PageOk (page : ℕ) : Prop where
  nonnull : page ≠ 0
  aligned : 2 ^ 21 ∣ page
  stop : page + 2 ^ 21 ≤ 2 ^ 64

/-- The heap still has the first page only. -/
structure OnPage (page : ℕ) (s : HeapState) : Prop where
  runs : s.heap.runs = [pageWindow page]
  highest : s.heap.highestLevel = 18

/-- What holds between the calls of a run with small requests. -/
def PageInv (page : ℕ) (s : HeapState) : Prop := HeapInv s ∧ OnPage page s

section Page
variable {page : ℕ} {s : HeapState} {free live : Set Window}

theorem initial_ok (mem : Mem) : HeapOk (Heap.initial mem) ∅ ∅ where
  repr :=
    { level_ge := le_rfl, level_lt := (by decide : 18 < 34)
      size_eq := (by decide : pageSize = 2 ^ 21)
      roots_apart := fun b hb => absurd hb List.not_mem_nil
      root_pos := fun r hr => absurd hr List.not_mem_nil
      root_aligned := fun r hr => absurd hr List.not_mem_nil
      root_stop := fun r hr => absurd hr List.not_mem_nil
      root_order := fun r hr => absurd hr List.not_mem_nil
      tiling :=
        { within := by simp
          cover := fun r hr => absurd hr List.not_mem_nil
          apart := by simp [Apart] }
      disjoint := by simp
      order_ge := by simp
      level := by simp
      isFree := by simp
      lists := fun L => ⟨[], rfl, List.nodup_nil, by simp⟩ }
  marked := by simp [Marked]
  coalesced := fun r hr => absurd hr List.not_mem_nil

/-- `kalloc_init` makes the page the only free block. -/
theorem start_holds (mem : Mem) (hp : PageOk page) :
    Holds (HeapState.start mem page) {pageWindow page} ∅ ∧
      OnPage page (HeapState.start mem page) := by
  have hstart : (kallocInit page (Heap.initial mem)).2 = (Heap.initial mem).withRun page := by
    rw [kallocInit, if_neg hp.nonnull]
    rfl
  have hok := (initial_ok mem).insertRoot (p := page)
    ⟨Nat.pos_of_ne_zero hp.nonnull, hp.aligned, hp.stop, fun r hr => absurd hr List.not_mem_nil⟩
    (by simp)
  refine ⟨⟨?_, ⟨by simp [HeapState.start], by simp, List.nodup_nil⟩⟩, ?_, ?_⟩
  · rw [HeapState.start, hstart, ← insert_empty_eq]
    exact hok
  · rw [HeapState.start, hstart]
    rfl
  · rw [HeapState.start, hstart]
    rfl

/-- After `kalloc_init` the page heads its list. -/
theorem start_head (hp : PageOk page) (mem : Mem) :
    (HeapState.start mem page).heap.memBlocks 18 = page := by
  rw [HeapState.start, kallocInit, if_neg hp.nonnull]
  rfl

theorem OnPage.root_mem (ho : OnPage page s) : pageWindow page ∈ s.heap.roots := by
  rw [Heap.roots, ho.runs]
  exact List.mem_singleton_self _

theorem OnPage.roots_eq (ho : OnPage page s) : s.heap.roots = {pageWindow page} := by
  ext r
  rw [Heap.roots, ho.runs]
  exact List.mem_singleton

/-- On the first page every block is confined by the page itself. -/
theorem OnPage.confined (ho : OnPage page s) (hs : Holds s free live) {b : Window}
    (hb : b ∈ live) : Confined s.heap live b := by
  obtain ⟨r, hroot, hsub⟩ := hs.ok.repr.tiling.within b (Or.inr hb)
  rw [ho.roots_eq] at hroot
  obtain rfl : r = pageWindow page := hroot
  refine ⟨_, ho.root_mem, pageWindow page, Sub.refl _, hsub,
    Or.inr ⟨hs.ok.repr.root_aligned _ ho.root_mem, Or.inl ?_⟩⟩
  rw [ho.highest]
  rfl

/-- A small call of `kmalloc` on the first page. -/
theorem OnPage.kmalloc (ho : OnPage page s) (hs : Holds s free live) {bytes : ℕ}
    (hsmall : bytes ≤ 2 ^ 21 - 16) (palloc : ℕ → ℕ) :
    ∃ res, Ssos.kmalloc palloc bytes s.heap = some res ∧ Served live bytes res ∧
      res.2.runs = s.heap.runs ∧ res.2.highestLevel = s.heap.highestLevel := by
  refine kmalloc_fits hs.ok (by omega) ?_
  rw [hs.ok.repr.size_eq, ho.highest]
  omega

/-- **Step lemma** on the first page: small requests are all that is needed. -/
theorem smallStep_inv {op : HeapOp} (hinv : PageInv page s) (hlaw : Lawful s op)
    (hsmall : Small op) : ∃ s', heapStep s op = some s' ∧ PageInv page s' := by
  obtain ⟨⟨free, live, hs⟩, ho⟩ := hinv
  cases op with
  | kmalloc bytes palloc =>
    obtain ⟨res, heq, hserved, hruns, hlevel⟩ := ho.kmalloc hs hsmall palloc
    refine ⟨_, by rw [heapStep, heq], ?_, hruns.trans ho.runs, hlevel.trans ho.highest⟩
    obtain ⟨free', hs', _⟩ | ⟨b, free', _, _, hs'⟩ := hs.served hserved
    · exact ⟨free', live, hs'⟩
    · exact ⟨free', insert b live, hs'⟩
  | kfree ptr =>
    by_cases hz : ptr = 0
    · obtain ⟨s', hstep, hinv'⟩ := heapStep_inv ⟨free, live, hs⟩ hlaw trivial (Or.inl hz)
      subst hz
      obtain rfl := Option.some_inj.1 hstep
      exact ⟨_, hstep, hinv', ho.runs, ho.highest⟩
    · obtain ⟨a, ha, rfl⟩ := hlaw.resolve_left hz
      obtain ⟨b, hb, hptr, _⟩ := hs.owned.block a ha
      obtain ⟨f, s', _, hok, hstep, hheap, _, free', hs'⟩ := hs.freed hb (ho.confined hs hb)
      refine ⟨s', hptr ▸ hstep, ⟨free', _, hs'⟩, ?_, ?_⟩
      · rw [hheap, hok.runs, ho.runs]
      · rw [hheap, hok.highest, ho.highest]
  | write addr value => exact ⟨_, rfl, ⟨free, live, hs.write hlaw⟩, ho.runs, ho.highest⟩

end Page

end Ssos
