import Ssos.Mem.FirstPage

/-!
# The contents of allocations

The heap keeps its bookkeeping in the same memory that it hands out: headers
stand in front of the payloads and free lists run through blocks that were
payloads before. `kmalloc` and `kfree` write to headers only, and never behind
the header of a block that somebody else holds.

## Main results

- `heapStep_keeps` — a step spares the payloads of all other allocations
- `PageInv.returned` — a buffer that is given back leaves the heap as it was
- `payloads_of_run` — an allocation holds what was last written to it
-/

namespace Ssos

open ByteMemory Buddy Window PointerList PartialRun

/-- `m'` agrees with `m` behind the headers of the blocks. -/
def KeepsPayloads (blocks : Set Window) (m m' : Mem) : Prop :=
  ∀ b ∈ blocks, ∀ x, x ∈ b → b.addr + 16 ≤ x → m' x = m x

section KeepsPayloads
variable {blocks blocks' : Set Window} {m m' m'' : Mem}

theorem KeepsPayloads.refl (blocks : Set Window) (m : Mem) : KeepsPayloads blocks m m :=
  fun _ _ _ _ _ => rfl

theorem KeepsPayloads.trans (h : KeepsPayloads blocks m m') (h' : KeepsPayloads blocks m' m'') :
    KeepsPayloads blocks m m'' := fun b hb x hx hle => (h' b hb x hx hle).trans (h b hb x hx hle)

theorem KeepsPayloads.mono (h : KeepsPayloads blocks' m m') (hsub : blocks ⊆ blocks') :
    KeepsPayloads blocks m m' := fun b hb => h b (hsub hb)

variable {h : Heap} {free live : Set Window}

/-- The header of a block overlaps no payload. -/
theorem Repr.keeps_header (hr : Repr h free live) {c : Window} (hc : c ∈ free ∪ live)
    (hm : HeaderWrite m m' c.addr) : KeepsPayloads live m m' := by
  intro b hb x hx hle
  apply hm
  by_contra hcon
  have hxc : x ∈ c := hr.header_mem hc (by omega) (by omega)
  obtain rfl := hr.tiling.apart c hc b (Or.inr hb) x hxc hx
  omega

/-- Writes inside a free block spare all payloads. -/
theorem Repr.keeps_free (hr : Repr h free live) {c : Window} (hc : c ∈ free)
    (hm : ∀ x, x ∉ c → m' x = m x) : KeepsPayloads live m m' :=
  fun _ hb x hx _ => hm x fun hxc => hr.free_notMem_used hc hb hxc hx

end KeepsPayloads

/-! ### kmalloc -/

section Kmalloc
variable {h : Heap} {free live : Set Window} {palloc : ℕ → ℕ}

theorem takeHead_keeps (hr : Repr h free live) {L : ℕ} (hne : h.memBlocks L ≠ 0) :
    KeepsPayloads live h.mem
      (takeBlock (h.setHead L (blockNext h.mem (h.memBlocks L))) (h.memBlocks L)).2.mem :=
  hr.keeps_header (Or.inl (hr.head_mem hne)) (((HeaderWrite.refl _ _).setIsFree false).setNext 0)

/-- Both new headers lie in the block that is split. -/
theorem splitHead_keeps (hr : Repr h free live) {L : ℕ} (hL : 2 ≤ L)
    (hne : h.memBlocks (L + 1) ≠ 0) : KeepsPayloads live h.mem (splitHead h L).mem := by
  refine hr.keeps_free (hr.head_mem hne) fun x hx => ?_
  have hsize : 2 ^ 5 ≤ 2 ^ (L + 3) := Nat.pow_le_pow_right (by decide) (by omega)
  have hdouble : 2 ^ (L + 1 + 3) = 2 ^ (L + 3) + 2 ^ (L + 3) := by
    rw [show L + 1 + 3 = L + 3 + 1 by omega, pow_succ]
    omega
  have hout : ¬(h.memBlocks (L + 1) ≤ x ∧ x < h.memBlocks (L + 1) + 2 ^ (L + 1 + 3)) := hx
  rw [splitHead, pushHalf_mem _ _ _ x (by omega), pushHalf_mem _ _ _ x (by omega)]
  rfl

theorem splitLoop_descend_keeps {target L : ℕ} (hr : Repr h free live) (hmk : Marked h.mem live)
    (htarget : 2 ≤ target) (hle : target ≤ L) (hne : h.memBlocks L ≠ 0)
    (hc : Coalesced h.roots (free \ {⟨h.memBlocks L, L + 3⟩})) :
    KeepsPayloads live h.mem (splitLoop target (L + 1) h).2.mem := by
  induction L generalizing h free with
  | zero => omega
  | succ L ih =>
    by_cases he : L + 1 = target
    · subst he
      rw [splitLoop_take hne]
      exact takeHead_keeps hr hne
    · rw [splitLoop_split (by omega) hne]
      have hsplit := splitHead_keeps hr (show 2 ≤ L by omega) hne
      obtain ⟨free', hr', hmk', hne', hc'⟩ := splitHead_spec hr hmk (by omega) hne hc
      exact hsplit.trans (ih hr' hmk' (by omega) hne' hc')

theorem splitLoop_keeps {target : ℕ} (ok : HeapOk h free live) (htarget : 2 ≤ target) (n : ℕ) :
    KeepsPayloads live h.mem (splitLoop target n h).2.mem := by
  induction n with
  | zero => exact .refl live h.mem
  | succ n ih =>
    by_cases hlt : n < target
    · rw [splitLoop, if_pos hlt]
      exact .refl live h.mem
    · by_cases hz : h.memBlocks n = 0
      · rw [splitLoop_skip (by omega) hz]
        exact ih
      · exact splitLoop_descend_keeps ok.repr ok.marked htarget (by omega) hz
          (ok.coalesced.mono Set.sdiff_subset)

theorem allocLevel_keeps (ok : HeapOk h free live) {bytes : ℕ} (hlow : 16 < bytes)
    (hhigh : bytes ≤ 2 ^ 31) {res : ℕ × Heap} (hres : allocLevel bytes h = some res) :
    KeepsPayloads live h.mem res.2.mem := by
  obtain ⟨t, ht, hlevel⟩ := exists_level_of_lt hlow
  have hclass := logb_roundPow2Boundary (show 1 ≤ bytes by omega) hhigh
  rw [ht] at hclass
  rw [allocLevel_eq hclass] at hres
  by_cases hz : h.memBlocks t ≠ 0
  · rw [if_pos hz] at hres
    obtain rfl := Option.some_inj.1 hres
    exact takeHead_keeps ok.repr hz
  · rw [if_neg hz] at hres
    obtain rfl := Option.some_inj.1 hres
    exact splitLoop_keeps ok hlevel _

/-- The header of a new run is outside all blocks. -/
theorem HeapOk.granted_keeps {bytes : ℕ} (ok : HeapOk h free live)
    (hask : Asked h bytes (h.highestLevel + 1)) (hg : GrantOk h palloc bytes)
    (hp : (grantAt palloc (h.highestLevel + 1)).addr ≠ 0) :
    KeepsPayloads live h.mem
      (h.raised.withRun (grantAt palloc (h.highestLevel + 1)).addr).mem := by
  obtain ⟨ok', -⟩ := ok.granted hask hg hp
  exact ok'.repr.keeps_header (Or.inl (Or.inl rfl)) freshHeader_write

theorem growHeap_keeps {bytes n : ℕ} (ok : HeapOk h free live) (hg : GrantOk h palloc bytes) :
    KeepsPayloads live h.mem (growHeap palloc bytes n h).2.mem := by
  induction n generalizing h free with
  | zero => exact .refl live h.mem
  | succ n ih =>
    rw [growHeap]
    by_cases hbytes : bytes > h.highestBlockSize
    · rw [if_pos hbytes]
      by_cases hlt : h.highestLevel + 1 < memBlocksMaxLevelCount
      · rw [if_neg (not_le.2 hlt)]
        have hask : Asked h bytes (h.highestLevel + 1) :=
          ⟨Nat.lt_succ_self _, hlt, ok.repr.size_eq ▸ hbytes⟩
        by_cases hz : (grantAt palloc (h.highestLevel + 1)).addr = 0
        · rw [growStep_refused ok.repr.sizesOk hz]
          exact .refl live h.mem
        · rw [growStep_granted ok.repr.sizesOk hz]
          have hkeeps := ok.granted_keeps hask hg hz
          obtain ⟨ok', hg'⟩ := ok.granted hask hg hz
          exact hkeeps.trans (ih ok' hg')
      · rw [if_pos (not_lt.1 hlt)]
        exact .refl live h.mem
    · rw [if_neg hbytes]
      exact .refl live h.mem

/-- `kmalloc` spares all payloads. -/
theorem kmalloc_keeps {bytes : ℕ} (ok : HeapOk h free live) (hg : GrantOk h palloc (bytes + 16))
    (hb : bytes + 16 ≤ 2 ^ 31 ∨ bytes + 16 < 2 ^ 64 ∧ Refused h palloc (bytes + 16))
    {res : ℕ × Heap} (hres : kmalloc palloc bytes h = some res) :
    KeepsPayloads live h.mem res.2.mem := by
  by_cases hz : bytes = 0
  · rw [kmalloc, if_pos hz] at hres
    obtain rfl := Option.some_inj.1 hres
    exact .refl live h.mem
  rw [kmalloc_eq hz (by omega)] at hres
  have hgrew := growHeap_spec ok hg ok.repr.sizesOk.levels_cover
  have hkeeps := growHeap_keeps (n := memBlocksMaxLevelCount - h.highestLevel) ok hg
  have hrefused := fun href =>
    growHeap_refused (n := memBlocksMaxLevelCount - h.highestLevel) ok hg href
  generalize growHeap palloc (bytes + 16) (memBlocksMaxLevelCount - h.highestLevel) h = grown
    at hres hgrew hkeeps hrefused
  obtain ⟨fits, h₁⟩ := grown
  cases fits with
  | false =>
    obtain rfl := Option.some_inj.1 hres
    exact hkeeps
  | true =>
    have hle : bytes + 16 ≤ 2 ^ 31 := hb.resolve_right fun href =>
      Bool.noConfusion (hrefused href.2)
    obtain ⟨free₁, ok₁⟩ := hgrew.ok
    exact hkeeps.trans (allocLevel_keeps ok₁ (by omega) hle hres)

end Kmalloc

/-! ### kfree -/

section Kfree
variable {h : Heap} {free live : Set Window}

/-- A turn of the merge loop: the buddy is unlinked, and the level of the
merged block rises. -/
theorem Merging.keeps {w c d : Window} (hm : Merging h free live c) (hd : d ∈ free) {h₁ : Heap}
    (hun : unlinkBuddy h (blockLevel h.mem c.addr) d.addr = some h₁) (ho : d.order = c.order)
    (hm₁ : Merging { h₁ with mem := setLevel h₁.mem w.addr (blockLevel h₁.mem w.addr + 1) }
      (free \ {d}) live w) :
    KeepsPayloads live h.mem (setLevel h₁.mem w.addr (blockLevel h₁.mem w.addr + 1)) := by
  have hL : d.order = blockLevel h.mem c.addr + 3 := ho.trans hm.level.symm
  obtain ⟨h₂, hun₂, -, -, -, hmem⟩ := hm.repr.unlink hd hL
  obtain rfl := Option.some_inj.1 (hun.symm.trans hun₂)
  have hunlink : KeepsPayloads live h.mem h₁.mem := by
    refine fun b hb x hx _ => hmem x fun e he hxe => ?_
    exact hm.repr.free_notMem_used he.1 (Or.inr hb) hxe hx
  have hraise := hm₁.repr.keeps_header (Or.inr (Or.inl rfl))
    ((HeaderWrite.refl h₁.mem w.addr).setLevel (blockLevel h₁.mem w.addr + 1))
  exact hunlink.trans (hraise.mono (Set.subset_insert w live))

/-- The merge loop, by induction on its turns. -/
theorem mergeLoop_keeps {r v c : Window} {fuel : ℕ} (hm : Merging h free live c)
    (hroot : r ∈ h.roots) (hv : Sub v r) (hcv : Sub c v) (hstop : StopsIn h live r v c)
    (hfuel : h.highestLevel + 3 < c.order + fuel) :
    ∃ last examined h', mergeLoop fuel c.addr h = some (last, examined, h') ∧
      KeepsPayloads live h.mem h'.mem := by
  induction fuel generalizing h free c with
  | zero =>
    have hle := hm.repr.order_le (Or.inr (Or.inl rfl) : c ∈ free ∪ insert c live)
    omega
  | succ fuel ih =>
    by_cases hlt : blockLevel h.mem c.addr < h.highestLevel
    · obtain ⟨w, s, hwv, hwo, hhalf, hbuddy, d, hd, hda⟩ :=
        hm.buddy hroot hv hcv hstop hlt
      have hwpos : 0 < w.order := by omega
      have horder : s.order = c.order := hhalf.symm.order_eq.trans hhalf.order_eq.symm
      have htest := hm.test_iff horder hd hda
      by_cases hs : s ∈ free
      · obtain ⟨h₁, hun, hm₁, hruns, hhigh⟩ :=
          merge_spec hm hs hroot (hwv.trans hv) hwpos hhalf
        have hroots : h₁.roots = h.roots := by rw [Heap.roots, Heap.roots, hruns]
        have hturn := hm.keeps hs hun horder hm₁
        have hfuel₁ : h₁.highestLevel + 3 < w.order + fuel := by omega
        obtain ⟨last, examined, h', heq, hrest⟩ := ih hm₁ (hroots.symm ▸ hroot) hwv
          (hm.stopsIn hstop hlt hhigh) hfuel₁
        obtain ⟨hfree, hsame⟩ := htest.2 hs
        rw [← hbuddy] at hfree hsame hun
        exact ⟨_, _, h', mergeLoop_step hlt hfree hsame hun (hbuddy ▸ hhalf.addr_eq) heq,
          hturn.trans hrest⟩
      · rw [← hbuddy] at htest
        exact ⟨_, _, h, mergeLoop_stop hlt (mt htest.1 hs), .refl live h.mem⟩
    · exact ⟨_, _, h, mergeLoop_top hlt, .refl live h.mem⟩

/-- `kfree` spares the payloads of all blocks but the one that it frees. -/
theorem kfree_keeps {b : Window} (ok : HeapOk h free live) (hb : b ∈ live)
    (hconf : Confined h live b) {f : Freed} (hres : kfree (b.addr + 16) h = some f) :
    KeepsPayloads (live \ {b}) h.mem f.heap.mem := by
  obtain ⟨r, hroot, v, hv, hbv, hstop⟩ := hconf
  have hmerging := ok.merging hb
  have hmark : KeepsPayloads (live \ {b}) h.mem (setIsFree h.mem b.addr true) :=
    (ok.repr.keeps_header (Or.inr hb) ((HeaderWrite.refl _ _).setIsFree true)).mono
      Set.sdiff_subset
  have hfuel := ok.lt_loopFuel b
  obtain ⟨last, examined, h₁, heq, hloop⟩ := mergeLoop_keeps hmerging hroot hv hbv hstop hfuel
  obtain ⟨c, examined', h₂, heq', hm⟩ :=
    mergeLoop_spec hmerging ok.coalesced hroot hv hbv hstop hfuel
  obtain ⟨rfl, hpair⟩ := Prod.mk.inj (Option.some_inj.1 (heq.symm.trans heq'))
  obtain ⟨rfl, rfl⟩ := Prod.mk.inj hpair
  -- the last write links the merged block into its list
  obtain ⟨free', -, hr', -⟩ := hm.repr
  have hpush := (hr'.keeps_header (Or.inr (Or.inl rfl)) ((HeaderWrite.refl h₁.mem c.addr).setNext
    (h₁.memBlocks (blockLevel h₁.mem c.addr)))).mono (Set.subset_insert c _)
  rw [kfree, if_neg (Nat.succ_ne_zero _), metaSize_eq, Nat.add_sub_cancel] at hres
  simp only [heq, pushFreed] at hres
  by_cases hlevel : blockLevel h₁.mem c.addr < memBlocksMaxLevelCount
  · rw [if_pos hlevel] at hres
    obtain rfl := Option.some_inj.1 hres
    exact (hmark.trans hloop).trans hpush
  · rw [if_neg hlevel] at hres
    exact absurd hres.symm (Option.some_ne_none f)

end Kfree

/-! ### Steps -/

section Steps
variable {s s' : HeapState} {free live : Set Window}

/-- What is behind the headers of the live blocks is in particular in the payloads. -/
theorem Holds.keeps_payload (hs : Holds s free live) {blocks : Set Window} {m : Mem}
    (hkeeps : KeepsPayloads blocks s.heap.mem m) {a : Alloc} (ha : a ∈ s.live)
    (hblock : ∀ b ∈ live, a.ptr = b.addr + 16 → b ∈ blocks) {x : ℕ} (hle : a.ptr ≤ x)
    (hlt : x < a.ptr + a.bytes) : m x = s.heap.mem x := by
  obtain ⟨b, hb, hptr, hstop⟩ := hs.payload ha
  exact hkeeps b (hblock b hb hptr) x ⟨by omega, by omega⟩ (by omega)

/-- **Step lemma.** An allocation that is not freed stays, and its bytes change
only where the step writes. -/
theorem heapStep_keeps {op : HeapOp} (hinv : HeapInv s) (hlaw : Lawful s op) (hg : Granted s op)
    (hconf : StaysConfined s op) (hstep : heapStep s op = some s') {a : Alloc} (ha : a ∈ s.live)
    (hfree : op ≠ .kfree a.ptr) :
    a ∈ s'.live ∧ ∀ x, a.ptr ≤ x → x < a.ptr + a.bytes → (∀ value, op ≠ .write x value) →
      s'.heap.mem x = s.heap.mem x := by
  obtain ⟨free, live, hs⟩ := hinv
  cases op with
  | kmalloc bytes palloc =>
    rw [StaysConfined, metaSize_eq] at hconf
    rw [Granted, metaSize_eq, Nat.mod_eq_of_lt (by omega)] at hg
    obtain ⟨p, h, hres, rfl⟩ := kmalloc_of_step hstep
    have hkeeps := kmalloc_keeps hs.ok hg hconf hres
    refine ⟨?_, fun x hle hlt _ => hs.keeps_payload hkeeps ha (fun _ hb _ => hb) hle hlt⟩
    by_cases hp : p = 0
    · simpa only [if_pos hp] using ha
    · simpa only [if_neg hp] using List.mem_cons_of_mem _ ha
  | kfree ptr =>
    have hne : a.ptr ≠ ptr := fun he => hfree (he ▸ rfl)
    obtain ⟨f, hres, rfl⟩ := kfree_of_step hstep
    refine ⟨List.mem_filter.2 ⟨ha, decide_eq_true hne⟩, fun x hle hlt _ => ?_⟩
    by_cases hz : ptr = 0
    · rw [kfree, if_pos hz] at hres
      exact Option.some_inj.1 hres ▸ rfl
    · obtain ⟨c, hc, rfl⟩ := hlaw.resolve_left hz
      obtain ⟨b, hb, hptr, _⟩ := hs.owned.block c hc
      have hconf := hconf.resolve_left hz
      rw [hs.liveBlocks_eq, hptr, hs.usedBlock_eq hb] at hconf
      have hkeeps := kfree_keeps hs.ok hb hconf (hptr ▸ hres)
      refine hs.keeps_payload hkeeps ha (fun d hd hd' => ⟨hd, fun he => hne ?_⟩) hle hlt
      obtain rfl : d = b := he
      exact hd'.trans hptr.symm
  | write addr value =>
    obtain rfl := Option.some_inj.1 hstep
    refine ⟨ha, fun x _ _ hx => Function.update_of_ne ?_ _ _⟩
    rintro rfl
    exact hx value rfl

/-- The last value that the operations write to an address. -/
def lastWrite (x : ℕ) : List HeapOp → Option UInt8
  | [] => none
  | .write addr value :: ops => (lastWrite x ops).or (if addr = x then some value else none)
  | _ :: ops => lastWrite x ops

/-- A step changes a byte of an allocation to what it writes there. -/
theorem heapStep_lastWrite {op : HeapOp} (hinv : HeapInv s) (hlaw : Lawful s op)
    (hg : Granted s op) (hconf : StaysConfined s op) (hstep : heapStep s op = some s') {a : Alloc}
    (ha : a ∈ s.live) (hfree : op ≠ .kfree a.ptr) {x : ℕ} (hle : a.ptr ≤ x)
    (hlt : x < a.ptr + a.bytes) (ops : List HeapOp) :
    (lastWrite x ops).getD (s'.heap.mem x) = (lastWrite x (op :: ops)).getD (s.heap.mem x) := by
  have hkeep := (heapStep_keeps hinv hlaw hg hconf hstep ha hfree).2 x hle hlt
  cases op with
  | kmalloc bytes palloc =>
    rw [hkeep fun value he => HeapOp.noConfusion he]
    rfl
  | kfree ptr =>
    rw [hkeep fun value he => HeapOp.noConfusion he]
    rfl
  | write addr value =>
    obtain rfl := Option.some_inj.1 hstep
    rw [lastWrite]
    cases lastWrite x ops with
    | some later => rfl
    | none =>
      by_cases haddr : addr = x
      · subst haddr
        simp
      · simp [haddr, Function.update_of_ne (Ne.symm haddr)]

end Steps

/-- On the first page small requests meet the conditions of a step. -/
theorem PageInv.confines {page : ℕ} {s : HeapState} (hinv : PageInv page s) {op : HeapOp}
    (hlaw : Lawful s op) (hsmall : Small op) :
    (Lawful s op ∧ Granted s op) ∧ StaysConfined s op := by
  obtain ⟨⟨free, live, hs⟩, ho⟩ := hinv
  cases op with
  | kmalloc bytes palloc =>
    have hbytes : bytes ≤ 2 ^ 21 - 16 := hsmall
    rw [Granted, StaysConfined, metaSize_eq, Nat.mod_eq_of_lt (by omega)]
    refine ⟨⟨hlaw, GrantOk.of_le palloc hs.ok.repr ?_⟩, Or.inl (by omega)⟩
    rw [hs.ok.repr.size_eq, ho.highest]
    omega
  | kfree ptr =>
    refine ⟨⟨hlaw, trivial⟩, ?_⟩
    by_cases hz : ptr = 0
    · exact Or.inl hz
    · obtain ⟨a, ha, rfl⟩ := hlaw.resolve_left hz
      obtain ⟨b, hb, hptr, _⟩ := hs.owned.block a ha
      refine Or.inr ?_
      rw [hs.liveBlocks_eq, hptr, hs.usedBlock_eq hb]
      exact ho.confined hs hb
  | write addr value => exact ⟨⟨hlaw, trivial⟩, trivial⟩

/-! ### Buffers -/

section Buffers
variable {page bytes p : ℕ} {s : HeapState} {free live : Set Window} {palloc : ℕ → ℕ} {h : Heap}
  {m : Mem}

/-- The heap `h` has the free blocks and the allocations of `s` with their contents. -/
structure Restored (page : ℕ) (s : HeapState) (h : Heap) : Prop where
  inv : PageInv page ⟨h, s.live⟩
  free : ∀ w, w ∈ pageFree h.mem page ↔ w ∈ pageFree s.heap.mem page
  kept : ∀ a ∈ s.live, ∀ x, a.ptr ≤ x → x < a.ptr + a.bytes → h.mem x = s.heap.mem x

theorem Restored.refl (hinv : PageInv page s) : Restored page s s.heap :=
  ⟨hinv, fun _ => Iff.rfl, fun _ _ _ _ _ => rfl⟩

/-- Any bytes may be written to a payload. -/
theorem Holds.fill (hs : Holds s free live) {a : Alloc} (ha : a ∈ s.live)
    (hm : ∀ x, ¬(a.ptr ≤ x ∧ x < a.ptr + a.bytes) → m x = s.heap.mem x) :
    Holds { s with heap := { s.heap with mem := m } } free live := by
  -- one byte after the other
  have hfilled : ∀ k ≤ a.bytes, Holds { s with heap := { s.heap with
      mem := fun x => if a.ptr ≤ x ∧ x < a.ptr + k then m x else s.heap.mem x } } free live := by
    intro k hk
    induction k with
    | zero =>
      have hnone : (fun x => if a.ptr ≤ x ∧ x < a.ptr + 0 then m x else s.heap.mem x) =
          s.heap.mem := by
        funext x
        exact if_neg (by omega)
      rw [hnone]
      exact hs
    | succ k ih =>
      have hnext := @Holds.write _ _ _ (ih (by omega)) (a.ptr + k) (m (a.ptr + k))
        (Or.inl ⟨a, ha, Nat.le_add_right _ _, Nat.add_lt_add_left hk _⟩)
      have hstep : Function.update
          (fun x => if a.ptr ≤ x ∧ x < a.ptr + k then m x else s.heap.mem x) (a.ptr + k)
          (m (a.ptr + k)) =
          fun x => if a.ptr ≤ x ∧ x < a.ptr + (k + 1) then m x else s.heap.mem x := by
        funext x
        by_cases hx : x = a.ptr + k
        · subst hx
          rw [Function.update_self, if_pos (by omega)]
        · rw [Function.update_of_ne hx]
          by_cases hin : a.ptr ≤ x ∧ x < a.ptr + k
          · rw [if_pos hin, if_pos (by omega)]
          · rw [if_neg hin, if_neg (by omega)]
      rw [← hstep]
      exact hnext
  have hall : (fun x => if a.ptr ≤ x ∧ x < a.ptr + a.bytes then m x else s.heap.mem x) = m := by
    funext x
    by_cases hx : a.ptr ≤ x ∧ x < a.ptr + a.bytes
    · exact if_pos hx
    · exact (if_neg hx).trans (hm x hx).symm
  rw [← hall]
  exact hfilled a.bytes le_rfl

/-- Nobody else holds the pointer of a new block. -/
theorem Owned.ptr_ne {allocs : List Alloc} (ho : Owned allocs live) {b : Window}
    (hinj : ∀ c ∈ live, c.addr ≠ b.addr) {a : Alloc} (ha : a ∈ allocs) : a.ptr ≠ b.addr + 16 := by
  obtain ⟨c, hc, hptr, _⟩ := ho.block a ha
  intro he
  exact hinj c hc (by omega)

/-- **A buffer leaves no trace.** When only the payload of a new allocation is
written before it is freed, the free blocks, the other allocations and their
contents are afterwards what they were before. -/
theorem PageInv.returned (hinv : PageInv page s) (hsmall : bytes ≤ 2 ^ 21 - 16)
    (hres : kmalloc palloc bytes s.heap = some (p, h)) (hp : p ≠ 0)
    (hm : ∀ x, ¬(p ≤ x ∧ x < p + bytes) → m x = h.mem x) :
    ∃ f, kfree p { h with mem := m } = some f ∧ Restored page s f.heap := by
  have hlaw : Lawful s (.kmalloc bytes palloc) := lt_of_le_of_lt hsmall (by decide)
  obtain ⟨⟨-, hg⟩, hconf⟩ := hinv.confines hlaw hsmall
  rw [StaysConfined, metaSize_eq] at hconf
  rw [Granted, metaSize_eq, Nat.mod_eq_of_lt (by omega)] at hg
  obtain ⟨⟨free, live, hs⟩, ho⟩ := hinv
  have htook := kmalloc_keeps hs.ok hg hconf hres
  obtain ⟨res, heq, hserved, hruns, hlevel⟩ := ho.kmalloc hs hsmall palloc
  obtain rfl := Option.some_inj.1 (heq.symm.trans hres)
  obtain ⟨_, _, hz⟩ | ⟨b, free', hptr, hfresh, hs'⟩ := hs.served hserved
  · exact absurd hz hp
  rw [if_neg hp] at hs'
  obtain rfl : p = b.addr + 16 := hptr
  have hb : b ∈ insert b live := Or.inl rfl
  have hlive : insert b live \ {b} = live := Set.insert_sdiff_self_of_notMem hfresh
  -- the buffer is filled
  have hfill := hs'.fill List.mem_cons_self hm
  have hoFill : OnPage page ⟨{ h with mem := m }, ⟨b.addr + 16, bytes⟩ :: s.live⟩ :=
    ⟨hruns.trans ho.runs, hlevel.trans ho.highest⟩
  have hkept : KeepsPayloads live h.mem m := by
    intro c hc x hx hle
    apply hm
    rintro ⟨hlow, hhigh⟩
    obtain ⟨d, hd, hdptr, hstop⟩ := hs'.payload List.mem_cons_self
    have hbd : b.addr = d.addr := by
      have hdptr' : b.addr + 16 = d.addr + 16 := hdptr
      omega
    obtain rfl := hs'.addr_inj hb hd hbd
    have hxb : x ∈ b := ⟨by omega, hhigh.trans_le hstop⟩
    exact hfresh (hs'.ok.repr.tiling.apart c (Or.inr (Or.inr hc)) b (Or.inr hb) x hx hxb ▸ hc)
  -- and given back
  have hconfined := hoFill.confined hfill hb
  obtain ⟨f, s', hf, hok, _, hheap, hlive', free'', hs''⟩ := hfill.freed hb hconfined
  have hgave := kfree_keeps hfill.ok hb hconfined hf
  rw [hlive] at hgave hs''
  have hallocs : s'.live = s.live := by
    rw [hlive', List.filter_cons_of_neg (by simp)]
    refine List.filter_eq_self.2 fun a ha => decide_eq_true ?_
    refine hs.owned.ptr_ne (fun c hc he => hfresh ?_) ha
    exact hs'.addr_inj (Or.inr hc) hb he ▸ hc
  obtain ⟨heap, allocs⟩ := s'
  obtain rfl : heap = f.heap := hheap
  obtain rfl : allocs = s.live := hallocs
  have ho'' : OnPage page ⟨f.heap, s.live⟩ :=
    ⟨hok.runs.trans hoFill.runs, hok.highest.trans hoFill.highest⟩
  refine ⟨f, hf, ⟨⟨free'', live, hs''⟩, ho''⟩, fun w => ?_, fun a ha x hle hlt => ?_⟩
  · rw [ho''.mem_pageFree hs'', ho.mem_pageFree hs, hs''.ok.free_iff, hs.ok.free_iff, ho''.roots_eq,
      ho.roots_eq]
  · exact hs.keeps_payload ((htook.trans hkept).trans hgave) ha (fun c hc _ => hc) hle hlt

end Buffers

/-- **Payloads are kept.** In every run whose requests are within `2 ^ 31` bytes
or refused and whose frees are confined, an allocation that is not freed stays
allocated, and each of its bytes is what was last written to it, or else what
was there before: whatever else is allocated, split, freed and merged. -/
theorem payloads_of_run {page : ℕ} (hp : PageOk page) (mem : Mem) {before ops : List HeapOp}
    (hops : Along heapStep (fun s op => (Lawful s op ∧ Granted s op) ∧ StaysConfined s op)
      (HeapState.start mem page) (before ++ ops)) :
    ∃ s s', exec heapStep (HeapState.start mem page) before = some s ∧
      exec heapStep s ops = some s' ∧ ∀ a ∈ s.live, HeapOp.kfree a.ptr ∉ ops →
        a ∈ s'.live ∧ ∀ x, a.ptr ≤ x → x < a.ptr + a.bytes →
          s'.heap.mem x = (lastWrite x ops).getD (s.heap.mem x) := by
  have hstart : HeapInv (HeapState.start mem page) := ⟨_, _, (start_holds mem hp).1⟩
  have hstep : ∀ s op, HeapInv s → (Lawful s op ∧ Granted s op) ∧ StaysConfined s op →
      ∃ s', heapStep s op = some s' ∧ HeapInv s' := fun s op hinv h =>
    heapStep_inv hinv h.1.1 h.1.2 h.2
  obtain ⟨s, hexec, hinv⟩ := hops.of_append.exec_invariant hstep hstart
  have hrest := hops.suffix hexec
  obtain ⟨s', hexec', -⟩ := hrest.exec_invariant hstep hinv
  refine ⟨s, s', hexec, hexec', fun a ha hfree => ?_⟩
  clear hexec hops
  induction ops generalizing s with
  | nil =>
    obtain rfl := Option.some_inj.1 hexec'
    exact ⟨ha, fun x _ _ => rfl⟩
  | cons op ops ih =>
    obtain ⟨hop, hfree⟩ := not_or.1 (mt List.mem_cons.2 hfree)
    obtain ⟨s₁, hs₁, hinv₁⟩ := hstep s op hinv hrest.1
    obtain ⟨⟨hlaw, hg⟩, hconf⟩ := hrest.1
    have hkeeps := heapStep_keeps hinv hlaw hg hconf hs₁ ha (Ne.symm hop)
    rw [exec_cons hs₁] at hexec'
    obtain ⟨hlive, hbytes⟩ := ih s₁ hinv₁ (hrest.2 s₁ hs₁) hexec' hkeeps.1 hfree
    refine ⟨hlive, fun x hle hlt => ?_⟩
    rw [hbytes x hle hlt]
    exact heapStep_lastWrite hinv hlaw hg hconf hs₁ ha (Ne.symm hop) hle hlt ops

/-- The second of two allocations is written, and the first is freed. -/
theorem payloads_of_run_at_0x200000 :
    let before := [.kmalloc 100 fun _ => 0, .kmalloc 5000 fun _ => 0]
    let ops := [.write 0x3FC010 7, .kfree 0x3FFF90, .kmalloc 64 fun _ => 0]
    ∃ s s', exec heapStep (HeapState.start (fun _ => 0) 0x200000) before = some s ∧
      exec heapStep s ops = some s' ∧ ∀ a ∈ s.live, HeapOp.kfree a.ptr ∉ ops →
        a ∈ s'.live ∧ ∀ x, a.ptr ≤ x → x < a.ptr + a.bytes →
          s'.heap.mem x = (lastWrite x ops).getD (s.heap.mem x) := by
  have hp : PageOk 0x200000 := ⟨by decide, by decide, by decide⟩
  obtain ⟨hs, ho⟩ := start_holds (fun _ => 0) hp
  refine payloads_of_run hp _ ?_
  refine smallCalls_small.of_invariant ?_ (fun s op hinv h => PageInv.confines hinv h.1 h.2)
    (show PageInv 0x200000 _ from ⟨⟨_, _, hs⟩, ho⟩)
  intro s op s' hinv h hstep
  obtain ⟨s₁, hs₁, hinv₁⟩ := smallStep_inv hinv h.1 h.2
  exact Option.some_inj.1 (hs₁.symm.trans hstep) ▸ hinv₁

end Ssos
