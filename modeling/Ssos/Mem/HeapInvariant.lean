import Ssos.Mem.Heap
import Ssos.Foundations.Coalescing

/-!
# The heap representation

`Repr h free used` ties the raw heap to two sets of windows: the page runs are
tiled by the free and the used blocks, and the free blocks are exactly what
the headers and the free lists describe. Nothing is said about the bytes of
used blocks, so writes there preserve it (`Repr.frame`). The elementary edits
of the heap (popping a list head, pushing a block, unlinking a buddy) move one
window between the two sets.
-/

namespace Ssos

open ByteMemory Buddy Window PointerList

/-! ### Header fields -/

theorem metaSize_eq : metaSize = 16 := by decide

section Header
variable {m : Mem} {a b v : ℕ}

/-- Aligned headers coincide or do not overlap. -/
theorem header_apart (ha : 16 ∣ a) (hb : 16 ∣ b) : a = b ∨ a + 16 ≤ b ∨ b + 16 ≤ a := by
  omega

theorem blockNext_setNext (ha : 16 ∣ a) (hb : 16 ∣ b) (hv : v < 2 ^ 64) :
    blockNext (setNext m a v) b = Function.update (blockNext m) a v b := by
  by_cases hab : b = a
  · subst hab
    rw [Function.update_self]
    exact loadLE_storeLE_of_lt m b hv
  · rw [Function.update_of_ne hab]
    have := header_apart ha hb
    exact loadLE_storeLE_of_disjoint (by omega)

theorem blockNext_lt (m : Mem) (a : ℕ) : blockNext m a < 2 ^ 64 := loadLE_lt 8 m a

theorem blockLevel_setNext (ha : 16 ∣ a) (hb : 16 ∣ b) :
    blockLevel (setNext m a v) b = blockLevel m b := by
  have := header_apart ha hb
  rw [blockLevel, setNext, storeLE_apply_of_outside (by omega), blockLevel]

theorem blockIsFree_setNext (ha : 16 ∣ a) (hb : 16 ∣ b) :
    blockIsFree (setNext m a v) b = blockIsFree m b := by
  have := header_apart ha hb
  rw [blockIsFree, setNext, storeLE_apply_of_outside (by omega), blockIsFree]

theorem blockLevel_setLevel_self (hv : v < 256) : blockLevel (setLevel m a v) a = v := by
  rw [blockLevel, setLevel, Function.update_self]
  simp [Nat.mod_eq_of_lt hv]

theorem blockLevel_setIsFree_self {f : Bool} :
    blockLevel (setIsFree m a f) a = blockLevel m a := by
  rw [blockLevel, setIsFree, Function.update_of_ne (by omega), blockLevel]

theorem blockIsFree_setIsFree_self {f : Bool} : blockIsFree (setIsFree m a f) a = f := by
  rw [blockIsFree, setIsFree, Function.update_self]
  cases f <;> rfl

theorem blockIsFree_setLevel_self : blockIsFree (setLevel m a v) a = blockIsFree m a := by
  rw [blockIsFree, setLevel, Function.update_of_ne (by omega), blockIsFree]

end Header

/-- Memories that agree on the 16 header bytes have the same header. -/
theorem header_congr {m m' : Mem} {a : ℕ} (h : ∀ x, a ≤ x → x < a + 16 → m' x = m x) :
    blockNext m' a = blockNext m a ∧ blockLevel m' a = blockLevel m a ∧
      blockIsFree m' a = blockIsFree m a := by
  refine ⟨loadLE_congr fun x hx hlt => h x hx (by omega), ?_, ?_⟩
  · rw [blockLevel, blockLevel, h _ (by omega) (by omega)]
  · rw [blockIsFree, blockIsFree, h _ (by omega) (by omega)]

/-! ### The representation -/

/-- The page runs obtained so far, as roots of buddy trees. -/
def Heap.roots (h : Heap) : Set Window := {r | r ∈ h.runs}

structure Repr (h : Heap) (free used : Set Window) : Prop where
  level_ge : 18 ≤ h.highestLevel
  level_lt : h.highestLevel < 34
  size_eq : h.highestBlockSize = 2 ^ (h.highestLevel + 3)
  roots_apart : Apart h.roots
  root_pos : ∀ r ∈ h.roots, 0 < r.addr
  root_aligned : ∀ r ∈ h.roots, 2 ^ 21 ∣ r.addr
  root_stop : ∀ r ∈ h.roots, r.stop ≤ 2 ^ 64
  root_order : ∀ r ∈ h.roots, 21 ≤ r.order ∧ r.order ≤ h.highestLevel + 3
  tiling : Tiling h.roots (free ∪ used)
  disjoint : Disjoint free used
  order_ge : ∀ b ∈ free ∪ used, 5 ≤ b.order
  level : ∀ b ∈ free, blockLevel h.mem b.addr + 3 = b.order
  isFree : ∀ b ∈ free, blockIsFree h.mem b.addr = true
  lists : ∀ L, ∃ xs, Linked (blockNext h.mem) (h.memBlocks L) xs ∧ xs.Nodup ∧
    ∀ a, a ∈ xs ↔ (⟨a, L + 3⟩ : Window) ∈ free

/-- The headers of the blocks in `live` carry their level and are marked used. -/
def Marked (m : Mem) (live : Set Window) : Prop :=
  ∀ b ∈ live, blockLevel m b.addr + 3 = b.order ∧ blockIsFree m b.addr = false

section Facts
variable {h : Heap} {free used : Set Window}

theorem Repr.order_le (hr : Repr h free used) {b : Window} (hb : b ∈ free ∪ used) :
    b.order ≤ h.highestLevel + 3 := by
  obtain ⟨r, hroot, hs⟩ := hr.tiling.within b hb
  exact hs.order_le.trans (hr.root_order r hroot).2

/-- A block of at least 32 bytes below a page-aligned root is 32-aligned. -/
theorem Repr.aligned (hr : Repr h free used) {b : Window} (hb : b ∈ free ∪ used) :
    32 ∣ b.addr := by
  obtain ⟨r, hroot, _, i, _, he⟩ := hr.tiling.within b hb
  have hroot32 : 32 ∣ r.addr :=
    Dvd.dvd.trans (Nat.pow_dvd_pow 2 (by omega : 5 ≤ 21)) (hr.root_aligned r hroot)
  have hsize : 2 ^ 5 ∣ 2 ^ b.order := Nat.pow_dvd_pow 2 (hr.order_ge b hb)
  rw [he]
  exact Nat.dvd_add hroot32 (Dvd.dvd.mul_left hsize i)

theorem Repr.aligned16 (hr : Repr h free used) {b : Window} (hb : b ∈ free ∪ used) :
    16 ∣ b.addr := Dvd.dvd.trans (by decide) (hr.aligned hb)

theorem Repr.addr_pos (hr : Repr h free used) {b : Window} (hb : b ∈ free ∪ used) :
    0 < b.addr := by
  obtain ⟨r, hroot, hs⟩ := hr.tiling.within b hb
  exact (hr.root_pos r hroot).trans_le hs.addr_le

theorem Repr.stop_le (hr : Repr h free used) {b : Window} (hb : b ∈ free ∪ used) :
    b.stop ≤ 2 ^ 64 := by
  obtain ⟨r, hroot, hs⟩ := hr.tiling.within b hb
  exact hs.stop_le.trans (hr.root_stop r hroot)

theorem Repr.addr_lt (hr : Repr h free used) {b : Window} (hb : b ∈ free ∪ used) :
    b.addr < 2 ^ 64 := b.addr_mem.2.trans_le (hr.stop_le hb)

/-- The header of a block lies inside it. -/
theorem Repr.header_mem (hr : Repr h free used) {b : Window} (hb : b ∈ free ∪ used) {x : ℕ}
    (hx : b.addr ≤ x) (hlt : x < b.addr + 16) : x ∈ b := by
  have hsize : 2 ^ 5 ≤ 2 ^ b.order := Nat.pow_le_pow_right (by omega) (hr.order_ge b hb)
  exact ⟨hx, by simp only [Window.stop]; omega⟩

theorem Repr.free_notMem_used (hr : Repr h free used) {b c : Window} (hb : b ∈ free)
    (hc : c ∈ used) {x : ℕ} (hx : x ∈ b) : x ∉ c := fun hxc =>
  Set.disjoint_left.1 hr.disjoint hb (hr.tiling.apart b (Or.inl hb) c (Or.inr hc) x hx hxc ▸ hc)

/-- Addresses of free blocks determine their level. -/
theorem Repr.free_inj (hr : Repr h free used) {b c : Window} (hb : b ∈ free) (hc : c ∈ free)
    (he : b.addr = c.addr) : b = c :=
  hr.tiling.apart.eq_of_addr (Or.inl hb) (Or.inl hc) he

/-- Lists change only with their heads, the links of their nodes, and `free`. -/
theorem Repr.lists_congr (hr : Repr h free used) {m : Mem} (L : ℕ)
    (hm : ∀ b ∈ free, blockNext m b.addr = blockNext h.mem b.addr) :
    ∃ xs, Linked (blockNext m) (h.memBlocks L) xs ∧ xs.Nodup ∧
      ∀ a, a ∈ xs ↔ (⟨a, L + 3⟩ : Window) ∈ free := by
  obtain ⟨xs, hl, hnd, hmem⟩ := hr.lists L
  exact ⟨xs, hl.congr fun a ha => hm ⟨a, L + 3⟩ ((hmem a).1 ha), hnd, hmem⟩

/-- **Frame.** Writes that spare the free blocks do not disturb the representation. -/
theorem Repr.frame (hr : Repr h free used) {m : Mem}
    (hm : ∀ b ∈ free, ∀ x, x ∈ b → m x = h.mem x) : Repr { h with mem := m } free used := by
  have hhdr : ∀ b ∈ free, blockNext m b.addr = blockNext h.mem b.addr ∧
      blockLevel m b.addr = blockLevel h.mem b.addr ∧
      blockIsFree m b.addr = blockIsFree h.mem b.addr := fun b hb =>
    header_congr fun x hx hlt => hm b hb x (hr.header_mem (Or.inl hb) hx hlt)
  exact { hr with
    level := fun b hb => by rw [(hhdr b hb).2.1]; exact hr.level b hb
    isFree := fun b hb => by rw [(hhdr b hb).2.2]; exact hr.isFree b hb
    lists := fun L => hr.lists_congr L fun b hb => (hhdr b hb).1 }

/-- Marks of live blocks survive writes that spare their headers. -/
theorem Marked.frame {m m' : Mem} {live : Set Window} (hmk : Marked m live)
    (h : ∀ b ∈ live, ∀ x, b.addr ≤ x → x < b.addr + 16 → m' x = m x) : Marked m' live := by
  intro b hb
  obtain ⟨_, hlevel, hfree⟩ := header_congr (h b hb)
  rw [hlevel, hfree]
  exact hmk b hb

end Facts

/-! ### Edits -/

section Edits
variable {h : Heap} {free used : Set Window}

/-- Moving a window between the two sets leaves the set of tiles alone. -/
theorem union_move {c : Window} (hc : c ∈ free) :
    (free \ {c}) ∪ insert c used = free ∪ used := by
  ext b
  by_cases hb : b = c <;> simp [hb, hc]

theorem disjoint_move {c : Window} (hd : Disjoint free used) :
    Disjoint (free \ {c}) (insert c used) := by
  rw [Set.disjoint_left] at hd ⊢
  intro b hb hb'
  obtain rfl | hb' := hb'
  · exact hb.2 rfl
  · exact hd hb.1 hb'

/-- A non-empty list starts with a free block of its level. -/
theorem Repr.head_mem (hr : Repr h free used) {L : ℕ} (hne : h.memBlocks L ≠ 0) :
    (⟨h.memBlocks L, L + 3⟩ : Window) ∈ free := by
  obtain ⟨xs, hl, _, hmem⟩ := hr.lists L
  obtain ⟨ys, rfl, _⟩ := hl.exists_cons hne
  exact (hmem _).1 List.mem_cons_self

/-- An empty list: no free block has its level. -/
theorem Repr.notMem_of_head_eq_zero (hr : Repr h free used) {L : ℕ} (hz : h.memBlocks L = 0)
    {b : Window} (hb : b ∈ free) : b.order ≠ L + 3 := by
  intro hL
  obtain ⟨xs, hl, _, hmem⟩ := hr.lists L
  rw [hz] at hl
  have hbL : (⟨b.addr, L + 3⟩ : Window) = b := Window.ext rfl hL.symm
  have hmem' : b.addr ∈ xs := (hmem _).2 (hbL ▸ hb)
  rw [hl.eq_nil] at hmem'
  exact absurd hmem' List.not_mem_nil

/-- The lists above the highest level are empty. -/
theorem Repr.head_eq_zero_of_lt (hr : Repr h free used) {L : ℕ} (hlt : h.highestLevel < L) :
    h.memBlocks L = 0 := by
  by_contra hne
  have hle := hr.order_le (Or.inl (hr.head_mem hne))
  simp only at hle
  omega

/-- Replacing one list, and the free set by the nodes it now holds. -/
theorem Repr.relist (hr : Repr h free used) {c : Window} (hc : c ∈ free) {m : Mem} {p : ℕ}
    {L : ℕ} (hL : c.order = L + 3) {ys : List ℕ}
    (hnext : ∀ b ∈ free, b.order ≠ c.order → blockNext m b.addr = blockNext h.mem b.addr)
    (hlevel : ∀ b ∈ free, blockLevel m b.addr = blockLevel h.mem b.addr)
    (hisFree : ∀ b ∈ free, blockIsFree m b.addr = blockIsFree h.mem b.addr)
    (hl : Linked (blockNext m) p ys) (hnd : ys.Nodup)
    (hmem : ∀ a, a ∈ ys ↔ (⟨a, L + 3⟩ : Window) ∈ free ∧ a ≠ c.addr) :
    Repr { h.setHead L p with mem := m } (free \ {c}) (insert c used) := by
  refine
    { level_ge := hr.level_ge, level_lt := hr.level_lt, size_eq := hr.size_eq
      roots_apart := hr.roots_apart, root_pos := hr.root_pos, root_aligned := hr.root_aligned
      root_stop := hr.root_stop, root_order := hr.root_order
      tiling := (union_move hc).symm ▸ hr.tiling
      disjoint := disjoint_move hr.disjoint
      order_ge := fun b hb => hr.order_ge b (union_move hc ▸ hb)
      level := fun b hb => (congrArg (· + 3) (hlevel b hb.1)).trans (hr.level b hb.1)
      isFree := fun b hb => (hisFree b hb.1).trans (hr.isFree b hb.1)
      lists := ?_ }
  intro K
  by_cases hK : K = L
  · subst hK
    refine ⟨ys, by simpa [Heap.setHead] using hl, hnd, fun a => ?_⟩
    rw [hmem a, Set.mem_sdiff, Set.mem_singleton_iff, Window.ext_iff]
    simp [hL]
  · obtain ⟨xs, hxl, hxnd, hxmem⟩ := hr.lists K
    refine ⟨xs, ?_, hxnd, fun a => ?_⟩
    · have hhead : (h.setHead L p).memBlocks K = h.memBlocks K := by
        simp [Heap.setHead, Function.update_of_ne hK]
      simp only [hhead]
      refine hxl.congr fun a ha => hnext ⟨a, K + 3⟩ ((hxmem a).1 ha) ?_
      show K + 3 ≠ c.order
      omega
    · rw [hxmem a, Set.mem_sdiff, Set.mem_singleton_iff, Window.ext_iff]
      have : K + 3 ≠ c.order := by omega
      simp [this]

/-- A used block is replaced by its halves. -/
theorem Repr.split {w : Window} (hr : Repr h free (insert w used)) (hw : w ∉ used)
    (hsize : 6 ≤ w.order) : Repr h free (insert w.lo (insert w.hi used)) := by
  have hpos : 0 < w.order := by omega
  have hwmem : w ∈ free ∪ insert w used := Or.inr (Or.inl rfl)
  have hwfree : w ∉ free := fun hf => Set.disjoint_left.1 hr.disjoint hf (Or.inl rfl)
  have ht : Tiling h.roots (insert w.lo (insert w.hi (free ∪ used))) := by
    refine Tiling.split ?_ (not_or.2 ⟨hwfree, hw⟩) hpos
    rw [← Set.union_insert]
    exact hr.tiling
  exact { hr with
    tiling := by
      rw [Set.union_insert, Set.union_insert]
      exact ht
    disjoint := by
      rw [Set.disjoint_left]
      intro b hb hb'
      have hbw : ∀ x, x ∈ w → x ∉ b := fun x hx hxb =>
        hwfree (hr.tiling.apart b (Or.inl hb) w hwmem x hxb hx ▸ hb)
      obtain rfl | rfl | hb' := hb'
      · exact hbw _ ((mem_iff_halves hpos).2 (Or.inl w.lo.addr_mem)) w.lo.addr_mem
      · exact hbw _ ((mem_iff_halves hpos).2 (Or.inr w.hi.addr_mem)) w.hi.addr_mem
      · exact Set.disjoint_left.1 hr.disjoint hb (Or.inr hb')
    order_ge := by
      rintro b (hb | rfl | rfl | hb)
      · exact hr.order_ge b (Or.inl hb)
      · show 5 ≤ w.order - 1
        omega
      · show 5 ≤ w.order - 1
        omega
      · exact hr.order_ge b (Or.inr (Or.inr hb)) }

/-- Two used blocks that are the halves of `w` are replaced by `w`. -/
theorem Repr.merge {r w c d : Window} (hr : Repr h free (insert d (insert c used)))
    (hc : c ∉ used) (hd : d ∉ used) (hroot : r ∈ h.roots) (hw : Sub w r) (hpos : 0 < w.order)
    (hhalf : Halves w c d) : Repr h free (insert w used) := by
  have hcmem : c ∈ free ∪ insert d (insert c used) := Or.inr (Or.inr (Or.inl rfl))
  have hcfree : c ∉ free := fun hf => Set.disjoint_left.1 hr.disjoint hf (Or.inr (Or.inl rfl))
  have hdfree : d ∉ free := fun hf => Set.disjoint_left.1 hr.disjoint hf (Or.inl rfl)
  have hcB : c ∉ free ∪ used := not_or.2 ⟨hcfree, hc⟩
  have hdB : d ∉ free ∪ used := not_or.2 ⟨hdfree, hd⟩
  have hset : free ∪ insert d (insert c used) = insert w.lo (insert w.hi (free ∪ used)) := by
    obtain ⟨rfl, rfl⟩ | ⟨rfl, rfl⟩ := hhalf
    · rw [Set.union_insert, Set.union_insert, Set.insert_comm]
    · rw [Set.union_insert, Set.union_insert]
  have ht : Tiling h.roots (insert w (free ∪ used)) := by
    refine Tiling.merge (hset ▸ hr.tiling) ?_ ?_ hpos hroot hw
    · obtain ⟨rfl, _⟩ | ⟨_, rfl⟩ := hhalf
      · exact hcB
      · exact hdB
    · obtain ⟨_, rfl⟩ | ⟨rfl, _⟩ := hhalf
      · exact hdB
      · exact hcB
  exact { hr with
    tiling := by
      rw [Set.union_insert]
      exact ht
    disjoint := by
      rw [Set.disjoint_left]
      rintro b hb (rfl | hl)
      · have he := hr.tiling.apart b (Or.inl hb) c hcmem c.addr
          ((hhalf.mem_iff hpos).2 (Or.inl c.addr_mem)) c.addr_mem
        exact hcfree (he ▸ hb)
      · exact Set.disjoint_left.1 hr.disjoint hb (Or.inr (Or.inr hl))
    order_ge := by
      rintro b (hb | rfl | hl)
      · exact hr.order_ge b (Or.inl hb)
      · have hge := hr.order_ge c hcmem
        have hco := hhalf.order_eq
        omega
      · exact hr.order_ge b (Or.inr (Or.inr (Or.inr hl))) }

/-- Popping the head of list `L`: the block becomes used. -/
theorem Repr.pop (hr : Repr h free used) {L : ℕ} (hne : h.memBlocks L ≠ 0) :
    Repr (h.setHead L (blockNext h.mem (h.memBlocks L))) (free \ {⟨h.memBlocks L, L + 3⟩})
      (insert ⟨h.memBlocks L, L + 3⟩ used) := by
  obtain ⟨xs, hl, hnd, hmem⟩ := hr.lists L
  obtain ⟨ys, rfl, hys⟩ := hl.exists_cons hne
  rw [List.nodup_cons] at hnd
  refine hr.relist (hr.head_mem hne) rfl (fun _ _ _ => rfl) (fun _ _ => rfl) (fun _ _ => rfl)
    hys hnd.2 fun a => ?_
  rw [← hmem a, List.mem_cons]
  constructor
  · intro ha
    refine ⟨Or.inr ha, fun he => hnd.1 ?_⟩
    obtain rfl : a = h.memBlocks L := he
    exact ha
  · rintro ⟨he | ha, hne⟩
    · exact absurd he hne
    · exact ha

/-- The lists after the block `c` has been put in front of list `L`. -/
theorem Repr.pushLists {c : Window} (hr : Repr h free (insert c used)) {L : ℕ}
    (hL : c.order = L + 3) (K : ℕ) :
    ∃ xs, Linked (blockNext (setNext h.mem c.addr (h.memBlocks L)))
        ((h.setHead L c.addr).memBlocks K) xs ∧ xs.Nodup ∧
      ∀ a, a ∈ xs ↔ (⟨a, K + 3⟩ : Window) ∈ insert c free := by
  have hcu : c ∈ free ∪ insert c used := Or.inr (Or.inl rfl)
  have hcf : c ∉ free := fun hf => Set.disjoint_left.1 hr.disjoint hf (Or.inl rfl)
  have hhead_lt : h.memBlocks L < 2 ^ 64 := by
    by_cases hz : h.memBlocks L = 0
    · omega
    · exact hr.addr_lt (Or.inl (hr.head_mem hz))
  have hnext : ∀ b ∈ free ∪ insert c used,
      blockNext (setNext h.mem c.addr (h.memBlocks L)) b.addr =
        Function.update (blockNext h.mem) c.addr (h.memBlocks L) b.addr := fun b hb =>
    blockNext_setNext (hr.aligned16 hcu) (hr.aligned16 hb) hhead_lt
  obtain ⟨xs, hl, hnd, hmem⟩ := hr.lists K
  -- the written `next` field is on no list
  have hnotin : c.addr ∉ xs := fun ha => by
    have hfree := (hmem _).1 ha
    exact hcf (hr.tiling.apart.eq_of_addr (Or.inl hfree) hcu rfl ▸ hfree)
  have hl' : Linked (blockNext (setNext h.mem c.addr (h.memBlocks L))) (h.memBlocks K) xs :=
    (hl.update_of_notMem hnotin).congr fun a ha => hnext ⟨a, K + 3⟩ (Or.inl ((hmem a).1 ha))
  by_cases hK : K = L
  · subst hK
    refine ⟨c.addr :: xs, ⟨?_, (hr.addr_pos hcu).ne', ?_⟩, List.nodup_cons.2 ⟨hnotin, hnd⟩,
      fun a => ?_⟩
    · simp [Heap.setHead]
    · rw [hnext c hcu, Function.update_self]
      exact hl'
    · rw [List.mem_cons, hmem a, Set.mem_insert_iff, Window.ext_iff]
      simp [hL]
  · refine ⟨xs, by simpa [Heap.setHead, Function.update_of_ne hK] using hl', hnd, fun a => ?_⟩
    rw [hmem a, Set.mem_insert_iff, Window.ext_iff]
    have : K + 3 ≠ c.order := by omega
    simp [this]

/-- Pushing a used block whose header is marked free. -/
theorem Repr.push {c : Window} (hr : Repr h free (insert c used)) (hc : c ∉ used) {L : ℕ}
    (hL : c.order = L + 3) (hlevel : blockLevel h.mem c.addr = L)
    (hisFree : blockIsFree h.mem c.addr = true) :
    Repr { h.setHead L c.addr with mem := setNext h.mem c.addr (h.memBlocks L) }
      (insert c free) used := by
  have hcu : c ∈ free ∪ insert c used := Or.inr (Or.inl rfl)
  have h16 := hr.aligned16 hcu
  have hunion : insert c free ∪ used = free ∪ insert c used := by
    rw [Set.insert_union, Set.union_insert]
  refine
    { level_ge := hr.level_ge, level_lt := hr.level_lt, size_eq := hr.size_eq
      roots_apart := hr.roots_apart, root_pos := hr.root_pos, root_aligned := hr.root_aligned
      root_stop := hr.root_stop, root_order := hr.root_order
      tiling := hunion.symm ▸ hr.tiling
      disjoint := ?_
      order_ge := fun b hb => hr.order_ge b (hunion ▸ hb)
      level := ?_, isFree := ?_, lists := hr.pushLists hL }
  · rw [Set.disjoint_insert_left]
    exact ⟨hc, hr.disjoint.mono_right (Set.subset_insert c used)⟩
  · rw [Set.forall_mem_insert]
    refine ⟨?_, fun b hb => ?_⟩
    · rw [blockLevel_setNext h16 h16, hlevel, hL]
    · rw [blockLevel_setNext h16 (hr.aligned16 (Or.inl hb))]
      exact hr.level b hb
  · rw [Set.forall_mem_insert]
    refine ⟨?_, fun b hb => ?_⟩
    · rw [blockIsFree_setNext h16 h16, hisFree]
    · rw [blockIsFree_setNext h16 (hr.aligned16 (Or.inl hb))]
      exact hr.isFree b hb

/-- Unlinking a free block behind its predecessor `p`. -/
theorem Repr.unlinkNext (hr : Repr h free used) {t : Window} (ht : t ∈ free) {L : ℕ}
    (hL : t.order = L + 3) {p : ℕ} {ys zs : List ℕ}
    (hl : Linked (blockNext h.mem) (h.memBlocks L) (ys ++ p :: t.addr :: zs))
    (hnd : (ys ++ p :: t.addr :: zs).Nodup)
    (hmem : ∀ a, a ∈ ys ++ p :: t.addr :: zs ↔ (⟨a, L + 3⟩ : Window) ∈ free) :
    Repr { h with mem := setNext h.mem p (blockNext h.mem t.addr) } (free \ {t})
      (insert t used) := by
  have hpf : (⟨p, L + 3⟩ : Window) ∈ free := (hmem p).1 (by simp)
  have hp16 : 16 ∣ p := hr.aligned16 (Or.inl hpf)
  have hnext : ∀ b ∈ free, blockNext (setNext h.mem p (blockNext h.mem t.addr)) b.addr =
      Function.update (blockNext h.mem) p (blockNext h.mem t.addr) b.addr := fun b hb =>
    blockNext_setNext hp16 (hr.aligned16 (Or.inl hb)) (blockNext_lt _ _)
  have hlink : Linked (blockNext (setNext h.mem p (blockNext h.mem t.addr))) (h.memBlocks L)
      ((ys ++ p :: t.addr :: zs).erase t.addr) := by
    have hunlinked := hl.unlink hnd
    rw [← erase_successor hnd] at hunlinked
    exact hunlinked.congr fun a ha => hnext ⟨a, L + 3⟩ ((hmem a).1 (List.mem_of_mem_erase ha))
  have hset : h = h.setHead L (h.memBlocks L) := by
    simp [Heap.setHead]
  have hresult := hr.relist ht hL ?_ ?_ ?_ hlink (hnd.erase t.addr) fun a => ?_
  · rw [← hset] at hresult
    exact hresult
  · intro b hb hne
    rw [hnext b hb, Function.update_of_ne]
    intro he
    have hbp := hr.free_inj hb hpf he
    rw [hbp] at hne
    exact hne hL.symm
  · exact fun b hb => blockLevel_setNext hp16 (hr.aligned16 (Or.inl hb))
  · exact fun b hb => blockIsFree_setNext hp16 (hr.aligned16 (Or.inl hb))
  · rw [← hmem a, hnd.mem_erase_iff, and_comm]

/-- Unlinking a free block from its list. -/
theorem Repr.unlink (hr : Repr h free used) {t : Window} (ht : t ∈ free) {L : ℕ}
    (hL : t.order = L + 3) :
    ∃ h', unlinkBuddy h L t.addr = some h' ∧ Repr h' (free \ {t}) (insert t used) ∧
      h'.runs = h.runs ∧ h'.highestLevel = h.highestLevel ∧
      ∀ x, (∀ b ∈ free \ {t}, x ∉ b) → h'.mem x = h.mem x := by
  obtain ⟨xs, hl, hnd, hmem⟩ := hr.lists L
  have htL : (⟨t.addr, L + 3⟩ : Window) = t := Window.ext rfl hL.symm
  have htx : t.addr ∈ xs := (hmem _).2 (htL ▸ ht)
  by_cases hhead : h.memBlocks L = t.addr
  · -- the first node: the list loses its head
    have hne : h.memBlocks L ≠ 0 := hhead ▸ (hr.addr_pos (Or.inl ht)).ne'
    refine ⟨h.setHead L (blockNext h.mem t.addr), ?_, ?_, rfl, rfl, fun _ _ => rfl⟩
    · rw [unlinkBuddy, if_pos hhead]
    · have hp := hr.pop hne
      rw [hhead, htL] at hp
      exact hp
  · -- a later node: its predecessor, a free block too, skips it
    have hlen : xs.length ≤ loopFuel :=
      length_le_of_lt hnd fun a ha => hr.addr_lt (Or.inl ((hmem a).1 ha))
    obtain ⟨p, ys, zs, rfl, hfind⟩ := hl.findPrev_spec htx hhead hlen
    have hpf : (⟨p, L + 3⟩ : Window) ∈ free := (hmem p).1 (by simp)
    have hpt : p ≠ t.addr := fun he => by
      rw [he, List.nodup_append] at hnd
      simp at hnd
    refine ⟨{ h with mem := setNext h.mem p (blockNext h.mem t.addr) }, ?_,
      hr.unlinkNext ht hL hl hnd hmem, rfl, rfl, fun x hx => ?_⟩
    · have hp0 : p ≠ 0 := (hr.addr_pos (Or.inl hpf)).ne'
      rw [unlinkBuddy, if_neg hhead, hfind]
      simp [hp0]
    · have hout := hx ⟨p, L + 3⟩ ⟨hpf, fun he => hpt (congrArg Window.addr he)⟩
      refine storeLE_apply_of_outside ?_
      by_contra hcon
      exact hout (hr.header_mem (Or.inl hpf) (by simp; omega) (by simp; omega))

end Edits

end Ssos
