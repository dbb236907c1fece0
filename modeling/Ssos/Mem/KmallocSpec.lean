import Ssos.Mem.HeapInvariant

/-!
# What `kmalloc` does to the representation

Specifications of the block operations of `kmalloc` and of its splitting loop:
a block of the target level leaves the free set, everything else stays tiled,
linked and coalesced.
-/

namespace Ssos

open ByteMemory Buddy Window PointerList

/-- The representation together with the headers of the live blocks and the
absence of free buddy pairs: what holds between two calls. -/
structure HeapOk (h : Heap) (free live : Set Window) : Prop where
  repr : Repr h free live
  marked : Marked h.mem live
  coalesced : Coalesced h.roots free

/-! ### Header writes -/

/-- `m'` differs from `m` at most in the 16 header bytes at `a`. -/
def HeaderWrite (m m' : Mem) (a : ℕ) : Prop := ∀ x, x < a ∨ a + 16 ≤ x → m' x = m x

theorem HeaderWrite.refl (m : Mem) (a : ℕ) : HeaderWrite m m a := fun _ _ => rfl

theorem HeaderWrite.setNext {m m' : Mem} {a : ℕ} (h : HeaderWrite m m' a) (v : ℕ) :
    HeaderWrite m (setNext m' a v) a := by
  intro x hx
  rw [Ssos.setNext, storeLE_apply_of_outside (by omega), h x hx]

theorem HeaderWrite.setLevel {m m' : Mem} {a : ℕ} (h : HeaderWrite m m' a) (v : ℕ) :
    HeaderWrite m (setLevel m' a v) a := by
  intro x hx
  rw [Ssos.setLevel, Function.update_of_ne (by omega), h x hx]

theorem HeaderWrite.setIsFree {m m' : Mem} {a : ℕ} (h : HeaderWrite m m' a) (b : Bool) :
    HeaderWrite m (setIsFree m' a b) a := by
  intro x hx
  rw [Ssos.setIsFree, Function.update_of_ne (by omega), h x hx]

section HeaderWrite
variable {h : Heap} {free used live : Set Window} {m : Mem} {c : Window}

/-- The representation survives a header write to a used block. -/
theorem Repr.headerWrite (hr : Repr h free used) (hc : c ∈ used)
    (hm : HeaderWrite h.mem m c.addr) : Repr { h with mem := m } free used := by
  refine hr.frame fun b hb x hx => hm x ?_
  by_contra hcon
  exact hr.free_notMem_used hb hc hx (hr.header_mem (Or.inr hc) (by omega) (by omega))

/-- Marks survive a header write to another block. -/
theorem Repr.marked_headerWrite (hr : Repr h free (insert c live)) (hc : c ∉ live)
    (hmk : Marked h.mem live) (hm : HeaderWrite h.mem m c.addr) : Marked m live := by
  refine hmk.frame fun b hb x hx hlt => hm x ?_
  by_contra hcon
  have hxb : x ∈ b := hr.header_mem (Or.inr (Or.inr hb)) hx hlt
  have hxc : x ∈ c := hr.header_mem (Or.inr (Or.inl rfl)) (by omega) (by omega)
  have he := hr.tiling.apart b (Or.inr (Or.inr hb)) c (Or.inr (Or.inl rfl)) x hxb hxc
  exact hc (he ▸ hb)

end HeaderWrite

/-! ### Taking and pushing blocks -/

section Blocks
variable {h : Heap} {free used live : Set Window} {b c : Window}

/-- An unlinked block becomes live. -/
theorem takeBlock_spec (hr : Repr h free (insert b live)) (hb : b ∉ live)
    (hlevel : blockLevel h.mem b.addr + 3 = b.order) (hmk : Marked h.mem live) :
    (takeBlock h b.addr).1 = b.addr + 16 ∧
      Repr (takeBlock h b.addr).2 free (insert b live) ∧
      Marked (takeBlock h b.addr).2.mem (insert b live) := by
  have h16 : 16 ∣ b.addr := hr.aligned16 (Or.inr (Or.inl rfl))
  have hw : HeaderWrite h.mem (takeBlock h b.addr).2.mem b.addr :=
    ((HeaderWrite.refl h.mem b.addr).setIsFree false).setNext 0
  refine ⟨by rw [takeBlock, metaSize_eq], hr.headerWrite (Or.inl rfl) hw, ?_⟩
  intro d hd
  obtain rfl | hd := hd
  · constructor
    · rw [takeBlock, blockLevel_setNext h16 h16, blockLevel_setIsFree_self]
      exact hlevel
    · rw [takeBlock, blockIsFree_setNext h16 h16, blockIsFree_setIsFree_self]
  · exact hr.marked_headerWrite hb hmk hw d hd

/-- A used block is given a level, marked free and pushed. -/
theorem pushHalf_spec (hr : Repr h free (insert c used)) (hc : c ∉ used) {L : ℕ}
    (hL : c.order = L + 3) : Repr (pushHalf h c.addr L) (insert c free) used := by
  have hLlt : L < 256 := by
    have hle := hr.order_le (Or.inr (Or.inl rfl) : c ∈ free ∪ insert c used)
    have hlt := hr.level_lt
    omega
  have hw : HeaderWrite h.mem (setIsFree (setLevel h.mem c.addr L) c.addr true) c.addr :=
    ((HeaderWrite.refl h.mem c.addr).setLevel L).setIsFree true
  have hr' := hr.headerWrite (Or.inl rfl) hw
  refine hr'.push hc hL ?_ ?_
  · show blockLevel (setIsFree (setLevel h.mem c.addr L) c.addr true) c.addr = L
    rw [blockLevel_setIsFree_self, blockLevel_setLevel_self hLlt]
  · exact blockIsFree_setIsFree_self

theorem pushHalf_mem (h : Heap) (a L : ℕ) : HeaderWrite h.mem (pushHalf h a L).mem a :=
  (((HeaderWrite.refl h.mem a).setLevel L).setIsFree true).setNext _

@[simp] theorem pushHalf_head (h : Heap) (a L : ℕ) : (pushHalf h a L).memBlocks L = a := by
  simp [pushHalf, Heap.setHead]

end Blocks

/-! ### The splitting loop -/

/-- A call took the block `b` out of the free set and made it live. -/
structure Took (h : Heap) (live : Set Window) (b : Window) (res : ℕ × Heap) : Prop where
  ptr : res.1 = b.addr + 16
  fresh : b ∉ live
  ok : ∃ free, HeapOk res.2 free (insert b live)
  runs : res.2.runs = h.runs
  level : res.2.highestLevel = h.highestLevel

theorem Took.of_eq {h h' : Heap} {live : Set Window} {b : Window} {res : ℕ × Heap}
    (ht : Took h' live b res) (hruns : h'.runs = h.runs)
    (hlevel : h'.highestLevel = h.highestLevel) : Took h live b res :=
  { ht with runs := ht.runs.trans hruns, level := ht.level.trans hlevel }

section Split
variable {h : Heap} {free live : Set Window}

/-- Popping a head of level `L` and handing it out. -/
theorem takeHead_spec (hr : Repr h free live) (hmk : Marked h.mem live) {L : ℕ}
    (hne : h.memBlocks L ≠ 0) (hc : Coalesced h.roots (free \ {⟨h.memBlocks L, L + 3⟩})) :
    Took h live ⟨h.memBlocks L, L + 3⟩
      (takeBlock (h.setHead L (blockNext h.mem (h.memBlocks L))) (h.memBlocks L)) := by
  have hmem := hr.head_mem hne
  have hfresh : (⟨h.memBlocks L, L + 3⟩ : Window) ∉ live :=
    Set.disjoint_left.1 hr.disjoint hmem
  obtain ⟨hptr, hrepr, hmarked⟩ := takeBlock_spec (hr.pop hne) hfresh (hr.level _ hmem) hmk
  exact ⟨hptr, hfresh, ⟨_, hrepr, hmarked, hc⟩, rfl, rfl⟩

/-- The state after splitting the head of level `L + 1` into two halves. -/
def splitHead (h : Heap) (L : ℕ) : Heap :=
  let w := h.memBlocks (L + 1)
  let h := h.setHead (L + 1) (blockNext h.mem w)
  pushHalf (pushHalf h w L) (w + 2 ^ (L + 3)) L

theorem splitHead_spec (hr : Repr h free live) (hmk : Marked h.mem live) {L : ℕ} (hL : 2 ≤ L)
    (hne : h.memBlocks (L + 1) ≠ 0)
    (hc : Coalesced h.roots (free \ {⟨h.memBlocks (L + 1), L + 4⟩})) :
    ∃ free₁, Repr (splitHead h L) free₁ live ∧ Marked (splitHead h L).mem live ∧
      (splitHead h L).memBlocks L ≠ 0 ∧
      Coalesced h.roots (free₁ \ {⟨(splitHead h L).memBlocks L, L + 3⟩}) := by
  let w : Window := ⟨h.memBlocks (L + 1), L + 4⟩
  have hw : w ∈ free := hr.head_mem hne
  have hwpos : 0 < w.order := Nat.succ_pos _
  have hlive : w ∉ live := Set.disjoint_left.1 hr.disjoint hw
  have hpop := hr.pop hne
  have hsplit := hpop.split hlive (show 6 ≤ L + 4 by omega)
  -- while `w` is a tile its halves are none
  have hhalf := halves_lo_hi w
  have hlo_new := hr.tiling.apart.half_notMem (Or.inl hw) hwpos hhalf
  have hhi_new := hr.tiling.apart.half_notMem (Or.inl hw) hwpos hhalf.symm
  have hhi_live : w.hi ∉ live := fun hl => hhi_new (Or.inr hl)
  have hlo_live : w.lo ∉ insert w.hi live :=
    not_or.2 ⟨w.lo_ne_hi, fun hl => hlo_new (Or.inr hl)⟩
  have hlo := pushHalf_spec hsplit hlo_live (L := L) rfl
  have hhi := pushHalf_spec hlo hhi_live (L := L) rfl
  refine ⟨insert w.hi (insert w.lo (free \ {w})), hhi, ?_, ?_, ?_⟩
  · have h1 : Marked (pushHalf (h.setHead (L + 1) (blockNext h.mem w.addr)) w.addr L).mem live := by
      refine hmk.frame fun b hb x hx hlt => pushHalf_mem _ _ _ x ?_
      by_contra hcon
      have hxb : x ∈ b := hr.header_mem (Or.inr hb) hx hlt
      have hxw : x ∈ w := hr.header_mem (Or.inl hw) (by omega) (by omega)
      exact hr.free_notMem_used hw hb hxw hxb
    exact hlo.marked_headerWrite hhi_live h1 (pushHalf_mem _ _ _)
  · show (splitHead h L).memBlocks L ≠ 0
    rw [splitHead, pushHalf_head]
    positivity
  · have hhead : (⟨(splitHead h L).memBlocks L, L + 3⟩ : Window) = w.hi := by
      rw [splitHead, pushHalf_head]
      rfl
    rw [hhead]
    obtain ⟨r, hroot, hs⟩ := hr.tiling.within w (Or.inl hw)
    have hhi_free : w.hi ∉ free \ {w} := fun hf => hhi_new (Or.inl hf.1)
    refine (hc.insert_half hr.roots_apart hroot hs hwpos hhalf hhi_free).mono ?_
    rintro b ⟨rfl | hb, hne⟩
    · exact absurd rfl hne
    · exact hb

theorem splitLoop_take {target : ℕ} (hne : h.memBlocks target ≠ 0) :
    splitLoop target (target + 1) h =
      takeBlock (h.setHead target (blockNext h.mem (h.memBlocks target))) (h.memBlocks target) := by
  rw [splitLoop, if_neg (by omega)]
  simp only [if_neg hne, if_true]

theorem splitLoop_split {target L : ℕ} (hlt : target < L + 1) (hne : h.memBlocks (L + 1) ≠ 0) :
    splitLoop target (L + 2) h = splitLoop target (L + 1) (splitHead h L) := by
  have hhalf : 2 ^ (L + 1 + memBlocksBaseLevel) / 2 = 2 ^ (L + 3) := by
    rw [memBlocksBaseLevel, show L + 1 + 3 = (L + 3) + 1 by omega, pow_succ]
    omega
  rw [splitLoop, if_neg (by omega)]
  simp only [if_neg hne]
  rw [if_neg (by omega), hhalf, Nat.add_sub_cancel, splitHead]

theorem splitLoop_skip {target n : ℕ} (hle : target ≤ n) (hz : h.memBlocks n = 0) :
    splitLoop target (n + 1) h = splitLoop target n h := by
  rw [splitLoop, if_neg (by omega)]
  simp only [if_pos hz]

theorem splitLoop_of_empty {target n : ℕ}
    (hempty : ∀ L, target ≤ L → L < n → h.memBlocks L = 0) : splitLoop target n h = (0, h) := by
  induction n with
  | zero => rfl
  | succ n ih =>
    by_cases hlt : n < target
    · rw [splitLoop, if_pos hlt]
    · rw [splitLoop_skip (by omega) (hempty n (by omega) (Nat.lt_succ_self n))]
      exact ih fun L hL hn => hempty L hL (by omega)

/-- From a non-empty list whose head is the only obstacle to being coalesced,
the loop splits down to the target level and hands out a block. -/
theorem splitLoop_descend {target L : ℕ} (hr : Repr h free live) (hmk : Marked h.mem live)
    (htarget : 2 ≤ target) (hle : target ≤ L) (hne : h.memBlocks L ≠ 0)
    (hc : Coalesced h.roots (free \ {⟨h.memBlocks L, L + 3⟩})) :
    ∃ b : Window, b.order = target + 3 ∧ Took h live b (splitLoop target (L + 1) h) := by
  induction L generalizing h free with
  | zero => omega
  | succ L ih =>
    by_cases he : L + 1 = target
    · subst he
      rw [splitLoop_take hne]
      exact ⟨_, rfl, takeHead_spec hr hmk hne hc⟩
    · rw [splitLoop_split (by omega) hne]
      obtain ⟨free', hr', hmk', hne', hc'⟩ := splitHead_spec hr hmk (by omega) hne hc
      obtain ⟨b, hb, htook⟩ := ih hr' hmk' (by omega) hne' hc'
      exact ⟨b, hb, htook.of_eq rfl rfl⟩

/-- The loop fails, changing nothing, exactly on empty lists. -/
theorem splitLoop_spec {target : ℕ} (ok : HeapOk h free live) (htarget : 2 ≤ target) (n : ℕ) :
    (splitLoop target n h = (0, h) ∧ ∀ L, target ≤ L → L < n → h.memBlocks L = 0) ∨
      ∃ b : Window, b.order = target + 3 ∧ Took h live b (splitLoop target n h) := by
  induction n with
  | zero => exact Or.inl ⟨rfl, fun L _ hL => absurd hL (by omega)⟩
  | succ n ih =>
    by_cases hlt : n < target
    · left
      rw [splitLoop, if_pos hlt]
      exact ⟨rfl, fun L h1 h2 => absurd h2 (by omega)⟩
    · by_cases hz : h.memBlocks n = 0
      · rw [splitLoop_skip (by omega) hz]
        refine ih.imp (fun ⟨he, hempty⟩ => ⟨he, fun L h1 h2 => ?_⟩) id
        by_cases hL : L = n
        · rw [hL, hz]
        · exact hempty L h1 (by omega)
      · right
        exact splitLoop_descend ok.repr ok.marked htarget (by omega) hz
          (ok.coalesced.mono Set.sdiff_subset)

end Split

/-! ### kmalloc without growth -/

section Kmalloc
variable {h : Heap} {free live : Set Window}

theorem clog_ge_of_lt {bytes : ℕ} (h : 16 < bytes) : 5 ≤ Nat.clog 2 bytes :=
  (Nat.lt_clog_iff_pow_lt (by omega)).2 (by omega)

/-- The size class as a level of the table. -/
theorem exists_level_of_lt {bytes : ℕ} (h : 16 < bytes) :
    ∃ t, Nat.clog 2 bytes = t + 3 ∧ 2 ≤ t := by
  have hge := clog_ge_of_lt h
  exact ⟨Nat.clog 2 bytes - 3, by omega, by omega⟩

theorem allocLevel_eq {bytes t : ℕ} (hlog : logb (roundPow2Boundary bytes) = some (t + 3)) :
    allocLevel bytes h = if h.memBlocks t ≠ 0 then
      some (takeBlock (h.setHead t (blockNext h.mem (h.memBlocks t))) (h.memBlocks t))
      else some (splitLoop t (h.highestLevel + 1) h) := by
  have hbase : ¬ t + 3 < memBlocksBaseLevel := by simp [memBlocksBaseLevel]
  have hsub : t + 3 - memBlocksBaseLevel = t := by simp [memBlocksBaseLevel]
  rw [allocLevel, hlog]
  simp only [if_neg hbase, hsub]

/-- After the growth loop, with the target level `t`: either every list from
there up is empty and nothing changes, or a block of that level is handed out. -/
theorem allocLevel_of_logb (ok : HeapOk h free live) {bytes t : ℕ}
    (hlog : logb (roundPow2Boundary bytes) = some (t + 3)) (ht : 2 ≤ t) :
    (allocLevel bytes h = some (0, h) ∧ ∀ L, t ≤ L → L ≤ h.highestLevel → h.memBlocks L = 0) ∨
      ∃ res, allocLevel bytes h = some res ∧
        ∃ b : Window, b.order = t + 3 ∧ Took h live b res := by
  rw [allocLevel_eq hlog]
  by_cases hz : h.memBlocks t = 0
  · rw [if_neg (not_not.2 hz)]
    refine (splitLoop_spec ok ht (h.highestLevel + 1)).imp ?_ ?_
    · intro ⟨he, hempty⟩
      exact ⟨by rw [he], fun L h1 h2 => hempty L h1 (by omega)⟩
    · exact fun htook => ⟨_, rfl, htook⟩
  · rw [if_pos hz]
    exact Or.inr ⟨_, rfl, _, rfl, takeHead_spec ok.repr ok.marked hz
      (ok.coalesced.mono Set.sdiff_subset)⟩

/-- With empty lists from the target level up there is nothing to hand out. -/
theorem allocLevel_of_empty {bytes t : ℕ}
    (hlog : logb (roundPow2Boundary bytes) = some (t + 3))
    (hempty : ∀ L, t ≤ L → h.memBlocks L = 0) : allocLevel bytes h = some (0, h) := by
  rw [allocLevel_eq hlog, if_neg (not_not.2 (hempty t le_rfl)),
    splitLoop_of_empty fun L hL _ => hempty L hL]

/-- After the growth loop: either every list from the size class up is empty
and nothing changes, or a block of the size class is handed out. -/
theorem allocLevel_spec (ok : HeapOk h free live) {bytes : ℕ} (hlow : 16 < bytes)
    (hhigh : bytes ≤ 2 ^ 31) :
    (allocLevel bytes h = some (0, h) ∧
        ∀ L, Nat.clog 2 bytes ≤ L + 3 → L ≤ h.highestLevel → h.memBlocks L = 0) ∨
      ∃ res, allocLevel bytes h = some res ∧
        ∃ b : Window, b.order = Nat.clog 2 bytes ∧ Took h live b res := by
  obtain ⟨t, ht, hlevel⟩ := exists_level_of_lt hlow
  have hclass := logb_roundPow2Boundary (show 1 ≤ bytes by omega) hhigh
  rw [ht] at hclass ⊢
  obtain ⟨heq, hempty⟩ | htook := allocLevel_of_logb ok hclass hlevel
  · exact Or.inl ⟨heq, fun L h1 h2 => hempty L (by omega) h2⟩
  · exact Or.inr htook

/-- No turn of the growth loop when the largest block is large enough. -/
theorem growHeap_of_le (palloc : ℕ → ℕ) {bytes n : ℕ} (hn : 0 < n)
    (hle : bytes ≤ h.highestBlockSize) : growHeap palloc bytes n h = (true, h) := by
  obtain ⟨k, rfl⟩ := Nat.exists_eq_succ_of_ne_zero hn.ne'
  rw [growHeap, if_neg (by omega)]

end Kmalloc

end Ssos
