import Ssos.Mem.HeapSizes

/-!
# Request sizes

A request passes through an addition modulo `2 ^ 64`, the growth loop, a rounding
that reaches over 31 bits and a 32-bit logarithm before it indexes the lists.

## Main results

- `sizeClassExact_iff` — up to `2 ^ 31` and no further the size classes are exact
- `growHeap_unrefused` — a growth loop that is refused nothing makes room
- `inBounds_iff` — which requests are handled within bounds
-/

namespace Ssos

open ByteMemory Buddy Window PointerList PartialRun

/-! ### Size classes -/

/-- `logb(round_pow2_boundary(bytes)) - MEM_BLOCKS_BASE_LEVEL`, as an `int`. -/
def targetLevel (bytes : ℕ) : Option ℤ :=
  (logb (roundPow2Boundary bytes)).map fun log => (log : ℤ) - memBlocksBaseLevel

/-- The rounded size is the least power of two not below `x`, `logb` is defined
there and gives its exponent, and the level is that of the smallest blocks
which hold `x` bytes. -/
structure SizeClassExact (x : ℕ) : Prop where
  exponent : ∃ k, roundPow2Boundary x = 2 ^ k ∧ logb (roundPow2Boundary x) = some k
  not_below : x ≤ roundPow2Boundary x
  least : ∀ j, x ≤ 2 ^ j → roundPow2Boundary x ≤ 2 ^ j
  level : ∃ t, targetLevel x = some t ∧ 0 ≤ t + 3 ∧ x ≤ 2 ^ (t + 3).toNat ∧
    (2 ≤ x → 0 ≤ t + 2 ∧ 2 ^ (t + 2).toNat < x)

section SizeClass
variable {x : ℕ}

/-- Up to `2 ^ 31` the smearing reaches far enough, and the result fits in 32 bits. -/
theorem sizeClassExact_of_le (hlow : 1 ≤ x) (hle : x ≤ 2 ^ 31) : SizeClassExact x := by
  have hround : roundPow2Boundary x = 2 ^ Nat.clog 2 x :=
    roundPow2Boundary_eq_two_pow hlow (by omega)
  have hlog := logb_roundPow2Boundary hlow hle
  have hpow : x ≤ 2 ^ Nat.clog 2 x := Nat.le_pow_clog (by decide) x
  refine ⟨⟨_, hround, hlog⟩, hround ▸ hpow, ?_, ?_⟩
  · intro j hj
    rw [hround]
    exact Nat.pow_le_pow_right (by decide) (Nat.clog_le_of_le_pow hj)
  · refine ⟨(Nat.clog 2 x : ℤ) - 3, ?_, by omega, ?_, ?_⟩
    · rw [targetLevel, hlog]
      rfl
    · rw [Int.sub_add_cancel, Int.toNat_natCast]
      exact hpow
    · intro htwo
      have hpos : 0 < Nat.clog 2 x := Nat.clog_pos (by decide) htwo
      have hexp : ((Nat.clog 2 x : ℤ) - 3 + 2).toNat = Nat.clog 2 x - 1 := by omega
      rw [hexp]
      exact ⟨by omega, (Nat.lt_clog_iff_pow_lt (by decide)).1 (by omega)⟩

/-- Beyond, either `__builtin_clz` gets a zero or a carry stops at bit 31, below `x`. -/
theorem not_sizeClassExact (hlow : 2 ^ 31 < x) (hhigh : x ≤ 2 ^ 36) : ¬SizeClassExact x := by
  intro hexact
  obtain ⟨k, hround, hlog⟩ := hexact.exponent
  obtain ⟨y, rfl⟩ : ∃ y, x = y + 1 := ⟨x - 1, by omega⟩
  by_cases hgap : HasGap y
  · rw [logb_roundPow2Boundary_of_gap (by omega) hgap] at hlog
    obtain rfl := Option.some_inj.1 hlog
    have hbelow := hexact.not_below
    rw [hround] at hbelow
    omega
  · rw [logb_roundPow2Boundary_of_no_gap (by omega) hgap] at hlog
    exact Option.some_ne_none k hlog.symm

/-- **The size classes are exact** up to `2 ^ 31` and for no larger size. -/
theorem sizeClassExact_iff (hlow : 1 ≤ x) (hhigh : x ≤ 2 ^ 36) :
    SizeClassExact x ↔ x ≤ 2 ^ 31 := by
  constructor
  · intro hexact
    by_contra hgt
    exact not_sizeClassExact (Nat.lt_of_not_le hgt) hhigh hexact
  · exact sizeClassExact_of_le hlow

theorem sizeClassExact_iff_page : SizeClassExact 0x200000 ↔ 0x200000 ≤ 2 ^ 31 :=
  sizeClassExact_iff (by decide) (by decide)

/-- The least size beyond: its rounded value has no low bits left. -/
theorem sizeClassExact_fails : ¬SizeClassExact (2 ^ 31 + 1) := by
  intro hexact
  obtain ⟨k, _, hlog⟩ := hexact.exponent
  have hundefined : logb (roundPow2Boundary (2 ^ 31 + 1)) = none := by decide
  exact Option.some_ne_none k (hlog.symm.trans hundefined)

end SizeClass

section Outcome
variable {h : Heap} {free live : Set Window} {palloc : ℕ → ℕ} {bytes size : ℕ}

/-! ### After the growth loop -/

/-- The heap after a growth loop that is refused nothing. -/
structure Enlarged (h : Heap) (live : Set Window) (size : ℕ) (h' : Heap) : Prop where
  ok : ∃ free, HeapOk h' free live
  fits : size ≤ h'.highestBlockSize
  same : size ≤ h.highestBlockSize → h' = h
  listed : h.highestBlockSize < size → h'.memBlocks h'.highestLevel ≠ 0

/-- **A growth loop that is refused nothing** makes room. -/
theorem growHeap_unrefused (ok : HeapOk h free live) (hg : GrantOk h palloc size)
    (href : ¬Refused h palloc size) :
    ∃ h', growHeap palloc size (memBlocksMaxLevelCount - h.highestLevel) h = (true, h') ∧
      Enlarged h live size h' := by
  have hs := ok.repr.sizesOk
  obtain ⟨k, hgranted, hcases⟩ := growHeap_cases palloc size hs hs.levels_cover
  obtain ⟨hgrow, hno⟩ | ⟨_, hask, hzero⟩ := hcases
  · have hgrew := growHeap_spec ok hg hs.levels_cover
    rw [hgrow] at hgrew
    obtain ⟨free', ok'⟩ := hgrew.ok
    have hs' := ok'.repr.sizesOk
    have hfits : size ≤ (h.grown palloc k).highestBlockSize := by
      rw [hs'.size_eq, grown_highestLevel]
      by_contra hlt
      -- the loop has stopped below the request, so it has reached the end of the table
      have htop : ¬h.highestLevel + k + 1 < memBlocksMaxLevelCount := fun h34 =>
        hno ⟨by omega, h34, not_le.1 hlt⟩
      have hlast := hs'.level_lt
      rw [grown_highestLevel] at hlast
      have hk : h.highestLevel + k = 33 := by
        rw [memBlocksMaxLevelCount] at htop
        omega
      rw [hk] at hlt
      exact href (Or.inl (not_le.1 hlt))
    refine ⟨h.grown palloc k, by rw [hgrow, decide_eq_true hfits], ⟨free', ok'⟩, hfits, ?_, ?_⟩
    · intro hle
      rw [growHeap_of_le palloc hs.levels_pos hle] at hgrow
      exact (congrArg Prod.snd hgrow).symm
    · intro hlt
      have hk : k ≠ 0 := by
        rintro rfl
        exact absurd hfits (not_le.2 hlt)
      rw [grown_highestLevel, grown_listed (by omega) le_rfl]
      exact (hgranted _ (by omega) le_rfl).2
  · exact absurd (Or.inr ⟨_, hask, hzero⟩) href

/-- A free list holds blocks of at least `size` bytes. -/
def HasRoom (h : Heap) (size : ℕ) : Prop :=
  ∃ L < memBlocksMaxLevelCount, h.memBlocks L ≠ 0 ∧ size ≤ 2 ^ (L + memBlocksBaseLevel)

theorem Repr.hasRoom_of_head (hr : Repr h free live) {L : ℕ} (hne : h.memBlocks L ≠ 0)
    (hsize : size ≤ 2 ^ (L + 3)) : HasRoom h size := by
  refine ⟨L, ?_, hne, hsize⟩
  by_contra hlt
  have htop := hr.level_lt
  rw [memBlocksMaxLevelCount] at hlt
  exact hne (hr.head_eq_zero_of_lt (by omega))

/-- The header in front of the result describes the block that was taken. -/
theorem Took.usedBlock_eq {b : Window} {res : ℕ × Heap} (htook : Took h live b res) :
    usedBlock res.2.mem res.1 = b := by
  obtain ⟨free', ok'⟩ := htook.ok
  rw [usedBlock, htook.ptr, metaSize_eq, Nat.add_sub_cancel]
  exact Window.ext rfl (ok'.marked b (Or.inl rfl)).1

theorem Took.ptr_ne_zero {b : Window} {res : ℕ × Heap} (htook : Took h live b res) :
    res.1 ≠ 0 := by
  rw [htook.ptr]
  exact Nat.succ_ne_zero _

theorem allocLevel_of_not_hasRoom (ok : HeapOk h free live) (hlow : 16 < size)
    (hhigh : size ≤ 2 ^ 31) (hno : ¬HasRoom h size) : allocLevel size h = some (0, h) := by
  obtain ⟨t, ht, _⟩ := exists_level_of_lt hlow
  have hlog := logb_roundPow2Boundary (show 1 ≤ size by omega) hhigh
  rw [ht] at hlog
  refine allocLevel_of_empty hlog fun L hL => ?_
  by_contra hne
  refine hno (ok.repr.hasRoom_of_head hne ?_)
  calc
    size ≤ 2 ^ Nat.clog 2 size := Nat.le_pow_clog (by omega) size
    _ ≤ 2 ^ (L + 3) := Nat.pow_le_pow_right (by omega) (by omega)

/-- Up to `2 ^ 31` bytes a block is handed out when a free list has one, and it
is large enough. -/
theorem allocLevel_outcome (ok : HeapOk h free live) (hlow : 16 < size) (hhigh : size ≤ 2 ^ 31) :
    ∃ p h', allocLevel size h = some (p, h') ∧
      (p ≠ 0 → size ≤ 2 ^ (usedBlock h'.mem p).order) ∧ (p ≠ 0 ↔ HasRoom h size) := by
  obtain ⟨heq, hempty⟩ | ⟨⟨p, h'⟩, heq, b, hb, htook⟩ := allocLevel_spec ok hlow hhigh
  · refine ⟨0, h, heq, fun hne => absurd rfl hne, iff_of_false (fun hne => hne rfl) ?_⟩
    rintro ⟨L, _, hne, hsize⟩
    refine hne (hempty L (Nat.clog_le_of_le_pow hsize) ?_)
    by_contra hlt
    exact hne (ok.repr.head_eq_zero_of_lt (not_le.1 hlt))
  · refine ⟨p, h', heq, fun _ => ?_, iff_of_true htook.ptr_ne_zero ?_⟩
    · rw [htook.usedBlock_eq, hb]
      exact Nat.le_pow_clog (by omega) size
    · by_contra hno
      have hnull := heq.symm.trans (allocLevel_of_not_hasRoom ok hlow hhigh hno)
      exact htook.ptr_ne_zero (congrArg Prod.fst (Option.some_inj.1 hnull))

/-- The lists of blocks of `2 ^ 31` bytes and more are empty. -/
def NoLargeBlock (h : Heap) : Prop := ∀ L, 28 ≤ L → L ≤ h.highestLevel → h.memBlocks L = 0

/-- **Above `2 ^ 31` bytes** the target level has no defined value, or it is the
level of blocks of `2 ^ 31` bytes. -/
theorem allocLevel_large (ok : HeapOk h free live) (hlow : 2 ^ 31 < size)
    (hhigh : size ≤ 2 ^ 36) :
    (¬HasGap (size - 1) ∧ allocLevel size h = none) ∨
    (HasGap (size - 1) ∧ NoLargeBlock h ∧ allocLevel size h = some (0, h)) ∨
    (HasGap (size - 1) ∧ ¬NoLargeBlock h ∧ ∃ p h', allocLevel size h = some (p, h') ∧ p ≠ 0 ∧
      2 ^ (usedBlock h'.mem p).order < size) := by
  obtain ⟨y, rfl⟩ : ∃ y, size = y + 1 := ⟨size - 1, by omega⟩
  rw [Nat.add_sub_cancel]
  by_cases hgap : HasGap y
  · right
    have hlog := logb_roundPow2Boundary_of_gap (show y < 2 ^ 63 by omega) hgap
    by_cases hempty : NoLargeBlock h
    · refine Or.inl ⟨hgap, hempty, allocLevel_of_empty (t := 28) hlog fun L hL => ?_⟩
      by_cases hle : L ≤ h.highestLevel
      · exact hempty L hL hle
      · exact ok.repr.head_eq_zero_of_lt (not_le.1 hle)
    · obtain ⟨_, hno⟩ | ⟨⟨p, h'⟩, heq, b, hb, htook⟩ :=
        allocLevel_of_logb ok (t := 28) hlog (by omega)
      · exact absurd hno hempty
      · refine Or.inr ⟨hgap, hempty, p, h', heq, htook.ptr_ne_zero, ?_⟩
        rw [htook.usedBlock_eq, hb]
        exact hlow
  · have hnone := logb_roundPow2Boundary_of_no_gap (show 2 ^ 31 ≤ y by omega) hgap
    exact Or.inl ⟨hgap, by rw [allocLevel, hnone]⟩

/-- A new run of more than `2 ^ 31` bytes is a large block. -/
theorem Enlarged.noLargeBlock_iff {h' : Heap} (henl : Enlarged h live size h')
    (hlow : 2 ^ 31 < size) :
    NoLargeBlock h' ↔ size ≤ h.highestBlockSize ∧ NoLargeBlock h := by
  by_cases hle : size ≤ h.highestBlockSize
  · rw [henl.same hle]
    exact (and_iff_right hle).symm
  · refine iff_of_false (fun hempty => ?_) fun hfit => hle hfit.1
    obtain ⟨free', ok'⟩ := henl.ok
    have hfits := henl.fits
    rw [ok'.repr.size_eq] at hfits
    have htop : 31 < h'.highestLevel + 3 :=
      (Nat.pow_lt_pow_iff_right (by omega)).1 (hlow.trans_le hfits)
    exact henl.listed (not_le.1 hle) (hempty _ (by omega) le_rfl)

end Outcome

/-! ### Bounds -/

/-- The growth loop of a call. -/
def growth (h : Heap) (palloc : ℕ → ℕ) (bytes : ℕ) : Bool × Heap :=
  growHeap palloc (requestSize bytes) (memBlocksMaxLevelCount - h.highestLevel) h

/-- The indices into `mem_blocks` that a call computes: the levels that the growth
loop adds, the target level, and the levels of the splitting loop. -/
inductive IndexUsed (h : Heap) (palloc : ℕ → ℕ) (bytes : ℕ) : ℤ → Prop
  | grown {level : ℕ} : bytes ≠ 0 → h.highestLevel < level →
      level ≤ (growth h palloc bytes).2.highestLevel → IndexUsed h palloc bytes level
  | target {log : ℕ} : bytes ≠ 0 → (growth h palloc bytes).1 = true →
      logb (roundPow2Boundary (requestSize bytes)) = some log →
      IndexUsed h palloc bytes (log - memBlocksBaseLevel)
  | split {log : ℕ} {currLevel : ℤ} : bytes ≠ 0 → (growth h palloc bytes).1 = true →
      logb (roundPow2Boundary (requestSize bytes)) = some log →
      (log : ℤ) - memBlocksBaseLevel ≤ currLevel →
      currLevel ≤ (growth h palloc bytes).2.highestLevel → IndexUsed h palloc bytes currLevel

/-- The size does not wrap, every index is inside `mem_blocks`, a result has room
for the request, and a request for which there is no room returns `NULL`. -/
structure InBounds (h : Heap) (palloc : ℕ → ℕ) (bytes : ℕ) : Prop where
  noWrap : bytes + metaSize < 2 ^ 64
  indices : ∀ index, IndexUsed h palloc bytes index → 0 ≤ index ∧ index < memBlocksMaxLevelCount
  result : ∃ p h', kmalloc palloc bytes h = some (p, h') ∧
    (p ≠ 0 → bytes + metaSize ≤ 2 ^ (usedBlock h'.mem p).order) ∧
    (¬HasRoom (growth h palloc bytes).2 (bytes + metaSize) → p = 0)

/-- Sizes for which the code is right: up to `2 ^ 31`, or refused, or such that the
rounding yields `2 ^ 31` by accident and no block of that size is free. -/
def SafeSize (h : Heap) (palloc : ℕ → ℕ) (size : ℕ) : Prop :=
  size < 2 ^ 64 ∧ (size ≤ 2 ^ 31 ∨ Refused h palloc size ∨
    size ≤ h.highestBlockSize ∧ HasGap (size - 1) ∧ NoLargeBlock h)

section Bounds
variable {h h' : Heap} {free live : Set Window} {palloc : ℕ → ℕ} {bytes : ℕ}

theorem growth_eq (hlt : bytes + 16 < 2 ^ 64) : growth h palloc bytes =
    growHeap palloc (bytes + 16) (memBlocksMaxLevelCount - h.highestLevel) h := by
  rw [growth, requestSize_eq hlt]

/-- With a target level inside the table all indices are inside. -/
theorem IndexUsed.inside {t : ℕ} {index : ℤ} (hused : IndexUsed h palloc bytes index)
    (hlevel : (growth h palloc bytes).2.highestLevel < 34)
    (hlog : (growth h palloc bytes).1 = true →
      logb (roundPow2Boundary (requestSize bytes)) = some (t + 3)) (ht : t < 34) :
    0 ≤ index ∧ index < memBlocksMaxLevelCount := by
  rw [memBlocksMaxLevelCount]
  cases hused with
  | grown _ _ hle => omega
  | target _ hgrow hlog' =>
    obtain rfl := Option.some_inj.1 ((hlog hgrow).symm.trans hlog')
    rw [memBlocksBaseLevel]
    omega
  | split _ hgrow hlog' hlow hhigh =>
    obtain rfl := Option.some_inj.1 ((hlog hgrow).symm.trans hlog')
    rw [memBlocksBaseLevel] at hlow
    omega

theorem InBounds.of_zero : InBounds h palloc 0 where
  noWrap := by decide
  indices := by
    intro index hused
    cases hused with
    | grown hz => exact absurd rfl hz
    | target hz => exact absurd rfl hz
    | split hz => exact absurd rfl hz
  result := ⟨0, h, rfl, fun hne => absurd rfl hne, fun _ => rfl⟩

theorem growth_refused (ok : HeapOk h free live) (hg : GrantOk h palloc (bytes + 16))
    (hlt : bytes + 16 < 2 ^ 64) (href : Refused h palloc (bytes + 16)) :
    (growth h palloc bytes).1 = false := by
  rw [growth_eq hlt]
  exact growHeap_refused ok hg href

/-- The call after a growth loop that failed. -/
theorem kmalloc_of_not_growth (hz : bytes ≠ 0) (hfail : (growth h palloc bytes).1 = false) :
    kmalloc palloc bytes h = some (0, (growth h palloc bytes).2) := by
  rw [kmalloc_unfold hz]
  rw [growth] at hfail ⊢
  cases hres : growHeap palloc (requestSize bytes) (memBlocksMaxLevelCount - h.highestLevel) h with
  | mk fits h₁ =>
    rw [hres] at hfail
    obtain rfl : fits = false := hfail
    rfl

theorem InBounds.of_refused (ok : HeapOk h free live) (hg : GrantOk h palloc (bytes + 16))
    (hz : bytes ≠ 0) (hlt : bytes + 16 < 2 ^ 64) (href : Refused h palloc (bytes + 16)) :
    InBounds h palloc bytes := by
  have hfail := growth_refused ok hg hlt href
  obtain ⟨free', ok'⟩ := (growHeap_spec ok hg ok.repr.sizesOk.levels_cover).ok
  rw [← growth_eq hlt] at ok'
  refine ⟨metaSize_eq ▸ hlt, fun index hused => ?_, 0, _, kmalloc_of_not_growth hz hfail,
    fun hne => absurd rfl hne, fun _ => rfl⟩
  refine hused.inside (t := 0) ok'.repr.level_lt (fun hgrow => ?_) (by omega)
  exact absurd (hfail.symm.trans hgrow) Bool.noConfusion

/-- The call after a growth loop that made room. -/
theorem kmalloc_of_growth (hz : bytes ≠ 0) (hlt : bytes + 16 < 2 ^ 64)
    (hgrow : growth h palloc bytes = (true, h')) :
    kmalloc palloc bytes h = allocLevel (bytes + 16) h' := by
  rw [growth] at hgrow
  rw [kmalloc_unfold hz, hgrow, requestSize_eq hlt]

theorem InBounds.of_allocLevel {t p : ℕ} {h'' : Heap} (hz : bytes ≠ 0)
    (hlt : bytes + 16 < 2 ^ 64) (hgrow : growth h palloc bytes = (true, h'))
    (hlevel : h'.highestLevel < 34)
    (hlog : logb (roundPow2Boundary (bytes + 16)) = some (t + 3)) (ht : t < 34)
    (heq : allocLevel (bytes + 16) h' = some (p, h''))
    (hfit : p ≠ 0 → bytes + 16 ≤ 2 ^ (usedBlock h''.mem p).order)
    (hunmet : ¬HasRoom h' (bytes + 16) → p = 0) : InBounds h palloc bytes := by
  refine ⟨metaSize_eq ▸ hlt, fun index hused => ?_, p, h'', ?_, metaSize_eq ▸ hfit, ?_⟩
  · refine hused.inside ?_ (fun _ => requestSize_eq hlt ▸ hlog) ht
    rw [hgrow]
    exact hlevel
  · rw [kmalloc_of_growth hz hlt hgrow, heq]
  · rw [hgrow, metaSize_eq]
    exact hunmet

theorem InBounds.of_small (ok : HeapOk h' free live) (hz : bytes ≠ 0)
    (hsmall : bytes + 16 ≤ 2 ^ 31) (hgrow : growth h palloc bytes = (true, h')) :
    InBounds h palloc bytes := by
  obtain ⟨p, h'', heq, hfit, hroom⟩ := allocLevel_outcome ok (by omega) hsmall
  obtain ⟨t, ht, _⟩ := exists_level_of_lt (show 16 < bytes + 16 by omega)
  have hle : Nat.clog 2 (bytes + 16) ≤ 31 := Nat.clog_le_of_le_pow hsmall
  have hlog := logb_roundPow2Boundary (show 1 ≤ bytes + 16 by omega) hsmall
  rw [ht] at hlog
  refine InBounds.of_allocLevel hz (by omega) hgrow ok.repr.level_lt hlog (by omega) heq hfit ?_
  intro hno
  by_contra hne
  exact hno (hroom.1 hne)

theorem inBounds_large_iff (henl : Enlarged h live (bytes + 16) h') (hz : bytes ≠ 0)
    (hlow : 2 ^ 31 < bytes + 16) (hhigh : bytes + 16 ≤ 2 ^ 36)
    (hgrow : growth h palloc bytes = (true, h')) :
    InBounds h palloc bytes ↔
      HasGap (bytes + 16 - 1) ∧ bytes + 16 ≤ h.highestBlockSize ∧ NoLargeBlock h := by
  have hcall := kmalloc_of_growth hz (by omega) hgrow
  obtain ⟨free', ok'⟩ := henl.ok
  rw [← henl.noLargeBlock_iff hlow]
  obtain ⟨hgap, hnone⟩ | ⟨hgap, hempty, hnull⟩ | ⟨_, hlarge, p, h'', heq, hne, hless⟩ :=
    allocLevel_large ok' hlow hhigh
  -- without a gap the index is undefined, with one the block is too small
  · refine iff_of_false (fun hin => ?_) fun hcond => hgap hcond.1
    obtain ⟨p, h'', hres, _⟩ := hin.result
    exact Option.some_ne_none _ (hres.symm.trans (hcall.trans hnone))
  · refine iff_of_true ?_ ⟨hgap, hempty⟩
    have hlog := logb_roundPow2Boundary_of_gap (y := bytes + 16 - 1) (by omega) hgap
    rw [Nat.sub_add_cancel (by omega)] at hlog
    exact InBounds.of_allocLevel (t := 28) hz (by omega) hgrow ok'.repr.level_lt hlog (by omega)
      hnull (fun hne => absurd rfl hne) fun _ => rfl
  · refine iff_of_false (fun hin => ?_) fun hcond => hlarge hcond.2
    obtain ⟨p', h₁, hres, hfit, _⟩ := hin.result
    obtain ⟨rfl, rfl⟩ := Prod.mk.inj (Option.some_inj.1 (hres.symm.trans (hcall.trans heq)))
    rw [metaSize_eq] at hfit
    exact absurd (hfit hne) (not_le.2 hless)

/-- **Bounds.** Under the page allocator's promise the safe sizes are exactly those
that are handled within bounds. -/
theorem inBounds_iff_safeSize (ok : HeapOk h free live)
    (hg : GrantOk h palloc (requestSize bytes)) :
    InBounds h palloc bytes ↔ SafeSize h palloc (bytes + metaSize) := by
  by_cases hz : bytes = 0
  · subst hz
    exact iff_of_true InBounds.of_zero ⟨by decide, Or.inl (by decide)⟩
  by_cases hlt : bytes + 16 < 2 ^ 64
  · rw [requestSize_eq hlt] at hg
    rw [metaSize_eq]
    by_cases href : Refused h palloc (bytes + 16)
    · exact iff_of_true (InBounds.of_refused ok hg hz hlt href) ⟨hlt, Or.inr (Or.inl href)⟩
    · obtain ⟨h', hgrow, henl⟩ := growHeap_unrefused ok hg href
      rw [← growth_eq hlt] at hgrow
      by_cases hsmall : bytes + 16 ≤ 2 ^ 31
      · obtain ⟨free', ok'⟩ := henl.ok
        exact iff_of_true (InBounds.of_small ok' hz hsmall hgrow) ⟨hlt, Or.inl hsmall⟩
      · have hhigh : bytes + 16 ≤ 2 ^ 36 := not_lt.1 fun hbig => href (Or.inl hbig)
        rw [inBounds_large_iff henl hz (not_le.1 hsmall) hhigh hgrow]
        constructor
        · intro ⟨hgap, hle, hempty⟩
          exact ⟨hlt, Or.inr (Or.inr ⟨hle, hgap, hempty⟩)⟩
        · intro ⟨_, hor⟩
          obtain ⟨hle, hgap, hempty⟩ := (hor.resolve_left hsmall).resolve_left href
          exact ⟨hgap, hle, hempty⟩
  · refine iff_of_false (fun hin => hlt ?_) fun hsafe => hlt ?_
    · exact metaSize_eq ▸ hin.noWrap
    · exact metaSize_eq ▸ hsafe.1

/-- A safe size above `2 ^ 31` that is not refused: nothing happens. -/
theorem kmalloc_of_gap (ok : HeapOk h free live) (hlow : 2 ^ 31 < bytes + 16)
    (hle : bytes + 16 ≤ h.highestBlockSize) (hgap : HasGap (bytes + 16 - 1))
    (hempty : NoLargeBlock h) : kmalloc palloc bytes h = some (0, h) := by
  have hhigh : h.highestBlockSize ≤ 2 ^ 36 := by
    rw [ok.repr.size_eq]
    exact Nat.pow_le_pow_right (by omega) (by have := ok.repr.level_lt; omega)
  have hz : bytes ≠ 0 := by
    rintro rfl
    exact absurd hlow (by decide)
  rw [kmalloc_eq_allocLevel ok.repr.sizesOk hz (by omega) hle]
  obtain ⟨hno, _⟩ | ⟨_, _, hnull⟩ | ⟨_, hlarge, _⟩ := allocLevel_large ok hlow (by omega)
  · exact absurd hgap hno
  · exact hnull
  · exact absurd hempty hlarge

end Bounds

/-! ### Runs of safe requests -/

def RequestsInBounds (s : HeapState) : HeapOp → Prop
  | .kmalloc bytes palloc => InBounds s.heap palloc bytes
  | _ => True

def SafeRequests (s : HeapState) : HeapOp → Prop
  | .kmalloc bytes palloc => SafeSize s.heap palloc (bytes + metaSize)
  | _ => True

def ConfinedFrees (s : HeapState) : HeapOp → Prop
  | .kfree ptr => StaysConfined s (.kfree ptr)
  | _ => True

/-- **Step lemma.** Safe requests and confined frees keep the heap intact. -/
theorem HeapInv.safe_step {s s' : HeapState} {op : HeapOp} (hinv : HeapInv s)
    (hlaw : Lawful s op) (hg : Granted s op) (hfree : ConfinedFrees s op)
    (hsafe : SafeRequests s op) (hstep : heapStep s op = some s') : HeapInv s' := by
  have hconf : StaysConfined s op → HeapInv s' := fun hconf => by
    obtain ⟨s₁, hs₁, hinv₁⟩ := heapStep_inv hinv hlaw hg hconf
    exact Option.some_inj.1 (hs₁.symm.trans hstep) ▸ hinv₁
  cases op with
  | kfree ptr => exact hconf hfree
  | write addr value => exact hconf trivial
  | kmalloc bytes palloc =>
    obtain ⟨hlt, hor⟩ := hsafe
    by_cases hsmall : bytes + metaSize ≤ 2 ^ 31
    · exact hconf (Or.inl hsmall)
    · obtain href | ⟨hle, hgap, hempty⟩ := hor.resolve_left hsmall
      · exact hconf (Or.inr ⟨hlt, href⟩)
      · obtain ⟨free, live, hs⟩ := hinv
        rw [metaSize_eq] at hsmall hle hgap
        rw [heapStep, kmalloc_of_gap hs.ok (not_le.1 hsmall) hle hgap hempty] at hstep
        obtain rfl := Option.some_inj.1 hstep
        exact ⟨free, live, hs⟩

/-- **Request sizes within bounds.** In every run with confined frees all requests
are handled within bounds if and only if all of them have safe sizes. -/
theorem inBounds_iff {page : ℕ} (hp : PageOk page) (mem : Mem) {ops : List HeapOp}
    (hops : Along heapStep (fun s op => (Lawful s op ∧ Granted s op) ∧ ConfinedFrees s op)
      (HeapState.start mem page) ops) :
    Along heapStep RequestsInBounds (HeapState.start mem page) ops ↔
      Along heapStep SafeRequests (HeapState.start mem page) ops := by
  have hiff : ∀ s op, HeapInv s → (Lawful s op ∧ Granted s op) ∧ ConfinedFrees s op →
      (RequestsInBounds s op ↔ SafeRequests s op) := by
    intro s op ⟨free, live, hs⟩ h
    cases op with
    | kmalloc bytes palloc => exact inBounds_iff_safeSize hs.ok h.1.2
    | kfree ptr => exact Iff.rfl
    | write addr value => exact Iff.rfl
  refine Along.iff_of_invariant hiff (fun s op s' hinv h hin hstep => ?_)
    ⟨_, _, (start_holds mem hp).1⟩ hops
  exact hinv.safe_step h.1.1 h.1.2 h.2 ((hiff s op hinv h).1 hin) hstep

/-- The page is used up, and the heap grows for the next request. -/
theorem inBounds_iff_growOnce :
    Along heapStep RequestsInBounds (HeapState.start strayHeader 0x400000) growOnce := by
  refine (inBounds_iff growOnce_page strayHeader ?_).2 ?_
  · exact growOnce_along [] (fun s bytes palloc _ hlaw hg => ⟨⟨hlaw, hg⟩, trivial⟩)
      fun _ _ => trivial
  · refine growOnce_along [] (fun s bytes palloc hle _ _ => ?_) fun _ _ => trivial
    exact ⟨hle.trans_lt (by decide), Or.inl hle⟩

/-- The largest size wraps around to 15 bytes. -/
theorem inBounds_fails : ¬∀ (page : ℕ) (mem : Mem) (ops : List HeapOp), PageOk page →
    Along heapStep (fun s op => Lawful s op ∧ Granted s op) (HeapState.start mem page) ops →
      Along heapStep RequestsInBounds (HeapState.start mem page) ops := by
  intro hall
  let op : HeapOp := .kmalloc (2 ^ 64 - 1) fun _ => 0
  have hrun := hall 0x400000 (fun _ => 0) [op] growOnce_page ⟨⟨?_, ?_⟩, fun _ _ => trivial⟩
  · exact absurd hrun.1.noWrap (by decide)
  · show 2 ^ 64 - 1 < 2 ^ 64
    decide
  · exact ⟨fun L _ hne => absurd rfl hne, fun K L _ _ _ hne => absurd rfl hne⟩

end Ssos
