import Ssos.Mem.GrownHeap

/-!
# The recorded sizes

`highest_level` and `highest_block_size` steer the growth test, the target level
and the merge bound. Only the growth loop changes them, and it raises them
before it knows whether the page allocator grants the run.

## Main results

- `growHeap_cases` — the growth loop in closed form
- `growthHonest_iff` — the sizes are those of an owned region as long as no run is refused
-/

namespace Ssos

open ByteMemory Buddy Window PointerList PartialRun

/-! ### The growth loop in closed form -/

/-- The heap after `k` granted turns of the growth loop. -/
def Heap.grown (palloc : ℕ → ℕ) : ℕ → Heap → Heap
  | 0, h => h
  | k + 1, h => Heap.grown palloc k (h.raised.withRun (grantAt palloc (h.highestLevel + 1)).addr)

/-- The runs of the next `k` levels are granted. -/
def GrantedTo (palloc : ℕ → ℕ) (h : Heap) (bytes k : ℕ) : Prop :=
  ∀ L, h.highestLevel < L → L ≤ h.highestLevel + k →
    Asked h bytes L ∧ (grantAt palloc L).addr ≠ 0

section Grown
variable {h : Heap} {palloc : ℕ → ℕ} {bytes : ℕ}

@[simp] theorem raised_highestLevel (h : Heap) : h.raised.highestLevel = h.highestLevel + 1 := rfl

@[simp] theorem raised_highestBlockSize (h : Heap) :
    h.raised.highestBlockSize = h.highestBlockSize * 2 := rfl

@[simp] theorem withRun_highestLevel (h : Heap) (p : ℕ) :
    (h.withRun p).highestLevel = h.highestLevel := rfl

theorem raised_memBlocks_of_ne {K : ℕ} (hK : K ≠ h.highestLevel + 1) :
    h.raised.memBlocks K = h.memBlocks K := Function.update_of_ne hK _ _

theorem SizesOk.raised (hs : SizesOk h) (hlt : h.highestLevel + 1 < 34) : SizesOk h.raised where
  level_ge := hs.level_ge.trans (Nat.le_succ _)
  level_lt := hlt
  size_eq := by
    rw [raised_highestBlockSize, raised_highestLevel, hs.size_eq, ← pow_succ, Nat.add_right_comm]

theorem SizesOk.withRun (hs : SizesOk h) (p : ℕ) : SizesOk (h.withRun p) :=
  ⟨hs.level_ge, hs.level_lt, hs.size_eq⟩

theorem asked_granted {L p : ℕ} : Asked (h.raised.withRun p) bytes L ↔
    Asked h bytes L ∧ h.highestLevel + 1 < L := by
  rw [Asked, Asked, withRun_highestLevel, raised_highestLevel]
  constructor
  · intro ⟨hL, hlt, hbytes⟩
    exact ⟨⟨by omega, hlt, hbytes⟩, hL⟩
  · intro ⟨⟨_, hlt, hbytes⟩, hL⟩
    exact ⟨hL, hlt, hbytes⟩

/-- Levels are asked for in ascending order. -/
theorem Asked.of_le {L K : ℕ} (hL : Asked h bytes L) (hlow : h.highestLevel < K) (hle : K ≤ L) :
    Asked h bytes K := by
  obtain ⟨_, hlt, hbytes⟩ := hL
  have hpow : 2 ^ (K + 2) ≤ 2 ^ (L + 2) := Nat.pow_le_pow_right (by omega) (by omega)
  exact ⟨hlow, by omega, by omega⟩

theorem SizesOk.asked_next_iff (hs : SizesOk h) : Asked h bytes (h.highestLevel + 1) ↔
    h.highestLevel + 1 < memBlocksMaxLevelCount ∧ h.highestBlockSize < bytes := by
  rw [Asked, hs.size_eq]
  exact and_iff_right (Nat.lt_succ_self _)

/-- **The growth loop**: a number of granted turns, and then either no further
run is asked for or the next one is refused, with the sizes raised already. -/
theorem growHeap_cases (palloc : ℕ → ℕ) (bytes : ℕ) {n : ℕ} (hs : SizesOk h)
    (hn : 34 ≤ n + h.highestLevel) :
    ∃ k, GrantedTo palloc h bytes k ∧
      (growHeap palloc bytes n h =
          (decide (bytes ≤ (h.grown palloc k).highestBlockSize), h.grown palloc k) ∧
        ¬Asked h bytes (h.highestLevel + k + 1) ∨
      growHeap palloc bytes n h = (false, (h.grown palloc k).raised) ∧
        Asked h bytes (h.highestLevel + k + 1) ∧
        (grantAt palloc (h.highestLevel + k + 1)).addr = 0) := by
  have hnone : GrantedTo palloc h bytes 0 := fun L hlow hle => by omega
  induction n generalizing h with
  | zero =>
    have := hs.level_lt
    omega
  | succ n ih =>
    by_cases hbytes : bytes > h.highestBlockSize
    · by_cases hlt : h.highestLevel + 1 < memBlocksMaxLevelCount
      · have hask := hs.asked_next_iff.2 ⟨hlt, hbytes⟩
        rw [growHeap, if_pos hbytes, if_neg (not_le.2 hlt)]
        by_cases hz : (grantAt palloc (h.highestLevel + 1)).addr = 0
        · rw [growStep_refused hs hz]
          exact ⟨0, hnone, Or.inr ⟨rfl, hask, hz⟩⟩
        · -- after a granted turn the loop goes on from the new heap
          rw [growStep_granted hs hz]
          have hs₁ := (hs.raised hlt).withRun (grantAt palloc (h.highestLevel + 1)).addr
          obtain ⟨k, hgranted, hcases⟩ := ih hs₁ (by
            rw [withRun_highestLevel, raised_highestLevel]
            omega) (fun L hlow hle => by omega)
          rw [withRun_highestLevel, raised_highestLevel, Nat.add_right_comm h.highestLevel 1 k,
            Nat.add_assoc h.highestLevel k 1] at hcases
          refine ⟨k + 1, fun L hlow hle => ?_, hcases.imp ?_ ?_⟩
          · by_cases hL : L = h.highestLevel + 1
            · exact hL ▸ ⟨hask, hz⟩
            · have hrest := hgranted L (by rw [withRun_highestLevel, raised_highestLevel]; omega)
                (by rw [withRun_highestLevel, raised_highestLevel]; omega)
              exact ⟨(asked_granted.1 hrest.1).1, hrest.2⟩
          · rintro ⟨hgrow, hno⟩
            exact ⟨hgrow, fun hL => hno (asked_granted.2 ⟨hL, by omega⟩)⟩
          · rintro ⟨hgrow, hL, hrefused⟩
            exact ⟨hgrow, (asked_granted.1 hL).1, hrefused⟩
      · rw [growHeap, if_pos hbytes, if_pos (not_lt.1 hlt)]
        refine ⟨0, hnone, Or.inl ⟨?_, fun hL => hlt (hs.asked_next_iff.1 hL).1⟩⟩
        rw [Heap.grown, decide_eq_false (not_le.2 hbytes)]
    · rw [growHeap, if_neg hbytes]
      refine ⟨0, hnone, Or.inl ⟨?_, fun hL => hbytes (hs.asked_next_iff.1 hL).2⟩⟩
      rw [Heap.grown, decide_eq_true (not_lt.1 hbytes)]

theorem grown_highestLevel (palloc : ℕ → ℕ) (k : ℕ) (h : Heap) :
    (h.grown palloc k).highestLevel = h.highestLevel + k := by
  induction k generalizing h with
  | zero => rfl
  | succ k ih =>
    rw [Heap.grown, ih, withRun_highestLevel, raised_highestLevel]
    omega

/-- Granted turns touch the lists of the new levels only. -/
theorem grown_memBlocks_of_le {k K : ℕ} (hK : K ≤ h.highestLevel) :
    (h.grown palloc k).memBlocks K = h.memBlocks K := by
  induction k generalizing h with
  | zero => rfl
  | succ k ih =>
    rw [Heap.grown, ih (by rw [withRun_highestLevel, raised_highestLevel]; omega)]
    rw [withRun_memBlocks_of_ne (by rw [raised_highestLevel]; omega),
      raised_memBlocks_of_ne (by omega)]

/-- Every granted run heads the list of its level. -/
theorem grown_listed {k K : ℕ} (hlow : h.highestLevel < K) (hle : K ≤ h.highestLevel + k) :
    (h.grown palloc k).memBlocks K = (grantAt palloc K).addr := by
  induction k generalizing h with
  | zero => omega
  | succ k ih =>
    rw [Heap.grown]
    by_cases hK : K = h.highestLevel + 1
    · subst hK
      have htop : h.highestLevel + 1 ≤
          (h.raised.withRun (grantAt palloc (h.highestLevel + 1)).addr).highestLevel := le_rfl
      rw [grown_memBlocks_of_le htop]
      exact withRun_memBlocks_self h.raised _
    · apply ih
      · rw [withRun_highestLevel, raised_highestLevel]
        omega
      · rw [withRun_highestLevel, raised_highestLevel]
        omega

/-! ### The sizes of the largest region -/

/-- No run is larger than the recorded sizes. -/
structure SizesBound (h : Heap) : Prop extends SizesOk h where
  bound : ∀ r ∈ h.runs, r.order ≤ h.highestLevel + 3

/-- The recorded sizes are those of the largest region that the heap owns. -/
structure SizesOwned (h : Heap) : Prop where
  size_eq : h.highestBlockSize = 2 ^ (h.highestLevel + 3)
  owned : ∃ r ∈ h.runs, r.order = h.highestLevel + 3 ∧ ∀ q ∈ h.runs, q.order ≤ r.order

theorem SizesBound.raised (hb : SizesBound h) (hlt : h.highestLevel + 1 < 34) :
    SizesBound h.raised where
  toSizesOk := hb.toSizesOk.raised hlt
  bound := fun r hr => (hb.bound r hr).trans (Nat.le_succ _)

/-- A refused turn leaves sizes that no region has. -/
theorem SizesBound.not_owned_raised (hb : SizesBound h) : ¬SizesOwned h.raised := by
  intro howned
  obtain ⟨r, hr, horder, _⟩ := howned.owned
  have hle := hb.bound r hr
  rw [raised_highestLevel] at horder
  omega

/-- A granted turn leaves the sizes of the new region. -/
theorem SizesBound.granted (hb : SizesBound h) (hlt : h.highestLevel + 1 < 34) (p : ℕ) :
    SizesBound (h.raised.withRun p) ∧ SizesOwned (h.raised.withRun p) := by
  have hbound : ∀ r ∈ (h.raised.withRun p).runs, r.order ≤ h.highestLevel + 1 + 3 := by
    intro r hr
    obtain rfl | hr := List.mem_cons.1 hr
    · exact le_rfl
    · exact (hb.raised hlt).bound r hr
  exact ⟨⟨(hb.toSizesOk.raised hlt).withRun p, hbound⟩,
    ((hb.toSizesOk.raised hlt).withRun p).size_eq, _, List.mem_cons_self, rfl, hbound⟩

theorem SizesBound.grown {k : ℕ} (hb : SizesBound h) (hgranted : GrantedTo palloc h bytes k) :
    SizesBound (h.grown palloc k) ∧
      (SizesOwned h → SizesOwned (h.grown palloc k)) := by
  induction k generalizing h with
  | zero => exact ⟨hb, id⟩
  | succ k ih =>
    have hlt := (hgranted (h.highestLevel + 1) (Nat.lt_succ_self _) (by omega)).1.2.1
    obtain ⟨hb₁, howned₁⟩ := hb.granted hlt (grantAt palloc (h.highestLevel + 1)).addr
    obtain ⟨hb', howned'⟩ := ih hb₁ fun L hlow hle => by
      rw [withRun_highestLevel, raised_highestLevel] at hlow hle
      have hL := hgranted L (by omega) (by omega)
      exact ⟨asked_granted.2 ⟨hL.1, hlow⟩, hL.2⟩
    exact ⟨hb', fun _ => howned' howned₁⟩

end Grown

/-! ### All other operations keep the sizes -/

/-- Two heaps with the same sizes and runs. -/
structure SameSizes (h h' : Heap) : Prop where
  highestBlockSize : h'.highestBlockSize = h.highestBlockSize
  highestLevel : h'.highestLevel = h.highestLevel
  runs : h'.runs = h.runs

section SameSizes
variable {h h' h'' : Heap}

theorem SameSizes.refl (h : Heap) : SameSizes h h := ⟨rfl, rfl, rfl⟩

theorem SameSizes.trans (hs : SameSizes h h') (hs' : SameSizes h' h'') : SameSizes h h'' :=
  ⟨hs'.1.trans hs.1, hs'.2.trans hs.2, hs'.3.trans hs.3⟩

theorem SameSizes.bound (hs : SameSizes h h') (hb : SizesBound h) : SizesBound h' where
  level_ge := hs.highestLevel ▸ hb.level_ge
  level_lt := hs.highestLevel ▸ hb.level_lt
  size_eq := by rw [hs.highestBlockSize, hs.highestLevel, hb.size_eq]
  bound := by
    rw [hs.runs, hs.highestLevel]
    exact hb.bound

theorem SameSizes.owned (hs : SameSizes h h') (ho : SizesOwned h) : SizesOwned h' where
  size_eq := by rw [hs.highestBlockSize, hs.highestLevel, ho.size_eq]
  owned := by
    rw [hs.runs, hs.highestLevel]
    exact ho.owned

theorem sameSizes_splitLoop (target n : ℕ) (h : Heap) : SameSizes h (splitLoop target n h).2 := by
  induction n generalizing h with
  | zero => exact SameSizes.refl h
  | succ n ih =>
    rw [splitLoop]
    by_cases hlt : n < target
    · rw [if_pos hlt]
      exact SameSizes.refl h
    · rw [if_neg hlt]
      by_cases hz : h.memBlocks n = 0
      · simp only [if_pos hz]
        exact ih h
      · simp only [if_neg hz]
        by_cases he : n = target
        · rw [if_pos he]
          exact ⟨rfl, rfl, rfl⟩
        · rw [if_neg he]
          refine SameSizes.trans ?_ (ih _)
          exact ⟨rfl, rfl, rfl⟩

theorem sameSizes_allocLevel {bytes : ℕ} {res : ℕ × Heap} (heq : allocLevel bytes h = some res) :
    SameSizes h res.2 := by
  rw [allocLevel] at heq
  split at heq
  · exact absurd heq.symm (Option.some_ne_none res)
  · split at heq
    · exact absurd heq.symm (Option.some_ne_none res)
    · simp only at heq
      split at heq
      · obtain rfl := Option.some_inj.1 heq
        exact ⟨rfl, rfl, rfl⟩
      · obtain rfl := Option.some_inj.1 heq
        exact sameSizes_splitLoop _ _ h

theorem sameSizes_unlinkBuddy {level buddy : ℕ} (heq : unlinkBuddy h level buddy = some h') :
    SameSizes h h' := by
  rw [unlinkBuddy] at heq
  split at heq
  · obtain rfl := Option.some_inj.1 heq
    exact ⟨rfl, rfl, rfl⟩
  · split at heq
    · exact absurd heq.symm (Option.some_ne_none h')
    · split at heq
      · obtain rfl := Option.some_inj.1 heq
        exact ⟨rfl, rfl, rfl⟩
      · obtain rfl := Option.some_inj.1 heq
        exact SameSizes.refl h

theorem sameSizes_mergeLoop {fuel block last : ℕ} {examined : List ℕ}
    (heq : mergeLoop fuel block h = some (last, examined, h')) : SameSizes h h' := by
  induction fuel generalizing block h last examined with
  | zero => exact absurd heq.symm (Option.some_ne_none _)
  | succ fuel ih =>
    rw [mergeLoop] at heq
    simp only at heq
    split at heq
    · split at heq
      · obtain ⟨_, _, rfl⟩ := Prod.mk.inj (Option.some_inj.1 heq)
        exact SameSizes.refl _
      · split at heq
        · exact absurd heq.symm (Option.some_ne_none _)
        · rename_i h₁ hunlink
          split at heq
          · exact absurd heq.symm (Option.some_ne_none _)
          · rename_i hrest
            obtain ⟨rfl, _, rfl⟩ := Prod.mk.inj (Option.some_inj.1 heq)
            have hset := ih hrest
            exact (sameSizes_unlinkBuddy hunlink).trans ⟨hset.1, hset.2, hset.3⟩
    · obtain ⟨_, _, rfl⟩ := Prod.mk.inj (Option.some_inj.1 heq)
      exact SameSizes.refl _

theorem sameSizes_kfree {ptr : ℕ} {f : Freed} (heq : kfree ptr h = some f) :
    SameSizes h f.heap := by
  rw [kfree] at heq
  split at heq
  · obtain rfl := Option.some_inj.1 heq
    exact SameSizes.refl h
  · simp only at heq
    split at heq
    · exact absurd heq.symm (Option.some_ne_none f)
    · rename_i hmerge
      split at heq
      · exact absurd heq.symm (Option.some_ne_none f)
      · rename_i hpush
        obtain rfl := Option.some_inj.1 heq
        have hmerged := sameSizes_mergeLoop hmerge
        rw [pushFreed] at hpush
        split at hpush
        · obtain rfl := Option.some_inj.1 hpush
          exact ⟨hmerged.1, hmerged.2, hmerged.3⟩
        · exact absurd hpush.symm (Option.some_ne_none _)

end SameSizes

/-! ### Refused requests -/

/-- The call returns `NULL` because the page allocator refuses the run of level
`L`, the first one that it refuses. -/
structure RefusedAt (h : Heap) (palloc : ℕ → ℕ) (bytes L : ℕ) : Prop where
  ne_zero : bytes ≠ 0
  asked : Asked h (requestSize bytes) L
  refused : (grantAt palloc L).addr = 0
  first : ∀ K, h.highestLevel < K → K < L → (grantAt palloc K).addr ≠ 0

/-- The page allocator refuses nothing that the step asks for. -/
def NotRefused (s : HeapState) (op : HeapOp) : Prop :=
  ∀ bytes palloc L, op = .kmalloc bytes palloc → ¬RefusedAt s.heap palloc bytes L

/-- The sizes afterwards are those of the largest region. After a refused
request the runs granted before it are listed, and the same request asks again. -/
structure GrowthHonest (s : HeapState) (op : HeapOp) : Prop where
  sizes : ∀ s', heapStep s op = some s' → SizesOwned s'.heap
  refused : ∀ bytes palloc L, op = .kmalloc bytes palloc → RefusedAt s.heap palloc bytes L →
    ∃ h', kmalloc palloc bytes s.heap = some (0, h') ∧
      (∀ K, s.heap.highestLevel < K → K < L → h'.memBlocks K = (grantAt palloc K).addr) ∧
      Asked h' (requestSize bytes) (h'.highestLevel + 1)

section Refused
variable {h : Heap} {palloc : ℕ → ℕ} {bytes : ℕ}

/-- **A refused request** lists the runs that were granted and raises the sizes
once more. -/
theorem kmalloc_refusedAt (hs : SizesOk h) {L : ℕ} (href : RefusedAt h palloc bytes L) :
    ∃ k, L = h.highestLevel + k + 1 ∧ GrantedTo palloc h (requestSize bytes) k ∧
      kmalloc palloc bytes h = some (0, (h.grown palloc k).raised) ∧
      ∀ K, h.highestLevel < K → K < L →
        (h.grown palloc k).raised.memBlocks K = (grantAt palloc K).addr := by
  obtain ⟨k, hgranted, hcases⟩ :=
    growHeap_cases palloc (requestSize bytes) hs hs.levels_cover
  have hlow : h.highestLevel + k + 1 ≤ L := by
    by_contra hlt
    exact (hgranted L href.asked.1 (by omega)).2 href.refused
  obtain ⟨_, hno⟩ | ⟨hgrow, _, hrefused⟩ := hcases
  · exact absurd (href.asked.of_le (by omega) hlow) hno
  · have hL : L = h.highestLevel + k + 1 := by
      by_contra hne
      exact href.first _ (by omega) (by omega) hrefused
    refine ⟨k, hL, hgranted, by rw [kmalloc_unfold href.ne_zero, hgrow], fun K hlow hlt => ?_⟩
    rw [raised_memBlocks_of_ne (by rw [grown_highestLevel]; omega)]
    exact grown_listed hlow (by omega)

/-- A request that is not refused keeps the sizes that the granted turns leave. -/
theorem kmalloc_sizes (hs : SizesOk h) (hno : ∀ L, ¬RefusedAt h palloc bytes L) {res : ℕ × Heap}
    (heq : kmalloc palloc bytes h = some res) :
    ∃ k, GrantedTo palloc h (requestSize bytes) k ∧ SameSizes (h.grown palloc k) res.2 := by
  by_cases hz : bytes = 0
  · rw [kmalloc, if_pos hz] at heq
    obtain rfl := Option.some_inj.1 heq
    exact ⟨0, fun L hlow hle => by omega, SameSizes.refl h⟩
  · obtain ⟨k, hgranted, hcases⟩ :=
      growHeap_cases palloc (requestSize bytes) hs hs.levels_cover
    refine ⟨k, hgranted, ?_⟩
    rw [kmalloc_unfold hz] at heq
    obtain ⟨hgrow, _⟩ | ⟨_, hask, hrefused⟩ := hcases
    · rw [hgrow] at heq
      cases hfit : decide (requestSize bytes ≤ (h.grown palloc k).highestBlockSize) with
      | false =>
        rw [hfit] at heq
        obtain rfl := Option.some_inj.1 heq
        exact SameSizes.refl _
      | true =>
        rw [hfit] at heq
        exact sameSizes_allocLevel heq
    · refine absurd ⟨hz, hask, hrefused, fun K hlow hlt => ?_⟩ (hno _)
      exact (hgranted K hlow (by omega)).2

end Refused

/-! ### Runs -/

section Runs
variable {s s' : HeapState} {op : HeapOp}

/-- **Step lemma.** No step makes a region larger than the recorded sizes, and a
step at which nothing is refused keeps the sizes those of the largest region. -/
theorem heapStep_sizes (hb : SizesBound s.heap) (hstep : heapStep s op = some s') :
    SizesBound s'.heap ∧ (NotRefused s op → SizesOwned s.heap → SizesOwned s'.heap) := by
  cases op with
  | kmalloc bytes palloc =>
    obtain ⟨p, h, hres, rfl⟩ := kmalloc_of_step hstep
    by_cases href : ∃ L, RefusedAt s.heap palloc bytes L
    · obtain ⟨L, href⟩ := href
      obtain ⟨k, rfl, hgranted, hcall, _⟩ := kmalloc_refusedAt hb.toSizesOk href
      obtain ⟨rfl, rfl⟩ := Prod.mk.inj (Option.some_inj.1 (hcall.symm.trans hres))
      refine ⟨(hb.grown hgranted).1.raised ?_, fun hno => absurd href (hno _ _ _ rfl)⟩
      rw [grown_highestLevel]
      exact href.asked.2.1
    · obtain ⟨k, hgranted, hsame⟩ := kmalloc_sizes hb.toSizesOk (not_exists.1 href) hres
      obtain ⟨hbound, howned⟩ := hb.grown hgranted
      exact ⟨hsame.bound hbound, fun _ ho => hsame.owned (howned ho)⟩
  | kfree ptr =>
    obtain ⟨f, hres, rfl⟩ := kfree_of_step hstep
    have hsame := sameSizes_kfree hres
    exact ⟨hsame.bound hb, fun _ ho => hsame.owned ho⟩
  | write addr value =>
    obtain rfl := Option.some_inj.1 hstep
    have hsame : SameSizes s.heap
        { s.heap with mem := Function.update s.heap.mem addr value } := ⟨rfl, rfl, rfl⟩
    exact ⟨hsame.bound hb, fun _ ho => hsame.owned ho⟩

theorem NotRefused.growthHonest (hb : SizesBound s.heap) (ho : SizesOwned s.heap)
    (hno : NotRefused s op) : GrowthHonest s op where
  sizes := fun _ hstep => (heapStep_sizes hb hstep).2 hno ho
  refused := fun bytes palloc L hop href => absurd href (hno bytes palloc L hop)

/-- A refused request is never handled honestly. -/
theorem GrowthHonest.notRefused (hb : SizesBound s.heap) (hhonest : GrowthHonest s op) :
    NotRefused s op := by
  rintro bytes palloc L rfl href
  obtain ⟨k, _, hgranted, hcall, _⟩ := kmalloc_refusedAt hb.toSizesOk href
  have howned := hhonest.sizes ⟨(s.heap.grown palloc k).raised, s.live⟩ (by
    rw [heapStep, hcall]
    rfl)
  exact (hb.grown hgranted).1.not_owned_raised howned

theorem start_sizes {page : ℕ} (hp : PageOk page) (mem : Mem) :
    SizesBound (HeapState.start mem page).heap ∧ SizesOwned (HeapState.start mem page).heap := by
  obtain ⟨hs, ho⟩ := start_holds mem hp
  have hr := hs.ok.repr
  have hbound : ∀ r ∈ (HeapState.start mem page).heap.runs, r = pageWindow page := by
    intro r hr
    rw [ho.runs] at hr
    exact List.mem_singleton.1 hr
  refine ⟨⟨hr.sizesOk, fun r hroot => ?_⟩, hr.size_eq, pageWindow page, ho.root_mem, ?_, ?_⟩
  · rw [hbound r hroot, ho.highest]
    exact le_rfl
  · rw [ho.highest]
    rfl
  · intro q hq
    rw [hbound q hq]

end Runs

/-- **Failed growth.** In every run the recorded sizes are those of the largest
region in every state if and only if the page allocator never refuses a run
that a request asks for. -/
theorem growthHonest_iff {page : ℕ} (hp : PageOk page) (mem : Mem) (ops : List HeapOp) :
    Along heapStep GrowthHonest (HeapState.start mem page) ops ↔
      Along heapStep NotRefused (HeapState.start mem page) ops := by
  let Inv : HeapState → Prop := fun s => SizesBound s.heap ∧ SizesOwned s.heap
  have hstart : Inv (HeapState.start mem page) := start_sizes hp mem
  refine Along.iff_of_invariant (A := fun _ _ => True) ?_ ?_ hstart
    (Along.of_forall (fun _ _ => trivial) ops)
  · exact fun s op hinv _ => ⟨fun h => h.notRefused hinv.1, fun h => h.growthHonest hinv.1 hinv.2⟩
  · exact fun s op s' hinv _ h hstep => ⟨(heapStep_sizes hinv.1 hstep).1, h.sizes s' hstep⟩

/-- The heap grows by one run, which is granted. -/
theorem growthHonest_iff_growOnce :
    Along heapStep GrowthHonest (HeapState.start strayHeader 0x400000) growOnce := by
  refine (growthHonest_iff growOnce_page strayHeader growOnce).2 ?_
  have hgranted : ∀ s bytes, SizesBound s.heap → bytes ≤ 0x200000 →
      NotRefused s (.kmalloc bytes grantTwo) := by
    intro s bytes hb hle bytes' palloc L hop href
    obtain ⟨rfl, rfl⟩ := HeapOp.kmalloc.inj hop
    have hask := href.asked
    rw [requestSize_eq (by omega)] at hask
    obtain rfl := asked_two_mib hb.level_ge (Nat.add_le_add_right hle 16) hask
    exact absurd href.refused (by decide)
  have hstart := (start_sizes growOnce_page strayHeader).1
  refine ⟨hgranted _ _ hstart (by decide), fun s hs => ⟨?_, fun _ _ => trivial⟩⟩
  exact hgranted _ _ (heapStep_sizes hstart hs).1 (by decide)

/-- After a refused request for four MiB the heap takes itself for one that owns them. -/
theorem growthHonest_fails : ¬∀ (page : ℕ) (mem : Mem) (ops : List HeapOp), PageOk page →
    Along heapStep (fun s op => Lawful s op ∧ Granted s op) (HeapState.start mem page) ops →
      Along heapStep GrowthHonest (HeapState.start mem page) ops := by
  intro hall
  let op : HeapOp := .kmalloc (2 ^ 22 - 16) fun _ => 0
  have hrun := hall 0x400000 (fun _ => 0) [op] growOnce_page ⟨⟨?_, ?_⟩, fun _ _ => trivial⟩
  · have hno := hrun.1.notRefused (start_sizes growOnce_page _).1
    obtain ⟨_, ho⟩ := start_holds (fun _ => 0) growOnce_page
    refine hno _ _ 19 rfl ⟨by decide, ⟨?_, by decide, by decide⟩, rfl, fun K hlow hlt => ?_⟩
    · rw [ho.highest]
      decide
    · rw [ho.highest] at hlow
      omega
  · show 2 ^ 22 - 16 < 2 ^ 64
    decide
  · exact ⟨fun L _ hne => absurd rfl hne, fun K L _ _ _ hne => absurd rfl hne⟩

end Ssos
