import Ssos.Mem.FrameScan

/-!
# Giving pages back

The loop of `paging_free_pages` runs over page offsets, but its bound is the
number of pages and not the offset behind the last one. So it sets all bits of
a run only when the run starts at page 0.

## Main result

- `freesRun_iff` — when a free sets the bits of its run, and when it undoes an allocation
-/

namespace Ssos

/-- Exactly the bits of the run, as far as pages are present, are set. -/
def FreesRun (s : Paging) (addr : Word) (count : ℕ) : Prop :=
  ∀ j, pageBit (pagingFreePages addr count s).pages j = (pageBit s.pages j ||
    decide (pageIndex s addr ≤ j ∧ j < min (pageIndex s addr + count) s.presentPageCount))

/-- The bits of the run are set in `before` and cleared in `pages`; the others agree. -/
structure ClearedRun (before pages : ℕ → Word) (k count : ℕ) : Prop where
  free : ∀ i < count, pageBit before (k + i) = true
  cleared : ∀ j, pageBit pages j = (pageBit before j && !decide (k ≤ j ∧ j < k + count))

section Release
variable {s : Paging} {addr : Word}

/-- The bits that the loop sets. -/
theorem pageBit_pagingFreePages (halign : (addr - s.hhdmStart) % pageBytes = 0)
    (hbase : s.physPageBase ≤ addr - s.hhdmStart) (count j : ℕ) :
    pageBit (pagingFreePages addr count s).pages j = (pageBit s.pages j ||
      decide (pageIndex s addr ≤ j ∧ j < pageIndex s addr + count ∧ j < count ∧
        j < s.presentPageCount)) := by
  rw [pagingFreePages, if_neg (not_not.2 halign), if_neg (BitVec.not_lt.2 hbase)]
  exact freeLoop_spec count s.presentPageCount count (pageIndex s addr) s.pages j

/-- The bits of the run that the loop does not get to must be set already. -/
theorem freesRun_iff_left_over (halign : (addr - s.hhdmStart) % pageBytes = 0)
    (hbase : s.physPageBase ≤ addr - s.hhdmStart) (count : ℕ) :
    FreesRun s addr count ↔ ∀ j, max (pageIndex s addr) count ≤ j →
      j < min (pageIndex s addr + count) s.presentPageCount → pageBit s.pages j = true := by
  have hbits := pageBit_pagingFreePages halign hbase count
  rw [FreesRun]
  generalize pageIndex s addr = k at hbits ⊢
  constructor
  · intro hall j hlow hhigh
    have hj := hall j
    rw [hbits, decide_eq_false (by omega), Bool.or_false, decide_eq_true (by omega),
      Bool.or_true] at hj
    exact hj
  · intro hset j
    rw [hbits]
    by_cases hleft : max k count ≤ j ∧ j < min (k + count) s.presentPageCount
    · rw [hset j hleft.1 hleft.2, Bool.true_or, Bool.true_or]
    · congr 1
      exact decide_eq_decide.2 (by omega)

/-- What an allocation has cleared comes back when the loop gets to all of it. -/
theorem restores_iff (halign : (addr - s.hhdmStart) % pageBytes = 0)
    (hbase : s.physPageBase ≤ addr - s.hhdmStart) {count : ℕ} {before : ℕ → Word}
    (hcleared : ClearedRun before s.pages (pageIndex s addr) count) :
    (∀ j, pageBit (pagingFreePages addr count s).pages j = pageBit before j) ↔
      count = 0 ∨ pageIndex s addr = 0 ∧ count ≤ s.presentPageCount := by
  have hbits := pageBit_pagingFreePages halign hbase count
  generalize pageIndex s addr = k at hbits hcleared ⊢
  constructor
  · intro hall
    -- every bit of the run was set and has been cleared, so the loop must have set it
    have hloop : ∀ i < count, k + i < count ∧ k + i < s.presentPageCount := by
      intro i hi
      have hi' := hall (k + i)
      rw [hbits, hcleared.cleared, hcleared.free i hi, decide_eq_true (by omega), Bool.not_true,
        Bool.and_false, Bool.false_or, decide_eq_true_eq] at hi'
      exact hi'.2.2
    by_cases hz : count = 0
    · exact Or.inl hz
    · have hlast := hloop (count - 1) (by omega)
      exact Or.inr ⟨by omega, by omega⟩
  · intro hcond j
    rw [hbits, hcleared.cleared]
    by_cases hrun : k ≤ j ∧ j < k + count
    · obtain ⟨i, rfl⟩ := Nat.exists_eq_add_of_le hrun.1
      rw [decide_eq_true hrun, hcleared.free i (by omega), Bool.not_true, Bool.and_false,
        Bool.false_or, decide_eq_true (by omega)]
    · rw [decide_eq_false hrun, Bool.not_false, Bool.and_true, decide_eq_false (by omega),
        Bool.or_false]

/-- **When freeing frees exactly the run**: the bits that the loop does not get
to must be set already, and only at page 0 is an allocation undone. -/
theorem freesRun_iff (halign : (addr - s.hhdmStart) % pageBytes = 0)
    (hbase : s.physPageBase ≤ addr - s.hhdmStart) (count : ℕ) :
    (FreesRun s addr count ↔ ∀ j, max (pageIndex s addr) count ≤ j →
        j < min (pageIndex s addr + count) s.presentPageCount → pageBit s.pages j = true) ∧
      ∀ before, ClearedRun before s.pages (pageIndex s addr) count →
        ((∀ j, pageBit (pagingFreePages addr count s).pages j = pageBit before j) ↔
          count = 0 ∨ pageIndex s addr = 0 ∧ count ≤ s.presentPageCount) :=
  ⟨freesRun_iff_left_over halign hbase count, fun _ hcleared => restores_iff halign hbase hcleared⟩

end Release

/-- Giving the first three pages back. -/
theorem freesRun_iff_firstPageUsed : FreesRun firstPageUsed 0xFFFF800001000000#64 3 := by
  refine (freesRun_iff (by decide) (by decide) 3).1.2 fun j hlow hhigh => ?_
  have hindex : pageIndex firstPageUsed 0xFFFF800001000000#64 = 0 := by decide
  rw [hindex] at hlow hhigh
  omega

/-- All pages in use. -/
def allPagesUsed : Paging := { firstPageUsed with pages := fun _ => 0 }

/-- Giving back the second page alone does nothing. -/
theorem freesRun_fails : ¬∀ (s : Paging) (addr : Word) (count : ℕ),
    s.presentPageCount ≤ maxPages → (addr - s.hhdmStart) % pageBytes = 0 →
      s.physPageBase ≤ addr - s.hhdmStart → FreesRun s addr count := by
  intro h
  have hfree := h allPagesUsed 0xFFFF800001200000#64 1 (by decide) (by decide) (by decide)
  have hset := hfree 1
  exact absurd hset (by decide +kernel)

end Ssos
