import Ssos.Mem.Paging
import Ssos.Foundations.RadixTable

/-!
# Mapping a page

The four-level walk that reads back what `paging_map_page` has written. A new
table's address is shifted by 12 bits when it is put into an entry, and not
shifted back when it is taken out, so an entry made for a new table leads
elsewhere unless the table is physical page 0.

## Main results

- `pageRead_setTableEntry`, `pageRead_memset` — the two writes, entry by entry
- `tableOfEntry_freshEntry_iff` — when a new entry leads to its table
- `mapsPage_iff` — exactly when a page is mapped as the walk reads it back
-/

namespace Ssos

open ByteMemory RadixTable

/-! ### The walk -/

/-- Entry `i` of a table. -/
def pageRead (m : Mem) (table : Word) (i : Fin 512) : Word :=
  tableEntry m table (BitVec.ofNat 64 i)

/-- The table that a present entry leads to. -/
def pageChild (hhdmStart entry : Word) : Option Word :=
  if entry &&& pagePresent = 0 then none else some (tableOfEntry hhdmStart entry)

theorem tableIndex_lt (v : Word) (shift : ℕ) : (tableIndex v shift).toNat < 512 := by
  rw [tableIndex, BitVec.toNat_and]
  exact Nat.and_lt_two_pow (n := 9) _ (by decide)

/-- `tableIndex` as an index of a table. -/
def indexAt (v : Word) (shift : ℕ) : Fin 512 := ⟨(tableIndex v shift).toNat, tableIndex_lt v shift⟩

/-- The indices of the three upper levels. -/
def upperPath (v : Word) : List (Fin 512) := [indexAt v 39, indexAt v 30, indexAt v 21]

/-- All indices that the walk uses: they name the virtual page. -/
def pageIndices (v : Word) : List (Fin 512) := upperPath v ++ [indexAt v 12]

/-- The page table (lowest level) for a virtual address. -/
def pageTableOf (m : Mem) (hhdmStart pml4 v : Word) : Option Word :=
  tableAt (pageRead m) (pageChild hhdmStart) pml4 (upperPath v)

/-- The entry that maps the page, when all four levels are present. -/
def walk (m : Mem) (hhdmStart pml4 v : Word) : Option Word :=
  match pageTableOf m hhdmStart pml4 v with
  | none => none
  | some pt =>
    let entry := pageRead m pt (indexAt v 12)
    if entry &&& pagePresent = 0 then none else some entry

/-! ### Bits of addresses -/

/-- A page-aligned address. -/
def Aligned (t : Word) : Prop := ∀ i < 12, t.getLsbD i = false

/-- A page-aligned physical address of at most `bits` bits. -/
def PhysPage (bits : ℕ) (p : Word) : Prop := Aligned p ∧ ∀ i, bits ≤ i → p.getLsbD i = false

/-- An offset that has no bit in common with the physical addresses. -/
def WindowBase (bits : ℕ) (h : Word) : Prop := ∀ i < bits, h.getLsbD i = false

theorem getLsbD_pageAddrMask (i : ℕ) :
    pageAddrMask.getLsbD i = decide (12 ≤ i ∧ i < 52) := by
  by_cases hi : i < 64
  · have hall : ∀ i < 64, pageAddrMask.getLsbD i = decide (12 ≤ i ∧ i < 52) := by decide
    exact hall i hi
  · rw [BitVec.getLsbD_of_ge _ _ (by omega), decide_eq_false (by omega)]

theorem Aligned.toNat_mod {t : Word} (h : Aligned t) : t.toNat % 4096 = 0 := by
  have hpow : (4096 : ℕ) = 2 ^ 12 := by decide
  rw [hpow]
  refine Nat.eq_of_testBit_eq fun i => ?_
  rw [Nat.testBit_mod_two_pow, Nat.zero_testBit]
  by_cases hi : i < 12
  · rw [decide_eq_true hi, Bool.true_and]
    exact h i hi
  · rw [decide_eq_false hi, Bool.false_and]

section Bits
variable {bits : ℕ} {h p : Word}

theorem tableOfEntry_aligned (hh : Aligned h) (e : Word) : Aligned (tableOfEntry h e) := by
  intro i hi
  rw [tableOfEntry, BitVec.getLsbD_or, BitVec.getLsbD_and, getLsbD_pageAddrMask,
    decide_eq_false (by omega), Bool.and_false, hh i hi, Bool.false_or]

theorem WindowBase.aligned (hw : WindowBase bits h) (h12 : 12 ≤ bits) : Aligned h :=
  fun i hi => hw i (by omega)

/-- In the window, adding the offset is setting its bits. -/
theorem PhysPage.add_eq_or (hp : PhysPage bits p) (hw : WindowBase bits h) : p + h = p ||| h := by
  refine BitVec.add_eq_or_of_and_eq_zero _ _ (BitVec.eq_of_getLsbD_eq fun i _ => ?_)
  rw [BitVec.getLsbD_and, BitVec.getLsbD_zero]
  by_cases hi : i < bits
  · rw [hw i hi, Bool.and_false]
  · rw [hp.2 i (by omega), Bool.false_and]

/-- The address field of an entry for a physical page. -/
theorem PhysPage.and_mask (hp : PhysPage bits p) (hb : bits ≤ 52) : p &&& pageAddrMask = p := by
  refine BitVec.eq_of_getLsbD_eq fun i _ => ?_
  rw [BitVec.getLsbD_and, getLsbD_pageAddrMask]
  by_cases hi : 12 ≤ i ∧ i < 52
  · rw [decide_eq_true hi, Bool.and_true]
  · rw [decide_eq_false hi, Bool.and_false]
    by_cases h12 : i < 12
    · exact (hp.1 i h12).symm
    · exact (hp.2 i (by omega)).symm

/-- The flags lie outside the address field. -/
theorem flags_getLsbD {i : ℕ} (hi : 12 ≤ i ∧ i < 52) :
    pagePresent.getLsbD i = false ∧ pageRw.getLsbD i = false := by
  have hall : ∀ i < 52, 12 ≤ i → pagePresent.getLsbD i = false ∧ pageRw.getLsbD i = false := by
    decide
  exact hall i hi.2 hi.1

/-- The entry that maps the physical page `p`. -/
def leafEntry (p : Word) : Word := (p &&& pageAddrMask) ||| pagePresent ||| pageRw

theorem leafEntry_present (p : Word) : leafEntry p &&& pagePresent ≠ 0 := by
  intro hz
  have hbit := congrArg (fun v => BitVec.getLsbD v 0) hz
  simp [leafEntry, pagePresent, pageRw] at hbit

theorem leafEntry_rw (p : Word) : leafEntry p &&& pageRw ≠ 0 := by
  intro hz
  have hbit := congrArg (fun v => BitVec.getLsbD v 1) hz
  simp [leafEntry, pagePresent, pageRw] at hbit

theorem leafEntry_addr (hp : PhysPage bits p) (hb : bits ≤ 52) :
    leafEntry p &&& pageAddrMask = p := by
  rw [leafEntry, hp.and_mask hb]
  refine Eq.trans (BitVec.eq_of_getLsbD_eq fun i _ => ?_) (hp.and_mask hb)
  simp only [BitVec.getLsbD_and, BitVec.getLsbD_or, getLsbD_pageAddrMask]
  by_cases hi : 12 ≤ i ∧ i < 52
  · rw [(flags_getLsbD hi).1, (flags_getLsbD hi).2, Bool.or_false, Bool.or_false]
  · rw [decide_eq_false hi, Bool.and_false, Bool.and_false]

/-- The entry that is made for a new table at the physical address `q`. -/
def freshEntry (q : Word) : Word := pagePresent ||| pageRw ||| q <<< pageAddrShift

theorem freshEntry_present (q : Word) : freshEntry q &&& pagePresent ≠ 0 := by
  intro hz
  have hbit := congrArg (fun v => BitVec.getLsbD v 0) hz
  simp [freshEntry, pagePresent, pageRw, pageAddrShift] at hbit

/-- **A new entry leads to its table** only when that is physical page 0. -/
theorem tableOfEntry_freshEntry_iff {q : Word} (hq : PhysPage bits q) (hw : WindowBase bits h) :
    tableOfEntry h (freshEntry q) = q + h ↔ q = 0#64 := by
  have hbit : ∀ i, (tableOfEntry h (freshEntry q)).getLsbD i =
      ((q <<< pageAddrShift).getLsbD i && decide (12 ≤ i ∧ i < 52) || h.getLsbD i) := by
    intro i
    rw [tableOfEntry, BitVec.getLsbD_or, BitVec.getLsbD_and, getLsbD_pageAddrMask, freshEntry,
      BitVec.getLsbD_or, BitVec.getLsbD_or]
    by_cases hi : 12 ≤ i ∧ i < 52
    · rw [(flags_getLsbD hi).1, (flags_getLsbD hi).2, Bool.false_or, Bool.false_or]
    · rw [decide_eq_false hi, Bool.and_false, Bool.and_false]
  constructor
  · intro he
    rw [hq.add_eq_or hw] at he
    -- bit `i` of `q` is bit `i - 12` of `q`, so no bit can be set
    have hzero : ∀ i, q.getLsbD i = false := by
      intro i
      induction i using Nat.strong_induction_on with
      | _ i ih =>
        by_cases h12 : i < 12
        · exact hq.1 i h12
        · by_cases hbits : i < bits
          · have hi := congrArg (fun v => BitVec.getLsbD v i) he
            simp only [hbit, BitVec.getLsbD_or, hw i hbits, Bool.or_false,
              BitVec.getLsbD_shiftLeft, pageAddrShift, ih (i - 12) (by omega), Bool.and_false,
              Bool.false_and] at hi
            exact hi.symm
          · exact hq.2 i (by omega)
    exact BitVec.eq_of_getLsbD_eq fun i _ => by rw [hzero i, BitVec.getLsbD_zero]
  · rintro rfl
    refine BitVec.eq_of_getLsbD_eq fun i _ => ?_
    rw [hbit, BitVec.zero_shiftLeft, BitVec.getLsbD_zero, Bool.false_and, Bool.false_or,
      BitVec.zero_add]

end Bits

/-! ### Writes, entry by entry -/

section Writes
variable {m : Mem} {t t₀ : Word}

theorem entryAddr_toNat (ht : Aligned t) (i : Fin 512) :
    (t + 8#64 * BitVec.ofNat 64 i).toNat = t.toNat + 8 * i := by
  have hmod := ht.toNat_mod
  have hlt := t.isLt
  have hi := i.isLt
  rw [BitVec.toNat_add, BitVec.toNat_mul, BitVec.toNat_ofNat, BitVec.toNat_ofNat]
  omega

theorem load64_store64_self (a v : Word) : load64 (store64 m a v) a = v := by
  rw [load64, store64, loadLE_storeLE_of_lt m a.toNat v.isLt, BitVec.ofNat_toNat, BitVec.setWidth_eq]

/-- Setting one entry of an aligned table. -/
theorem pageRead_setTableEntry (ht : Aligned t) (ht₀ : Aligned t₀) (i i₀ : Fin 512) (e : Word) :
    pageRead (setTableEntry m t₀ (BitVec.ofNat 64 i₀) e) t i =
      if t = t₀ ∧ i = i₀ then e else pageRead m t i := by
  by_cases h : t = t₀ ∧ i = i₀
  · obtain ⟨rfl, rfl⟩ := h
    rw [if_pos ⟨rfl, rfl⟩]
    exact load64_store64_self _ e
  · rw [if_neg h, pageRead, pageRead, tableEntry, tableEntry, setTableEntry, load64, load64,
      store64, entryAddr_toNat ht, entryAddr_toNat ht₀]
    refine congrArg (BitVec.ofNat 64) (loadLE_storeLE_of_disjoint ?_)
    have h1 := ht.toNat_mod
    have h2 := ht₀.toNat_mod
    have hi := i.isLt
    have hi₀ := i₀.isLt
    by_cases hti : t = t₀
    · subst hti
      have hne : i.val ≠ i₀.val := fun hv => h ⟨rfl, Fin.ext hv⟩
      omega
    · have hne : t.toNat ≠ t₀.toNat := fun hv => hti (BitVec.eq_of_toNat_eq hv)
      omega

/-- Zeroing one table. -/
theorem pageRead_memset (ht : Aligned t) (ht₀ : Aligned t₀) (i : Fin 512) :
    pageRead (memset m t₀.toNat 0 0x1000) t i = if t = t₀ then 0#64 else pageRead m t i := by
  have hi := i.isLt
  by_cases h : t = t₀
  · subst h
    have hzero : loadLE 8 (memset m t.toNat 0 0x1000) (t.toNat + 8 * i) = 0 :=
      loadLE_eq_zero fun x hx hlt => by rw [memset_apply, if_pos (by omega)]
    rw [if_pos rfl, pageRead, tableEntry, load64, entryAddr_toNat ht, hzero]
  · rw [if_neg h, pageRead, pageRead, tableEntry, tableEntry, load64, load64, entryAddr_toNat ht]
    refine congrArg (BitVec.ofNat 64) (loadLE_congr fun x hx hlt => ?_)
    have h1 := ht.toNat_mod
    have h2 := ht₀.toNat_mod
    have hne : t.toNat ≠ t₀.toNat := fun hv => h (BitVec.eq_of_toNat_eq hv)
    rw [memset_apply, if_neg (by omega)]

end Writes

/-! ### Page tables in memory -/

/-- The memory holds a four-level page table below `pml4`: the physical memory
of `bits` address bits is read through the window, tables are page-aligned and
each is reached along one path, and the next free table of the pool lies in
the window and is not in use. -/
structure HoldsTables (s : Paging) (pml4 : Word) (bits : ℕ) : Prop where
  bits_ge : 13 ≤ bits
  bits_le : bits ≤ 52
  window : WindowBase bits s.hhdmStart
  root : Aligned pml4
  tree : TreeShaped (pageRead s.mem) (pageChild s.hhdmStart) pml4 3
  pool : PhysPage bits (s.currFreePageTable - s.hhdmStart)
  pool_unused : ∀ is, is.length ≤ 3 →
    tableAt (pageRead s.mem) (pageChild s.hhdmStart) pml4 is ≠ some s.currFreePageTable

section Holds
variable {s : Paging} {pml4 : Word} {bits : ℕ}

theorem HoldsTables.hhdm_aligned (h : HoldsTables s pml4 bits) : Aligned s.hhdmStart :=
  h.window.aligned (by have := h.bits_ge; omega)

theorem HoldsTables.pool_eq (h : HoldsTables s pml4 bits) :
    s.currFreePageTable = (s.currFreePageTable - s.hhdmStart) ||| s.hhdmStart := by
  rw [← h.pool.add_eq_or h.window, BitVec.sub_add_cancel]

theorem HoldsTables.pool_aligned (h : HoldsTables s pml4 bits) : Aligned s.currFreePageTable := by
  rw [h.pool_eq]
  intro i hi
  rw [BitVec.getLsbD_or, h.pool.1 i hi, h.hhdm_aligned i hi, Bool.false_or]

theorem pageChild_some {hhdm e t : Word} (h : pageChild hhdm e = some t) :
    t = tableOfEntry hhdm e := by
  rw [pageChild] at h
  by_cases hp : e &&& pagePresent = 0
  · rw [if_pos hp] at h
    exact absurd h.symm (Option.some_ne_none t)
  · rw [if_neg hp] at h
    exact (Option.some_inj.1 h).symm

/-- Every table is page-aligned. -/
theorem tableAt_aligned {m : Mem} {hhdm root t : Word} (hh : Aligned hhdm) (hroot : Aligned root)
    {is : List (Fin 512)} (h : tableAt (pageRead m) (pageChild hhdm) root is = some t) :
    Aligned t := by
  induction is generalizing root with
  | nil => exact Option.some_inj.1 h ▸ hroot
  | cons i is ih =>
    obtain ⟨t', hc, h⟩ := exists_of_tableAt_cons h
    rw [pageChild_some hc] at h
    exact ih (tableOfEntry_aligned hh _) h

end Holds

/-! ### Ensuring an entry -/

section Ensure
variable {s : Paging} {t : Word} {i : Fin 512}

/-- The state after an entry has been made for the next table of the pool. -/
def Paging.withTable (s : Paging) (t : Word) (i : Fin 512) : Paging :=
  { s with
    mem := setTableEntry (memset s.mem s.currFreePageTable.toNat 0 0x1000) t (BitVec.ofNat 64 i)
      (freshEntry (s.currFreePageTable - s.hhdmStart))
    currFreePageTable := s.currFreePageTable + 0x1000#64
    fresh := (freshEntry (s.currFreePageTable - s.hhdmStart), s.currFreePageTable) :: s.fresh }

@[simp] theorem withTable_hhdmStart : (s.withTable t i).hhdmStart = s.hhdmStart := by
  simp only [Paging.withTable]

@[simp] theorem withTable_currFreePageTable :
    (s.withTable t i).currFreePageTable = s.currFreePageTable + 0x1000#64 := by
  simp only [Paging.withTable]

@[simp] theorem withTable_fresh : (s.withTable t i).fresh =
    (freshEntry (s.currFreePageTable - s.hhdmStart), s.currFreePageTable) :: s.fresh := by
  simp only [Paging.withTable]

theorem pagingEnsureEntry_present (h : pageRead s.mem t i &&& pagePresent ≠ 0) :
    pagingEnsureEntry t (BitVec.ofNat 64 i) s = s := by
  rw [pageRead] at h
  rw [pagingEnsureEntry, if_neg h]

theorem pagingEnsureEntry_missing (h : pageRead s.mem t i &&& pagePresent = 0) :
    pagingEnsureEntry t (BitVec.ofNat 64 i) s = s.withTable t i := by
  rw [pageRead] at h
  rw [pagingEnsureEntry, if_pos h]
  simp only [pagingGetPageEntryWithAlloc, if_true, Bool.false_eq_true, if_false]
  rw [Paging.withTable, freshEntry]
  simp only [BitVec.ofNat_eq_ofNat, BitVec.zero_or, BitVec.or_zero]

/-- The entries of the tables after an entry has been made. -/
theorem pageRead_withTable (ht : Aligned t) (hc : Aligned s.currFreePageTable) {u : Word}
    (hu : Aligned u) (j : Fin 512) :
    pageRead (s.withTable t i).mem u j =
      if u = t ∧ j = i then freshEntry (s.currFreePageTable - s.hhdmStart)
      else if u = s.currFreePageTable then 0#64 else pageRead s.mem u j := by
  rw [Paging.withTable]
  simp only []
  rw [pageRead_setTableEntry hu ht, pageRead_memset hu hc]

end Ensure

/-- One level of `paging_map_page`: ensure the entry and follow it. -/
def descend (t : Word) (i : Fin 512) (s : Paging) : Word × Paging :=
  let s := pagingEnsureEntry t (BitVec.ofNat 64 i) s
  (tableOfEntry s.hhdmStart (pageRead s.mem t i), s)

/-- `paging_map_page` is three levels of descent and one write. -/
theorem pagingMapPage_eq (p pml4 : Word) (s : Paging) :
    pagingMapPage p pml4 s =
      let v := p + s.hhdmStart
      let d₁ := descend pml4 (indexAt v 39) s
      let d₂ := descend d₁.1 (indexAt v 30) d₁.2
      let d₃ := descend d₂.1 (indexAt v 21) d₂.2
      { d₃.2 with mem := setTableEntry d₃.2.mem d₃.1 (BitVec.ofNat 64 (indexAt v 12)) (leafEntry p) } := by
  have hidx : ∀ v shift, tableIndex v shift = BitVec.ofNat 64 (indexAt v shift) := fun v shift => by
    rw [indexAt, BitVec.ofNat_toNat, BitVec.setWidth_eq]
  simp only [pagingMapPage, hidx, descend, pageRead, leafEntry]

section Descend
variable {s : Paging} {pml4 t : Word} {i : Fin 512} {bits : ℕ}

theorem descend_present (h : pageRead s.mem t i &&& pagePresent ≠ 0) :
    descend t i s = (tableOfEntry s.hhdmStart (pageRead s.mem t i), s) := by
  rw [descend, pagingEnsureEntry_present h]

theorem descend_missing (ht : Aligned t) (hc : Aligned s.currFreePageTable)
    (h : pageRead s.mem t i &&& pagePresent = 0) :
    descend t i s = (tableOfEntry s.hhdmStart (freshEntry (s.currFreePageTable - s.hhdmStart)),
      s.withTable t i) := by
  have hread : pageRead (s.withTable t i).mem t i =
      freshEntry (s.currFreePageTable - s.hhdmStart) := by
    rw [pageRead_withTable ht hc ht, if_pos ⟨rfl, rfl⟩]
  rw [descend, pagingEnsureEntry_missing h]
  simp only [hread, withTable_hhdmStart]

/-- Descending adds entries in front of those made before. -/
theorem descend_fresh (t : Word) (i : Fin 512) (s : Paging) :
    ∃ new, (descend t i s).2.fresh = new ++ s.fresh := by
  by_cases h : pageRead s.mem t i &&& pagePresent = 0
  · rw [descend, pagingEnsureEntry_missing h]
    exact ⟨[_], withTable_fresh⟩
  · rw [descend_present h]
    exact ⟨[], rfl⟩

end Descend

/-! ### What mapping a page should do -/

/-- All entries made between `s` and `s'` lead to the tables they were made for. -/
def FreshLead (s s' : Paging) : Prop :=
  ∃ new, s'.fresh = new ++ s.fresh ∧ ∀ e ∈ new, tableOfEntry s.hhdmStart e.1 = e.2

/-- After `paging_map_page(p, pml4)` the walk reads back `p`, present and
writable, new entries lead to their tables, and no other page is affected. -/
structure MapsPage (s : Paging) (pml4 p : Word) : Prop where
  mapped : ∃ entry,
    walk (pagingMapPage p pml4 s).mem s.hhdmStart pml4 (p + s.hhdmStart) = some entry ∧
      entry &&& pageAddrMask = p ∧ entry &&& pageRw ≠ 0
  fresh : FreshLead s (pagingMapPage p pml4 s)
  others : ∀ v, pageIndices v ≠ pageIndices (p + s.hhdmStart) →
    walk (pagingMapPage p pml4 s).mem s.hhdmStart pml4 v = walk s.mem s.hhdmStart pml4 v

/-- The three upper entries on the way to the page are present. -/
def PathPresent (s : Paging) (pml4 v : Word) : Prop :=
  pageTableOf s.mem s.hhdmStart pml4 v ≠ none

/-- Of the three only the lowest is missing. -/
def OnlyLastMissing (s : Paging) (pml4 v : Word) : Prop :=
  ∃ pd, tableAt (pageRead s.mem) (pageChild s.hhdmStart) pml4 [indexAt v 39, indexAt v 30] = some pd ∧
    pageRead s.mem pd (indexAt v 21) &&& pagePresent = 0

/-- No table is missing, or just the page table, and the next free table is
physical page 0. -/
def MapCond (s : Paging) (pml4 p : Word) : Prop :=
  PathPresent s pml4 (p + s.hhdmStart) ∨
    OnlyLastMissing s pml4 (p + s.hhdmStart) ∧ s.currFreePageTable - s.hhdmStart = 0#64

section Necessary
variable {s s' : Paging} {pml4 t : Word} {i j : Fin 512} {bits : ℕ}

theorem physPage_0x1000 (hb : 13 ≤ bits) : PhysPage bits 0x1000#64 := by
  have hbit : ∀ i, (0x1000#64).getLsbD i = decide (i = 12) := by
    intro i
    by_cases hi : i < 64
    · have hall : ∀ i < 64, (0x1000#64).getLsbD i = decide (i = 12) := by decide
      exact hall i hi
    · rw [BitVec.getLsbD_of_ge _ _ (by omega), decide_eq_false (by omega)]
  refine ⟨fun i hi => ?_, fun i hi => ?_⟩
  · rw [hbit, decide_eq_false (by omega)]
  · rw [hbit, decide_eq_false (by omega)]

/-- An entry made between `s` and `s'` leads to its table. -/
theorem FreshLead.leads (hlead : FreshLead s s') {new mid : List (Word × Word)} {e : Word × Word}
    (hs' : s'.fresh = new ++ e :: (mid ++ s.fresh)) : tableOfEntry s.hhdmStart e.1 = e.2 := by
  obtain ⟨all, hall, hleads⟩ := hlead
  have happ : all ++ s.fresh = (new ++ e :: mid) ++ s.fresh := by
    rw [← hall, hs', List.append_assoc, List.cons_append]
  apply hleads
  rw [List.append_cancel_right happ]
  exact List.mem_append_right new List.mem_cons_self

/-- A new entry that leads to its table: the table is physical page 0. -/
theorem FreshLead.pool_zero (h : HoldsTables s pml4 bits) (ht : Aligned t)
    (hmiss : pageRead s.mem t i &&& pagePresent = 0) {new : List (Word × Word)}
    (hs' : s'.fresh = new ++ (descend t i s).2.fresh) (hlead : FreshLead s s') :
    s.currFreePageTable - s.hhdmStart = 0#64 := by
  rw [descend_missing ht h.pool_aligned hmiss, withTable_fresh, ← List.nil_append s.fresh] at hs'
  refine (tableOfEntry_freshEntry_iff h.pool h.window).1 ((hlead.leads hs').trans ?_)
  rw [BitVec.sub_add_cancel]

/-- Behind a table at physical page 0 that has just been made the next one is
made at page 0x1000. -/
theorem HoldsTables.descend_twice (h : HoldsTables s pml4 bits) {is : List (Fin 512)}
    (hlen : is.length ≤ 3)
    (ht : tableAt (pageRead s.mem) (pageChild s.hhdmStart) pml4 is = some t)
    (hmiss : pageRead s.mem t i &&& pagePresent = 0)
    (hzero : s.currFreePageTable - s.hhdmStart = 0#64) :
    (descend (descend t i s).1 j (descend t i s).2).2.fresh =
      (freshEntry 0x1000#64, 0x1000#64 + s.hhdmStart) :: (descend t i s).2.fresh := by
  have hal := tableAt_aligned h.hhdm_aligned h.root ht
  have hcurr : s.currFreePageTable = s.hhdmStart := by
    rw [h.pool_eq, hzero, BitVec.zero_or]
  have hd := descend_missing hal h.pool_aligned hmiss
  -- the first new table is the one that was zeroed, so its entry is missing too
  have hfirst : (descend t i s).1 = s.currFreePageTable := by
    rw [hd, hzero]
    refine ((tableOfEntry_freshEntry_iff (hzero ▸ h.pool) h.window).2 rfl).trans ?_
    rw [BitVec.zero_add, hcurr]
  have hne : s.currFreePageTable ≠ t := fun he => h.pool_unused is hlen (he ▸ ht)
  have hmiss₂ : pageRead (s.withTable t i).mem s.currFreePageTable j &&& pagePresent = 0 := by
    rw [pageRead_withTable hal h.pool_aligned h.pool_aligned, if_neg (fun hc => hne hc.1),
      if_pos rfl]
    rfl
  have hpage := physPage_0x1000 h.bits_ge
  have hnext : (s.withTable t i).currFreePageTable = 0x1000#64 + s.hhdmStart := by
    rw [withTable_currFreePageTable, hcurr, BitVec.add_comm]
  have hal₂ : Aligned (s.withTable t i).currFreePageTable := by
    rw [hnext, hpage.add_eq_or h.window]
    intro k hk
    rw [BitVec.getLsbD_or, hpage.1 k hk, h.hhdm_aligned k hk, Bool.false_or]
  rw [hfirst, hd, descend_missing h.pool_aligned hal₂ hmiss₂, withTable_fresh, hnext,
    withTable_hhdmStart, BitVec.add_sub_cancel]

/-- With an upper table missing two tables are made, and not both can be
physical page 0. -/
theorem FreshLead.not_upper_missing (h : HoldsTables s pml4 bits) {is : List (Fin 512)}
    (hlen : is.length ≤ 3)
    (ht : tableAt (pageRead s.mem) (pageChild s.hhdmStart) pml4 is = some t)
    (hmiss : pageRead s.mem t i &&& pagePresent = 0) {new : List (Word × Word)}
    (hs' : s'.fresh = new ++ (descend (descend t i s).1 j (descend t i s).2).2.fresh) :
    ¬FreshLead s s' := by
  intro hlead
  have hal := tableAt_aligned h.hhdm_aligned h.root ht
  obtain ⟨new₂, hnew₂⟩ := descend_fresh (descend t i s).1 j (descend t i s).2
  have hfront : s'.fresh = (new ++ new₂) ++ (descend t i s).2.fresh := by
    rw [hs', hnew₂, List.append_assoc]
  have hzero := hlead.pool_zero h hal hmiss hfront
  obtain ⟨mid, hmid⟩ := descend_fresh t i s
  rw [h.descend_twice hlen ht hmiss hzero, hmid] at hs'
  have hpage := physPage_0x1000 h.bits_ge
  exact absurd ((tableOfEntry_freshEntry_iff hpage h.window).1 (hlead.leads hs')) (by decide)

end Necessary

section MapPage
variable {s : Paging} {pml4 p : Word} {bits : ℕ}

theorem descend_child {t t' : Word} {i : Fin 512}
    (h : pageChild s.hhdmStart (pageRead s.mem t i) = some t') : descend t i s = (t', s) := by
  have ht' := pageChild_some h
  rw [pageChild] at h
  by_cases hp : pageRead s.mem t i &&& pagePresent = 0
  · rw [if_pos hp] at h
    exact absurd h.symm (Option.some_ne_none t')
  · rw [descend_present hp, ← ht']

/-- Either an upper table is missing, or only the page table is, or none. -/
theorem path_cases (s : Paging) (pml4 v : Word) :
    pageRead s.mem pml4 (indexAt v 39) &&& pagePresent = 0 ∨
      ∃ pdpt, pageChild s.hhdmStart (pageRead s.mem pml4 (indexAt v 39)) = some pdpt ∧
        (pageRead s.mem pdpt (indexAt v 30) &&& pagePresent = 0 ∨
          ∃ pd, pageChild s.hhdmStart (pageRead s.mem pdpt (indexAt v 30)) = some pd ∧
            (pageRead s.mem pd (indexAt v 21) &&& pagePresent = 0 ∨
              ∃ pt, pageChild s.hhdmStart (pageRead s.mem pd (indexAt v 21)) = some pt)) := by
  have hstep : ∀ e, e &&& pagePresent = 0 ∨ ∃ t, pageChild s.hhdmStart e = some t := fun e => by
    by_cases h : e &&& pagePresent = 0
    · exact Or.inl h
    · exact Or.inr ⟨_, if_neg h⟩
  obtain h | ⟨pdpt, h₁⟩ := hstep (pageRead s.mem pml4 (indexAt v 39))
  · exact Or.inl h
  · refine Or.inr ⟨pdpt, h₁, ?_⟩
    obtain h | ⟨pd, h₂⟩ := hstep (pageRead s.mem pdpt (indexAt v 30))
    · exact Or.inl h
    · exact Or.inr ⟨pd, h₂, hstep _⟩

/-- The state after the three descents, with the page table that they lead to. -/
def descendAll (s : Paging) (pml4 v : Word) : Word × Paging :=
  let d₁ := descend pml4 (indexAt v 39) s
  let d₂ := descend d₁.1 (indexAt v 30) d₁.2
  descend d₂.1 (indexAt v 21) d₂.2

theorem pagingMapPage_fresh : (pagingMapPage p pml4 s).fresh =
    (descendAll s pml4 (p + s.hhdmStart)).2.fresh := by
  rw [pagingMapPage_eq]
  rfl

theorem pagingMapPage_mem : (pagingMapPage p pml4 s).mem =
    setTableEntry (descendAll s pml4 (p + s.hhdmStart)).2.mem
      (descendAll s pml4 (p + s.hhdmStart)).1 (BitVec.ofNat 64 (indexAt (p + s.hhdmStart) 12))
      (leafEntry p) := by
  rw [pagingMapPage_eq]
  rfl

/-- The condition is necessary: else some new entry leads elsewhere. -/
theorem MapsPage.mapCond (h : HoldsTables s pml4 bits) (hm : MapsPage s pml4 p) :
    MapCond s pml4 p := by
  have hlead := hm.fresh
  have hfresh : (pagingMapPage p pml4 s).fresh = (descendAll s pml4 (p + s.hhdmStart)).2.fresh :=
    pagingMapPage_fresh
  rw [descendAll] at hfresh
  obtain hmiss | ⟨pdpt, h₁, hmiss | ⟨pd, h₂, hmiss | ⟨pt, h₃⟩⟩⟩ :=
    path_cases s pml4 (p + s.hhdmStart)
  · obtain ⟨new, hnew⟩ := descend_fresh _ _ _
    have hlen : ([] : List (Fin 512)).length ≤ 3 := by decide
    exact absurd hlead (FreshLead.not_upper_missing h hlen rfl hmiss (hfresh.trans hnew))
  · rw [descend_child h₁] at hfresh
    have hlen : [indexAt (p + s.hhdmStart) 39].length ≤ 3 := by simp
    exact absurd hlead (FreshLead.not_upper_missing h hlen (tableAt_cons h₁) hmiss
      (hfresh.trans (List.nil_append _).symm))
  · rw [descend_child h₁, descend_child h₂] at hfresh
    have hpath : tableAt (pageRead s.mem) (pageChild s.hhdmStart) pml4
        [indexAt (p + s.hhdmStart) 39, indexAt (p + s.hhdmStart) 30] = some pd := by
      rw [tableAt_cons h₁, tableAt_cons h₂]
      rfl
    have hal := tableAt_aligned h.hhdm_aligned h.root hpath
    exact Or.inr ⟨⟨pd, hpath, hmiss⟩,
      hlead.pool_zero h hal hmiss (hfresh.trans (List.nil_append _).symm)⟩
  · left
    rw [PathPresent, pageTableOf, upperPath, tableAt_cons h₁, tableAt_cons h₂, tableAt_cons h₃]
    exact Option.some_ne_none pt

end MapPage

/-! ### Writing the last entry -/

section Walk
variable {m : Mem} {hhdm pml4 v pt : Word}

theorem walk_of_table (h : pageTableOf m hhdm pml4 v = some pt) :
    walk m hhdm pml4 v = if pageRead m pt (indexAt v 12) &&& pagePresent = 0 then none
      else some (pageRead m pt (indexAt v 12)) := by
  rw [walk, h]

theorem walk_of_none (h : pageTableOf m hhdm pml4 v = none) : walk m hhdm pml4 v = none := by
  rw [walk, h]

variable (hh : Aligned hhdm) (hroot : Aligned pml4)
  (htree : TreeShaped (pageRead m) (pageChild hhdm) pml4 3)
  (hpt : pageTableOf m hhdm pml4 v = some pt)
include hh hroot htree hpt

/-- Overwriting an entry of a page table moves no table. -/
theorem tableAt_setLeaf (e : Word) {is : List (Fin 512)} (hlen : is.length ≤ 3) :
    tableAt (pageRead (setTableEntry m pt (BitVec.ofNat 64 (indexAt v 12)) e)) (pageChild hhdm)
      pml4 is = tableAt (pageRead m) (pageChild hhdm) pml4 is := by
  have hup : (upperPath v).length ≤ 3 := le_refl 3
  have hread : ∀ ks t k, tableAt (pageRead m) (pageChild hhdm) pml4 ks = some t →
      ¬(t = pt ∧ k = indexAt v 12) →
        pageRead (setTableEntry m pt (BitVec.ofNat 64 (indexAt v 12)) e) t k = pageRead m t k :=
    fun ks t k hks hne => by
      rw [pageRead_setTableEntry (tableAt_aligned hh hroot hks) (tableAt_aligned hh hroot hpt),
        if_neg hne]
  have hnot : ¬upperPath v ++ [indexAt v 12] <+: is := by
    intro hpre
    have hle := hpre.length_le
    have h4 : (upperPath v ++ [indexAt v 12]).length = 4 := rfl
    omega
  exact htree.tableAt_write hpt hup hread (by omega) hnot

theorem walk_setLeaf_self {e : Word} (he : e &&& pagePresent ≠ 0) :
    walk (setTableEntry m pt (BitVec.ofNat 64 (indexAt v 12)) e) hhdm pml4 v = some e := by
  have hal := tableAt_aligned hh hroot hpt
  have hread : pageRead (setTableEntry m pt (BitVec.ofNat 64 (indexAt v 12)) e) pt (indexAt v 12) =
      e := by
    rw [pageRead_setTableEntry hal hal, if_pos ⟨rfl, rfl⟩]
  have hup : (upperPath v).length ≤ 3 := le_refl 3
  rw [walk_of_table ((tableAt_setLeaf hh hroot htree hpt e hup).trans hpt), hread, if_neg he]

theorem walk_setLeaf_other (e : Word) {w : Word} (hw : pageIndices w ≠ pageIndices v) :
    walk (setTableEntry m pt (BitVec.ofNat 64 (indexAt v 12)) e) hhdm pml4 w =
      walk m hhdm pml4 w := by
  have hup : (upperPath w).length ≤ 3 := le_refl 3
  have htab := tableAt_setLeaf hh hroot htree hpt e hup
  cases hpw : pageTableOf m hhdm pml4 w with
  | none => rw [walk_of_none hpw, walk_of_none (htab.trans hpw)]
  | some pt' =>
    have hread : pageRead (setTableEntry m pt (BitVec.ofNat 64 (indexAt v 12)) e) pt'
        (indexAt w 12) = pageRead m pt' (indexAt w 12) := by
      rw [pageRead_setTableEntry (tableAt_aligned hh hroot hpw) (tableAt_aligned hh hroot hpt),
        if_neg]
      rintro ⟨rfl, hi⟩
      have hpath : upperPath w = upperPath v := htree _ _ pt' hup (le_refl 3) hpw hpt
      exact hw (by rw [pageIndices, pageIndices, hpath, hi])
    rw [walk_of_table hpw, walk_of_table (htab.trans hpw), hread]

end Walk

/-! ### A new page table in physical page 0 -/

section NewTable
variable {s : Paging} {pml4 v pd : Word} {bits : ℕ}
  (h : HoldsTables s pml4 bits)
  (hpd : tableAt (pageRead s.mem) (pageChild s.hhdmStart) pml4 [indexAt v 39, indexAt v 30] = some pd)
  (hmiss : pageRead s.mem pd (indexAt v 21) &&& pagePresent = 0)
include h hpd

/-- The entry that is made is read on the path to its page table only. -/
theorem pageRead_newTable {ks : List (Fin 512)} {t : Word} {k : Fin 512} (hlen : ks.length ≤ 3)
    (hks : tableAt (pageRead s.mem) (pageChild s.hhdmStart) pml4 ks = some t)
    (hne : ks ++ [k] ≠ upperPath v) :
    pageRead (s.withTable pd (indexAt v 21)).mem t k = pageRead s.mem t k := by
  have hal := tableAt_aligned h.hhdm_aligned h.root hks
  have hal₀ := tableAt_aligned h.hhdm_aligned h.root hpd
  have hpath : ¬(t = pd ∧ k = indexAt v 21) := by
    rintro ⟨rfl, rfl⟩
    have hlen₀ : [indexAt v 39, indexAt v 30].length ≤ 3 := by simp
    obtain rfl := h.tree _ _ t hlen hlen₀ hks hpd
    exact hne rfl
  have hcurr : t ≠ s.currFreePageTable := fun he => h.pool_unused ks hlen (he ▸ hks)
  rw [pageRead_withTable hal₀ h.pool_aligned hal, if_neg hpath, if_neg hcurr]

theorem tableAt_newTable_of_ne {is : List (Fin 512)} (hlen : is.length ≤ 3)
    (hne : is ≠ upperPath v) :
    tableAt (pageRead (s.withTable pd (indexAt v 21)).mem) (pageChild s.hhdmStart) pml4 is =
      tableAt (pageRead s.mem) (pageChild s.hhdmStart) pml4 is := by
  refine tableAt_congr fun ks k t hpre hks => ?_
  have hle := hpre.length_le
  rw [List.length_append, List.length_singleton] at hle
  refine pageRead_newTable h hpd (by omega) hks fun he => hne ?_
  have hup : (upperPath v).length = 3 := rfl
  exact (he ▸ hpre.eq_of_length (by rw [he]; have := he ▸ hpre.length_le; omega)).symm

theorem tableAt_newTable_above :
    tableAt (pageRead (s.withTable pd (indexAt v 21)).mem) (pageChild s.hhdmStart) pml4
      [indexAt v 39, indexAt v 30] = some pd := by
  have hlen : [indexAt v 39, indexAt v 30].length ≤ 3 := by simp
  have hne : [indexAt v 39, indexAt v 30] ≠ upperPath v := fun he => by
    have hl := congrArg List.length he
    simp [upperPath] at hl
  rw [tableAt_newTable_of_ne h hpd hlen hne, hpd]

include hmiss

omit h in
theorem pageTableOf_of_missing : pageTableOf s.mem s.hhdmStart pml4 v = none := by
  have hsplit : upperPath v = [indexAt v 39, indexAt v 30] ++ [indexAt v 21] := rfl
  have hnone : pageChild s.hhdmStart (pageRead s.mem pd (indexAt v 21)) = none := if_pos hmiss
  rw [pageTableOf, hsplit, tableAt_append hpd, tableAt_cons_none hnone]

variable (hzero : s.currFreePageTable - s.hhdmStart = 0#64)
include hzero

omit hpd hmiss in
theorem tableOfEntry_newTable :
    tableOfEntry s.hhdmStart (freshEntry (s.currFreePageTable - s.hhdmStart)) =
      s.currFreePageTable := by
  rw [(tableOfEntry_freshEntry_iff h.pool h.window).2 hzero, BitVec.sub_add_cancel]

omit hmiss in
/-- The new entry leads to the table that has just been zeroed. -/
theorem pageTableOf_newTable :
    pageTableOf (s.withTable pd (indexAt v 21)).mem s.hhdmStart pml4 v =
      some s.currFreePageTable := by
  have hal := tableAt_aligned h.hhdm_aligned h.root hpd
  have hsplit : upperPath v = [indexAt v 39, indexAt v 30] ++ [indexAt v 21] := rfl
  have hread : pageChild s.hhdmStart (pageRead (s.withTable pd (indexAt v 21)).mem pd
      (indexAt v 21)) = some s.currFreePageTable := by
    rw [pageRead_withTable hal h.pool_aligned hal, if_pos ⟨rfl, rfl⟩, pageChild,
      if_neg (freshEntry_present _), tableOfEntry_newTable h hzero]
  rw [pageTableOf, hsplit, tableAt_append (tableAt_newTable_above h hpd), tableAt_cons hread,
    tableAt]

omit hmiss in
theorem treeShaped_newTable :
    TreeShaped (pageRead (s.withTable pd (indexAt v 21)).mem) (pageChild s.hhdmStart) pml4 3 := by
  have hnew := pageTableOf_newTable h hpd hzero
  rw [pageTableOf] at hnew
  intro is js t hi hj hti htj
  by_cases his : is = upperPath v
  · by_cases hjs : js = upperPath v
    · exact his.trans hjs.symm
    · rw [tableAt_newTable_of_ne h hpd hj hjs] at htj
      rw [his, hnew] at hti
      exact absurd (Option.some_inj.1 hti ▸ htj) (h.pool_unused js hj)
  · rw [tableAt_newTable_of_ne h hpd hi his] at hti
    by_cases hjs : js = upperPath v
    · rw [hjs, hnew] at htj
      exact absurd (Option.some_inj.1 htj ▸ hti) (h.pool_unused is hi)
    · rw [tableAt_newTable_of_ne h hpd hj hjs] at htj
      exact h.tree is js t hi hj hti htj

/-- An empty page table maps nothing, as its absence did. -/
theorem walk_newTable (w : Word) :
    walk (s.withTable pd (indexAt v 21)).mem s.hhdmStart pml4 w = walk s.mem s.hhdmStart pml4 w := by
  by_cases hw : upperPath w = upperPath v
  · have hnew : pageTableOf (s.withTable pd (indexAt v 21)).mem s.hhdmStart pml4 w =
        some s.currFreePageTable := by
      rw [pageTableOf, hw]
      exact pageTableOf_newTable h hpd hzero
    have hold : pageTableOf s.mem s.hhdmStart pml4 w = none := by
      rw [pageTableOf, hw]
      exact pageTableOf_of_missing hpd hmiss
    have hal := tableAt_aligned h.hhdm_aligned h.root hpd
    have hne : s.currFreePageTable ≠ pd := fun he =>
      h.pool_unused [indexAt v 39, indexAt v 30] (by simp) (he ▸ hpd)
    have hread : pageRead (s.withTable pd (indexAt v 21)).mem s.currFreePageTable (indexAt w 12) =
        0#64 := by
      rw [pageRead_withTable hal h.pool_aligned h.pool_aligned, if_neg (fun hc => hne hc.1),
        if_pos rfl]
    have hzero' : 0#64 &&& pagePresent = 0 := by decide
    rw [walk_of_table hnew, walk_of_none hold, hread, if_pos hzero']
  · have hup : (upperPath w).length ≤ 3 := le_refl 3
    have htab := tableAt_newTable_of_ne h hpd hup hw
    cases hpw : pageTableOf s.mem s.hhdmStart pml4 w with
    | none => rw [walk_of_none hpw, walk_of_none (htab.trans hpw)]
    | some pt =>
      have hne : upperPath w ++ [indexAt w 12] ≠ upperPath v := fun he => by
        have hl := congrArg List.length he
        simp [upperPath] at hl
      rw [walk_of_table hpw, walk_of_table (htab.trans hpw),
        pageRead_newTable h hpd hup hpw hne]

end NewTable

/-! ### The exact condition -/

section Exact
variable {s s₁ : Paging} {pml4 p pt : Word} {bits : ℕ}

/-- When the descents end in a tree of tables that walks like the one before,
the last write maps the page. -/
theorem mapsPage_of_descendAll (h : HoldsTables s pml4 bits) (hp : PhysPage bits p)
    (hd : descendAll s pml4 (p + s.hhdmStart) = (pt, s₁))
    (hpt : pageTableOf s₁.mem s.hhdmStart pml4 (p + s.hhdmStart) = some pt)
    (htree : TreeShaped (pageRead s₁.mem) (pageChild s.hhdmStart) pml4 3)
    (hwalk : ∀ w, walk s₁.mem s.hhdmStart pml4 w = walk s.mem s.hhdmStart pml4 w)
    (hlead : FreshLead s s₁) : MapsPage s pml4 p := by
  have hmem : (pagingMapPage p pml4 s).mem = setTableEntry s₁.mem pt
      (BitVec.ofNat 64 (indexAt (p + s.hhdmStart) 12)) (leafEntry p) := by
    rw [pagingMapPage_mem, hd]
  have hfresh : (pagingMapPage p pml4 s).fresh = s₁.fresh := by
    rw [pagingMapPage_fresh, hd]
  refine ⟨⟨leafEntry p, ?_, leafEntry_addr hp h.bits_le, leafEntry_rw p⟩, ?_, fun w hw => ?_⟩
  · rw [hmem]
    exact walk_setLeaf_self h.hhdm_aligned h.root htree hpt (leafEntry_present p)
  · obtain ⟨new, hnew, hleads⟩ := hlead
    exact ⟨new, hfresh.trans hnew, hleads⟩
  · rw [hmem, walk_setLeaf_other h.hhdm_aligned h.root htree hpt (leafEntry p) hw, hwalk w]

theorem descendAll_present (hpt : pageTableOf s.mem s.hhdmStart pml4 (p + s.hhdmStart) = some pt) :
    descendAll s pml4 (p + s.hhdmStart) = (pt, s) := by
  obtain ⟨pdpt, h₁, hpt⟩ := exists_of_tableAt_cons hpt
  obtain ⟨pd, h₂, hpt⟩ := exists_of_tableAt_cons hpt
  obtain ⟨pt', h₃, hpt⟩ := exists_of_tableAt_cons hpt
  rw [tableAt, Option.some_inj] at hpt
  rw [descendAll, descend_child h₁, descend_child h₂, descend_child h₃, hpt]

/-- With only the page table missing, it is made in the directory. -/
theorem descendAll_lastMissing {pd v : Word} (hal : Aligned pd) (hc : Aligned s.currFreePageTable)
    (hpd : tableAt (pageRead s.mem) (pageChild s.hhdmStart) pml4 [indexAt v 39, indexAt v 30] =
      some pd) (hmiss : pageRead s.mem pd (indexAt v 21) &&& pagePresent = 0) :
    descendAll s pml4 v = (tableOfEntry s.hhdmStart (freshEntry (s.currFreePageTable - s.hhdmStart)),
      s.withTable pd (indexAt v 21)) := by
  obtain ⟨pdpt, h₁, hpd⟩ := exists_of_tableAt_cons hpd
  obtain ⟨pd', h₂, hpd⟩ := exists_of_tableAt_cons hpd
  rw [tableAt, Option.some_inj] at hpd
  rw [descendAll, descend_child h₁, descend_child h₂, hpd, descend_missing hal hc hmiss]

theorem mapsPage_of_present (h : HoldsTables s pml4 bits) (hp : PhysPage bits p)
    (hpath : PathPresent s pml4 (p + s.hhdmStart)) : MapsPage s pml4 p := by
  obtain ⟨pt, hpt⟩ := Option.ne_none_iff_exists'.1 hpath
  have hlead : FreshLead s s := ⟨[], rfl, fun e he => absurd he List.not_mem_nil⟩
  exact mapsPage_of_descendAll h hp (descendAll_present hpt) hpt h.tree (fun w => rfl) hlead

theorem mapsPage_of_lastMissing (h : HoldsTables s pml4 bits) (hp : PhysPage bits p)
    (hlast : OnlyLastMissing s pml4 (p + s.hhdmStart))
    (hzero : s.currFreePageTable - s.hhdmStart = 0#64) : MapsPage s pml4 p := by
  obtain ⟨pd, hpd, hmiss⟩ := hlast
  have hd : descendAll s pml4 (p + s.hhdmStart) =
      (s.currFreePageTable, s.withTable pd (indexAt (p + s.hhdmStart) 21)) := by
    have hal := tableAt_aligned h.hhdm_aligned h.root hpd
    rw [descendAll_lastMissing hal h.pool_aligned hpd hmiss, tableOfEntry_newTable h hzero]
  have hlead : FreshLead s (s.withTable pd (indexAt (p + s.hhdmStart) 21)) := by
    refine ⟨[(freshEntry (s.currFreePageTable - s.hhdmStart), s.currFreePageTable)],
      withTable_fresh, fun e he => ?_⟩
    rw [List.mem_singleton.1 he]
    exact tableOfEntry_newTable h hzero
  exact mapsPage_of_descendAll h hp hd (pageTableOf_newTable h hpd hzero)
    (treeShaped_newTable h hpd hzero) (walk_newTable h hpd hmiss hzero) hlead

/-- **Mapping a page is what the walk reads back** exactly when no upper table
has to be made, or only the page table, in physical page 0. -/
theorem mapsPage_iff (h : HoldsTables s pml4 bits) (hp : PhysPage bits p) :
    MapsPage s pml4 p ↔ MapCond s pml4 p := by
  constructor
  · exact MapsPage.mapCond h
  · rintro (hpath | ⟨hlast, hzero⟩)
    · exact mapsPage_of_present h hp hpath
    · exact mapsPage_of_lastMissing h hp hlast hzero

end Exact

/-! ### Two tables -/

theorem physPage_of_toNat {bits : ℕ} {p : Word} (h12 : p.toNat % 4096 = 0)
    (hlt : p.toNat < 2 ^ bits) : PhysPage bits p := by
  refine ⟨fun i hi => ?_, fun i hi => ?_⟩
  · have hpow : (4096 : ℕ) = 2 ^ 12 := by decide
    have hbit : (p.toNat % 2 ^ 12).testBit i = false := by rw [← hpow, h12, Nat.zero_testBit]
    rw [Nat.testBit_mod_two_pow, decide_eq_true hi, Bool.true_and] at hbit
    exact hbit
  · exact Nat.testBit_lt_two_pow (hlt.trans_le (Nat.pow_le_pow_right Nat.two_pos hi))

/-- An empty top-level table, and a pool at physical address `0x200000`. -/
def noTables : Paging where
  hhdmStart := 0xFFFF800000000000#64
  pages := fun _ => 0xFFFFFFFFFFFFFFFF#64
  physPageBase := 0x1000000#64
  kernelPml4 := 0xFFFF800000001000#64
  presentPageCount := 2560
  currFreePageTable := 0xFFFF800000200000#64
  mem := fun _ => 0
  fresh := []

theorem noTables_window : WindowBase 40 noTables.hhdmStart := by
  have hall : ∀ i < 40, (0xFFFF800000000000#64).getLsbD i = false := by decide
  exact hall

theorem noTables_read (t : Word) (i : Fin 512) : pageRead noTables.mem t i = 0#64 :=
  congrArg (BitVec.ofNat 64) (loadLE_eq_zero fun _ _ _ => rfl)

theorem noTables_tableAt {is : List (Fin 512)} {t : Word}
    (h : tableAt (pageRead noTables.mem) (pageChild noTables.hhdmStart) noTables.kernelPml4 is =
      some t) : is = [] ∧ t = noTables.kernelPml4 := by
  cases is with
  | nil => exact ⟨rfl, (Option.some_inj.1 h).symm⟩
  | cons i is =>
    obtain ⟨t', hc, _⟩ := exists_of_tableAt_cons h
    rw [noTables_read, pageChild, if_pos (by decide)] at hc
    exact absurd hc.symm (Option.some_ne_none t')

theorem noTables_holds : HoldsTables noTables noTables.kernelPml4 40 where
  bits_ge := by decide
  bits_le := by decide
  window := noTables_window
  root := by
    have hall : ∀ i < 12, (0xFFFF800000001000#64).getLsbD i = false := by decide
    exact hall
  tree := fun is js t _ _ hi hj => by rw [(noTables_tableAt hi).1, (noTables_tableAt hj).1]
  pool := physPage_of_toNat (by decide) (by decide)
  pool_unused := fun is _ h => absurd (noTables_tableAt h).2 (by decide)

/-- The first page mapped below an empty top-level table. -/
theorem mapsPage_fails : ¬∀ (s : Paging) (pml4 p : Word) (bits : ℕ), HoldsTables s pml4 bits →
    PhysPage bits p → MapsPage s pml4 p := by
  intro h
  have hp : PhysPage 40 0x1000000#64 := physPage_of_toNat (by decide) (by decide)
  have hcond := (h noTables _ _ 40 noTables_holds hp).mapCond noTables_holds
  have hnone : ∀ i is, tableAt (pageRead noTables.mem) (pageChild noTables.hhdmStart)
      noTables.kernelPml4 (i :: is) = none := fun i is =>
    tableAt_cons_none (by rw [noTables_read, pageChild, if_pos (by decide)])
  rcases hcond with hpath | ⟨⟨pd, hpd, _⟩, _⟩
  · exact hpath (hnone _ _)
  · rw [hnone] at hpd
    exact absurd hpd.symm (Option.some_ne_none pd)

/-- The tables of a single path, in the pages from `0x1000` on. -/
def onePathTable (n : ℕ) : Word := 0xFFFF800000001000#64 + 0x1000#64 * BitVec.ofNat 64 n

/-- Tables on the path with the indices 256, 0 and 8 and nowhere else. -/
def onePath : Paging :=
  { noTables with
    mem := setTableEntry (setTableEntry (setTableEntry noTables.mem
      (onePathTable 2) (BitVec.ofNat 64 (8 : Fin 512)) (leafEntry 0x4000#64))
      (onePathTable 1) (BitVec.ofNat 64 (0 : Fin 512)) (leafEntry 0x3000#64))
      (onePathTable 0) (BitVec.ofNat 64 (256 : Fin 512)) (leafEntry 0x2000#64) }

theorem onePathTable_aligned {n : ℕ} (hn : n ≤ 3) : Aligned (onePathTable n) := by
  have hall : ∀ n ≤ 3, (onePathTable n).toNat % 4096 = 0 := by decide
  exact (physPage_of_toNat (hall n hn) (onePathTable n).isLt).1

theorem onePathTable_eq_iff {m n : ℕ} (hm : m ≤ 3) (hn : n ≤ 3) :
    onePathTable m = onePathTable n ↔ m = n := by
  have hall : ∀ m ≤ 3, ∀ n ≤ 3, onePathTable m = onePathTable n → m = n := by decide
  exact ⟨hall m hm n hn, congrArg onePathTable⟩

theorem onePath_child {n : ℕ} (hn : n ≤ 3) {t : Word} {i : Fin 512}
    (h : pageChild onePath.hhdmStart (pageRead onePath.mem (onePathTable n) i) = some t) :
    ((n = 0 ∧ i = 256) ∨ (n = 1 ∧ i = 0) ∨ (n = 2 ∧ i = 8)) ∧ t = onePathTable (n + 1) := by
  have hal := onePathTable_aligned hn
  have hread : pageRead onePath.mem (onePathTable n) i =
      if n = 0 ∧ i = 256 then leafEntry 0x2000#64 else if n = 1 ∧ i = 0 then leafEntry 0x3000#64
      else if n = 2 ∧ i = 8 then leafEntry 0x4000#64 else 0#64 := by
    rw [onePath, pageRead_setTableEntry hal (onePathTable_aligned (by decide)),
      pageRead_setTableEntry hal (onePathTable_aligned (by decide)),
      pageRead_setTableEntry hal (onePathTable_aligned (by decide)), noTables_read]
    simp only [onePathTable_eq_iff hn (show 0 ≤ 3 by decide),
      onePathTable_eq_iff hn (show 1 ≤ 3 by decide), onePathTable_eq_iff hn (show 2 ≤ 3 by decide)]
  rw [hread] at h
  by_cases h₀ : n = 0 ∧ i = 256
  · rw [if_pos h₀] at h
    obtain ⟨rfl, rfl⟩ := h₀
    exact ⟨Or.inl ⟨rfl, rfl⟩, (pageChild_some h).trans (by decide)⟩
  · by_cases h₁ : n = 1 ∧ i = 0
    · rw [if_neg h₀, if_pos h₁] at h
      obtain ⟨rfl, rfl⟩ := h₁
      exact ⟨Or.inr (Or.inl ⟨rfl, rfl⟩), (pageChild_some h).trans (by decide)⟩
    · by_cases h₂ : n = 2 ∧ i = 8
      · rw [if_neg h₀, if_neg h₁, if_pos h₂] at h
        obtain ⟨rfl, rfl⟩ := h₂
        exact ⟨Or.inr (Or.inr ⟨rfl, rfl⟩), (pageChild_some h).trans (by decide)⟩
      · rw [if_neg h₀, if_neg h₁, if_neg h₂, pageChild, if_pos (by decide)] at h
        exact absurd h.symm (Option.some_ne_none t)

theorem onePath_tableAt {is : List (Fin 512)} {n : ℕ} (hn : n ≤ 3) {t : Word}
    (h : tableAt (pageRead onePath.mem) (pageChild onePath.hhdmStart) (onePathTable n) is =
      some t) : is <+: List.drop n [256, 0, 8] ∧ t = onePathTable (n + is.length) := by
  induction is generalizing n with
  | nil => exact ⟨List.nil_prefix, (Option.some_inj.1 h).symm⟩
  | cons i is ih =>
    obtain ⟨t', hc, h⟩ := exists_of_tableAt_cons h
    obtain ⟨hpos, rfl⟩ := onePath_child hn hc
    have hn' : n + 1 ≤ 3 := by omega
    obtain ⟨hpre, rfl⟩ := ih hn' h
    rw [List.length_cons, Nat.add_right_comm, Nat.add_assoc]
    refine ⟨?_, rfl⟩
    rcases hpos with ⟨rfl, rfl⟩ | ⟨rfl, rfl⟩ | ⟨rfl, rfl⟩
    · exact (List.prefix_cons_inj 256).2 hpre
    · exact (List.prefix_cons_inj 0).2 hpre
    · exact (List.prefix_cons_inj 8).2 hpre

theorem onePath_holds : HoldsTables onePath onePath.kernelPml4 40 where
  bits_ge := by decide
  bits_le := by decide
  window := noTables_window
  root := onePathTable_aligned (Nat.zero_le 3)
  tree := fun is js t hi hj hti htj => by
    have hroot : onePath.kernelPml4 = onePathTable 0 := by decide
    rw [hroot] at hti htj
    obtain ⟨hpi, rfl⟩ := onePath_tableAt (Nat.zero_le 3) hti
    obtain ⟨hpj, he⟩ := onePath_tableAt (Nat.zero_le 3) htj
    have hlen : is.length = js.length := by
      rw [Nat.zero_add, Nat.zero_add] at he
      exact (onePathTable_eq_iff hi hj).1 he
    exact (List.prefix_of_prefix_length_le hpi hpj hlen.le).eq_of_length hlen
  pool := physPage_of_toNat (by decide) (by decide)
  pool_unused := fun is hlen h => by
    have hroot : onePath.kernelPml4 = onePathTable 0 := by decide
    rw [hroot] at h
    have hall : ∀ n ≤ 3, onePath.currFreePageTable ≠ onePathTable (0 + n) := by decide
    exact hall _ hlen (onePath_tableAt (Nat.zero_le 3) h).2

theorem mapsPage_iff_onePath : MapsPage onePath onePath.kernelPml4 0x1000000#64 := by
  have hpath : pageTableOf onePath.mem onePath.hhdmStart onePath.kernelPml4
      (0x1000000#64 + onePath.hhdmStart) = some (onePathTable 3) := by decide +kernel
  have hcond : PathPresent onePath onePath.kernelPml4 (0x1000000#64 + onePath.hhdmStart) := by
    rw [PathPresent, hpath]
    exact Option.some_ne_none _
  exact (mapsPage_iff onePath_holds (physPage_of_toNat (by decide) (by decide))).2 (Or.inl hcond)

end Ssos
