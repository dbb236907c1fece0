import Ssos.Mem.FrameScan
import Ssos.Mem.PageTables

/-!
# What an allocation maps

`paging_alloc_pages` calls `paging_map_page` once for each frame of 2 MiB, and
one call maps 4 KiB. The other 511 pages of a frame are mapped only when they
were before.

## Main results

- `markPages_entries` — the entries written by the marking loop
- `framesMapped_iff` — exactly when the memory handed out is mapped throughout
-/

namespace Ssos

open ByteMemory RunScan RadixTable

/-! ### The entries on a path -/

/-- Entry `k` of the table `t` is one of the upper three on the way to `v`. -/
def OnPath (m : Mem) (hhdm pml4 v t : Word) (k : Fin 512) : Prop :=
  ∃ ks, ks ++ [k] <+: upperPath v ∧ tableAt (pageRead m) (pageChild hhdm) pml4 ks = some t

section Path
variable {m m' : Mem} {hhdm pml4 v t : Word} {k : Fin 512}

theorem OnPath.aligned (hh : Aligned hhdm) (hroot : Aligned pml4) (h : OnPath m hhdm pml4 v t k) :
    Aligned t := by
  obtain ⟨ks, _, hks⟩ := h
  exact tableAt_aligned hh hroot hks

variable (hagree : ∀ t k, OnPath m hhdm pml4 v t k → pageRead m' t k = pageRead m t k)
include hagree

theorem tableAt_of_agree {ks : List (Fin 512)} (hks : ks <+: upperPath v) :
    tableAt (pageRead m') (pageChild hhdm) pml4 ks = tableAt (pageRead m) (pageChild hhdm) pml4 ks :=
  tableAt_congr fun is k t hpre ht => hagree t k ⟨is, hpre.trans hks, ht⟩

theorem pageTableOf_of_agree : pageTableOf m' hhdm pml4 v = pageTableOf m hhdm pml4 v :=
  tableAt_of_agree hagree (List.prefix_refl (upperPath v))

theorem onPath_of_agree : OnPath m' hhdm pml4 v t k ↔ OnPath m hhdm pml4 v t k := by
  refine exists_congr fun ks => and_congr_right fun hks => ?_
  rw [tableAt_of_agree hagree ((List.prefix_append ks [k]).trans hks)]

end Path

/-! ### The marking loop -/

/-- Virtual address of frame `i`. -/
def frameVirt (s : Paging) (i : ℕ) : Word := pageAddr s i + s.hhdmStart

/-- Index of the entry in its page table that maps frame `i`. -/
def frameSlot (s : Paging) (i : ℕ) : Fin 512 := indexAt (frameVirt s i) 12

section Mark
variable {s : Paging} {bits : ℕ}

/-- Mapping a frame whose tables are present writes one entry. -/
theorem pagingMapPage_present {p pt : Word}
    (hpt : pageTableOf s.mem s.hhdmStart s.kernelPml4 (p + s.hhdmStart) = some pt) :
    (pagingMapPage p s.kernelPml4 s).mem = setTableEntry s.mem pt
      (BitVec.ofNat 64 (indexAt (p + s.hhdmStart) 12)) (leafEntry p) := by
  rw [pagingMapPage_mem, descendAll_present hpt]

/-- **The entries that the marking loop writes** when the tables of all frames
are present, and none of the entries written is on the way to another frame. -/
theorem markPages_entries (count : ℕ) {k : ℕ} (s : Paging) (hk : k + count ≤ 2 ^ 43)
    (hh : Aligned s.hhdmStart) (hroot : Aligned s.kernelPml4) (pt : ℕ → Word)
    (hpt : ∀ i, k ≤ i → i < k + count →
      pageTableOf s.mem s.hhdmStart s.kernelPml4 (frameVirt s i) = some (pt i))
    (hapart : ∀ i, k ≤ i → i < k + count → ∀ j, k ≤ j → j < k + count →
      ¬OnPath s.mem s.hhdmStart s.kernelPml4 (frameVirt s j) (pt i) (frameSlot s i)) :
    (∀ t e, Aligned t → (∀ i, k ≤ i → i < k + count → ¬(t = pt i ∧ e = frameSlot s i)) →
      pageRead (markPages count (pageAddr s k) s).mem t e = pageRead s.mem t e) ∧
    ∀ i, k ≤ i → i < k + count →
      (∀ j, k ≤ j → j < k + count → pt j = pt i → frameSlot s j = frameSlot s i → j = i) →
      pageRead (markPages count (pageAddr s k) s).mem (pt i) (frameSlot s i) =
        leafEntry (pageAddr s i) := by
  induction count generalizing k s with
  | zero => exact ⟨fun t e _ _ => rfl, fun i hi hlt => absurd hlt (by omega)⟩
  | succ count ih =>
    have hptk := hpt k le_rfl (by omega)
    have hal : ∀ i, k ≤ i → i < k + (count + 1) → Aligned (pt i) := fun i hi hlt =>
      tableAt_aligned hh hroot (hpt i hi hlt)
    have hstat := markPage_frame (pageAddr s k) s
    have hmem : (markPage (pageAddr s k) s).mem = setTableEntry s.mem (pt k)
        (BitVec.ofNat 64 (frameSlot s k)) (leafEntry (pageAddr s k)) := pagingMapPage_present hptk
    rw [markPages_cons, pageAddr_succ]
    generalize markPage (pageAddr s k) s = s' at hstat hmem ⊢
    have hvirt : ∀ i, frameVirt s' i = frameVirt s i := fun i => by
      rw [frameVirt, frameVirt, hstat.pageAddr_eq, hstat.hhdmStart]
    have hslot : ∀ i, frameSlot s' i = frameSlot s i := fun i => by
      rw [frameSlot, frameSlot, hvirt]
    have hwrite : ∀ t e, Aligned t → ¬(t = pt k ∧ e = frameSlot s k) →
        pageRead s'.mem t e = pageRead s.mem t e := fun t e ht hne => by
      rw [hmem, pageRead_setTableEntry ht (hal k le_rfl (by omega)), if_neg hne]
    -- frame `k` is written in a slot on no path, so the paths of all frames survive
    have hagree : ∀ i, k ≤ i → i < k + (count + 1) → ∀ t e,
        OnPath s.mem s.hhdmStart s.kernelPml4 (frameVirt s i) t e →
          pageRead s'.mem t e = pageRead s.mem t e := by
      intro i hi hlt t e he
      refine hwrite t e (he.aligned hh hroot) ?_
      rintro ⟨rfl, rfl⟩
      exact hapart k le_rfl (by omega) i hi hlt he
    have hih := ih (k := k + 1) s' (by omega) (hstat.hhdmStart ▸ hh) (hstat.kernelPml4 ▸ hroot)
    simp only [hvirt, hslot, hstat.hhdmStart, hstat.kernelPml4, hstat.pageAddr_eq] at hih
    obtain ⟨hother, hself⟩ := hih
      (fun i hi hlt => by
        rw [pageTableOf_of_agree (hagree i (by omega) (by omega))]
        exact hpt i (by omega) (by omega))
      (fun i hi hlt j hj hltj => by
        rw [onPath_of_agree (hagree j (by omega) (by omega))]
        exact hapart i (by omega) (by omega) j (by omega) (by omega))
    constructor
    · intro t e ht hne
      rw [hother t e ht fun i hi hlt => hne i (by omega) (by omega)]
      exact hwrite t e ht (hne k le_rfl (by omega))
    · intro i hi hlt hdist
      by_cases hik : i = k
      · subst hik
        rw [hother (pt i) (frameSlot s i) (hal i le_rfl hlt), hmem,
          pageRead_setTableEntry (hal i le_rfl hlt) (hal i le_rfl hlt), if_pos ⟨rfl, rfl⟩]
        rintro j hj hltj ⟨h₁, h₂⟩
        have := hdist j (by omega) (by omega) h₁.symm h₂.symm
        omega
      · exact hself i (by omega) (by omega) fun j hj hltj => hdist j (by omega) (by omega)

end Mark

/-! ### The 4 KiB pages of a run -/

/-- Physical address of the `n`-th page of 4 KiB of the run that starts with
frame `k`. -/
def runPage (s : Paging) (k n : ℕ) : Word := pageAddr s k + BitVec.ofNat 64 n * 0x1000#64

/-- Its virtual address. -/
def runVirt (s : Paging) (k n : ℕ) : Word := runPage s k n + s.hhdmStart

/-- The managed frames lie in the physical memory of `bits` address bits, which
is read through the window. -/
structure Managed (s : Paging) (bits : ℕ) : Prop where
  bits_ge : 12 ≤ bits
  bits_le : bits ≤ 52
  window : WindowBase bits s.hhdmStart
  root : Aligned s.kernelPml4
  base : s.physPageBase.toNat % 4096 = 0
  room : s.physPageBase.toNat + maxPages * 0x200000 ≤ 2 ^ bits

/-- The walk from `v` is writable at the upper levels. -/
def UpperWritable (s : Paging) (v : Word) : Prop :=
  ∀ t k, OnPath s.mem s.hhdmStart s.kernelPml4 v t k → pageRead s.mem t k &&& pageRw ≠ 0

/-- The byte at `x` is present and writable, and its address is translated to
the one that the window stands for. -/
def Translates (s : Paging) (x : Word) : Prop :=
  UpperWritable s x ∧ ∃ entry, walk s.mem s.hhdmStart s.kernelPml4 x = some entry ∧
    entry &&& pageRw ≠ 0 ∧ (entry &&& pageAddrMask) + (x &&& 0xFFF#64) = x - s.hhdmStart

/-- The page `p` is mapped in the window, writable at all levels. -/
def PageMapped (s : Paging) (p : Word) : Prop :=
  UpperWritable s (p + s.hhdmStart) ∧
    ∃ entry, walk s.mem s.hhdmStart s.kernelPml4 (p + s.hhdmStart) = some entry ∧
      entry &&& pageRw ≠ 0 ∧ entry &&& pageAddrMask = p

section Pages
variable {s : Paging} {bits k n n' : ℕ}

theorem runPage_frame (s : Paging) (k i : ℕ) : runPage s k (512 * i) = pageAddr s (k + i) := by
  have hsize : pageBytes = BitVec.ofNat 64 512 * 0x1000#64 := by decide
  have hmul : BitVec.ofNat 64 (512 * i) * 0x1000#64 = BitVec.ofNat 64 i * pageBytes := by
    rw [hsize, ← BitVec.mul_assoc, BitVec.ofNat_mul, BitVec.mul_comm (BitVec.ofNat 64 512)]
  rw [runPage, hmul, pageAddr_add]

theorem Managed.runPage_toNat (h : Managed s bits) (hn : k * 512 + n < maxPages * 512) :
    (runPage s k n).toNat = s.physPageBase.toNat + k * 0x200000 + n * 0x1000 ∧
      (runPage s k n).toNat < 2 ^ bits := by
  have hroom := h.room
  have hpow : 2 ^ bits ≤ 2 ^ 52 := Nat.pow_le_pow_right (by decide) h.bits_le
  simp only [maxPages] at hroom hn
  have hframe : pageBytes.toNat = 0x200000 := by decide
  have hsub : (0x1000#64).toNat = 0x1000 := by decide
  have hval : (runPage s k n).toNat = s.physPageBase.toNat + k * 0x200000 + n * 0x1000 := by
    rw [runPage, pageAddr, BitVec.toNat_add, BitVec.toNat_add, BitVec.toNat_mul, BitVec.toNat_mul,
      hframe, hsub, BitVec.toNat_ofNat, BitVec.toNat_ofNat]
    omega
  rw [hval]
  exact ⟨rfl, by omega⟩

theorem Managed.physPage (h : Managed s bits) (hn : k * 512 + n < maxPages * 512) :
    PhysPage bits (runPage s k n) := by
  obtain ⟨hval, hlt⟩ := h.runPage_toNat hn
  have hbase := h.base
  exact physPage_of_toNat (by omega) hlt

theorem indexAt_toNat (v : Word) (shift : ℕ) :
    (indexAt v shift).val = v.toNat / 2 ^ shift % 512 := by
  have hval : (indexAt v shift).val = (tableIndex v shift).toNat := rfl
  rw [hval, tableIndex, BitVec.toNat_and, BitVec.toNat_ushiftRight, Nat.shiftRight_eq_div_pow]
  exact Nat.and_two_pow_sub_one_eq_mod _ 9

/-- The indices name the page within 48 bits of address. -/
theorem page_eq_of_pageIndices {v w : Word} (h : pageIndices v = pageIndices w) :
    v.toNat / 4096 % 2 ^ 36 = w.toNat / 4096 % 2 ^ 36 := by
  simp only [pageIndices, upperPath, List.cons_append, List.nil_append, List.cons.injEq,
    and_true] at h
  have hshift : ∀ {shift}, indexAt v shift = indexAt w shift →
      v.toNat / 2 ^ shift % 512 = w.toNat / 2 ^ shift % 512 := fun he => by
    rw [← indexAt_toNat, ← indexAt_toNat, he]
  have h39 := hshift h.1
  have h30 := hshift h.2.1
  have h21 := hshift h.2.2.1
  have h12 := hshift h.2.2.2
  omega

/-- Different pages of the run differ in some index. -/
theorem Managed.pageIndices_inj (h : Managed s bits) (hn : k * 512 + n < maxPages * 512)
    (hn' : k * 512 + n' < maxPages * 512)
    (he : pageIndices (runVirt s k n) = pageIndices (runVirt s k n')) : n = n' := by
  have hpage := page_eq_of_pageIndices he
  rw [runVirt, runVirt, BitVec.toNat_add, BitVec.toNat_add, (h.runPage_toNat hn).1,
    (h.runPage_toNat hn').1] at hpage
  simp only [maxPages] at hn hn'
  omega

/-- The walk of a byte is the walk of its page. -/
theorem translates_iff {p : Word} (hp : PhysPage bits p) (hw : WindowBase bits s.hhdmStart)
    (h12 : 12 ≤ bits) {o : ℕ} (ho : o < 4096) :
    Translates s (p + s.hhdmStart + BitVec.ofNat 64 o) ↔ PageMapped s p := by
  have hal : Aligned (p + s.hhdmStart) := by
    rw [hp.add_eq_or hw]
    intro i hi
    rw [BitVec.getLsbD_or, hp.1 i hi, hw.aligned h12 i hi, Bool.false_or]
  have hmod := hal.toNat_mod
  have hval : (p + s.hhdmStart + BitVec.ofNat 64 o).toNat = (p + s.hhdmStart).toNat + o := by
    have hlt := (p + s.hhdmStart).isLt
    rw [BitVec.toNat_add _ (BitVec.ofNat 64 o), BitVec.toNat_ofNat]
    omega
  have hidx : ∀ shift ∈ [39, 30, 21, 12],
      indexAt (p + s.hhdmStart + BitVec.ofNat 64 o) shift = indexAt (p + s.hhdmStart) shift := by
    intro shift hshift
    refine Fin.ext ?_
    simp only [List.mem_cons, List.not_mem_nil, or_false] at hshift
    rw [indexAt_toNat, indexAt_toNat, hval]
    rcases hshift with rfl | rfl | rfl | rfl <;> omega
  have hpath : upperPath (p + s.hhdmStart + BitVec.ofNat 64 o) = upperPath (p + s.hhdmStart) := by
    rw [upperPath, upperPath, hidx 39 (by simp), hidx 30 (by simp), hidx 21 (by simp)]
  have hwalk : walk s.mem s.hhdmStart s.kernelPml4 (p + s.hhdmStart + BitVec.ofNat 64 o) =
      walk s.mem s.hhdmStart s.kernelPml4 (p + s.hhdmStart) := by
    rw [walk, walk, pageTableOf, pageTableOf, hpath, hidx 12 (by simp)]
  have hoff : (p + s.hhdmStart + BitVec.ofNat 64 o) &&& 0xFFF#64 = BitVec.ofNat 64 o := by
    refine BitVec.eq_of_toNat_eq ?_
    have hmask : (0xFFF#64).toNat = 2 ^ 12 - 1 := by decide
    rw [BitVec.toNat_and, hmask, Nat.and_two_pow_sub_one_eq_mod, hval, BitVec.toNat_ofNat]
    omega
  have hphys : p + s.hhdmStart + BitVec.ofNat 64 o - s.hhdmStart = p + BitVec.ofNat 64 o := by
    rw [BitVec.add_assoc, BitVec.add_comm s.hhdmStart, ← BitVec.add_assoc, BitVec.add_sub_cancel]
  have hcancel : ∀ a : Word, a + BitVec.ofNat 64 o = p + BitVec.ofNat 64 o ↔ a = p := fun a =>
    BitVec.add_left_inj (BitVec.ofNat 64 o)
  simp only [Translates, PageMapped, UpperWritable, OnPath, hpath, hwalk, hoff, hphys, hcancel]

end Pages

/-! ### One call -/

/-- The answer is `NULL`, or every byte of the frames handed out is mapped. -/
def MapsFrames (count : ℕ) (res : Word × Paging) : Prop :=
  res.1 ≠ 0 → ∀ off < count * 0x200000, Translates res.2 (res.1 + BitVec.ofNat 64 off)

def FramesMapped (s : Paging) (count : ℕ) : Prop := MapsFrames count (pagingAllocPages count s)

/-- The tables for all pages of the run are present, and no entry that maps a
frame's first page is also an upper entry on the way to a page of the run. -/
structure TablesReady (s : Paging) (count k : ℕ) : Prop where
  present : ∀ n < count * 512,
    pageTableOf s.mem s.hhdmStart s.kernelPml4 (runVirt s k n) ≠ none
  apart : ∀ i < count, ∀ n < count * 512, ∀ pt,
    pageTableOf s.mem s.hhdmStart s.kernelPml4 (runVirt s k (512 * i)) = some pt →
      ¬OnPath s.mem s.hhdmStart s.kernelPml4 (runVirt s k n) pt (indexAt (runVirt s k (512 * i)) 12)

/-- The upper entries for the run are writable, the pages behind the first of
each frame are mapped, and the entry of a frame's first page is no other's. -/
structure RestMapped (s : Paging) (count k : ℕ) : Prop where
  upper : ∀ n < count * 512, UpperWritable s (runVirt s k n)
  rest : ∀ n < count * 512, n % 512 ≠ 0 → PageMapped s (runPage s k n)
  distinct : ∀ i < count, ∀ n < count * 512,
    pageTableOf s.mem s.hhdmStart s.kernelPml4 (runVirt s k (512 * i)) =
        pageTableOf s.mem s.hhdmStart s.kernelPml4 (runVirt s k n) →
      indexAt (runVirt s k (512 * i)) 12 = indexAt (runVirt s k n) 12 → 512 * i = n

section OneCall
variable {s : Paging} {bits count k : ℕ}

/-- After the marking loop on a run whose tables are present: no upper entry
has changed, and the last entries have changed for first pages only. -/
structure RunMarked (s s' : Paging) (count k : ℕ) : Prop where
  statics : SameStatics s s'
  upper : ∀ n < count * 512, ∀ t e, OnPath s.mem s.hhdmStart s.kernelPml4 (runVirt s k n) t e →
    pageRead s'.mem t e = pageRead s.mem t e
  first : (∀ i < count, ∀ j < count,
      pageTableOf s.mem s.hhdmStart s.kernelPml4 (runVirt s k (512 * i)) =
          pageTableOf s.mem s.hhdmStart s.kernelPml4 (runVirt s k (512 * j)) →
        indexAt (runVirt s k (512 * i)) 12 = indexAt (runVirt s k (512 * j)) 12 → i = j) →
    ∀ i < count, walk s'.mem s.hhdmStart s.kernelPml4 (runVirt s k (512 * i)) =
      some (leafEntry (runPage s k (512 * i)))
  rest : ∀ n < count * 512,
    (∀ i < count, pageTableOf s.mem s.hhdmStart s.kernelPml4 (runVirt s k (512 * i)) =
        pageTableOf s.mem s.hhdmStart s.kernelPml4 (runVirt s k n) →
      indexAt (runVirt s k (512 * i)) 12 ≠ indexAt (runVirt s k n) 12) →
    walk s'.mem s.hhdmStart s.kernelPml4 (runVirt s k n) =
      walk s.mem s.hhdmStart s.kernelPml4 (runVirt s k n)

theorem frameVirt_eq (s : Paging) (k i : ℕ) : frameVirt s (k + i) = runVirt s k (512 * i) := by
  rw [frameVirt, runVirt, runPage_frame]

theorem TablesReady.runMarked (h : Managed s bits) (hk : k + count ≤ maxPages)
    (ht : TablesReady s count k) : RunMarked s (markPages count (pageAddr s k) s) count k := by
  have hh := h.window.aligned h.bits_ge
  let pt : ℕ → Word := fun j =>
    (pageTableOf s.mem s.hhdmStart s.kernelPml4 (frameVirt s j)).getD 0
  have hpt : ∀ i < count, pageTableOf s.mem s.hhdmStart s.kernelPml4 (runVirt s k (512 * i)) =
      some (pt (k + i)) := by
    intro i hi
    obtain ⟨u, hu⟩ := Option.ne_none_iff_exists'.1 (ht.present (512 * i) (by omega))
    have hval : pt (k + i) = u := by
      simp only [pt, frameVirt_eq, hu, Option.getD_some]
    rw [hu, hval]
  have hsplit : ∀ {P : ℕ → Prop}, (∀ i < count, P (k + i)) → ∀ j, k ≤ j → j < k + count → P j := by
    intro P hP j hj hlt
    obtain ⟨i, rfl⟩ := Nat.exists_eq_add_of_le hj
    exact hP i (by omega)
  have hle : k + count ≤ 2 ^ 43 := hk.trans (by decide)
  have hstat := (markPages_spec count s hle).1
  obtain ⟨hother, hself⟩ := markPages_entries count s hle hh h.root pt
    (hsplit fun i hi => (frameVirt_eq s k i) ▸ hpt i hi)
    (hsplit fun i hi => hsplit fun j hj => by
      rw [frameSlot, frameVirt_eq, frameVirt_eq]
      exact ht.apart i hi (512 * j) (by omega) _ (hpt i hi))
  have hupper : ∀ n < count * 512, ∀ t e,
      OnPath s.mem s.hhdmStart s.kernelPml4 (runVirt s k n) t e →
        pageRead (markPages count (pageAddr s k) s).mem t e = pageRead s.mem t e := by
    intro n hn t e he
    refine hother t e (he.aligned hh h.root) (hsplit fun i hi => ?_)
    rintro ⟨rfl, rfl⟩
    rw [frameSlot, frameVirt_eq] at he
    exact ht.apart i hi n hn _ (hpt i hi) he
  refine ⟨hstat, hupper, fun hdist i hi => ?_, fun n hn hne => ?_⟩
  · have hread := hself (k + i) (by omega) (by omega) (hsplit fun j hj he hslot => by
      rw [frameSlot, frameSlot, frameVirt_eq, frameVirt_eq] at hslot
      rw [hdist j hj i hi (by rw [hpt j hj, hpt i hi, he]) hslot])
    have htable := (pageTableOf_of_agree (hupper (512 * i) (by omega))).trans (hpt i hi)
    rw [frameSlot, frameVirt_eq] at hread
    rw [walk_of_table htable, hread, if_neg (leafEntry_present _), runPage_frame]
  · obtain ⟨u, hu⟩ := Option.ne_none_iff_exists'.1 (ht.present n hn)
    have htable := (pageTableOf_of_agree (hupper n hn)).trans hu
    have hread := hother u (indexAt (runVirt s k n) 12) (tableAt_aligned hh h.root hu)
      (hsplit fun i hi => by
        rw [frameSlot, frameVirt_eq]
        rintro ⟨rfl, hslot⟩
        exact hne i hi ((hpt i hi).trans hu.symm) hslot.symm)
    rw [walk_of_table htable, walk_of_table hu, hread]

variable {s' : Paging}

theorem RunMarked.upperWritable_iff (hm : RunMarked s s' count k) {n : ℕ} (hn : n < count * 512) :
    UpperWritable s' (runVirt s k n) ↔ UpperWritable s (runVirt s k n) := by
  rw [UpperWritable, UpperWritable, hm.statics.hhdmStart, hm.statics.kernelPml4]
  refine forall₂_congr fun t e => ?_
  rw [onPath_of_agree (hm.upper n hn)]
  refine forall_congr' fun he => ?_
  rw [hm.upper n hn t e he]

/-- Bytes of the run, page by page. -/
theorem translates_run_iff (h : Managed s bits) (hstat : SameStatics s s')
    (hk : k + count ≤ maxPages) :
    (∀ off < count * 0x200000, Translates s' (pageAddr s k + s.hhdmStart + BitVec.ofNat 64 off)) ↔
      ∀ n < count * 512, PageMapped s' (runPage s k n) := by
  have hsum : ∀ n o, pageAddr s k + s.hhdmStart + BitVec.ofNat 64 (n * 4096 + o) =
      runPage s k n + s'.hhdmStart + BitVec.ofNat 64 o := by
    intro n o
    have hpage : BitVec.ofNat 64 4096 = 0x1000#64 := by decide
    rw [hstat.hhdmStart, runPage, BitVec.ofNat_add, BitVec.ofNat_mul, hpage]
    ac_rfl
  have hbyte : ∀ n < count * 512, ∀ o < 4096,
      (Translates s' (pageAddr s k + s.hhdmStart + BitVec.ofNat 64 (n * 4096 + o)) ↔
        PageMapped s' (runPage s k n)) := by
    intro n hn o ho
    rw [hsum]
    exact translates_iff (h.physPage (by omega)) (hstat.hhdmStart ▸ h.window) h.bits_ge ho
  constructor
  · intro hall n hn
    exact (hbyte n hn 0 (by decide)).1 (hall (n * 4096 + 0) (by omega))
  · intro hall off hoff
    have hdiv : off / 4096 * 4096 + off % 4096 = off := by omega
    have hpage := (hbyte (off / 4096) (by omega) (off % 4096) (by omega)).2
      (hall (off / 4096) (by omega))
    rwa [hdiv] at hpage

/-- After the marking loop the run is mapped exactly when its rest was. -/
theorem RunMarked.mapped_iff (h : Managed s bits) (hk : k + count ≤ maxPages)
    (hm : RunMarked s s' count k) :
    (∀ n < count * 512, PageMapped s' (runPage s k n)) ↔ RestMapped s count k := by
  have hphys : ∀ n < count * 512, PhysPage bits (runPage s k n) := fun n hn =>
    h.physPage (by omega)
  have hwalk : ∀ n, PageMapped s' (runPage s k n) ↔ UpperWritable s' (runVirt s k n) ∧
      ∃ entry, walk s'.mem s.hhdmStart s.kernelPml4 (runVirt s k n) = some entry ∧
        entry &&& pageRw ≠ 0 ∧ entry &&& pageAddrMask = runPage s k n := fun n => by
    rw [PageMapped, hm.statics.hhdmStart, hm.statics.kernelPml4, runVirt]
  constructor
  · intro hall
    -- pages with one last entry would be translated to one address
    have hdist : ∀ i < count, ∀ n < count * 512,
        pageTableOf s.mem s.hhdmStart s.kernelPml4 (runVirt s k (512 * i)) =
            pageTableOf s.mem s.hhdmStart s.kernelPml4 (runVirt s k n) →
          indexAt (runVirt s k (512 * i)) 12 = indexAt (runVirt s k n) 12 → 512 * i = n := by
      intro i hi n hn htab hidx
      obtain ⟨_, e₁, hw₁, _, ha₁⟩ := (hwalk _).1 (hall (512 * i) (by omega))
      obtain ⟨_, e₂, hw₂, _, ha₂⟩ := (hwalk _).1 (hall n hn)
      have hsame : walk s'.mem s.hhdmStart s.kernelPml4 (runVirt s k (512 * i)) =
          walk s'.mem s.hhdmStart s.kernelPml4 (runVirt s k n) := by
        rw [walk, walk, pageTableOf_of_agree (hm.upper (512 * i) (by omega)),
          pageTableOf_of_agree (hm.upper n hn), htab, hidx]
      have he : e₁ = e₂ := Option.some_inj.1 (hw₁.symm.trans (hsame.trans hw₂))
      refine h.pageIndices_inj (k := k) (by omega) (by omega) ?_
      rw [runVirt, runVirt, ← ha₁, ← ha₂, he]
    refine ⟨fun n hn => (hm.upperWritable_iff hn).1 ((hwalk n).1 (hall n hn)).1,
      fun n hn hmod => ?_, hdist⟩
    obtain ⟨hup, entry, hw, hrest⟩ := (hwalk n).1 (hall n hn)
    have hkeep := hm.rest n hn fun i hi htab hidx => by
      have := hdist i hi n hn htab hidx
      omega
    exact ⟨(hm.upperWritable_iff hn).1 hup, entry, hkeep ▸ hw, hrest⟩
  · intro hr n hn
    refine (hwalk n).2 ⟨(hm.upperWritable_iff hn).2 (hr.upper n hn), ?_⟩
    by_cases hmod : n % 512 = 0
    · obtain ⟨i, rfl⟩ : ∃ i, n = 512 * i := ⟨n / 512, by omega⟩
      have hfirst := hm.first (fun i hi j hj htab hidx => by
        have := hr.distinct i hi (512 * j) (by omega) htab hidx
        omega) i (by omega)
      exact ⟨_, hfirst, leafEntry_rw _, leafEntry_addr (hphys _ hn) h.bits_le⟩
    · have hkeep := hm.rest n hn fun i hi htab hidx => by
        have := hr.distinct i hi n hn htab hidx
        omega
      rw [hkeep]
      exact (hr.rest n hn hmod).2

/-- One call, when the run that it selects has its tables. -/
theorem framesMapped_iff_restMapped (h : Managed s bits) (hnull : NoNullPage s) (hc : 1 ≤ count)
    (hk : Selects s.pages count k) (ht : TablesReady s count k) :
    FramesMapped s count ↔ RestMapped s count k := by
  have hm := ht.runMarked h hk.add_le
  have hcall : pagingAllocPages count s =
      (pageAddr s k + s.hhdmStart, markPages count (pageAddr s k) s) := by
    rw [pagingAllocPages, (scanBuckets_some_iff s hc _).2 ⟨k, rfl, hk⟩]
  rw [← hm.mapped_iff h hk.add_le, ← translates_run_iff h hm.statics hk.add_le, FramesMapped, hcall]
  exact ⟨fun hall => hall (hnull k hk.lt), fun hall _ => hall⟩

theorem framesMapped_of_not_selects (hc : 1 ≤ count) (hno : ∀ k, ¬Selects s.pages count k) :
    FramesMapped s count := by
  have hscan : scanBuckets s.pages count (List.range totalBucketCount) s.physPageBase
      ⟨0, s.physPageBase⟩ = none := by
    refine Option.eq_none_iff_forall_ne_some.2 fun c hc' => ?_
    obtain ⟨k, _, hk⟩ := (scanBuckets_some_iff s hc c).1 hc'
    exact hno k hk
  rw [FramesMapped, pagingAllocPages_none hscan]
  exact fun hne => absurd rfl hne

/-- **Memory handed out is mapped over its whole extent** when its tables are
present and all but the first page of each frame are mapped before; with the
tables present this is also necessary. -/
theorem framesMapped_iff (h : Managed s bits) (hnull : NoNullPage s) (hc : 1 ≤ count) :
    ((∀ k, Selects s.pages count k → TablesReady s count k ∧ RestMapped s count k) →
      FramesMapped s count) ∧
    ((∀ k, Selects s.pages count k → TablesReady s count k) →
      (FramesMapped s count ↔ ∀ k, Selects s.pages count k → RestMapped s count k)) := by
  have hsuff : (∀ k, Selects s.pages count k → TablesReady s count k ∧ RestMapped s count k) →
      FramesMapped s count := by
    intro hall
    by_cases hsel : ∃ k, Selects s.pages count k
    · obtain ⟨k, hk⟩ := hsel
      exact (framesMapped_iff_restMapped h hnull hc hk (hall k hk).1).2 (hall k hk).2
    · exact framesMapped_of_not_selects hc (not_exists.1 hsel)
  refine ⟨hsuff, fun ht => ⟨fun hf k hk => ?_, fun hr => hsuff fun k hk => ⟨ht k hk, hr k hk⟩⟩⟩
  exact (framesMapped_iff_restMapped h hnull hc hk (ht k hk)).1 hf

end OneCall

theorem onePath_managed : Managed onePath 40 where
  bits_ge := by decide
  bits_le := by decide
  window := noTables_window
  root := onePath_holds.root
  base := by decide
  room := by decide

theorem framesMapped_iff_onePath :
    ((∀ k, Selects onePath.pages 1 k → TablesReady onePath 1 k ∧ RestMapped onePath 1 k) →
      FramesMapped onePath 1) ∧
    ((∀ k, Selects onePath.pages 1 k → TablesReady onePath 1 k) →
      (FramesMapped onePath 1 ↔ ∀ k, Selects onePath.pages 1 k → RestMapped onePath 1 k)) :=
  framesMapped_iff onePath_managed (noNullPage_of_le (by decide) (by decide)) le_rfl

theorem onePath_selects : Selects onePath.pages 1 0 := by
  have hbit : ∀ i < 1, pageBit onePath.pages i = true := by decide
  exact FirstPagesFree.selects ⟨by decide, hbit⟩

theorem onePath_tablesReady : TablesReady onePath 1 0 := by
  have htable : ∀ n < 512, pageTableOf onePath.mem onePath.hhdmStart onePath.kernelPml4
      (runVirt onePath 0 n) = some (onePathTable 3) := by
    intro n hn
    have hpath : ∀ n < 512, upperPath (runVirt onePath 0 n) = [256, 0, 8] := by decide +kernel
    rw [pageTableOf, hpath n hn]
    decide +kernel
  refine ⟨fun n hn => ?_, fun i hi n hn pt hpt => ?_⟩
  · rw [htable n hn]
    exact Option.some_ne_none _
  · rintro ⟨ks, hks, ht⟩
    have hle := hks.length_le
    rw [List.length_append, List.length_singleton] at hle
    have hup : (upperPath (runVirt onePath 0 n)).length = 3 := rfl
    have hpath := onePath_holds.tree ks _ pt (by omega) (le_refl 3) ht hpt
    have hlen := congrArg List.length hpath
    have hup' : (upperPath (runVirt onePath 0 (512 * i))).length = 3 := rfl
    omega

/-- One frame, its tables present and empty: the second page is not mapped. -/
theorem framesMapped_fails : ¬∀ (s : Paging) (bits count : ℕ), Managed s bits → NoNullPage s →
    1 ≤ count → FramesMapped s count := by
  intro h
  have hnull : NoNullPage onePath := noNullPage_of_le (by decide) (by decide)
  have hrest := (framesMapped_iff_restMapped onePath_managed hnull le_rfl onePath_selects
    onePath_tablesReady).1 (h onePath 40 1 onePath_managed hnull le_rfl)
  obtain ⟨_, entry, hwalk, _⟩ := hrest.rest 1 (by decide) (by decide)
  have hnone : walk onePath.mem onePath.hhdmStart onePath.kernelPml4
      (runPage onePath 0 1 + onePath.hhdmStart) = none := by decide +kernel
  rw [hnone] at hwalk
  exact absurd hwalk.symm (Option.some_ne_none entry)

end Ssos
