import Ssos.Mem.FrameMapping
import Ssos.Mem.FrameRegion

/-!
# The pool of page tables

`paging_get_page_entry_with_alloc` takes the next table of `paging_page_tables`
and does not look at how many there are. A page of 2 MiB may need a page table
of its own, so the pool has room for the tables of 512 of the 2560 pages.

## Main results

- `neverOverrun_of_run` — runs in which every table lies in the pool
- `neverOverrun_of_few` — up to 170 pages are always safe
-/

namespace Ssos

open ByteMemory PartialRun RadixTable

def reservedSpaceSize : ℕ := 2097152

/-- The table lies wholly inside the pool. -/
def InPool (pool table : Word) : Prop :=
  pool.toNat ≤ table.toNat ∧ table.toNat + 0x1000 ≤ pool.toNat + reservedSpaceSize

/-- Every table that has been zeroed and linked does. -/
def PoolKept (pool : Word) (s : Paging) : Prop := ∀ e ∈ s.fresh, InPool pool e.2

/-- The number of whole tables that the pool has left. -/
def tablesLeft (pool : Word) (s : Paging) : ℕ :=
  (pool.toNat + reservedSpaceSize - s.currFreePageTable.toNat) / 0x1000

def allocStep (s : Paging) (count : ℕ) : Option Paging := some (pagingAllocPages count s).2

/-- When the initialisation has succeeded, every table taken by the calls that
follow lies in the pool. -/
def NeverOverrun (undefinedShift : ℕ → Word) (cr3 : Word) (kernel : KernelImage)
    (mmapEntries : List LimineMemmapEntry) (hhOff : Word) (s : Paging) (pool : Word)
    (counts : List ℕ) : Prop :=
  let res := initFrameAllocatorOr undefinedShift cr3 kernel mmapEntries hhOff s
  res.1 = 0 →
    Along allocStep (fun s count => PoolKept pool (pagingAllocPages count s).2) res.2 counts

/-! ### Page after page -/

/-- The statics with the locals of the marking loop: the pages that it has left
and the next of them. -/
structure Marking where
  paging : Paging
  left : ℕ
  currAddr : Word

/-- A call selects its pages, and then they are mapped one by one. -/
inductive MarkTurn where
  | call (count : ℕ)
  | page

def markStep (m : Marking) : MarkTurn → Option Marking
  | .call count =>
    match scanBuckets m.paging.pages count (List.range totalBucketCount) m.paging.physPageBase
        ⟨0, m.paging.physPageBase⟩ with
    | none => some { m with left := 0 }
    | some candidateAddr => some { m with left := count, currAddr := candidateAddr }
  | .page =>
    match m.left with
    | 0 => some m
    | left + 1 => some ⟨markPage m.currAddr m.paging, left, m.currAddr + pageBytes⟩

/-- A turn without a page left changes nothing, so as many as pages are asked for
are enough for a call. -/
def callTurns (count : ℕ) : List MarkTurn := .call count :: List.replicate count .page

def markTurns (counts : List ℕ) : List MarkTurn := counts.flatMap callTurns

/-- Between two calls. -/
def Marking.idle (s : Paging) : Marking := ⟨s, 0, 0⟩

/-- The upper entries on the way to the next page, from the first absent one on. -/
def Marking.missing (m : Marking) : ℕ :=
  levelsMissing (pageRead m.paging.mem) (pageChild m.paging.hhdmStart) m.paging.kernelPml4
    (upperPath (m.currAddr + m.paging.hhdmStart))

/-- When a page is to be mapped, the pool has a table left for each of them. -/
def TablesSuffice (pool : Word) (m : Marking) : MarkTurn → Prop
  | .call _ => True
  | .page => 0 < m.left → m.missing ≤ tablesLeft pool m.paging

/-- When a page is to be mapped, there is a page directory for it. -/
def DirectoryThere (m : Marking) : MarkTurn → Prop
  | .call _ => True
  | .page => 0 < m.left → ∃ pd, tableAt (pageRead m.paging.mem) (pageChild m.paging.hhdmStart)
      m.paging.kernelPml4 [indexAt (m.currAddr + m.paging.hhdmStart) 39,
        indexAt (m.currAddr + m.paging.hhdmStart) 30] = some pd

section Turns
variable {m : Marking}

/-- A turn maps the next page or leaves the tables as they are. -/
theorem markStep_cases {m' : Marking} {turn : MarkTurn} (h : markStep m turn = some m') :
    m'.paging = m.paging ∨
      (turn = .page ∧ 0 < m.left ∧ m'.paging = markPage m.currAddr m.paging) := by
  cases turn with
  | call count =>
    left
    rw [markStep] at h
    split at h
    · exact Option.some_inj.1 h ▸ rfl
    · exact Option.some_inj.1 h ▸ rfl
  | page =>
    rw [markStep] at h
    cases hleft : m.left with
    | zero =>
      simp only [hleft] at h
      exact Or.inl (Option.some_inj.1 h ▸ rfl)
    | succ left =>
      simp only [hleft] at h
      exact Or.inr ⟨rfl, Nat.succ_pos left, Option.some_inj.1 h ▸ rfl⟩

/-- The turns left over change nothing. -/
theorem exec_idle (hleft : m.left = 0) (n : ℕ) :
    exec markStep m (List.replicate n .page) = some m := by
  have hstay : markStep m .page = some m := by rw [markStep, hleft]
  induction n with
  | zero => rfl
  | succ n ih => rw [List.replicate_succ, exec_cons hstay, ih]

/-- The turns of the loop together. -/
theorem exec_pages (left : ℕ) (currAddr : Word) (s : Paging) :
    ∃ a, exec markStep ⟨s, left, currAddr⟩ (List.replicate left .page) =
      some ⟨markPages left currAddr s, 0, a⟩ := by
  induction left generalizing currAddr s with
  | zero => exact ⟨currAddr, rfl⟩
  | succ left ih =>
    obtain ⟨a, hrest⟩ := ih (currAddr + pageBytes) (markPage currAddr s)
    refine ⟨a, ?_⟩
    rw [List.replicate_succ, exec_cons rfl, hrest, markPages_cons]

/-- **A call** of `paging_alloc_pages` is its turns. -/
theorem exec_callTurns (m : Marking) (count : ℕ) :
    ∃ a, exec markStep m (callTurns count) = some ⟨(pagingAllocPages count m.paging).2, 0, a⟩ := by
  rw [callTurns, pagingAllocPages]
  cases hscan : scanBuckets m.paging.pages count (List.range totalBucketCount)
      m.paging.physPageBase ⟨0, m.paging.physPageBase⟩ with
  | none =>
    have hcall : markStep m (.call count) = some { m with left := 0 } := by rw [markStep, hscan]
    exact ⟨m.currAddr, by rw [exec_cons hcall, exec_idle rfl]⟩
  | some candidateAddr =>
    have hcall : markStep m (.call count) =
        some { m with left := count, currAddr := candidateAddr } := by rw [markStep, hscan]
    obtain ⟨a, hpages⟩ := exec_pages count candidateAddr m.paging
    exact ⟨a, by rw [exec_cons hcall, hpages]⟩

end Turns

/-! ### Table after table -/

/-- The entries that are absent on the way down along the path. -/
def absentEntries : List (Fin 512) → Word → Paging → ℕ
  | [], _, _ => 0
  | i :: is, t, s =>
    (if pageRead s.mem t i &&& pagePresent = 0 then 1 else 0) +
      absentEntries is (descend t i s).1 (descend t i s).2

/-- The tables taken are the first of the pool, the newest first. -/
def Taken (pool : Word) : List (Word × Word) → Prop
  | [] => True
  | e :: rest => e.2 = pool + 0x1000#64 * BitVec.ofNat 64 rest.length ∧ Taken pool rest

/-- The next table comes behind those taken. -/
structure PoolHolds (pool : Word) (s : Paging) : Prop where
  taken : Taken pool s.fresh
  next : s.currFreePageTable = pool + 0x1000#64 * BitVec.ofNat 64 s.fresh.length

/-- No table lies outside the pool so far. -/
structure PoolSafe (pool : Word) (s : Paging) : Prop extends PoolHolds pool s where
  kept : PoolKept pool s

section Pool
variable {pool : Word} {s : Paging}

theorem toNat_table (hpool : pool.toNat + reservedSpaceSize < 2 ^ 64) {n : ℕ} (hn : n ≤ 512) :
    (pool + 0x1000#64 * BitVec.ofNat 64 n).toNat = pool.toNat + 0x1000 * n := by
  rw [BitVec.toNat_add, BitVec.toNat_mul, BitVec.toNat_ofNat, BitVec.toNat_ofNat]
  simp only [reservedSpaceSize] at hpool
  omega

theorem inPool_table_iff (hpool : pool.toNat + reservedSpaceSize < 2 ^ 64) {n : ℕ} (hn : n ≤ 512) :
    InPool pool (pool + 0x1000#64 * BitVec.ofNat 64 n) ↔ n < 512 := by
  rw [InPool, toNat_table hpool hn]
  simp only [reservedSpaceSize]
  omega

/-- All tables lie in the pool if and only if there are no more than it has. -/
theorem Taken.inPool_iff (hpool : pool.toNat + reservedSpaceSize < 2 ^ 64)
    {fresh : List (Word × Word)} (h : Taken pool fresh) :
    (∀ e ∈ fresh, InPool pool e.2) ↔ fresh.length ≤ 512 := by
  induction fresh with
  | nil => exact iff_of_true (fun e he => absurd he List.not_mem_nil) (by decide)
  | cons e rest ih =>
    rw [List.forall_mem_cons, ih h.2, h.1, List.length_cons]
    constructor
    · rintro ⟨hin, hle⟩
      exact (inPool_table_iff hpool hle).1 hin
    · intro hlt
      exact ⟨(inPool_table_iff hpool (Nat.le_of_lt hlt)).2 hlt, Nat.le_of_lt hlt⟩

theorem PoolHolds.kept_iff (hpool : pool.toNat + reservedSpaceSize < 2 ^ 64) (h : PoolHolds pool s) :
    PoolKept pool s ↔ s.fresh.length ≤ 512 := h.taken.inPool_iff hpool

theorem PoolHolds.tablesLeft_eq (hpool : pool.toNat + reservedSpaceSize < 2 ^ 64)
    (h : PoolHolds pool s) (hle : s.fresh.length ≤ 512) :
    tablesLeft pool s = 512 - s.fresh.length := by
  rw [tablesLeft, h.next, toNat_table hpool hle]
  simp only [reservedSpaceSize]
  omega

/-- **Step lemma.** An absent entry takes the next table. -/
theorem PoolHolds.descend_spec (h : PoolHolds pool s) (t : Word) (i : Fin 512) :
    PoolHolds pool (descend t i s).2 ∧ (descend t i s).2.fresh.length =
      (if pageRead s.mem t i &&& pagePresent = 0 then 1 else 0) + s.fresh.length := by
  by_cases hmiss : pageRead s.mem t i &&& pagePresent = 0
  · rw [if_pos hmiss, descend, pagingEnsureEntry_missing hmiss]
    simp only [withTable_fresh, List.length_cons]
    refine ⟨⟨?_, ?_⟩, Nat.add_comm _ _⟩
    · rw [withTable_fresh]
      exact ⟨h.next, h.taken⟩
    · rw [withTable_fresh, withTable_currFreePageTable, h.next, List.length_cons, BitVec.ofNat_add,
        BitVec.mul_add, ← BitVec.add_assoc]
      rfl
  · rw [if_neg hmiss, descend_present hmiss, Nat.zero_add]
    exact ⟨h, rfl⟩

theorem absentEntries_le (is : List (Fin 512)) (t : Word) (s : Paging) :
    absentEntries is t s ≤ is.length := by
  induction is generalizing t s with
  | nil => exact le_rfl
  | cons i is ih =>
    have hrest := ih (descend t i s).1 (descend t i s).2
    rw [absentEntries, List.length_cons]
    split <;> omega

theorem absentEntries_cons_child {t t' : Word} {i : Fin 512}
    (h : pageChild s.hhdmStart (pageRead s.mem t i) = some t') (is : List (Fin 512)) :
    absentEntries (i :: is) t s = absentEntries is t' s := by
  have hpresent : pageRead s.mem t i &&& pagePresent ≠ 0 := by
    intro hmiss
    rw [pageChild, if_pos hmiss] at h
    exact Option.some_ne_none t' h.symm
  rw [absentEntries, if_neg hpresent, descend_child h, Nat.zero_add]

/-- Present entries take no table. -/
theorem absentEntries_append {is : List (Fin 512)} {t t' : Word}
    (h : tableAt (pageRead s.mem) (pageChild s.hhdmStart) t is = some t') (js : List (Fin 512)) :
    absentEntries (is ++ js) t s = absentEntries js t' s := by
  induction is generalizing t with
  | nil => rw [List.nil_append, Option.some_inj.1 h]
  | cons i is ih =>
    obtain ⟨u, hchild, hrest⟩ := exists_of_tableAt_cons h
    rw [List.cons_append, absentEntries_cons_child hchild, ih hrest]

/-- A new entry may lead to a table with content, so behind the first absent
entry others need not be absent. -/
theorem absentEntries_le_missing (is : List (Fin 512)) (t : Word) :
    absentEntries is t s ≤ levelsMissing (pageRead s.mem) (pageChild s.hhdmStart) t is := by
  induction is generalizing t with
  | nil => exact le_rfl
  | cons i is ih =>
    cases hchild : pageChild s.hhdmStart (pageRead s.mem t i) with
    | none =>
      rw [levelsMissing_cons_none hchild]
      exact absentEntries_le (i :: is) t s
    | some t' =>
      rw [levelsMissing_cons hchild, absentEntries_cons_child hchild]
      exact ih t'

/-- The last entry of a path is absent or it is not. -/
theorem absentEntries_eq_missing {is : List (Fin 512)} {t t' : Word}
    (h : tableAt (pageRead s.mem) (pageChild s.hhdmStart) t is = some t') (i : Fin 512) :
    absentEntries (is ++ [i]) t s =
      levelsMissing (pageRead s.mem) (pageChild s.hhdmStart) t (is ++ [i]) := by
  rw [absentEntries_append h, levelsMissing_append h]
  cases hchild : pageChild s.hhdmStart (pageRead s.mem t' i) with
  | none =>
    have hmiss : pageRead s.mem t' i &&& pagePresent = 0 := by
      by_contra hpresent
      rw [pageChild, if_neg hpresent] at hchild
      exact Option.some_ne_none _ hchild
    rw [levelsMissing_cons_none hchild, absentEntries, if_pos hmiss]
    rfl
  | some u =>
    rw [levelsMissing_cons hchild, absentEntries_cons_child hchild]
    rfl

/-- **One page** takes as many tables as upper entries are absent. -/
theorem PoolHolds.markPage_spec (h : PoolHolds pool s) (currAddr : Word) :
    PoolHolds pool (markPage currAddr s) ∧ (markPage currAddr s).fresh.length =
      absentEntries (upperPath (currAddr + s.hhdmStart)) s.kernelPml4 s + s.fresh.length := by
  have hfresh : (markPage currAddr s).fresh =
      (descendAll s s.kernelPml4 (currAddr + s.hhdmStart)).2.fresh := pagingMapPage_fresh
  have hnext : (markPage currAddr s).currFreePageTable =
      (descendAll s s.kernelPml4 (currAddr + s.hhdmStart)).2.currFreePageTable := by
    rw [markPage, pagingMapPage_eq]
    rfl
  obtain ⟨h₁, hlen₁⟩ := h.descend_spec s.kernelPml4 (indexAt (currAddr + s.hhdmStart) 39)
  obtain ⟨h₂, hlen₂⟩ := h₁.descend_spec _ (indexAt (currAddr + s.hhdmStart) 30)
  obtain ⟨h₃, hlen₃⟩ := h₂.descend_spec _ (indexAt (currAddr + s.hhdmStart) 21)
  refine ⟨⟨?_, ?_⟩, ?_⟩
  · rw [hfresh]
    exact h₃.taken
  · rw [hfresh, hnext]
    exact h₃.next
  · rw [hfresh]
    refine hlen₃.trans ?_
    rw [hlen₂, hlen₁, upperPath]
    simp only [absentEntries]
    omega

/-- The tables taken are never given back. -/
theorem PoolHolds.markPages_spec (h : PoolHolds pool s) (left : ℕ) (currAddr : Word) :
    PoolHolds pool (markPages left currAddr s) ∧
      s.fresh.length ≤ (markPages left currAddr s).fresh.length ∧
      (markPages left currAddr s).fresh.length ≤ s.fresh.length + 3 * left := by
  induction left generalizing currAddr s with
  | zero => exact ⟨h, le_rfl, le_rfl⟩
  | succ left ih =>
    obtain ⟨hholds, hlen⟩ := h.markPage_spec currAddr
    obtain ⟨hrest, hmore, hfew⟩ := ih hholds (currAddr + pageBytes)
    have hthree := absentEntries_le (upperPath (currAddr + s.hhdmStart)) s.kernelPml4 s
    rw [show (upperPath (currAddr + s.hhdmStart)).length = 3 by rfl] at hthree
    rw [markPages_cons]
    exact ⟨hrest, by omega, by omega⟩

/-! ### Calls -/

theorem PoolHolds.alloc_spec (h : PoolHolds pool s) (count : ℕ) :
    PoolHolds pool (pagingAllocPages count s).2 ∧
      (pagingAllocPages count s).2.fresh.length ≤ s.fresh.length + 3 * count := by
  rw [pagingAllocPages]
  cases scanBuckets s.pages count (List.range totalBucketCount) s.physPageBase
      ⟨0, s.physPageBase⟩ with
  | none => exact ⟨h, Nat.le_add_right _ _⟩
  | some candidateAddr =>
    obtain ⟨hholds, _, hfew⟩ := h.markPages_spec count candidateAddr
    exact ⟨hholds, hfew⟩

/-! ### Turns -/

section Turn
variable {m m' : Marking} {turn : MarkTurn}

/-- **Step lemma.** -/
theorem PoolHolds.markStep_spec (h : PoolHolds pool m.paging) (hstep : markStep m turn = some m') :
    PoolHolds pool m'.paging ∧ m.paging.fresh.length ≤ m'.paging.fresh.length := by
  obtain hsame | ⟨-, -, hpage⟩ := markStep_cases hstep
  · rw [hsame]
    exact ⟨h, le_rfl⟩
  · obtain ⟨hholds, hlen⟩ := h.markPage_spec m.currAddr
    rw [hpage]
    exact ⟨hholds, hlen ▸ Nat.le_add_left _ _⟩

/-- **Run lemma.** The tables taken are never given back. -/
theorem PoolHolds.exec_spec (h : PoolHolds pool m.paging) {turns : List MarkTurn}
    (hexec : exec markStep m turns = some m') :
    PoolHolds pool m'.paging ∧ m.paging.fresh.length ≤ m'.paging.fresh.length := by
  have hkeep : ∀ turn ∈ turns, ∀ t t' : Marking,
      PoolHolds pool t.paging ∧ m.paging.fresh.length ≤ t.paging.fresh.length →
      markStep t turn = some t' →
        PoolHolds pool t'.paging ∧ m.paging.fresh.length ≤ t'.paging.fresh.length := by
    rintro turn - t t' ⟨hholds, hle⟩ hstep
    obtain ⟨hholds', hmore⟩ := hholds.markStep_spec hstep
    exact ⟨hholds', hle.trans hmore⟩
  exact exec_keeps hkeep ⟨h, le_rfl⟩ hexec

/-- **Step lemma.** With tables for all that is missing the pool is kept. -/
theorem PoolSafe.markStep_safe (hpool : pool.toNat + reservedSpaceSize < 2 ^ 64)
    (h : PoolSafe pool m.paging) (hroom : TablesSuffice pool m turn)
    (hstep : markStep m turn = some m') : PoolSafe pool m'.paging := by
  obtain ⟨hholds, _⟩ := h.markStep_spec hstep
  refine ⟨hholds, ?_⟩
  obtain hsame | ⟨rfl, hleft, hpage⟩ := markStep_cases hstep
  · exact hsame ▸ h.kept
  · have hle := (h.kept_iff hpool).1 h.kept
    have htables := hroom hleft
    have habsent := absentEntries_le_missing (s := m.paging)
      (upperPath (m.currAddr + m.paging.hhdmStart)) m.paging.kernelPml4
    have hlen := (h.markPage_spec m.currAddr).2
    rw [h.tablesLeft_eq hpool hle, Marking.missing] at htables
    rw [hholds.kept_iff hpool, hpage]
    omega

/-- Where there is a page directory, the pool is kept only with these tables. -/
theorem PoolHolds.tablesSuffice (hpool : pool.toNat + reservedSpaceSize < 2 ^ 64)
    (h : PoolHolds pool m.paging) (hdir : DirectoryThere m turn) (hstep : markStep m turn = some m')
    (hkept : m'.paging.fresh.length ≤ 512) : TablesSuffice pool m turn := by
  cases turn with
  | call count => trivial
  | page =>
    intro hleft
    obtain ⟨pd, hpd⟩ := hdir hleft
    have habsent : absentEntries (upperPath (m.currAddr + m.paging.hhdmStart))
        m.paging.kernelPml4 m.paging = m.missing := absentEntries_eq_missing hpd _
    have hlen := (h.markPage_spec m.currAddr).2
    have hpage : m'.paging = markPage m.currAddr m.paging := by
      obtain ⟨left, hsucc⟩ := Nat.exists_eq_succ_of_ne_zero hleft.ne'
      rw [markStep, hsucc] at hstep
      exact Option.some_inj.1 hstep ▸ rfl
    rw [hpage] at hkept
    rw [h.tablesLeft_eq hpool (by omega)]
    omega

/-- **Run lemma.** -/
theorem PoolSafe.exec_safe (hpool : pool.toNat + reservedSpaceSize < 2 ^ 64)
    (h : PoolSafe pool m.paging) {turns : List MarkTurn}
    (hroom : Along markStep (TablesSuffice pool) m turns) (hexec : exec markStep m turns = some m') :
    PoolSafe pool m'.paging := by
  have hkeep : ∀ t turn t', PoolSafe pool t.paging → TablesSuffice pool t turn →
      markStep t turn = some t' → PoolSafe pool t'.paging := fun _ _ _ ht => ht.markStep_safe hpool
  exact hroom.keeps hkeep h hexec

/-- **Run lemma.** What lies outside the pool after a turn stays in the list. -/
theorem PoolHolds.along_tablesSuffice (hpool : pool.toNat + reservedSpaceSize < 2 ^ 64)
    (h : PoolHolds pool m.paging) {turns : List MarkTurn}
    (hdir : Along markStep DirectoryThere m turns) (hexec : exec markStep m turns = some m')
    (hkept : m'.paging.fresh.length ≤ 512) : Along markStep (TablesSuffice pool) m turns := by
  induction turns generalizing m with
  | nil => trivial
  | cons turn turns ih =>
    obtain ⟨m₁, hstep, hexec⟩ := exists_of_exec_cons hexec
    obtain ⟨hholds, _⟩ := h.markStep_spec hstep
    -- the tables taken by now are among those taken at the end
    have hmore := (hholds.exec_spec hexec).2
    refine ⟨h.tablesSuffice hpool hdir.1 hstep (hmore.trans hkept), fun t ht => ?_⟩
    obtain rfl := Option.some_inj.1 (hstep.symm.trans ht)
    exact ih hholds (hdir.2 m₁ hstep) hexec

/-- **Calls.** -/
theorem PoolSafe.along_kept (hpool : pool.toNat + reservedSpaceSize < 2 ^ 64)
    (h : PoolSafe pool m.paging) {counts : List ℕ}
    (hroom : Along markStep (TablesSuffice pool) m (markTurns counts)) :
    Along allocStep (fun s count => PoolKept pool (pagingAllocPages count s).2) m.paging counts := by
  induction counts generalizing m with
  | nil => trivial
  | cons count counts ih =>
    rw [markTurns, List.flatMap_cons] at hroom
    obtain ⟨a, hcall⟩ := exec_callTurns m count
    -- the turns of the first call end where the call does
    have hsafe := h.exec_safe hpool hroom.of_append hcall
    refine ⟨hsafe.kept, fun s' hs' => ?_⟩
    obtain rfl := Option.some_inj.1 hs'
    exact ih hsafe (hroom.suffix hcall)

theorem PoolHolds.along_calls (hpool : pool.toNat + reservedSpaceSize < 2 ^ 64)
    (h : PoolHolds pool m.paging) {counts : List ℕ}
    (hdir : Along markStep DirectoryThere m (markTurns counts))
    (hkept : Along allocStep (fun s count => PoolKept pool (pagingAllocPages count s).2)
      m.paging counts) :
    Along markStep (TablesSuffice pool) m (markTurns counts) := by
  induction counts generalizing m with
  | nil => trivial
  | cons count counts ih =>
    rw [markTurns, List.flatMap_cons] at hdir ⊢
    obtain ⟨a, hcall⟩ := exec_callTurns m count
    obtain ⟨hholds, _⟩ := h.exec_spec hcall
    refine .append (h.along_tablesSuffice hpool hdir.of_append hcall
      ((hholds.kept_iff hpool).1 hkept.1)) fun m₁ hm₁ => ?_
    obtain rfl := Option.some_inj.1 (hcall.symm.trans hm₁)
    exact ih hholds (hdir.suffix hcall) (hkept.2 _ rfl)

end Turn

/-- The initialisation takes no table. -/
theorem poolSafe_init (hpool : pool.toNat + reservedSpaceSize < 2 ^ 64)
    (hnext : s.currFreePageTable = pool) (hfresh : s.fresh = []) (undefinedShift : ℕ → Word)
    (cr3 : Word) (kernel : KernelImage) (mmapEntries : List LimineMemmapEntry) (hhOff : Word) :
    PoolSafe pool (initFrameAllocatorOr undefinedShift cr3 kernel mmapEntries hhOff s).2 ∧
      (initFrameAllocatorOr undefinedShift cr3 kernel mmapEntries hhOff s).2.fresh = [] := by
  have hsame :
      (initFrameAllocatorOr undefinedShift cr3 kernel mmapEntries hhOff s).2.fresh = s.fresh ∧
      (initFrameAllocatorOr undefinedShift cr3 kernel mmapEntries hhOff s).2.currFreePageTable =
        s.currFreePageTable := by
    rw [initFrameAllocatorOr]
    simp only
    split
    · exact ⟨rfl, rfl⟩
    · exact ⟨rfl, rfl⟩
  have hholds :
      PoolHolds pool (initFrameAllocatorOr undefinedShift cr3 kernel mmapEntries hhOff s).2 := by
    refine ⟨?_, ?_⟩
    · rw [hsame.1, hfresh]
      trivial
    · rw [hsame.1, hsame.2, hnext, hfresh]
      simp
  have hnone := hsame.1.trans hfresh
  refine ⟨⟨hholds, (hholds.kept_iff hpool).2 ?_⟩, hnone⟩
  rw [hnone]
  decide

end Pool

/-! ### What one page changes -/

section Walked
variable {s : Paging}

/-- A page whose page table has to be made changes three places: the entry for
it in the directory, the new table, and the place that the entry leads to. -/
theorem pageRead_markPage {p pd u : Word} (hh : Aligned s.hhdmStart) (hal : Aligned pd)
    (hc : Aligned s.currFreePageTable)
    (hpd : tableAt (pageRead s.mem) (pageChild s.hhdmStart) s.kernelPml4
      [indexAt (p + s.hhdmStart) 39, indexAt (p + s.hhdmStart) 30] = some pd)
    (hmiss : pageRead s.mem pd (indexAt (p + s.hhdmStart) 21) &&& pagePresent = 0)
    (hu : Aligned u) {j : Fin 512} (hentry : ¬(u = pd ∧ j = indexAt (p + s.hhdmStart) 21))
    (hnew : u ≠ s.currFreePageTable)
    (hlead : u ≠ tableOfEntry s.hhdmStart (freshEntry (s.currFreePageTable - s.hhdmStart))) :
    pageRead (markPage p s).mem u j = pageRead s.mem u j := by
  have hmem : (markPage p s).mem = (pagingMapPage p s.kernelPml4 s).mem := rfl
  rw [hmem, pagingMapPage_mem, descendAll_lastMissing hal hc hpd hmiss,
    pageRead_setTableEntry hu (tableOfEntry_aligned hh _), if_neg fun h => hlead h.1,
    pageRead_withTable hal hc hu, if_neg hentry, if_neg hnew]

end Walked

/-! ### The bitmap after the initialisation -/

section Bitmap
variable (undefinedShift : ℕ → Word) {pages : ℕ → Word} {i : ℕ}

/-- Marking clears no bit. -/
theorem pageBit_markFreeOr (h : pageBit pages i = true) (j : ℕ) :
    pageBit (markFreeOr undefinedShift pages j) i = true := by
  rw [pageBit] at h ⊢
  rw [markFreeOr]
  by_cases hb : i / bucketSize = j / bucketSize
  · rw [hb] at h ⊢
    rw [Function.update_self, BitVec.getLsbD_or, h, Bool.true_or]
  · rw [Function.update_of_ne hb, h]

theorem pageBit_foldl_markFreeOr {pageIdxs : List ℕ} (h : pageBit pages i = true ∨
      ∃ j ∈ pageIdxs, ∀ pages, pageBit (markFreeOr undefinedShift pages j) i = true) :
    pageBit (pageIdxs.foldl (markFreeOr undefinedShift) pages) i = true := by
  induction pageIdxs generalizing pages with
  | nil =>
    obtain h | ⟨j, hj, _⟩ := h
    · exact h
    · exact absurd hj List.not_mem_nil
  | cons j₀ pageIdxs ih =>
    rw [List.foldl_cons]
    apply ih
    obtain h | ⟨j, hj, hmark⟩ := h
    · exact Or.inl (pageBit_markFreeOr undefinedShift h j₀)
    · obtain rfl | hj := List.mem_cons.1 hj
      · exact Or.inl (hmark pages)
      · exact Or.inr ⟨j, hj, hmark⟩

/-- The bit of a page is set with it, or from bit 31 on with page 31 of the bucket. -/
theorem pageBit_markFreeOr_self (i : ℕ) (pages : ℕ → Word) :
    pageBit (markFreeOr undefinedShift pages (64 * (i / 64) + min (i % 64) 31)) i = true := by
  have hall : ∀ r < 64, (intBit (min r 31)).map (fun w => w.getLsbD r) = some true := by decide
  obtain ⟨w, hbit, hw⟩ := Option.map_eq_some_iff.1 (hall (i % 64) (Nat.mod_lt _ (by decide)))
  have hdiv : (64 * (i / 64) + min (i % 64) 31) / 64 = i / 64 := by omega
  have hmod : (64 * (i / 64) + min (i % 64) 31) % 64 = min (i % 64) 31 := by omega
  rw [pageBit, markFreeOr, bucketSize_eq, hdiv, hmod, Function.update_self, BitVec.getLsbD_or,
    intBitOr, hbit, Option.getD_some, hw, Bool.or_true]

/-- After the initialisation all pages of the region are free. -/
theorem pageBit_marked {n : ℕ} (hi : i < n) :
    pageBit ((List.range n).foldl (markFreeOr undefinedShift) pages) i = true := by
  apply pageBit_foldl_markFreeOr
  refine Or.inr ⟨64 * (i / 64) + min (i % 64) 31, List.mem_range.2 (by omega), ?_⟩
  exact fun pages => pageBit_markFreeOr_self undefinedShift i pages

end Bitmap

/-! ### Two empty page directories -/

/-- A path to two page directories without entries, for the 2 GiB from 1 GiB on. -/
def twoDirectories : Mem :=
  setTableEntry (setTableEntry (setTableEntry (fun _ => 0)
    (onePathTable 1) 2#64 (leafEntry 0x4000#64)) (onePathTable 1) 1#64 (leafEntry 0x3000#64))
    (onePathTable 0) 256#64 (leafEntry 0x2000#64)

theorem twoDirectories_read {n : ℕ} (hn : n ≤ 3) (i : Fin 512) :
    pageRead twoDirectories (onePathTable n) i =
      if n = 0 ∧ i = 256 then leafEntry 0x2000#64 else if n = 1 ∧ i = 1 then leafEntry 0x3000#64
      else if n = 1 ∧ i = 2 then leafEntry 0x4000#64 else 0#64 := by
  have hal := onePathTable_aligned hn
  have hindex : 2#64 = BitVec.ofNat 64 (2 : Fin 512) ∧ 1#64 = BitVec.ofNat 64 (1 : Fin 512) ∧
      256#64 = BitVec.ofNat 64 (256 : Fin 512) := ⟨rfl, rfl, rfl⟩
  rw [twoDirectories, hindex.1, hindex.2.1, hindex.2.2,
    pageRead_setTableEntry hal (onePathTable_aligned (by decide)),
    pageRead_setTableEntry hal (onePathTable_aligned (by decide)),
    pageRead_setTableEntry hal (onePathTable_aligned (by decide))]
  have hzero : pageRead (fun _ => 0) (onePathTable n) i = 0#64 := noTables_read _ i
  simp only [onePathTable_eq_iff hn (show 0 ≤ 3 by decide),
    onePathTable_eq_iff hn (show 1 ≤ 3 by decide), hzero]

def overrunKernel : KernelImage := ⟨0xFFFF800000200000#64, 0xFFFF800000600000#64⟩

def twoGigabytes : List LimineMemmapEntry := [⟨0x40000000#64, 0x80000000#64, limineMemmapUsable⟩]

def overrunBefore : Paging :=
  { blankPaging with currFreePageTable := 0xFFFF800000200000#64, mem := twoDirectories }

def overrunStart (undefinedShift : ℕ → Word) : Paging :=
  { overrunBefore with
    kernelPml4 := onePathTable 0
    hhdmStart := 0xFFFF800000000000#64
    pages := (List.range 1024).foldl (markFreeOr undefinedShift) fun _ => 0
    physPageBase := 0x40000000#64
    presentPageCount := 1024 }

theorem overrunStart_eq (undefinedShift : ℕ → Word) :
    initFrameAllocatorOr undefinedShift 0x1000#64 overrunKernel twoGigabytes
      0xFFFF800000000000#64 overrunBefore = (0, overrunStart undefinedShift) := by
  have hselect : selectRegion overrunKernel 0xFFFF800000000000#64 twoGigabytes =
      ⟨0x40000000#64, 0x80000000#64, true⟩ := rfl
  have hroot : 0x1000#64 + 0xFFFF800000000000#64 = onePathTable 0 := by decide
  have hcount : (0x80000000#64 / pageBytes).toNat = 1024 := by decide
  rw [initFrameAllocatorOr, hselect, hroot]
  simp only [hcount]
  rfl

theorem freshLead_ge : ∀ n < 513, 0xFFFF800000200000 ≤ (tableOfEntry 0xFFFF800000000000#64
    (freshEntry (0xFFFF800000200000#64 + 0x1000#64 * BitVec.ofNat 64 n -
      0xFFFF800000000000#64))).toNat := by decide +kernel

/-- The directory and the entry of it for page `k` of the region. -/
def directoryOf (k : ℕ) : Word := onePathTable (2 + k / 512)

/-- The first `n` pages have taken a table each, and what lies below the pool
has changed in their entries only. -/
structure AfterPages (s₀ : Paging) (n : ℕ) (s : Paging) : Prop where
  statics : SameStatics s₀ s
  holds : PoolHolds 0xFFFF800000200000#64 s
  taken : s.fresh.length = n
  kept : ∀ u, Aligned u → u.toNat < 0xFFFF800000200000 → ∀ j,
    (∀ k < n, ¬(u = directoryOf k ∧ j = Fin.ofNat 512 k)) → pageRead s.mem u j = pageRead s₀.mem u j

section Overrun
variable (undefinedShift : ℕ → Word) {n : ℕ} {s : Paging}

theorem overrun_indices (hn : n < 513) :
    indexAt (pageAddr (overrunStart undefinedShift) n + 0xFFFF800000000000#64) 39 = 256 ∧
    indexAt (pageAddr (overrunStart undefinedShift) n + 0xFFFF800000000000#64) 30 =
      Fin.ofNat 512 (1 + n / 512) ∧
    indexAt (pageAddr (overrunStart undefinedShift) n + 0xFFFF800000000000#64) 21 =
      Fin.ofNat 512 n := by
  have hval : (pageAddr (overrunStart undefinedShift) n + 0xFFFF800000000000#64).toNat =
      0xFFFF800040000000 + n * 0x200000 := by
    have hbase : (overrunStart undefinedShift).physPageBase = 0x40000000#64 := rfl
    have hsize : pageBytes.toNat = 0x200000 := by decide
    rw [pageAddr, hbase, BitVec.toNat_add, BitVec.toNat_add, BitVec.toNat_mul, BitVec.toNat_ofNat,
      BitVec.toNat_ofNat, BitVec.toNat_ofNat, hsize]
    omega
  have hindex : ∀ shift j, (0xFFFF800040000000 + n * 0x200000) / 2 ^ shift % 512 = j % 512 →
      indexAt (pageAddr (overrunStart undefinedShift) n + 0xFFFF800000000000#64) shift =
        Fin.ofNat 512 j := by
    intro shift j h
    apply Fin.ext
    rw [indexAt_toNat, hval, h]
    rfl
  exact ⟨hindex 39 256 (by omega), hindex 30 _ (by omega), hindex 21 n (by omega)⟩

namespace AfterPages
variable {undefinedShift} (h : AfterPages (overrunStart undefinedShift) n s) (hn : n < 513)
include h hn

/-- The tables at the start are as they were, but for the entries of the pages so far. -/
theorem read {m : ℕ} (hm : m ≤ 3) {j : Fin 512}
    (hother : ∀ k < n, ¬(m = 2 + k / 512 ∧ j = Fin.ofNat 512 k)) :
    pageRead s.mem (onePathTable m) j = pageRead twoDirectories (onePathTable m) j := by
  have hlow : ∀ m ≤ 3, (onePathTable m).toNat < 0xFFFF800000200000 := by decide
  refine h.kept _ (onePathTable_aligned hm) (hlow m hm) j ?_
  rintro k hk ⟨heq, hslot⟩
  exact hother k hk ⟨(onePathTable_eq_iff hm (by omega)).1 heq, hslot⟩

theorem directory :
    tableAt (pageRead s.mem) (pageChild s.hhdmStart) s.kernelPml4
        [256, Fin.ofNat 512 (1 + n / 512)] = some (directoryOf n) := by
  have hroot : s.kernelPml4 = onePathTable 0 := h.statics.kernelPml4
  have hhdm : s.hhdmStart = 0xFFFF800000000000#64 := h.statics.hhdmStart
  have hfirst : pageChild s.hhdmStart (pageRead s.mem s.kernelPml4 256) =
      some (onePathTable 1) := by
    rw [hroot, hhdm, h.read hn (by decide) (by omega), twoDirectories_read (by decide)]
    decide
  have hsecond : pageChild s.hhdmStart (pageRead s.mem (onePathTable 1)
      (Fin.ofNat 512 (1 + n / 512))) = some (directoryOf n) := by
    rw [hhdm, h.read hn (by decide) (by omega), twoDirectories_read (by decide), directoryOf]
    obtain hzero | hone : n / 512 = 0 ∨ n / 512 = 1 := by omega
    · rw [hzero]
      decide
    · rw [hone]
      decide
  rw [tableAt_cons hfirst, tableAt_cons hsecond]
  rfl

/-- The directory has no entry for the next page. -/
theorem entry_absent : pageRead s.mem (directoryOf n) (Fin.ofNat 512 n) &&& pagePresent = 0 := by
  have hread : pageRead s.mem (directoryOf n) (Fin.ofNat 512 n) = 0#64 := by
    rw [directoryOf, h.read hn (by omega), twoDirectories_read (by omega), if_neg (by omega),
      if_neg (by omega), if_neg (by omega)]
    rintro k hk ⟨hdir, hslot⟩
    have hsame := congrArg Fin.val hslot
    simp only [Fin.val_ofNat] at hsame
    omega
  rw [hread]
  decide

/-- **Step lemma.** The next page takes the next table. -/
theorem step : AfterPages (overrunStart undefinedShift) (n + 1)
    (markPage (pageAddr (overrunStart undefinedShift) n) s) := by
  have hhdm : s.hhdmStart = 0xFFFF800000000000#64 := h.statics.hhdmStart
  have hpd := h.directory hn
  have hmiss := h.entry_absent hn
  obtain ⟨h39, h30, h21⟩ := overrun_indices undefinedShift hn
  rw [← h39, ← h30, ← hhdm] at hpd
  rw [← h21, ← hhdm] at hmiss
  obtain ⟨hholds, hlen⟩ := h.holds.markPage_spec (pageAddr (overrunStart undefinedShift) n)
  refine ⟨h.statics.trans (markPage_frame _ s), hholds, ?_, ?_⟩
  · have hsplit : ∀ v, upperPath v = [indexAt v 39, indexAt v 30] ++ [indexAt v 21] := fun _ => rfl
    rw [hlen, hsplit, absentEntries_append hpd, h.taken, absentEntries, if_pos hmiss, absentEntries,
      Nat.add_comm]
  · intro u hu hlow j hother
    have hnext := h.holds.next
    rw [h.taken] at hnext
    have htable : s.currFreePageTable.toNat = 0xFFFF800000200000 + 0x1000 * n := by
      rw [hnext]
      exact toNat_table (by decide) (by omega)
    have hc : Aligned s.currFreePageTable :=
      (physPage_of_toNat (by rw [htable]; omega) s.currFreePageTable.isLt).1
    have hlead := freshLead_ge n hn
    rw [← hnext, ← hhdm] at hlead
    have hh : Aligned s.hhdmStart := by
      rw [hhdm]
      exact noTables_window.aligned (by decide)
    rw [pageRead_markPage hh (onePathTable_aligned (by omega)) hc hpd hmiss hu]
    · exact h.kept u hu hlow j fun k hk => hother k (Nat.lt_succ_of_lt hk)
    · rw [hhdm, h21]
      exact hother n n.lt_succ_self
    · rintro rfl
      omega
    · rintro rfl
      omega

/-- Only the page table of the next page is missing. -/
theorem missing_eq (left : ℕ) :
    (⟨s, left, pageAddr (overrunStart undefinedShift) n⟩ : Marking).missing = 1 := by
  have hhdm : s.hhdmStart = 0xFFFF800000000000#64 := h.statics.hhdmStart
  have hpd := h.directory hn
  obtain ⟨h39, h30, h21⟩ := overrun_indices undefinedShift hn
  rw [← h39, ← h30, ← hhdm] at hpd
  have hsplit : ∀ v, upperPath v = [indexAt v 39, indexAt v 30] ++ [indexAt v 21] := fun _ => rfl
  have hnone : pageChild s.hhdmStart (pageRead s.mem (directoryOf n)
      (indexAt (pageAddr (overrunStart undefinedShift) n + s.hhdmStart) 21)) = none := by
    rw [pageChild, hhdm, h21, if_pos (h.entry_absent hn)]
  rw [Marking.missing, hsplit, levelsMissing_append hpd, levelsMissing_cons_none hnone]
  rfl

end AfterPages

/-- **Run lemma.** -/
theorem afterPages_markPages {undefinedShift : ℕ → Word} {left n : ℕ} {s : Paging}
    (h : AfterPages (overrunStart undefinedShift) n s) (hn : n + left ≤ 513) :
    AfterPages (overrunStart undefinedShift) (n + left)
      (markPages left (pageAddr (overrunStart undefinedShift) n) s) := by
  induction left generalizing n s with
  | zero => exact h
  | succ left ih =>
    rw [markPages_cons, pageAddr_succ]
    have hrest := ih (h.step (by omega)) (by omega)
    rwa [Nat.add_right_comm, Nat.add_assoc] at hrest

/-- **Run lemma.** For the first 512 pages there is a table left. -/
theorem AfterPages.along_pages {undefinedShift : ℕ → Word} {left n : ℕ} {s : Paging}
    (h : AfterPages (overrunStart undefinedShift) n s) (hn : n + left ≤ 512) :
    Along markStep (TablesSuffice 0xFFFF800000200000#64)
      ⟨s, left, pageAddr (overrunStart undefinedShift) n⟩ (List.replicate left .page) := by
  induction left generalizing n s with
  | zero => trivial
  | succ left ih =>
    refine ⟨fun _ => ?_, fun m' hm' => ?_⟩
    · have hone := h.missing_eq (by omega) (left + 1)
      have htaken := h.taken
      have htables := h.holds.tablesLeft_eq (by decide) (by omega)
      exact (hone.trans_le (by omega)).trans_eq htables.symm
    · have hpage : m' = ⟨markPage (pageAddr (overrunStart undefinedShift) n) s, left,
          pageAddr (overrunStart undefinedShift) n + pageBytes⟩ := (Option.some_inj.1 hm').symm
      rw [hpage, pageAddr_succ]
      exact ih (h.step (by omega)) (by omega)

/-- The first `count` pages are what a call selects. -/
theorem scanBuckets_overrunStart {count : ℕ} (hpos : 0 < count) (hcount : count ≤ 1024) :
    scanBuckets (overrunStart undefinedShift).pages count (List.range totalBucketCount)
        (overrunStart undefinedShift).physPageBase ⟨0, (overrunStart undefinedShift).physPageBase⟩ =
      some (pageAddr (overrunStart undefinedShift) 0) := by
  have hfree : FirstPagesFree (overrunStart undefinedShift).pages count := by
    refine ⟨hcount.trans (by decide), fun i hi => ?_⟩
    simp only [overrunStart]
    exact pageBit_marked undefinedShift (by omega)
  exact (scanBuckets_some_iff (overrunStart undefinedShift) hpos _).2 ⟨0, rfl, hfree.selects⟩

theorem afterPages_start :
    AfterPages (overrunStart undefinedShift) 0 (overrunStart undefinedShift) :=
  ⟨⟨rfl, rfl, rfl, rfl⟩, ⟨trivial, rfl⟩, rfl, fun _ _ _ _ _ => rfl⟩

theorem along_firstGigabyte :
    Along markStep (TablesSuffice 0xFFFF800000200000#64) (.idle (overrunStart undefinedShift))
      (markTurns [512]) := by
  rw [markTurns, List.flatMap_singleton, callTurns]
  refine ⟨trivial, fun m' hm' => ?_⟩
  have hscan := scanBuckets_overrunStart undefinedShift (show 0 < 512 by decide) (by decide)
  simp only [markStep, Marking.idle, hscan] at hm'
  obtain rfl := Option.some_inj.1 hm'
  exact (afterPages_start undefinedShift).along_pages (by decide)

end Overrun

/-! ### Runs -/

section Runs
variable (undefinedShift : ℕ → Word) (cr3 : Word) (kernel : KernelImage)
  (mmapEntries : List LimineMemmapEntry) (hhOff : Word) {pool : Word} {s : Paging}

/-- **The pool is never overrun** in the runs in which it has a table left for
every upper entry that is missing when a page is mapped. As long as only page
tables are missing, it is overrun in all others. -/
theorem neverOverrun_of_run (hpool : pool.toNat + reservedSpaceSize < 2 ^ 64)
    (hnext : s.currFreePageTable = pool) (hfresh : s.fresh = []) (counts : List ℕ) :
    let init := initFrameAllocatorOr undefinedShift cr3 kernel mmapEntries hhOff s
    ((init.1 = 0 → Along markStep (TablesSuffice pool) (.idle init.2) (markTurns counts)) →
      NeverOverrun undefinedShift cr3 kernel mmapEntries hhOff s pool counts) ∧
    (init.1 = 0 → Along markStep DirectoryThere (.idle init.2) (markTurns counts) →
      (NeverOverrun undefinedShift cr3 kernel mmapEntries hhOff s pool counts ↔
        Along markStep (TablesSuffice pool) (.idle init.2) (markTurns counts))) := by
  have hinit := (poolSafe_init hpool hnext hfresh undefinedShift cr3 kernel mmapEntries hhOff).1
  constructor
  · intro hroom hret
    exact PoolSafe.along_kept (m := .idle _) hpool hinit (hroom hret)
  · intro hret hdir
    constructor
    · intro hnever
      exact PoolHolds.along_calls (m := .idle _) hpool hinit.toPoolHolds hdir (hnever hret)
    · intro hroom _
      exact PoolSafe.along_kept (m := .idle _) hpool hinit hroom

/-- All 512 page tables of the first GiB. -/
theorem neverOverrun_of_run_firstGigabyte :
    NeverOverrun (fun _ => 0) 0x1000#64 overrunKernel twoGigabytes 0xFFFF800000000000#64
      overrunBefore 0xFFFF800000200000#64 [512] := by
  refine (neverOverrun_of_run _ _ _ _ _ (by decide) rfl rfl _).1 fun _ => ?_
  rw [overrunStart_eq]
  exact along_firstGigabyte _

/-- With three tables for each page, 170 pages are within the pool. -/
theorem neverOverrun_of_few (hpool : pool.toNat + reservedSpaceSize < 2 ^ 64)
    (hnext : s.currFreePageTable = pool) (hfresh : s.fresh = []) {counts : List ℕ}
    (hfew : counts.sum ≤ 170) :
    NeverOverrun undefinedShift cr3 kernel mmapEntries hhOff s pool counts := by
  have hrun : ∀ (counts : List ℕ) (s : Paging), PoolHolds pool s →
      s.fresh.length + 3 * counts.sum ≤ 512 →
        Along allocStep (fun s count => PoolKept pool (pagingAllocPages count s).2) s counts := by
    intro counts
    induction counts with
    | nil => exact fun _ _ _ => trivial
    | cons count counts ih =>
      intro s hs hle
      obtain ⟨hs', hlen⟩ := hs.alloc_spec count
      rw [List.sum_cons] at hle
      refine ⟨(hs'.kept_iff hpool).2 (by omega), ?_⟩
      intro s₁ hstep
      obtain rfl := Option.some_inj.1 hstep
      exact ih _ hs' (by omega)
  obtain ⟨hinit, hnone⟩ :=
    poolSafe_init hpool hnext hfresh undefinedShift cr3 kernel mmapEntries hhOff
  refine fun _ => hrun counts _ hinit.toPoolHolds ?_
  rw [hnone, List.length_nil]
  omega

end Runs

/-- One call for 513 pages whose page tables are all missing. -/
theorem neverOverrun_fails : ¬NeverOverrun (fun _ => 0) 0x1000#64 overrunKernel twoGigabytes
    0xFFFF800000000000#64 overrunBefore 0xFFFF800000200000#64 [513] := by
  intro hnever
  rw [NeverOverrun, overrunStart_eq] at hnever
  obtain ⟨hkept, _⟩ := hnever rfl
  have hafter := afterPages_markPages (afterPages_start fun _ => 0) (show 0 + 513 ≤ 513 by decide)
  have hscan := scanBuckets_overrunStart (fun _ => 0) (show 0 < 513 by decide) (by decide)
  simp only [pagingAllocPages, hscan] at hkept
  have hle := (hafter.holds.kept_iff (by decide)).1 hkept
  rw [hafter.taken] at hle
  exact absurd hle (by decide)

end Ssos
