import Ssos.Mem.KmallocSpec

/-!
# What `kfree` does to the representation

The merge loop finds the buddy by flipping a bit of the raw address. That is
the other half of the block's parent only inside a window that is aligned to
its own size, so the specification asks for such a window around the freed
block in which the merging is bound to stop, or for a block so large that
nothing is merged (`Confined`).
-/

namespace Ssos

open ByteMemory Buddy Window PointerList

/-- Merging `b` ends inside the window `v` of the run `r`: `b` is as large as the
heap's largest block already, or `v` is aligned to its own size as an address
and is that large or holds another block in use. -/
def StopsIn (h : Heap) (others : Set Window) (r v b : Window) : Prop :=
  b.order = h.highestLevel + 3 ∨
    2 ^ v.order ∣ r.addr ∧ (v.order = h.highestLevel + 3 ∨ ∃ c ∈ others, Sub c v)

/-- There is such a window around `b` inside one page run. -/
def Confined (h : Heap) (live : Set Window) (b : Window) : Prop :=
  ∃ r ∈ h.roots, ∃ v, Sub v r ∧ Sub b v ∧ StopsIn h (live \ {b}) r v b

/-- Between two turns of the merge loop: `c` is on no list, and its header says
that it is free. -/
structure Merging (h : Heap) (free live : Set Window) (c : Window) : Prop where
  repr : Repr h free (insert c live)
  fresh : c ∉ live
  marked : Marked h.mem live
  level : blockLevel h.mem c.addr + 3 = c.order
  isFree : blockIsFree h.mem c.addr = true

section Merge
variable {h : Heap} {free live : Set Window}

/-- Aligned roots make the flipped address the start of the other half. -/
theorem xor_buddy {r v w c s : Window} (hv : Sub v r) (hw : Sub w v) (hpos : 0 < w.order)
    (halign : 2 ^ v.order ∣ r.addr) (hhalf : Halves w c s) :
    c.addr ^^^ 2 ^ c.order = s.addr := by
  refine hhalf.xor_eq hpos ?_
  obtain ⟨_, i, _, he⟩ := hw.trans hv
  rw [he]
  refine Nat.dvd_add (Dvd.dvd.trans (Nat.pow_dvd_pow 2 hw.order_le) halign) ?_
  exact Dvd.intro_left i rfl

/-- The lower half keeps its header when the buddy `d` is unlinked. -/
theorem Merging.low_header {w c d : Window} (hm : Merging h free live c) (hd : d ∈ free)
    (hhalf : Halves w c d) {h₁ : Heap}
    (hkeep : ∀ b ∈ free ∪ insert c live, b ∉ free \ {d} →
      ∀ x, b.addr ≤ x → x < b.addr + 16 → h₁.mem x = h.mem x) :
    blockLevel h₁.mem w.addr + 3 = c.order ∧ blockIsFree h₁.mem w.addr = true := by
  have hr := hm.repr
  have hcfree : c ∉ free \ {d} := fun hf => Set.disjoint_left.1 hr.disjoint hf.1 (Or.inl rfl)
  have horder : d.order = c.order := hhalf.symm.order_eq.trans hhalf.order_eq.symm
  obtain ⟨rfl, rfl⟩ | ⟨rfl, rfl⟩ := hhalf
  · obtain ⟨_, hl, hf⟩ := header_congr (hkeep w.lo (Or.inr (Or.inl rfl)) hcfree)
    exact ⟨(congrArg (· + 3) hl).trans hm.level, hf.trans hm.isFree⟩
  · obtain ⟨_, hl, hf⟩ := header_congr (hkeep w.lo (Or.inl hd) fun hf => hf.2 rfl)
    exact ⟨(congrArg (· + 3) hl).trans ((hr.level _ hd).trans horder), hf.trans (hr.isFree _ hd)⟩

/-- The state after merging the unlisted block `c` with its free buddy `d`
into `w`: the buddy is unlinked and the level of the lower one is raised. -/
theorem merge_spec {r w c d : Window} (hm : Merging h free live c) (hd : d ∈ free)
    (hroot : r ∈ h.roots) (hw : Sub w r) (hpos : 0 < w.order) (hhalf : Halves w c d) :
    ∃ h₁ : Heap, unlinkBuddy h (blockLevel h.mem c.addr) d.addr = some h₁ ∧
      Merging { h₁ with mem := setLevel h₁.mem w.addr (blockLevel h₁.mem w.addr + 1) }
        (free \ {d}) live w ∧
      h₁.runs = h.runs ∧ h₁.highestLevel = h.highestLevel := by
  have hr := hm.repr
  have hcmem : c ∈ free ∪ insert c live := Or.inr (Or.inl rfl)
  have hco := hhalf.order_eq
  have hdo := hhalf.symm.order_eq
  have hlevel := hm.level
  obtain ⟨h₁, hun, hr₁, hruns, hhigh, hmem⟩ :=
    hr.unlink hd (L := blockLevel h.mem c.addr) (by omega)
  have hroots : h₁.roots = h.roots := by rw [Heap.roots, Heap.roots, hruns]
  have hdlive : d ∉ live := fun hl => Set.disjoint_left.1 hr.disjoint hd (Or.inr hl)
  have hwlive : w ∉ live := fun hl =>
    hr.tiling.apart.half_notMem (Or.inr (Or.inr hl)) hpos hhalf hcmem
  have hmerged := hr₁.merge hm.fresh hdlive (hroots ▸ hroot) hw hpos hhalf
  -- unlinking writes to other free blocks only
  have hkeep : ∀ b ∈ free ∪ insert c live, b ∉ free \ {d} →
      ∀ x, b.addr ≤ x → x < b.addr + 16 → h₁.mem x = h.mem x := fun b hb hbf x hx hlt => by
    refine hmem x fun e he hxe => hbf ?_
    exact hr.tiling.apart e (Or.inl he.1) b hb x hxe (hr.header_mem hb hx hlt) ▸ he
  obtain ⟨hwlevel, hwfree⟩ := hm.low_header hd hhalf hkeep
  have hlt : blockLevel h₁.mem w.addr + 1 < 256 := by
    have hle := hr.order_le hcmem
    have := hr.level_lt
    omega
  have hwrite : HeaderWrite h₁.mem (setLevel h₁.mem w.addr (blockLevel h₁.mem w.addr + 1))
      w.addr := (HeaderWrite.refl _ _).setLevel _
  refine ⟨h₁, hun, ⟨hmerged.headerWrite (Or.inl rfl) hwrite, hwlive, ?_, ?_, ?_⟩, hruns, hhigh⟩
  · refine hmerged.marked_headerWrite hwlive (hm.marked.frame fun b hb => ?_) hwrite
    exact hkeep b (Or.inr (Or.inr hb)) fun hf =>
      Set.disjoint_left.1 hr.disjoint hf.1 (Or.inr hb)
  · show blockLevel (setLevel h₁.mem w.addr _) w.addr + 3 = w.order
    rw [blockLevel_setLevel_self hlt]
    omega
  · show blockIsFree (setLevel h₁.mem w.addr _) w.addr = true
    rw [blockIsFree_setLevel_self]
    exact hwfree

end Merge

/-! ### The merge loop -/

section Loop
variable {h : Heap} {block fuel : ℕ}

/-- The address that the loop takes for the buddy. -/
def buddyAddr (h : Heap) (block : ℕ) : ℕ :=
  block ^^^ 2 ^ (blockLevel h.mem block + memBlocksBaseLevel)

theorem mergeLoop_top (hlevel : ¬blockLevel h.mem block < h.highestLevel) :
    mergeLoop (fuel + 1) block h = some (block, [], h) := by
  rw [mergeLoop]
  simp only [if_neg hlevel]

theorem mergeLoop_stop (hlevel : blockLevel h.mem block < h.highestLevel)
    (htest : ¬(blockIsFree h.mem (buddyAddr h block) = true ∧
      blockLevel h.mem (buddyAddr h block) = blockLevel h.mem block)) :
    mergeLoop (fuel + 1) block h = some (block, [buddyAddr h block], h) := by
  rw [← Bool.and_eq_true_iff.trans (and_congr_right' beq_iff_eq), Bool.not_eq_true] at htest
  rw [mergeLoop]
  simp only [if_pos hlevel]
  rw [buddyAddr] at htest
  simp only [htest, Bool.not_false, if_true, buddyAddr]

theorem mergeLoop_step {h₁ : Heap} (hlevel : blockLevel h.mem block < h.highestLevel)
    (hfree : blockIsFree h.mem (buddyAddr h block) = true)
    (hsame : blockLevel h.mem (buddyAddr h block) = blockLevel h.mem block)
    (hun : unlinkBuddy h (blockLevel h.mem block) (buddyAddr h block) = some h₁) {w : ℕ}
    (hw : w = if buddyAddr h block < block then buddyAddr h block else block)
    {last : ℕ} {examined : List ℕ} {h₂ : Heap}
    (hrest : mergeLoop fuel w { h₁ with mem := setLevel h₁.mem w (blockLevel h₁.mem w + 1) } =
      some (last, examined, h₂)) :
    mergeLoop (fuel + 1) block h = some (last, buddyAddr h block :: examined, h₂) := by
  subst hw
  rw [mergeLoop]
  simp only [if_pos hlevel]
  rw [buddyAddr] at *
  simp only [hfree, hsame, beq_self_eq_true, Bool.and_self, Bool.not_true,
    Bool.false_eq_true, if_false, hun, hrest]

end Loop

/-- What the merge loop leaves behind when it starts on `c` inside `v`. -/
structure Merged (h : Heap) (free live : Set Window) (c v : Window) (c' : Window)
    (examined : List ℕ) (h' : Heap) : Prop where
  repr : ∃ free', free' ⊆ free ∧ Repr h' free' (insert c' live) ∧
    Coalesced h.roots (insert c' free')
  fresh : c' ∉ live
  marked : Marked h'.mem live
  level : blockLevel h'.mem c'.addr + 3 = c'.order
  isFree : blockIsFree h'.mem c'.addr = true
  grows : Sub c c' ∧ Sub c' v
  starts : ∀ a ∈ examined, ∃ d ∈ free ∪ live, d.addr = a
  runs : h'.runs = h.runs
  highest : h'.highestLevel = h.highestLevel

section Loop
variable {h : Heap} {free live : Set Window}

/-- The loop ends on the block it holds. -/
theorem Merging.merged {c v : Window} {examined : List ℕ} (hm : Merging h free live c)
    (hcv : Sub c v) (hco : Coalesced h.roots (insert c free))
    (hstarts : ∀ a ∈ examined, ∃ d ∈ free ∪ live, d.addr = a) :
    Merged h free live c v c examined h where
  repr := ⟨free, subset_rfl, hm.repr, hco⟩
  fresh := hm.fresh
  marked := hm.marked
  level := hm.level
  isFree := hm.isFree
  grows := ⟨Sub.refl c, hcv⟩
  starts := hstarts
  runs := rfl
  highest := rfl

/-- The loop goes on after merging with the free buddy `d`. -/
theorem Merged.of_merge {h₁ h' : Heap} {c d w v c' : Window} {examined : List ℕ}
    (hm : Merged h₁ (free \ {d}) live w v c' examined h') (hcw : Sub c w) (hd : d ∈ free)
    (hruns : h₁.runs = h.runs) (hhigh : h₁.highestLevel = h.highestLevel) :
    Merged h free live c v c' (d.addr :: examined) h' := by
  have hroots : h₁.roots = h.roots := by rw [Heap.roots, Heap.roots, hruns]
  obtain ⟨free', hsub, hrepr, hcoal⟩ := hm.repr
  exact
    { repr := ⟨free', hsub.trans Set.sdiff_subset, hrepr, hroots ▸ hcoal⟩
      fresh := hm.fresh, marked := hm.marked, level := hm.level, isFree := hm.isFree
      grows := ⟨hcw.trans hm.grows.1, hm.grows.2⟩
      starts := by
        intro a ha
        obtain rfl | ha := List.mem_cons.1 ha
        · exact ⟨d, Or.inl hd, rfl⟩
        · obtain ⟨e, he, hea⟩ := hm.starts a ha
          exact ⟨e, he.imp And.left id, hea⟩
      runs := hm.runs.trans hruns, highest := hm.highest.trans hhigh }

/-- Below the top level the block is half of a node `w` of the window, the loop
looks at the start of the other half `s`, and a tile starts there. -/
theorem Merging.buddy {r v c : Window} (hm : Merging h free live c) (hroot : r ∈ h.roots)
    (hv : Sub v r) (hcv : Sub c v) (hstop : StopsIn h live r v c)
    (hlt : blockLevel h.mem c.addr < h.highestLevel) :
    ∃ w s, Sub w v ∧ w.order = c.order + 1 ∧ Halves w c s ∧ buddyAddr h c.addr = s.addr ∧
      ∃ d ∈ free ∪ live, d.addr = s.addr := by
  have hr := hm.repr
  have hlevel := hm.level
  obtain ⟨halign, hstop⟩ := hstop.resolve_left (by omega)
  have hclt : c.order < v.order := by
    refine lt_of_le_of_ne hcv.order_le fun he => ?_
    obtain rfl := hcv.eq_of_order_eq he
    obtain ho | ⟨d, hd, hdc⟩ := hstop
    · omega
    · have hdc' := hr.tiling.apart d (Or.inr (Or.inr hd)) c (Or.inr (Or.inl rfl)) d.addr
        d.addr_mem (hdc.mem d.addr_mem)
      exact hm.fresh (hdc' ▸ hd)
  obtain ⟨w, s, hwv, hwo, hhalf⟩ := hcv.exists_halves hclt
  have hwpos : 0 < w.order := by omega
  obtain ⟨d, hd, hda, _⟩ := hr.tiling.exists_partner hr.roots_apart
    (Or.inr (Or.inl rfl)) hroot (hwv.trans hv) hwpos hhalf
  refine ⟨w, s, hwv, hwo, hhalf, ?_, d, ?_, hda⟩
  · rw [buddyAddr, memBlocksBaseLevel, hlevel]
    exact xor_buddy hv hwv hwpos halign hhalf
  · obtain hd | rfl | hd := hd
    · exact Or.inl hd
    · exact absurd hda hhalf.addr_ne
    · exact Or.inr hd

/-- A merged block is bound to stop where its half was. -/
theorem Merging.stopsIn {r v c w : Window} {h₁ : Heap} (hm : Merging h free live c)
    (hstop : StopsIn h live r v c) (hlt : blockLevel h.mem c.addr < h.highestLevel)
    (hhigh : h₁.highestLevel = h.highestLevel) : StopsIn h₁ live r v w := by
  have hlevel := hm.level
  obtain ⟨halign, hstop⟩ := hstop.resolve_left (by omega)
  exact Or.inr ⟨halign, hhigh.symm ▸ hstop⟩

/-- The loop's test tells whether the other half is free: the tile that starts
there has a current header. -/
theorem Merging.test_iff {c s d : Window} (hm : Merging h free live c) (ho : s.order = c.order)
    (hd : d ∈ free ∪ live) (hda : d.addr = s.addr) :
    blockIsFree h.mem s.addr = true ∧ blockLevel h.mem s.addr = blockLevel h.mem c.addr ↔
      s ∈ free := by
  have hlevel := hm.level
  constructor
  · intro ⟨hfree, hsame⟩
    obtain hdfree | hl := hd
    · have hdl := hm.repr.level d hdfree
      rw [hda] at hdl
      have hds : d = s := Window.ext hda (by omega)
      exact hds ▸ hdfree
    · have hused := (hm.marked d hl).2
      rw [hda, hfree] at hused
      exact Bool.noConfusion hused
  · intro hs
    have hsl := hm.repr.level s hs
    exact ⟨hm.repr.isFree s hs, by omega⟩

/-- The merge loop stays inside the window, examines only starts of blocks and
leaves no free buddy pair. -/
theorem mergeLoop_spec {r v c : Window} {fuel : ℕ} (hm : Merging h free live c)
    (hco : Coalesced h.roots free) (hroot : r ∈ h.roots) (hv : Sub v r) (hcv : Sub c v)
    (hstop : StopsIn h live r v c) (hfuel : h.highestLevel + 3 < c.order + fuel) :
    ∃ c' examined h', mergeLoop fuel c.addr h = some (c'.addr, examined, h') ∧
      Merged h free live c v c' examined h' := by
  induction fuel generalizing h free c with
  | zero =>
    have hle := hm.repr.order_le (Or.inr (Or.inl rfl) : c ∈ free ∪ insert c live)
    omega
  | succ fuel ih =>
    by_cases hlt : blockLevel h.mem c.addr < h.highestLevel
    · obtain ⟨w, s, hwv, hwo, hhalf, hbuddy, d, hd, hda⟩ :=
        hm.buddy hroot hv hcv hstop hlt
      have hwpos : 0 < w.order := by omega
      have hwr := hwv.trans hv
      have htest := hm.test_iff (hhalf.symm.order_eq.trans hhalf.order_eq.symm) hd hda
      by_cases hs : s ∈ free
      · obtain ⟨h₁, hun, hm₁, hruns, hhigh⟩ := merge_spec hm hs hroot hwr hwpos hhalf
        have hroots : h₁.roots = h.roots := by rw [Heap.roots, Heap.roots, hruns]
        obtain ⟨c', examined, h', heq, hmerged⟩ := ih hm₁
          (hroots.symm ▸ hco.mono Set.sdiff_subset) (hroots.symm ▸ hroot) hwv
          (hm.stopsIn hstop hlt hhigh) (by
            show h₁.highestLevel + 3 < w.order + fuel
            omega)
        refine ⟨c', s.addr :: examined, h', ?_,
          hmerged.of_merge (hhalf.sub (Sub.refl w) hwpos) hs hruns hhigh⟩
        obtain ⟨hfree, hsame⟩ := htest.2 hs
        rw [← hbuddy] at hfree hsame hun ⊢
        exact mergeLoop_step hlt hfree hsame hun (hbuddy ▸ hhalf.addr_eq) heq
      · refine ⟨c, [s.addr], h, ?_, hm.merged hcv ?_ fun a ha => ⟨d, hd, ?_⟩⟩
        · rw [← hbuddy] at htest ⊢
          exact mergeLoop_stop hlt (mt htest.1 hs)
        · exact hco.insert_half hm.repr.roots_apart hroot hwr hwpos hhalf hs
        · rw [List.mem_singleton.1 ha, hda]
    · -- at the top level there is no larger block to merge into
      refine ⟨c, [], h, mergeLoop_top hlt, hm.merged hcv (hco.insert_top fun r hroot => ?_) ?_⟩
      · have htop := (hm.repr.root_order r hroot).2
        have hlevel := hm.level
        omega
      · exact fun a ha => absurd ha List.not_mem_nil

/-- What `kfree` does with the live block `b`: the loop examines only starts
of blocks, and the block it produces lies in the window and is free. -/
structure FreedOk (h : Heap) (free live : Set Window) (b : Window) (f : Freed) : Prop where
  starts : ∀ a ∈ f.examined, ∃ d ∈ free ∪ live, d.addr = a
  made : ∃ free' c, HeapOk f.heap free' (live \ {b}) ∧ c ∈ free' ∧ c.addr = f.block ∧ Sub b c ∧
    ∃ r ∈ h.roots, Sub c r
  runs : f.heap.runs = h.runs
  highest : f.heap.highestLevel = h.highestLevel

/-- The first statement of `kfree` marks the block as free; it is on no list yet. -/
theorem HeapOk.merging {b : Window} (ok : HeapOk h free live) (hb : b ∈ live) :
    Merging { h with mem := setIsFree h.mem b.addr true } free (live \ {b}) b := by
  have hlive : insert b (live \ {b}) = live := by
    rw [Set.insert_sdiff_singleton, Set.insert_eq_of_mem hb]
  have hfresh : b ∉ live \ {b} := fun h => h.2 rfl
  have hr : Repr h free (insert b (live \ {b})) := hlive.symm ▸ ok.repr
  have hwrite : HeaderWrite h.mem (setIsFree h.mem b.addr true) b.addr :=
    (HeaderWrite.refl _ _).setIsFree true
  exact
    { repr := hr.headerWrite (Or.inl rfl) hwrite
      fresh := hfresh
      marked := hr.marked_headerWrite hfresh (fun c hc => ok.marked c hc.1) hwrite
      level := (congrArg (· + 3) blockLevel_setIsFree_self).trans (ok.marked b hb).1
      isFree := blockIsFree_setIsFree_self }

/-- The merge loop has turns for all levels. -/
theorem HeapOk.lt_loopFuel (ok : HeapOk h free live) (b : Window) :
    h.highestLevel + 3 < b.order + loopFuel := by
  have hlt := ok.repr.level_lt
  have hfuel : 100 < loopFuel := by decide
  omega

/-- Freeing a confined live block. -/
theorem kfree_spec {b : Window} (ok : HeapOk h free live) (hb : b ∈ live)
    (hconf : Confined h live b) :
    ∃ f, kfree (b.addr + 16) h = some f ∧ FreedOk h free live b f := by
  obtain ⟨r, hroot, v, hv, hbv, hstop⟩ := hconf
  obtain ⟨c, examined, h', heq, hm⟩ :=
    mergeLoop_spec (ok.merging hb) ok.coalesced hroot hv hbv hstop (ok.lt_loopFuel b)
  -- the merged block is outside all lists until the last two statements push it
  obtain ⟨free', _, hr', hcoal⟩ := hm.repr
  have hL : c.order = blockLevel h'.mem c.addr + 3 := hm.level.symm
  have hlevel : blockLevel h'.mem c.addr < memBlocksMaxLevelCount := by
    have hle := hr'.order_le (Or.inr (Or.inl rfl) : c ∈ free' ∪ insert c (live \ {b}))
    have hlt := hr'.level_lt
    simp only [memBlocksMaxLevelCount]
    omega
  have hpush := hr'.push hm.fresh hL rfl hm.isFree
  have hmk' : Marked (setNext h'.mem c.addr (h'.memBlocks (blockLevel h'.mem c.addr)))
      (live \ {b}) :=
    hr'.marked_headerWrite hm.fresh hm.marked ((HeaderWrite.refl _ _).setNext _)
  have hroots : h'.roots = h.roots := by rw [Heap.roots, Heap.roots, hm.runs]
  refine ⟨⟨examined, c.addr, { h'.setHead (blockLevel h'.mem c.addr) c.addr with
    mem := setNext h'.mem c.addr (h'.memBlocks (blockLevel h'.mem c.addr)) }⟩,
    ?_, ?_, ?_, hm.runs, hm.highest⟩
  · have hne : b.addr + 16 ≠ 0 := Nat.succ_ne_zero _
    rw [kfree, if_neg hne, metaSize_eq, Nat.add_sub_cancel]
    simp only [heq, pushFreed, if_pos hlevel]
  · intro a ha
    obtain ⟨d, hd, hda⟩ := hm.starts a ha
    exact ⟨d, hd.imp id fun hl => hl.1, hda⟩
  · exact ⟨insert c free', c, ⟨hpush, hmk', hroots.symm ▸ hcoal⟩, Or.inl rfl, rfl, hm.grows.1,
      r, hroot, hm.grows.2.trans hv⟩

end Loop

end Ssos
