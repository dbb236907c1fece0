import Ssos.Mem.KmallocSpec

/-!
# What the headers describe

The blocks of a page run read off memory alone: start at the run, take the
level of the header there, go on behind the block. In an intact heap this
walk finds exactly the free and the live blocks of the run.
-/

namespace Ssos

open ByteMemory Buddy Window PointerList

/-- The blocks that the headers in the run `r` describe, in address order. -/
def runBlocks (m : Mem) (r : Window) : List Window :=
  walk (fun a => blockLevel m a + memBlocksBaseLevel) r.stop (2 ^ r.order) r.addr

/-- Those of them that are marked free. -/
def runFree (m : Mem) (r : Window) : List Window :=
  (runBlocks m r).filter fun b => blockIsFree m b.addr

/-- The blocks that the headers in all runs describe. -/
def heapBlocks (h : Heap) : List Window := h.runs.flatMap (runBlocks h.mem)

section Walk
variable {h : Heap} {free live : Set Window} {r : Window}

theorem HeapOk.level_of_mem (ok : HeapOk h free live) {b : Window} (hb : b ∈ free ∪ live) :
    blockLevel h.mem b.addr + memBlocksBaseLevel = b.order := by
  obtain hb | hb := hb
  · exact ok.repr.level b hb
  · exact (ok.marked b hb).1

theorem HeapOk.isFree_iff (ok : HeapOk h free live) {b : Window} (hb : b ∈ free ∪ live) :
    blockIsFree h.mem b.addr = true ↔ b ∈ free := by
  obtain hb | hb := hb
  · exact ⟨fun _ => hb, fun _ => ok.repr.isFree b hb⟩
  · have hused := (ok.marked b hb).2
    exact ⟨fun hf => Bool.noConfusion (hused.symm.trans hf), ok.repr.isFree b⟩

/-- **Header walk.** The headers describe a gapless list of the run's blocks. -/
theorem HeapOk.runBlocks_spec (ok : HeapOk h free live) (hroot : r ∈ h.roots) :
    Contiguous r.stop r.addr (runBlocks h.mem r) ∧
      ∀ b, b ∈ runBlocks h.mem r ↔ b ∈ free ∪ live ∧ Sub b r := by
  have ht := ok.repr.tiling
  have hfuel : r.stop ≤ r.addr + 2 ^ r.order := le_rfl
  let orderAt := fun a => blockLevel h.mem a + memBlocksBaseLevel
  have horder : ∀ b ∈ free ∪ live, orderAt b.addr = b.order := fun b hb => ok.level_of_mem hb
  obtain ⟨hcont, hmem⟩ := ht.walk_spec ok.repr.roots_apart horder hroot
    (Or.inr (ht.exists_first ok.repr.roots_apart hroot)) hfuel
  refine ⟨hcont, fun b => (hmem b).trans ⟨fun ⟨hb, hs, _⟩ => ⟨hb, hs⟩, fun ⟨hb, hs⟩ => ?_⟩⟩
  exact ⟨hb, hs, hs.addr_le⟩

theorem HeapOk.mem_runFree (ok : HeapOk h free live) (hroot : r ∈ h.roots) (b : Window) :
    b ∈ runFree h.mem r ↔ b ∈ free ∧ Sub b r := by
  rw [runFree, List.mem_filter, (ok.runBlocks_spec hroot).2]
  constructor
  · intro ⟨⟨hb, hs⟩, hf⟩
    exact ⟨(ok.isFree_iff hb).1 hf, hs⟩
  · intro ⟨hb, hs⟩
    exact ⟨⟨Or.inl hb, hs⟩, ok.repr.isFree b hb⟩

theorem HeapOk.mem_heapBlocks (ok : HeapOk h free live) (b : Window) :
    b ∈ heapBlocks h ↔ b ∈ free ∪ live := by
  rw [heapBlocks, List.mem_flatMap]
  constructor
  · intro ⟨r, hroot, hb⟩
    exact ((ok.runBlocks_spec hroot).2 b |>.1 hb).1
  · intro hb
    obtain ⟨r, hroot, hs⟩ := ok.repr.tiling.within b hb
    exact ⟨r, hroot, (ok.runBlocks_spec hroot).2 b |>.2 ⟨hb, hs⟩⟩

end Walk

end Ssos
