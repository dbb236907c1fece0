import Ssos.BitMath
import Ssos.Foundations.ByteMemory
import Ssos.Foundations.BuddyTree
import Ssos.Foundations.PointerList

/-!
# The kernel heap

`kalloc_init`, `kmalloc` and `kfree` of `mem/mem.c`. Block headers live in byte
memory in front of each block; the free lists are threaded through them. The
page allocator is a parameter of `kmalloc`: the address that
`paging_alloc_pages` answers for each page count during the call.

A result `none` means that the C code has no defined continuation (the
argument of `__builtin_clz` is zero, an index is outside `mem_blocks`) or that
a loop is still running after `2 ^ 64` turns.
-/

namespace Ssos

open ByteMemory Buddy PointerList

def pageSize : ℕ := 0x200000
def log2PageSize : ℕ := 21
def kernelMemAlignment : ℕ := 16
def memBlocksMaxLevelCount : ℕ := 34
def memBlocksBaseLevel : ℕ := 3

/-- Turns after which a loop counts as not returning. -/
def loopFuel : ℕ := 2 ^ 64

/-! ### Block headers: next at offset 0, level at offset 8, is_free at offset 9 -/

def sizeofMemBlock : ℕ := 16

def metaSize : ℕ := alignUp sizeofMemBlock kernelMemAlignment

def blockNext (m : Mem) (block : ℕ) : ℕ := loadLE 8 m block
def blockLevel (m : Mem) (block : ℕ) : ℕ := (m (block + 8)).toNat
def blockIsFree (m : Mem) (block : ℕ) : Bool := decide (m (block + 9) ≠ 0)

def setNext (m : Mem) (block p : ℕ) : Mem := storeLE 8 m block p
def setLevel (m : Mem) (block level : ℕ) : Mem :=
  Function.update m (block + 8) (UInt8.ofNat level)
def setIsFree (m : Mem) (block : ℕ) (b : Bool) : Mem :=
  Function.update m (block + 9) (if b then 1 else 0)

/-- The module's statics and the memory. `runs` is bookkeeping that the source
does not have: the page runs obtained so far. -/
structure Heap where
  mem : Mem
  memBlocks : ℕ → ℕ
  highestBlockSize : ℕ
  highestLevel : ℕ
  runs : List Window

/-- `mem_blocks[level] = p`. -/
def Heap.setHead (h : Heap) (level p : ℕ) : Heap :=
  { h with memBlocks := Function.update h.memBlocks level p }

/-- The statics before `kalloc_init`. -/
def Heap.initial (mem : Mem) : Heap where
  mem := mem
  memBlocks := fun _ => 0
  highestBlockSize := pageSize
  highestLevel := log2PageSize - memBlocksBaseLevel
  runs := []

/-- `page` is the answer of `paging_alloc_pages(1)`. -/
def kallocInit (page : ℕ) (h : Heap) : Int × Heap :=
  if page = 0 then (-1, h)
  else
    let m := setNext h.mem page 0
    let m := setLevel m page h.highestLevel
    let m := setIsFree m page true
    (0, { h.setHead h.highestLevel page with
          mem := m
          runs := ⟨page, h.highestLevel + memBlocksBaseLevel⟩ :: h.runs })

/-! ### kmalloc -/

/-- One turn of the growth loop after its level test: enlarge the sizes, ask
for the run, and head the new level with it. `false` when the run is refused. -/
def growStep (pagingAllocPages : ℕ → ℕ) (h : Heap) : Bool × Heap :=
  let size := h.highestBlockSize * 2
  let level := h.highestLevel + 1
  let p := pagingAllocPages (size / pageSize)
  let h := { h.setHead level p with highestBlockSize := size, highestLevel := level }
  if p = 0 then (false, h)
  else
    let m := setNext h.mem p 0
    let m := setLevel m p level
    let m := setIsFree m p true
    (true, { h with mem := m, runs := ⟨p, level + memBlocksBaseLevel⟩ :: h.runs })

/-- `while (bytes > highest_block_size)`; `false` when the body returns `NULL`.
The level rises in every turn, so `levels` need only cover the levels left. -/
def growHeap (pagingAllocPages : ℕ → ℕ) (bytes : ℕ) : ℕ → Heap → Bool × Heap
  | 0, h => (false, h)
  | levels + 1, h =>
    if bytes > h.highestBlockSize then
      if h.highestLevel + 1 ≥ memBlocksMaxLevelCount then (false, h)
      else
        match growStep pagingAllocPages h with
        | (false, h) => (false, h)
        | (true, h) => growHeap pagingAllocPages bytes levels h
    else (true, h)

/-- Mark the head of a list as used and hand out its payload; the head has
already been unlinked. -/
def takeBlock (h : Heap) (block : ℕ) : ℕ × Heap :=
  let m := setIsFree h.mem block false
  let m := setNext m block 0
  (block + metaSize, { h with mem := m })

/-- `block->level = level; block->is_free = true`, then push on its list. -/
def pushHalf (h : Heap) (block level : ℕ) : Heap :=
  let m := setLevel h.mem block level
  let m := setIsFree m block true
  let m := setNext m block (h.memBlocks level)
  { h.setHead level block with mem := m }

/-- The splitting loop. The first argument is `curr_level + 1`, the number of
levels from `curr_level` down to `0`. -/
def splitLoop (targetLevel : ℕ) : ℕ → Heap → ℕ × Heap
  | 0, h => (0, h)
  | currLevel + 1, h =>
    if currLevel < targetLevel then (0, h)
    else
      let freeBlock := h.memBlocks currLevel
      if freeBlock = 0 then splitLoop targetLevel currLevel h
      else
        let h := h.setHead currLevel (blockNext h.mem freeBlock)
        if currLevel = targetLevel then takeBlock h freeBlock
        else
          let blockSize := 2 ^ (currLevel + memBlocksBaseLevel)
          let h := pushHalf h freeBlock (currLevel - 1)
          let h := pushHalf h (freeBlock + blockSize / 2) (currLevel - 1)
          splitLoop targetLevel currLevel h

/-- `kmalloc` after the growth loop, for `bytes` including the header. -/
def allocLevel (bytes : ℕ) (h : Heap) : Option (ℕ × Heap) :=
  match logb (roundPow2Boundary bytes) with
  | none => none
  | some log =>
    -- a negative target level is an index in front of `mem_blocks`
    if log < memBlocksBaseLevel then none
    else
      let targetLevel := log - memBlocksBaseLevel
      let freeBlock := h.memBlocks targetLevel
      if freeBlock ≠ 0 then
        some (takeBlock (h.setHead targetLevel (blockNext h.mem freeBlock)) freeBlock)
      else some (splitLoop targetLevel (h.highestLevel + 1) h)

def kmalloc (pagingAllocPages : ℕ → ℕ) (bytes : ℕ) (h : Heap) : Option (ℕ × Heap) :=
  if bytes = 0 then some (0, h)
  else
    let bytes := (bytes + metaSize) % 2 ^ 64
    match growHeap pagingAllocPages bytes (memBlocksMaxLevelCount - h.highestLevel) h with
    | (false, h) => some (0, h)
    | (true, h) => allocLevel bytes h

/-! ### kfree -/

/-- Remove `buddy` from the list of its level. -/
def unlinkBuddy (h : Heap) (level buddy : ℕ) : Option Heap :=
  if h.memBlocks level = buddy then some (h.setHead level (blockNext h.mem buddy))
  else
    match findPrev (blockNext h.mem) buddy loopFuel (h.memBlocks level) with
    | none => none
    | some prev =>
      if prev ≠ 0 then some { h with mem := setNext h.mem prev (blockNext h.mem buddy) }
      else some h

/-- The merge loop. Besides the final block it returns the buddy addresses it
has examined, in order. -/
def mergeLoop : ℕ → ℕ → Heap → Option (ℕ × List ℕ × Heap)
  | 0, _, _ => none
  | fuel + 1, block, h =>
    let level := blockLevel h.mem block
    if level < h.highestLevel then
      let blockSize := 2 ^ (level + memBlocksBaseLevel)
      let buddy := block ^^^ blockSize
      if !(blockIsFree h.mem buddy && blockLevel h.mem buddy == level) then
        some (block, [buddy], h)
      else
        match unlinkBuddy h level buddy with
        | none => none
        | some h =>
          let block := if buddy < block then buddy else block
          let h := { h with mem := setLevel h.mem block (blockLevel h.mem block + 1) }
          match mergeLoop fuel block h with
          | none => none
          | some (last, examined, h) => some (last, buddy :: examined, h)
    else some (block, [], h)

/-- `block->next = mem_blocks[block->level]; mem_blocks[block->level] = block`. -/
def pushFreed (h : Heap) (block : ℕ) : Option Heap :=
  let level := blockLevel h.mem block
  if level < memBlocksMaxLevelCount then
    some { h.setHead level block with mem := setNext h.mem block (h.memBlocks level) }
  else none

/-- What a call of `kfree` did: the buddy addresses its merge loop examined,
the block it put on a free list, and the heap afterwards. -/
structure Freed where
  examined : List ℕ
  block : ℕ
  heap : Heap

def kfree (mem : ℕ) (h : Heap) : Option Freed :=
  if mem = 0 then some ⟨[], 0, h⟩
  else
    let block := mem - metaSize
    match mergeLoop loopFuel block { h with mem := setIsFree h.mem block true } with
    | none => none
    | some (last, examined, h) =>
      match pushFreed h last with
      | none => none
      | some h => some ⟨examined, last, h⟩

end Ssos
