import Ssos.Foundations.RunScan
import Ssos.Mem.MemOps

/-!
# The page frame allocator

`paging_map_page`, `paging_alloc_pages` and `paging_free_pages` of
`mem/paging.c` over the module's statics. Page tables live in byte memory; the
bitmap `pages` is one of the statics and is no part of that memory.
-/

namespace Ssos

open ByteMemory RunScan

/-- `uint64_t`, `uintptr_t`. -/
abbrev Word := BitVec 64

def maxPages : ℕ := 2560
def bucketSize : ℕ := 64
def totalBucketCount : ℕ := maxPages / 64

def pagePresent : Word := 1#64 <<< 0
def pageRw : Word := 1#64 <<< 1
def pageUser : Word := 1#64 <<< 2
def pagePwt : Word := 1#64 <<< 3
def pageAccessed : Word := 1#64 <<< 5
def pageDirty : Word := 1#64 <<< 6
def pageGlobal : Word := 1#64 <<< 8
def pageExecuteDisable : Word := 1#64 <<< 63
def pageAddrMask : Word := 0x000FFFFFFFFFF000#64
def pageAddrShift : ℕ := 12

/-- `PAGE_SIZE` as an address difference. -/
def pageBytes : Word := 0x200000#64

/-- The module's statics and the memory. `fresh` is bookkeeping that the
source does not have: each entry made for a new table, with the address of the
table, newest first. -/
structure Paging where
  hhdmStart : Word
  pages : ℕ → Word
  physPageBase : Word
  kernelPml4 : Word
  presentPageCount : ℕ
  currFreePageTable : Word
  mem : Mem
  fresh : List (Word × Word)

/-! ### Page tables -/

def load64 (m : Mem) (a : Word) : Word := BitVec.ofNat 64 (loadLE 8 m a.toNat)

def store64 (m : Mem) (a v : Word) : Mem := storeLE 8 m a.toNat v.toNat

/-- `table[idx]` of a `uint64_t *table`. -/
def tableEntry (m : Mem) (table idx : Word) : Word := load64 m (table + 8#64 * idx)

def setTableEntry (m : Mem) (table idx entry : Word) : Mem := store64 m (table + 8#64 * idx) entry

def pagingGetPageEntryWithAlloc
    (present rw user pwt accessed dirty global executeDisable : Bool) (s : Paging) :
    Word × Paging :=
  let pageEntry := 0#64
  let pageEntry := pageEntry ||| if present then pagePresent else 0
  let pageEntry := pageEntry ||| if rw then pageRw else 0
  let pageEntry := pageEntry ||| if user then pageUser else 0
  let pageEntry := pageEntry ||| if pwt then pagePwt else 0
  let pageEntry := pageEntry ||| if accessed then pageAccessed else 0
  let pageEntry := pageEntry ||| if dirty then pageDirty else 0
  let pageEntry := pageEntry ||| if global then pageGlobal else 0
  let pageEntry := pageEntry ||| if executeDisable then pageExecuteDisable else 0
  let virtPageTableAddr := s.currFreePageTable
  let physPageTableAddr := virtPageTableAddr - s.hhdmStart
  let pageEntry := pageEntry ||| physPageTableAddr <<< pageAddrShift
  (pageEntry, { s with
    mem := memset s.mem virtPageTableAddr.toNat 0 0x1000
    currFreePageTable := s.currFreePageTable + 0x1000#64
    fresh := (pageEntry, virtPageTableAddr) :: s.fresh })

/-- `if (!(table[idx] & PAGE_PRESENT)) table[idx] = paging_get_page_entry_with_alloc(..)`. -/
def pagingEnsureEntry (table idx : Word) (s : Paging) : Paging :=
  if tableEntry s.mem table idx &&& pagePresent = 0 then
    let (entry, s) :=
      pagingGetPageEntryWithAlloc true true false false false false false false s
    { s with mem := setTableEntry s.mem table idx entry }
  else s

/-- `(uint64_t *)((entry & PAGE_ADDR_MASK) | paging_hhdm_start)`. -/
def tableOfEntry (hhdmStart entry : Word) : Word := (entry &&& pageAddrMask) ||| hhdmStart

/-- `(virt_page_addr >> shift) & 0x1FF`. -/
def tableIndex (virtPageAddr : Word) (shift : ℕ) : Word := (virtPageAddr >>> shift) &&& 0x1FF#64

def pagingMapPage (physPageAddr pml4Addr : Word) (s : Paging) : Paging :=
  let virtPageAddr := physPageAddr + s.hhdmStart
  let pml4Idx := tableIndex virtPageAddr 39
  let pdptIdx := tableIndex virtPageAddr 30
  let pdIdx := tableIndex virtPageAddr 21
  let ptIdx := tableIndex virtPageAddr 12
  let s := pagingEnsureEntry pml4Addr pml4Idx s
  let pdpt := tableOfEntry s.hhdmStart (tableEntry s.mem pml4Addr pml4Idx)
  let s := pagingEnsureEntry pdpt pdptIdx s
  let pd := tableOfEntry s.hhdmStart (tableEntry s.mem pdpt pdptIdx)
  let s := pagingEnsureEntry pd pdIdx s
  let pt := tableOfEntry s.hhdmStart (tableEntry s.mem pd pdIdx)
  { s with
    mem :=
      setTableEntry s.mem pt ptIdx ((physPageAddr &&& pageAddrMask) ||| pagePresent ||| pageRw) }

/-! ### The bitmap -/

/-- The `bit_index` loop over one bucket. -/
def scanBucket (word bucketBaseAddr : Word) (count : ℕ) : Progress Word → Progress Word ⊕ Word :=
  scan (fun bitIndex => decide (word &&& (1#64 <<< bitIndex) ≠ 0))
    (fun bitIndex => bucketBaseAddr + BitVec.ofNat 64 bitIndex * pageBytes) count
    (List.range bucketSize)

/-- The `bucket_index` loop; the candidate address when it returns early. -/
def scanBuckets (pages : ℕ → Word) (count : ℕ) : List ℕ → Word → Progress Word → Option Word
  | [], _, _ => none
  | bucketIndex :: rest, bucketBaseAddr, p =>
    let next := bucketBaseAddr + BitVec.ofNat 64 bucketSize * pageBytes
    if pages bucketIndex ≠ 0 then
      match scanBucket (pages bucketIndex) bucketBaseAddr count p with
      | .inr candidateAddr => some candidateAddr
      | .inl p => scanBuckets pages count rest next p
    else scanBuckets pages count rest next p

/-- `pages[i / BUCKET_SIZE] &= ~(1ULL << (i % BUCKET_SIZE))`. -/
def clearPage (pages : ℕ → Word) (pageIdx : ℕ) : ℕ → Word :=
  Function.update pages (pageIdx / bucketSize)
    (pages (pageIdx / bucketSize) &&& ~~~(1#64 <<< (pageIdx % bucketSize)))

/-- `pages[i / BUCKET_SIZE] |= 1ULL << (i % BUCKET_SIZE)`. -/
def setPage (pages : ℕ → Word) (pageIdx : ℕ) : ℕ → Word :=
  Function.update pages (pageIdx / bucketSize)
    (pages (pageIdx / bucketSize) ||| 1#64 <<< (pageIdx % bucketSize))

/-- The marking loop: map each page of the run and clear its bit. -/
def markPages : ℕ → Word → Paging → Paging
  | 0, _, s => s
  | left + 1, currAddr, s =>
    let s := pagingMapPage currAddr s.kernelPml4 s
    let pageIdx := ((currAddr - s.physPageBase) / pageBytes).toNat
    markPages left (currAddr + pageBytes) { s with pages := clearPage s.pages pageIdx }

/-- The address is `0` for `NULL`. -/
def pagingAllocPages (count : ℕ) (s : Paging) : Word × Paging :=
  match scanBuckets s.pages count (List.range totalBucketCount) s.physPageBase
      ⟨0, s.physPageBase⟩ with
  | none => (0, s)
  | some candidateAddr => (candidateAddr + s.hhdmStart, markPages count candidateAddr s)

/-- The loop of `paging_free_pages`; the offset rises in every turn, so `left`
need only cover the offsets below `count`. -/
def freeLoop (count presentPageCount : ℕ) : ℕ → ℕ → (ℕ → Word) → ℕ → Word
  | 0, _, pages => pages
  | left + 1, currPageOff, pages =>
    if currPageOff < count ∧ currPageOff < presentPageCount then
      freeLoop count presentPageCount left (currPageOff + 1) (setPage pages currPageOff)
    else pages

def pagingFreePages (addr : Word) (count : ℕ) (s : Paging) : Paging :=
  let physPageAddr := addr - s.hhdmStart
  if physPageAddr % pageBytes ≠ 0 then s
  else if physPageAddr < s.physPageBase then s
  else
    let off := ((physPageAddr - s.physPageBase) / pageBytes).toNat
    { s with pages := freeLoop count s.presentPageCount count off s.pages }

end Ssos
