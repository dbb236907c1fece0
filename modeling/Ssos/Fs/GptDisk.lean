import Ssos.Drivers.DiskOnBus
import Ssos.Fs.Gpt
import Ssos.Mem.Payloads

/-!
# The GPT header on the disk

`gpt_init` as the kernel runs it: the buffer comes from the heap, block 1 from
the drive, and the buffer goes back to the heap on every path.

## Main result

- `gptInitDisk_of_run` — the verdict on block 1, and what the call leaves behind
-/

namespace Ssos

open ByteMemory RecordLayout Polling PartialRun Buddy

/-- The buffer at `a`, seen as its 16-bit words. -/
def wordsAt (m : Mem) (a : ℕ) : Words := fun i => UInt16.ofNat (loadLE 2 m (a + 2 * i))

/-- The first `n` words of a buffer, as fields. -/
def wordFields (words : Words) (n : ℕ) : List (ℕ × ℕ) :=
  (List.range n).map fun i => (2, (words i).toNat)

/-- The memory after `disk_read` has left a sector in the buffer at `a`. -/
def storeSector (m : Mem) (a : ℕ) (words : Words) : Mem := storeFields (wordFields words 256) m a

/-- `gpt_init` over a device: the result, the statics, the heap and the device. -/
def gptInitDisk {D : Type*} (dev : Device D) (palloc : ℕ → ℕ) (fuel : ℕ) (vars : GptVars)
    (h : Heap) (d : D) : Option (ℤ × GptVars × Heap × D) :=
  (kmalloc palloc 512 h).bind fun (gptHeader, h) =>
    if gptHeader = 0 then
      let (ret, vars) := gptInit none none vars
      some (ret, vars, h, d)
    else
      (diskRead dev fuel 1 1 (wordsAt h.mem gptHeader) d).bind fun (failed, words, d) =>
        let m := storeSector h.mem gptHeader words
        if failed ≠ 0 then
          (kfree gptHeader { h with mem := m }).map fun f =>
            let (ret, vars) := gptInit (some gptHeader) none vars
            (ret, vars, f.heap, d)
        else
          (kfree gptHeader { h with mem := memset m (gptHeader + 0x10) 0 4 }).map fun f =>
            let (ret, vars) := gptInit (some gptHeader) (some m) vars
            (ret, vars, f.heap, d)

/-! ### The buffer -/

/-- The bytes of a sector, the low byte of each word first. -/
def sectorBytes (block : Sector) : List UInt8 := encode (List.ofFn fun i => (2, (block i).toNat))

section Buffer
variable {m : Mem} {a : ℕ} {words : Words}

theorem fits_wordFields (words : Words) (n : ℕ) : Fits (wordFields words n) := by
  intro field hfield
  obtain ⟨i, -, rfl⟩ := List.mem_map.1 hfield
  exact (words i).toNat_lt

theorem sum_widths_wordFields (words : Words) (n : ℕ) :
    (widths (wordFields words n)).sum = 2 * n := by
  induction n with
  | zero => rfl
  | succ n ih =>
    rw [wordFields, List.range_succ, List.map_append, widths, List.map_append, List.sum_append,
      ← widths, ← wordFields, ih]
    rfl

theorem storeSector_apply_of_outside {x : ℕ} (hx : x < a ∨ a + 512 ≤ x) :
    storeSector m a words x = m x := by
  apply storeFields_apply_of_outside
  rw [sum_widths_wordFields]
  exact hx

theorem wordFields_sector (words : Words) :
    wordFields words 256 = List.ofFn fun i => (2, (sectorOf words 0 i).toNat) := by
  rw [wordFields, ← List.map_coe_finRange_eq_range, List.map_map, List.ofFn_eq_map]
  refine List.map_congr_left fun i _ => ?_
  simp only [Function.comp_apply, sectorOf, Nat.zero_mul, Nat.zero_add]

theorem bytesAt_storeSector (m : Mem) (a : ℕ) (words : Words) :
    bytesAt (storeSector m a words) a 512 = sectorBytes (sectorOf words 0) := by
  have hbytes := bytesAt_storeFields (fits_wordFields words 256) m a
  rw [sum_widths_wordFields, show 2 * 256 = 512 from rfl] at hbytes
  rw [storeSector, hbytes, wordFields_sector, sectorBytes]

/-- The header in the buffer has the first 92 bytes of the sector. -/
theorem bytes_readHeader_storeSector (m : Mem) (a : ℕ) (words : Words) :
    (readHeader (storeSector m a words) a).bytes = (sectorBytes (sectorOf words 0)).take 92 := by
  rw [bytes_readHeader, ← bytesAt_storeSector m a words, show 512 = 92 + 420 from rfl, bytesAt_add,
    List.take_left' (length_bytesAt _ _ _)]

/-- Neither the sector nor the zeroed checksum leaves the buffer. -/
theorem memset_storeSector_apply_of_outside {x : ℕ} (hx : ¬(a ≤ x ∧ x < a + 512)) :
    memset (storeSector m a words) (a + 0x10) 0 4 x = m x := by
  rw [memset_apply, if_neg (by omega), storeSector_apply_of_outside (by omega)]

end Buffer

/-! ### The call -/

theorem SectorStore.sectorOf_read_one (store : SectorStore) (lba : ℕ) (buff : Words) :
    sectorOf (store.read lba 1 buff) 0 = store lba := by
  funext i
  have hi : i.val < 256 := i.isLt
  have hdiv : i.val / 256 = 0 := Nat.div_eq_of_lt hi
  rw [sectorOf, Nat.zero_mul, Nat.zero_add, read, if_pos (by omega), hdiv, Nat.add_zero]
  exact congrArg _ (Fin.ext (Nat.mod_eq_of_lt hi))

/-- The page has a clear window of 1 KiB, which a sector with its header needs. -/
def RoomForSector (page : ℕ) (s : HeapState) : Prop := ∃ w, w.order = 10 ∧ OpenWindow page s w

/-- The result and the statics after a call that has read `block`. -/
def Judged (block : Sector) (ret : ℤ) (vars : GptVars) : Prop :=
  ∃! header : GptHeader, header.bytes = (sectorBytes block).take 92 ∧ ret = header.verdict ∧
    (ret = 0 ↔ header.Valid) ∧ vars = header.toGptVars

theorem judged_storeSector (m : Mem) (a : ℕ) (words : Words) (vars : GptVars) :
    Judged (sectorOf words 0) (gptInit (some a) (some (storeSector m a words)) vars).1
      (gptInit (some a) (some (storeSector m a words)) vars).2 := by
  have hbytes := bytes_readHeader_storeSector m a words
  refine ⟨readHeader (storeSector m a words) a, ⟨hbytes, gptInit_result _ _ _, ?_,
    gptInit_vars _ _ _⟩, ?_⟩
  · rw [gptInit_result]
    exact GptHeader.verdict_eq_zero_iff _
  · intro header ⟨hheader, _⟩
    refine (readHeader_of_bytes ?_).symm
    rw [← bytes_readHeader, hbytes, hheader]

theorem GptHeader.bytes_injective : Function.Injective GptHeader.bytes := by
  intro h h' heq
  have hbytes := bytesAt_memOf h.bytes 0
  rw [length_bytes] at hbytes
  rw [← readHeader_of_bytes hbytes, readHeader_of_bytes (hbytes.trans heq)]

/-- The verdict on the header that stands in the block. -/
theorem Judged.eq {block : Sector} {ret : ℤ} {vars : GptVars} (h : Judged block ret vars)
    {header : GptHeader} (hheader : header.bytes = (sectorBytes block).take 92) :
    ret = header.verdict ∧ (ret = 0 ↔ header.Valid) ∧ vars = header.toGptVars := by
  obtain ⟨header', ⟨hbytes, hrest⟩, -⟩ := h
  obtain rfl := GptHeader.bytes_injective (hbytes.trans hheader.symm)
  exact hrest

/-- Every block starts with a header. -/
theorem exists_header (block : Sector) :
    ∃ header : GptHeader, header.bytes = (sectorBytes block).take 92 := by
  have hjudged := judged_storeSector (fun _ => 0) 0 (SectorStore.read 0 1 (fun _ => 0) fun _ => block)
    ⟨0, 0, 0, fun _ => 0, 0, 0, 0, 0⟩
  rw [SectorStore.sectorOf_read_one] at hjudged
  obtain ⟨header, ⟨hbytes, -⟩, -⟩ := hjudged
  exact ⟨header, hbytes⟩

section Call
variable {page p capacity : ℕ} {s : HeapState} {palloc : ℕ → ℕ} {h : Heap} {store : SectorStore}
  {d : Drive}

/-- `kmalloc(512)` on the first page. -/
theorem PageInv.kmalloc_sector (hinv : PageInv page s) (palloc : ℕ → ℕ) :
    ∃ p h, kmalloc palloc 512 s.heap = some (p, h) ∧ (p ≠ 0 ↔ RoomForSector page s) ∧
      (p = 0 → h = s.heap) := by
  obtain ⟨p, h, hres, hnull, hsame⟩ := hinv.nullMeansNoRoom 512 palloc (by decide) (by decide)
  have hclog : Nat.clog 2 (512 + 16) = 10 := by decide
  refine ⟨p, h, hres, ?_, hsame⟩
  rw [Ne, hnull, hclog]
  constructor
  · intro hnot
    by_contra hroom
    refine hnot fun w hw haligned hlower hupper => ?_
    by_contra hclear
    refine hroom ⟨w, hw, haligned, hlower, hupper, fun b hb x hxw hxb => ?_⟩
    exact hclear ⟨b, hb, x, hxw, hxb⟩
  · rintro ⟨w, hw, hopen⟩ hall
    obtain ⟨b, hb, x, hxw, hxb⟩ := hall w hw hopen.aligned hopen.lower hopen.upper
    exact hopen.clear b hb x hxw hxb

/-- There is room where nothing is allocated. -/
theorem roomForSector_of_empty (hp : PageOk page) (hlive : s.live = []) : RoomForSector page s := by
  refine ⟨⟨page, 10⟩, rfl, ?_, le_rfl, ?_, ?_⟩
  · exact (show 2 ^ 10 ∣ 2 ^ 21 from Nat.pow_dvd_pow 2 (by decide)).trans hp.aligned
  · exact Nat.add_le_add_left (show 2 ^ 10 ≤ 2 ^ 21 by decide) page
  · intro b hb
    rw [liveBlocks, hlive] at hb
    exact absurd hb List.not_mem_nil

/-- The call does not notice what its drive is part of. -/
theorem gptInitDisk_embeds {D E : Type*} {devD : Device D} {devE : Device E} {f : D → E}
    (hf : Embeds devD devE f ataReads ataWrites) (palloc : ℕ → ℕ) (fuel : ℕ) (vars : GptVars)
    (heap : Heap) (d : D) :
    gptInitDisk devE palloc fuel vars heap (f d) =
      (gptInitDisk devD palloc fuel vars heap d).map (Prod.map id (Prod.map id (Prod.map id f))) := by
  rw [gptInitDisk, gptInitDisk, Option.map_bind]
  refine congrArg _ (funext fun res => ?_)
  obtain ⟨gptHeader, h⟩ := res
  by_cases hnull : gptHeader = 0
  · simp only [Function.comp_apply, if_pos hnull, Option.map_some, Prod.map_apply, id]
  · simp only [Function.comp_apply, if_neg hnull]
    rw [diskRead_embeds hf, Option.bind_map, Option.map_bind]
    refine congrArg _ (funext fun res => ?_)
    obtain ⟨failed, words, d⟩ := res
    by_cases hfailed : failed ≠ 0
    · simp only [Function.comp_apply, Prod.map_apply, id, if_pos hfailed, Option.map_map]
      rfl
    · simp only [Function.comp_apply, Prod.map_apply, id, if_neg hfailed, Option.map_map]
      rfl

/-- A call that gets no buffer. -/
theorem gptInitDisk_of_null {D : Type*} (dev : Device D) (fuel : ℕ) (vars : GptVars) (d : D)
    (hres : kmalloc palloc 512 s.heap = some (0, h)) :
    gptInitDisk dev palloc fuel vars s.heap d = some (-1, vars, h, d) := by
  rw [gptInitDisk, hres]
  rfl

/-- A call that gets a buffer and a sector. -/
theorem gptInitDisk_settles (vars : GptVars) (hres : kmalloc palloc 512 s.heap = some (p, h))
    (hp : p ≠ 0) {words : Words} {d' : Drive} {f : Freed}
    (hread : Settles (fun fuel => diskRead ataDrive fuel 1 1 (wordsAt h.mem p) d) (0, words, d'))
    (hfree : kfree p { h with mem := memset (storeSector h.mem p words) (p + 0x10) 0 4 } = some f) :
    Settles (fun fuel => gptInitDisk ataDrive palloc fuel vars s.heap d)
      ((gptInit (some p) (some (storeSector h.mem p words)) vars).1,
        (gptInit (some p) (some (storeSector h.mem p words)) vars).2, f.heap, d') := by
  obtain ⟨N, hN⟩ := hread
  refine ⟨N, fun fuel hfuel => ?_⟩
  simp only [gptInitDisk, hres, Option.bind_some, if_neg hp, hN fuel hfuel, ne_eq,
    not_true_eq_false, if_false, hfree, Option.map_some]

/-- **Every outcome of `gpt_init`** on an intact heap and a drive that holds the
store. -/
theorem PageInv.gptInitDisk (hinv : PageInv page s) (hd : HoldsStore capacity store d)
    (hcap : capacity ≤ 2 ^ 28) (hblock : 2 ≤ capacity) (palloc : ℕ → ℕ) (vars : GptVars) :
    ∃ ret vars' h' d',
      Settles (fun fuel => Ssos.gptInitDisk ataDrive palloc fuel vars s.heap d) (ret, vars', h', d') ∧
      HoldsStore capacity store d' ∧ Restored page s h' ∧
      (RoomForSector page s → Judged (store 1) ret vars') ∧
      (¬RoomForSector page s → ret = -1 ∧ vars' = vars) := by
  obtain ⟨p, h, hres, hroom, hsame⟩ := hinv.kmalloc_sector palloc
  by_cases hp : p = 0
  · subst hp
    obtain rfl := hsame rfl
    refine ⟨-1, vars, s.heap, d, ?_, hd, .refl hinv, fun hr => absurd rfl (hroom.2 hr),
      fun _ => ⟨rfl, rfl⟩⟩
    simp only [gptInitDisk_of_null ataDrive _ vars d hres]
    exact .const _
  · obtain ⟨d', hread, hd'⟩ := hd.read hcap le_rfl (by decide) hblock (wordsAt h.mem p)
    obtain ⟨f, hfree, hrestored⟩ := hinv.returned (by decide) hres hp
      fun x hx => memset_storeSector_apply_of_outside hx
    refine ⟨_, _, f.heap, d', gptInitDisk_settles vars hres hp hread hfree, hd', hrestored,
      fun _ => ?_, fun hno => absurd (hroom.1 hp) hno⟩
    rw [← store.sectorOf_read_one 1 (wordsAt h.mem p)]
    exact judged_storeSector _ _ _ _

end Call

/-- **The verdict of `gpt_init`.** After any calls of the heap with small
requests and any calls of the disk, `gpt_init` returns -1 when the page has no
room for a sector. Otherwise it judges the header in the first 92 bytes of block
1, as the disk calls have left it, and returns 0 for the valid ones only, with
the fields in the statics. In both cases the disk is what it was, and so are the
free blocks, the allocations and their contents. -/
theorem gptInitDisk_of_run {page : ℕ} (hp : PageOk page) (mem : Mem) {ops : List HeapOp}
    (hops : Along heapStep (fun s op => Lawful s op ∧ Small op) (HeapState.start mem page) ops)
    {capacity : ℕ} (hcap : capacity ≤ 2 ^ 28) (hblock : 2 ≤ capacity) {store : SectorStore}
    {d : Drive} (hd : HoldsStore capacity store d) {calls : List DiskCall}
    (hcalls : ∀ call ∈ calls, call.Fits capacity) (palloc : ℕ → ℕ) (vars : GptVars) :
    ∃ s d₁, exec heapStep (HeapState.start mem page) ops = some s ∧ Leads d₁ d calls ∧
      ∃ ret vars' h' d₂,
        Settles (fun fuel => gptInitDisk ataDrive palloc fuel vars s.heap d₁)
          (ret, vars', h', d₂) ∧
        HoldsStore capacity (store.after calls) d₂ ∧ Restored page s h' ∧
        (RoomForSector page s → Judged (store.after calls 1) ret vars') ∧
        (¬RoomForSector page s → ret = -1 ∧ vars' = vars) := by
  obtain ⟨s, hexec, hinv⟩ := pageInv_of_run hp mem hops
  obtain ⟨d₁, hleads, hd₁⟩ := hd.calls hcap hcalls
  exact ⟨s, d₁, hexec, hleads, hinv.gptInitDisk hd₁ hcap hblock palloc vars⟩

/-- A heap in use, and a disk of four sectors whose block 1 is written. -/
theorem gptInitDisk_of_run_blank :
    ∃ s d₁, exec heapStep (HeapState.start (fun _ => 0) 0x200000) smallCalls = some s ∧
      Leads d₁ (.blank 4) [.write 1 1 fun _ => 7] ∧ ∃ ret vars' h' d₂,
        Settles (fun fuel => gptInitDisk ataDrive (fun _ => 0) fuel
          ⟨0, 0, 0, fun _ => 0, 0, 0, 0, 0⟩ s.heap d₁) (ret, vars', h', d₂) ∧ Restored 0x200000 s h' := by
  have hcalls : ∀ call ∈ [DiskCall.write 1 1 fun _ => 7], call.Fits 4 := by
    intro call hcall
    obtain rfl := List.mem_singleton.1 hcall
    exact ⟨by decide, by decide, by decide⟩
  have hp : PageOk 0x200000 := ⟨by decide, by decide, by decide⟩
  obtain ⟨s, d₁, hexec, hleads, ret, vars', h', d₂, hsettles, -, hrestored, -⟩ :=
    gptInitDisk_of_run hp _ smallCalls_small (by decide) (by decide) (Drive.holdsStore_blank 4)
      hcalls (fun _ => 0) ⟨0, 0, 0, fun _ => 0, 0, 0, 0, 0⟩
  exact ⟨s, d₁, hexec, hleads, ret, vars', h', d₂, hsettles, hrestored⟩

end Ssos
