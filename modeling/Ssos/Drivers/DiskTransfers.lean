import Ssos.Drivers.AtaDrive

/-!
# Disk transfers

Whole calls of `disk_read` and `disk_write` on an error-free drive: which
sectors they touch, and when they leave the drive idle.

## Main results

- `writeExact_iff` — a write is exact exactly when the range lies on the disk
- `inStep_iff` — calls leave the drive idle exactly when they transfer 1 to 256 sectors
-/

namespace Ssos

open Polling

/-! ### Block after block -/

/-- The sectors after the first `k` sectors of a buffer are stored from `lba` on. -/
def storeSectors (sectors : List Sector) (lba : ℕ) (buff : Words) : ℕ → List Sector
  | 0 => sectors
  | k + 1 => (storeSectors sectors lba buff k).set (lba + k) (sectorOf buff k)

@[simp] theorem length_storeSectors (sectors : List Sector) (lba : ℕ) (buff : Words) (k : ℕ) :
    (storeSectors sectors lba buff k).length = sectors.length := by
  induction k with
  | zero => rfl
  | succ k ih => rw [storeSectors, List.length_set, ih]

theorem getElem?_storeSectors (sectors : List Sector) (lba : ℕ) (buff : Words) (k i : ℕ) :
    (storeSectors sectors lba buff k)[i]? =
      if lba ≤ i ∧ i < lba + k ∧ i < sectors.length then some (sectorOf buff (i - lba))
      else sectors[i]? := by
  induction k with
  | zero => rw [storeSectors, if_neg (by omega)]
  | succ k ih =>
    rw [storeSectors]
    by_cases hi : lba + k = i
    · subst hi
      by_cases hlt : lba + k < sectors.length
      · rw [List.getElem?_set_self (by rw [length_storeSectors]; exact hlt), if_pos (by omega),
          Nat.add_sub_cancel_left]
      · have hlen : ((storeSectors sectors lba buff k).set (lba + k) (sectorOf buff k)).length =
            sectors.length := by rw [List.length_set, length_storeSectors]
        rw [if_neg (by omega), List.getElem?_eq_none (by omega), List.getElem?_eq_none (by omega)]
    · rw [List.getElem?_set_ne hi, ih]
      have hsame : (lba ≤ i ∧ i < lba + k ∧ i < sectors.length) ↔
          (lba ≤ i ∧ i < lba + (k + 1) ∧ i < sectors.length) := by omega
      simp only [hsame]

theorem loadSectors_succ (d : Drive) (lba k : ℕ) (buff : Words) :
    wordsRead (d.sectorAt (lba + k)) k 256 (loadSectors d lba k buff) =
      loadSectors d lba (k + 1) buff := by
  funext i
  by_cases hin : k * 256 ≤ i ∧ i < k * 256 + 256
  · have hsector : i / 256 = k := by omega
    have hword : Fin.ofNat 256 (i - k * 256) = Fin.ofNat 256 i := by
      apply Fin.ext
      show (i - k * 256) % 256 = i % 256
      omega
    rw [wordsRead, if_pos hin, loadSectors, if_pos (by omega), hsector, hword]
  · have hsame : i < 256 * k ↔ i < 256 * (k + 1) := by omega
    rw [wordsRead, if_neg hin, loadSectors, loadSectors]
    simp only [hsame]

/-- The drive after `k` of `blocks` blocks of a read from `lba` on. -/
structure ReadingAfter (d₀ : Drive) (lba blocks k : ℕ) (d : Drive) : Prop where
  sectors : d.sectors = d₀.sectors
  beyond : d.beyond = d₀.beyond
  transferred : d.transferred = d₀.transferred + k
  active : k < blocks → d.phase = .dataIn (lba + k) (blocks - 1 - k) 0
  done : blocks ≤ k → d.Idle

/-- The drive after `k` of `blocks` blocks of a write from `lba` on. -/
structure WritingAfter (d₀ : Drive) (lba blocks : ℕ) (buff : Words) (k : ℕ) (d : Drive) : Prop where
  sectors : d.sectors = storeSectors d₀.sectors lba buff k
  beyond : d.beyond = d₀.beyond
  transferred : d.transferred = d₀.transferred + k
  active : k < blocks → ∃ block, d.phase = .dataOut (lba + k) (blocks - 1 - k) block 0
  done : blocks ≤ k → d.phase = .idle

section Blocks
variable {d₀ d : Drive} {lba blocks k : ℕ} {buff : Words}

theorem Drive.isIdle_of_dataIn {lba left index : ℕ} (h : d.phase = .dataIn lba left index) :
    d.isIdle = false := by
  rw [Drive.isIdle, h]

theorem Drive.isIdle_of_dataOut {lba left index : ℕ} {block : Sector}
    (h : d.phase = .dataOut lba left block index) : d.isIdle = false := by
  rw [Drive.isIdle, h]

theorem Drive.isIdle_of_idle (h : d.phase = .idle) : d.isIdle = true := by
  rw [Drive.isIdle, h]

theorem ReadingAfter.sectorAt (h : ReadingAfter d₀ lba blocks k d) (i : ℕ) :
    d.sectorAt i = d₀.sectorAt i := by
  rw [Drive.sectorAt, Drive.sectorAt, h.sectors, h.beyond]

/-- The drive after one more block has been read. -/
theorem ReadingAfter.blockRead (h : ReadingAfter d₀ lba blocks k d) (hk : k < blocks) :
    ReadingAfter d₀ lba blocks (k + 1)
      (delay400ns ataDrive ({ d with busy := 0 }.blockRead (lba + k) (blocks - 1 - k))) := by
  rw [delay400ns_ataDrive, Drive.blockRead]
  by_cases hlast : blocks - 1 - k = 0
  · rw [if_pos hlast]
    refine ⟨h.sectors, h.beyond, ?_, fun hlt => ?_, fun _ => ⟨rfl, rfl⟩⟩
    · exact congrArg (· + 1) h.transferred
    · omega
  · rw [if_neg hlast]
    refine ⟨h.sectors, h.beyond, ?_, fun _ => ?_, fun hle => ?_⟩
    · exact congrArg (· + 1) h.transferred
    · show Phase.dataIn (lba + k + 1) (blocks - 1 - k - 1) 0 = _
      rw [Nat.add_assoc, Nat.sub_sub _ k 1]
    · omega

/-- The drive after one more block has been written. -/
theorem WritingAfter.blockWritten (h : WritingAfter d₀ lba blocks buff k d) (hk : k < blocks) :
    WritingAfter d₀ lba blocks buff (k + 1)
      (delay400ns ataDrive (readAltStatus ataDrive
        ({ d with busy := 0 }.blockWritten (lba + k) (blocks - 1 - k) (sectorOf buff k)))) := by
  rw [delay400ns_ataDrive, readAltStatus_ataDrive]
  refine ⟨?_, h.beyond, ?_, fun hlt => ?_, fun hle => ?_⟩
  · rw [storeSectors, ← h.sectors]
    rfl
  · exact congrArg (· + 1) h.transferred
  · refine ⟨fun _ => 0, ?_⟩
    show (if blocks - 1 - k = 0 then Phase.idle
      else .dataOut (lba + k + 1) (blocks - 1 - k - 1) (fun _ => 0) 0) = _
    rw [if_neg (by omega), Nat.add_assoc, Nat.sub_sub _ k 1]
  · exact if_pos (by omega)

/-- The outer loop of `disk_read`, up to the last block that the drive offers. -/
theorem readSectors_settles (hstart : ReadingAfter d₀ lba blocks 0 d) (buff : Words)
    (hk : k ≤ blocks) :
    ∃ d', Settles (fun fuel => readSectors ataDrive fuel k buff d)
        (0, loadSectors d₀ lba k buff, d') ∧ ReadingAfter d₀ lba blocks k d' := by
  induction k with
  | zero => exact ⟨d, Settles.const _, hstart⟩
  | succ k ih =>
    obtain ⟨d', hsettles, hd'⟩ := ih (by omega)
    have hphase := hd'.active hk
    refine ⟨_, ?_, hd'.blockRead hk⟩
    have hready : { d' with busy := 0 }.phase = .dataIn (lba + k) (blocks - 1 - k) 0 := hphase
    have hblock := readWords_ataDrive hready rfl k (loadSectors d₀ lba k buff) le_rfl
    have hsector : { d' with busy := 0 }.sectorAt (lba + k) = d₀.sectorAt (lba + k) :=
      hd'.sectorAt _
    rw [if_neg (lt_irrefl 256), hsector, loadSectors_succ] at hblock
    -- the block after the first `k` is offered, and its words go behind theirs
    refine hsettles.bind ((waitForSector_settles (Drive.isIdle_of_dataIn hphase)).bind ?_)
    simp only [if_true, hblock]
    exact Settles.const _

/-- Behind the last block the drive offers nothing more. -/
theorem readSectors_hangs (hstart : ReadingAfter d₀ lba blocks 0 d) (buff : Words)
    (hk : blocks < k) : Hangs fun fuel => readSectors ataDrive fuel k buff d := by
  induction k, hk using Nat.le_induction with
  | base =>
    -- one turn more than blocks: the drive has gone idle and DRQ never comes
    obtain ⟨d', hsettles, hd'⟩ := readSectors_settles hstart buff le_rfl
    have hidle := Drive.isIdle_of_idle (hd'.done le_rfl).phase
    exact hsettles.bind_hangs ((waitForSector_hangs hidle).bind _)
  | succ k _ ih => exact ih.bind _

/-- The outer loop of `disk_write`. -/
theorem writeSectors_settles (hstart : WritingAfter d₀ lba blocks buff 0 d) (hk : k ≤ blocks) :
    ∃ d', Settles (fun fuel => writeSectors ataDrive fuel buff k d) (0, d') ∧
      WritingAfter d₀ lba blocks buff k d' := by
  induction k with
  | zero => exact ⟨d, Settles.const _, hstart⟩
  | succ k ih =>
    obtain ⟨d', hsettles, hd'⟩ := ih (by omega)
    obtain ⟨block, hphase⟩ := hd'.active hk
    have hready : { d' with busy := 0 }.phase = .dataOut (lba + k) (blocks - 1 - k) block 0 :=
      hphase
    have hblock := writeWords_ataDrive hready rfl k buff le_rfl
    rw [if_neg (lt_irrefl 256)] at hblock
    refine ⟨_, ?_, hd'.blockWritten hk⟩
    refine hsettles.bind ((waitForSector_settles (Drive.isIdle_of_dataOut hphase)).bind ?_)
    simp only [if_true, hblock]
    exact Settles.const _

theorem writeSectors_hangs (hstart : WritingAfter d₀ lba blocks buff 0 d) (hk : blocks < k) :
    Hangs fun fuel => writeSectors ataDrive fuel buff k d := by
  induction k, hk using Nat.le_induction with
  | base =>
    obtain ⟨d', hsettles, hd'⟩ := writeSectors_settles hstart le_rfl
    have hidle := Drive.isIdle_of_idle (hd'.done le_rfl)
    exact hsettles.bind_hangs ((waitForSector_hangs hidle).bind _)
  | succ k _ ih => exact ih.bind _

end Blocks

/-! ### Whole calls -/

section Calls
variable {d : Drive} {sectorCount : ℕ}

theorem programmedBlocks_pos (n : ℕ) : 0 < programmedBlocks n := by
  rw [programmedBlocks]
  split <;> omega

/-- The two counts agree from 1 to 256. -/
theorem programmedBlocks_eq_iff (n : ℕ) : programmedBlocks n = n ↔ 1 ≤ n ∧ n ≤ 256 := by
  rw [programmedBlocks]
  split <;> omega

/-- The READ SECTORS command on an idle drive. -/
theorem readingAfter_sendCommand (hidle : d.Idle) (startLba sectorCount : ℕ) :
    ReadingAfter d (startLba % 2 ^ 28) (programmedBlocks sectorCount) 0
      (sendCommand ataDrive ataCommandReadSectors startLba sectorCount d) := by
  have hblocks := programmedBlocks_pos sectorCount
  have hphase : (d.withRegisters startLba sectorCount).phase = .idle := hidle.phase
  rw [sendCommand_ataDrive hidle.busy, Drive.command, hphase]
  simp only [if_true, Drive.lba_withRegisters, Drive.blockCount_withRegisters]
  refine ⟨rfl, rfl, rfl, fun _ => rfl, fun hle => ?_⟩
  omega

/-- The WRITE SECTORS command. -/
theorem writingAfter_sendCommand (hidle : d.Idle) (startLba sectorCount : ℕ) (buff : Words) :
    WritingAfter d (startLba % 2 ^ 28) (programmedBlocks sectorCount) buff 0
      (sendCommand ataDrive ataCommandWriteSectors startLba sectorCount d) := by
  have hblocks := programmedBlocks_pos sectorCount
  have hphase : (d.withRegisters startLba sectorCount).phase = .idle := hidle.phase
  have hwrite : ¬ataCommandWriteSectors = ataCommandReadSectors := by decide
  rw [sendCommand_ataDrive hidle.busy, Drive.command, hphase]
  simp only [if_neg hwrite, if_true, Drive.lba_withRegisters, Drive.blockCount_withRegisters]
  refine ⟨rfl, rfl, rfl, fun _ => ⟨_, rfl⟩, fun hle => ?_⟩
  omega

/-- `disk_read` of no more sectors than are programmed. -/
theorem diskRead_settles (hidle : d.Idle) (startLba : ℕ)
    (hcount : sectorCount ≤ programmedBlocks sectorCount) (buff : Words) :
    ∃ d', Settles (fun fuel => diskRead ataDrive fuel startLba sectorCount buff d)
        (0, loadSectors d (startLba % 2 ^ 28) sectorCount buff, d') ∧
      ReadingAfter d (startLba % 2 ^ 28) (programmedBlocks sectorCount) sectorCount d' := by
  obtain ⟨d', hsettles, hd'⟩ :=
    readSectors_settles (readingAfter_sendCommand hidle startLba sectorCount) buff hcount
  exact ⟨d', hidle.wait.bind hsettles, hd'⟩

/-- The flush at the end of `disk_write` changes no sector, whether the drive
takes the command or not. -/
theorem flushCache_settles (d : Drive) :
    ∃ d', Settles (fun fuel => flushCache ataDrive fuel d) (0, d') ∧ d'.sectors = d.sectors ∧
      d'.beyond = d.beyond ∧ d'.transferred = d.transferred ∧ d'.phase = d.phase ∧ d'.busy = 0 := by
  have hflush : (ataDrive.outb ataRegCommand ataCommandCacheFlush d).sectors = d.sectors ∧
      (ataDrive.outb ataRegCommand ataCommandCacheFlush d).beyond = d.beyond ∧
      (ataDrive.outb ataRegCommand ataCommandCacheFlush d).transferred = d.transferred ∧
      (ataDrive.outb ataRegCommand ataCommandCacheFlush d).phase = d.phase := by
    have houtb : ataDrive.outb ataRegCommand ataCommandCacheFlush d =
        if d.busy > 0 then d else if d.isIdle then d.startBusy else d := by
      have hcommand : d.command ataCommandCacheFlush = if d.isIdle then d.startBusy else d := by
        rw [Drive.command, Drive.isIdle]
        cases d.phase <;> rfl
      rw [← hcommand]
      rfl
    rw [houtb]
    split
    · exact ⟨rfl, rfl, rfl, rfl⟩
    · split
      · exact ⟨rfl, rfl, rfl, rfl⟩
      · exact ⟨rfl, rfl, rfl, rfl⟩
  obtain ⟨hsectors, hbeyond, htransferred, hphase⟩ := hflush
  exact ⟨_, (waitWhileBusy_settles _).map _, hsectors, hbeyond, htransferred, hphase, rfl⟩

/-- `disk_write` of no more sectors than are programmed. -/
theorem diskWrite_settles (hidle : d.Idle) (startLba : ℕ)
    (hcount : sectorCount ≤ programmedBlocks sectorCount) (buff : Words) :
    ∃ d', Settles (fun fuel => diskWrite ataDrive fuel startLba sectorCount buff d) (0, d') ∧
      WritingAfter d (startLba % 2 ^ 28) (programmedBlocks sectorCount) buff sectorCount d' ∧
      d'.busy = 0 := by
  obtain ⟨d₁, hsettles, hd₁⟩ :=
    writeSectors_settles (writingAfter_sendCommand hidle startLba sectorCount buff) hcount
  obtain ⟨d₂, hflush, hsectors, hbeyond, htransferred, hphase, hbusy⟩ := flushCache_settles d₁
  refine ⟨d₂, hidle.wait.bind (hsettles.bind hflush), ?_, hbusy⟩
  refine ⟨hsectors.trans hd₁.sectors, hbeyond.trans hd₁.beyond, htransferred.trans hd₁.transferred,
    ?_, ?_⟩
  · rw [hphase]
    exact hd₁.active
  · rw [hphase]
    exact hd₁.done

end Calls

/-! ### Disk addressing -/

/-- For every content of a disk of `capacity` sectors and every buffer,
`disk_write` stores the buffer in the range and nowhere else, or fails and
changes nothing; and a `disk_read` of the range that returns 0 gives the buffer
back. -/
def WriteExact (capacity startLba sectorCount : ℕ) : Prop :=
  ∀ d : Drive, d.Idle → d.sectors.length = capacity → ∀ buff : Words,
    ∃ ret d', Settles (fun fuel => diskWrite ataDrive fuel startLba sectorCount buff d) (ret, d') ∧
      ((ret = 0 ∧ (∀ s < sectorCount, d'.sectors[startLba + s]? = some (sectorOf buff s)) ∧
          ∀ lba, lba < startLba ∨ startLba + sectorCount ≤ lba →
            d'.sectors[lba]? = d.sectors[lba]?) ∨
        (ret ≠ 0 ∧ d'.sectors = d.sectors)) ∧
      ∀ before, ∃ ret' after d'',
        Settles (fun fuel => diskRead ataDrive fuel startLba sectorCount before d')
            (ret', after, d'') ∧
          (ret' = 0 → ∀ i < 256 * sectorCount, after i = buff i)

/-- An idle drive full of zeros. -/
def Drive.blank (capacity : ℕ) : Drive :=
  ⟨List.replicate capacity fun _ => 0, fun _ _ => 0, 0, 0, 0, 0, 0, .idle, 0, fun _ => 0, 0⟩

section Addressing
variable {capacity startLba sectorCount : ℕ}

theorem writeExact_of_le (hcap : capacity ≤ 2 ^ 28) (hlow : 1 ≤ sectorCount)
    (hhigh : sectorCount ≤ 256) (hrange : startLba + sectorCount ≤ capacity) :
    WriteExact capacity startLba sectorCount := by
  intro d hidle hlength buff
  have hblocks := (programmedBlocks_eq_iff sectorCount).2 ⟨hlow, hhigh⟩
  have hlba : startLba % 2 ^ 28 = startLba := Nat.mod_eq_of_lt (by omega)
  obtain ⟨d', hsettles, hd', hbusy⟩ := diskWrite_settles hidle startLba hblocks.ge buff
  rw [hlba] at hd'
  have hget : ∀ i, d'.sectors[i]? = if startLba ≤ i ∧ i < startLba + sectorCount then
      some (sectorOf buff (i - startLba)) else d.sectors[i]? := by
    intro i
    rw [hd'.sectors, getElem?_storeSectors]
    by_cases hin : startLba ≤ i ∧ i < startLba + sectorCount
    · rw [if_pos hin, if_pos (by omega)]
    · rw [if_neg hin, if_neg (by omega)]
  refine ⟨0, d', hsettles, Or.inl ⟨rfl, ?_, ?_⟩, ?_⟩
  · intro s hs
    rw [hget, if_pos (by omega), Nat.add_sub_cancel_left]
  · intro lba hout
    rw [hget, if_neg (by omega)]
  · intro before
    have hidle' : d'.Idle := ⟨hd'.done hblocks.le, hbusy⟩
    obtain ⟨d'', hread, _⟩ := diskRead_settles hidle' startLba hblocks.ge before
    refine ⟨0, _, d'', hread, ?_⟩
    intro _ i hi
    have hword : i / 256 * 256 + (Fin.ofNat 256 i).val = i := Nat.div_add_mod' i 256
    rw [loadSectors, if_pos hi, hlba, Drive.sectorAt, hget, if_pos (by omega),
      Nat.add_sub_cancel_left]
    exact congrArg buff hword

/-- An exact write to a disk of zeros stores the buffer, for the call returns 0. -/
theorem WriteExact.stored (h : WriteExact capacity startLba sectorCount) (hlow : 1 ≤ sectorCount)
    (hhigh : sectorCount ≤ 256) (buff : Words) :
    ∃ sectors, sectors = storeSectors (Drive.blank capacity).sectors (startLba % 2 ^ 28) buff
        sectorCount ∧
      (∀ s < sectorCount, sectors[startLba + s]? = some (sectorOf buff s)) ∧
      ∀ lba, lba < startLba ∨ startLba + sectorCount ≤ lba →
        sectors[lba]? = (Drive.blank capacity).sectors[lba]? := by
  have hidle : (Drive.blank capacity).Idle := ⟨rfl, rfl⟩
  have hblocks := (programmedBlocks_eq_iff sectorCount).2 ⟨hlow, hhigh⟩
  obtain ⟨ret, d', hsettles, hwritten, _⟩ := h _ hidle List.length_replicate buff
  obtain ⟨d₁, hsettles₁, hd₁, _⟩ := diskWrite_settles hidle startLba hblocks.ge buff
  obtain ⟨rfl, rfl⟩ := Prod.mk.inj (hsettles.unique hsettles₁)
  obtain ⟨_, hstored, hothers⟩ := hwritten.resolve_right fun h => h.1 rfl
  exact ⟨d'.sectors, hd₁.sectors, hstored, hothers⟩

/-- The last sector is stored only if there is one. -/
theorem WriteExact.le (h : WriteExact capacity startLba sectorCount) (hlow : 1 ≤ sectorCount)
    (hhigh : sectorCount ≤ 256) : startLba + sectorCount ≤ capacity := by
  obtain ⟨sectors, rfl, hstored, _⟩ := h.stored hlow hhigh fun _ => 0
  have hlast := hstored (sectorCount - 1) (by omega)
  obtain ⟨hlt, _⟩ := List.getElem?_eq_some_iff.1 hlast
  rw [length_storeSectors, Drive.blank, List.length_replicate] at hlt
  omega

end Addressing

/-- **Disk addressing is exact** if and only if the range lies on the disk. -/
theorem writeExact_iff {capacity : ℕ} (hcap : capacity ≤ 2 ^ 28) (startLba : ℕ) {sectorCount : ℕ}
    (hlow : 1 ≤ sectorCount) (hhigh : sectorCount ≤ 256) :
    WriteExact capacity startLba sectorCount ↔ startLba + sectorCount ≤ capacity :=
  ⟨fun h => h.le hlow hhigh, writeExact_of_le hcap hlow hhigh⟩

theorem writeExact_iff_boot : WriteExact 0x100000 0 2 ↔ 0 + 2 ≤ 0x100000 :=
  writeExact_iff (by decide) 0 (by decide) (by decide)

/-- The write to sector `2 ^ 28` overwrites sector 0. -/
theorem writeExact_fails : ¬WriteExact 0x100000 (2 ^ 28) 1 := by
  intro h
  obtain ⟨sectors, hsectors, _, hothers⟩ := h.stored le_rfl (by decide) fun _ => 1
  have hzero := hothers 0 (Or.inl (by decide))
  have hfirst : (Drive.blank 0x100000).sectors[0]? = some fun _ => 0 := by
    rw [Drive.blank, List.getElem?_replicate, if_pos (by decide)]
  have hstored : sectors[0]? = some fun _ => 1 := by
    have hlength : (Drive.blank 0x100000).sectors.length = 0x100000 := List.length_replicate
    rw [hsectors, getElem?_storeSectors, hlength, if_pos (by decide)]
    rfl
  -- the sector would have to hold its old zeros and the ones of the buffer
  have hword := congrFun (Option.some_inj.1 (hstored.symm.trans (hzero.trans hfirst))) 0
  exact absurd hword (by decide)

/-! ### Transfers in step -/

inductive DiskCall
  | read (startLba sectorCount : ℕ) (buff : Words)
  | write (startLba sectorCount : ℕ) (buff : Words)

def DiskCall.sectorCount : DiskCall → ℕ
  | .read _ sectorCount _ => sectorCount
  | .write _ sectorCount _ => sectorCount

/-- The drive after a call. -/
def DiskCall.run (fuel : ℕ) (d : Drive) : DiskCall → Option Drive
  | .read startLba sectorCount buff =>
    (diskRead ataDrive fuel startLba sectorCount buff d).map fun res => res.2.2
  | .write startLba sectorCount buff =>
    (diskWrite ataDrive fuel startLba sectorCount buff d).map Prod.snd

/-- Every call of the sequence returns, has transferred as many blocks as it
was asked for, and leaves the drive idle. -/
def InStep : Drive → List DiskCall → Prop
  | _, [] => True
  | d, call :: calls => ∃ d', Settles (fun fuel => call.run fuel d) d' ∧
      d'.transferred = d.transferred + call.sectorCount ∧ d'.Idle ∧ InStep d' calls

section Step
variable {d : Drive} {call : DiskCall}

/-- A call for no more sectors than are programmed. -/
theorem DiskCall.settles (hidle : d.Idle)
    (hcount : call.sectorCount ≤ programmedBlocks call.sectorCount) :
    ∃ d', Settles (fun fuel => call.run fuel d) d' ∧
      d'.transferred = d.transferred + call.sectorCount ∧
      (d'.Idle ↔ programmedBlocks call.sectorCount ≤ call.sectorCount) := by
  cases call with
  | read startLba sectorCount buff =>
    obtain ⟨d', hsettles, hd'⟩ := diskRead_settles hidle startLba hcount buff
    refine ⟨d', hsettles.map _, hd'.transferred, ?_, hd'.done⟩
    intro hidle'
    by_contra hlt
    have hphase := hd'.active (not_le.1 hlt)
    exact Phase.noConfusion (hidle'.phase.symm.trans hphase)
  | write startLba sectorCount buff =>
    obtain ⟨d', hsettles, hd', hbusy⟩ := diskWrite_settles hidle startLba hcount buff
    refine ⟨d', hsettles.map _, hd'.transferred, ?_, fun hle => ⟨hd'.done hle, hbusy⟩⟩
    intro hidle'
    by_contra hlt
    obtain ⟨block, hphase⟩ := hd'.active (not_le.1 hlt)
    exact Phase.noConfusion (hidle'.phase.symm.trans hphase)

/-- A call for more polls for a block that is not offered. -/
theorem DiskCall.hangs (hidle : d.Idle)
    (hcount : programmedBlocks call.sectorCount < call.sectorCount) :
    Hangs fun fuel => call.run fuel d := by
  cases call with
  | read startLba sectorCount buff =>
    have hsectors :=
      readSectors_hangs (readingAfter_sendCommand hidle startLba sectorCount) buff hcount
    have hcall : Hangs fun fuel => diskRead ataDrive fuel startLba sectorCount buff d :=
      hidle.wait.bind_hangs hsectors
    exact hcall.map _
  | write startLba sectorCount buff =>
    have hsectors :=
      writeSectors_hangs (writingAfter_sendCommand hidle startLba sectorCount buff) hcount
    have hcall : Hangs fun fuel => diskWrite ataDrive fuel startLba sectorCount buff d :=
      hidle.wait.bind_hangs (hsectors.bind _)
    exact hcall.map _

end Step

/-- **Transfers leave the drive in step** if and only if every call is for 1 to
256 sectors. -/
theorem inStep_iff {d : Drive} (hidle : d.Idle) (calls : List DiskCall) :
    InStep d calls ↔ ∀ call ∈ calls, 1 ≤ call.sectorCount ∧ call.sectorCount ≤ 256 := by
  induction calls generalizing d with
  | nil => exact iff_of_true trivial fun call hmem => absurd hmem List.not_mem_nil
  | cons call calls ih =>
    rw [List.forall_mem_cons, ← programmedBlocks_eq_iff]
    constructor
    · rintro ⟨d', hsettles, _, hidle', hrest⟩
      refine ⟨?_, (ih hidle').1 hrest⟩
      obtain hle | hlt := le_or_gt call.sectorCount (programmedBlocks call.sectorCount)
      · obtain ⟨d₁, hsettles₁, _, hidle₁⟩ := DiskCall.settles hidle hle
        obtain rfl := hsettles.unique hsettles₁
        exact le_antisymm (hidle₁.1 hidle') hle
      · exact absurd hsettles ((DiskCall.hangs hidle hlt).not_settles d')
    · intro ⟨hcount, hrest⟩
      obtain ⟨d', hsettles, htransferred, hidle'⟩ := DiskCall.settles hidle hcount.ge
      have hdone := hidle'.2 hcount.le
      exact ⟨d', hsettles, htransferred, hdone, (ih hdone).2 hrest⟩

theorem inStep_iff_twice :
    InStep (Drive.blank 0x100000) [.write 0 256 fun _ => 1, .read 255 1 fun _ => 0] ↔
      ∀ call ∈ [DiskCall.write 0 256 fun _ => 1, .read 255 1 fun _ => 0],
        1 ≤ call.sectorCount ∧ call.sectorCount ≤ 256 :=
  inStep_iff ⟨rfl, rfl⟩ _

/-- A read of no sectors asks the drive for 256. -/
theorem inStep_fails : ¬InStep (Drive.blank 0x100000) [.read 0 0 fun _ => 0] := by
  rintro ⟨d', hsettles, _, hidle', _⟩
  obtain ⟨d₁, hsettles₁, _, hidle₁⟩ := DiskCall.settles (d := Drive.blank 0x100000) ⟨rfl, rfl⟩
    (show (DiskCall.read 0 0 fun _ => 0).sectorCount ≤ programmedBlocks 0 by decide)
  obtain rfl := hsettles.unique hsettles₁
  exact absurd (hidle₁.1 hidle') (by decide)

end Ssos
