import Ssos.Drivers.Disk

/-!
# An ATA drive

A drive that takes 28-bit addresses, offers one block after another, and never
reports an error. It may be busy for any number of status reads before each
block and after a write. What the driver's waiting loops, its command and its
word loops do with it.

## Main results

- `sendCommand_ataDrive`, `Drive.lba_withRegisters` — the four high address bits are lost
- `readWords_ataDrive`, `writeWords_ataDrive` — one block
-/

namespace Ssos

open Polling

/-! ### The drive -/

abbrev Sector := Fin 256 → UInt16

/-- What the drive is doing: the sector of the offered block, how many blocks
follow it, and the next word of the block. -/
inductive Phase
  | idle
  | dataIn (lba left index : ℕ)
  | dataOut (lba left : ℕ) (block : Sector) (index : ℕ)

/-- The sectors and the registers. `beyond` is what the drive delivers for
addresses behind its last sector; `busy` counts the status reads that still
find it busy, and `delays` are the future values of it. `transferred` is
bookkeeping: the number of blocks transferred. -/
structure Drive where
  sectors : List Sector
  beyond : ℕ → Sector
  sectorCount : UInt8
  lbaLow : UInt8
  lbaMid : UInt8
  lbaHigh : UInt8
  driveHead : UInt8
  phase : Phase
  busy : ℕ
  delays : ℕ → ℕ
  transferred : ℕ

namespace Drive

def sectorAt (d : Drive) (lba : ℕ) : Sector := d.sectors[lba]?.getD (d.beyond lba)

/-- The 28-bit address in the registers. -/
def lba (d : Drive) : ℕ :=
  (d.driveHead &&& 0x0F).toNat * 2 ^ 24 + d.lbaHigh.toNat * 2 ^ 16 + d.lbaMid.toNat * 2 ^ 8 +
    d.lbaLow.toNat

/-- The number of blocks that the sector count register asks for. -/
def blockCount (d : Drive) : ℕ := if d.sectorCount = 0 then 256 else d.sectorCount.toNat

def startBusy (d : Drive) : Drive :=
  { d with busy := d.delays 0, delays := fun k => d.delays (k + 1) }

def isIdle (d : Drive) : Bool :=
  match d.phase with
  | .idle => true
  | _ => false

def readStatus (d : Drive) : UInt8 × Drive :=
  (if d.busy > 0 then 0x80 else if d.isIdle then 0x40 else 0x48, { d with busy := d.busy - 1 })

/-- A command in the middle of a transfer is not taken. -/
def command (d : Drive) (value : UInt8) : Drive :=
  match d.phase with
  | .idle =>
    if value = ataCommandReadSectors then
      { d with phase := .dataIn d.lba (d.blockCount - 1) 0 }.startBusy
    else if value = ataCommandWriteSectors then
      { d with phase := .dataOut d.lba (d.blockCount - 1) (fun _ => 0) 0 }.startBusy
    else if value = ataCommandCacheFlush then d.startBusy
    else d
  | _ => d

/-- The end of a block that the host has read. -/
def blockRead (d : Drive) (lba left : ℕ) : Drive :=
  if left = 0 then { d with phase := .idle, transferred := d.transferred + 1 }
  else
    { d with phase := .dataIn (lba + 1) (left - 1) 0, transferred := d.transferred + 1 }.startBusy

/-- The end of a block that the host has written. -/
def blockWritten (d : Drive) (lba left : ℕ) (block : Sector) : Drive :=
  { d with
    sectors := d.sectors.set lba block
    phase := if left = 0 then .idle else .dataOut (lba + 1) (left - 1) (fun _ => 0) 0
    transferred := d.transferred + 1 }.startBusy

def inb (port : ℕ) (d : Drive) : UInt8 × Drive :=
  if port = ataRegStatus ∨ port = ataRegAltStatus then d.readStatus else (0xFF, d)

def outb (port : ℕ) (value : UInt8) (d : Drive) : Drive :=
  if d.busy > 0 then d
  else if port = ataRegSectorCount then { d with sectorCount := value }
  else if port = ataRegLbaLow then { d with lbaLow := value }
  else if port = ataRegLbaMid then { d with lbaMid := value }
  else if port = ataRegLbaHigh then { d with lbaHigh := value }
  else if port = ataRegDriveHead then { d with driveHead := value }
  else if port = ataRegCommand then d.command value
  else d

def inw (port : ℕ) (d : Drive) : UInt16 × Drive :=
  match d.phase with
  | .dataIn lba left index =>
    if port = ataRegData ∧ d.busy = 0 then
      (d.sectorAt lba (Fin.ofNat 256 index),
        if index + 1 < 256 then { d with phase := .dataIn lba left (index + 1) }
        else d.blockRead lba left)
    else (0xFFFF, d)
  | _ => (0xFFFF, d)

def outw (port : ℕ) (word : UInt16) (d : Drive) : Drive :=
  match d.phase with
  | .dataOut lba left block index =>
    if port = ataRegData ∧ d.busy = 0 then
      let block := Function.update block (Fin.ofNat 256 index) word
      if index + 1 < 256 then { d with phase := .dataOut lba left block (index + 1) }
      else d.blockWritten lba left block
    else d
  | _ => d

end Drive

def ataDrive : Device Drive := ⟨Drive.inb, Drive.outb, Drive.inw, Drive.outw⟩

/-- No transfer is going on and the drive is ready for a command. -/
structure Drive.Idle (d : Drive) : Prop where
  phase : d.phase = .idle
  busy : d.busy = 0

/-! ### Waiting -/

section Wait
variable {d : Drive}

@[simp] theorem readAltStatus_ataDrive (d : Drive) :
    readAltStatus ataDrive d = { d with busy := d.busy - 1 } := rfl

@[simp] theorem delay400ns_ataDrive (d : Drive) :
    delay400ns ataDrive d = { d with busy := d.busy - 4 } := rfl

/-- The status of a drive that is not busy. -/
def Drive.readyStatus (d : Drive) : UInt8 := if d.isIdle then 0x40 else 0x48

/-- Polling ends when the drive is no longer busy, if its status is then an answer. -/
theorem poll_settles {β : Type*} {verdict : UInt8 → Option β} {b : β} (hbusy : verdict 0x80 = none)
    (hready : verdict d.readyStatus = some b) :
    Settles (fun fuel => pollUntil ataDrive ataRegStatus verdict fuel d)
      (b, { d with busy := 0 }) := by
  have hwait : ∀ k, verdict (ataDrive.inb ataRegStatus { d with busy := k + 1 }).1 = none ∧
      (ataDrive.inb ataRegStatus { d with busy := k + 1 }).2 = { d with busy := k } :=
    fun k => ⟨hbusy, rfl⟩
  exact settles_pollUntil (c := fun k => { d with busy := k }) hwait hready d.busy

theorem waitWhileBusy_settles (d : Drive) :
    Settles (fun fuel => waitWhileBusy ataDrive fuel d) { d with busy := 0 } := by
  have hready : busyVerdict d.readyStatus = some () := by
    rw [Drive.readyStatus]
    cases d.isIdle <;> rfl
  exact (poll_settles rfl hready).map Prod.snd

/-- Nothing changes while the driver waits for an idle drive. -/
theorem Drive.Idle.wait (hidle : d.Idle) :
    Settles (fun fuel => waitWhileBusy ataDrive fuel d) d := by
  have hsame : { d with busy := 0 } = d := by rw [← hidle.busy]
  have hwait := waitWhileBusy_settles d
  rwa [hsame] at hwait

/-- A drive in a transfer offers its block when it is no longer busy. -/
theorem waitForSector_settles (hactive : d.isIdle = false) :
    Settles (fun fuel => waitForSector ataDrive fuel d) (true, { d with busy := 0 }) := by
  have hready : sectorVerdict d.readyStatus = some true := by
    rw [Drive.readyStatus, hactive]
    rfl
  exact poll_settles rfl hready

/-- An idle drive offers none. -/
theorem waitForSector_hangs (hidle : d.isIdle = true) :
    Hangs fun fuel => waitForSector ataDrive fuel d := by
  have hnever : ∀ d : Drive, d.isIdle = true →
      sectorVerdict (ataDrive.inb ataRegStatus d).1 = none ∧
        (ataDrive.inb ataRegStatus d).2.isIdle = true := by
    intro d hd
    refine ⟨?_, hd⟩
    show sectorVerdict (if d.busy > 0 then 0x80 else d.readyStatus) = none
    rw [Drive.readyStatus, hd]
    split
    · rfl
    · rfl
  exact ⟨0, fun fuel _ => pollUntil_eq_none hnever hidle fuel⟩

end Wait

/-! ### The registers -/

/-- The blocks that the drive is asked for. -/
def programmedBlocks (sectorCount : ℕ) : ℕ :=
  if sectorCount = 0 ∨ 256 ≤ sectorCount then 256 else sectorCount

theorem driveHead_lba : ∀ n < 16, (((0xE0 : UInt8) ||| UInt8.ofNat n) &&& 0x0F).toNat = n := by
  decide

theorem and_0xFF (n : ℕ) : (UInt8.ofNat (n &&& 0xFF)).toNat = n % 2 ^ 8 := by
  rw [show (0xFF : ℕ) = 2 ^ 8 - 1 by rfl, Nat.and_two_pow_sub_one_eq_mod, UInt8.toNat_ofNat',
    Nat.mod_mod]

/-- The state after the registers are set, before the command. -/
def Drive.withRegisters (d : Drive) (startLba sectorCount : ℕ) : Drive :=
  { d with
    driveHead := (0xE0 : UInt8) ||| UInt8.ofNat (startLba >>> 24 &&& 0x0F)
    sectorCount := if sectorCount ≥ 256 then 0 else UInt8.ofNat sectorCount
    lbaLow := UInt8.ofNat (startLba &&& 0xFF)
    lbaMid := UInt8.ofNat (startLba >>> 8 &&& 0xFF)
    lbaHigh := UInt8.ofNat (startLba >>> 16 &&& 0xFF) }

theorem Drive.lba_withRegisters (d : Drive) (startLba sectorCount : ℕ) :
    (d.withRegisters startLba sectorCount).lba = startLba % 2 ^ 28 := by
  have hnibble : startLba >>> 24 &&& 0x0F = startLba / 2 ^ 24 % 16 := by
    rw [show (0x0F : ℕ) = 2 ^ 4 - 1 by rfl, Nat.and_two_pow_sub_one_eq_mod,
      Nat.shiftRight_eq_div_pow]
  rw [Drive.lba, Drive.withRegisters]
  simp only [and_0xFF, Nat.shiftRight_eq_div_pow] at hnibble ⊢
  rw [hnibble, driveHead_lba _ (Nat.mod_lt _ (by decide))]
  omega

theorem Drive.blockCount_withRegisters (d : Drive) (startLba sectorCount : ℕ) :
    (d.withRegisters startLba sectorCount).blockCount = programmedBlocks sectorCount := by
  rw [Drive.blockCount, Drive.withRegisters, programmedBlocks]
  by_cases hbig : sectorCount ≥ 256
  · simp only [if_pos hbig, if_true]
    rw [if_pos (Or.inr hbig)]
  · simp only [if_neg hbig]
    have hvalue : (UInt8.ofNat sectorCount).toNat = sectorCount := by
      rw [UInt8.toNat_ofNat', Nat.mod_eq_of_lt (by omega)]
    by_cases hzero : sectorCount = 0
    · subst hzero
      rfl
    · have hne : UInt8.ofNat sectorCount ≠ 0 := by
        intro heq
        have hnat := congrArg UInt8.toNat heq
        rw [hvalue] at hnat
        exact hzero hnat
      rw [if_neg hne, hvalue, if_neg (by omega)]

theorem sendCommand_ataDrive {d : Drive} (hbusy : d.busy = 0) (value : UInt8)
    (startLba sectorCount : ℕ) :
    sendCommand ataDrive value startLba sectorCount d =
      (d.withRegisters startLba sectorCount).command value := by
  cases d
  subst hbusy
  rfl

/-! ### Blocks -/

/-- A buffer after the first `n` words of a block have been read into sector `s`. -/
def wordsRead (block : Sector) (s n : ℕ) (buff : Words) : Words := fun i =>
  if s * 256 ≤ i ∧ i < s * 256 + n then block (Fin.ofNat 256 (i - s * 256)) else buff i

/-- A buffer after `k` sectors from `lba` on have been read into it. -/
def loadSectors (d : Drive) (lba k : ℕ) (buff : Words) : Words := fun i =>
  if i < 256 * k then d.sectorAt (lba + i / 256) (Fin.ofNat 256 i) else buff i

/-- Sector `s` of a buffer. -/
def sectorOf (buff : Words) (s : ℕ) : Sector := fun i => buff (s * 256 + i)

/-- A block of which the host has written the first `n` words. -/
def wordsWritten (buff : Words) (s n : ℕ) (block : Sector) : Sector := fun i =>
  if i.val < n then buff (s * 256 + i) else block i

section Block
variable {d : Drive} {lba left : ℕ}

theorem wordsRead_succ (block : Sector) (s n : ℕ) (buff : Words) :
    Function.update (wordsRead block s n buff) (s * 256 + n) (block (Fin.ofNat 256 n)) =
      wordsRead block s (n + 1) buff := by
  funext i
  by_cases hi : i = s * 256 + n
  · subst hi
    rw [Function.update_self, wordsRead, if_pos (by omega), Nat.add_sub_cancel_left]
  · rw [Function.update_of_ne hi, wordsRead, wordsRead]
    have hsame : (s * 256 ≤ i ∧ i < s * 256 + n) ↔ (s * 256 ≤ i ∧ i < s * 256 + (n + 1)) := by omega
    simp only [hsame]

theorem readWords_ataDrive (hphase : d.phase = .dataIn lba left 0) (hbusy : d.busy = 0) (s : ℕ)
    (buff : Words) {n : ℕ} (hn : n ≤ 256) :
    readWords ataDrive s n buff d = (wordsRead (d.sectorAt lba) s n buff,
      if n < 256 then { d with phase := .dataIn lba left n } else d.blockRead lba left) := by
  induction n with
  | zero =>
    rw [readWords, if_pos (by decide), ← hphase]
    refine Prod.ext ?_ rfl
    funext i
    exact (if_neg (by omega)).symm
  | succ n ih =>
    -- the 256th word ends the block
    have hinw : ataDrive.inw ataRegData { d with phase := .dataIn lba left n } =
        (d.sectorAt lba (Fin.ofNat 256 n),
          if n + 1 < 256 then { d with phase := .dataIn lba left (n + 1) }
          else d.blockRead lba left) := if_pos ⟨rfl, hbusy⟩
    rw [readWords, ih (by omega), if_pos (by omega)]
    simp only [hinw, wordsRead_succ]

theorem wordsWritten_succ (buff : Words) (s : ℕ) {n : ℕ} (hn : n < 256) (block : Sector) :
    Function.update (wordsWritten buff s n block) (Fin.ofNat 256 n) (buff (s * 256 + n)) =
      wordsWritten buff s (n + 1) block := by
  have hindex : (Fin.ofNat 256 n).val = n := Nat.mod_eq_of_lt hn
  funext i
  by_cases hi : i = Fin.ofNat 256 n
  · subst hi
    rw [Function.update_self, wordsWritten, hindex, if_pos n.lt_succ_self]
  · have hne : i.val ≠ n := fun h => hi (Fin.ext (h.trans hindex.symm))
    rw [Function.update_of_ne hi, wordsWritten, wordsWritten]
    have hsame : i.val < n ↔ i.val < n + 1 := by omega
    simp only [hsame]

theorem writeWords_ataDrive {block : Sector} (hphase : d.phase = .dataOut lba left block 0)
    (hbusy : d.busy = 0) (s : ℕ) (buff : Words) {n : ℕ} (hn : n ≤ 256) :
    writeWords ataDrive s buff n d =
      if n < 256 then { d with phase := .dataOut lba left (wordsWritten buff s n block) n }
      else readAltStatus ataDrive (d.blockWritten lba left (sectorOf buff s)) := by
  induction n with
  | zero =>
    have hblock : wordsWritten buff s 0 block = block := rfl
    rw [writeWords, if_pos (by decide), hblock, ← hphase]
  | succ n ih =>
    have houtw : ataDrive.outw ataRegData (buff (s * 256 + n))
        { d with phase := .dataOut lba left (wordsWritten buff s n block) n } =
        if n + 1 < 256 then
          { d with phase := .dataOut lba left (wordsWritten buff s (n + 1) block) (n + 1) }
        else d.blockWritten lba left (wordsWritten buff s (n + 1) block) := by
      rw [← wordsWritten_succ buff s hn]
      exact if_pos ⟨rfl, hbusy⟩
    rw [writeWords, ih (by omega), if_pos (by omega), houtw]
    by_cases hlast : n + 1 < 256
    · rw [if_pos hlast, if_pos hlast, readAltStatus_ataDrive, hbusy]
    · have hall : wordsWritten buff s (n + 1) block = sectorOf buff s := by
        funext i
        exact if_pos (by omega)
      rw [if_neg hlast, if_neg hlast, hall]

end Block

end Ssos
