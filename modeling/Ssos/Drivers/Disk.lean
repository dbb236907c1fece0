import Ssos.Foundations.Polling
import Mathlib.Logic.Function.Iterate

/-!
# The disk driver

`disk_read` and `disk_write` of `drivers/disk.c` over any device behind the
ports. Every waiting loop gets the same fuel; `none` means that one of them has
used it up. Buffers are seen as their 16-bit words.
-/

namespace Ssos

open Polling

def ataRegData : ℕ := 0x1F0
def ataRegSectorCount : ℕ := 0x1F2
def ataRegLbaLow : ℕ := 0x1F3
def ataRegLbaMid : ℕ := 0x1F4
def ataRegLbaHigh : ℕ := 0x1F5
def ataRegDriveHead : ℕ := 0x1F6
def ataRegStatus : ℕ := 0x1F7
def ataRegCommand : ℕ := 0x1F7
def ataRegAltStatus : ℕ := 0x3F6

def ataCommandReadSectors : UInt8 := 0x20
def ataCommandWriteSectors : UInt8 := 0x30
def ataCommandCacheFlush : UInt8 := 0xE7

def ataStatusBsy : UInt8 := (1 : UInt8) <<< 7
def ataStatusDrq : UInt8 := (1 : UInt8) <<< 3
def ataStatusErr : UInt8 := (1 : UInt8) <<< 0

/-- The words of a buffer. -/
abbrev Words := ℕ → UInt16

/-- The test of `while (inb(ATA_REG_STATUS) & ATA_STATUS_BSY)`. -/
def busyVerdict (status : UInt8) : Option Unit :=
  if status &&& ataStatusBsy ≠ 0 then none else some ()

/-- The tests of the loop before a sector; `false` where it returns -1. -/
def sectorVerdict (status : UInt8) : Option Bool :=
  if status &&& ataStatusErr ≠ 0 then some false
  else if status &&& ataStatusBsy = 0 ∧ status &&& ataStatusDrq ≠ 0 then some true
  else none

section Driver
variable {D : Type*} (dev : Device D)

def waitWhileBusy (fuel : ℕ) (d : D) : Option D :=
  (pollUntil dev ataRegStatus busyVerdict fuel d).map Prod.snd

def waitForSector (fuel : ℕ) (d : D) : Option (Bool × D) :=
  pollUntil dev ataRegStatus sectorVerdict fuel d

def readAltStatus (d : D) : D := (dev.inb ataRegAltStatus d).2

/-- The delay of 400 ns. -/
def delay400ns (d : D) : D := (readAltStatus dev)^[4] d

/-- The statements from the drive register to the command, which are the same
in both functions. -/
def sendCommand (command : UInt8) (startLba sectorCount : ℕ) (d : D) : D :=
  let d := dev.outb ataRegDriveHead ((0xE0 : UInt8) ||| UInt8.ofNat (startLba >>> 24 &&& 0x0F)) d
  let d := delay400ns dev d
  let d := dev.outb ataRegSectorCount
    (if sectorCount ≥ 256 then 0 else UInt8.ofNat sectorCount) d
  let d := dev.outb ataRegLbaLow (UInt8.ofNat (startLba &&& 0xFF)) d
  let d := dev.outb ataRegLbaMid (UInt8.ofNat (startLba >>> 8 &&& 0xFF)) d
  let d := dev.outb ataRegLbaHigh (UInt8.ofNat (startLba >>> 16 &&& 0xFF)) d
  dev.outb ataRegCommand command d

/-- The first `n` turns of the inner loop of `disk_read` for sector `s`. -/
def readWords (s : ℕ) : ℕ → Words → D → Words × D
  | 0, buff, d => (buff, d)
  | n + 1, buff, d =>
    let (buff, d) := readWords s n buff d
    let (word, d) := dev.inw ataRegData d
    (Function.update buff (s * 256 + n) word, d)

/-- The first `n` turns of the outer loop of `disk_read`, with the value to
return. -/
def readSectors (fuel : ℕ) : ℕ → Words → D → Option (ℤ × Words × D)
  | 0, buff, d => some (0, buff, d)
  | n + 1, buff, d =>
    (readSectors fuel n buff d).bind fun (ret, buff, d) =>
      if ret ≠ 0 then some (ret, buff, d)
      else
        (waitForSector dev fuel d).bind fun (ready, d) =>
          if ready then
            let (buff, d) := readWords dev n 256 buff d
            some (0, buff, delay400ns dev d)
          else some (-1, buff, d)

def diskRead (fuel startLba sectorCount : ℕ) (buff : Words) (d : D) : Option (ℤ × Words × D) :=
  (waitWhileBusy dev fuel d).bind fun d =>
    readSectors dev fuel sectorCount buff
      (sendCommand dev ataCommandReadSectors startLba sectorCount d)

/-- The first `n` turns of the inner loop of `disk_write` for sector `s`. -/
def writeWords (s : ℕ) (buff : Words) : ℕ → D → D
  | 0, d => d
  | n + 1, d => readAltStatus dev (dev.outw ataRegData (buff (s * 256 + n)) (writeWords s buff n d))

/-- The first `n` turns of the outer loop of `disk_write`. -/
def writeSectors (fuel : ℕ) (buff : Words) : ℕ → D → Option (ℤ × D)
  | 0, d => some (0, d)
  | n + 1, d =>
    (writeSectors fuel buff n d).bind fun (ret, d) =>
      if ret ≠ 0 then some (ret, d)
      else
        (waitForSector dev fuel d).bind fun (ready, d) =>
          if ready then some (0, delay400ns dev (writeWords dev n buff 256 d))
          else some (-1, d)

/-- The end of `disk_write`. -/
def flushCache (fuel : ℕ) (d : D) : Option (ℤ × D) :=
  (waitWhileBusy dev fuel (dev.outb ataRegCommand ataCommandCacheFlush d)).map fun d => (0, d)

def diskWrite (fuel startLba sectorCount : ℕ) (buff : Words) (d : D) : Option (ℤ × D) :=
  (waitWhileBusy dev fuel d).bind fun d =>
    (writeSectors dev fuel buff sectorCount
      (sendCommand dev ataCommandWriteSectors startLba sectorCount d)).bind fun (ret, d) =>
        if ret ≠ 0 then some (ret, d) else flushCache dev fuel d

end Driver

end Ssos
