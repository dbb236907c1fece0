import Ssos.Drivers.DiskStore

/-!
# Finding the disk

`disk_init` of `drivers/disk.c`, and the primary bus with or without a drive on
it.

## Main result

- `diskInit_result` — the result for whatever is on the bus
-/

namespace Ssos

open Polling

def ataCommandIdentify : UInt8 := 0xEC

section Driver
variable {D : Type*} (dev : Device D)

/-- The loop before the data of the drive; `false` where it returns -3. -/
def pollIdentify : ℕ → D → Option (Bool × D)
  | 0, _ => none
  | fuel + 1, d =>
    let (status, d) := dev.inb ataRegStatus d
    if status &&& ataStatusDrq ≠ 0 then some (true, d)
    else
      let (status, d) := dev.inb ataRegStatus d
      if status &&& ataStatusErr ≠ 0 then some (false, d) else pollIdentify fuel d

/-- The statements up to the command. -/
def sendIdentify (d : D) : D :=
  let d := dev.outb ataRegDriveHead 0xA0 d
  let d := delay400ns dev d
  let d := dev.outb ataRegSectorCount 0 d
  let d := dev.outb ataRegLbaLow 0 d
  let d := dev.outb ataRegLbaMid 0 d
  let d := dev.outb ataRegLbaHigh 0 d
  dev.outb ataRegCommand ataCommandIdentify d

/-- The result, `identify_data_block` and the device; `install` is
`idt_install_irq_driver(14, disk_irq_handler)`. -/
def diskInit (install : D → D) (fuel : ℕ) (identifyDataBlock : Words) (d : D) :
    Option (ℤ × Words × D) :=
  let (status, d) := dev.inb ataRegStatus (sendIdentify dev d)
  if status = 0 then some (-1, identifyDataBlock, d)
  else
    (waitWhileBusy dev fuel d).bind fun d =>
      let (lbaMid, d) := dev.inb ataRegLbaMid d
      if lbaMid ≠ 0 then some (-2, identifyDataBlock, d)
      else
        let (lbaHigh, d) := dev.inb ataRegLbaHigh d
        if lbaHigh ≠ 0 then some (-2, identifyDataBlock, d)
        else
          (pollIdentify dev fuel d).map fun (ready, d) =>
            if ready then
              let (identifyDataBlock, d) := readWords dev 0 256 identifyDataBlock d
              (0, identifyDataBlock, install d)
            else (-3, identifyDataBlock, d)

end Driver

/-! ### The bus -/

/-- Whether a drive is answering the identify command. -/
inductive Identifying
  | no
  | aborted
  | sending (index : ℕ)

theorem wordIndex_lt (index : ℕ) : index % 256 < 256 := Nat.mod_lt index (by decide)

/-- The primary bus. Where there is no drive, every read gives `floating`; a drive
that is no ATA drive has a signature of its own; one without an identity aborts
the identify command. -/
structure AtaBus where
  floating : Option UInt8
  signatureMid : UInt8
  signatureHigh : UInt8
  identity : Option Sector
  identifying : Identifying
  drive : Drive
  installed : Bool

namespace AtaBus

/-- The status of a drive that is not busy. -/
def readyStatus (bus : AtaBus) : UInt8 :=
  match bus.identifying with
  | .no => bus.drive.readyStatus
  | .aborted => 0x41
  | .sending _ => 0x48

def withBusy (bus : AtaBus) (busy : ℕ) : AtaBus := { bus with drive := { bus.drive with busy } }

def inb (port : ℕ) (bus : AtaBus) : UInt8 × AtaBus :=
  match bus.floating with
  | some value => (value, bus)
  | none =>
    if port = ataRegStatus ∨ port = ataRegAltStatus then
      (if bus.drive.busy > 0 then 0x80 else bus.readyStatus, bus.withBusy (bus.drive.busy - 1))
    else if port = ataRegLbaMid then (bus.signatureMid, bus)
    else if port = ataRegLbaHigh then (bus.signatureHigh, bus)
    else (0xFF, bus)

/-- The drive takes the identify command. -/
def identify (bus : AtaBus) : AtaBus :=
  { bus with
    identifying := match bus.identity with
      | none => .aborted
      | some _ => .sending 0
    drive := bus.drive.startBusy }

def outb (port : ℕ) (value : UInt8) (bus : AtaBus) : AtaBus :=
  match bus.floating with
  | some _ => bus
  | none =>
    if port = ataRegCommand ∧ value = ataCommandIdentify then
      if bus.drive.busy = 0 ∧ bus.drive.isIdle then bus.identify else bus
    else { bus with drive := bus.drive.outb port value }

def inw (port : ℕ) (bus : AtaBus) : UInt16 × AtaBus :=
  match bus.floating, bus.identifying, bus.identity with
  | some value, _, _ => (UInt16.ofNat (value.toNat * 257), bus)
  | none, .sending index, some identity =>
    if port = ataRegData ∧ bus.drive.busy = 0 then
      (identity ⟨index % 256, wordIndex_lt index⟩,
        { bus with identifying := if index + 1 < 256 then .sending (index + 1) else .no })
    else (0xFFFF, bus)
  | none, _, _ => ((bus.drive.inw port).1, { bus with drive := (bus.drive.inw port).2 })

def outw (port : ℕ) (word : UInt16) (bus : AtaBus) : AtaBus :=
  match bus.floating with
  | some _ => bus
  | none => { bus with drive := bus.drive.outw port word }

def installDriver (bus : AtaBus) : AtaBus := { bus with installed := true }

end AtaBus

def ataBus : Device AtaBus := ⟨AtaBus.inb, AtaBus.outb, AtaBus.inw, AtaBus.outw⟩

/-! ### What is found -/

/-- The result of `disk_init`; none where it waits for ever. -/
def AtaBus.outcome (bus : AtaBus) : Option ℤ :=
  match bus.floating with
  | some value =>
    if value = 0 then some (-1) else if value &&& ataStatusBsy ≠ 0 then none else some (-2)
  | none =>
    if bus.signatureMid ≠ 0 ∨ bus.signatureHigh ≠ 0 then some (-2)
    else if bus.identity.isNone then some (-3) else some 0

/-- A bus without a drive never gives 0. -/
theorem AtaBus.floating_of_outcome {bus : AtaBus} (h : bus.outcome = some 0) :
    bus.floating = none := by
  cases hfloating : bus.floating with
  | none => rfl
  | some value =>
    simp only [outcome, hfloating] at h
    split_ifs at h <;> simp at h

/-- No transfer is going on. -/
structure AtaBus.Rests (bus : AtaBus) : Prop where
  identifying : bus.identifying = .no
  idle : bus.drive.Idle

section Floating
variable {bus : AtaBus} {value : UInt8}

theorem inb_floating (hfloating : bus.floating = some value) (port : ℕ) :
    ataBus.inb port bus = (value, bus) := by
  show AtaBus.inb port bus = _
  rw [AtaBus.inb, hfloating]

/-- Without a drive nothing changes. -/
theorem sendIdentify_floating (hfloating : bus.floating = some value) :
    sendIdentify ataBus bus = bus := by
  have houtb : ∀ port value, ataBus.outb port value bus = bus := by
    intro port value
    show AtaBus.outb port value bus = _
    rw [AtaBus.outb, hfloating]
  have hdelay : delay400ns ataBus bus = bus := by
    simp only [delay400ns, Function.iterate_succ, Function.iterate_zero, Function.comp_apply, id,
      readAltStatus, inb_floating hfloating]
  simp only [sendIdentify, houtb, hdelay]

/-- What is read decides, if it does not look busy. -/
theorem diskInit_floating (hfloating : bus.floating = some value) (block : Words) :
    (∃ r, bus.outcome = some r ∧ r ≠ 0 ∧
      Settles (fun fuel => diskInit ataBus AtaBus.installDriver fuel block bus) (r, block, bus)) ∨
    bus.outcome = none ∧
      Hangs fun fuel => diskInit ataBus AtaBus.installDriver fuel block bus := by
  have hinb := inb_floating hfloating
  simp only [diskInit, sendIdentify_floating hfloating, hinb, AtaBus.outcome, hfloating]
  by_cases hzero : value = 0
  · simp only [if_pos hzero]
    exact .inl ⟨-1, rfl, by decide, .const _⟩
  simp only [if_neg hzero]
  by_cases hbusy : value &&& ataStatusBsy ≠ 0
  · simp only [if_pos hbusy]
    have hverdict : busyVerdict value = none := if_pos hbusy
    refine .inr ⟨trivial, 0, fun fuel _ => ?_⟩
    have hpoll : pollUntil ataBus ataRegStatus busyVerdict fuel bus = none := by
      refine @pollUntil_eq_none _ _ _ _ _ (· = bus) ?_ bus rfl fuel
      rintro _ rfl
      rw [hinb]
      exact ⟨hverdict, rfl⟩
    simp only [waitWhileBusy, hpoll, Option.map_none, Option.bind_none]
  · simp only [if_neg hbusy]
    have hverdict : busyVerdict value = some () := if_neg hbusy
    refine .inl ⟨-2, rfl, by decide, 1, fun fuel hfuel => ?_⟩
    obtain ⟨fuel, rfl⟩ := Nat.exists_eq_add_of_le' hfuel
    simp only [waitWhileBusy, pollUntil, hinb, hverdict, Option.map_some, Option.bind_some, ne_eq,
      hzero, not_false_eq_true, if_true]

end Floating

/-! ### A drive -/

/-- What `disk_read` and `disk_write` rely on. -/
structure AtaBus.Ready (bus : AtaBus) : Prop where
  floating : bus.floating = none
  rests : bus.Rests
  installed : bus.installed = true

/-- The registers as `disk_init` leaves them. -/
def Drive.zeroed (d : Drive) : Drive :=
  { d with driveHead := 0xA0, sectorCount := 0, lbaLow := 0, lbaMid := 0, lbaHigh := 0 }

section Present
variable {bus : AtaBus} {identity : Sector}

/-- The command reaches a drive that rests. -/
theorem sendIdentify_present (hfloating : bus.floating = none) (hrests : bus.Rests) :
    sendIdentify ataBus bus = { bus with drive := bus.drive.zeroed }.identify := by
  obtain ⟨hidentifying, hphase, hbusy⟩ := hrests
  obtain ⟨floating, mid, high, identity, identifying, drive, installed⟩ := bus
  cases drive
  subst hfloating hidentifying hphase hbusy
  rfl

theorem AtaBus.inb_status (hfloating : bus.floating = none) :
    ataBus.inb ataRegStatus bus =
      (if bus.drive.busy > 0 then 0x80 else bus.readyStatus, bus.withBusy (bus.drive.busy - 1)) := by
  show AtaBus.inb ataRegStatus bus = _
  rw [AtaBus.inb, hfloating]
  rfl

theorem AtaBus.waitWhileBusy_settles (hfloating : bus.floating = none)
    (hready : busyVerdict bus.readyStatus = some ()) :
    Settles (fun fuel => waitWhileBusy ataBus fuel bus) (bus.withBusy 0) := by
  have hwait : ∀ k, busyVerdict (ataBus.inb ataRegStatus (bus.withBusy (k + 1))).1 = none ∧
      (ataBus.inb ataRegStatus (bus.withBusy (k + 1))).2 = bus.withBusy k := by
    intro k
    have hread : ataBus.inb ataRegStatus (bus.withBusy (k + 1)) = (0x80, bus.withBusy k) :=
      inb_status hfloating
    have hverdict : busyVerdict 0x80 = none := by decide
    rw [hread]
    exact ⟨hverdict, rfl⟩
  have hdone : ataBus.inb ataRegStatus (bus.withBusy 0) = (bus.readyStatus, bus.withBusy 0) :=
    inb_status hfloating
  have hsettles := settles_pollUntil (c := bus.withBusy) hwait (b := ())
    (by rw [hdone]; exact hready) bus.drive.busy
  rw [hdone] at hsettles
  exact hsettles.map Prod.snd

/-- The words of the identity are delivered in turn. -/
theorem readWords_identify (hfloating : bus.floating = none) (hidentity : bus.identity = some identity)
    (hsending : bus.identifying = .sending 0) (hbusy : bus.drive.busy = 0) (block : Words) {n : ℕ}
    (hn : n ≤ 256) :
    readWords ataBus 0 n block bus = (wordsRead identity 0 n block,
      { bus with identifying := if n < 256 then .sending n else .no }) := by
  induction n with
  | zero =>
    rw [readWords, if_pos (by decide), ← hsending]
    refine Prod.ext ?_ rfl
    funext i
    have hnone : ¬(0 * 256 ≤ i ∧ i < 0 * 256 + 0) := by omega
    show block i = wordsRead identity 0 0 block i
    rw [wordsRead, if_neg hnone]
  | succ n ih =>
    have hinw : ataBus.inw ataRegData { bus with identifying := .sending n } =
        (identity (Fin.ofNat 256 n),
          { bus with identifying := if n + 1 < 256 then .sending (n + 1) else .no }) := by
      show AtaBus.inw ataRegData _ = _
      simp only [AtaBus.inw, hfloating, hidentity]
      exact if_pos ⟨trivial, hbusy⟩
    rw [readWords, ih (by omega), if_pos (by omega)]
    simp only [hinw, wordsRead_succ]

/-- The drive when it is no longer busy with the command. -/
def AtaBus.identified (bus : AtaBus) : AtaBus :=
  ({ bus with drive := bus.drive.zeroed }.identify).withBusy 0

theorem AtaBus.identified_readyStatus (bus : AtaBus) :
    bus.identified.readyStatus = if bus.identity.isNone then 0x41 else 0x48 := by
  rw [identified, identify, withBusy, readyStatus]
  cases bus.identity <;> rfl

/-- The status behind the command is not 0, and the drive is waited for. -/
theorem identified_settles (hfloating : bus.floating = none) (hrests : bus.Rests) :
    ∃ status d, ataBus.inb ataRegStatus (sendIdentify ataBus bus) = (status, d) ∧ status ≠ 0 ∧
      Settles (fun fuel => waitWhileBusy ataBus fuel d) bus.identified := by
  have hsent := sendIdentify_present hfloating hrests
  generalize hbus : { bus with drive := bus.drive.zeroed }.identify = sent at hsent
  have hidentified : sent.withBusy 0 = bus.identified := by rw [← hbus, AtaBus.identified]
  have hstatus : sent.readyStatus = if bus.identity.isNone then 0x41 else 0x48 :=
    (congrArg AtaBus.readyStatus hidentified).trans bus.identified_readyStatus
  have hfloating : sent.floating = none := by
    rw [← hbus]
    exact hfloating
  rw [hsent]
  refine ⟨_, _, AtaBus.inb_status hfloating, ?_, ?_⟩
  · rw [hstatus]
    split
    · decide
    · split <;> decide
  · rw [← hidentified]
    refine @AtaBus.waitWhileBusy_settles (sent.withBusy (sent.drive.busy - 1)) hfloating ?_
    refine (congrArg busyVerdict hstatus).trans ?_
    cases bus.identity.isNone <;> decide

/-- The two reads of the status find the data or the error. -/
theorem pollIdentify_identified (hfloating : bus.floating = none) :
    Settles (fun fuel => pollIdentify ataBus fuel bus.identified)
      (bus.identity.isSome, bus.identified) := by
  have hread : ataBus.inb ataRegStatus bus.identified =
      (if bus.identity.isNone then 0x41 else 0x48, bus.identified) := by
    rw [← bus.identified_readyStatus]
    exact @AtaBus.inb_status bus.identified hfloating
  refine ⟨1, fun fuel hfuel => ?_⟩
  obtain ⟨fuel, rfl⟩ := Nat.exists_eq_add_of_le' hfuel
  simp only [pollIdentify, hread]
  cases bus.identity with
  | none =>
    have hdata : ¬(0x41 : UInt8) &&& ataStatusDrq ≠ 0 := by decide
    have herror : (0x41 : UInt8) &&& ataStatusErr ≠ 0 := by decide
    simp only [Option.isNone_none, if_true, if_neg hdata, if_pos herror, Option.isSome_none]
  | some identity =>
    have hdata : (0x48 : UInt8) &&& ataStatusDrq ≠ 0 := by decide
    simp only [Option.isNone_some, Bool.false_eq_true, if_false, if_pos hdata, Option.isSome_some]

theorem sectorOf_wordsRead (identity : Sector) (block : Words) :
    sectorOf (wordsRead identity 0 256 block) 0 = identity := by
  funext i
  have hin : 0 * 256 ≤ 0 * 256 + i.val ∧ 0 * 256 + i.val < 0 * 256 + 256 := by omega
  rw [sectorOf, wordsRead, if_pos hin, Nat.add_sub_cancel_left]
  exact congrArg identity (Fin.ext (Nat.mod_eq_of_lt i.isLt))

/-- The signature tells an ATA drive, and the answer to the command whether it has an identity. -/
theorem diskInit_present (hfloating : bus.floating = none) (hrests : bus.Rests) (block : Words) :
    ∃ r words bus', bus.outcome = some r ∧
      Settles (fun fuel => diskInit ataBus AtaBus.installDriver fuel block bus) (r, words, bus') ∧
      bus'.drive.sectors = bus.drive.sectors ∧
      (r ≠ 0 → words = block ∧ bus'.installed = bus.installed) ∧
      (r = 0 → bus'.Ready ∧ bus.identity = some (sectorOf words 0)) := by
  obtain ⟨status, d, hstatus, hnonzero, N, hN⟩ := identified_settles hfloating hrests
  obtain ⟨M, hM⟩ := pollIdentify_identified hfloating
  have hmid : ataBus.inb ataRegLbaMid bus.identified = (bus.signatureMid, bus.identified) := by
    show AtaBus.inb ataRegLbaMid bus.identified = _
    rw [AtaBus.inb, show bus.identified.floating = none from hfloating]
    rfl
  have hhigh : ataBus.inb ataRegLbaHigh bus.identified = (bus.signatureHigh, bus.identified) := by
    show AtaBus.inb ataRegLbaHigh bus.identified = _
    rw [AtaBus.inb, show bus.identified.floating = none from hfloating]
    rfl
  simp only [AtaBus.outcome, hfloating]
  by_cases hsignature : bus.signatureMid ≠ 0 ∨ bus.signatureHigh ≠ 0
  · refine ⟨-2, block, bus.identified, if_pos hsignature, ⟨N, fun fuel hfuel => ?_⟩, rfl,
      fun _ => ⟨rfl, rfl⟩, fun h => absurd h (by decide)⟩
    simp only [diskInit, hstatus, if_neg hnonzero, hN fuel hfuel, Option.bind_some, hmid, hhigh]
    by_cases hzero : bus.signatureMid ≠ 0
    · rw [if_pos hzero]
    · rw [if_neg hzero, if_pos (hsignature.resolve_left hzero)]
  rw [if_neg hsignature]
  obtain ⟨hmidZero, hhighZero⟩ := not_or.1 hsignature
  have hstart : ∀ fuel ≥ max N M, diskInit ataBus AtaBus.installDriver fuel block bus =
      some (if bus.identity.isSome then
        (0, (readWords ataBus 0 256 block bus.identified).1,
          (readWords ataBus 0 256 block bus.identified).2.installDriver)
      else (-3, block, bus.identified)) := by
    intro fuel hfuel
    simp only [diskInit, hstatus, if_neg hnonzero, hN fuel (le_trans (le_max_left N M) hfuel),
      Option.bind_some, hmid, hhigh, if_neg hmidZero, if_neg hhighZero,
      hM fuel (le_trans (le_max_right N M) hfuel), Option.map_some]
  cases hidentity : bus.identity with
  | none =>
    rw [hidentity] at hstart
    exact ⟨-3, block, bus.identified, rfl, ⟨_, hstart⟩, rfl, fun _ => ⟨rfl, rfl⟩,
      fun h => absurd h (by decide)⟩
  | some identity =>
    have hsending : bus.identified.identifying = .sending 0 := by
      show (match bus.identity with
        | none => Identifying.aborted
        | some _ => .sending 0) = _
      rw [hidentity]
    rw [hidentity, @readWords_identify bus.identified identity hfloating hidentity hsending rfl block
      256 le_rfl] at hstart
    refine ⟨0, _, _, rfl, ⟨_, hstart⟩, rfl, fun h => absurd rfl h, fun _ => ?_⟩
    exact ⟨⟨hfloating, ⟨rfl, ⟨hrests.idle.phase, rfl⟩⟩, rfl⟩,
      congrArg some (sectorOf_wordsRead identity block).symm⟩

/-- Either there is an outcome or the waiting never ends. -/
theorem diskInit_found (hrests : bus.floating = none → bus.Rests) (block : Words) :
    (∃ r words bus', bus.outcome = some r ∧
      Settles (fun fuel => diskInit ataBus AtaBus.installDriver fuel block bus) (r, words, bus') ∧
      bus'.drive.sectors = bus.drive.sectors ∧
      (r ≠ 0 → words = block ∧ bus'.installed = bus.installed) ∧
      (r = 0 → bus'.Ready ∧ bus.identity = some (sectorOf words 0))) ∨
    bus.outcome = none ∧
      Hangs fun fuel => diskInit ataBus AtaBus.installDriver fuel block bus := by
  cases hfloating : bus.floating with
  | none => exact .inl (diskInit_present hfloating (hrests hfloating) block)
  | some value =>
    refine (diskInit_floating hfloating block).imp_left ?_
    rintro ⟨r, houtcome, hr, hsettles⟩
    exact ⟨r, block, bus, houtcome, hsettles, rfl, fun _ => ⟨rfl, rfl⟩, fun h => absurd h hr⟩

end Present

/-- **The result of `disk_init`** for whatever is on the bus: it returns exactly
the outcome, never changes a sector, and keeps `identify_data_block` and the
interrupt driver on failure. After 0 the drive is ready for transfers, the
interrupt driver installed, and the block holds the identity of the drive. -/
theorem diskInit_result {bus : AtaBus} (hrests : bus.floating = none → bus.Rests) (block : Words) :
    (∀ r, bus.outcome = some r ↔ ∃ words bus',
      Settles (fun fuel => diskInit ataBus AtaBus.installDriver fuel block bus) (r, words, bus')) ∧
    (bus.outcome = none → Hangs fun fuel => diskInit ataBus AtaBus.installDriver fuel block bus) ∧
    ∀ r words bus',
      Settles (fun fuel => diskInit ataBus AtaBus.installDriver fuel block bus) (r, words, bus') →
        bus'.drive.sectors = bus.drive.sectors ∧
        (r ≠ 0 → words = block ∧ bus'.installed = bus.installed) ∧
        (r = 0 → bus'.Ready ∧ bus.identity = some (sectorOf words 0)) := by
  obtain ⟨r, words, bus', houtcome, hsettles, hfacts⟩ | ⟨houtcome, hhangs⟩ :=
    diskInit_found hrests block
  · rw [houtcome]
    refine ⟨fun r' => ⟨?_, ?_⟩, fun h => absurd h (Option.some_ne_none r), ?_⟩
    · rintro ⟨⟩
      exact ⟨words, bus', hsettles⟩
    · rintro ⟨words', bus'', h⟩
      rw [(Prod.mk.inj (hsettles.unique h)).1]
    · intro r' words' bus'' h
      cases hsettles.unique h
      exact hfacts
  · refine ⟨fun r => ⟨fun hr => absurd (hr.symm.trans houtcome) (Option.some_ne_none r), ?_⟩,
      fun _ => hhangs, fun r words bus' h => absurd h (hhangs.not_settles _)⟩
    rintro ⟨words, bus', h⟩
    exact absurd h (hhangs.not_settles _)

/-- A drive that is busy for three status reads after the command. -/
theorem diskInit_result_blank :
    let bus : AtaBus := {
      floating := none, signatureMid := 0, signatureHigh := 0, identity := some fun _ => 7
      identifying := .no, drive := { Drive.blank 4 with delays := fun _ => 3 }, installed := false }
    ∃ words bus',
      Settles (fun fuel => diskInit ataBus AtaBus.installDriver fuel (fun _ => 0) bus)
        (0, words, bus') ∧ bus'.Ready ∧ sectorOf words 0 = fun _ => 7 := by
  intro bus
  obtain ⟨hiff, -, hfacts⟩ := @diskInit_result bus (fun _ => ⟨rfl, rfl, rfl⟩) fun _ => 0
  obtain ⟨words, bus', hsettles⟩ := (hiff 0).1 rfl
  obtain ⟨hready, hidentity⟩ := (hfacts 0 words bus' hsettles).2.2 rfl
  exact ⟨words, bus', hsettles, hready, (Option.some_inj.1 hidentity).symm⟩

end Ssos
