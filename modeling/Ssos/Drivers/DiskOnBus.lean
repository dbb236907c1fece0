import Ssos.Drivers.DiskInit

/-!
# The disk behind the bus

`disk_read` and `disk_write` on the bus that `disk_init` leaves are the same
functions on the drive: no port access of theirs tells the two apart.

## Main results

- `diskRead_embeds`, `diskWrite_embeds` — the driver does not notice what its device is part of
- `AtaBus.Ready.embeds` — behind `disk_init` the bus is the drive
- `diskCalls_after_init` — from detection to transfers
-/

namespace Ssos

open Polling

/-- The ports whose bytes the transfers read. -/
def ataReads : Set ℕ := {ataRegStatus, ataRegAltStatus}

/-- Every write but the identify command. -/
def ataWrites : Set (ℕ × UInt8) := {write | write ≠ (ataRegCommand, ataCommandIdentify)}

section Embedding
variable {D E : Type*} {devD : Device D} {devE : Device E} {f : D → E}
variable (h : Embeds devD devE f ataReads ataWrites)
include h

theorem waitWhileBusy_embeds (fuel : ℕ) (d : D) :
    waitWhileBusy devE fuel (f d) = (waitWhileBusy devD fuel d).map f := by
  rw [waitWhileBusy, waitWhileBusy, h.pollUntil (Or.inl rfl), Option.map_map, Option.map_map]
  rfl

theorem waitForSector_embeds (fuel : ℕ) (d : D) :
    waitForSector devE fuel (f d) = (waitForSector devD fuel d).map (Prod.map id f) :=
  h.pollUntil (Or.inl rfl) sectorVerdict fuel d

theorem readAltStatus_embeds (d : D) : readAltStatus devE (f d) = f (readAltStatus devD d) := by
  rw [readAltStatus, h.inb _ (Or.inr rfl)]
  rfl

theorem delay400ns_embeds (d : D) : delay400ns devE (f d) = f (delay400ns devD d) := by
  have hsemi : Function.Semiconj f (readAltStatus devD) (readAltStatus devE) :=
    fun d => (readAltStatus_embeds h d).symm
  exact (hsemi.iterate_right 4 d).symm

theorem sendCommand_embeds {command : UInt8} (hcommand : command ≠ ataCommandIdentify)
    (startLba sectorCount : ℕ) (d : D) :
    sendCommand devE command startLba sectorCount (f d) =
      f (sendCommand devD command startLba sectorCount d) := by
  have hport : ∀ port value, port ≠ ataRegCommand → (port, value) ∈ ataWrites :=
    fun port value hport hsame => hport (Prod.mk.inj hsame).1
  have hlast : (ataRegCommand, command) ∈ ataWrites := fun hsame => hcommand (Prod.mk.inj hsame).2
  simp only [sendCommand]
  rw [h.outb _ _ (hport _ _ (by decide)), delay400ns_embeds h, h.outb _ _ (hport _ _ (by decide)),
    h.outb _ _ (hport _ _ (by decide)), h.outb _ _ (hport _ _ (by decide)),
    h.outb _ _ (hport _ _ (by decide)), h.outb _ _ hlast]

theorem readWords_embeds (s n : ℕ) (buff : Words) (d : D) :
    readWords devE s n buff (f d) = Prod.map id f (readWords devD s n buff d) := by
  induction n with
  | zero => rfl
  | succ n ih =>
    rw [readWords, readWords, ih]
    simp only [Prod.map_fst, Prod.map_snd, id, h.inw]
    rfl

theorem readSectors_embeds (fuel n : ℕ) (buff : Words) (d : D) :
    readSectors devE fuel n buff (f d) =
      (readSectors devD fuel n buff d).map (Prod.map id (Prod.map id f)) := by
  induction n with
  | zero => rfl
  | succ n ih =>
    rw [readSectors, readSectors, ih, Option.bind_map, Option.map_bind]
    refine congrArg _ (funext fun res => ?_)
    obtain ⟨ret, buff, d⟩ := res
    by_cases hret : ret ≠ 0
    · simp only [Function.comp_apply, Prod.map_apply, id, if_pos hret, Option.map_some]
    · simp only [Function.comp_apply, Prod.map_apply, id, if_neg hret]
      rw [waitForSector_embeds h, Option.bind_map, Option.map_bind]
      refine congrArg _ (funext fun res => ?_)
      obtain ⟨ready, d⟩ := res
      cases ready with
      | false => rfl
      | true =>
        simp only [Function.comp_apply, Prod.map_apply, id, if_true, readWords_embeds h,
          Prod.map_fst, Prod.map_snd, delay400ns_embeds h, Option.map_some]

/-- **`disk_read`** does not notice what its device is part of. -/
theorem diskRead_embeds (fuel startLba sectorCount : ℕ) (buff : Words) (d : D) :
    diskRead devE fuel startLba sectorCount buff (f d) =
      (diskRead devD fuel startLba sectorCount buff d).map (Prod.map id (Prod.map id f)) := by
  rw [diskRead, diskRead, waitWhileBusy_embeds h, Option.bind_map, Option.map_bind]
  refine congrArg _ (funext fun d => ?_)
  simp only [Function.comp_apply]
  rw [sendCommand_embeds h (by decide), readSectors_embeds h]

theorem writeWords_embeds (s : ℕ) (buff : Words) (n : ℕ) (d : D) :
    writeWords devE s buff n (f d) = f (writeWords devD s buff n d) := by
  induction n with
  | zero => rfl
  | succ n ih => rw [writeWords, writeWords, ih, h.outw, readAltStatus_embeds h]

theorem writeSectors_embeds (fuel : ℕ) (buff : Words) (n : ℕ) (d : D) :
    writeSectors devE fuel buff n (f d) = (writeSectors devD fuel buff n d).map (Prod.map id f) := by
  induction n with
  | zero => rfl
  | succ n ih =>
    rw [writeSectors, writeSectors, ih, Option.bind_map, Option.map_bind]
    refine congrArg _ (funext fun res => ?_)
    obtain ⟨ret, d⟩ := res
    by_cases hret : ret ≠ 0
    · simp only [Function.comp_apply, Prod.map_apply, id, if_pos hret, Option.map_some]
    · simp only [Function.comp_apply, Prod.map_apply, id, if_neg hret]
      rw [waitForSector_embeds h, Option.bind_map, Option.map_bind]
      refine congrArg _ (funext fun res => ?_)
      obtain ⟨ready, d⟩ := res
      cases ready with
      | false => rfl
      | true =>
        simp only [Function.comp_apply, Prod.map_apply, id, if_true, writeWords_embeds h,
          delay400ns_embeds h, Option.map_some]

/-- **`disk_write`** does not either. -/
theorem diskWrite_embeds (fuel startLba sectorCount : ℕ) (buff : Words) (d : D) :
    diskWrite devE fuel startLba sectorCount buff (f d) =
      (diskWrite devD fuel startLba sectorCount buff d).map (Prod.map id f) := by
  rw [diskWrite, diskWrite, waitWhileBusy_embeds h, Option.bind_map, Option.map_bind]
  refine congrArg _ (funext fun d => ?_)
  simp only [Function.comp_apply]
  rw [sendCommand_embeds h (by decide), writeSectors_embeds h, Option.bind_map, Option.map_bind]
  refine congrArg _ (funext fun res => ?_)
  obtain ⟨ret, d⟩ := res
  by_cases hret : ret ≠ 0
  · simp only [Function.comp_apply, Prod.map_apply, id, if_pos hret, Option.map_some]
  · simp only [Function.comp_apply, Prod.map_apply, id, if_neg hret]
    have hflush : (ataRegCommand, ataCommandCacheFlush) ∈ ataWrites := by
      intro hsame
      exact absurd (Prod.mk.inj hsame).2 (by decide)
    rw [flushCache, flushCache, h.outb _ _ hflush, waitWhileBusy_embeds h, Option.map_map,
      Option.map_map]
    rfl

/-- What a call returns, and the device afterwards. -/
def DiskCall.resultOn {D : Type*} (dev : Device D) (fuel : ℕ) (d : D) : DiskCall → Option (ℤ × D)
  | .read lba count buff => (diskRead dev fuel lba count buff d).map fun res => (res.1, res.2.2)
  | .write lba count buff => diskWrite dev fuel lba count buff d

theorem resultOn_embeds (fuel : ℕ) (call : DiskCall) (d : D) :
    call.resultOn devE fuel (f d) = (call.resultOn devD fuel d).map (Prod.map id f) := by
  cases call with
  | read lba count buff =>
    rw [DiskCall.resultOn, DiskCall.resultOn, diskRead_embeds h, Option.map_map, Option.map_map]
    rfl
  | write lba count buff => exact diskWrite_embeds h fuel lba count buff d

end Embedding

/-- Every call of the sequence returns 0, and the last one leaves the device as `d'`. -/
def LeadsOn {D : Type*} (dev : Device D) (d' : D) : D → List DiskCall → Prop
  | d, [] => d = d'
  | d, call :: calls =>
    ∃ d₁, Settles (fun fuel => call.resultOn dev fuel d) (0, d₁) ∧ LeadsOn dev d' d₁ calls

/-- A sequence of calls on the drive is one on the device around it. -/
theorem Leads.embeds {E : Type*} {devE : Device E} {f : Drive → E}
    (h : Embeds ataDrive devE f ataReads ataWrites) {d d' : Drive} {calls : List DiskCall}
    (hleads : Leads d' d calls) : LeadsOn devE (f d') (f d) calls := by
  induction calls generalizing d with
  | nil => exact congrArg f hleads
  | cons call calls ih =>
    obtain ⟨d₁, hsettles, hrest⟩ := hleads
    refine ⟨f d₁, ?_, ih hrest⟩
    simp only [resultOn_embeds h]
    cases call with
    | read lba count buff => exact hsettles.map _
    | write lba count buff => exact hsettles.map _

/-! ### The bus -/

def AtaBus.withDrive (bus : AtaBus) (drive : Drive) : AtaBus := { bus with drive }

/-- **Behind `disk_init` the bus is the drive.** -/
theorem AtaBus.Ready.embeds {bus : AtaBus} (hready : bus.Ready) :
    Embeds ataDrive ataBus bus.withDrive ataReads ataWrites := by
  obtain ⟨hfloating, ⟨hidentifying, -⟩, -⟩ := hready
  obtain ⟨floating, mid, high, identity, identifying, drive, installed⟩ := bus
  subst hfloating hidentifying
  refine ⟨fun port hport d => ?_, fun port value hwrite d => ?_, fun _ _ => rfl, fun _ _ _ => rfl⟩
  · have hstatus : port = ataRegStatus ∨ port = ataRegAltStatus := hport
    simp only [ataBus, ataDrive, AtaBus.inb, AtaBus.withDrive, Drive.inb, if_pos hstatus]
    rfl
  · have hother : ¬(port = ataRegCommand ∧ value = ataCommandIdentify) :=
      fun hsame => hwrite (Prod.ext hsame.1 hsame.2)
    exact if_neg hother

/-- `disk_init` keeps the store that is on the disk. -/
theorem diskInit_store {bus : AtaBus} {capacity : ℕ} {store : SectorStore}
    (hstore : bus.floating = none → bus.identifying = .no ∧ HoldsStore capacity store bus.drive)
    (block : Words) :
    (∃ r words bus', bus.outcome = some r ∧
      Settles (fun fuel => diskInit ataBus AtaBus.installDriver fuel block bus) (r, words, bus') ∧
      (r = 0 → bus'.Ready ∧ HoldsStore capacity store bus'.drive ∧
        bus.identity = some (sectorOf words 0))) ∨
    bus.outcome = none ∧
      Hangs fun fuel => diskInit ataBus AtaBus.installDriver fuel block bus := by
  have hrests : bus.floating = none → bus.Rests := fun hfloating =>
    ⟨(hstore hfloating).1, (hstore hfloating).2.idle⟩
  refine (diskInit_found hrests block).imp_left ?_
  rintro ⟨r, words, bus', houtcome, hsettles, hsectors, -, hready⟩
  refine ⟨r, words, bus', houtcome, hsettles, ?_⟩
  rintro rfl
  obtain ⟨hready, hidentity⟩ := hready rfl
  obtain ⟨-, hholds⟩ := hstore (AtaBus.floating_of_outcome houtcome)
  exact ⟨hready, ⟨hready.rests.idle, hsectors ▸ hholds.length, hsectors ▸ hholds.sector⟩, hidentity⟩

/-- **From detection to transfers.** When `disk_init` has returned 0, any calls
inside the disk return 0, and a read behind them delivers the sectors of a store
that has started with what was on the disk and taken the same calls. -/
theorem diskCalls_after_init {bus bus' : AtaBus} {block words : Words} {capacity : ℕ}
    {store : SectorStore} (hcap : capacity ≤ 2 ^ 28)
    (hstore : bus.floating = none → bus.identifying = .no ∧ HoldsStore capacity store bus.drive)
    (hinit : Settles (fun fuel => diskInit ataBus AtaBus.installDriver fuel block bus) (0, words, bus'))
    {calls : List DiskCall} (hcalls : ∀ call ∈ calls, call.Fits capacity) {lba count : ℕ}
    {buff : Words} (hread : (DiskCall.read lba count buff).Fits capacity) :
    ∃ bus₁ bus₂, LeadsOn ataBus bus₁ bus' calls ∧
      Settles (fun fuel => diskRead ataBus fuel lba count buff bus₁)
        (0, (store.after calls).read lba count buff, bus₂) ∧ bus₂.Ready := by
  obtain ⟨r, words', bus'', -, hsettles, hdone⟩ | ⟨-, hhangs⟩ := diskInit_store hstore block
  · cases hsettles.unique hinit
    obtain ⟨hready, hholds, -⟩ := hdone rfl
    obtain ⟨d₁, hleads, hd₁⟩ := hholds.calls hcap hcalls
    obtain ⟨d₂, hread, hd₂⟩ := hd₁.read hcap hread.1 hread.2.1 hread.2.2 buff
    refine ⟨bus'.withDrive d₁, bus'.withDrive d₂, hleads.embeds hready.embeds, ?_,
      ⟨hready.floating, ⟨hready.rests.identifying, hd₂.idle⟩, hready.installed⟩⟩
    simp only [diskRead_embeds hready.embeds]
    exact hread.map _
  · exact absurd hinit (hhangs.not_settles _)

/-- A write and a read behind `disk_init` on a blank drive. -/
theorem diskCalls_after_init_blank :
    let bus : AtaBus := {
      floating := none, signatureMid := 0, signatureHigh := 0, identity := some fun _ => 7
      identifying := .no, drive := .blank 4, installed := false }
    ∃ words bus' bus₁ bus₂,
      Settles (fun fuel => diskInit ataBus AtaBus.installDriver fuel (fun _ => 0) bus)
        (0, words, bus') ∧
      LeadsOn ataBus bus₁ bus' [.write 2 1 fun _ => 5] ∧
      Settles (fun fuel => diskRead ataBus fuel 1 2 (fun _ => 0) bus₁)
        (0, (SectorStore.after (fun _ _ => 0) [.write 2 1 fun _ => 5]).read 1 2 fun _ => 0, bus₂) := by
  intro bus
  have hstore : bus.floating = none → bus.identifying = .no ∧ HoldsStore 4 (fun _ _ => 0) bus.drive :=
    fun _ => ⟨rfl, Drive.holdsStore_blank 4⟩
  have hcalls : ∀ call ∈ [DiskCall.write 2 1 fun _ => 5], call.Fits 4 := by
    intro call hcall
    obtain rfl := List.mem_singleton.1 hcall
    exact ⟨by decide, by decide, by decide⟩
  obtain ⟨r, words, bus', houtcome, hinit, -⟩ | ⟨houtcome, -⟩ := diskInit_store hstore fun _ => 0
  · obtain rfl := Option.some_inj.1 houtcome
    obtain ⟨bus₁, bus₂, hleads, hread, -⟩ := diskCalls_after_init (by decide) hstore hinit hcalls
      (show (DiskCall.read 1 2 fun _ => 0).Fits 4 from ⟨by decide, by decide, by decide⟩)
    exact ⟨words, bus', bus₁, bus₂, hinit, hleads, hread⟩
  · exact absurd houtcome (Option.some_ne_none 0)

end Ssos
