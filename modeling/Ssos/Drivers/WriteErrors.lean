import Ssos.Drivers.Disk

/-!
# Failed writes

Before each sector `disk_write` looks at the error bit of the status, but never
at the one of a device fault. What comes after the last sector has been sent it
waits for, without a look at either.

## Main result

- `writeReported_iff` — exactly which failures are reported
-/

namespace Ssos

open Polling

def ataStatusDf : UInt8 := (1 : UInt8) <<< 5

/-- No longer busy, with an error or a device fault. -/
def ReportsFailure (status : UInt8) : Prop :=
  status &&& ataStatusBsy = 0 ∧ (status &&& ataStatusErr ≠ 0 ∨ status &&& ataStatusDf ≠ 0)

instance (status : UInt8) : Decidable (ReportsFailure status) :=
  inferInstanceAs (Decidable (_ ∧ _))

/-- A call of `disk_write`, and the drive that it finds. -/
structure WriteCall (D : Type*) where
  dev : Device D
  startLba : ℕ
  sectorCount : ℕ
  buff : Words
  drive : D

namespace WriteCall

section Statuses
variable {D : Type*} (c : WriteCall D)

def run (fuel : ℕ) : Option (ℤ × D) :=
  diskWrite c.dev fuel c.startLba c.sectorCount c.buff c.drive

/-- The call up to sector `s`. -/
def sendSectors (s fuel : ℕ) : Option (ℤ × D) :=
  (waitWhileBusy c.dev fuel c.drive).bind fun d =>
    writeSectors c.dev fuel c.buff s
      (sendCommand c.dev ataCommandWriteSectors c.startLba c.sectorCount d)

/-- The drive gives the status while it is polled before sector `s`. -/
def SectorStatus (s : ℕ) (status : UInt8) : Prop :=
  ∃ d, Settles (c.sendSectors s) (0, d) ∧ Polled c.dev ataRegStatus sectorVerdict d status

/-- The drive gives the status while it is busy, or when it first is not, after
the data of the last sector has been sent. -/
def LastStatus (status : UInt8) : Prop :=
  ∃ d, Settles (c.sendSectors c.sectorCount) (0, d) ∧
    Polled c.dev ataRegStatus busyVerdict d status

/-- The same after the flush command. -/
def FlushStatus (status : UInt8) : Prop :=
  ∃ d, Settles (c.sendSectors c.sectorCount) (0, d) ∧
    Polled c.dev ataRegStatus busyVerdict (c.dev.outb ataRegCommand ataCommandCacheFlush d) status

/-- The drive reports that a sector or the flush has failed. -/
def DriveFails : Prop :=
  ∃ status, ReportsFailure status ∧
    ((∃ s < c.sectorCount, c.SectorStatus s status) ∨ c.LastStatus status ∨ c.FlushStatus status)

/-- The drive has asked for every sector and completed the flush, and reports no failure. -/
structure Completed : Prop where
  asked : ∀ s < c.sectorCount, ∃ status, c.SectorStatus s status ∧
    status &&& ataStatusBsy = 0 ∧ status &&& ataStatusDrq ≠ 0
  flushed : ∃ status, c.FlushStatus status ∧ status &&& ataStatusBsy = 0
  noFailure : ¬c.DriveFails

/-- A failed write returns non-zero, and one that returns 0 is complete. -/
structure WriteReported : Prop where
  reported : c.DriveFails → ∃ ret d, ret ≠ 0 ∧ Settles c.run (ret, d)
  completed : ∀ d, Settles c.run (0, d) → c.Completed

/-- The error bit is set in a status that is polled before one of the sectors. -/
def ErrBeforeSector : Prop :=
  ∃ s < c.sectorCount, ∃ status, c.SectorStatus s status ∧ status &&& ataStatusErr ≠ 0

end Statuses

/-! ### The tests of the loops -/

theorem sectorVerdict_of_err {status : UInt8} (herr : status &&& ataStatusErr ≠ 0) :
    sectorVerdict status = some false := if_pos herr

theorem err_of_sectorVerdict {status : UInt8} (h : sectorVerdict status = some false) :
    status &&& ataStatusErr ≠ 0 := by
  intro hclear
  rw [sectorVerdict, if_neg (not_not_intro hclear)] at h
  obtain ⟨_, hfalse⟩ := Option.ite_none_right_eq_some.1 h
  exact Bool.noConfusion (Option.some_inj.1 hfalse)

theorem asked_of_sectorVerdict {status : UInt8} (h : sectorVerdict status = some true) :
    status &&& ataStatusBsy = 0 ∧ status &&& ataStatusDrq ≠ 0 := by
  rw [sectorVerdict] at h
  by_cases herr : status &&& ataStatusErr ≠ 0
  · rw [if_pos herr] at h
    exact Bool.noConfusion (Option.some_inj.1 h)
  · rw [if_neg herr] at h
    exact (Option.ite_none_right_eq_some.1 h).1

theorem idle_of_busyVerdict {status : UInt8} (h : busyVerdict status = some ()) :
    status &&& ataStatusBsy = 0 := by
  by_contra hbusy
  rw [busyVerdict, if_pos hbusy] at h
  exact absurd h.symm (Option.some_ne_none ())

/-! ### Sector after sector -/

section Sectors
variable {D : Type*} (dev : Device D) (buff : Words)

/-- One turn of the outer loop. -/
def sectorTurn (s fuel : ℕ) (res : ℤ × D) : Option (ℤ × D) :=
  if res.1 ≠ 0 then some res
  else
    (waitForSector dev fuel res.2).bind fun (ready, d) =>
      if ready then some (0, delay400ns dev (writeWords dev s buff 256 d)) else some (-1, d)

theorem writeSectors_succ (fuel s : ℕ) (d : D) : writeSectors dev fuel buff (s + 1) d =
    (writeSectors dev fuel buff s d).bind (sectorTurn dev buff s fuel) := rfl

theorem stable_waitWhileBusy (d : D) : Stable fun fuel => waitWhileBusy dev fuel d :=
  (stable_pollUntil d).map Prod.snd

theorem stable_sectorTurn (s : ℕ) (res : ℤ × D) :
    Stable fun fuel => sectorTurn dev buff s fuel res := by
  unfold sectorTurn
  by_cases hret : res.1 ≠ 0
  · simp only [if_pos hret]
    exact Stable.const _
  · simp only [if_neg hret]
    exact (stable_pollUntil res.2).bind fun _ => Stable.const _

theorem stable_writeSectors (s : ℕ) (d : D) : Stable fun fuel => writeSectors dev fuel buff s d := by
  induction s with
  | zero => exact Stable.const _
  | succ s ih =>
    simp only [writeSectors_succ]
    exact ih.bind (stable_sectorTurn dev buff s)

end Sectors

section Call
variable {D : Type*} (c : WriteCall D)

theorem stable_sendSectors (s : ℕ) : Stable (c.sendSectors s) :=
  (stable_waitWhileBusy c.dev c.drive).bind fun _ => stable_writeSectors c.dev c.buff s _

theorem sendSectors_succ (s : ℕ) : c.sendSectors (s + 1) = fun fuel =>
    (c.sendSectors s fuel).bind (sectorTurn c.dev c.buff s fuel) := by
  funext fuel
  rw [sendSectors, sendSectors, Option.bind_assoc]
  rfl

/-- What follows the sectors. -/
def finish (fuel : ℕ) (res : ℤ × D) : Option (ℤ × D) :=
  if res.1 ≠ 0 then some res else flushCache c.dev fuel res.2

theorem run_eq : c.run = fun fuel => (c.sendSectors c.sectorCount fuel).bind (c.finish fuel) := by
  funext fuel
  rw [sendSectors, Option.bind_assoc]
  rfl

variable {c} {s : ℕ}

/-- After an error nothing more is sent. -/
theorem settles_of_failed {n : ℕ} (hle : s ≤ n) {ret : ℤ} {d : D} (hret : ret ≠ 0)
    (h : Settles (c.sendSectors s) (ret, d)) : Settles (c.sendSectors n) (ret, d) := by
  induction n, hle using Nat.le_induction with
  | base => exact h
  | succ n _ ih =>
    rw [sendSectors_succ]
    refine ih.bind ?_
    simp only [sectorTurn, if_pos hret]
    exact Settles.const _

/-- **Step lemma.** A sector is sent if the drive asks for it, and refused if
the error bit is set. -/
theorem sectorTurn_settles {d d' : D} {ret : ℤ}
    (h : Settles (fun fuel => sectorTurn c.dev c.buff s fuel (0, d)) (ret, d')) :
    ∃ status, Polled c.dev ataRegStatus sectorVerdict d status ∧
      ((ret = 0 ∧ status &&& ataStatusBsy = 0 ∧ status &&& ataStatusDrq ≠ 0) ∨
        (ret ≠ 0 ∧ status &&& ataStatusErr ≠ 0)) := by
  simp only [sectorTurn, ne_eq, not_true_eq_false, if_false] at h
  obtain ⟨⟨ready, d₁⟩, hwait, hres⟩ := h.of_bind (stable_pollUntil d)
  obtain ⟨status, hpolled, hverdict⟩ := polled_of_settles hwait
  refine ⟨status, hpolled, ?_⟩
  cases ready with
  | true =>
    obtain ⟨rfl, _⟩ := Prod.mk.inj (hres.unique (Settles.const _))
    exact Or.inl ⟨rfl, asked_of_sectorVerdict hverdict⟩
  | false =>
    obtain ⟨rfl, _⟩ := Prod.mk.inj (hres.unique (Settles.const _))
    exact Or.inr ⟨by decide, err_of_sectorVerdict hverdict⟩

/-- **Run lemma.** Either the drive has asked for all sectors, or it has set the
error bit. -/
theorem sendSectors_settles {n : ℕ} {ret : ℤ} {d : D} (h : Settles (c.sendSectors n) (ret, d)) :
    (ret = 0 ∧ ∀ s < n, ∃ status, c.SectorStatus s status ∧
        status &&& ataStatusBsy = 0 ∧ status &&& ataStatusDrq ≠ 0) ∨
      (ret ≠ 0 ∧ ∃ s < n, ∃ status, c.SectorStatus s status ∧ status &&& ataStatusErr ≠ 0) := by
  induction n generalizing ret d with
  | zero =>
    obtain ⟨d₁, _, hzero⟩ := h.of_bind (stable_waitWhileBusy c.dev c.drive)
    obtain ⟨rfl, _⟩ := Prod.mk.inj (hzero.unique (Settles.const _))
    exact Or.inl ⟨rfl, fun s hs => absurd hs (Nat.not_lt_zero s)⟩
  | succ n ih =>
    rw [sendSectors_succ] at h
    obtain ⟨⟨ret₁, d₁⟩, hsent, hturn⟩ := h.of_bind (stable_sendSectors c n)
    obtain ⟨rfl, hasked⟩ | ⟨hret, s, hs, herr⟩ := ih hsent
    · obtain ⟨status, hpolled, hstatus⟩ := sectorTurn_settles hturn
      have hsector : c.SectorStatus n status := ⟨d₁, hsent, hpolled⟩
      obtain ⟨rfl, hask⟩ | ⟨hret, herr⟩ := hstatus
      · refine Or.inl ⟨rfl, ?_⟩
        intro s hs
        obtain hlt | rfl := Nat.lt_succ_iff_lt_or_eq.1 hs
        · exact hasked s hlt
        · exact ⟨status, hsector, hask⟩
      · exact Or.inr ⟨hret, n, n.lt_succ_self, status, hsector, herr⟩
    · -- the loop has been left before this sector
      simp only [sectorTurn, if_pos hret] at hturn
      obtain ⟨rfl, _⟩ := Prod.mk.inj (hturn.unique (Settles.const _))
      exact Or.inr ⟨hret, s, hs.trans n.lt_succ_self, herr⟩

/-- The call returns non-zero exactly when it finds the error bit set before a
sector. -/
theorem errBeforeSector_iff :
    c.ErrBeforeSector ↔ ∃ ret d, ret ≠ 0 ∧ Settles c.run (ret, d) := by
  rw [run_eq]
  constructor
  · rintro ⟨s, hs, status, ⟨d, hsent, hpolled⟩, herr⟩
    obtain ⟨d', hwait⟩ := hpolled.settles (sectorVerdict_of_err herr)
    have hturn : Settles (fun fuel => sectorTurn c.dev c.buff s fuel (0, d)) (-1, d') := by
      simp only [sectorTurn, ne_eq, not_true_eq_false, if_false]
      exact hwait.bind (Settles.const _)
    have hnext : Settles (c.sendSectors (s + 1)) (-1, d') := by
      rw [sendSectors_succ]
      exact hsent.bind hturn
    have hret : (-1 : ℤ) ≠ 0 := by decide
    refine ⟨-1, d', hret, (settles_of_failed hs hret hnext).bind ?_⟩
    simp only [finish, if_pos hret]
    exact Settles.const _
  · rintro ⟨ret, d, hret, hrun⟩
    obtain ⟨⟨ret₁, d₁⟩, hsent, hfinish⟩ := hrun.of_bind (stable_sendSectors c _)
    obtain ⟨rfl, _⟩ | ⟨_, herr⟩ := sendSectors_settles hsent
    · -- the flush has no other return value
      simp only [finish, ne_eq, not_true_eq_false, if_false] at hfinish
      obtain ⟨d₂, _, hzero⟩ := hfinish.of_map (stable_waitWhileBusy c.dev _)
      exact absurd (Prod.mk.inj hzero).1.symm hret
    · exact herr

/-- What a call that returns 0 has waited for. -/
theorem asked_of_settles {d : D} (h : Settles c.run (0, d)) :
    (∀ s < c.sectorCount, ∃ status, c.SectorStatus s status ∧
        status &&& ataStatusBsy = 0 ∧ status &&& ataStatusDrq ≠ 0) ∧
      ∃ status, c.FlushStatus status ∧ status &&& ataStatusBsy = 0 := by
  rw [run_eq] at h
  obtain ⟨⟨ret₁, d₁⟩, hsent, hfinish⟩ := h.of_bind (stable_sendSectors c _)
  obtain ⟨rfl, hasked⟩ | ⟨hret, _⟩ := sendSectors_settles hsent
  · simp only [finish, ne_eq, not_true_eq_false, if_false] at hfinish
    obtain ⟨d₂, hwait, _⟩ := hfinish.of_map (stable_waitWhileBusy c.dev _)
    obtain ⟨⟨u, d₃⟩, hpoll, _⟩ := hwait.of_map (stable_pollUntil _)
    obtain ⟨status, hpolled, hverdict⟩ := polled_of_settles hpoll
    exact ⟨hasked, status, ⟨d₁, hsent, hpolled⟩, idle_of_busyVerdict hverdict⟩
  · simp only [finish, if_pos hret] at hfinish
    obtain ⟨rfl, _⟩ := Prod.mk.inj (hfinish.unique (Settles.const _))
    exact absurd rfl hret

end Call

end WriteCall

/-- **Failures are reported** exactly when each comes with the error bit set
before one of the sectors. -/
theorem writeReported_iff {D : Type*} (c : WriteCall D) :
    c.WriteReported ↔ (c.DriveFails → c.ErrBeforeSector) := by
  constructor
  · intro h hfails
    exact WriteCall.errBeforeSector_iff.2 (h.reported hfails)
  · intro h
    refine ⟨fun hfails => WriteCall.errBeforeSector_iff.1 (h hfails), ?_⟩
    intro d hzero
    obtain ⟨hasked, hflushed⟩ := WriteCall.asked_of_settles hzero
    refine ⟨hasked, hflushed, ?_⟩
    intro hfails
    obtain ⟨ret, d', hret, hrun⟩ := WriteCall.errBeforeSector_iff.1 (h hfails)
    exact hret (Prod.mk.inj (hrun.unique hzero)).1

/-! ### A flush that fails -/

/-- A drive that takes one sector and fails to flush it. -/
inductive FailingFlush
  | idle
  | sector (sent : ℕ)
  | flushed

namespace FailingFlush

def status : FailingFlush → UInt8
  | .idle => 0x50
  | .sector sent => if sent < 256 then 0x58 else 0x50
  | .flushed => 0x51

def outb (port : ℕ) (value : UInt8) (d : FailingFlush) : FailingFlush :=
  if port = ataRegCommand ∧ value = ataCommandWriteSectors then .sector 0
  else if port = ataRegCommand ∧ value = ataCommandCacheFlush then .flushed
  else d

def outw : FailingFlush → FailingFlush
  | .sector sent => .sector (sent + 1)
  | d => d

end FailingFlush

def failingFlush : Device FailingFlush :=
  ⟨fun _ d => (d.status, d), FailingFlush.outb, fun _ d => (0, d), fun _ _ d => d.outw⟩

def failingWrite : WriteCall FailingFlush := ⟨failingFlush, 0, 1, fun _ => 0, .idle⟩

theorem writeWords_failingFlush (buff : Words) (n : ℕ) :
    writeWords failingFlush 0 buff n (.sector 0) = .sector n := by
  induction n with
  | zero => rfl
  | succ n ih =>
    rw [writeWords, ih]
    rfl

/-- The flush of one sector ends with the error bit set, and the call returns 0. -/
theorem writeReported_fails : ¬failingWrite.WriteReported := by
  intro h
  have hsent : Settles (failingWrite.sendSectors 1) (0, .sector 256) := by
    have hturn : failingWrite.sendSectors 1 1 = some (0, delay400ns failingFlush
        (writeWords failingFlush 0 (fun _ => 0) 256 (.sector 0))) := rfl
    rw [writeWords_failingFlush] at hturn
    exact (WriteCall.stable_sendSectors failingWrite 1).settles hturn
  have hrun : Settles failingWrite.run (0, .flushed) := by
    rw [WriteCall.run_eq]
    refine hsent.bind ⟨1, ?_⟩
    intro fuel hfuel
    obtain ⟨k, rfl⟩ := Nat.exists_eq_add_of_le' hfuel
    rfl
  have hfails : failingWrite.DriveFails :=
    ⟨0x51, by decide, Or.inr (Or.inr ⟨_, hsent, Polled.now _⟩)⟩
  obtain ⟨ret, d, hret, hother⟩ := h.reported hfails
  exact hret (Prod.mk.inj (hother.unique hrun)).1

end Ssos
