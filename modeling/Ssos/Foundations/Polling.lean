import Mathlib.Tactic.Ring

/-!
# Polling a device

Programs that talk to a device through ports. A loop that waits for the device
gets its turns as fuel; a program settles on a result when all sufficiently
large amounts of fuel give it.

## Main results

- `Settles.bind` — programs that settle compose
- `Settles.of_bind` — the parts of a program that settles do so too
- `settles_pollUntil` — a device that counts down is waited for
- `pollUntil_eq_none` — a device that never answers is polled for ever
-/

namespace Polling

/-- The port instructions on a device with states `D`. -/
structure Device (D : Type*) where
  inb : ℕ → D → UInt8 × D
  outb : ℕ → UInt8 → D → D
  inw : ℕ → D → UInt16 × D
  outw : ℕ → UInt16 → D → D

section Settles
variable {α β : Type*}

def Settles (f : ℕ → Option α) (a : α) : Prop := ∃ N, ∀ fuel ≥ N, f fuel = some a

theorem Settles.const (a : α) : Settles (fun _ => some a) a := ⟨0, fun _ _ => rfl⟩

/-- With enough fuel the first part of a program is done. -/
theorem Settles.bind_eq {f : ℕ → Option α} {a : α} (hf : Settles f a) (g : ℕ → α → Option β) :
    ∃ N, ∀ fuel ≥ N, (f fuel).bind (g fuel) = g fuel a := by
  obtain ⟨N, hN⟩ := hf
  refine ⟨N, ?_⟩
  intro fuel hfuel
  rw [hN fuel hfuel, Option.bind_some]

theorem Settles.bind {f : ℕ → Option α} {g : ℕ → α → Option β} {a : α} {b : β}
    (hf : Settles f a) (hg : Settles (fun fuel => g fuel a) b) :
    Settles (fun fuel => (f fuel).bind (g fuel)) b := by
  obtain ⟨N, hN⟩ := hf.bind_eq g
  obtain ⟨M, hM⟩ := hg
  refine ⟨max N M, ?_⟩
  intro fuel hfuel
  exact (hN fuel (le_trans (le_max_left N M) hfuel)).trans
    (hM fuel (le_trans (le_max_right N M) hfuel))

theorem Settles.map {f : ℕ → Option α} {a : α} (hf : Settles f a) (g : α → β) :
    Settles (fun fuel => (f fuel).map g) (g a) := by
  obtain ⟨N, hN⟩ := hf
  exact ⟨N, fun fuel hfuel => congrArg (Option.map g) (hN fuel hfuel)⟩

/-- A program settles on one result. -/
theorem Settles.unique {f : ℕ → Option α} {a b : α} (ha : Settles f a) (hb : Settles f b) :
    a = b := by
  obtain ⟨N, hN⟩ := ha
  obtain ⟨M, hM⟩ := hb
  have hsame := (hN _ (le_max_left N M)).symm.trans (hM _ (le_max_right N M))
  exact Option.some_inj.1 hsame

/-- A program that runs out of any large amount of fuel. -/
def Hangs (f : ℕ → Option α) : Prop := ∃ N, ∀ fuel ≥ N, f fuel = none

theorem Hangs.not_settles {f : ℕ → Option α} (h : Hangs f) (a : α) : ¬Settles f a := by
  obtain ⟨N, hN⟩ := h
  rintro ⟨M, hM⟩
  have hsame := (hN _ (le_max_left N M)).symm.trans (hM _ (le_max_right N M))
  exact Option.some_ne_none a hsame.symm

/-- A program hangs when one of its parts does. -/
theorem Settles.bind_hangs {f : ℕ → Option α} {g : ℕ → α → Option β} {a : α}
    (hf : Settles f a) (hg : Hangs fun fuel => g fuel a) :
    Hangs fun fuel => (f fuel).bind (g fuel) := by
  obtain ⟨N, hN⟩ := hf.bind_eq g
  obtain ⟨M, hM⟩ := hg
  refine ⟨max N M, ?_⟩
  intro fuel hfuel
  exact (hN fuel (le_trans (le_max_left N M) hfuel)).trans
    (hM fuel (le_trans (le_max_right N M) hfuel))

theorem Hangs.bind {f : ℕ → Option α} (hf : Hangs f) (g : ℕ → α → Option β) :
    Hangs fun fuel => (f fuel).bind (g fuel) := by
  obtain ⟨N, hN⟩ := hf
  exact ⟨N, fun fuel hfuel => congrArg (fun r => r.bind (g fuel)) (hN fuel hfuel)⟩

theorem Hangs.map {f : ℕ → Option α} (hf : Hangs f) (g : α → β) :
    Hangs fun fuel => (f fuel).map g := by
  obtain ⟨N, hN⟩ := hf
  exact ⟨N, fun fuel hfuel => congrArg (Option.map g) (hN fuel hfuel)⟩

/-- More fuel does not change a result. -/
def Stable (f : ℕ → Option α) : Prop := ∀ fuel a, f fuel = some a → f (fuel + 1) = some a

theorem Stable.const (a : Option α) : Stable fun _ => a := fun _ _ h => h

theorem Stable.bind {f : ℕ → Option α} {g : ℕ → α → Option β} (hf : Stable f)
    (hg : ∀ a, Stable fun fuel => g fuel a) : Stable fun fuel => (f fuel).bind (g fuel) := by
  intro fuel b h
  obtain ⟨a, ha, hb⟩ := Option.bind_eq_some_iff.1 h
  simp only [hf fuel a ha, Option.bind_some]
  exact hg a fuel b hb

theorem Stable.map {f : ℕ → Option α} (hf : Stable f) (g : α → β) :
    Stable fun fuel => (f fuel).map g := by
  intro fuel b h
  obtain ⟨a, ha, rfl⟩ := Option.map_eq_some_iff.1 h
  simp only [hf fuel a ha, Option.map_some]

/-- A stable program settles on any result that it has. -/
theorem Stable.settles {f : ℕ → Option α} (hf : Stable f) {fuel : ℕ} {a : α}
    (h : f fuel = some a) : Settles f a := by
  refine ⟨fuel, ?_⟩
  intro fuel' hle
  induction fuel', hle using Nat.le_induction with
  | base => exact h
  | succ fuel' _ ih => exact hf fuel' a ih

/-- When a program settles, its first part has settled before. -/
theorem Settles.of_bind {f : ℕ → Option α} {g : ℕ → α → Option β} {b : β} (hf : Stable f)
    (h : Settles (fun fuel => (f fuel).bind (g fuel)) b) :
    ∃ a, Settles f a ∧ Settles (fun fuel => g fuel a) b := by
  obtain ⟨N, hN⟩ := h
  obtain ⟨a, ha, _⟩ := Option.bind_eq_some_iff.1 (hN N le_rfl)
  have hsettles := hf.settles ha
  obtain ⟨M, hM⟩ := hsettles.bind_eq g
  refine ⟨a, hsettles, max N M, ?_⟩
  intro fuel hfuel
  exact (hM fuel (le_trans (le_max_right N M) hfuel)).symm.trans
    (hN fuel (le_trans (le_max_left N M) hfuel))

theorem Settles.of_map {f : ℕ → Option α} {g : α → β} {b : β} (hf : Stable f)
    (h : Settles (fun fuel => (f fuel).map g) b) : ∃ a, Settles f a ∧ g a = b := by
  obtain ⟨N, hN⟩ := h
  obtain ⟨a, ha, hb⟩ := Option.map_eq_some_iff.1 (hN N le_rfl)
  exact ⟨a, hf.settles ha, hb⟩

end Settles

section Poll
variable {D β : Type*} (dev : Device D) (port : ℕ) (verdict : UInt8 → Option β)

/-- `for (;;) { status = inb(port); … }`, left with the verdict on a status. -/
def pollUntil : ℕ → D → Option (β × D)
  | 0, _ => none
  | fuel + 1, d =>
    match verdict (dev.inb port d).1 with
    | some b => some (b, (dev.inb port d).2)
    | none => pollUntil fuel (dev.inb port d).2

/-- The device gives the status while it is polled from the state on. -/
inductive Polled : D → UInt8 → Prop
  | now (d : D) : Polled d (dev.inb port d).1
  | later {d : D} {status : UInt8} (hnone : verdict (dev.inb port d).1 = none)
    (h : Polled (dev.inb port d).2 status) : Polled d status

variable {dev port verdict}

theorem stable_pollUntil (d : D) : Stable fun fuel => pollUntil dev port verdict fuel d := by
  intro fuel a h
  induction fuel generalizing d with
  | zero => exact absurd h.symm (Option.some_ne_none a)
  | succ fuel ih =>
    simp only [pollUntil] at h ⊢
    cases hverdict : verdict (dev.inb port d).1 with
    | none =>
      simp only [hverdict] at h ⊢
      exact ih (dev.inb port d).2 h
    | some b =>
      simp only [hverdict] at h ⊢
      exact h

/-- Polling ends with the status that decides. -/
theorem Polled.settles {d : D} {status : UInt8} (h : Polled dev port verdict d status) {b : β}
    (hverdict : verdict status = some b) :
    ∃ d', Settles (fun fuel => pollUntil dev port verdict fuel d) (b, d') := by
  induction h with
  | now d =>
    have hfirst : pollUntil dev port verdict 1 d = some (b, (dev.inb port d).2) := by
      simp only [pollUntil, hverdict]
    exact ⟨_, (stable_pollUntil d).settles hfirst⟩
  | @later d _ hnone _ ih =>
    obtain ⟨d', N, hN⟩ := ih hverdict
    have hnext : pollUntil dev port verdict (N + 1) d = some (b, d') := by
      simp only [pollUntil, hnone]
      exact hN N le_rfl
    exact ⟨d', (stable_pollUntil d).settles hnext⟩

/-- The verdict is one on a status that has been polled. -/
theorem polled_of_settles {d d' : D} {b : β}
    (h : Settles (fun fuel => pollUntil dev port verdict fuel d) (b, d')) :
    ∃ status, Polled dev port verdict d status ∧ verdict status = some b := by
  obtain ⟨N, hN⟩ := h
  have hres := hN N le_rfl
  clear hN
  induction N generalizing d with
  | zero => exact absurd hres.symm (Option.some_ne_none _)
  | succ fuel ih =>
    simp only [pollUntil] at hres
    cases hverdict : verdict (dev.inb port d).1 with
    | none =>
      simp only [hverdict] at hres
      obtain ⟨status, hpolled, hb⟩ := ih hres
      exact ⟨status, .later hverdict hpolled, hb⟩
    | some b₁ =>
      simp only [hverdict, Option.some_inj, Prod.mk.injEq] at hres
      exact ⟨_, .now d, hverdict.trans (congrArg some hres.1)⟩

theorem settles_pollUntil {c : ℕ → D} {b : β}
    (hwait : ∀ k, verdict (dev.inb port (c (k + 1))).1 = none ∧
      (dev.inb port (c (k + 1))).2 = c k)
    (hdone : verdict (dev.inb port (c 0)).1 = some b) (k : ℕ) :
    Settles (fun fuel => pollUntil dev port verdict fuel (c k)) (b, (dev.inb port (c 0)).2) := by
  refine ⟨k + 1, ?_⟩
  intro fuel hfuel
  induction k generalizing fuel with
  | zero =>
    cases fuel with
    | zero => omega
    | succ fuel => simp only [pollUntil, hdone]
  | succ k ih =>
    cases fuel with
    | zero => omega
    | succ fuel =>
      obtain ⟨hnone, hnext⟩ := hwait k
      simp only [pollUntil, hnone, hnext]
      exact ih fuel (by omega)

/-- A device that makes progress while it is polled is waited for. -/
theorem exists_settles_pollUntil {P : D → Prop} {Q : β → D → Prop} (μ : D → ℕ)
    (hP : ∀ d, P d → (verdict (dev.inb port d).1 = none ∧ P (dev.inb port d).2 ∧
        μ (dev.inb port d).2 < μ d) ∨
      ∃ b, verdict (dev.inb port d).1 = some b ∧ Q b (dev.inb port d).2) {d : D} (hd : P d) :
    ∃ b d', Settles (fun fuel => pollUntil dev port verdict fuel d) (b, d') ∧ Q b d' := by
  induction hμ : μ d using Nat.strong_induction_on generalizing d with
  | _ n ih =>
    obtain ⟨hnone, hnext, hlt⟩ | ⟨b, hverdict, hQ⟩ := hP d hd
    · obtain ⟨b, d', ⟨N, hN⟩, hQ⟩ := ih _ (hμ ▸ hlt) hnext rfl
      have hturn : pollUntil dev port verdict (N + 1) d = some (b, d') := by
        simp only [pollUntil, hnone]
        exact hN N le_rfl
      exact ⟨b, d', (stable_pollUntil d).settles hturn, hQ⟩
    · have hturn : pollUntil dev port verdict 1 d = some (b, (dev.inb port d).2) := by
        simp only [pollUntil, hverdict]
      exact ⟨b, _, (stable_pollUntil d).settles hturn, hQ⟩

theorem pollUntil_eq_none {P : D → Prop}
    (hP : ∀ d, P d → verdict (dev.inb port d).1 = none ∧ P (dev.inb port d).2) {d : D} (hd : P d)
    (fuel : ℕ) : pollUntil dev port verdict fuel d = none := by
  induction fuel generalizing d with
  | zero => rfl
  | succ fuel ih =>
    obtain ⟨hnone, hnext⟩ := hP d hd
    simp only [pollUntil, hnone]
    exact ih hnext

end Poll

section Embedding
variable {D E : Type*} {devD : Device D} {devE : Device E} {f : D → E} {reads : Set ℕ}
  {writes : Set (ℕ × UInt8)}

/-- A device inside another one: on the ports that are read and for the bytes
that are written, the outer one answers and changes as the inner one does. -/
structure Embeds (devD : Device D) (devE : Device E) (f : D → E) (reads : Set ℕ)
    (writes : Set (ℕ × UInt8)) : Prop where
  inb : ∀ port ∈ reads, ∀ d, devE.inb port (f d) = Prod.map id f (devD.inb port d)
  outb : ∀ port value, (port, value) ∈ writes →
    ∀ d, devE.outb port value (f d) = f (devD.outb port value d)
  inw : ∀ port d, devE.inw port (f d) = Prod.map id f (devD.inw port d)
  outw : ∀ port word d, devE.outw port word (f d) = f (devD.outw port word d)

/-- Polling the outer device is polling the inner one. -/
theorem Embeds.pollUntil (h : Embeds devD devE f reads writes) {port : ℕ} (hport : port ∈ reads)
    {β : Type*} (verdict : UInt8 → Option β) (fuel : ℕ) (d : D) :
    pollUntil devE port verdict fuel (f d) =
      (pollUntil devD port verdict fuel d).map (Prod.map id f) := by
  induction fuel generalizing d with
  | zero => rfl
  | succ fuel ih =>
    simp only [Polling.pollUntil, h.inb port hport, Prod.map_fst, Prod.map_snd, id]
    cases verdict (devD.inb port d).1 with
    | none => exact ih (devD.inb port d).2
    | some b => rfl

end Embedding

end Polling
