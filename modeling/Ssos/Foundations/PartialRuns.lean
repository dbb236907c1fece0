import Mathlib.Data.Option.Basic

/-!
# Runs of a partial step function

Sequences of operations on a state whose step function may have no result. A
condition on single steps holds along a run when it holds before every
operation the run gets to. An invariant that every permitted step keeps makes
the whole run defined and holds in all its states.
-/

namespace PartialRun

variable {σ α : Type*} (step : σ → α → Option σ)

/-- The state after the operations; `none` when one of them has no result. -/
def exec : σ → List α → Option σ
  | s, [] => some s
  | s, a :: as =>
    match step s a with
    | none => none
    | some s' => exec s' as

/-- `P` holds before every operation that the run gets to. -/
def Along (P : σ → α → Prop) : σ → List α → Prop
  | _, [] => True
  | s, a :: as => P s a ∧ ∀ s', step s a = some s' → Along P s' as

variable {step} {P Q : σ → α → Prop} {Inv : σ → Prop} {s : σ}

theorem exec_cons {a : α} {as : List α} {s' : σ} (h : step s a = some s') :
    exec step s (a :: as) = exec step s' as := by
  rw [exec, h]

/-- A run that has a result has one after its first operation. -/
theorem exists_of_exec_cons {a : α} {as : List α} {s' : σ} (h : exec step s (a :: as) = some s') :
    ∃ s₁, step s a = some s₁ ∧ exec step s₁ as = some s' := by
  cases hstep : step s a with
  | none =>
    rw [exec, hstep] at h
    exact absurd h (Option.some_ne_none s').symm
  | some s₁ =>
    rw [exec_cons hstep] at h
    exact ⟨s₁, rfl, h⟩

theorem exec_append {as bs : List α} :
    exec step s (as ++ bs) = (exec step s as).bind fun s' => exec step s' bs := by
  induction as generalizing s with
  | nil => rfl
  | cons a as ih =>
    cases hstep : step s a with
    | none => simp [exec, hstep]
    | some s' => rw [List.cons_append, exec_cons hstep, exec_cons hstep, ih]

/-- One more operation at the end of a run. -/
theorem exec_snoc {as : List α} {a : α} {s₁ s₂ : σ} (h : exec step s as = some s₁)
    (ha : step s₁ a = some s₂) : exec step s (as ++ [a]) = some s₂ := by
  rw [exec_append, h, Option.bind_some]
  exact exec_cons ha

theorem Along.mono (hPQ : ∀ s a, P s a → Q s a) {as : List α} (h : Along step P s as) :
    Along step Q s as := by
  induction as generalizing s with
  | nil => trivial
  | cons a as ih => exact ⟨hPQ s a h.1, fun s' hs' => ih (h.2 s' hs')⟩

/-- Along a concrete run a decidable condition can be computed. -/
instance Along.decidable [∀ s a, Decidable (P s a)] : ∀ s as, Decidable (Along step P s as)
  | _, [] => isTrue trivial
  | s, a :: as =>
    match h : step s a with
    | none => decidable_of_iff (P s a)
        ⟨fun hP => ⟨hP, fun s' hs' => absurd (h.symm.trans hs') (Option.some_ne_none s').symm⟩,
          And.left⟩
    | some s₁ =>
      have := Along.decidable s₁ as
      decidable_of_iff (P s a ∧ Along step P s₁ as)
        ⟨fun hP => ⟨hP.1, fun _ hs' => Option.some_inj.1 (h.symm.trans hs') ▸ hP.2⟩,
          fun hP => ⟨hP.1, hP.2 s₁ h⟩⟩

/-- A condition that every step meets holds along every run. -/
theorem Along.of_forall (hP : ∀ s a, P s a) (as : List α) : Along step P s as := by
  induction as generalizing s with
  | nil => trivial
  | cons a as ih => exact ⟨hP s a, fun _ _ => ih⟩

/-- A condition on the operations alone. -/
theorem Along.of_mem {R : α → Prop} {as : List α} (h : ∀ a ∈ as, R a) :
    Along step (fun _ a => R a) s as := by
  induction as generalizing s with
  | nil => trivial
  | cons a as ih =>
    exact ⟨h a List.mem_cons_self, fun _ _ => ih fun b hb => h b (List.mem_cons_of_mem a hb)⟩

/-- A run goes on from the state that its first part reaches. -/
theorem Along.suffix {as bs : List α} {s' : σ} (h : Along step P s (as ++ bs))
    (hexec : exec step s as = some s') : Along step P s' bs := by
  induction as generalizing s with
  | nil =>
    obtain rfl := Option.some_inj.1 hexec
    exact h
  | cons a as ih =>
    obtain ⟨s₁, hstep, hexec⟩ := exists_of_exec_cons hexec
    exact ih (h.2 s₁ hstep) hexec

/-- The first part of a run is a run. -/
theorem Along.of_append {as bs : List α} (h : Along step P s (as ++ bs)) : Along step P s as := by
  induction as generalizing s with
  | nil => trivial
  | cons a as ih => exact ⟨h.1, fun s' hs' => ih (h.2 s' hs')⟩

/-- A run put together from two parts. -/
theorem Along.append {as bs : List α} (h : Along step P s as)
    (hrest : ∀ s', exec step s as = some s' → Along step P s' bs) : Along step P s (as ++ bs) := by
  induction as generalizing s with
  | nil => exact hrest s rfl
  | cons a as ih =>
    refine ⟨h.1, fun s' hs' => ih (h.2 s' hs') fun t ht => hrest t ?_⟩
    rw [exec_cons hs', ht]

/-- What holds before the last operation of every part that the run starts with
holds along the run. -/
theorem Along.of_prefixes {as : List α}
    (h : ∀ before a, before ++ [a] <+: as → ∀ t, exec step s before = some t → P t a) :
    Along step P s as := by
  induction as generalizing s with
  | nil => trivial
  | cons a as ih =>
    refine ⟨h [] a (List.prefix_append [a] as) s rfl, fun s' hs' => ih ?_⟩
    intro before b hpre t hexec
    refine h (a :: before) b ((List.prefix_cons_inj a).2 hpre) t ?_
    rw [exec_cons hs', hexec]

/-- What every step of the run keeps holds at its end. -/
theorem exec_keeps {as : List α} (hkeep : ∀ a ∈ as, ∀ s s', Inv s → step s a = some s' → Inv s')
    {s' : σ} (hs : Inv s) (h : exec step s as = some s') : Inv s' := by
  induction as generalizing s with
  | nil => exact Option.some_inj.1 h ▸ hs
  | cons a as ih =>
    obtain ⟨s₁, hstep, h⟩ := exists_of_exec_cons h
    exact ih (fun b hb => hkeep b (List.mem_cons_of_mem a hb))
      (hkeep a List.mem_cons_self s s₁ hs hstep) h

/-- What every permitted step keeps holds at the end of a permitted run. -/
theorem Along.keeps (hkeep : ∀ s a s', Inv s → P s a → step s a = some s' → Inv s')
    {as : List α} {s' : σ} (hs : Inv s) (h : Along step P s as) (hexec : exec step s as = some s') :
    Inv s' := by
  induction as generalizing s with
  | nil => exact Option.some_inj.1 hexec ▸ hs
  | cons a as ih =>
    obtain ⟨s₁, hstep, hexec⟩ := exists_of_exec_cons hexec
    exact ih (hkeep s a s₁ hs h.1 hstep) (h.2 s₁ hstep) hexec

/-- **Run lemma.** When every permitted step from the invariant is defined and
keeps it, a permitted run is defined and keeps it. -/
theorem Along.exec_invariant
    (hstep : ∀ s a, Inv s → P s a → ∃ s', step s a = some s' ∧ Inv s')
    {as : List α} (hs : Inv s) (h : Along step P s as) :
    ∃ s', exec step s as = some s' ∧ Inv s' := by
  induction as generalizing s with
  | nil => exact ⟨s, rfl, hs⟩
  | cons a as ih =>
    obtain ⟨s₁, h₁, hinv⟩ := hstep s a hs h.1
    rw [exec_cons h₁]
    exact ih hinv (h.2 s₁ h₁)

/-- What the invariant and the permission give before single steps holds along
the run. -/
theorem Along.of_invariant (hkeep : ∀ s a s', Inv s → P s a → step s a = some s' → Inv s')
    (hQ : ∀ s a, Inv s → P s a → Q s a) {as : List α} (hs : Inv s) (h : Along step P s as) :
    Along step Q s as := by
  induction as generalizing s with
  | nil => trivial
  | cons a as ih => exact ⟨hQ s a hs h.1, fun s' hs' => ih (hkeep s a s' hs h.1 hs') (h.2 s' hs')⟩

/-- Under an invariant that the steps keep, two conditions that agree on single
steps agree along a run. -/
theorem Along.iff_of_invariant {A : σ → α → Prop}
    (hiff : ∀ s a, Inv s → A s a → (P s a ↔ Q s a))
    (hkeep : ∀ s a s', Inv s → A s a → P s a → step s a = some s' → Inv s')
    {as : List α} (hs : Inv s) (hA : Along step A s as) :
    Along step P s as ↔ Along step Q s as := by
  induction as generalizing s with
  | nil => exact Iff.rfl
  | cons a as ih =>
    constructor
    · intro ⟨hP, hrest⟩
      refine ⟨(hiff s a hs hA.1).1 hP, fun s' hs' => ?_⟩
      exact (ih (hkeep s a s' hs hA.1 hP hs') (hA.2 s' hs')).1 (hrest s' hs')
    · intro ⟨hQ, hrest⟩
      have hP := (hiff s a hs hA.1).2 hQ
      refine ⟨hP, fun s' hs' => ?_⟩
      exact (ih (hkeep s a s' hs hA.1 hP hs') (hA.2 s' hs')).2 (hrest s' hs')

end PartialRun
