import Ssos.Foundations.Polling

/-!
# Programs in stages

A program that sets one thing up after the other. Every stage returns a number,
0 for success, or never returns; the program keeps a log, and the first stage
that fails is its end.

## Main results

- `all_succeed_or` — where a sequence of stages can end
- `Follows.staged` — the rule for one stage in front of the others
- `Follows.ends`, `Follows.reaches` — how the program ends
-/

namespace Stages

open Polling

/-! ### Reports -/

/-- What a stage returns, where it returns, and what goes to the log. -/
structure Stage (α : Type*) where
  result : Option ℤ
  onFailure : List α
  onSuccess : List α

section Report
variable {α : Type*}

/-- Whether all stages succeed, and the log. -/
def report : List (Stage α) → Option (Bool × List α)
  | [] => some (true, [])
  | stage :: stages =>
    match stage.result with
    | none => none
    | some r =>
      if r ≠ 0 then some (false, stage.onFailure)
      else (report stages).map (Prod.map id (stage.onSuccess ++ ·))

/-- The log behind stages that succeed. -/
def successes (stages : List (Stage α)) : List α := stages.flatMap Stage.onSuccess

variable {stages : List (Stage α)} {stage : Stage α} {log : List α}

theorem report_of_none (h : stage.result = none) : report (stage :: stages) = none := by
  simp only [report, h]

theorem report_of_failure {r : ℤ} (h : stage.result = some r) (hr : r ≠ 0) :
    report (stage :: stages) = some (false, stage.onFailure) := by
  simp only [report, h, if_pos hr]

theorem report_of_success (h : stage.result = some 0) :
    report (stage :: stages) = (report stages).map (Prod.map id (stage.onSuccess ++ ·)) := by
  simp only [report, h, ne_eq, not_true_eq_false, if_false]

/-- Stages that succeed only add to the log. -/
theorem report_append {before : List (Stage α)} (h : ∀ stage ∈ before, stage.result = some 0) :
    report (before ++ stages) = (report stages).map (Prod.map id (successes before ++ ·)) := by
  induction before with
  | nil =>
    rw [List.nil_append]
    exact (Option.map_id_apply (x := report stages)).symm
  | cons stage before ih =>
    obtain ⟨hstage, hbefore⟩ := List.forall_mem_cons.1 h
    rw [List.cons_append, report_of_success hstage, ih hbefore, Option.map_map]
    refine congrArg (fun f => Option.map f _) (funext fun res => Prod.ext rfl ?_)
    exact (List.append_assoc stage.onSuccess _ res.2).symm

theorem report_all (h : ∀ stage ∈ stages, stage.result = some 0) :
    report stages = some (true, successes stages) := by
  have happend := @report_append α [] stages h
  rw [List.append_nil, report, Option.map_some] at happend
  rw [happend, Prod.map_apply, id, List.append_nil]

/-- Either all stages succeed, or one is the first that does not. -/
theorem all_succeed_or (stages : List (Stage α)) :
    (∀ stage ∈ stages, stage.result = some 0) ∨
      ∃ before stage after, stages = before ++ stage :: after ∧
        (∀ stage ∈ before, stage.result = some 0) ∧ stage.result ≠ some 0 := by
  induction stages with
  | nil => exact Or.inl fun stage h => absurd h List.not_mem_nil
  | cons stage stages ih =>
    by_cases hstage : stage.result = some 0
    · obtain hall | ⟨before, first, after, rfl, hbefore, hfirst⟩ := ih
      · exact Or.inl (List.forall_mem_cons.2 ⟨hstage, hall⟩)
      · exact Or.inr ⟨stage :: before, first, after, rfl,
          List.forall_mem_cons.2 ⟨hstage, hbefore⟩, hfirst⟩
    · exact Or.inr ⟨[], stage, stages, rfl, fun stage h => absurd h List.not_mem_nil, hstage⟩

end Report

/-! ### Programs -/

section Programs
variable {K α : Type*}

/-- One stage and the program behind it: a failure is logged and ends the program. -/
def staged (init : ℕ → K → Option (ℤ × K)) (fail : ℤ → K → Option K) (succeed : K → Option K)
    (next : ℕ → K → Option (Bool × K)) (fuel : ℕ) (k : K) : Option (Bool × K) :=
  (init fuel k).bind fun (r, k) =>
    if r ≠ 0 then (fail r k).map (false, ·) else (succeed k).bind (next fuel)

/-- Behind the log, the program does what the stages report. `Logged log k` says
that `k` has the log, `Done k` what all stages together achieve. -/
def Follows (Logged : List α → K → Prop) (Done : K → Prop) (prog : ℕ → K → Option (Bool × K))
    (k : K) (log : List α) (stages : List (Stage α)) : Prop :=
  match report stages with
  | none => Hangs fun fuel => prog fuel k
  | some (done, rest) => ∃ k', Settles (fun fuel => prog fuel k) (done, k') ∧
      Logged (log ++ rest) k' ∧ (done = true → Done k')

variable {Logged : List α → K → Prop} {Done : K → Prop} {prog : ℕ → K → Option (Bool × K)} {k : K}
  {log : List α} {stage : Stage α} {stages before after : List (Stage α)}

/-- The end of the program. -/
theorem Follows.nil (hlog : Logged log k) (hdone : Done k) :
    Follows Logged Done (fun _ k => some (true, k)) k log [] := by
  refine ⟨k, .const _, ?_, fun _ => hdone⟩
  rwa [List.append_nil]

/-- **One stage in front of the others.** -/
theorem Follows.staged {init : ℕ → K → Option (ℤ × K)} {fail : ℤ → K → Option K}
    {succeed : K → Option K} {next : ℕ → K → Option (Bool × K)}
    (hnone : stage.result = none → Hangs fun fuel => init fuel k)
    (hsome : ∀ r, stage.result = some r → ∃ k₁, Settles (fun fuel => init fuel k) (r, k₁) ∧
      (r ≠ 0 → ∃ k₂, fail r k₁ = some k₂ ∧ Logged (log ++ stage.onFailure) k₂) ∧
      (r = 0 → ∃ k₂, succeed k₁ = some k₂ ∧
        Follows Logged Done next k₂ (log ++ stage.onSuccess) stages)) :
    Follows Logged Done (Stages.staged init fail succeed next) k log (stage :: stages) := by
  cases hresult : stage.result with
  | none =>
    rw [Follows, report_of_none hresult]
    exact (hnone hresult).bind _
  | some r =>
    obtain ⟨k₁, hinit, hfail, hsucceed⟩ := hsome r hresult
    by_cases hr : r ≠ 0
    · obtain ⟨k₂, hk₂, hlog⟩ := hfail hr
      rw [Follows, report_of_failure hresult hr]
      refine ⟨k₂, hinit.bind ?_, hlog, fun h => Bool.noConfusion h⟩
      simp only [if_pos hr, hk₂, Option.map_some]
      exact .const _
    · obtain rfl := not_not.1 hr
      obtain ⟨k₂, hk₂, hnext⟩ := hsucceed rfl
      have hrest : ∀ fuel, (if (0 : ℤ) ≠ 0 then (fail 0 k₁).map (false, ·)
          else (succeed k₁).bind (next fuel)) = next fuel k₂ := by
        intro fuel
        rw [if_neg hr, hk₂, Option.bind_some]
      rw [Follows, report_of_success hresult]
      rw [Follows] at hnext
      cases hreport : report stages with
      | none =>
        rw [hreport] at hnext
        refine hinit.bind_hangs ?_
        simp only [hrest]
        exact hnext
      | some res =>
        obtain ⟨done, rest⟩ := res
        rw [hreport] at hnext
        obtain ⟨k', hsettles, hlog, hdone⟩ := hnext
        refine ⟨k', hinit.bind ?_, ?_, hdone⟩
        · simp only [hrest]
          exact hsettles
        · simpa only [Prod.map_snd, List.append_assoc] using hlog

/-- The first stage that does not succeed is the end of the program. -/
theorem Follows.ends (h : Follows Logged Done prog k log (before ++ stage :: after))
    (hbefore : ∀ stage ∈ before, stage.result = some 0) :
    (stage.result = none → Hangs fun fuel => prog fuel k) ∧
      ∀ r, stage.result = some r → r ≠ 0 → ∃ k', Settles (fun fuel => prog fuel k) (false, k') ∧
        Logged (log ++ (successes before ++ stage.onFailure)) k' := by
  rw [Follows, report_append hbefore] at h
  constructor
  · intro hnone
    rw [report_of_none hnone] at h
    exact h
  · intro r hresult hr
    rw [report_of_failure hresult hr] at h
    obtain ⟨k', hsettles, hlog, -⟩ := h
    exact ⟨k', hsettles, hlog⟩

theorem Follows.reaches (h : Follows Logged Done prog k log stages)
    (hall : ∀ stage ∈ stages, stage.result = some 0) :
    ∃ k', Settles (fun fuel => prog fuel k) (true, k') ∧ Logged (log ++ successes stages) k' ∧
      Done k' := by
  rw [Follows, report_all hall] at h
  obtain ⟨k', hsettles, hlog, hdone⟩ := h
  exact ⟨k', hsettles, hlog, hdone rfl⟩

end Programs

end Stages
