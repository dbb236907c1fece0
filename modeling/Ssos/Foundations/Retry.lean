import Mathlib.Data.Nat.Basic
import Mathlib.Tactic.Common

/-!
# Bounded retries

A step that may fail and is then repeated, a bounded number of times. Which
attempts fail is known from outside, by a predicate on their numbers.

## Main results

- `retry_spec` — the first attempt that gets through decides
- `Exchange.unique` — the failures determine the result of an exchange
-/

namespace Retry

variable {σ β : Type*}

/-- At most `n` attempts, up to the first that gives an answer. -/
def retry (attempt : σ → Option β × σ) : ℕ → σ → Option β × σ
  | 0, s => (none, s)
  | n + 1, s =>
    match attempt s with
    | (some b, s) => (some b, s)
    | (none, s) => retry attempt n s

/-- Of the attempts from number `n` on the first `a` fail, and the next one,
still among the first `limit`, does not. -/
structure Delivered (fails : ℕ → Bool) (limit n a : ℕ) : Prop where
  lt : a < limit
  failed : ∀ i < a, fails (n + i) = true
  passed : fails (n + a) = false

/-- All of the `limit` attempts from number `n` on fail. -/
def Lost (fails : ℕ → Bool) (limit n : ℕ) : Prop := ∀ i < limit, fails (n + i) = true

section Spec
variable {fails : ℕ → Bool} {limit n a : ℕ}

theorem Delivered.unique {b : ℕ} (ha : Delivered fails limit n a) (hb : Delivered fails limit n b) :
    a = b := by
  rcases Nat.lt_trichotomy a b with hlt | heq | hgt
  · exact Bool.noConfusion (ha.passed.symm.trans (hb.failed a hlt))
  · exact heq
  · exact Bool.noConfusion (hb.passed.symm.trans (ha.failed b hgt))

theorem Delivered.not_lost (ha : Delivered fails limit n a) : ¬Lost fails limit n := fun hlost =>
  Bool.noConfusion (ha.passed.symm.trans (hlost a ha.lt))

theorem delivered_zero (hlimit : 0 < limit) (hpassed : fails n = false) :
    Delivered fails limit n 0 :=
  ⟨hlimit, fun i hi => absurd hi (Nat.not_lt_zero i), hpassed⟩

/-- An attempt that fails is one more in front of the others. -/
theorem Delivered.succ (hfailed : fails n = true) (ha : Delivered fails limit (n + 1) a) :
    Delivered fails (limit + 1) n (a + 1) where
  lt := Nat.succ_lt_succ ha.lt
  failed := by
    intro i hi
    cases i with
    | zero => exact hfailed
    | succ i =>
      have hnext := ha.failed i (Nat.lt_of_succ_lt_succ hi)
      rwa [Nat.add_right_comm] at hnext
  passed := by
    have hnext := ha.passed
    rwa [Nat.add_right_comm] at hnext

theorem Lost.succ (hfailed : fails n = true) (hlost : Lost fails limit (n + 1)) :
    Lost fails (limit + 1) n := by
  intro i hi
  cases i with
  | zero => exact hfailed
  | succ i =>
    have hnext := hlost i (Nat.lt_of_succ_lt_succ hi)
    rwa [Nat.add_right_comm] at hnext

/-- **The rule for retries.** `J` holds before each attempt; one that fails leads
from `J` to `J`, one that gets through leads to `K`. -/
theorem retry_spec {attempt : σ → Option β × σ} {J : ℕ → σ → Prop} {K : ℕ → β → σ → Prop}
    (hfail : ∀ n s, fails n = true → J n s → ∃ s', attempt s = (none, s') ∧ J (n + 1) s')
    (hpass : ∀ n s, fails n = false → J n s → ∃ b s', attempt s = (some b, s') ∧ K (n + 1) b s')
    {s : σ} (hs : J n s) :
    (∃ a b s', Delivered fails limit n a ∧ retry attempt limit s = (some b, s') ∧
        K (n + a + 1) b s') ∨
      ∃ s', Lost fails limit n ∧ retry attempt limit s = (none, s') ∧ J (n + limit) s' := by
  induction limit generalizing n s with
  | zero => exact Or.inr ⟨s, fun i hi => absurd hi (Nat.not_lt_zero i), rfl, hs⟩
  | succ limit ih =>
    cases hfails : fails n with
    | false =>
      obtain ⟨b, s', hattempt, hK⟩ := hpass n s hfails hs
      refine Or.inl ⟨0, b, s', delivered_zero limit.succ_pos hfails, ?_, hK⟩
      rw [retry, hattempt]
    | true =>
      obtain ⟨s₁, hattempt, hJ⟩ := hfail n s hfails hs
      have hretry : retry attempt (limit + 1) s = retry attempt limit s₁ := by
        rw [retry, hattempt]
      rw [hretry]
      obtain ⟨a, b, s', ha, hres, hK⟩ | ⟨s', hlost, hres, hJ'⟩ := ih hJ
      · refine Or.inl ⟨a + 1, b, s', ha.succ hfails, hres, ?_⟩
        rwa [Nat.add_right_comm n 1 a] at hK
      · refine Or.inr ⟨s', hlost.succ hfails, hres, ?_⟩
        rwa [Nat.add_right_comm, Nat.add_assoc] at hJ'

end Spec

/-! ### Several messages -/

/-- Messages sent one after the other, each up to `limit` times and the first
one from attempt `n` on. The result is the code of the first message that is
lost, or `done`. -/
inductive Exchange {ρ : Type*} (fails : ℕ → Bool) (limit : ℕ) (done : ρ) : ℕ → List ρ → ρ → Prop
  | all (n : ℕ) : Exchange fails limit done n [] done
  | lost {n : ℕ} {code : ρ} {codes : List ρ} (h : Lost fails limit n) :
    Exchange fails limit done n (code :: codes) code
  | next {n a : ℕ} {code r : ρ} {codes : List ρ} (ha : Delivered fails limit n a)
    (hrest : Exchange fails limit done (n + a + 1) codes r) :
    Exchange fails limit done n (code :: codes) r

theorem Exchange.unique {ρ : Type*} {fails : ℕ → Bool} {limit n : ℕ} {done r r' : ρ}
    {codes : List ρ} (h : Exchange fails limit done n codes r)
    (h' : Exchange fails limit done n codes r') : r = r' := by
  induction h with
  | all n =>
    cases h'
    rfl
  | lost hlost =>
    cases h' with
    | lost => rfl
    | next ha => exact absurd hlost ha.not_lost
  | next ha _ ih =>
    cases h' with
    | lost hlost => exact absurd hlost ha.not_lost
    | next hb hrest =>
      obtain rfl := ha.unique hb
      exact ih hrest

end Retry
