import Mathlib.Data.List.MinMax

/-!
# The first greatest element

Loops over a list that keep the best element so far and replace it only by a
better one end with the first of the greatest elements.

## Main results

- `isFirstMax_iff` — it is the element that `List.argmax` finds
- `argmax_filterMap` — a loop that skips elements, when it skips only lesser ones
-/

namespace FirstMaximum

variable {α β γ δ : Type*} [LinearOrder β] [LinearOrder δ]

/-- No element has a greater value than `x`, and none before it has as great a one. -/
def IsFirstMax (f : α → β) (l : List α) (x : α) : Prop :=
  ∃ before after, l = before ++ x :: after ∧ (∀ y ∈ before, f y < f x) ∧ ∀ y ∈ after, f y ≤ f x

section First
variable {f : α → β} {l : List α} {x : α}

theorem IsFirstMax.mem (h : IsFirstMax f l x) : x ∈ l := by
  obtain ⟨before, after, rfl, _⟩ := h
  exact List.mem_append_right before List.mem_cons_self

theorem IsFirstMax.le (h : IsFirstMax f l x) {y : α} (hy : y ∈ l) : f y ≤ f x := by
  obtain ⟨before, after, rfl, hbefore, hafter⟩ := h
  obtain hy | hy := List.mem_append.1 hy
  · exact (hbefore y hy).le
  · obtain rfl | hy := List.mem_cons.1 hy
    · exact le_rfl
    · exact hafter y hy

theorem IsFirstMax.argmax_eq (h : IsFirstMax f l x) : l.argmax f = some x := by
  obtain ⟨before, after, rfl, hbefore, hafter⟩ := h
  induction after using List.reverseRecOn with
  | nil =>
    rw [List.argmax_concat]
    cases hmax : before.argmax f with
    | none => rfl
    | some y =>
      simp only
      rw [if_pos (hbefore y (List.argmax_mem hmax))]
  | append_singleton after z ih =>
    rw [← List.cons_append, ← List.append_assoc, List.argmax_concat,
      ih fun y hy => hafter y (List.mem_append_left _ hy)]
    have hz : f z ≤ f x := hafter z (List.mem_append_right _ (List.mem_singleton_self z))
    simp only
    rw [if_neg (not_lt.2 hz)]

theorem isFirstMax_of_argmax (h : l.argmax f = some x) : IsFirstMax f l x := by
  induction l using List.reverseRecOn generalizing x with
  | nil => exact absurd h (Option.some_ne_none x).symm
  | append_singleton l z ih =>
    rw [List.argmax_concat] at h
    cases hmax : l.argmax f with
    | none =>
      obtain rfl := List.argmax_eq_none.1 hmax
      rw [hmax] at h
      obtain rfl := Option.some_inj.1 h
      exact ⟨[], [], rfl, fun y hy => absurd hy List.not_mem_nil,
        fun y hy => absurd hy List.not_mem_nil⟩
    | some y =>
      have hy := ih hmax
      rw [hmax] at h
      simp only at h
      by_cases hlt : f y < f z
      · -- the new element beats the best so far, and so all others
        rw [if_pos hlt] at h
        obtain rfl := Option.some_inj.1 h
        exact ⟨l, [], rfl, fun w hw => (hy.le hw).trans_lt hlt,
          fun w hw => absurd hw List.not_mem_nil⟩
      · rw [if_neg hlt] at h
        obtain rfl := Option.some_inj.1 h
        obtain ⟨before, after, rfl, hbefore, hafter⟩ := hy
        refine ⟨before, after ++ [z], by simp, hbefore, fun w hw => ?_⟩
        obtain hw | hw := List.mem_append.1 hw
        · exact hafter w hw
        · rw [List.mem_singleton.1 hw]
          exact not_lt.1 hlt

theorem isFirstMax_iff : IsFirstMax f l x ↔ l.argmax f = some x :=
  ⟨IsFirstMax.argmax_eq, isFirstMax_of_argmax⟩

/-- There is only one. -/
theorem IsFirstMax.unique (h : IsFirstMax f l x) {y : α} (hy : IsFirstMax f l y) : x = y :=
  Option.some_inj.1 ((isFirstMax_iff.1 h).symm.trans (isFirstMax_iff.1 hy))

/-- A function that is nowhere greater, and equal there, has the same first maximum. -/
theorem IsFirstMax.of_le {g : α → β} (h : IsFirstMax f l x) (hle : ∀ y ∈ l, g y ≤ f y)
    (heq : g x = f x) : IsFirstMax g l x := by
  obtain ⟨before, after, rfl, hbefore, hafter⟩ := h
  refine ⟨before, after, rfl, fun y hy => ?_, fun y hy => ?_⟩
  · rw [heq]
    exact (hle y (List.mem_append_left _ hy)).trans_lt (hbefore y hy)
  · rw [heq]
    exact (hle y (List.mem_append_right _ (List.mem_cons_of_mem x hy))).trans (hafter y hy)

/-- A list with an element has a first greatest one. -/
theorem exists_isFirstMax (h : x ∈ l) : ∃ y, IsFirstMax f l y := by
  cases hmax : l.argmax f with
  | none =>
    rw [List.argmax_eq_none.1 hmax] at h
    exact absurd h List.not_mem_nil
  | some y => exact ⟨y, isFirstMax_iff.2 hmax⟩

end First

/-- **Skipping.** When the elements that are skipped have lesser values than
those that are not, the best of the latter comes from the best of all. -/
theorem argmax_filterMap {f : α → β} {g : α → Option γ} {h : γ → δ}
    (hlt : ∀ x y u v, g x = some u → g y = some v → (h u < h v ↔ f x < f y))
    (hskip : ∀ x y v, g x = none → g y = some v → f x < f y) (l : List α) :
    (l.filterMap g).argmax h = (l.argmax f).bind g := by
  induction l using List.reverseRecOn with
  | nil => rfl
  | append_singleton l z ih =>
    rw [List.filterMap_append, List.filterMap_cons, List.argmax_concat]
    cases hz : g z with
    | none =>
      simp only [List.filterMap_nil, List.append_nil, ih]
      cases hmax : l.argmax f with
      | none => simp [hz]
      | some y =>
        simp only [Option.bind_some]
        by_cases hyz : f y < f z
        · rw [if_pos hyz, Option.bind_some, hz]
          cases hy : g y with
          | none => rfl
          | some u => exact absurd hyz (hskip z y u hz hy).asymm
        · rw [if_neg hyz, Option.bind_some]
    | some v =>
      simp only [List.filterMap_nil, List.argmax_concat, ih]
      cases hmax : l.argmax f with
      | none => simp [hz]
      | some y =>
        simp only [Option.bind_some]
        cases hy : g y with
        | none => rw [if_pos (hskip y z v hy hz), Option.bind_some, hz]
        | some u =>
          simp only [hlt y z u v hy hz]
          by_cases hyz : f y < f z
          · rw [if_pos hyz, if_pos hyz, Option.bind_some, hz]
          · rw [if_neg hyz, if_neg hyz, Option.bind_some, hy]

end FirstMaximum
