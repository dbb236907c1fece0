import Mathlib.Data.List.Infix

/-!
# Transducers

A machine that reads symbols, changes its state and emits any number of
outputs. A word on which the machine returns to the state it started from can
be read again and again: the outputs of a sequence of such words are the
outputs of the words in turn.

## Main results

- `outputs_append` — outputs of two words
- `outputs_flatMap` — outputs of words that lead back to the start
-/

namespace Transducer

variable {α β σ ι : Type*} (step : α → σ → List β × σ)

/-- What the machine emits on a word. -/
def outputs : List α → σ → List β
  | [], _ => []
  | x :: xs, s => (step x s).1 ++ outputs xs (step x s).2

/-- The state after a word. -/
def final : List α → σ → σ
  | [], s => s
  | x :: xs, s => final xs (step x s).2

/-- The word leads from `s` back to `s` and emits `bs`. -/
structure Loops (s : σ) (xs : List α) (bs : List β) : Prop where
  outputs : outputs step xs s = bs
  final : final step xs s = s

variable {step} {s : σ} {xs ys : List α}

theorem outputs_append : outputs step (xs ++ ys) s =
    outputs step xs s ++ outputs step ys (final step xs s) := by
  induction xs generalizing s with
  | nil => rfl
  | cons x xs ih => rw [List.cons_append, outputs, outputs, ih, List.append_assoc, final]

theorem final_append : final step (xs ++ ys) s = final step ys (final step xs s) := by
  induction xs generalizing s with
  | nil => rfl
  | cons x xs ih => rw [List.cons_append, final, final, ih]

/-- A word without outputs: no symbol emits anything in the state it is read in. -/
theorem outputs_eq_nil_iff : outputs step xs s = [] ↔
    ∀ ys x, ys ++ [x] <+: xs → (step x (final step ys s)).1 = [] := by
  induction xs generalizing s with
  | nil =>
    refine ⟨fun _ ys x hpre => ?_, fun _ => rfl⟩
    exact absurd (List.prefix_nil.1 hpre)
      (List.append_ne_nil_of_right_ne_nil ys (List.cons_ne_nil x []))
  | cons x xs ih =>
    rw [outputs, List.append_eq_nil_iff, ih]
    constructor
    · rintro ⟨hx, hrest⟩ ys y hpre
      cases ys with
      | nil =>
        obtain ⟨rfl, _⟩ := List.cons_prefix_cons.1 hpre
        exact hx
      | cons z ys =>
        obtain ⟨rfl, htail⟩ := List.cons_prefix_cons.1 hpre
        exact hrest ys y htail
    · intro h
      refine ⟨h [] x (List.cons_prefix_cons.2 ⟨rfl, List.nil_prefix⟩), fun ys y hpre => ?_⟩
      exact h (x :: ys) y (List.cons_prefix_cons.2 ⟨rfl, hpre⟩)

/-- Words that lead back to the start, one after the other. -/
theorem Loops.flatMap {word : ι → List α} {out : ι → List β} {is : List ι}
    (h : ∀ i ∈ is, Loops step s (word i) (out i)) :
    Loops step s (is.flatMap word) (is.flatMap out) := by
  induction is with
  | nil => exact ⟨rfl, rfl⟩
  | cons i is ih =>
    have hi := h i List.mem_cons_self
    have hrest := ih fun j hj => h j (List.mem_cons_of_mem i hj)
    constructor
    · rw [List.flatMap_cons, List.flatMap_cons, outputs_append, hi.outputs, hi.final, hrest.outputs]
    · rw [List.flatMap_cons, final_append, hi.final, hrest.final]

/-- What every word preserves holds behind all of them. -/
theorem final_flatMap_of (Inv : σ → Prop) {word : ι → List α} {is : List ι}
    (h : ∀ i ∈ is, ∀ s, Inv s → Inv (final step (word i) s)) (hs : Inv s) :
    Inv (final step (is.flatMap word) s) := by
  induction is generalizing s with
  | nil => exact hs
  | cons i is ih =>
    rw [List.flatMap_cons, final_append]
    exact ih (fun j hj => h j (List.mem_cons_of_mem i hj)) (h i List.mem_cons_self s hs)

/-- An invariant under which every word emits at most one output. -/
theorem length_outputs_flatMap_le (Inv : σ → Prop) {word : ι → List α} {is : List ι}
    (h : ∀ i ∈ is, ∀ s, Inv s → (outputs step (word i) s).length ≤ 1 ∧ Inv (final step (word i) s))
    (hs : Inv s) : (outputs step (is.flatMap word) s).length ≤ is.length := by
  induction is generalizing s with
  | nil => exact le_rfl
  | cons i is ih =>
    obtain ⟨hlen, hinv⟩ := h i List.mem_cons_self s hs
    have hrest := ih (fun j hj => h j (List.mem_cons_of_mem i hj)) hinv
    rw [List.flatMap_cons, outputs_append, List.length_append, List.length_cons]
    omega

end Transducer
