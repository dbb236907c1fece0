import Mathlib.Data.List.Nodup
import Mathlib.Logic.Function.Basic
import Mathlib.Data.Finset.Card
import Mathlib.Data.Finset.Range

/-!
# Null-terminated pointer lists

A singly linked list given by a `next` function on addresses, address `0`
being the null pointer. `Linked next h xs` says that following `next` from the
head `h` visits exactly `xs`. The edits are pushing a node, popping the head,
and unlinking a node behind its predecessor, which `findPrev` looks for.
-/

namespace PointerList

variable {next next' : ℕ → ℕ}

/-- Following `next` from `h` visits `xs` and then reaches null. -/
def Linked (next : ℕ → ℕ) : ℕ → List ℕ → Prop
  | h, [] => h = 0
  | h, x :: xs => h = x ∧ x ≠ 0 ∧ Linked next (next x) xs

/-- The loop `while (prev && prev->next != t) prev = prev->next`, for at most
`fuel` tests; `none` when the tests run out. -/
def findPrev (next : ℕ → ℕ) (t : ℕ) : ℕ → ℕ → Option ℕ
  | 0, _ => none
  | fuel + 1, prev =>
    if prev ≠ 0 ∧ next prev ≠ t then findPrev next t fuel (next prev) else some prev

theorem Linked.congr {h : ℕ} {xs : List ℕ} (hl : Linked next h xs)
    (he : ∀ x ∈ xs, next' x = next x) : Linked next' h xs := by
  induction xs generalizing h with
  | nil => exact hl
  | cons x xs ih =>
    obtain ⟨hx, hne, hrest⟩ := hl
    refine ⟨hx, hne, ?_⟩
    rw [he x List.mem_cons_self]
    exact ih hrest fun y hy => he y (List.mem_cons_of_mem _ hy)

/-- Changing the link of a node outside the list does not matter. -/
theorem Linked.update_of_notMem {h a v : ℕ} {xs : List ℕ} (hl : Linked next h xs)
    (ha : a ∉ xs) : Linked (Function.update next a v) h xs := by
  refine hl.congr fun x hx => ?_
  rw [Function.update_of_ne]
  intro he
  exact ha (he ▸ hx)

theorem Linked.ne_zero {h : ℕ} {xs : List ℕ} (hl : Linked next h xs) : ∀ x ∈ xs, x ≠ 0 := by
  induction xs generalizing h with
  | nil => simp
  | cons x xs ih =>
    intro y hy
    obtain rfl | hy := List.mem_cons.1 hy
    · exact hl.2.1
    · exact ih hl.2.2 y hy

/-- A list with a non-null head is non-empty and starts with its head. -/
theorem Linked.exists_cons {h : ℕ} {xs : List ℕ} (hl : Linked next h xs) (hne : h ≠ 0) :
    ∃ ys, xs = h :: ys ∧ Linked next (next h) ys := by
  cases xs with
  | nil => exact absurd hl hne
  | cons x ys =>
    obtain ⟨rfl, _, hrest⟩ := hl
    exact ⟨ys, rfl, hrest⟩

theorem Linked.eq_nil {xs : List ℕ} (hl : Linked next 0 xs) : xs = [] := by
  cases xs with
  | nil => rfl
  | cons x xs => exact absurd hl.1.symm hl.2.1

/-- The visited nodes are determined by the head. -/
theorem Linked.unique {h : ℕ} {xs ys : List ℕ} (hx : Linked next h xs)
    (hy : Linked next h ys) : xs = ys := by
  induction xs generalizing h ys with
  | nil =>
    obtain rfl : h = 0 := hx
    exact hy.eq_nil.symm
  | cons x xs ih =>
    obtain ⟨rfl, hne, hrest⟩ := hx
    obtain ⟨zs, rfl, hzs⟩ := hy.exists_cons hne
    rw [ih hrest hzs]

/-- Unlinking `t` by redirecting its predecessor `p`. -/
theorem Linked.unlink {h p t : ℕ} {xs ys : List ℕ} (hl : Linked next h (xs ++ p :: t :: ys))
    (hnd : (xs ++ p :: t :: ys).Nodup) :
    Linked (Function.update next p (next t)) h (xs ++ p :: ys) := by
  induction xs generalizing h with
  | nil =>
    obtain ⟨rfl, hp0, hpt, _, hrest⟩ := hl
    have hp : h ∉ ys := fun hmem => by simp [hmem] at hnd
    refine ⟨rfl, hp0, ?_⟩
    rw [Function.update_self]
    exact hrest.update_of_notMem hp
  | cons x xs ih =>
    obtain ⟨rfl, hx0, hrest⟩ := hl
    have hne : h ≠ p := fun he => by simp [he] at hnd
    refine ⟨rfl, hx0, ?_⟩
    rw [Function.update_of_ne hne]
    exact ih hrest (List.nodup_cons.1 hnd).2

theorem erase_successor {p t : ℕ} {xs ys : List ℕ} (hnd : (xs ++ p :: t :: ys).Nodup) :
    (xs ++ p :: t :: ys).erase t = xs ++ p :: ys := by
  rw [List.append_cons] at hnd ⊢
  have hnt : t ∉ xs ++ [p] := fun hmem =>
    (List.nodup_cons.1 (List.nodup_middle.1 hnd)).1 (List.mem_append_left ys hmem)
  rw [List.erase_append_right _ hnt, List.erase_cons_head, ← List.append_cons]

/-- The search stops at the predecessor of a node that is not the head. -/
theorem Linked.findPrev_spec {h t fuel : ℕ} {xs : List ℕ} (hl : Linked next h xs)
    (hmem : t ∈ xs) (hne : h ≠ t) (hfuel : xs.length ≤ fuel) :
    ∃ p ys zs, xs = ys ++ p :: t :: zs ∧ findPrev next t fuel h = some p := by
  induction xs generalizing h fuel with
  | nil => simp at hmem
  | cons x xs ih =>
    obtain ⟨rfl, hx0, hrest⟩ := hl
    have hmem' : t ∈ xs := (List.mem_cons.1 hmem).resolve_left hne.symm
    obtain ⟨fuel, rfl⟩ : ∃ k, fuel = k + 1 := ⟨fuel - 1, by simp at hfuel; omega⟩
    by_cases hnext : next h = t
    · have ht0 : next h ≠ 0 := hnext ▸ hrest.ne_zero t hmem'
      obtain ⟨zs, rfl, _⟩ := hrest.exists_cons ht0
      refine ⟨h, [], zs, by rw [hnext]; rfl, ?_⟩
      simp [findPrev, hnext]
    · obtain ⟨p, ys, zs, hxs, hfind⟩ := ih hrest hmem' hnext (by simpa using hfuel)
      refine ⟨p, h :: ys, zs, by rw [hxs]; rfl, ?_⟩
      simp [findPrev, hx0, hnext, hfind]

/-- A duplicate-free list of addresses below `n` is no longer than `n`. -/
theorem length_le_of_lt {n : ℕ} {xs : List ℕ} (hnd : xs.Nodup) (hlt : ∀ x ∈ xs, x < n) :
    xs.length ≤ n := by
  have hsub : xs.toFinset ⊆ Finset.range n := fun x hx => by
    simpa using hlt x (List.mem_toFinset.1 hx)
  calc
    xs.length = xs.toFinset.card := (List.toFinset_card_of_nodup hnd).symm
    _ ≤ (Finset.range n).card := Finset.card_le_card hsub
    _ = n := Finset.card_range n

end PointerList
