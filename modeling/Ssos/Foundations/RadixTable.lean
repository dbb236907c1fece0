import Mathlib.Data.List.Infix

/-!
# Radix tables

A memory of tables with indexed entries, some of which lead to a further
table. A path of indices leads from a root table to at most one table. When no
table is reached along two paths, an entry is read by the walks through its
own path only, so writing it changes no other walk.

## Main results

- `tableAt_congr` — a walk depends on the entries of its path only
- `TreeShaped.tableAt_write` — walks past an overwritten entry are unchanged
-/

namespace RadixTable

variable {τ ι ε : Type*}

/-- The table that the path leads to. -/
def tableAt (read : τ → ι → ε) (child : ε → Option τ) : τ → List ι → Option τ
  | t, [] => some t
  | t, i :: is =>
    match child (read t i) with
    | none => none
    | some t' => tableAt read child t' is

/-- The entries of the path from the first that leads nowhere on. -/
def levelsMissing (read : τ → ι → ε) (child : ε → Option τ) : τ → List ι → ℕ
  | _, [] => 0
  | t, i :: is =>
    match child (read t i) with
    | none => is.length + 1
    | some t' => levelsMissing read child t' is

/-- No table is reached along two paths of at most `depth` steps. -/
def TreeShaped (read : τ → ι → ε) (child : ε → Option τ) (root : τ) (depth : ℕ) : Prop :=
  ∀ is js t, is.length ≤ depth → js.length ≤ depth → tableAt read child root is = some t →
    tableAt read child root js = some t → is = js

variable {read read' : τ → ι → ε} {child : ε → Option τ} {root : τ}

theorem tableAt_cons {i : ι} {is : List ι} {t : τ} (h : child (read root i) = some t) :
    tableAt read child root (i :: is) = tableAt read child t is := by
  rw [tableAt, h]

theorem tableAt_cons_none {i : ι} {is : List ι} (h : child (read root i) = none) :
    tableAt read child root (i :: is) = none := by
  rw [tableAt, h]

theorem exists_of_tableAt_cons {i : ι} {is : List ι} {t : τ}
    (h : tableAt read child root (i :: is) = some t) :
    ∃ t', child (read root i) = some t' ∧ tableAt read child t' is = some t := by
  cases hc : child (read root i) with
  | none =>
    rw [tableAt_cons_none hc] at h
    exact absurd h.symm (Option.some_ne_none t)
  | some t' =>
    rw [tableAt_cons hc] at h
    exact ⟨t', rfl, h⟩

theorem tableAt_append {is js : List ι} {t : τ} (h : tableAt read child root is = some t) :
    tableAt read child root (is ++ js) = tableAt read child t js := by
  induction is generalizing root with
  | nil => rw [List.nil_append, Option.some_inj.1 h]
  | cons i is ih =>
    obtain ⟨t', hc, h⟩ := exists_of_tableAt_cons h
    rw [List.cons_append, tableAt_cons hc, ih h]

theorem levelsMissing_cons_none {i : ι} {is : List ι} (h : child (read root i) = none) :
    levelsMissing read child root (i :: is) = is.length + 1 := by
  rw [levelsMissing, h]

theorem levelsMissing_cons {i : ι} {is : List ι} {t : τ} (h : child (read root i) = some t) :
    levelsMissing read child root (i :: is) = levelsMissing read child t is := by
  rw [levelsMissing, h]

/-- Entries that lead to a table are not missing. -/
theorem levelsMissing_append {is js : List ι} {t : τ} (h : tableAt read child root is = some t) :
    levelsMissing read child root (is ++ js) = levelsMissing read child t js := by
  induction is generalizing root with
  | nil => rw [List.nil_append, Option.some_inj.1 h]
  | cons i is ih =>
    obtain ⟨t', hc, h⟩ := exists_of_tableAt_cons h
    rw [List.cons_append, levelsMissing_cons hc, ih h]

/-- A walk depends on the entries along its path only. -/
theorem tableAt_congr {is : List ι}
    (h : ∀ ks k t, ks ++ [k] <+: is → tableAt read child root ks = some t → read' t k = read t k) :
    tableAt read' child root is = tableAt read child root is := by
  induction is generalizing root with
  | nil => rfl
  | cons i is ih =>
    have hroot : read' root i = read root i := h [] i root (by simp) rfl
    cases hc : child (read root i) with
    | none => rw [tableAt_cons_none hc, tableAt_cons_none (hroot ▸ hc)]
    | some t =>
      rw [tableAt_cons hc, tableAt_cons (hroot ▸ hc)]
      refine ih fun ks k u hpre hu => h (i :: ks) k u ?_ ?_
      · rw [List.cons_append]
        exact (List.prefix_cons_inj i).2 hpre
      · rw [tableAt_cons hc, hu]

/-- **Writing one entry.** In a tree, walks that do not go through the entry
`i₀` at the end of the path `is₀` do not notice that it is overwritten. -/
theorem TreeShaped.tableAt_write {depth : ℕ} (ht : TreeShaped read child root depth)
    {is₀ : List ι} {i₀ : ι} {t₀ : τ} (h₀ : tableAt read child root is₀ = some t₀)
    (hlen₀ : is₀.length ≤ depth)
    (hread : ∀ ks t k, tableAt read child root ks = some t → ¬(t = t₀ ∧ k = i₀) →
      read' t k = read t k)
    {is : List ι} (hlen : is.length ≤ depth + 1) (hnot : ¬is₀ ++ [i₀] <+: is) :
    tableAt read' child root is = tableAt read child root is := by
  refine tableAt_congr fun ks k t hpre hks => hread ks t k hks ?_
  rintro ⟨rfl, rfl⟩
  have hle := hpre.length_le
  rw [List.length_append, List.length_singleton] at hle
  obtain rfl : ks = is₀ := ht ks is₀ t (by omega) hlen₀ hks h₀
  exact hnot hpre

end RadixTable
