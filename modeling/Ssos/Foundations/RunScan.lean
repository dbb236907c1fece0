import Mathlib.Data.List.Infix
import Mathlib.Data.List.Range

/-!
# Scanning for a run of hits

A single pass over a list that counts consecutive hits, remembers the mark of
the last miss as its candidate, and stops with the candidate as soon as the
count is reached. It stops exactly when the list has a run of that many hits;
the candidate is the mark of the miss in front of the first run, or the
initial candidate when the list starts with the run.

## Main results

- `scan_found_iff` — when the scan stops
- `scan_eq_found_iff` — with which candidate
- `firstRun_filter_range_iff` — the same for an interval from which items are left out
-/

namespace RunScan

variable {α β : Type*}

/-- Consecutive hits so far, and the candidate. -/
structure Progress (β : Type*) where
  hits : ℕ
  candidate : β

/-- One item: count a hit, or start over with the mark of a miss. -/
def advance (hit : α → Bool) (mark : α → β) (x : α) (p : Progress β) : Progress β :=
  if hit x then ⟨p.hits + 1, p.candidate⟩ else ⟨0, mark x⟩

/-- `inr c` when the scan stops with candidate `c`. -/
def scan (hit : α → Bool) (mark : α → β) (count : ℕ) : List α → Progress β → Progress β ⊕ β
  | [], p => .inl p
  | x :: xs, p =>
    let p := advance hit mark x p
    if p.hits = count then .inr p.candidate else scan hit mark count xs p

/-- The list has `count` consecutive hits. -/
def HasRun (count : ℕ) (bits : List Bool) : Prop := List.replicate count true <:+: bits

variable {hit : α → Bool} {mark : α → β} {count : ℕ}

theorem scan_append {xs ys : List α} {p : Progress β} :
    scan hit mark count (xs ++ ys) p =
      match scan hit mark count xs p with
      | .inl q => scan hit mark count ys q
      | .inr c => .inr c := by
  induction xs generalizing p with
  | nil => rfl
  | cons x xs ih =>
    rw [List.cons_append, scan, scan]
    by_cases h : (advance hit mark x p).hits = count
    · simp only [h, if_true]
    · simp only [h, if_false, ih]

theorem scan_map {γ : Type*} (f : γ → α) {xs : List γ} {p : Progress β} :
    scan hit mark count (xs.map f) p = scan (hit ∘ f) (mark ∘ f) count xs p := by
  induction xs generalizing p with
  | nil => rfl
  | cons x xs ih =>
    rw [List.map_cons, scan, scan, ih]
    rfl

theorem scan_congr {hit' : α → Bool} {mark' : α → β} {xs : List α} {p : Progress β}
    (h : ∀ x ∈ xs, hit x = hit' x ∧ mark x = mark' x) :
    scan hit mark count xs p = scan hit' mark' count xs p := by
  induction xs generalizing p with
  | nil => rfl
  | cons x xs ih =>
    obtain ⟨hx, hm⟩ := h x List.mem_cons_self
    have hadv : advance hit mark x p = advance hit' mark' x p := by rw [advance, advance, hx, hm]
    rw [scan, scan, hadv, ih fun y hy => h y (List.mem_cons_of_mem x hy)]

/-! ### Runs -/

/-- Fewer hits than `count` are no run. -/
theorem not_hasRun_replicate {n : ℕ} (h : n < count) : ¬HasRun count (List.replicate n true) := by
  intro hrun
  have hlen := hrun.length_le
  simp only [List.length_replicate] at hlen
  omega

/-- A run does not cross a miss. -/
theorem hasRun_append_false {n : ℕ} (h : n < count) {bits : List Bool} :
    HasRun count (List.replicate n true ++ false :: bits) ↔ HasRun count bits := by
  constructor
  · rintro ⟨pre, post, he⟩
    induction n generalizing pre with
    | zero =>
      cases pre with
      | nil =>
        obtain ⟨k, rfl⟩ := Nat.exists_eq_succ_of_ne_zero (show count ≠ 0 by omega)
        simp [List.replicate_succ] at he
      | cons b pre =>
        simp only [List.replicate_zero, List.nil_append, List.cons_append, List.cons.injEq] at he
        exact ⟨pre, post, he.2⟩
    | succ n ih =>
      cases pre with
      | nil =>
        -- the run would be as long as `count` but is cut off after `n + 1` hits
        obtain ⟨k, rfl⟩ := Nat.exists_eq_add_of_lt h
        exfalso
        rw [List.nil_append, show n + 1 + k + 1 = (n + 1) + (k + 1) by omega,
          List.replicate_add, List.append_assoc, List.append_cancel_left_eq,
          List.replicate_succ] at he
        simp at he
      | cons b pre =>
        rw [List.replicate_succ] at he
        simp only [List.cons_append, List.cons.injEq] at he
        exact ih (by omega) pre he.2
  · intro hrun
    exact hrun.trans ⟨List.replicate n true ++ [false], [], by simp⟩

theorem replicate_append_cons_true (n : ℕ) (bits : List Bool) :
    List.replicate n true ++ true :: bits = List.replicate (n + 1) true ++ bits := by
  rw [List.replicate_succ', List.append_assoc, List.singleton_append]

theorem hasRun_of_leading {bits : List Bool} (h : List.replicate count true <+: bits) :
    HasRun count bits := h.isInfix

/-! ### The scan -/

/-- **When the scan stops.** -/
theorem scan_found_iff {xs : List α} {n : ℕ} {c : β} (hn : n < count) :
    (∃ c', scan hit mark count xs ⟨n, c⟩ = .inr c') ↔
      HasRun count (List.replicate n true ++ xs.map hit) := by
  induction xs generalizing n c with
  | nil =>
    rw [List.map_nil, List.append_nil]
    refine ⟨fun ⟨c', h⟩ => ?_, fun h => absurd h (not_hasRun_replicate hn)⟩
    exact absurd h Sum.inl_ne_inr
  | cons x xs ih =>
    rw [scan, List.map_cons]
    cases hx : hit x with
    | true =>
      simp only [advance, hx, if_true]
      rw [replicate_append_cons_true]
      by_cases he : n + 1 = count
      · subst he
        rw [if_pos rfl]
        exact ⟨fun _ => hasRun_of_leading (List.prefix_append _ _), fun _ => ⟨c, rfl⟩⟩
      · rw [if_neg he]
        exact ih (by omega)
    | false =>
      simp only [advance, hx, Bool.false_eq_true, if_false]
      rw [if_neg (show ¬0 = count by omega), hasRun_append_false hn]
      exact ih (show 0 < count by omega)

/-- The candidate `c` belongs to the first run in `xs` after `n` hits: it is
the initial candidate when these hits already belong to the run, else the mark
of the miss in front of the run. -/
def FirstRun (hit : α → Bool) (mark : α → β) (count : ℕ) (xs : List α) (n : ℕ) (c₀ c : β) : Prop :=
  (c = c₀ ∧ List.replicate count true <+: List.replicate n true ++ xs.map hit) ∨
    ∃ ys x zs, xs = ys ++ x :: zs ∧ hit x = false ∧ c = mark x ∧
      List.replicate count true <+: zs.map hit ∧
      ¬HasRun count (List.replicate n true ++ ys.map hit)

theorem firstRun_cons_true {x : α} {xs : List α} {n : ℕ} {c₀ c : β} (hx : hit x = true) :
    FirstRun hit mark count (x :: xs) n c₀ c ↔ FirstRun hit mark count xs (n + 1) c₀ c := by
  refine or_congr ?_ ?_
  · rw [List.map_cons, hx, replicate_append_cons_true]
  · constructor
    · rintro ⟨ys, y, zs, he, hy, hrest⟩
      cases ys with
      | nil =>
        obtain ⟨rfl, rfl⟩ := List.cons.inj he
        rw [hx] at hy
        exact Bool.noConfusion hy
      | cons z ys =>
        obtain ⟨rfl, rfl⟩ := List.cons.inj he
        rw [List.map_cons, hx, replicate_append_cons_true] at hrest
        exact ⟨ys, y, zs, rfl, hy, hrest⟩
    · rintro ⟨ys, y, zs, rfl, hy, hrest⟩
      refine ⟨x :: ys, y, zs, rfl, hy, ?_⟩
      rw [List.map_cons, hx, replicate_append_cons_true]
      exact hrest

theorem firstRun_cons_false {x : α} {xs : List α} {n : ℕ} {c₀ c : β} (hx : hit x = false)
    (hn : n < count) : FirstRun hit mark count (x :: xs) n c₀ c ↔
      FirstRun hit mark count xs 0 (mark x) c := by
  have hmiss : ∀ bits, ¬List.replicate count true <+: List.replicate n true ++ false :: bits := by
    intro bits hpre
    obtain ⟨k, rfl⟩ := Nat.exists_eq_add_of_lt hn
    rw [show n + k + 1 = n + (k + 1) by omega, List.replicate_add,
      List.prefix_append_right_inj, List.replicate_succ] at hpre
    simp at hpre
  constructor
  · rintro (⟨_, hpre⟩ | ⟨ys, y, zs, he, hy, hc, hpre, hno⟩)
    · rw [List.map_cons, hx] at hpre
      exact absurd hpre (hmiss _)
    · cases ys with
      | nil =>
        obtain ⟨rfl, rfl⟩ := List.cons.inj he
        exact Or.inl ⟨hc, hpre⟩
      | cons z ys =>
        obtain ⟨rfl, rfl⟩ := List.cons.inj he
        rw [List.map_cons, hx, hasRun_append_false hn] at hno
        exact Or.inr ⟨ys, y, zs, rfl, hy, hc, hpre, hno⟩
  · rintro (⟨hc, hpre⟩ | ⟨ys, y, zs, rfl, hy, hc, hpre, hno⟩)
    · refine Or.inr ⟨[], x, xs, rfl, hx, hc, hpre, ?_⟩
      rw [List.map_nil, List.append_nil]
      exact not_hasRun_replicate hn
    · refine Or.inr ⟨x :: ys, y, zs, rfl, hy, hc, hpre, ?_⟩
      rw [List.map_cons, hx, hasRun_append_false hn]
      exact hno

theorem firstRun_map_mark {xs : List α} {n : ℕ} {x₀ : α} {c : β} :
    FirstRun hit mark count xs n (mark x₀) c ↔
      ∃ x, c = mark x ∧ FirstRun hit id count xs n x₀ x := by
  constructor
  · rintro (⟨hc, hpre⟩ | ⟨ys, x, zs, he, hx, hc, hrest⟩)
    · exact ⟨x₀, hc, Or.inl ⟨rfl, hpre⟩⟩
    · exact ⟨x, hc, Or.inr ⟨ys, x, zs, he, hx, rfl, hrest⟩⟩
  · rintro ⟨x, hc, ⟨rfl, hpre⟩ | ⟨ys, x, zs, he, hx, rfl, hrest⟩⟩
    · exact Or.inl ⟨hc, hpre⟩
    · exact Or.inr ⟨ys, x, zs, he, hx, hc, hrest⟩

/-- **With which candidate the scan stops.** -/
theorem scan_eq_found_iff {xs : List α} {n : ℕ} {c₀ c : β} (hn : n < count) :
    scan hit mark count xs ⟨n, c₀⟩ = .inr c ↔ FirstRun hit mark count xs n c₀ c := by
  induction xs generalizing n c₀ with
  | nil =>
    refine ⟨fun h => absurd h Sum.inl_ne_inr, ?_⟩
    rintro (⟨_, hpre⟩ | ⟨ys, y, zs, he, _⟩)
    · rw [List.map_nil, List.append_nil] at hpre
      exact absurd (hasRun_of_leading hpre) (not_hasRun_replicate hn)
    · exact absurd he (by simp)
  | cons x xs ih =>
    rw [scan]
    cases hx : hit x with
    | true =>
      simp only [advance, hx, if_true]
      rw [firstRun_cons_true hx]
      by_cases he : n + 1 = count
      · subst he
        rw [if_pos rfl]
        constructor
        · intro h
          exact Or.inl ⟨(Sum.inr.inj h).symm, List.prefix_append _ _⟩
        · rintro (⟨hc, _⟩ | ⟨ys, y, zs, _, _, _, _, hno⟩)
          · rw [hc]
          · exact absurd (hasRun_of_leading (List.prefix_append _ _)) hno
      · rw [if_neg he]
        exact ih (by omega)
    | false =>
      simp only [advance, hx, Bool.false_eq_true, if_false]
      rw [if_neg (show ¬0 = count by omega), firstRun_cons_false hx hn]
      exact ih (show 0 < count by omega)

/-! ### Intervals -/

/-- A run of hits is still one when other items are left out. -/
theorem HasRun.filter {xs : List α} {keep : α → Bool} (h : HasRun count (xs.map hit))
    (hkeep : ∀ x, hit x = true → keep x = true) : HasRun count ((xs.filter keep).map hit) := by
  obtain ⟨pre, post, he⟩ := h
  obtain ⟨left, ys, rfl, hleft, _⟩ := List.map_eq_append_iff.1 he.symm
  obtain ⟨zs, mid, rfl, _, hmid⟩ := List.map_eq_append_iff.1 hleft
  have hall : mid.filter keep = mid := by
    refine List.filter_eq_self.2 fun x hx => hkeep x ?_
    have hmem := List.mem_map_of_mem (f := hit) hx
    rw [hmid] at hmem
    exact List.eq_of_mem_replicate hmem
  rw [List.filter_append, List.filter_append, hall, List.map_append, List.map_append, hmid]
  exact ⟨_, _, rfl⟩

section Intervals
variable {hit keep : ℕ → Bool} {n a k : ℕ}

theorem replicate_prefix_range'_iff : List.replicate count true <+: (List.range' a n).map hit ↔
    count ≤ n ∧ ∀ i < count, hit (a + i) = true := by
  constructor
  · intro hpre
    have hle := hpre.length_le
    rw [List.length_replicate, List.length_map, List.length_range'] at hle
    refine ⟨hle, fun i hi => ?_⟩
    have hget := List.prefix_iff_getElem?.1 hpre i (by rwa [List.length_replicate])
    rw [List.getElem?_map, List.getElem?_range' (by omega), List.getElem_replicate] at hget
    simpa using hget
  · intro ⟨hle, hall⟩
    refine List.prefix_iff_getElem?.2 fun i hi => ?_
    rw [List.length_replicate] at hi
    rw [List.getElem?_map, List.getElem?_range' (by omega), List.getElem_replicate]
    simpa using hall i hi

/-- Leading hits stay in front when other items are left out. -/
theorem replicate_prefix_filter (hle : count ≤ n) (hall : ∀ i < count, hit (a + i) = true)
    (hkeep : ∀ x, hit x = true → keep x = true) :
    List.replicate count true <+: ((List.range' a n).filter keep).map hit := by
  obtain ⟨m, rfl⟩ := Nat.exists_eq_add_of_le hle
  have hself : (List.range' a count).filter keep = List.range' a count := by
    refine List.filter_eq_self.2 fun x hx => hkeep x ?_
    obtain ⟨hlow, hhigh⟩ := List.mem_range'_1.1 hx
    obtain ⟨i, rfl⟩ := Nat.exists_eq_add_of_le hlow
    exact hall i (by omega)
  have hpre : List.replicate count true <+: (List.range' a count).map hit :=
    replicate_prefix_range'_iff.2 ⟨le_rfl, hall⟩
  rw [← List.range'_append_1, List.filter_append, hself, List.map_append]
  exact hpre.trans (List.prefix_append _ _)

/-- Runs in an interval by their first item. -/
theorem hasRun_range_iff : HasRun count ((List.range n).map hit) ↔
    ∃ p, p + count ≤ n ∧ ∀ i < count, hit (p + i) = true := by
  rw [HasRun, List.infix_iff_prefix_suffix]
  constructor
  · rintro ⟨bits, hpre, pre, he⟩
    obtain ⟨left, right, hrange, _, rfl⟩ := List.map_eq_append_iff.1 he.symm
    have hlen : n = left.length + right.length := by
      rw [← List.length_append, ← hrange, List.length_range]
    have hright : right = List.range' left.length (n - left.length) := by
      have hdrop := congrArg (List.drop left.length) hrange
      rw [List.drop_left, List.range_eq_range', List.drop_range', Nat.mul_one, Nat.zero_add] at hdrop
      exact hdrop.symm
    rw [hright, replicate_prefix_range'_iff] at hpre
    exact ⟨left.length, by omega, hpre.2⟩
  · intro ⟨p, hle, hall⟩
    obtain ⟨m, rfl⟩ := Nat.exists_eq_add_of_le (show p ≤ n by omega)
    refine ⟨(List.range' p m).map hit, replicate_prefix_range'_iff.2 ⟨by omega, hall⟩,
      (List.range p).map hit, ?_⟩
    rw [← List.map_append, List.range_eq_range', List.range_eq_range', ← List.range'_append_1,
      Nat.zero_add]

/-- An interval around one of its items. -/
theorem filter_range_split (hk : k < n) (hkeep : keep k = true) : (List.range n).filter keep =
    (List.range k).filter keep ++ k :: (List.range' (k + 1) (n - k - 1)).filter keep := by
  obtain ⟨m, rfl⟩ := Nat.exists_eq_add_of_lt hk
  have hm : k + m + 1 - k - 1 = m := by omega
  rw [hm, List.range_eq_range', List.range_eq_range', Nat.add_assoc, ← List.range'_append_1,
    List.filter_append, Nat.zero_add, List.range'_succ, List.filter_cons_of_pos hkeep]

/-- **The candidate in an interval**: its start, when the items kept begin with
a run, or the item in front of the first run that is kept and no hit. -/
theorem firstRun_filter_range_iff :
    FirstRun hit id count ((List.range n).filter keep) 0 0 k ↔
      k = 0 ∧ List.replicate count true <+: ((List.range n).filter keep).map hit ∨
        (k < n ∧ keep k = true) ∧ hit k = false ∧
          List.replicate count true <+:
            ((List.range' (k + 1) (n - k - 1)).filter keep).map hit ∧
          ¬HasRun count (((List.range k).filter keep).map hit) := by
  refine or_congr Iff.rfl ?_
  constructor
  · rintro ⟨ys, x, zs, he, hx, rfl, hpre, hno⟩
    have hmem : k ∈ (List.range n).filter keep := by
      rw [he]
      exact List.mem_append_right ys List.mem_cons_self
    obtain ⟨hk, hkeep⟩ := List.mem_filter.1 hmem
    rw [List.mem_range] at hk
    -- `k` occurs once, so the two ways to split the list around it are the same
    have hleft : k ∉ (List.range k).filter keep := fun hin =>
      Nat.lt_irrefl k (List.mem_range.1 (List.mem_of_mem_filter hin))
    have hright : k ∉ (List.range' (k + 1) (n - k - 1)).filter keep := fun hin =>
      Nat.not_succ_le_self k (List.mem_range'_1.1 (List.mem_of_mem_filter hin)).1
    rw [filter_range_split hk hkeep] at he
    obtain ⟨rfl, _, rfl⟩ := (List.append_cons_inj_of_notMem hleft hright).1 he
    exact ⟨⟨hk, hkeep⟩, hx, hpre, hno⟩
  · intro ⟨⟨hk, hkeep⟩, hmiss, hpre, hno⟩
    exact ⟨_, k, _, filter_range_split hk hkeep, hmiss, rfl, hpre, hno⟩

end Intervals

end RunScan
