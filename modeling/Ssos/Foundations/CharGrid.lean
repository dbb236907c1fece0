import Mathlib.Data.Nat.Basic
import Mathlib.Logic.Basic
import Mathlib.Tactic.Common

/-!
# A character grid that scrolls

The abstract machine behind a text console: a grid of cells, a cursor, writing
at the cursor with a wrap after the last column, and a line feed that drops the
top row when there is no next one.

The machine never writes into a used cell: everything from the cursor on is
blank. A display that can only add ink therefore shows the grid.
-/

namespace CharGrid

/-- A grid, row by row, and the cursor. -/
structure Terminal (α : Type*) where
  cells : ℕ → ℕ → α
  row : ℕ
  column : ℕ

variable {α : Type*}

def Terminal.empty (blank : α) : Terminal α := ⟨fun _ _ => blank, 0, 0⟩

/-- The cursor goes to the front of the next row; below the last row the grid
moves up and the last row is blanked. -/
def Terminal.lineFeed (rows : ℕ) (blank : α) (t : Terminal α) : Terminal α :=
  if t.row + 1 < rows then { t with row := t.row + 1, column := 0 }
  else
    { cells := fun r c => if r + 1 < rows then t.cells (r + 1) c else blank
      row := t.row
      column := 0 }

def Terminal.write (a : α) (t : Terminal α) : Terminal α :=
  { t with cells := fun r c => if r = t.row ∧ c = t.column then a else t.cells r c }

/-- The cursor goes one column on, or to the next row after the last column. -/
def Terminal.advance (columns rows : ℕ) (blank : α) (t : Terminal α) : Terminal α :=
  if t.column + 1 < columns then { t with column := t.column + 1 } else t.lineFeed rows blank

/-- One character; `newline` is not written. -/
def Terminal.feed [DecidableEq α] (columns rows : ℕ) (blank newline a : α) (t : Terminal α) :
    Terminal α :=
  if a = newline then t.lineFeed rows blank
  else (t.write a).advance columns rows blank

/-- The cursor is on the grid and every cell from there on is blank. -/
structure Terminal.Ready (columns rows : ℕ) (blank : α) (t : Terminal α) : Prop where
  row_lt : t.row < rows
  column_lt : t.column < columns
  blank_from : ∀ r c, t.row < r ∨ r = t.row ∧ t.column ≤ c → t.cells r c = blank

section Ready
variable {columns rows : ℕ} {blank newline a : α} {t : Terminal α}

theorem Terminal.ready_empty (hc : 0 < columns) (hr : 0 < rows) :
    (Terminal.empty blank).Ready columns rows blank :=
  ⟨hr, hc, fun _ _ _ => rfl⟩

/-- A line feed needs blank cells only below the cursor's row. -/
theorem Terminal.ready_lineFeed (hrow : t.row < rows) (hc : 0 < columns)
    (hbelow : ∀ r c, t.row < r → t.cells r c = blank) :
    (t.lineFeed rows blank).Ready columns rows blank := by
  rw [Terminal.lineFeed]
  by_cases hnext : t.row + 1 < rows
  · rw [if_pos hnext]
    refine ⟨hnext, hc, ?_⟩
    intro r c hfrom
    apply hbelow
    have hge : t.row + 1 < r ∨ r = t.row + 1 ∧ 0 ≤ c := hfrom
    omega
  · rw [if_neg hnext]
    refine ⟨hrow, hc, ?_⟩
    intro r c hfrom
    have hlast : ¬r + 1 < rows := by
      obtain hlt | ⟨heq, _⟩ := hfrom
      · have hlt' : t.row < r := hlt
        omega
      · have heq' : r = t.row := heq
        omega
    exact if_neg hlast

theorem Terminal.Ready.below (h : t.Ready columns rows blank) :
    ∀ r c, t.row < r → t.cells r c = blank :=
  fun r c hlt => h.blank_from r c (Or.inl hlt)

/-- Behind the written cell the row is still blank. -/
theorem Terminal.Ready.advance_write (h : t.Ready columns rows blank) (a : α) :
    ((t.write a).advance columns rows blank).Ready columns rows blank := by
  have hkeep : ∀ r c, t.row < r ∨ r = t.row ∧ t.column < c → (t.write a).cells r c = blank := by
    intro r c hfrom
    have hother : ¬(r = t.row ∧ c = t.column) := by omega
    refine (if_neg hother).trans (h.blank_from r c ?_)
    omega
  rw [Terminal.advance]
  by_cases hnext : (t.write a).column + 1 < columns
  · rw [if_pos hnext]
    exact ⟨h.row_lt, hnext, hkeep⟩
  · rw [if_neg hnext]
    exact Terminal.ready_lineFeed h.row_lt (Nat.zero_lt_of_lt h.column_lt)
      fun r c hlt => hkeep r c (Or.inl hlt)

theorem Terminal.Ready.feed [DecidableEq α] (h : t.Ready columns rows blank) (newline a : α) :
    (t.feed columns rows blank newline a).Ready columns rows blank := by
  rw [Terminal.feed]
  by_cases hnl : a = newline
  · rw [if_pos hnl]
    exact Terminal.ready_lineFeed h.row_lt (Nat.zero_lt_of_lt h.column_lt) h.below
  · rw [if_neg hnl]
    exact h.advance_write a

end Ready

end CharGrid
