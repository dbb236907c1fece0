import Mathlib.Data.List.Basic
import Mathlib.Logic.Function.Basic

/-!
# Ring buffers

A queue of bounded capacity that drops its oldest element when a new one
arrives while it is full, and its representation by an array, the index of the
next write, and the number of elements: the oldest element is found by counting
back from the write index.

## Main results

- `Ring.push` — writing at the index appends, and drops when full
- `Ring.pop` — the slot found by counting back holds the oldest element
-/

namespace RingQueue

variable {α : Type*}

/-- Append, and drop the oldest element when the queue is full. -/
def push (cap : ℕ) (x : α) (q : List α) : List α := (q ++ [x]).drop (q.length + 1 - cap)

/-- Slot of the `j`-th oldest of `count` elements when the next write goes to `idx`. -/
def slot (cap idx count j : ℕ) : ℕ := (idx + (cap - count) + j) % cap

/-- The array holds the queue. -/
structure Ring (cap : ℕ) (buff : ℕ → α) (idx : ℕ) (q : List α) : Prop where
  idx_lt : idx < cap
  length_le : q.length ≤ cap
  get : ∀ j < q.length, q[j]? = some (buff (slot cap idx q.length j))

variable {cap idx count j : ℕ} {buff : ℕ → α} {q : List α} {x : α}

theorem mod_of_lt_two_mul {a : ℕ} (h : a < 2 * cap) :
    a % cap = if a < cap then a else a - cap := by
  by_cases hlt : a < cap
  · rw [if_pos hlt, Nat.mod_eq_of_lt hlt]
  · rw [if_neg hlt, Nat.mod_eq_sub_mod (by omega), Nat.mod_eq_of_lt (by omega)]

/-- A slot in use is not the one to be written next, unless the queue is full. -/
theorem slot_ne (hidx : idx < cap) (hj : j < count) (hcount : count < cap ∨ count = cap ∧ 0 < j) :
    slot cap idx count j ≠ idx := by
  rw [slot, mod_of_lt_two_mul (by omega)]
  split_ifs <;> omega

theorem slot_next (hidx : idx < cap) (hcount : count < cap) :
    slot cap ((idx + 1) % cap) (count + 1) j = slot cap idx count j := by
  rw [slot, slot, mod_of_lt_two_mul (show idx + 1 < 2 * cap by omega)]
  split_ifs with h
  · rw [show idx + 1 + (cap - (count + 1)) + j = idx + (cap - count) + j by omega]
  · rw [show idx + (cap - count) + j = idx + 1 - cap + (cap - (count + 1)) + j + cap by omega,
      Nat.add_mod_right]

theorem slot_last (hidx : idx < cap) (hcount : count < cap) :
    slot cap ((idx + 1) % cap) (count + 1) count = idx := by
  rw [slot, mod_of_lt_two_mul (show idx + 1 < 2 * cap by omega)]
  split_ifs with h
  · rw [mod_of_lt_two_mul (by omega)]
    split_ifs <;> omega
  · rw [mod_of_lt_two_mul (by omega)]
    split_ifs <;> omega

/-- Over a full queue the slots move on by one element. -/
theorem slot_full :
    slot cap ((idx + 1) % cap) cap j = slot cap idx cap (j + 1) := by
  simp only [slot, Nat.sub_self, Nat.add_zero]
  rw [Nat.mod_add_mod, Nat.add_assoc, Nat.add_comm 1 j]

theorem push_of_lt (h : q.length < cap) : push cap x q = q ++ [x] := by
  rw [push, Nat.sub_eq_zero_of_le h, List.drop_zero]

theorem push_of_full (h : q.length = cap) : push cap x q = (q ++ [x]).drop 1 := by
  rw [push, h, Nat.add_sub_cancel_left]

theorem length_push (hpos : 0 < cap) (h : q.length ≤ cap) :
    (push cap x q).length = if q.length < cap then q.length + 1 else cap := by
  rw [push, List.length_drop, List.length_append, List.length_singleton]
  split_ifs <;> omega

/-- **Writing** at the index appends to the queue. -/
theorem Ring.push (h : Ring cap buff idx q) :
    Ring cap (Function.update buff idx x) ((idx + 1) % cap) (push cap x q) := by
  have hidx := h.idx_lt
  have hlen : (RingQueue.push cap x q).length = if q.length < cap then q.length + 1 else cap :=
    length_push (by omega) h.length_le
  refine ⟨Nat.mod_lt _ (by omega), ?_, fun j hj => ?_⟩
  · rw [hlen]
    split_ifs <;> omega
  · by_cases hfull : q.length < cap
    · rw [if_pos hfull] at hlen
      rw [hlen] at hj ⊢
      rw [push_of_lt hfull]
      by_cases hlast : j = q.length
      · subst hlast
        rw [slot_last hidx hfull, Function.update_self, List.getElem?_concat_length]
      · have hlt : j < q.length := by omega
        rw [List.getElem?_append_left hlt, h.get j hlt, slot_next hidx hfull,
          Function.update_of_ne (slot_ne hidx hlt (Or.inl hfull))]
    · have heq : q.length = cap := by
        have := h.length_le
        omega
      rw [if_neg hfull] at hlen
      rw [hlen] at hj ⊢
      rw [push_of_full heq, List.getElem?_drop, slot_full]
      by_cases hlast : j + 1 = cap
      · have hslot : slot cap idx cap (j + 1) = idx := by
          rw [slot, hlast, Nat.sub_self, Nat.add_zero, Nat.add_mod_right, Nat.mod_eq_of_lt hidx]
        rw [hslot, Function.update_self, Nat.add_comm, hlast, ← heq, List.getElem?_concat_length]
      · have hlt : j + 1 < q.length := by omega
        have hne : slot cap idx cap (j + 1) ≠ idx :=
          slot_ne hidx (by omega) (Or.inr ⟨rfl, by omega⟩)
        rw [Nat.add_comm 1 j, List.getElem?_append_left hlt, h.get (j + 1) hlt, heq,
          Function.update_of_ne hne]

/-- **Reading**: counting back from the write index finds the oldest element. -/
theorem Ring.pop (h : Ring cap buff idx (x :: q)) :
    buff (slot cap idx (q.length + 1) 0) = x ∧ Ring cap buff idx q := by
  have hidx := h.idx_lt
  have hle := h.length_le
  rw [List.length_cons] at hle
  constructor
  · have hget := h.get 0 (Nat.succ_pos _)
    exact (Option.some_inj.1 hget).symm
  · refine ⟨hidx, by omega, fun j hj => ?_⟩
    have hget := h.get (j + 1) (Nat.succ_lt_succ hj)
    rw [List.getElem?_cons_succ, List.length_cons] at hget
    rw [hget, slot, slot, show idx + (cap - (q.length + 1)) + (j + 1) = idx + (cap - q.length) + j by
      omega]

theorem Ring.nil (buff : ℕ → α) (hidx : idx < cap) : Ring cap buff idx [] :=
  ⟨hidx, Nat.zero_le cap, fun _ hj => absurd hj (Nat.not_lt_zero _)⟩

end RingQueue
