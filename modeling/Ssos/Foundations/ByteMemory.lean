import Mathlib.Data.Nat.Basic
import Mathlib.Logic.Function.Basic
import Mathlib.Tactic.Ring
import Mathlib.Tactic.Common

/-!
# Byte-addressed memory

A memory is a function from addresses to bytes. `loadLE` and `storeLE` read and
write little-endian words of any width; the two laws below (a load sees the
store at its own address, and no store elsewhere) are all that clients use.
-/

namespace ByteMemory

/-- A memory: every address holds a byte. -/
abbrev Mem := ℕ → UInt8

/-- The `n`-byte little-endian word at `a`. -/
def loadLE : ℕ → Mem → ℕ → ℕ
  | 0, _, _ => 0
  | n + 1, m, a => (m a).toNat + 256 * loadLE n m (a + 1)

/-- Write the low `n` bytes of `v` at `a`, least significant byte first. -/
def storeLE : ℕ → Mem → ℕ → ℕ → Mem
  | 0, m, _, _ => m
  | n + 1, m, a, v => storeLE n (Function.update m a (UInt8.ofNat v)) (a + 1) (v / 256)

/-- A load depends only on the bytes it covers. -/
theorem loadLE_congr {n : ℕ} {m m' : Mem} {a : ℕ}
    (h : ∀ x, a ≤ x → x < a + n → m x = m' x) : loadLE n m a = loadLE n m' a := by
  induction n generalizing a with
  | zero => rfl
  | succ n ih =>
    have hrest : loadLE n m (a + 1) = loadLE n m' (a + 1) :=
      ih fun x hx hlt => h x (by omega) (by omega)
    rw [loadLE, loadLE, h a le_rfl (by omega), hrest]

/-- The same bytes at another address make the same word. -/
theorem loadLE_shift {n : ℕ} {m m' : Mem} {a b : ℕ} (h : ∀ i < n, m' (a + i) = m (b + i)) :
    loadLE n m' a = loadLE n m b := by
  induction n generalizing a b with
  | zero => rfl
  | succ n ih =>
    have hrest : loadLE n m' (a + 1) = loadLE n m (b + 1) := by
      apply ih
      intro i hi
      have hnext := h (i + 1) (by omega)
      rwa [← Nat.add_assoc, ← Nat.add_assoc, Nat.add_right_comm a, Nat.add_right_comm b] at hnext
    rw [loadLE, loadLE, hrest]
    exact congrArg (fun b : UInt8 => b.toNat + _) (h 0 n.succ_pos)

/-- Zero bytes make a zero word. -/
theorem loadLE_eq_zero {n : ℕ} {m : Mem} {a : ℕ} (h : ∀ x, a ≤ x → x < a + n → m x = 0) :
    loadLE n m a = 0 := by
  induction n generalizing a with
  | zero => rfl
  | succ n ih =>
    rw [loadLE, h a le_rfl (by omega), ih fun x hx hlt => h x (by omega) (by omega)]
    rfl

theorem loadLE_lt (n : ℕ) (m : Mem) (a : ℕ) : loadLE n m a < 256 ^ n := by
  induction n generalizing a with
  | zero => simp [loadLE]
  | succ n ih =>
    have hrest := ih (a + 1)
    have hbyte : (m a).toNat < 256 := (m a).toNat_lt
    rw [loadLE, pow_succ]
    omega

/-- A store leaves every byte outside its range alone. -/
theorem storeLE_apply_of_outside {n : ℕ} {m : Mem} {a v x : ℕ}
    (h : x < a ∨ a + n ≤ x) : storeLE n m a v x = m x := by
  induction n generalizing m a v with
  | zero => rfl
  | succ n ih =>
    rw [storeLE, ih (by omega), Function.update_of_ne (by omega)]

/-- A load reads back the word stored at its own address. -/
theorem loadLE_storeLE_self (n : ℕ) (m : Mem) (a v : ℕ) :
    loadLE n (storeLE n m a v) a = v % 256 ^ n := by
  induction n generalizing m a v with
  | zero => simp [loadLE, Nat.mod_one]
  | succ n ih =>
    have hlow : storeLE n (Function.update m a (UInt8.ofNat v)) (a + 1) (v / 256) a
        = UInt8.ofNat v := by
      rw [storeLE_apply_of_outside (by omega), Function.update_self]
    have hbyte : (UInt8.ofNat v).toNat = v % 256 := by simp
    rw [storeLE, loadLE, ih, hlow, hbyte, pow_succ', Nat.mod_mul]

theorem loadLE_storeLE_of_lt {n : ℕ} (m : Mem) (a : ℕ) {v : ℕ} (hv : v < 256 ^ n) :
    loadLE n (storeLE n m a v) a = v := by
  rw [loadLE_storeLE_self, Nat.mod_eq_of_lt hv]

/-- A load is not affected by a store to a disjoint range. -/
theorem loadLE_storeLE_of_disjoint {n k : ℕ} {m : Mem} {a b v : ℕ}
    (h : a + n ≤ b ∨ b + k ≤ a) : loadLE n (storeLE k m b v) a = loadLE n m a :=
  loadLE_congr fun _ hx hlt => storeLE_apply_of_outside (by omega)

/-- A load is not affected by changing a byte outside its range. -/
theorem loadLE_update_of_outside {n : ℕ} {m : Mem} {a x : ℕ} {v : UInt8}
    (h : x < a ∨ a + n ≤ x) : loadLE n (Function.update m x v) a = loadLE n m a :=
  loadLE_congr fun _ hx hlt => Function.update_of_ne (by omega) _ _

end ByteMemory
