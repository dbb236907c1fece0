import Ssos.Foundations.ByteMemory

/-!
# Pixels in byte memory

A raster of 32-bit pixels whose rows are `pitch` bytes apart, with padding
after each row. Painting a pixel changes no other, and moving the bytes up by
whole rows moves the pixels up.
-/

namespace PixelRaster

open ByteMemory

structure Raster where
  address : ℕ
  pitch : ℕ
  width : ℕ
  height : ℕ
  row_fits : 4 * width ≤ pitch

variable (R : Raster)

def Raster.addr (x y : ℕ) : ℕ := R.address + R.pitch * y + 4 * x

def Raster.pixel (m : Mem) (x y : ℕ) : ℕ := loadLE 4 m (R.addr x y)

def Raster.paint (color : ℕ) (m : Mem) (p : ℕ × ℕ) : Mem := storeLE 4 m (R.addr p.1 p.2) color

variable {R} {m m' : Mem} {x x' y y' color : ℕ}

/-- Pixels of a lower row end before the next row starts. -/
theorem Raster.addr_lt_row (hx : x < R.width) (hy : y < y') :
    R.addr x y + 4 ≤ R.address + R.pitch * y' := by
  have hrows : R.pitch * (y + 1) ≤ R.pitch * y' := Nat.mul_le_mul_left _ hy
  have hfits := R.row_fits
  rw [Nat.mul_add] at hrows
  rw [Raster.addr]
  omega

theorem Raster.addr_apart (hx : x < R.width) (hx' : x' < R.width) (hne : (x, y) ≠ (x', y')) :
    R.addr x y + 4 ≤ R.addr x' y' ∨ R.addr x' y' + 4 ≤ R.addr x y := by
  obtain hlt | heq | hgt := lt_trichotomy y y'
  · exact Or.inl ((Raster.addr_lt_row hx hlt).trans (Nat.le_add_right _ _))
  · subst heq
    have hcol : x ≠ x' := fun h => hne (by rw [h])
    simp only [Raster.addr]
    omega
  · exact Or.inr ((Raster.addr_lt_row hx' hgt).trans (Nat.le_add_right _ _))

theorem Raster.pixel_paint (hc : color < 2 ^ 32) (hx : x < R.width) {p : ℕ × ℕ}
    (hp : p.1 < R.width) :
    R.pixel (R.paint color m p) x y = if (x, y) = p then color else R.pixel m x y := by
  by_cases heq : (x, y) = p
  · subst heq
    rw [if_pos rfl]
    exact loadLE_storeLE_of_lt m _ hc
  · rw [if_neg heq]
    exact loadLE_storeLE_of_disjoint (Raster.addr_apart hx hp heq)

/-- Painting a list of pixels, in any order and with repetitions. -/
theorem Raster.pixel_foldl_paint (hc : color < 2 ^ 32) (hx : x < R.width) (ps : List (ℕ × ℕ))
    (hps : ∀ p ∈ ps, p.1 < R.width) :
    R.pixel (ps.foldl (R.paint color) m) x y = if (x, y) ∈ ps then color else R.pixel m x y := by
  induction ps generalizing m with
  | nil => exact (if_neg List.not_mem_nil).symm
  | cons p ps ih =>
    have hp := hps p List.mem_cons_self
    rw [List.foldl_cons, ih fun q hq => hps q (List.mem_cons_of_mem p hq),
      Raster.pixel_paint hc hx hp]
    by_cases hmem : (x, y) ∈ ps
    · rw [if_pos hmem, if_pos (List.mem_cons_of_mem p hmem)]
    · rw [if_neg hmem]
      by_cases heq : (x, y) = p
      · rw [if_pos heq, if_pos (heq ▸ List.mem_cons_self)]
      · rw [if_neg heq, if_neg fun h => (List.mem_cons.1 h).elim heq hmem]

/-- The bytes of the raster have moved up by `k` rows, with zeros below. -/
structure Raster.Scrolled (R : Raster) (k : ℕ) (m m' : Mem) : Prop where
  moved : ∀ a, R.address ≤ a → a < R.address + R.pitch * (R.height - k) → m' a = m (a + R.pitch * k)
  cleared : ∀ a, R.address + R.pitch * (R.height - k) ≤ a → a < R.address + R.pitch * R.height →
    m' a = 0

theorem Raster.Scrolled.pixel {k : ℕ} (h : R.Scrolled k m m') (hx : x < R.width)
    (hy : y < R.height) : R.pixel m' x y = if y + k < R.height then R.pixel m x (y + k) else 0 := by
  have hend := Raster.addr_lt_row hx hy
  by_cases hin : y + k < R.height
  · rw [if_pos hin]
    have hmoved := Raster.addr_lt_row (R := R) hx (show y < R.height - k by omega)
    have haddr : R.addr x (y + k) = R.addr x y + R.pitch * k := by
      simp only [Raster.addr, Nat.mul_add]
      omega
    apply loadLE_shift
    intro i hi
    rw [haddr, h.moved _ (by rw [Raster.addr]; omega) (by omega)]
    exact congrArg m (Nat.add_right_comm _ _ _)
  · rw [if_neg hin]
    have hrows : R.pitch * (R.height - k) ≤ R.pitch * y := Nat.mul_le_mul_left _ (by omega)
    apply loadLE_eq_zero
    intro a hle hlt
    rw [Raster.addr] at hle
    exact h.cleared a (by omega) (by omega)

end PixelRaster
