import Ssos.Foundations.CharGrid
import Ssos.Foundations.PartialRuns
import Ssos.Foundations.PixelRaster
import Ssos.Mem.MemOps

/-!
# The screen driver

`screen_putch`, `screen_print` and `screen_scroll` of `drivers/screen.c`, with
64-bit pixel coordinates, on a framebuffer in byte memory.

## Main result

- `drawsInside_iff` — nothing is drawn outside the framebuffer exactly when the cell size divides
  its width and its height

A result `none` means that the C code has no defined continuation: the index of
the font is negative, or an `int` overflows.
-/

namespace Ssos

open ByteMemory PartialRun

/-! ### The code -/

/-- The fields of `limine_framebuffer` that the driver reads. -/
structure Framebuffer where
  address : ℕ
  width : ℕ
  height : ℕ
  pitch : ℕ
  bpp : ℕ
  redMaskShift : ℕ
  greenMaskShift : ℕ
  blueMaskShift : ℕ
  width_lt : width < 2 ^ 64
  height_lt : height < 2 ^ 64

/-- The statics of the driver and the memory. `drawn` is bookkeeping: the
arguments of the calls of `draw_pixel`, in order. -/
structure Screen where
  fb : Framebuffer
  mem : Mem
  cursorX : ℕ
  cursorY : ℕ
  color : ℕ
  fontScale : ℤ
  drawn : List (ℕ × ℕ)

def fontWidth : ℕ := 8
def fontHeight : ℕ := 8

/-- The first 33 characters are blank. -/
def font8x8Buff : List (List ℕ) :=
  List.replicate 33 [0x00, 0x00, 0x00, 0x00, 0x00, 0x00, 0x00, 0x00] ++ [
    [0x18, 0x3C, 0x3C, 0x18, 0x18, 0x00, 0x18, 0x00],
    [0x36, 0x36, 0x00, 0x00, 0x00, 0x00, 0x00, 0x00],
    [0x36, 0x36, 0x7F, 0x36, 0x7F, 0x36, 0x36, 0x00],
    [0x0C, 0x3E, 0x03, 0x1E, 0x30, 0x1F, 0x0C, 0x00],
    [0x00, 0x63, 0x33, 0x18, 0x0C, 0x66, 0x63, 0x00],
    [0x1C, 0x36, 0x1C, 0x6E, 0x3B, 0x33, 0x6E, 0x00],
    [0x06, 0x06, 0x03, 0x00, 0x00, 0x00, 0x00, 0x00],
    [0x18, 0x0C, 0x06, 0x06, 0x06, 0x0C, 0x18, 0x00],
    [0x06, 0x0C, 0x18, 0x18, 0x18, 0x0C, 0x06, 0x00],
    [0x00, 0x66, 0x3C, 0xFF, 0x3C, 0x66, 0x00, 0x00],
    [0x00, 0x0C, 0x0C, 0x3F, 0x0C, 0x0C, 0x00, 0x00],
    [0x00, 0x00, 0x00, 0x00, 0x00, 0x0C, 0x0C, 0x06],
    [0x00, 0x00, 0x00, 0x3F, 0x00, 0x00, 0x00, 0x00],
    [0x00, 0x00, 0x00, 0x00, 0x00, 0x0C, 0x0C, 0x00],
    [0x60, 0x30, 0x18, 0x0C, 0x06, 0x03, 0x01, 0x00],
    [0x3E, 0x63, 0x73, 0x7B, 0x6F, 0x67, 0x3E, 0x00],
    [0x0C, 0x0E, 0x0C, 0x0C, 0x0C, 0x0C, 0x3F, 0x00],
    [0x1E, 0x33, 0x30, 0x1C, 0x06, 0x33, 0x3F, 0x00],
    [0x1E, 0x33, 0x30, 0x1C, 0x30, 0x33, 0x1E, 0x00],
    [0x38, 0x3C, 0x36, 0x33, 0x7F, 0x30, 0x78, 0x00],
    [0x3F, 0x03, 0x1F, 0x30, 0x30, 0x33, 0x1E, 0x00],
    [0x1C, 0x06, 0x03, 0x1F, 0x33, 0x33, 0x1E, 0x00],
    [0x3F, 0x33, 0x30, 0x18, 0x0C, 0x0C, 0x0C, 0x00],
    [0x1E, 0x33, 0x33, 0x1E, 0x33, 0x33, 0x1E, 0x00],
    [0x1E, 0x33, 0x33, 0x3E, 0x30, 0x18, 0x0E, 0x00],
    [0x00, 0x0C, 0x0C, 0x00, 0x00, 0x0C, 0x0C, 0x00],
    [0x00, 0x0C, 0x0C, 0x00, 0x00, 0x0C, 0x0C, 0x06],
    [0x18, 0x0C, 0x06, 0x03, 0x06, 0x0C, 0x18, 0x00],
    [0x00, 0x00, 0x3F, 0x00, 0x00, 0x3F, 0x00, 0x00],
    [0x06, 0x0C, 0x18, 0x30, 0x18, 0x0C, 0x06, 0x00],
    [0x1E, 0x33, 0x30, 0x18, 0x0C, 0x00, 0x0C, 0x00],
    [0x3E, 0x63, 0x7B, 0x7B, 0x7B, 0x03, 0x1E, 0x00],
    [0x0C, 0x1E, 0x33, 0x33, 0x3F, 0x33, 0x33, 0x00],
    [0x3F, 0x66, 0x66, 0x3E, 0x66, 0x66, 0x3F, 0x00],
    [0x3C, 0x66, 0x03, 0x03, 0x03, 0x66, 0x3C, 0x00],
    [0x1F, 0x36, 0x66, 0x66, 0x66, 0x36, 0x1F, 0x00],
    [0x7F, 0x46, 0x16, 0x1E, 0x16, 0x46, 0x7F, 0x00],
    [0x7F, 0x46, 0x16, 0x1E, 0x16, 0x06, 0x0F, 0x00],
    [0x3C, 0x66, 0x03, 0x03, 0x73, 0x66, 0x7C, 0x00],
    [0x33, 0x33, 0x33, 0x3F, 0x33, 0x33, 0x33, 0x00],
    [0x1E, 0x0C, 0x0C, 0x0C, 0x0C, 0x0C, 0x1E, 0x00],
    [0x78, 0x30, 0x30, 0x30, 0x33, 0x33, 0x1E, 0x00],
    [0x67, 0x66, 0x36, 0x1E, 0x36, 0x66, 0x67, 0x00],
    [0x0F, 0x06, 0x06, 0x06, 0x46, 0x66, 0x7F, 0x00],
    [0x63, 0x77, 0x7F, 0x7F, 0x6B, 0x63, 0x63, 0x00],
    [0x63, 0x67, 0x6F, 0x7B, 0x73, 0x63, 0x63, 0x00],
    [0x1C, 0x36, 0x63, 0x63, 0x63, 0x36, 0x1C, 0x00],
    [0x3F, 0x66, 0x66, 0x3E, 0x06, 0x06, 0x0F, 0x00],
    [0x1E, 0x33, 0x33, 0x33, 0x3B, 0x1E, 0x38, 0x00],
    [0x3F, 0x66, 0x66, 0x3E, 0x36, 0x66, 0x67, 0x00],
    [0x1E, 0x33, 0x07, 0x0E, 0x38, 0x33, 0x1E, 0x00],
    [0x3F, 0x2D, 0x0C, 0x0C, 0x0C, 0x0C, 0x1E, 0x00],
    [0x33, 0x33, 0x33, 0x33, 0x33, 0x33, 0x3F, 0x00],
    [0x33, 0x33, 0x33, 0x33, 0x33, 0x1E, 0x0C, 0x00],
    [0x63, 0x63, 0x63, 0x6B, 0x7F, 0x77, 0x63, 0x00],
    [0x63, 0x63, 0x36, 0x1C, 0x1C, 0x36, 0x63, 0x00],
    [0x33, 0x33, 0x33, 0x1E, 0x0C, 0x0C, 0x1E, 0x00],
    [0x7F, 0x63, 0x31, 0x18, 0x4C, 0x66, 0x7F, 0x00],
    [0x1E, 0x06, 0x06, 0x06, 0x06, 0x06, 0x1E, 0x00],
    [0x03, 0x06, 0x0C, 0x18, 0x30, 0x60, 0x40, 0x00],
    [0x1E, 0x18, 0x18, 0x18, 0x18, 0x18, 0x1E, 0x00],
    [0x08, 0x1C, 0x36, 0x63, 0x00, 0x00, 0x00, 0x00],
    [0x00, 0x00, 0x00, 0x00, 0x00, 0x00, 0x00, 0xFF],
    [0x0C, 0x0C, 0x18, 0x00, 0x00, 0x00, 0x00, 0x00],
    [0x00, 0x00, 0x1E, 0x30, 0x3E, 0x33, 0x6E, 0x00],
    [0x07, 0x06, 0x06, 0x3E, 0x66, 0x66, 0x3B, 0x00],
    [0x00, 0x00, 0x1E, 0x33, 0x03, 0x33, 0x1E, 0x00],
    [0x38, 0x30, 0x30, 0x3e, 0x33, 0x33, 0x6E, 0x00],
    [0x00, 0x00, 0x1E, 0x33, 0x3f, 0x03, 0x1E, 0x00],
    [0x1C, 0x36, 0x06, 0x0f, 0x06, 0x06, 0x0F, 0x00],
    [0x00, 0x00, 0x6E, 0x33, 0x33, 0x3E, 0x30, 0x1F],
    [0x07, 0x06, 0x36, 0x6E, 0x66, 0x66, 0x67, 0x00],
    [0x0C, 0x00, 0x0E, 0x0C, 0x0C, 0x0C, 0x1E, 0x00],
    [0x30, 0x00, 0x30, 0x30, 0x30, 0x33, 0x33, 0x1E],
    [0x07, 0x06, 0x66, 0x36, 0x1E, 0x36, 0x67, 0x00],
    [0x0E, 0x0C, 0x0C, 0x0C, 0x0C, 0x0C, 0x1E, 0x00],
    [0x00, 0x00, 0x33, 0x7F, 0x7F, 0x6B, 0x63, 0x00],
    [0x00, 0x00, 0x1F, 0x33, 0x33, 0x33, 0x33, 0x00],
    [0x00, 0x00, 0x1E, 0x33, 0x33, 0x33, 0x1E, 0x00],
    [0x00, 0x00, 0x3B, 0x66, 0x66, 0x3E, 0x06, 0x0F],
    [0x00, 0x00, 0x6E, 0x33, 0x33, 0x3E, 0x30, 0x78],
    [0x00, 0x00, 0x3B, 0x6E, 0x66, 0x06, 0x0F, 0x00],
    [0x00, 0x00, 0x3E, 0x03, 0x1E, 0x30, 0x1F, 0x00],
    [0x08, 0x0C, 0x3E, 0x0C, 0x0C, 0x2C, 0x18, 0x00],
    [0x00, 0x00, 0x33, 0x33, 0x33, 0x33, 0x6E, 0x00],
    [0x00, 0x00, 0x33, 0x33, 0x33, 0x1E, 0x0C, 0x00],
    [0x00, 0x00, 0x63, 0x6B, 0x7F, 0x7F, 0x36, 0x00],
    [0x00, 0x00, 0x63, 0x36, 0x1C, 0x36, 0x63, 0x00],
    [0x00, 0x00, 0x33, 0x33, 0x33, 0x3E, 0x30, 0x1F],
    [0x00, 0x00, 0x3F, 0x19, 0x0C, 0x26, 0x3F, 0x00],
    [0x38, 0x0C, 0x0C, 0x07, 0x0C, 0x0C, 0x38, 0x00],
    [0x18, 0x18, 0x18, 0x00, 0x18, 0x18, 0x18, 0x00],
    [0x07, 0x0C, 0x0C, 0x38, 0x0C, 0x0C, 0x07, 0x00],
    [0x6E, 0x3B, 0x00, 0x00, 0x00, 0x00, 0x00, 0x00],
    [0x00, 0x00, 0x00, 0x00, 0x00, 0x00, 0x00, 0x00]]

/-- `font8x8_buff[ch][row] & (1 << col)`. -/
def glyphBit (ch row col : ℕ) : Bool :=
  decide ((font8x8Buff.getD ch []).getD row 0 &&& 1 <<< col ≠ 0)

/-- The conversion to `uint64_t`. -/
def u64 (i : ℤ) : ℕ := (i % 2 ^ 64).toNat

def screenGetRgbColor (fb : Framebuffer) (red green blue : ℕ) : Option ℕ :=
  if fb.redMaskShift < 32 ∧ fb.greenMaskShift < 32 ∧ fb.blueMaskShift < 32 then
    some (red <<< fb.redMaskShift % 2 ^ 32 ||| green <<< fb.greenMaskShift % 2 ^ 32 |||
      blue <<< fb.blueMaskShift % 2 ^ 32)
  else none

def screenInit (fb : Framebuffer) (mem : Mem) : Option Screen :=
  match screenGetRgbColor fb 255 255 255 with
  | none => none
  | some color => some ⟨fb, mem, 0, 0, color, 1, []⟩

def screenSetColor (color : ℕ) (s : Screen) : Screen := { s with color }

def screenSetFontScale (scale : ℤ) (s : Screen) : Screen := { s with fontScale := scale }

def drawPixel (s : Screen) (p : ℕ × ℕ) : Screen :=
  { s with
    mem := storeLE 4 s.mem
      ((s.fb.address + s.fb.pitch * p.2 + s.fb.bpp / 8 * p.1) % 2 ^ 64) s.color
    drawn := s.drawn ++ [p] }

/-- The arguments of `draw_pixel` in the four loops of `screen_putch`, in order. -/
def glyphPixels (ch : UInt8) (s : Screen) : List (ℕ × ℕ) :=
  (List.range fontHeight).flatMap fun row =>
    (List.range fontWidth).flatMap fun col =>
      if glyphBit ch.toNat row col then
        (List.range s.fontScale.toNat).flatMap fun (dx : ℕ) =>
          (List.range s.fontScale.toNat).map fun (dy : ℕ) =>
            (u64 (s.cursorX + col * s.fontScale + dx), u64 (s.cursorY + row * s.fontScale + dy))
      else []

def drawGlyph (ch : UInt8) (s : Screen) : Screen := (glyphPixels ch s).foldl drawPixel s

def screenScroll (pixelCount : ℕ) (s : Screen) : Screen :=
  let bytesToMove := (s.fb.height + 2 ^ 64 - pixelCount) % 2 ^ 64 * s.fb.pitch % 2 ^ 64
  let m := memmove s.mem s.fb.address ((s.fb.address + pixelCount * s.fb.pitch) % 2 ^ 64)
    bytesToMove
  { s with
    mem := memset m ((s.fb.address + bytesToMove) % 2 ^ 64) 0 (pixelCount * s.fb.pitch % 2 ^ 64) }

/-- The code behind the label `newline`; `cell` is `FONT_HEIGHT * font_scale`. -/
def putNewline (cell : ℕ) (s : Screen) : Screen :=
  let s := { s with cursorX := 0 }
  if (s.cursorY + cell) % 2 ^ 64 ≥ s.fb.height then screenScroll (cell % 2 ^ 32) s
  else { s with cursorY := (s.cursorY + cell) % 2 ^ 64 }

/-- A `char` from 128 on is negative. The products of the loops are smaller than
`FONT_WIDTH * font_scale`, which both paths compute. -/
def screenPutch (ch : UInt8) (s : Screen) : Option Screen :=
  let product := fontWidth * s.fontScale
  if 128 ≤ ch.toNat ∨ ¬(-2 ^ 31 ≤ product ∧ product < 2 ^ 31) then none
  else
    let cell := u64 product
    if ch = '\n'.toUInt8 then some (putNewline cell s)
    else
      let s := drawGlyph ch s
      if (s.cursorX + cell) % 2 ^ 64 ≥ s.fb.width then some (putNewline cell s)
      else some { s with cursorX := (s.cursorX + cell) % 2 ^ 64 }

/-- The string ends at its first zero byte. -/
def screenPrint : List UInt8 → Screen → Option Screen
  | [], s => some s
  | ch :: str, s =>
    if ch = 0 then some s
    else
      match screenPutch ch s with
      | none => none
      | some s => screenPrint str s

inductive ScreenCall
  | putch (ch : UInt8)
  | print (str : List UInt8)

def screenStep (s : Screen) : ScreenCall → Option Screen
  | .putch ch => screenPutch ch s
  | .print str => screenPrint str s

/-- The cursor is at the origin and nothing has been drawn. -/
def Screen.start (fb : Framebuffer) (mem : Mem) (color : ℕ) (scale : ℤ) : Screen :=
  ⟨fb, mem, 0, 0, color, scale, []⟩

/-- The state after `screen_init` and the two setters. -/
theorem screenInit_start {fb : Framebuffer} {mem : Mem} {s : Screen}
    (h : screenInit fb mem = some s) (color : ℕ) (scale : ℤ) :
    screenSetColor color (screenSetFontScale scale s) = Screen.start fb mem color scale := by
  rw [screenInit] at h
  cases hrgb : screenGetRgbColor fb 255 255 255 with
  | none =>
    rw [hrgb] at h
    exact absurd h.symm (Option.some_ne_none s)
  | some white =>
    rw [hrgb] at h
    obtain rfl := Option.some_inj.1 h
    rfl

/-! ### The pixels of a glyph -/

@[simp] theorem u64_natCast (k : ℕ) : u64 k = k % 2 ^ 64 := by
  rw [u64]
  norm_cast

section Glyph
variable {ch : UInt8} {s : Screen} {n : ℕ}

theorem mem_glyphPixels (hn : s.fontScale = n) {p : ℕ × ℕ} :
    p ∈ glyphPixels ch s ↔ ∃ row < 8, ∃ col < 8, glyphBit ch.toNat row col = true ∧
      ∃ dx < n, ∃ dy < n, p.1 = (s.cursorX + col * n + dx) % 2 ^ 64 ∧
        p.2 = (s.cursorY + row * n + dy) % 2 ^ 64 := by
  have hcast : ∀ cursor k d : ℕ, u64 (cursor + k * (n : ℤ) + d) = (cursor + k * n + d) % 2 ^ 64 := by
    intro cursor k d
    rw [← u64_natCast]
    push_cast
    rfl
  simp only [glyphPixels, hn, hcast, Int.toNat_natCast, List.mem_flatMap, List.mem_range,
    fontHeight, fontWidth, List.mem_ite_nil_right, List.mem_map, Prod.ext_iff, eq_comm]

/-- Glyphs are drawn inside their cell when the cell does not wrap around. -/
theorem glyphPixels_inside (hn : s.fontScale = n) (hx : s.cursorX + 8 * n ≤ 2 ^ 64)
    (hy : s.cursorY + 8 * n ≤ 2 ^ 64) {p : ℕ × ℕ} (hp : p ∈ glyphPixels ch s) :
    (s.cursorX ≤ p.1 ∧ p.1 < s.cursorX + 8 * n) ∧
      (s.cursorY ≤ p.2 ∧ p.2 < s.cursorY + 8 * n) ∧
      glyphBit ch.toNat ((p.2 - s.cursorY) / n) ((p.1 - s.cursorX) / n) = true := by
  obtain ⟨row, hrow, col, hcol, hbit, dx, hdx, dy, hdy, hpx, hpy⟩ := (mem_glyphPixels hn).1 hp
  have hcell : ∀ k d : ℕ, k < 8 → d < n → k * n + d < 8 * n := by
    intro k d hk hd
    have hle : (k + 1) * n ≤ 8 * n := Nat.mul_le_mul_right n hk
    rw [Nat.add_mul] at hle
    omega
  have hquot : ∀ k d : ℕ, d < n → (k * n + d) / n = k := by
    intro k d hd
    rw [Nat.mul_comm, Nat.mul_add_div (Nat.zero_lt_of_lt hd), Nat.div_eq_of_lt hd, Nat.add_zero]
  have hcx := hcell col dx hcol hdx
  have hcy := hcell row dy hrow hdy
  rw [Nat.mod_eq_of_lt (by omega)] at hpx hpy
  have hsubx : p.1 - s.cursorX = col * n + dx := by omega
  have hsuby : p.2 - s.cursorY = row * n + dy := by omega
  rw [hsubx, hsuby, hquot col dx hdx, hquot row dy hdy]
  exact ⟨by omega, by omega, hbit⟩

/-- Every pixel of the cell under a set bit is drawn. -/
theorem mem_glyphPixels_of_bit (hn : s.fontScale = n) {x y : ℕ} (hx : s.cursorX ≤ x)
    (hxcell : x < s.cursorX + 8 * n) (hxlt : x < 2 ^ 64) (hy : s.cursorY ≤ y)
    (hycell : y < s.cursorY + 8 * n) (hylt : y < 2 ^ 64)
    (hbit : glyphBit ch.toNat ((y - s.cursorY) / n) ((x - s.cursorX) / n) = true) :
    (x, y) ∈ glyphPixels ch s := by
  have hpos : 0 < n := by omega
  have hsplit : ∀ cursor k : ℕ, cursor ≤ k → k < 2 ^ 64 →
      k = (cursor + (k - cursor) / n * n + (k - cursor) % n) % 2 ^ 64 := by
    intro cursor k hle hlt
    have hdiv := Nat.div_add_mod' (k - cursor) n
    rw [Nat.mod_eq_of_lt (by omega)]
    omega
  refine (mem_glyphPixels hn).2 ⟨_, ?_, _, ?_, hbit, _, Nat.mod_lt _ hpos, _, Nat.mod_lt _ hpos,
    hsplit _ _ hx hxlt, hsplit _ _ hy hylt⟩
  · exact Nat.div_lt_of_lt_mul (by omega)
  · exact Nat.div_lt_of_lt_mul (by omega)

theorem mem_glyphPixels_iff (hn : s.fontScale = n) (hx : s.cursorX + 8 * n ≤ 2 ^ 64)
    (hy : s.cursorY + 8 * n ≤ 2 ^ 64) {x y : ℕ} :
    (x, y) ∈ glyphPixels ch s ↔
      (s.cursorX ≤ x ∧ x < s.cursorX + 8 * n) ∧ (s.cursorY ≤ y ∧ y < s.cursorY + 8 * n) ∧
        glyphBit ch.toNat ((y - s.cursorY) / n) ((x - s.cursorX) / n) = true := by
  constructor
  · intro hp
    exact glyphPixels_inside hn hx hy hp
  · intro ⟨⟨hx1, hx2⟩, ⟨hy1, hy2⟩, hbit⟩
    exact mem_glyphPixels_of_bit hn hx1 hx2 (by omega) hy1 hy2 (by omega) hbit

/-! ### One character -/

/-- Drawing changes the memory and the record only. -/
theorem foldl_drawPixel (ps : List (ℕ × ℕ)) (s : Screen) :
    ∃ mem, ps.foldl drawPixel s = { s with mem, drawn := s.drawn ++ ps } := by
  induction ps generalizing s with
  | nil => exact ⟨s.mem, by rw [List.append_nil]; rfl⟩
  | cons p ps ih =>
    obtain ⟨mem, hrest⟩ := ih (drawPixel s p)
    refine ⟨mem, ?_⟩
    rw [List.foldl_cons, hrest, drawPixel, List.append_assoc, List.singleton_append]

/-- A character within the range of `int` and ASCII. -/
theorem screenPutch_eq (hn : s.fontScale = n) (hint : 8 * n < 2 ^ 31) (hch : ch.toNat < 128) :
    screenPutch ch s =
      some (if ch = '\n'.toUInt8 then putNewline (8 * n) s
        else if (s.cursorX + 8 * n) % 2 ^ 64 ≥ s.fb.width then putNewline (8 * n) (drawGlyph ch s)
        else { drawGlyph ch s with cursorX := (s.cursorX + 8 * n) % 2 ^ 64 }) := by
  have hproduct : (fontWidth : ℤ) * s.fontScale = ((8 * n : ℕ) : ℤ) := by
    rw [hn, fontWidth]
    push_cast
    rfl
  have hdefined : ¬(128 ≤ ch.toNat ∨
      ¬(-2 ^ 31 ≤ ((8 * n : ℕ) : ℤ) ∧ ((8 * n : ℕ) : ℤ) < 2 ^ 31)) := by
    push_cast
    omega
  have hcell : u64 ((8 * n : ℕ) : ℤ) = 8 * n := by
    rw [u64_natCast, Nat.mod_eq_of_lt (by omega)]
  obtain ⟨mem, hdraw⟩ := foldl_drawPixel (glyphPixels ch s) s
  simp only [screenPutch, hproduct, if_neg hdefined, hcell, drawGlyph, hdraw]
  by_cases hnl : ch = '\n'.toUInt8
  · simp only [if_pos hnl]
  · simp only [if_neg hnl]
    by_cases hwrap : (s.cursorX + 8 * n) % 2 ^ 64 ≥ s.fb.width
    · simp only [if_pos hwrap]
    · simp only [if_neg hwrap]

theorem screenScroll_fields (k : ℕ) (s : Screen) :
    ∃ mem, screenScroll k s = { s with mem } := ⟨_, rfl⟩

/-- A line feed moves the cursor to the front of the next row, or keeps its row. -/
theorem putNewline_fields (cell : ℕ) (s : Screen) :
    ∃ mem, putNewline cell s =
      { s with
        mem
        cursorX := 0
        cursorY := if (s.cursorY + cell) % 2 ^ 64 ≥ s.fb.height then s.cursorY
          else (s.cursorY + cell) % 2 ^ 64 } := by
  by_cases hlast : (s.cursorY + cell) % 2 ^ 64 ≥ s.fb.height
  · simp only [putNewline, if_pos hlast]
    exact screenScroll_fields _ _
  · simp only [putNewline, if_neg hlast]
    exact ⟨s.mem, rfl⟩

/-- A printed character records its glyph. -/
theorem screenPutch_drawn (hn : s.fontScale = n) (hint : 8 * n < 2 ^ 31) (hch : ch.toNat < 128)
    (hnl : ch ≠ '\n'.toUInt8) :
    ∃ s', screenPutch ch s = some s' ∧ s'.drawn = s.drawn ++ glyphPixels ch s := by
  rw [screenPutch_eq hn hint hch, if_neg hnl]
  obtain ⟨mem, hdraw⟩ := foldl_drawPixel (glyphPixels ch s) s
  rw [drawGlyph, hdraw]
  by_cases hwrap : (s.cursorX + 8 * n) % 2 ^ 64 ≥ s.fb.width
  · rw [if_pos hwrap]
    obtain ⟨mem', hline⟩ :=
      putNewline_fields (8 * n) { s with mem, drawn := s.drawn ++ glyphPixels ch s }
    exact ⟨_, rfl, by rw [hline]⟩
  · rw [if_neg hwrap]
    exact ⟨_, rfl, rfl⟩

end Glyph

/-! ### Drawing inside the framebuffer -/

/-- All characters of the call are ASCII. -/
def ScreenCall.Ascii : ScreenCall → Prop
  | .putch ch => ch.toNat < 128
  | .print str => ∀ ch ∈ str, ch.toNat < 128

theorem ascii_replicate {ch : UInt8} (hch : ch.toNat < 128) (k : ℕ) :
    ∀ call ∈ List.replicate k (ScreenCall.putch ch), call.Ascii := by
  intro call hmem
  rw [List.eq_of_mem_replicate hmem]
  exact hch

/-- Every sequence of calls on ASCII characters runs to its end and passes
only pixels of the framebuffer to `draw_pixel`. -/
def DrawsInside (fb : Framebuffer) (scale : ℤ) : Prop :=
  ∀ (mem : Mem) (color : ℕ) (calls : List ScreenCall), (∀ call ∈ calls, call.Ascii) →
    ∃ s, exec screenStep (Screen.start fb mem color scale) calls = some s ∧
      ∀ p ∈ s.drawn, p.1 < fb.width ∧ p.2 < fb.height

/-- The cursor is at a multiple of the cell size, inside the framebuffer. -/
structure OnGrid (fb : Framebuffer) (n : ℕ) (s : Screen) : Prop where
  fb_eq : s.fb = fb
  scale_eq : s.fontScale = n
  cursorX_dvd : 8 * n ∣ s.cursorX
  cursorX_lt : s.cursorX < fb.width
  cursorY_dvd : 8 * n ∣ s.cursorY
  cursorY_lt : s.cursorY < fb.height
  inside : ∀ p ∈ s.drawn, p.1 < fb.width ∧ p.2 < fb.height

/-- Between a multiple and a larger one there is room for a cell. -/
theorem cell_fits {c a w : ℕ} (ha : c ∣ a) (hw : c ∣ w) (hlt : a < w) : a + c ≤ w := by
  have hle : c ≤ w - a := Nat.le_of_dvd (by omega) (Nat.dvd_sub hw ha)
  omega

section Inside
variable {fb : Framebuffer} {n : ℕ} {s : Screen} {ch : UInt8}

theorem OnGrid.drawGlyph (hs : OnGrid fb n s) (hw : 8 * n ∣ fb.width) (hh : 8 * n ∣ fb.height)
    (ch : UInt8) : OnGrid fb n (drawGlyph ch s) := by
  have hfitx := cell_fits hs.cursorX_dvd hw hs.cursorX_lt
  have hfity := cell_fits hs.cursorY_dvd hh hs.cursorY_lt
  have hwidth := fb.width_lt
  have hheight := fb.height_lt
  obtain ⟨mem, hdraw⟩ := foldl_drawPixel (glyphPixels ch s) s
  rw [Ssos.drawGlyph, hdraw]
  refine ⟨hs.fb_eq, hs.scale_eq, hs.cursorX_dvd, hs.cursorX_lt, hs.cursorY_dvd, hs.cursorY_lt, ?_⟩
  intro p hp
  obtain hold | hnew := List.mem_append.1 hp
  · exact hs.inside p hold
  · obtain ⟨hx, hy, _⟩ := glyphPixels_inside hs.scale_eq (by omega) (by omega) hnew
    exact ⟨by omega, by omega⟩

theorem OnGrid.putNewline (hs : OnGrid fb n s) (hh : 8 * n ∣ fb.height) :
    OnGrid fb n (putNewline (8 * n) s) := by
  have hfit := cell_fits hs.cursorY_dvd hh hs.cursorY_lt
  have hheight := fb.height_lt
  obtain ⟨mem, hline⟩ := putNewline_fields (8 * n) s
  rw [hline, hs.fb_eq, Nat.mod_eq_of_lt (by omega)]
  by_cases hlast : s.cursorY + 8 * n ≥ fb.height
  · rw [if_pos hlast]
    exact ⟨rfl, hs.scale_eq, dvd_zero _, Nat.zero_lt_of_lt hs.cursorX_lt, hs.cursorY_dvd,
      hs.cursorY_lt, hs.inside⟩
  · rw [if_neg hlast]
    exact ⟨rfl, hs.scale_eq, dvd_zero _, Nat.zero_lt_of_lt hs.cursorX_lt,
      Nat.dvd_add hs.cursorY_dvd dvd_rfl, not_le.1 hlast, hs.inside⟩

/-- **Step lemma.** -/
theorem OnGrid.screenPutch (hs : OnGrid fb n s) (hint : 8 * n < 2 ^ 31) (hw : 8 * n ∣ fb.width)
    (hh : 8 * n ∣ fb.height) (hch : ch.toNat < 128) :
    ∃ s', screenPutch ch s = some s' ∧ OnGrid fb n s' := by
  have hfit := cell_fits hs.cursorX_dvd hw hs.cursorX_lt
  have hwidth := fb.width_lt
  have hdrawn := hs.drawGlyph hw hh ch
  refine ⟨_, screenPutch_eq hs.scale_eq hint hch, ?_⟩
  rw [hs.fb_eq, Nat.mod_eq_of_lt (by omega)]
  by_cases hnl : ch = '\n'.toUInt8
  · rw [if_pos hnl]
    exact hs.putNewline hh
  · rw [if_neg hnl]
    by_cases hwrap : s.cursorX + 8 * n ≥ fb.width
    · rw [if_pos hwrap]
      exact hdrawn.putNewline hh
    · rw [if_neg hwrap]
      exact ⟨hdrawn.fb_eq, hdrawn.scale_eq, Nat.dvd_add hs.cursorX_dvd dvd_rfl, not_le.1 hwrap,
        hdrawn.cursorY_dvd, hdrawn.cursorY_lt, hdrawn.inside⟩

theorem OnGrid.screenPrint (hs : OnGrid fb n s) (hint : 8 * n < 2 ^ 31) (hw : 8 * n ∣ fb.width)
    (hh : 8 * n ∣ fb.height) {str : List UInt8} (hstr : ∀ ch ∈ str, ch.toNat < 128) :
    ∃ s', screenPrint str s = some s' ∧ OnGrid fb n s' := by
  induction str generalizing s with
  | nil => exact ⟨s, rfl, hs⟩
  | cons ch str ih =>
    rw [Ssos.screenPrint]
    by_cases hend : ch = 0
    · rw [if_pos hend]
      exact ⟨s, rfl, hs⟩
    · rw [if_neg hend]
      obtain ⟨s₁, hput, hs₁⟩ := hs.screenPutch hint hw hh (hstr ch List.mem_cons_self)
      rw [hput]
      exact ih hs₁ fun ch' hmem => hstr ch' (List.mem_cons_of_mem ch hmem)

theorem OnGrid.screenStep (hs : OnGrid fb n s) (hint : 8 * n < 2 ^ 31) (hw : 8 * n ∣ fb.width)
    (hh : 8 * n ∣ fb.height) {call : ScreenCall} (hcall : call.Ascii) :
    ∃ s', screenStep s call = some s' ∧ OnGrid fb n s' := by
  cases call with
  | putch ch => exact hs.screenPutch hint hw hh hcall
  | print str => exact hs.screenPrint hint hw hh hcall

theorem drawsInside_of_dvd {scale : ℤ} (hscale : scale = n) (hint : 8 * n < 2 ^ 31)
    (hw : 8 * n ∣ fb.width) (hh : 8 * n ∣ fb.height) (hwidth : 0 < fb.width)
    (hheight : 0 < fb.height) : DrawsInside fb scale := by
  intro mem color calls hcalls
  have hstart : OnGrid fb n (Screen.start fb mem color scale) :=
    ⟨rfl, hscale, dvd_zero _, hwidth, dvd_zero _, hheight, fun p hp => absurd hp List.not_mem_nil⟩
  obtain ⟨s, hexec, hs⟩ := (Along.of_mem hcalls).exec_invariant
    (fun s call hs hcall => hs.screenStep hint hw hh hcall) hstart
  exact ⟨s, hexec, hs.inside⟩

end Inside

/-! ### Drawing outside -/

/-- The cursor after characters that filled whole cells. -/
structure CursorAt (fb : Framebuffer) (n x y : ℕ) (s : Screen) : Prop where
  fb_eq : s.fb = fb
  scale_eq : s.fontScale = n
  cursorX_eq : s.cursorX = x
  cursorY_eq : s.cursorY = y

section Outside
variable {fb : Framebuffer} {n : ℕ} {scale : ℤ}

/-- `k` underscores, as long as the next cell starts inside. -/
theorem exec_columns (hscale : scale = n) (hint : 8 * n < 2 ^ 31) (mem : Mem) (color : ℕ) {k : ℕ}
    (hk : k * (8 * n) < fb.width) :
    ∃ s, exec screenStep (Screen.start fb mem color scale)
        (List.replicate k (.putch '_'.toUInt8)) = some s ∧ CursorAt fb n (k * (8 * n)) 0 s := by
  induction k with
  | zero => exact ⟨_, rfl, rfl, hscale, (Nat.zero_mul _).symm, rfl⟩
  | succ k ih =>
    have hnext : (k + 1) * (8 * n) = k * (8 * n) + 8 * n := Nat.succ_mul k _
    have hwidth := fb.width_lt
    obtain ⟨s, hexec, hs⟩ := ih (by omega)
    have hput : screenPutch '_'.toUInt8 s = _ := screenPutch_eq hs.scale_eq hint (by decide)
    have hwrap : ¬k * (8 * n) + 8 * n ≥ fb.width := by omega
    rw [if_neg (by decide), hs.fb_eq, hs.cursorX_eq, Nat.mod_eq_of_lt (by omega), if_neg hwrap]
      at hput
    obtain ⟨mem', hdraw⟩ := foldl_drawPixel (glyphPixels '_'.toUInt8 s) s
    refine ⟨_, (congrArg _ List.replicate_succ').trans (exec_snoc hexec hput), ?_⟩
    rw [drawGlyph, hdraw]
    exact ⟨hs.fb_eq, hs.scale_eq, hnext.symm, hs.cursorY_eq⟩

/-- `k` newlines. -/
theorem exec_rows (hscale : scale = n) (hint : 8 * n < 2 ^ 31) (mem : Mem) (color : ℕ) {k : ℕ}
    (hk : k * (8 * n) < fb.height) :
    ∃ s, exec screenStep (Screen.start fb mem color scale)
        (List.replicate k (.putch '\n'.toUInt8)) = some s ∧ CursorAt fb n 0 (k * (8 * n)) s := by
  induction k with
  | zero => exact ⟨_, rfl, rfl, hscale, rfl, (Nat.zero_mul _).symm⟩
  | succ k ih =>
    have hnext : (k + 1) * (8 * n) = k * (8 * n) + 8 * n := Nat.succ_mul k _
    have hheight := fb.height_lt
    obtain ⟨s, hexec, hs⟩ := ih (by omega)
    have hput : screenPutch '\n'.toUInt8 s = _ := screenPutch_eq hs.scale_eq hint (by decide)
    have hlast : ¬k * (8 * n) + 8 * n ≥ fb.height := by omega
    obtain ⟨mem', hline⟩ := putNewline_fields (8 * n) s
    rw [if_pos rfl, hline, hs.fb_eq, hs.cursorY_eq, Nat.mod_eq_of_lt (by omega), if_neg hlast]
      at hput
    refine ⟨_, (congrArg _ List.replicate_succ').trans (exec_snoc hexec hput), ?_⟩
    exact ⟨rfl, hs.scale_eq, rfl, hnext.symm⟩

/-- The drawn pixels of a run that ends with a printed character. -/
theorem DrawsInside.glyph (h : DrawsInside fb scale) (hint : 8 * n < 2 ^ 31) {mem : Mem} {color : ℕ}
    {calls : List ScreenCall} (hcalls : ∀ call ∈ calls, call.Ascii) {s : Screen}
    (hexec : exec screenStep (Screen.start fb mem color scale) calls = some s)
    (hn : s.fontScale = n) {ch : UInt8} (hch : ch.toNat < 128) (hnl : ch ≠ '\n'.toUInt8) :
    ∀ p ∈ glyphPixels ch s, p.1 < fb.width ∧ p.2 < fb.height := by
  obtain ⟨s', hput, hdrawn⟩ := screenPutch_drawn hn hint hch hnl
  have hascii : ∀ call ∈ calls ++ [.putch ch], call.Ascii := by
    intro call hmem
    obtain hold | hlast := List.mem_append.1 hmem
    · exact hcalls call hold
    · rw [List.mem_singleton.1 hlast]
      exact hch
  have hrun : exec screenStep (Screen.start fb mem color scale) (calls ++ [.putch ch]) = some s' :=
    exec_snoc hexec hput
  obtain ⟨s'', hexec', hinside⟩ := h mem color _ hascii
  obtain rfl := Option.some_inj.1 (hrun.symm.trans hexec')
  intro p hp
  exact hinside p (hdrawn ▸ List.mem_append_right _ hp)

/-- The last row of the underscore is solid. -/
theorem glyphBit_underscore : ∀ col < 8, glyphBit '_'.toUInt8.toNat 7 col = true := by decide

/-- Every row has ink in the underscore or in the number sign. -/
theorem glyphBit_inked : ∀ row < 8,
    glyphBit (if row = 7 then '_' else '#').toUInt8.toNat row 1 = true := by decide

/-- A cell that starts inside and ends behind `w` is the last one. -/
theorem last_cell {c w : ℕ} (hc : 0 < c) (hw : ¬c ∣ w) :
    w / c * c < w ∧ w < w / c * c + c := by
  have hmod : 0 < w % c := Nat.pos_of_ne_zero fun hz => hw (Nat.dvd_of_mod_eq_zero hz)
  have hlt := Nat.mod_lt w hc
  have hdiv := Nat.div_add_mod' w c
  omega

theorem DrawsInside.width_dvd (h : DrawsInside fb scale) (hscale : scale = n) (hpos : 0 < n)
    (hint : 8 * n < 2 ^ 31) : 8 * n ∣ fb.width := by
  by_contra hw
  obtain ⟨hlt, hcell⟩ := last_cell (by omega) hw
  obtain ⟨s, hexec, hs⟩ := exec_columns hscale hint (fun _ => 0) 0 hlt
  have hascii := ascii_replicate (show '_'.toUInt8.toNat < 128 by decide) (fb.width / (8 * n))
  have hwidth := fb.width_lt
  have hbound := fb.height_lt
  -- the underscore of the last cell is drawn in the column behind the last one
  have hmem : (fb.width, 7 * n) ∈ glyphPixels '_'.toUInt8 s := by
    have hx := hs.cursorX_eq
    have hy := hs.cursorY_eq
    apply mem_glyphPixels_of_bit hs.scale_eq
    case hbit =>
      rw [hx, hy, Nat.sub_zero, Nat.mul_div_cancel _ hpos]
      exact glyphBit_underscore _ (Nat.div_lt_of_lt_mul (by omega))
    all_goals omega
  exact (lt_irrefl _) (h.glyph hint hascii hexec hs.scale_eq (by decide) (by decide) _ hmem).1

theorem DrawsInside.height_dvd (h : DrawsInside fb scale) (hscale : scale = n) (hpos : 0 < n)
    (hint : 8 * n < 2 ^ 31) : 8 * n ∣ fb.height := by
  by_contra hh
  obtain ⟨hlt, hcell⟩ := last_cell (by omega) hh
  obtain ⟨s, hexec, hs⟩ := exec_rows hscale hint (fun _ => 0) 0 hlt
  have hascii := ascii_replicate (show '\n'.toUInt8.toNat < 128 by decide) (fb.height / (8 * n))
  have hbound := fb.height_lt
  -- a character with ink in the row below the last one
  have hrow : (fb.height - fb.height / (8 * n) * (8 * n)) / n < 8 := Nat.div_lt_of_lt_mul (by omega)
  have hbit := glyphBit_inked _ hrow
  obtain ⟨ch, hch, hnl, heq⟩ : ∃ ch : UInt8, ch.toNat < 128 ∧ ch ≠ '\n'.toUInt8 ∧
      ch = (if (fb.height - fb.height / (8 * n) * (8 * n)) / n = 7 then '_' else '#').toUInt8 := by
    split
    · exact ⟨_, by decide, by decide, rfl⟩
    · exact ⟨_, by decide, by decide, rfl⟩
  have hmem : (n, fb.height) ∈ glyphPixels ch s := by
    have hx := hs.cursorX_eq
    have hy := hs.cursorY_eq
    apply mem_glyphPixels_of_bit hs.scale_eq
    case hbit =>
      rw [hx, hy, Nat.sub_zero, Nat.div_self hpos, heq]
      exact hbit
    all_goals omega
  exact (lt_irrefl _) (h.glyph hint hascii hexec hs.scale_eq hch hnl _ hmem).2

/-- Otherwise the first character already overflows an `int`. -/
theorem DrawsInside.int_range (h : DrawsInside fb scale) (hscale : scale = n) : 8 * n < 2 ^ 31 := by
  by_contra hbig
  obtain ⟨s, hexec, _⟩ := h (fun _ => 0) 0 [.putch 0] fun call hcall => by
    rw [List.mem_singleton.1 hcall]
    exact (by decide : (0 : UInt8).toNat < 128)
  have hover : ¬(-2 ^ 31 ≤ (fontWidth : ℤ) * scale ∧ (fontWidth : ℤ) * scale < 2 ^ 31) := by
    rw [hscale, fontWidth]
    push_cast
    omega
  have hnone : screenStep (Screen.start fb (fun _ => 0) 0 scale) (.putch 0) = none :=
    if_pos (Or.inr hover)
  rw [exec, hnone] at hexec
  exact absurd hexec.symm (Option.some_ne_none s)

end Outside

/-- **Nothing is drawn outside the framebuffer**, whatever is printed, if and
only if the cell size divides its width and its height (and is an `int`). -/
theorem drawsInside_iff (fb : Framebuffer) {scale : ℤ} (hscale : 1 ≤ scale)
    (hwidth : 8 * scale ≤ fb.width) (hheight : 8 * scale ≤ fb.height) :
    DrawsInside fb scale ↔
      8 * scale < 2 ^ 31 ∧ 8 * scale ∣ fb.width ∧ 8 * scale ∣ fb.height := by
  obtain ⟨n, rfl⟩ := Int.eq_ofNat_of_zero_le (show 0 ≤ scale by omega)
  norm_cast at hscale hwidth hheight ⊢
  constructor
  · intro h
    have hint := h.int_range rfl
    exact ⟨hint, h.width_dvd rfl hscale hint, h.height_dvd rfl hscale hint⟩
  · intro ⟨hint, hw, hh⟩
    exact drawsInside_of_dvd rfl hint hw hh (by omega) (by omega)

def framebuffer800x600 : Framebuffer :=
  ⟨0xFD000000, 800, 600, 3200, 32, 16, 8, 0, by decide, by decide⟩

theorem drawsInside_iff_800x600 :
    DrawsInside framebuffer800x600 1 ↔
      (8 : ℤ) * 1 < 2 ^ 31 ∧ (8 : ℤ) * 1 ∣ 800 ∧ (8 : ℤ) * 1 ∣ 600 :=
  drawsInside_iff framebuffer800x600 (by decide) (by decide) (by decide)

/-- At scale 2, which `kmain` sets, 600 lines are 37 cells and a half. -/
theorem drawsInside_fails : ¬DrawsInside framebuffer800x600 2 := by
  intro h
  have hdvd : 8 * 2 ∣ framebuffer800x600.height := h.height_dvd rfl (by decide) (by decide)
  exact absurd hdvd (by decide)

end Ssos
