import Ssos.Drivers.Screen

/-!
# The console as a character grid

On a 32-bit framebuffer whose sides are whole cells, what `screen_putch` has
drawn is the picture of a scrolling character grid. Drawing never clears a
pixel; the picture is right because the grid's cells from the cursor on are
blank.

## Main result

- `console_renders` — the framebuffer shows the grid after every sequence of characters
-/

namespace Ssos

open ByteMemory PartialRun CharGrid PixelRaster

/-- A framebuffer with 32 bits per pixel, as an object in memory. -/
structure Framebuffer.Mapped (fb : Framebuffer) : Prop where
  bpp : fb.bpp = 32
  pitch : 4 * fb.width ≤ fb.pitch
  nonnull : 0 < fb.address
  stop : fb.address + fb.pitch * fb.height ≤ 2 ^ 64

def Framebuffer.Mapped.raster {fb : Framebuffer} (hfb : fb.Mapped) : Raster :=
  ⟨fb.address, fb.pitch, fb.width, fb.height, hfb.pitch⟩

def Screen.pixel (s : Screen) (x y : ℕ) : ℕ :=
  loadLE 4 s.mem (s.fb.address + s.fb.pitch * y + 4 * x)

/-- The font bit of the grid cell around a pixel, for cells of `8 * n` pixels. -/
def inked (n : ℕ) (cells : ℕ → ℕ → UInt8) (x y : ℕ) : Bool :=
  glyphBit (cells (y / (8 * n)) (x / (8 * n))).toNat (y % (8 * n) / n) (x % (8 * n) / n)

def blankChar : UInt8 := ' '.toUInt8

/-- The grid after the characters. -/
def terminalOf (columns rows : ℕ) (chars : List UInt8) : Terminal UInt8 :=
  chars.foldl (fun t ch => t.feed columns rows blankChar '\n'.toUInt8 ch) (Terminal.empty blankChar)

/-- The screen shows the grid, with its cursor at the grid's. -/
structure Renders (fb : Framebuffer) (color n : ℕ) (s : Screen) (t : Terminal UInt8) : Prop where
  fb_eq : s.fb = fb
  scale_eq : s.fontScale = n
  color_eq : s.color = color
  cursorX_eq : s.cursorX = 8 * n * t.column
  cursorY_eq : s.cursorY = 8 * n * t.row
  pixel_eq : ∀ x < fb.width, ∀ y < fb.height,
    s.pixel x y = if inked n t.cells x y then color else 0

/-! ### Pixels in memory -/

section Memory
variable {fb : Framebuffer} {s : Screen} {x y : ℕ}

theorem Screen.pixel_eq (hfb : fb.Mapped) (hs : s.fb = fb) (x y : ℕ) :
    s.pixel x y = hfb.raster.pixel s.mem x y := by
  subst hs
  rfl

/-- `draw_pixel` on a visible pixel. -/
theorem drawPixel_mem (hfb : fb.Mapped) (hs : s.fb = fb) {p : ℕ × ℕ} (hx : p.1 < fb.width)
    (hy : p.2 < fb.height) : (drawPixel s p).mem = hfb.raster.paint s.color s.mem p := by
  subst hs
  have hend : hfb.raster.addr p.1 p.2 + 4 ≤ s.fb.address + s.fb.pitch * s.fb.height :=
    Raster.addr_lt_row hx hy
  have hstop := hfb.stop
  have haddr : (s.fb.address + s.fb.pitch * p.2 + s.fb.bpp / 8 * p.1) % 2 ^ 64 =
      hfb.raster.addr p.1 p.2 := by
    rw [hfb.bpp]
    exact Nat.mod_eq_of_lt (by show hfb.raster.addr p.1 p.2 < 2 ^ 64; omega)
  simp only [drawPixel, haddr]
  rfl

theorem foldl_drawPixel_mem (hfb : fb.Mapped) (hs : s.fb = fb) {ps : List (ℕ × ℕ)}
    (hps : ∀ p ∈ ps, p.1 < fb.width ∧ p.2 < fb.height) :
    (ps.foldl drawPixel s).mem = ps.foldl (hfb.raster.paint s.color) s.mem := by
  induction ps generalizing s with
  | nil => rfl
  | cons p ps ih =>
    obtain ⟨hx, hy⟩ := hps p List.mem_cons_self
    rw [List.foldl_cons, List.foldl_cons, ← drawPixel_mem hfb hs hx hy]
    exact ih (s := drawPixel s p) hs fun q hq => hps q (List.mem_cons_of_mem p hq)

/-- Scrolling by whole pixel rows. -/
theorem screenScroll_scrolled (hfb : fb.Mapped) (hs : s.fb = fb) {k : ℕ} (hk : k ≤ fb.height) :
    hfb.raster.Scrolled k s.mem (screenScroll k s).mem := by
  subst hs
  have hstop := hfb.stop
  have hnonnull := hfb.nonnull
  have hheight := s.fb.height_lt
  have hsplit : s.fb.pitch * (s.fb.height - k) + s.fb.pitch * k = s.fb.pitch * s.fb.height := by
    rw [← Nat.mul_add, Nat.sub_add_cancel hk]
  have hrows : (s.fb.height + 2 ^ 64 - k) % 2 ^ 64 = s.fb.height - k := by
    have hshift : s.fb.height + 2 ^ 64 - k = s.fb.height - k + 2 ^ 64 := by omega
    rw [hshift, Nat.add_mod_right, Nat.mod_eq_of_lt (by omega)]
  have hbytes : (s.fb.height - k) * s.fb.pitch % 2 ^ 64 = s.fb.pitch * (s.fb.height - k) := by
    rw [Nat.mul_comm, Nat.mod_eq_of_lt (by omega)]
  have hzeros : k * s.fb.pitch % 2 ^ 64 = s.fb.pitch * k := by
    rw [Nat.mul_comm, Nat.mod_eq_of_lt (by omega)]
  have hmem : (screenScroll k s).mem =
      memset (memmove s.mem s.fb.address ((s.fb.address + k * s.fb.pitch) % 2 ^ 64)
        (s.fb.pitch * (s.fb.height - k)))
        ((s.fb.address + s.fb.pitch * (s.fb.height - k)) % 2 ^ 64) 0 (s.fb.pitch * k) := by
    simp only [screenScroll, hrows, hbytes, hzeros]
  rw [Nat.mul_comm k] at hmem
  constructor
  · intro a hle hlt
    have hlt' : a < s.fb.address + s.fb.pitch * (s.fb.height - k) := hlt
    have hle' : s.fb.address ≤ a := hle
    -- the bytes that are cleared start where the bytes that are moved end
    have hbelow : ¬((s.fb.address + s.fb.pitch * (s.fb.height - k)) % 2 ^ 64 ≤ a ∧
        a < (s.fb.address + s.fb.pitch * (s.fb.height - k)) % 2 ^ 64 + s.fb.pitch * k) := by
      obtain hzero | hpos := Nat.eq_zero_or_pos (s.fb.pitch * k)
      · omega
      · rw [Nat.mod_eq_of_lt (by omega)]
        omega
    rw [hmem, memset_apply, if_neg hbelow, memmove_apply, if_pos ⟨hle', hlt'⟩,
      Nat.mod_eq_of_lt (by omega : s.fb.address + s.fb.pitch * k < 2 ^ 64)]
    have hsource : s.fb.address + s.fb.pitch * k + (a - s.fb.address) = a + s.fb.pitch * k := by
      omega
    exact congrArg s.mem hsource
  · intro a hle hlt
    have hle' : s.fb.address + s.fb.pitch * (s.fb.height - k) ≤ a := hle
    have hlt' : a < s.fb.address + s.fb.pitch * s.fb.height := hlt
    rw [hmem, memset_apply, Nat.mod_eq_of_lt (by omega), if_pos (by omega)]

end Memory

/-! ### The picture of a grid -/

section Picture
variable {fb : Framebuffer} {color n columns rows : ℕ} {s : Screen} {t : Terminal UInt8}

/-- A pixel lies in a cell when the quotients by the cell size are the cell's. -/
theorem div_eq_iff_cell {c i x : ℕ} (hc : 0 < c) :
    x / c = i ↔ c * i ≤ x ∧ x < c * i + c := by
  rw [Nat.div_eq_iff hc]
  constructor
  · intro ⟨hle, hlt⟩
    rw [Nat.mul_comm] at hle hlt
    omega
  · intro ⟨hle, hlt⟩
    rw [Nat.mul_comm i]
    omega

theorem sub_cell {c i x : ℕ} (h : x / c = i) : x - c * i = x % c := by
  subst h
  rw [Nat.mod_def]

/-- Blank cells have no ink. -/
theorem glyphBit_blank : ∀ row < 8, ∀ col < 8, glyphBit blankChar.toNat row col = false := by decide

theorem inked_blank {cells : ℕ → ℕ → UInt8} (hn : 0 < n) {x y : ℕ}
    (hblank : cells (y / (8 * n)) (x / (8 * n)) = blankChar) : inked n cells x y = false := by
  have hpart : ∀ k : ℕ, k % (8 * n) / n < 8 := by
    intro k
    have hlt := Nat.mod_lt k (show 0 < 8 * n by omega)
    exact Nat.div_lt_of_lt_mul (by omega)
  rw [inked, hblank]
  exact glyphBit_blank _ (hpart y) _ (hpart x)

/-- A framebuffer of whole cells. -/
structure Framebuffer.Cells (fb : Framebuffer) (n columns rows : ℕ) : Prop where
  width_eq : fb.width = 8 * n * columns
  height_eq : fb.height = 8 * n * rows

/-- The cells before `w` cover the pixels before `c * w`. -/
theorem cell_le {c i w : ℕ} (h : i < w) : c * i + c ≤ c * w := by
  have hle : c * (i + 1) ≤ c * w := Nat.mul_le_mul_left c h
  rwa [Nat.mul_add, Nat.mul_one] at hle

theorem cell_ge_iff {c i w : ℕ} (hc : 0 < c) : c * i + c ≥ c * w ↔ w ≤ i + 1 := by
  rw [show c * i + c = c * (i + 1) from rfl, ge_iff_le, Nat.mul_le_mul_left_iff hc]

/-- A glyph in the cell at the cursor. -/
theorem Renders.mem_glyphPixels (hcells : fb.Cells n columns rows) (hn : 0 < n)
    (hs : Renders fb color n s t) (ht : t.Ready columns rows blankChar) (ch : UInt8) {x y : ℕ} :
    (x, y) ∈ glyphPixels ch s ↔
      (y / (8 * n) = t.row ∧ x / (8 * n) = t.column) ∧
        glyphBit ch.toNat (y % (8 * n) / n) (x % (8 * n) / n) = true := by
  have hwidth := fb.width_lt
  have hheight := fb.height_lt
  have hx : 8 * n * t.column + 8 * n ≤ 8 * n * columns := cell_le ht.column_lt
  have hy : 8 * n * t.row + 8 * n ≤ 8 * n * rows := cell_le ht.row_lt
  rw [← hcells.width_eq] at hx
  rw [← hcells.height_eq] at hy
  have hc : 0 < 8 * n := by omega
  rw [mem_glyphPixels_iff hs.scale_eq (by rw [hs.cursorX_eq]; omega) (by rw [hs.cursorY_eq]; omega),
    hs.cursorX_eq, hs.cursorY_eq, ← div_eq_iff_cell hc, ← div_eq_iff_cell hc]
  constructor
  · intro ⟨hcol, hrow, hbit⟩
    rw [sub_cell hcol, sub_cell hrow] at hbit
    exact ⟨⟨hrow, hcol⟩, hbit⟩
  · intro ⟨⟨hrow, hcol⟩, hbit⟩
    rw [sub_cell hcol, sub_cell hrow]
    exact ⟨hcol, hrow, hbit⟩

/-- Drawing into the blank cell at the cursor shows the character there. -/
theorem Renders.write (hfb : fb.Mapped) (hcells : fb.Cells n columns rows) (hn : 0 < n)
    (hcolor : color < 2 ^ 32) (hs : Renders fb color n s t)
    (ht : t.Ready columns rows blankChar) (ch : UInt8) :
    Renders fb color n (drawGlyph ch s) (t.write ch) := by
  have hvisible : ∀ p ∈ glyphPixels ch s, p.1 < fb.width ∧ p.2 < fb.height := by
    intro p hp
    obtain ⟨⟨hrow, hcol⟩, _⟩ := (hs.mem_glyphPixels hcells hn ht ch).1 hp
    have hc : 0 < 8 * n := by omega
    rw [hcells.width_eq, hcells.height_eq, Nat.mul_comm, Nat.mul_comm (8 * n),
      ← Nat.div_lt_iff_lt_mul hc, ← Nat.div_lt_iff_lt_mul hc, hcol, hrow]
    exact ⟨ht.column_lt, ht.row_lt⟩
  have hmem : (drawGlyph ch s).mem = _ := foldl_drawPixel_mem hfb hs.fb_eq hvisible
  have hfields : (drawGlyph ch s).fb = fb ∧ (drawGlyph ch s).fontScale = n ∧
      (drawGlyph ch s).color = color ∧ (drawGlyph ch s).cursorX = 8 * n * t.column ∧
      (drawGlyph ch s).cursorY = 8 * n * t.row := by
    obtain ⟨mem, hdraw⟩ := foldl_drawPixel (glyphPixels ch s) s
    rw [drawGlyph, hdraw]
    exact ⟨hs.fb_eq, hs.scale_eq, hs.color_eq, hs.cursorX_eq, hs.cursorY_eq⟩
  obtain ⟨hdrawnFb, hscale, hcol, hcursorX, hcursorY⟩ := hfields
  refine ⟨hdrawnFb, hscale, hcol, hcursorX, hcursorY, ?_⟩
  intro x hx y hy
  have hpixel := hs.pixel_eq x hx y hy
  rw [Screen.pixel_eq hfb hs.fb_eq] at hpixel
  rw [Screen.pixel_eq hfb hdrawnFb, hmem, hs.color_eq,
    Raster.pixel_foldl_paint hcolor hx _ fun p hp => (hvisible p hp).1, hpixel]
  by_cases hcell : y / (8 * n) = t.row ∧ x / (8 * n) = t.column
  · -- drawing only sets pixels: the new cell is right because it was blank
    have hblank : inked n t.cells x y = false :=
      inked_blank hn (ht.blank_from _ _ (Or.inr ⟨hcell.1, hcell.2.ge⟩))
    have hnew : inked n (t.write ch).cells x y =
        glyphBit ch.toNat (y % (8 * n) / n) (x % (8 * n) / n) := by
      simp only [inked, Terminal.write, if_pos hcell]
    rw [hblank, hnew, if_neg Bool.false_ne_true]
    simp only [hs.mem_glyphPixels hcells hn ht ch, hcell, and_self, true_and]
  · have hold : inked n (t.write ch).cells x y = inked n t.cells x y := by
      simp only [inked, Terminal.write, if_neg hcell]
    rw [hold, if_neg fun hp => hcell ((hs.mem_glyphPixels hcells hn ht ch).1 hp).1]

/-- A line feed, with or without scrolling. -/
theorem Renders.lineFeed (hfb : fb.Mapped) (hcells : fb.Cells n columns rows) (hn : 0 < n)
    (hsmall : 8 * n < 2 ^ 32) (hs : Renders fb color n s t) (hrow : t.row < rows) :
    Renders fb color n (putNewline (8 * n) s) (t.lineFeed rows blankChar) := by
  have hheight := fb.height_lt
  have hy : 8 * n * t.row + 8 * n ≤ fb.height := hcells.height_eq ▸ cell_le hrow
  have hc : 0 < 8 * n := by omega
  have hlast : (s.cursorY + 8 * n) % 2 ^ 64 ≥ s.fb.height ↔ ¬t.row + 1 < rows := by
    rw [hs.cursorY_eq, hs.fb_eq, Nat.mod_eq_of_lt (by omega), hcells.height_eq, cell_ge_iff hc,
      not_lt]
  rw [putNewline, Terminal.lineFeed]
  by_cases hnext : t.row + 1 < rows
  · rw [if_pos hnext]
    simp only [if_neg (not_imp_not.2 hlast.1 (not_not_intro hnext))]
    refine ⟨hs.fb_eq, hs.scale_eq, hs.color_eq, (Nat.mul_zero _).symm, ?_, hs.pixel_eq⟩
    rw [hs.cursorY_eq, Nat.mod_eq_of_lt (by omega)]
    rfl
  · rw [if_neg hnext]
    simp only [if_pos (hlast.2 hnext), Nat.mod_eq_of_lt hsmall]
    refine ⟨hs.fb_eq, hs.scale_eq, hs.color_eq, (Nat.mul_zero _).symm, hs.cursorY_eq, ?_⟩
    intro x hx y hyvis
    have hscroll := screenScroll_scrolled (s := { s with cursorX := 0 }) hfb hs.fb_eq
      (show 8 * n ≤ fb.height by omega)
    have hfb' : (screenScroll (8 * n) { s with cursorX := 0 }).fb = fb := hs.fb_eq
    rw [Screen.pixel_eq hfb hfb', hscroll.pixel hx hyvis]
    have hdiv : (y + 8 * n) / (8 * n) = y / (8 * n) + 1 := Nat.add_div_right y hc
    have hin : y + 8 * n < hfb.raster.height ↔ y / (8 * n) + 1 < rows := by
      show y + 8 * n < fb.height ↔ _
      rw [hcells.height_eq, ← hdiv, Nat.div_lt_iff_lt_mul hc, Nat.mul_comm rows]
    by_cases hkept : y / (8 * n) + 1 < rows
    · have hpixel := hs.pixel_eq x hx (y + 8 * n) (hin.2 hkept)
      rw [Screen.pixel_eq hfb hs.fb_eq] at hpixel
      rw [if_pos (hin.2 hkept), hpixel]
      simp only [inked, hdiv, Nat.add_mod_right, if_pos hkept]
    · rw [if_neg fun h => hkept (hin.1 h), inked_blank hn (if_neg hkept), if_neg Bool.false_ne_true]

/-- **Step lemma.** -/
theorem Renders.feed (hfb : fb.Mapped) (hcells : fb.Cells n columns rows) (hn : 0 < n)
    (hcolor : color < 2 ^ 32) (hint : 8 * n < 2 ^ 31) (hs : Renders fb color n s t)
    (ht : t.Ready columns rows blankChar) {ch : UInt8} (hch : ch.toNat < 128) :
    ∃ s', screenPutch ch s = some s' ∧
      Renders fb color n s' (t.feed columns rows blankChar '\n'.toUInt8 ch) := by
  have hwidth := fb.width_lt
  have hc : 0 < 8 * n := by omega
  have hx : 8 * n * t.column + 8 * n ≤ fb.width := hcells.width_eq ▸ cell_le ht.column_lt
  have hdrawn := hs.write hfb hcells hn hcolor ht ch
  have hwrap : (s.cursorX + 8 * n) % 2 ^ 64 ≥ s.fb.width ↔ ¬(t.write ch).column + 1 < columns := by
    rw [hs.cursorX_eq, hs.fb_eq, Nat.mod_eq_of_lt (by omega), hcells.width_eq, cell_ge_iff hc, not_lt]
    rfl
  refine ⟨_, screenPutch_eq hs.scale_eq hint hch, ?_⟩
  rw [Terminal.feed]
  by_cases hnl : ch = '\n'.toUInt8
  · rw [if_pos hnl, if_pos hnl]
    exact hs.lineFeed hfb hcells hn (by omega) ht.row_lt
  · rw [if_neg hnl, if_neg hnl, Terminal.advance]
    by_cases hnext : (t.write ch).column + 1 < columns
    · rw [if_pos hnext, if_neg (not_imp_not.2 hwrap.1 (not_not_intro hnext))]
      refine ⟨hdrawn.fb_eq, hdrawn.scale_eq, hdrawn.color_eq, ?_, hdrawn.cursorY_eq, hdrawn.pixel_eq⟩
      rw [hs.cursorX_eq, Nat.mod_eq_of_lt (by omega)]
      rfl
    · rw [if_neg hnext, if_pos (hwrap.2 hnext)]
      exact hdrawn.lineFeed hfb hcells hn (by omega) ht.row_lt

/-- The cell size of a mapped framebuffer is an `int`. -/
theorem Framebuffer.Mapped.cell_lt (hfb : fb.Mapped) (hw : 8 * n ≤ fb.width)
    (hh : 8 * n ≤ fb.height) : 8 * n < 2 ^ 31 := by
  by_contra hbig
  have harea : 2 ^ 33 * 2 ^ 31 ≤ fb.pitch * fb.height :=
    Nat.mul_le_mul (by have := hfb.pitch; omega) (by omega)
  have hstop := hfb.stop
  have hnonnull := hfb.nonnull
  omega

/-- **Run lemma.** -/
theorem Renders.foldl_feed (hfb : fb.Mapped) (hcells : fb.Cells n columns rows) (hn : 0 < n)
    (hcolor : color < 2 ^ 32) (hint : 8 * n < 2 ^ 31) (hs : Renders fb color n s t)
    (ht : t.Ready columns rows blankChar) {chars : List UInt8}
    (hchars : ∀ ch ∈ chars, ch.toNat < 128) :
    ∃ s', exec (fun s ch => screenPutch ch s) s chars = some s' ∧
      Renders fb color n s'
        (chars.foldl (fun t ch => t.feed columns rows blankChar '\n'.toUInt8 ch) t) := by
  induction chars generalizing s t with
  | nil => exact ⟨s, rfl, hs⟩
  | cons ch chars ih =>
    obtain ⟨s₁, hput, hs₁⟩ := hs.feed hfb hcells hn hcolor hint ht (hchars ch List.mem_cons_self)
    rw [exec_cons hput, List.foldl_cons]
    exact ih hs₁ (ht.feed _ ch) fun ch' hmem => hchars ch' (List.mem_cons_of_mem ch hmem)

/-- A cleared framebuffer shows the empty grid. -/
theorem renders_start (hn : 0 < n) {mem : Mem} (hzero : ∀ a, fb.address ≤ a →
    a < fb.address + fb.pitch * fb.height → mem a = 0) (hfb : fb.Mapped) :
    Renders fb color n (Screen.start fb mem color n) (Terminal.empty blankChar) := by
  refine ⟨rfl, rfl, rfl, (Nat.mul_zero _).symm, (Nat.mul_zero _).symm, ?_⟩
  intro x hx y hy
  have hend : hfb.raster.addr x y + 4 ≤ fb.address + fb.pitch * fb.height :=
    Raster.addr_lt_row hx hy
  rw [inked_blank hn rfl, if_neg Bool.false_ne_true]
  apply loadLE_eq_zero
  intro a hle hlt
  have hle' : hfb.raster.addr x y ≤ a := hle
  have hlt' : a < hfb.raster.addr x y + 4 := hlt
  have hlow : fb.address ≤ hfb.raster.addr x y := by
    rw [Raster.addr, Nat.add_assoc]
    exact Nat.le_add_right _ _
  exact hzero a (hlow.trans hle') (hlt'.trans_le hend)

end Picture

/-- **The console shows a scrolling character grid**: after every sequence of
ASCII characters a visible pixel has the screen's color exactly where the glyph
of its cell has ink. -/
theorem console_renders {fb : Framebuffer} (hfb : fb.Mapped) {scale : ℕ} (hscale : 1 ≤ scale)
    (hw : 8 * scale ∣ fb.width) (hwidth : 0 < fb.width) (hh : 8 * scale ∣ fb.height)
    (hheight : 0 < fb.height) {color : ℕ} (hcolor : color < 2 ^ 32) {mem : Mem}
    (hzero : ∀ a, fb.address ≤ a → a < fb.address + fb.pitch * fb.height → mem a = 0)
    {chars : List UInt8} (hchars : ∀ ch ∈ chars, ch.toNat < 128) :
    ∃ s, exec (fun s ch => screenPutch ch s) (Screen.start fb mem color scale) chars = some s ∧
      ∀ x < fb.width, ∀ y < fb.height,
        s.pixel x y =
          if inked scale (terminalOf (fb.width / (8 * scale)) (fb.height / (8 * scale)) chars).cells
            x y then color else 0 := by
  have hcells : fb.Cells scale (fb.width / (8 * scale)) (fb.height / (8 * scale)) :=
    ⟨(Nat.mul_div_cancel' hw).symm, (Nat.mul_div_cancel' hh).symm⟩
  have hwide := Nat.le_of_dvd hwidth hw
  have hhigh := Nat.le_of_dvd hheight hh
  have hready : (Terminal.empty blankChar).Ready (fb.width / (8 * scale))
      (fb.height / (8 * scale)) blankChar :=
    Terminal.ready_empty (Nat.div_pos hwide (by omega)) (Nat.div_pos hhigh (by omega))
  obtain ⟨s, hexec, hs⟩ := (renders_start hscale hzero hfb).foldl_feed hfb hcells hscale hcolor
    (hfb.cell_lt hwide hhigh) hready hchars
  exact ⟨s, hexec, hs.pixel_eq⟩

def framebuffer16x16 : Framebuffer :=
  ⟨0xFD000000, 16, 16, 80, 32, 16, 8, 0, by decide, by decide⟩

/-- Four letters and a newline on two columns and two rows. -/
theorem console_renders_16x16 :
    ∃ s, exec (fun s ch => screenPutch ch s) (Screen.start framebuffer16x16 (fun _ => 0) 0xFFFFFF 1)
        [65, 66, 67, 10, 68] = some s ∧
      ∀ x < framebuffer16x16.width, ∀ y < framebuffer16x16.height,
        s.pixel x y =
          if inked 1 (terminalOf 2 2 [65, 66, 67, 10, 68]).cells x y then 0xFFFFFF else 0 :=
  console_renders
    ⟨rfl, by decide, by decide, by decide⟩ le_rfl (by decide) (by decide) (by decide) (by decide)
    (by decide) (fun _ _ _ => rfl) (by simp)

end Ssos
