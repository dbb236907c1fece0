import Ssos.Drivers.ScreenGrid

/-!
# Text on the screen

`screen_print_addr` of `drivers/screen.c`, and printing as a whole: what a
function that prints does to the character grid is to feed it a text.

## Main results

- `readAddr_addrText` — a printed address can be read back
- `Prints.bind` — texts are printed one behind the other
-/

namespace Ssos

open CharGrid PartialRun

/-- The bytes of a string literal. -/
def text (str : String) : List UInt8 := str.toList.map Char.toUInt8

/-- ASCII characters, none of which ends the string. -/
def Plain (chars : List UInt8) : Prop := ∀ ch ∈ chars, ch ≠ 0 ∧ ch.toNat < 128

instance (chars : List UInt8) : Decidable (Plain chars) :=
  decidable_of_iff (chars.all fun ch => decide (ch ≠ 0 ∧ ch.toNat < 128))
    (List.all_eq_true.trans (forall₂_congr fun _ _ => decide_eq_true_iff))

/-- `digit < 10 ? digit + '0' : digit - 10 + 'a'`. -/
def hexDigit (digit : ℕ) : UInt8 :=
  UInt8.ofNat (if digit < 10 then digit + '0'.toNat else digit - 10 + 'a'.toNat)

/-- The contents of `buff`, the lowest digit first. -/
def addrDigits (addr : ℕ) : List UInt8 :=
  if addr = 0 then [] else hexDigit (addr % 16) :: addrDigits (addr / 16)

def screenPrintAddr (addr : ℕ) (s : Screen) : Option Screen :=
  (screenPrint (text "0x") s).bind fun s =>
    if addr = 0 then screenPutch '0'.toUInt8 s
    else exec (fun s ch => screenPutch ch s) s (addrDigits addr).reverse

/-! ### Reading addresses -/

/-- What `screen_print_addr` shows. -/
def addrText (addr : ℕ) : List UInt8 :=
  text "0x" ++ if addr = 0 then ['0'.toUInt8] else (addrDigits addr).reverse

def digitValue (ch : UInt8) : ℕ :=
  if ch.toNat < 'a'.toNat then ch.toNat - '0'.toNat else ch.toNat - 'a'.toNat + 10

/-- The number behind the two characters `0x`. -/
def readAddr (chars : List UInt8) : ℕ :=
  (chars.drop 2).foldl (fun n ch => 16 * n + digitValue ch) 0

theorem digitValue_hexDigit : ∀ digit < 16, digitValue (hexDigit digit) = digit := by decide

theorem readDigits_addrDigits (addr : ℕ) :
    (addrDigits addr).reverse.foldl (fun n ch => 16 * n + digitValue ch) 0 = addr := by
  induction addr using Nat.strong_induction_on with
  | _ addr ih =>
    rw [addrDigits]
    by_cases hz : addr = 0
    · rw [if_pos hz, hz]
      rfl
    · rw [if_neg hz, List.reverse_cons, List.foldl_append, ih (addr / 16) (by omega),
        List.foldl_cons, List.foldl_nil, digitValue_hexDigit _ (Nat.mod_lt _ (by decide))]
      omega

/-- **Printed addresses are read back.** -/
theorem readAddr_addrText (addr : ℕ) : readAddr (addrText addr) = addr := by
  have hdrop : (addrText addr).drop 2 =
      if addr = 0 then ['0'.toUInt8] else (addrDigits addr).reverse := rfl
  rw [readAddr, hdrop]
  by_cases hz : addr = 0
  · rw [if_pos hz, hz]
    rfl
  · rw [if_neg hz]
    exact readDigits_addrDigits addr

theorem addrText_injective : Function.Injective addrText :=
  Function.LeftInverse.injective readAddr_addrText

/-- The characters of a printed address. -/
theorem hexDigit_range : ∀ digit < 16, 48 ≤ (hexDigit digit).toNat ∧ (hexDigit digit).toNat < 128 := by
  decide

theorem mem_addrDigits {addr : ℕ} {ch : UInt8} (h : ch ∈ addrDigits addr) :
    48 ≤ ch.toNat ∧ ch.toNat < 128 := by
  induction addr using Nat.strong_induction_on with
  | _ addr ih =>
    rw [addrDigits] at h
    by_cases hz : addr = 0
    · rw [if_pos hz] at h
      exact absurd h List.not_mem_nil
    · rw [if_neg hz] at h
      obtain rfl | h := List.mem_cons.1 h
      · exact hexDigit_range _ (Nat.mod_lt _ (by decide))
      · exact ih (addr / 16) (by omega) h

theorem mem_addrText {addr : ℕ} {ch : UInt8} (h : ch ∈ addrText addr) :
    48 ≤ ch.toNat ∧ ch.toNat < 128 := by
  have hprefix : ∀ ch ∈ ['0'.toUInt8, 'x'.toUInt8], 48 ≤ ch.toNat ∧ ch.toNat < 128 :=
    List.forall_mem_cons.2 ⟨by decide, List.forall_mem_singleton.2 (by decide)⟩
  obtain h | h := List.mem_append.1 h
  · exact hprefix ch h
  · by_cases hz : addr = 0
    · rw [if_pos hz] at h
      obtain rfl := List.mem_singleton.1 h
      decide
    · rw [if_neg hz] at h
      exact mem_addrDigits (List.mem_reverse.1 h)

/-! ### Printing -/

/-- A console with cells of `8 * n` pixels. -/
structure Framebuffer.Console (fb : Framebuffer) (color n columns rows : ℕ) : Prop where
  mapped : fb.Mapped
  cells : fb.Cells n columns rows
  scale_pos : 0 < n
  color_lt : color < 2 ^ 32
  cell_lt : 8 * n < 2 ^ 31

/-- The screen shows the grid, which has room from the cursor on. -/
structure ShowsGrid (fb : Framebuffer) (color n columns rows : ℕ) (s : Screen) (t : Terminal UInt8) :
    Prop where
  renders : Renders fb color n s t
  ready : t.Ready columns rows blankChar

/-- The grid after a text. -/
def feedAll (columns rows : ℕ) (t : Terminal UInt8) (chars : List UInt8) : Terminal UInt8 :=
  chars.foldl (fun t ch => t.feed columns rows blankChar '\n'.toUInt8 ch) t

/-- The function prints the text on every console. -/
def Prints (f : Screen → Option Screen) (chars : List UInt8) : Prop :=
  ∀ fb color n columns rows s t, fb.Console color n columns rows → ShowsGrid fb color n columns rows s t →
    ∃ s', f s = some s' ∧ ShowsGrid fb color n columns rows s' (feedAll columns rows t chars)

theorem ready_feedAll {columns rows : ℕ} {t : Terminal UInt8} (ht : t.Ready columns rows blankChar)
    (chars : List UInt8) : (feedAll columns rows t chars).Ready columns rows blankChar := by
  induction chars generalizing t with
  | nil => exact ht
  | cons ch chars ih => exact ih (ht.feed _ ch)

section Prints
variable {f g : Screen → Option Screen} {chars chars' : List UInt8}

theorem Prints.nil : Prints some [] := fun _ _ _ _ _ s _ _ hs => ⟨s, rfl, hs⟩

/-- One function behind the other. -/
theorem Prints.bind (hf : Prints f chars) (hg : Prints g chars') :
    Prints (fun s => (f s).bind g) (chars ++ chars') := by
  intro fb color n columns rows s t hconsole hs
  obtain ⟨s₁, hs₁, hshows₁⟩ := hf _ _ _ _ _ _ _ hconsole hs
  obtain ⟨s₂, hs₂, hshows₂⟩ := hg _ _ _ _ _ _ _ hconsole hshows₁
  refine ⟨s₂, (congrArg (·.bind g) hs₁).trans hs₂, ?_⟩
  rw [feedAll, List.foldl_append]
  exact hshows₂

theorem prints_putch {ch : UInt8} (hch : ch.toNat < 128) : Prints (screenPutch ch) [ch] := by
  intro fb color n columns rows s t hconsole hs
  obtain ⟨s', hput, hs'⟩ := hs.renders.feed hconsole.mapped hconsole.cells hconsole.scale_pos
    hconsole.color_lt hconsole.cell_lt hs.ready hch
  exact ⟨s', hput, hs', hs.ready.feed _ ch⟩

theorem prints_putchs (hchars : ∀ ch ∈ chars, ch.toNat < 128) :
    Prints (fun s => exec (fun s ch => screenPutch ch s) s chars) chars := by
  intro fb color n columns rows s t hconsole hs
  obtain ⟨s', hexec, hs'⟩ := hs.renders.foldl_feed hconsole.mapped hconsole.cells hconsole.scale_pos
    hconsole.color_lt hconsole.cell_lt hs.ready hchars
  exact ⟨s', hexec, hs', ready_feedAll hs.ready chars⟩

/-- A string without a zero byte is printed as a whole. -/
theorem screenPrint_eq_exec (hzero : ∀ ch ∈ chars, ch ≠ 0) (s : Screen) :
    screenPrint chars s = exec (fun s ch => screenPutch ch s) s chars := by
  induction chars generalizing s with
  | nil => rfl
  | cons ch chars ih =>
    obtain ⟨hch, hrest⟩ := List.forall_mem_cons.1 hzero
    rw [screenPrint, if_neg hch, exec]
    cases hput : screenPutch ch s with
    | none => rfl
    | some s₁ => exact ih hrest s₁

theorem prints_print (hchars : Plain chars) :
    Prints (screenPrint chars) chars := by
  have heq : screenPrint chars = fun s => exec (fun s ch => screenPutch ch s) s chars := by
    funext s
    exact screenPrint_eq_exec (fun ch hch => (hchars ch hch).1) s
  rw [heq]
  exact prints_putchs fun ch hch => (hchars ch hch).2

theorem prints_printAddr (addr : ℕ) : Prints (screenPrintAddr addr) (addrText addr) := by
  have hprefix : Prints (screenPrint (text "0x")) (text "0x") := prints_print (by decide)
  refine hprefix.bind ?_
  by_cases hz : addr = 0
  · simp only [if_pos hz]
    exact prints_putch (by decide)
  · simp only [if_neg hz]
    exact prints_putchs fun ch hch => (mem_addrDigits (List.mem_reverse.1 hch)).2

end Prints

end Ssos
