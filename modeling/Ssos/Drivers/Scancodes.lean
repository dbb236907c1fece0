import Ssos.Foundations.ByteMemory

/-!
# Scancodes

`keyboard_translate_scancode` of `drivers/keyboard.c`. The static variables of
the function are its state; the two `switch` statements are tables from codes
to keys.
-/

namespace Ssos

/-- `key_t`. -/
inductive Key
  | none | unknown | f1 | f2 | f3 | f4 | f5 | f6 | f7 | f8 | f9 | f10 | f11 | f12 | leftShift
  | rightShift | leftCtrl | rightCtrl | leftAlt | rightAlt | leftGui | rightGui | a | b | c | d
  | e | f | g | h | i | j | k | l | m | n | o | p | q | r | s | t | u | v | w | x | y | z
  | digit1 | digit2 | digit3 | digit4 | digit5 | digit6 | digit7 | digit8 | digit9 | zero
  | minus | equal | leftBracket | rightBracket | backslash | semicolon | apostrophe | grave
  | comma | period | slash | capslock | numlock | scrolllock | tab | enter | space | backspace
  | escape | cursorLeft | cursorRight | cursorUp | cursorDown | home | end | insert | delete
  | pageUp | pageDown | printScreen | kp0 | kp1 | kp2 | kp3 | kp4 | kp5 | kp6 | kp7 | kp8 | kp9
  | kpPeriod | kpPlus | kpMinus | kpAsterisk | kpSlash | kpEnter | playPause | stop
  | previousTrack | nextTrack | mute | volumeDown | volumeUp | calculator | mediaSelect | sleep
  | wake | power | myComputer | email | wwwHome | wwwBack | wwwForward | wwwRefresh | wwwSearch
  | wwwStop | wwwFavorites | apps
  deriving DecidableEq, Repr

/-- `keyboard_event_t`. -/
structure KeyboardEvent where
  keycode : Key
  isReleased : Bool
  deriving DecidableEq, Repr

/-- The `switch` for codes behind `0xE0`. The cases `0x12` and `0x7C` also set
a flag. -/
def extendedTable : List (UInt8 × Key) :=
  [ (0x10, .wwwSearch), (0x11, .rightAlt), (0x12, .none), (0x14, .rightCtrl),
    (0x15, .previousTrack), (0x18, .wwwFavorites), (0x1F, .leftGui), (0x20, .wwwRefresh),
    (0x21, .volumeDown), (0x23, .mute), (0x27, .rightGui), (0x28, .wwwStop),
    (0x2B, .calculator), (0x2F, .apps), (0x30, .wwwForward), (0x32, .volumeUp),
    (0x34, .playPause), (0x37, .power), (0x38, .wwwBack), (0x3A, .wwwHome), (0x3B, .stop),
    (0x3F, .sleep), (0x40, .myComputer), (0x48, .email), (0x4A, .kpSlash), (0x4D, .nextTrack),
    (0x50, .mediaSelect), (0x5A, .kpEnter), (0x5E, .wake), (0x69, .end), (0x6B, .cursorLeft),
    (0x6C, .home), (0x70, .insert), (0x71, .delete), (0x72, .cursorDown), (0x74, .cursorRight),
    (0x75, .cursorUp), (0x7A, .pageDown), (0x7C, .none), (0x7D, .pageUp)]

/-- The `switch` for all other codes. -/
def plainTable : List (UInt8 × Key) :=
  [ (0x01, .f9), (0x03, .f5), (0x04, .f3), (0x05, .f1), (0x06, .f2), (0x07, .f12), (0x09, .f10),
    (0x0A, .f8), (0x0B, .f6), (0x0C, .f4), (0x0D, .tab), (0x0E, .grave), (0x11, .leftAlt),
    (0x12, .leftShift), (0x14, .leftCtrl), (0x15, .q), (0x16, .digit1), (0x1A, .z), (0x1B, .s),
    (0x1C, .a), (0x1D, .w), (0x1E, .digit2), (0x21, .c), (0x22, .x), (0x23, .d), (0x24, .e),
    (0x25, .digit4), (0x26, .digit3), (0x29, .space), (0x2A, .v), (0x2B, .f), (0x2C, .t),
    (0x2D, .r), (0x2E, .digit5), (0x31, .n), (0x32, .b), (0x33, .h), (0x34, .g), (0x35, .y),
    (0x36, .digit6), (0x3A, .m), (0x3B, .j), (0x3C, .u), (0x3D, .digit7), (0x3E, .digit8),
    (0x41, .comma), (0x42, .k), (0x43, .i), (0x44, .o), (0x45, .zero), (0x46, .digit9),
    (0x49, .period), (0x4A, .slash), (0x4B, .l), (0x4C, .semicolon), (0x4D, .p), (0x4E, .minus),
    (0x52, .apostrophe), (0x54, .leftBracket), (0x55, .equal), (0x58, .capslock),
    (0x59, .rightShift), (0x5A, .enter), (0x5B, .rightBracket), (0x5D, .backslash),
    (0x66, .backspace), (0x69, .kp1), (0x6B, .kp4), (0x6C, .kp7), (0x70, .kp0),
    (0x71, .kpPeriod), (0x72, .kp2), (0x73, .kp5), (0x74, .kp6), (0x75, .kp8), (0x76, .escape),
    (0x77, .numlock), (0x78, .f11), (0x79, .kpPlus), (0x7A, .kp3), (0x7B, .kpMinus),
    (0x7C, .kpAsterisk), (0x7D, .kp9), (0x7E, .scrolllock), (0x83, .f7)]

def extendedKey (scancode : UInt8) : Key := (extendedTable.lookup scancode).getD .unknown

def plainKey (scancode : UInt8) : Key := (plainTable.lookup scancode).getD .unknown

def pauseSequence : List UInt8 := [0xE1, 0x14, 0x77, 0xE1, 0xF0, 0x14, 0xF0, 0x77]

/-- The static variables of `keyboard_translate_scancode`. -/
structure Decoder where
  isExtended : Bool
  isReleased : Bool
  pauseSequenceIdx : ℕ
  isPrintScreenPressedPending : Bool
  isPrintScreenReleasedPending : Bool
  deriving DecidableEq, Repr

def Decoder.initial : Decoder := ⟨false, false, 0, false, false⟩

def noEvent : KeyboardEvent := ⟨.none, false⟩

/-- The part behind the prefixes and the two sequences: the tables, and the
reset of the prefix flags. -/
def translateKey (scancode : UInt8) (d : Decoder) : KeyboardEvent × Decoder :=
  let reset : Decoder := { d with isExtended := false, isReleased := false }
  if d.isExtended then
    (⟨extendedKey scancode, d.isReleased⟩,
      { reset with
        isPrintScreenPressedPending := d.isPrintScreenPressedPending || scancode == 0x12
        isPrintScreenReleasedPending := d.isPrintScreenReleasedPending || scancode == 0x7C })
  else (⟨plainKey scancode, d.isReleased⟩, reset)

def keyboardTranslateScancode (scancode : UInt8) (d : Decoder) : KeyboardEvent × Decoder :=
  if scancode = 0xE0 then (noEvent, { d with isExtended := true })
  else if scancode = 0xF0 then (noEvent, { d with isReleased := true })
  else if d.isPrintScreenPressedPending ∧ scancode = 0x7C then
    (⟨.printScreen, false⟩, { d with isPrintScreenPressedPending := false })
  else if d.isPrintScreenReleasedPending ∧ scancode = 0x12 then
    (⟨.printScreen, true⟩, { d with isPrintScreenReleasedPending := false })
  else if d.pauseSequenceIdx > 0 ∨ scancode = 0xE1 then
    if d.pauseSequenceIdx = 0 ∧ scancode = 0xE1 then (noEvent, { d with pauseSequenceIdx := 1 })
    else if pauseSequence[d.pauseSequenceIdx]? = some scancode then
      if d.pauseSequenceIdx + 1 = pauseSequence.length then
        (⟨.playPause, false⟩,
          { d with pauseSequenceIdx := 0, isExtended := false, isReleased := false })
      else (noEvent, { d with pauseSequenceIdx := d.pauseSequenceIdx + 1 })
    else translateKey scancode { d with pauseSequenceIdx := 0 }
  else translateKey scancode d

end Ssos
