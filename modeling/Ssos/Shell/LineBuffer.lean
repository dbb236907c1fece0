import Mathlib.Tactic.Ring
import Ssos.Drivers.Scancodes
import Ssos.Foundations.Allocation
import Ssos.Foundations.PartialRuns

/-!
# The line buffer of the shell

`shell_input_callback` and `shell_reset_prompt_buffer` of `shell/shell.c`, over
the operations of any heap.

## Main result

- `lineHolds_of_run` — the buffer holds what was typed since the last reset
-/

namespace Ssos

open Allocation PartialRun

/-- The statics of `shell/shell.c`, that of the callback included, and the heap.
Bookkeeping that the source does not have: the characters passed to
`screen_putch` since the last reset, the buffers obtained from `kmalloc` and
passed to `kfree`, and whether `stop` was called. -/
structure Shell (H : Type*) where
  promptConfirmed : Bool
  currentLine : ℕ
  lineCapacity : ℕ
  lineSize : ℕ
  shiftIsHeld : Bool
  heap : H
  echoed : List UInt8
  obtained : List ℕ
  released : List ℕ
  stopped : Bool

def Shell.initial {H : Type*} (heap : H) : Shell H :=
  ⟨false, 0, 0, 0, false, heap, [], [], [], false⟩

/-- The letters of the `switch`; 0 for all other keys. -/
def letterChar (shiftIsHeld : Bool) (keycode : Key) : UInt8 :=
  let choose (upper lower : Char) : UInt8 := (if shiftIsHeld then upper else lower).toUInt8
  match keycode with
  | .a => choose 'A' 'a'
  | .b => choose 'B' 'b'
  | .c => choose 'C' 'c'
  | .d => choose 'D' 'd'
  | .e => choose 'E' 'e'
  | .f => choose 'F' 'f'
  | .g => choose 'G' 'g'
  | .h => choose 'H' 'h'
  | .i => choose 'I' 'i'
  | .j => choose 'J' 'j'
  | .k => choose 'K' 'k'
  | .l => choose 'L' 'l'
  | .m => choose 'M' 'm'
  | .n => choose 'N' 'n'
  | .o => choose 'O' 'o'
  | .p => choose 'P' 'p'
  | .q => choose 'Q' 'q'
  | .r => choose 'R' 'r'
  | .s => choose 'S' 's'
  | .t => choose 'T' 't'
  | .u => choose 'U' 'u'
  | .v => choose 'V' 'v'
  | .w => choose 'W' 'w'
  | .x => choose 'X' 'x'
  | .y => choose 'Y' 'y'
  | .z => choose 'Z' 'z'
  | _ => 0

section Code
variable {H : Type*} (ops : HeapOps H)

/-- The cases of the `switch` that set a flag. -/
def setFlags (keycode : Key) (s : Shell H) : Shell H :=
  match keycode with
  | .leftShift => { s with shiftIsHeld := true }
  | .rightShift => { s with shiftIsHeld := true }
  | .enter => { s with promptConfirmed := true }
  | .kpEnter => { s with promptConfirmed := true }
  | _ => s

/-- `kfree(shell_current_line)`. -/
def freeLine (s : Shell H) : Option (Shell H) :=
  match ops.free s.currentLine s.heap with
  | none => none
  | some heap => some { s with heap, released := s.released ++ [s.currentLine] }

/-- `if (shell_current_line) { memcpy(…); kfree(shell_current_line); }`. -/
def moveLine (newLine : ℕ) (s : Shell H) : Option (Shell H) :=
  if s.currentLine ≠ 0 then
    match ops.copyBytes newLine s.currentLine s.lineSize s.heap with
    | none => none
    | some heap => freeLine ops { s with heap }
  else some s

/-- The growth of the buffer. `stop()` does not return. -/
def growLine (s : Shell H) : Option (Shell H) :=
  let newCapacity := if s.lineCapacity ≠ 0 then (s.lineCapacity * 2 + 1) % 2 ^ 64 else 1
  match ops.malloc newCapacity s.heap with
  | none => none
  | some (newLine, heap) =>
    if newLine = 0 then some { s with heap, stopped := true }
    else
      match moveLine ops newLine { s with heap, obtained := s.obtained ++ [newLine] } with
      | none => none
      | some s => some { s with currentLine := newLine, lineCapacity := newCapacity }

/-- `shell_current_line[shell_line_size++] = c`. -/
def storeChar (c : UInt8) (s : Shell H) : Option (Shell H) :=
  match ops.store (s.currentLine + s.lineSize) c s.heap with
  | none => none
  | some heap => some { s with heap, lineSize := (s.lineSize + 1) % 2 ^ 64 }

/-- What the callback does with a character. -/
def appendChar (c : UInt8) (s : Shell H) : Option (Shell H) :=
  let s := { s with echoed := s.echoed ++ [c] }
  if (s.lineSize + 1) % 2 ^ 64 > s.lineCapacity then
    match growLine ops s with
    | none => none
    | some s => if s.stopped then some s else storeChar ops c s
  else storeChar ops c s

def shellInputCallback (event : KeyboardEvent) (s : Shell H) : Option (Shell H) :=
  if event.isReleased then some s
  else
    let c := letterChar s.shiftIsHeld event.keycode
    let s := setFlags event.keycode s
    if c ≠ 0 then appendChar ops c s else some s

def shellResetPromptBuffer (s : Shell H) : Option (Shell H) :=
  let s := { s with lineCapacity := 0 }
  let s := { s with lineSize := 0 }
  match if s.currentLine ≠ 0 then freeLine ops s else some s with
  | none => none
  | some s => some { s with currentLine := 0, echoed := [] }

inductive ShellCall
  | inputCallback (event : KeyboardEvent)
  | resetPromptBuffer

/-- A call that runs to completion; after `stop` there is none. -/
def shellStep (s : Shell H) (call : ShellCall) : Option (Shell H) :=
  if s.stopped then some s
  else
    match call with
    | .inputCallback event => shellInputCallback ops event s
    | .resetPromptBuffer => shellResetPromptBuffer ops s

end Code

/-! ### What the buffer holds -/

section Line
variable {H : Type*} (A : Allocator H)

/-- The buffer, or the lack of one. The last field is the reason why doubling
the capacity never wraps around. -/
structure LineOwned (s : Shell H) : Prop where
  size_le : s.lineSize ≤ s.lineCapacity
  buffer :
    (s.currentLine = 0 ∧ s.lineCapacity = 0 ∧ A.live s.heap = [] ∧ s.obtained = s.released) ∨
    (s.currentLine ≠ 0 ∧ 0 < s.lineCapacity ∧
      A.live s.heap = [⟨s.currentLine, s.lineCapacity⟩] ∧
      s.obtained = s.released ++ [s.currentLine])
  stop_le : s.currentLine + s.lineCapacity ≤ 2 ^ 64
  capacity : ∃ k ≤ 63, s.lineCapacity + 1 = 2 ^ k

/-- The first `shell_line_size` bytes of the buffer. -/
def lineBytes (s : Shell H) : List UInt8 :=
  (List.range s.lineSize).map fun i => A.load s.heap (s.currentLine + i)

/-- What is true between any two calls. -/
structure LineHolds (s : Shell H) : Prop extends LineOwned A s where
  bytes : s.stopped = false → lineBytes A s = s.echoed

/-- The two flags that keys set are as before. -/
structure KeepsFlags (s s' : Shell H) : Prop where
  promptConfirmed : s'.promptConfirmed = s.promptConfirmed
  shiftIsHeld : s'.shiftIsHeld = s.shiftIsHeld

variable {A} {s : Shell H}

theorem LineOwned.capacity_lt (ho : LineOwned A s) : s.lineCapacity < 2 ^ 63 := by
  obtain ⟨k, hk, hcap⟩ := ho.capacity
  have hle : 2 ^ k ≤ 2 ^ 63 := Nat.pow_le_pow_right (by decide) hk
  omega

/-- The length of the line does not wrap around. -/
theorem LineOwned.size_succ (ho : LineOwned A s) : (s.lineSize + 1) % 2 ^ 64 = s.lineSize + 1 := by
  have hcap := ho.capacity_lt
  have hsize := ho.size_le
  exact Nat.mod_eq_of_lt (by omega)

theorem lineBytes_congr {s' : Shell H} (hsize : s'.lineSize = s.lineSize)
    (hload : ∀ i < s.lineSize,
      A.load s'.heap (s'.currentLine + i) = A.load s.heap (s.currentLine + i)) :
    lineBytes A s' = lineBytes A s := by
  rw [lineBytes, lineBytes, hsize]
  apply List.map_congr_left
  intro i hi
  exact hload i (List.mem_range.1 hi)

/-! ### Growth -/

/-- Twice the capacity and one, for the first buffer too. -/
theorem nextCapacity_eq {capacity : ℕ} (hlt : capacity < 2 ^ 63) :
    (if capacity ≠ 0 then (capacity * 2 + 1) % 2 ^ 64 else 1) = capacity * 2 + 1 := by
  by_cases hzero : capacity = 0
  · rw [if_neg (not_not_intro hzero), hzero]
  · rw [if_pos hzero, Nat.mod_eq_of_lt (by omega)]

/-- The block of the next capacity leaves room for the one after it. -/
theorem LineOwned.nextCapacity (ho : LineOwned A s) {p : ℕ} {heap : H}
    (hres : A.malloc (s.lineCapacity * 2 + 1) s.heap = some (p, heap)) (hp : p ≠ 0) :
    ∃ k ≤ 63, s.lineCapacity * 2 + 1 + 1 = 2 ^ k := by
  obtain ⟨_, hstop, hapart⟩ := A.malloc_fresh _ _ _ _ hres hp
  obtain ⟨k, hk, hcap⟩ := ho.capacity
  have hk' : k ≠ 63 := by
    rintro rfl
    obtain ⟨_, hzero, _⟩ | ⟨hline, _, hlive, _⟩ := ho.buffer
    · omega
    · -- a block of 2 ^ 64 - 1 bytes would leave no room for the old one
      have hold := hapart ⟨s.currentLine, s.lineCapacity⟩ (hlive ▸ List.mem_singleton_self _)
      simp only [Block.Apart] at hold
      have hbound := ho.stop_le
      omega
  refine ⟨k + 1, by omega, ?_⟩
  rw [pow_succ, ← hcap]
  omega

/-- The text is moved to the new buffer and the old one is freed. -/
theorem moveLine_spec (ho : LineOwned A s) {n p : ℕ} {heap : H} (hn : s.lineCapacity < n)
    (hres : A.malloc n s.heap = some (p, heap)) (hp : p ≠ 0) :
    ∃ heap', moveLine A.toHeapOps p { s with heap, obtained := s.obtained ++ [p] } =
        some { s with heap := heap', obtained := s.obtained ++ [p], released := s.obtained } ∧
      A.live heap' = [⟨p, n⟩] ∧
      ∀ i < s.lineSize, A.load heap' (p + i) = A.load s.heap (s.currentLine + i) := by
  obtain ⟨hlive, hstop, hapart⟩ := A.malloc_fresh _ _ _ _ hres hp
  have hsize := ho.size_le
  obtain ⟨hline, hcap, hnone, hlog⟩ | ⟨hline, hpos, hone, hlog⟩ := ho.buffer
  · refine ⟨heap, ?_, ?_, ?_⟩
    · rw [moveLine, if_neg (not_not_intro hline), hlog]
    · rw [hlive, hnone]
    · intro i hi
      omega
  · -- both buffers are live from the allocation up to the call of `kfree`
    have hmem : (⟨s.currentLine, s.lineCapacity⟩ : Block) ∈ A.live s.heap :=
      hone ▸ List.mem_singleton_self _
    have hold := hapart _ hmem
    have hne : p ≠ s.currentLine := by
      simp only [Block.Apart] at hold
      omega
    rw [hone] at hlive
    have hroom : s.lineSize ≤ n := by omega
    obtain ⟨heap₁, heap₂, hcopy, hfree, hlast, hload⟩ :=
      A.moveBytes_spec hlive hne hroom hsize hold
    simp only at hcopy hfree hload
    refine ⟨heap₂, ?_, hlast, ?_⟩
    · rw [moveLine, if_pos hline]
      simp only [hcopy]
      rw [freeLine]
      simp only [hfree, hlog]
    · intro i hi
      have hhas : (⟨s.currentLine, s.lineCapacity⟩ : Block).Has (s.currentLine + i) :=
        ⟨Nat.le_add_right _ i, Nat.add_lt_add_left (hi.trans_le hsize) s.currentLine⟩
      rw [hload i hi, A.malloc_load _ _ _ _ hres _ hmem _ hhas]

/-- Growing the buffer either stops or makes room for one more character. -/
theorem growLine_spec (ho : LineOwned A s) :
    ∃ s', growLine A.toHeapOps s = some s' ∧ LineOwned A s' ∧ KeepsFlags s s' ∧
      (s'.stopped = false → s'.lineSize < s'.lineCapacity ∧ lineBytes A s' = lineBytes A s ∧
        s'.echoed = s.echoed) := by
  obtain ⟨⟨p, heap⟩, hres⟩ := A.malloc_defined (s.lineCapacity * 2 + 1) s.heap
  rw [growLine]
  simp only [nextCapacity_eq ho.capacity_lt, hres]
  by_cases hp : p = 0
  · rw [if_pos hp]
    subst hp
    refine ⟨{ s with heap, stopped := true }, rfl, ⟨ho.size_le, ?_, ho.stop_le, ho.capacity⟩,
      ⟨rfl, rfl⟩, ?_⟩
    · rw [A.malloc_null _ _ _ hres]
      exact ho.buffer
    · intro hstopped
      exact Bool.noConfusion hstopped
  · rw [if_neg hp]
    have hlt : s.lineCapacity < s.lineCapacity * 2 + 1 := by omega
    obtain ⟨heap', hmove, hlive, hload⟩ := moveLine_spec ho hlt hres hp
    obtain ⟨_, hstop, _⟩ := A.malloc_fresh _ _ _ _ hres hp
    have hsize := ho.size_le
    simp only [hmove]
    refine ⟨_, rfl, ⟨hsize.trans hlt.le, Or.inr ⟨hp, Nat.succ_pos _, hlive, rfl⟩, hstop,
      ho.nextCapacity hres hp⟩, ⟨rfl, rfl⟩, ?_⟩
    intro _
    exact ⟨hsize.trans_lt hlt, lineBytes_congr rfl hload, rfl⟩

/-! ### One more character -/

/-- The character goes to the end of the line. -/
theorem storeChar_spec (ho : LineOwned A s) (hlt : s.lineSize < s.lineCapacity) (c : UInt8) :
    ∃ s', storeChar A.toHeapOps c s = some s' ∧ LineOwned A s' ∧ KeepsFlags s s' ∧
      s'.stopped = s.stopped ∧ lineBytes A s' = lineBytes A s ++ [c] ∧ s'.echoed = s.echoed := by
  obtain ⟨_, hcap, _⟩ | ⟨hline, hpos, hlive, hlog⟩ := ho.buffer
  · omega
  · have hmem : (⟨s.currentLine, s.lineCapacity⟩ : Block) ∈ A.live s.heap :=
      hlive ▸ List.mem_singleton_self _
    obtain ⟨heap, hstore⟩ := A.store_defined (s.currentLine + s.lineSize) c s.heap _ hmem
      ⟨Nat.le_add_right _ _, Nat.add_lt_add_left hlt _⟩
    have hload := A.store_load _ _ _ _ hstore
    refine ⟨{ s with heap, lineSize := s.lineSize + 1 }, ?_, ⟨hlt, Or.inr ⟨hline, hpos, ?_, hlog⟩,
      ho.stop_le, ho.capacity⟩, ⟨rfl, rfl⟩, rfl, ?_, rfl⟩
    · rw [storeChar]
      simp only [hstore, ho.size_succ]
    · exact (A.store_live _ _ _ _ hstore).trans hlive
    · rw [lineBytes, List.range_succ, List.map_append, List.map_singleton, hload,
        Function.update_self]
      congr 1
      apply List.map_congr_left
      intro i hi
      have hlt := List.mem_range.1 hi
      have hne : s.currentLine + i ≠ s.currentLine + s.lineSize := by omega
      exact Function.update_of_ne hne _ _

/-- The character is echoed and, unless the memory is exhausted, appended. -/
theorem appendChar_spec (hs : LineHolds A s) (hrun : s.stopped = false) (c : UInt8) :
    ∃ s', appendChar A.toHeapOps c s = some s' ∧ LineHolds A s' ∧ KeepsFlags s s' ∧
      (s'.stopped = false → s'.echoed = s.echoed ++ [c]) := by
  have ho : LineOwned A { s with echoed := s.echoed ++ [c] } :=
    ⟨hs.size_le, hs.buffer, hs.stop_le, hs.capacity⟩
  have hbytes : lineBytes A { s with echoed := s.echoed ++ [c] } = s.echoed := hs.bytes hrun
  have hsize := hs.size_le
  rw [appendChar, ho.size_succ]
  by_cases hfull : s.lineSize + 1 > s.lineCapacity
  · obtain ⟨s₁, hgrow, ho₁, hflags, hroom⟩ := growLine_spec ho
    rw [if_pos hfull]
    simp only [hgrow]
    cases hstopped : s₁.stopped with
    | true =>
      rw [if_pos rfl]
      refine ⟨s₁, rfl, ⟨ho₁, ?_⟩, ⟨hflags.1, hflags.2⟩, ?_⟩
      · intro hrun₁
        exact Bool.noConfusion (hrun₁.symm.trans hstopped)
      · intro hrun₁
        exact Bool.noConfusion (hrun₁.symm.trans hstopped)
    | false =>
      obtain ⟨hlt, hsame, hecho⟩ := hroom hstopped
      obtain ⟨s₂, hstore, ho₂, hflags₂, _, happend, hecho₂⟩ := storeChar_spec ho₁ hlt c
      rw [if_neg Bool.false_ne_true]
      refine ⟨s₂, hstore, ⟨ho₂, ?_⟩, ⟨hflags₂.1.trans hflags.1, hflags₂.2.trans hflags.2⟩, ?_⟩
      · intro _
        rw [happend, hsame, hbytes, hecho₂, hecho]
      · intro _
        rw [hecho₂, hecho]
  · obtain ⟨s₂, hstore, ho₂, hflags₂, _, happend, hecho₂⟩ :=
      storeChar_spec ho (show s.lineSize < s.lineCapacity by omega) c
    rw [if_neg hfull]
    refine ⟨s₂, hstore, ⟨ho₂, ?_⟩, ⟨hflags₂.1, hflags₂.2⟩, ?_⟩
    · intro _
      rw [happend, hbytes, hecho₂]
    · intro _
      exact hecho₂

/-! ### The two calls -/

/-- The character that an event types, if any. -/
def typedChars (shiftIsHeld : Bool) (event : KeyboardEvent) : List UInt8 :=
  if event.isReleased ∨ letterChar shiftIsHeld event.keycode = 0 then []
  else [letterChar shiftIsHeld event.keycode]

/-- The event is a press of one of the two Enter keys. -/
def confirms (event : KeyboardEvent) : Bool :=
  !event.isReleased && (event.keycode == .enter || event.keycode == .kpEnter)

theorem setFlags_eq (keycode : Key) (s : Shell H) :
    ∃ shiftIsHeld, setFlags keycode s =
      { s with
        promptConfirmed := keycode == .enter || keycode == .kpEnter || s.promptConfirmed
        shiftIsHeld } := by
  cases keycode <;> exact ⟨_, rfl⟩

/-- A key with a letter sets no flag. -/
theorem setFlags_letter {shiftIsHeld : Bool} {keycode : Key}
    (hletter : letterChar shiftIsHeld keycode ≠ 0) (s : Shell H) :
    setFlags keycode s = s ∧ (keycode == .enter || keycode == .kpEnter) = false := by
  cases keycode <;> first
    | exact ⟨rfl, rfl⟩
    | exact absurd rfl hletter

/-- An event that types nothing only changes flags. -/
theorem shellInputCallback_silent (ops : HeapOps H) {event : KeyboardEvent}
    (hsilent : typedChars s.shiftIsHeld event = []) :
    ∃ shiftIsHeld, shellInputCallback ops event s =
      some { s with promptConfirmed := confirms event || s.promptConfirmed, shiftIsHeld } := by
  rw [typedChars] at hsilent
  rw [shellInputCallback, confirms]
  by_cases hnone : event.isReleased ∨ letterChar s.shiftIsHeld event.keycode = 0
  · cases hreleased : event.isReleased with
    | true =>
      rw [if_pos rfl]
      exact ⟨s.shiftIsHeld, rfl⟩
    | false =>
      obtain ⟨shiftIsHeld, hflags⟩ := setFlags_eq event.keycode s
      have hletter := hnone.resolve_left (by rw [hreleased]; exact Bool.false_ne_true)
      rw [if_neg Bool.false_ne_true, if_neg (not_not_intro hletter), hflags]
      exact ⟨shiftIsHeld, rfl⟩
  · rw [if_neg hnone] at hsilent
    exact absurd hsilent (List.cons_ne_nil _ _)

/-- An event that types a character appends it and sets no flag. -/
theorem shellInputCallback_typed (ops : HeapOps H) {event : KeyboardEvent}
    (htyped : typedChars s.shiftIsHeld event ≠ []) :
    ∃ c, typedChars s.shiftIsHeld event = [c] ∧ confirms event = false ∧
      shellInputCallback ops event s = appendChar ops c s := by
  rw [typedChars] at htyped ⊢
  by_cases hnone : event.isReleased ∨ letterChar s.shiftIsHeld event.keycode = 0
  · rw [if_pos hnone] at htyped
    exact absurd rfl htyped
  · obtain ⟨hpressed, hletter⟩ := not_or.1 hnone
    obtain ⟨hflags, henter⟩ := setFlags_letter hletter s
    refine ⟨_, if_neg hnone, ?_, ?_⟩
    · rw [confirms, henter, Bool.and_false]
    · rw [shellInputCallback, if_neg hpressed, if_pos hletter, hflags]

/-- The callback keeps the line and the flags in step with what is typed. -/
theorem shellInputCallback_spec (hs : LineHolds A s) (hrun : s.stopped = false)
    (event : KeyboardEvent) :
    ∃ s', shellInputCallback A.toHeapOps event s = some s' ∧ LineHolds A s' ∧
      s'.promptConfirmed = (confirms event || s.promptConfirmed) ∧
      (s'.stopped = false → s'.echoed = s.echoed ++ typedChars s.shiftIsHeld event) := by
  by_cases hsilent : typedChars s.shiftIsHeld event = []
  · obtain ⟨shiftIsHeld, hres⟩ := shellInputCallback_silent A.toHeapOps hsilent
    refine ⟨_, hres, ⟨⟨hs.size_le, hs.buffer, hs.stop_le, hs.capacity⟩, hs.bytes⟩, rfl, ?_⟩
    intro _
    rw [hsilent, List.append_nil]
  · obtain ⟨c, htyped, hconfirm, hres⟩ := shellInputCallback_typed A.toHeapOps hsilent
    obtain ⟨s₁, happend, hs₁, hkeeps, hecho⟩ := appendChar_spec hs hrun c
    refine ⟨s₁, hres.trans happend, hs₁, ?_, ?_⟩
    · rw [hkeeps.promptConfirmed, hconfirm, Bool.false_or]
    · rw [htyped]
      exact hecho

/-- A reset gives the buffer back. -/
theorem shellResetPromptBuffer_spec (hs : LineHolds A s) (hrun : s.stopped = false) :
    ∃ s', shellResetPromptBuffer A.toHeapOps s = some s' ∧ LineHolds A s' ∧ KeepsFlags s s' ∧
      s'.stopped = false ∧ s'.echoed = [] := by
  rw [shellResetPromptBuffer]
  obtain ⟨hline, hcap, hnone, hlog⟩ | ⟨hline, hpos, hone, hlog⟩ := hs.buffer
  · simp only [if_neg (not_not_intro hline)]
    refine ⟨_, rfl, ⟨⟨le_rfl, Or.inl ⟨rfl, rfl, hnone, hlog⟩, by simp, 0, by decide, rfl⟩, ?_⟩,
      ⟨rfl, rfl⟩, hrun, rfl⟩
    intro _
    rfl
  · have hmem : (⟨s.currentLine, s.lineCapacity⟩ : Block) ∈ A.live s.heap :=
      hone ▸ List.mem_singleton_self _
    obtain ⟨heap, hfree⟩ := A.free_defined s.heap _ hmem
    obtain ⟨b, hb, _, hlive⟩ := A.free_live _ _ _ hfree
    rw [hone, List.mem_singleton] at hb
    rw [hone, hb, List.erase_cons_head] at hlive
    simp only [if_pos hline, freeLine, hfree]
    refine ⟨_, rfl, ⟨⟨le_rfl, Or.inl ⟨rfl, rfl, hlive, hlog⟩, by simp, 0, by decide, rfl⟩, ?_⟩,
      ⟨rfl, rfl⟩, hrun, rfl⟩
    intro _
    rfl

/-- **Step lemma.** -/
theorem shellStep_holds (hs : LineHolds A s) (call : ShellCall) :
    ∃ s', shellStep A.toHeapOps s call = some s' ∧ LineHolds A s' := by
  unfold shellStep
  cases hstopped : s.stopped with
  | true =>
    rw [if_pos rfl]
    exact ⟨s, rfl, hs⟩
  | false =>
    rw [if_neg Bool.false_ne_true]
    cases call with
    | inputCallback event =>
      obtain ⟨s', hres, hs', _⟩ := shellInputCallback_spec hs hstopped event
      exact ⟨s', hres, hs'⟩
    | resetPromptBuffer =>
      obtain ⟨s', hres, hs', _⟩ := shellResetPromptBuffer_spec hs hstopped
      exact ⟨s', hres, hs'⟩

theorem initial_holds : LineHolds A (Shell.initial A.initial) :=
  ⟨⟨le_rfl, Or.inl ⟨rfl, rfl, A.live_initial, rfl⟩, by simp [Shell.initial], 0, by decide, rfl⟩,
    fun _ => rfl⟩

end Line

/-- **The line buffer.** Over any allocator, every sequence of calls is defined:
no write misses a live buffer and no buffer is freed twice. Afterwards the
buffer, if there is one, is the one live block, of the recorded capacity, every
earlier buffer has been freed, and the line reads as echoed since the last
reset. -/
theorem lineHolds_of_run {H : Type*} (A : Allocator H) (calls : List ShellCall) :
    ∃ s, exec (shellStep A.toHeapOps) (Shell.initial A.initial) calls = some s ∧ LineHolds A s := by
  have halong : Along (shellStep A.toHeapOps) (fun _ _ => True) (Shell.initial A.initial) calls :=
    .of_forall (fun _ _ => trivial) calls
  exact halong.exec_invariant (fun s call hs _ => shellStep_holds hs call) initial_holds

/-- Two letters are typed, the line is reset, and a third one is typed. -/
theorem lineHolds_of_run_bump :
    ∃ s, exec (shellStep bump.toHeapOps) (Shell.initial bump.initial)
        [.inputCallback ⟨.a, false⟩, .inputCallback ⟨.b, false⟩, .resetPromptBuffer,
          .inputCallback ⟨.c, false⟩] = some s ∧ LineHolds bump s :=
  lineHolds_of_run bump _

end Ssos
