import Ssos.Shell.KernelHeap

/-!
# The line in the kernel heap

The shell on the heap that `kalloc_init` sets up. A line lives in a buffer of
`2 ^ k - 1` bytes that needs a block of `2 ^ (k + 1)` with its header. While
the text is moved the old buffer is still live, so the request for
`2 ^ 20 - 1` bytes finds no room on the page, and the heap does not grow for it.

## Main results

- `kernelLine_of_calls` — a line of fewer than `2 ^ 19` letters is held, the next letter stops
-/

namespace Ssos

open Allocation Buddy PartialRun

/-! ### The shell over two heaps -/

section Carries
variable {H H' : Type*} {ops : HeapOps H} {ops' : HeapOps H'} {f : H → H'} {small : ℕ → Prop}

/-- The shell with its heap seen through `f`. -/
def Shell.map (f : H → H') (s : Shell H) : Shell H' := { s with heap := f s.heap }

/-- What a full line asks for. -/
def Shell.nextCapacity (s : Shell H) : ℕ :=
  if s.lineCapacity ≠ 0 then (s.lineCapacity * 2 + 1) % 2 ^ 64 else 1

def GrowsSmall (small : ℕ → Prop) (s : Shell H) : Prop := small s.nextCapacity

theorem growLine_eq (ops : HeapOps H) (s : Shell H) : growLine ops s =
    match ops.malloc s.nextCapacity s.heap with
    | none => none
    | some (newLine, heap) =>
      if newLine = 0 then some { s with heap, stopped := true }
      else
        match moveLine ops newLine { s with heap, obtained := s.obtained ++ [newLine] } with
        | none => none
        | some s' => some { s' with currentLine := newLine, lineCapacity := s.nextCapacity } := rfl

theorem freeLine_map (hc : ops.Carries ops' f small) (s : Shell H) :
    (freeLine ops s).map (Shell.map f) = freeLine ops' (s.map f) := by
  have hfree : ops'.free (s.map f).currentLine (s.map f).heap =
      (ops.free s.currentLine s.heap).map f := (hc.free _ _).symm
  rw [freeLine, freeLine, hfree]
  cases ops.free s.currentLine s.heap <;> rfl

theorem moveLine_map (hc : ops.Carries ops' f small) (s : Shell H) (newLine : ℕ) :
    (moveLine ops newLine s).map (Shell.map f) = moveLine ops' newLine (s.map f) := by
  have hcopy : ops'.copyBytes newLine (s.map f).currentLine (s.map f).lineSize (s.map f).heap =
      (ops.copyBytes newLine s.currentLine s.lineSize s.heap).map f := (hc.copyBytes _ _ _ _).symm
  rw [moveLine, moveLine, hcopy]
  by_cases hline : s.currentLine ≠ 0
  · rw [if_pos hline, if_pos (show (s.map f).currentLine ≠ 0 from hline)]
    cases ops.copyBytes newLine s.currentLine s.lineSize s.heap with
    | none => rfl
    | some heap => exact freeLine_map hc { s with heap }
  · rw [if_neg hline, if_neg (show ¬(s.map f).currentLine ≠ 0 from hline)]
    rfl

theorem storeChar_map (hc : ops.Carries ops' f small) (s : Shell H) (c : UInt8) :
    (storeChar ops c s).map (Shell.map f) = storeChar ops' c (s.map f) := by
  have hstore : ops'.store ((s.map f).currentLine + (s.map f).lineSize) c (s.map f).heap =
      (ops.store (s.currentLine + s.lineSize) c s.heap).map f := (hc.store _ _ _).symm
  rw [storeChar, storeChar, hstore]
  cases ops.store (s.currentLine + s.lineSize) c s.heap <;> rfl

theorem growLine_map (hc : ops.Carries ops' f small) (s : Shell H) (hsmall : GrowsSmall small s) :
    (growLine ops s).map (Shell.map f) = growLine ops' (s.map f) := by
  have hmalloc : ops'.malloc (s.map f).nextCapacity (s.map f).heap =
      (ops.malloc s.nextCapacity s.heap).map fun res => (res.1, f res.2) :=
    (hc.malloc _ _ hsmall).symm
  rw [growLine_eq, growLine_eq, hmalloc]
  cases ops.malloc s.nextCapacity s.heap with
  | none => rfl
  | some res =>
    obtain ⟨newLine, heap⟩ := res
    simp only [Option.map_some]
    by_cases hz : newLine = 0
    · rw [if_pos hz, if_pos hz]
      rfl
    · have hmove := moveLine_map hc { s with heap, obtained := s.obtained ++ [newLine] } newLine
      rw [if_neg hz, if_neg hz]
      change _ = (match moveLine ops' newLine
        (Shell.map f { s with heap, obtained := s.obtained ++ [newLine] }) with
        | none => none
        | some s' => some { s' with currentLine := newLine, lineCapacity := s.nextCapacity })
      rw [← hmove]
      cases moveLine ops newLine { s with heap, obtained := s.obtained ++ [newLine] } <;> rfl

theorem appendChar_map (hc : ops.Carries ops' f small) (s : Shell H) (hsmall : GrowsSmall small s)
    (c : UInt8) :
    (appendChar ops c s).map (Shell.map f) = appendChar ops' c (s.map f) := by
  have hgrow := growLine_map hc { s with echoed := s.echoed ++ [c] } hsmall
  rw [appendChar, appendChar]
  by_cases hfull : (s.lineSize + 1) % 2 ^ 64 > s.lineCapacity
  · rw [if_pos hfull, if_pos (show ((s.map f).lineSize + 1) % 2 ^ 64 > (s.map f).lineCapacity
      from hfull)]
    change _ = (match growLine ops' (Shell.map f { s with echoed := s.echoed ++ [c] }) with
      | none => none
      | some s' => if s'.stopped then some s' else storeChar ops' c s')
    rw [← hgrow]
    cases growLine ops { s with echoed := s.echoed ++ [c] } with
    | none => rfl
    | some s₁ =>
      simp only [Option.map_some]
      by_cases hstopped : s₁.stopped = true
      · rw [if_pos hstopped, if_pos (show (s₁.map f).stopped = true from hstopped)]
        rfl
      · rw [if_neg hstopped, if_neg (show ¬(s₁.map f).stopped = true from hstopped)]
        exact storeChar_map hc s₁ c
  · rw [if_neg hfull, if_neg (show ¬((s.map f).lineSize + 1) % 2 ^ 64 > (s.map f).lineCapacity
      from hfull)]
    exact storeChar_map hc _ c

theorem setFlags_map (keycode : Key) (s : Shell H) :
    setFlags keycode (s.map f) = (setFlags keycode s).map f := by
  cases keycode <;> rfl

theorem shellInputCallback_map (hc : ops.Carries ops' f small) (s : Shell H) (hsmall : GrowsSmall small s)
    (event : KeyboardEvent) :
    (shellInputCallback ops event s).map (Shell.map f) =
      shellInputCallback ops' event (s.map f) := by
  by_cases hsilent : typedChars s.shiftIsHeld event = []
  · rw [typedChars] at hsilent
    rw [shellInputCallback, shellInputCallback]
    by_cases hreleased : event.isReleased = true
    · rw [if_pos hreleased, if_pos hreleased]
      rfl
    · have hletter : ¬letterChar s.shiftIsHeld event.keycode ≠ 0 := fun hletter => by
        rw [if_neg (not_or.2 ⟨hreleased, hletter⟩)] at hsilent
        exact List.cons_ne_nil _ _ hsilent
      rw [if_neg hreleased, if_neg hreleased, if_neg hletter,
        if_neg (show ¬letterChar (s.map f).shiftIsHeld event.keycode ≠ 0 from hletter)]
      exact congrArg some (setFlags_map event.keycode s).symm
  · obtain ⟨c, htyped, -, hres⟩ := shellInputCallback_typed ops hsilent
    obtain ⟨c', htyped', -, hres'⟩ :=
      @shellInputCallback_typed H' (s.map f) ops' event hsilent
    obtain rfl := List.head_eq_of_cons_eq (htyped.symm.trans htyped')
    rw [hres, hres']
    exact appendChar_map hc s hsmall c

theorem shellResetPromptBuffer_map (hc : ops.Carries ops' f small) (s : Shell H) :
    (shellResetPromptBuffer ops s).map (Shell.map f) = shellResetPromptBuffer ops' (s.map f) := by
  have hfree := freeLine_map hc { s with lineCapacity := 0, lineSize := 0 }
  rw [shellResetPromptBuffer, shellResetPromptBuffer]
  by_cases hline : s.currentLine ≠ 0
  · simp only [if_pos hline, if_pos (show (s.map f).currentLine ≠ 0 from hline)]
    change _ = (match freeLine ops' (Shell.map f { s with lineCapacity := 0, lineSize := 0 }) with
      | none => none
      | some s' => some { s' with currentLine := 0, echoed := [] })
    rw [← hfree]
    cases freeLine ops { s with lineCapacity := 0, lineSize := 0 } <;> rfl
  · simp only [if_neg hline, if_neg (show ¬(s.map f).currentLine ≠ 0 from hline)]
    rfl

/-- A call has the same effect on both heaps. -/
theorem shellStep_map (hc : ops.Carries ops' f small) (s : Shell H) (hsmall : GrowsSmall small s)
    (call : ShellCall) : (shellStep ops s call).map (Shell.map f) = shellStep ops' (s.map f) call := by
  unfold shellStep
  cases hstopped : s.stopped with
  | true =>
    rw [if_pos rfl, if_pos (show (s.map f).stopped = true from hstopped)]
    rfl
  | false =>
    have hrun : ¬(s.map f).stopped = true := by
      rw [show (s.map f).stopped = false from hstopped]
      exact Bool.false_ne_true
    rw [if_neg Bool.false_ne_true, if_neg hrun]
    cases call with
    | inputCallback event => exact shellInputCallback_map hc s hsmall event
    | resetPromptBuffer => exact shellResetPromptBuffer_map hc s

end Carries

/-! ### The line on the first page -/

section Page
variable {page : ℕ} {hp : PageOk page} {mem : ByteMemory.Mem}

/-- What is true between two calls. -/
structure LineOnPage (hp : PageOk page) (mem : ByteMemory.Mem) (s : Shell (PageHeap page)) : Prop
    extends LineHolds (pageAllocator hp mem) s where
  capacity_le : s.lineCapacity + 1 ≤ 2 ^ 19
  stopped_iff : s.stopped = true ↔ s.echoed.length = 2 ^ 19

variable {s : Shell (PageHeap page)}

/-- As long as the shell runs, the line is as long as what was echoed. -/
theorem LineOnPage.lineSize_eq (h : LineOnPage hp mem s) (hrun : s.stopped = false) :
    s.lineSize = s.echoed.length := by
  rw [← h.bytes hrun, lineBytes, List.length_map, List.length_range]

theorem LineOnPage.nextCapacity_eq (h : LineOnPage hp mem s) :
    s.nextCapacity = s.lineCapacity * 2 + 1 :=
  Ssos.nextCapacity_eq (h.capacity_lt)

/-- The kernel heap does what its restriction to the page does. -/
theorem pageAllocator_carries (hp : PageOk page) (mem : ByteMemory.Mem) (palloc : ℕ → ℕ) :
    (pageAllocator hp mem).Carries (kernelHeap palloc) PageHeap.state fun n => n ≤ 2 ^ 21 - 16 where
  malloc _ h hn := (h.map_malloc hn).trans (h.kernelHeap_malloc_eq palloc hn).symm
  free _ h := h.map_free
  load _ := rfl
  store _ _ h := h.map_store

/-- A full line of fewer than `2 ^ 19 - 1` letters gets a larger buffer, and a
longer one none. -/
theorem LineOnPage.growLine (h : LineOnPage hp mem s) (hrun : s.stopped = false)
    (hfull : s.lineSize = s.lineCapacity) (echoed : List UInt8) :
    ∃ s', Ssos.growLine (pageAllocator hp mem).toHeapOps { s with echoed } = some s' ∧
      s'.echoed = echoed ∧ s'.lineCapacity + 1 ≤ 2 ^ 19 ∧
      (s'.stopped = true ↔ s.lineCapacity + 1 = 2 ^ 19) := by
  have ho : LineOwned (pageAllocator hp mem) { s with echoed } :=
    ⟨h.size_le, h.buffer, h.stop_le, h.capacity⟩
  obtain ⟨⟨p, heap⟩, hres⟩ := (pageAllocator hp mem).malloc_defined (s.lineCapacity * 2 + 1) s.heap
  have hnext : Shell.nextCapacity { s with echoed } = s.lineCapacity * 2 + 1 := h.nextCapacity_eq
  have hle := h.capacity_le
  obtain ⟨k, hk, hcap⟩ := h.capacity
  rw [growLine_eq, hnext]
  simp only [hres]
  by_cases htop : s.lineCapacity + 1 = 2 ^ 19
  · -- the old buffer leaves no room for a block of the whole page
    obtain ⟨-, hzero, -⟩ | ⟨-, -, hlive, -⟩ := h.buffer
    · omega
    · have hold : ⟨s.currentLine, s.lineCapacity⟩ ∈ s.heap.live :=
        (congrArg (_ ∈ ·) hlive).mpr (List.mem_singleton_self _)
      have hp0 : p = 0 := PageHeap.malloc_eq_zero hold (by omega) hres
      rw [if_pos hp0]
      exact ⟨_, rfl, rfl, hle, iff_of_true rfl htop⟩
  · have hk18 : k ≤ 18 := by
      by_contra hlt
      have hpow : 2 ^ 19 ≤ 2 ^ k := Nat.pow_le_pow_right (by decide) (by omega)
      omega
    have hpow : 2 ^ k ≤ 2 ^ 18 := Nat.pow_le_pow_right (by decide) hk18
    have hlive : s.heap.live = [] ∨ s.heap.live = [⟨s.currentLine, s.lineCapacity⟩] :=
      h.buffer.imp (fun hnone => hnone.2.2.1) fun hsome => hsome.2.2.1
    have hp0 : p ≠ 0 := by
      refine PageHeap.malloc_ne_zero ?_ ?_ (Nat.succ_pos _) (by omega) hres
      · rcases hlive with hlive | hlive <;> simp [hlive]
      · rcases hlive with hlive | hlive
        · simp [hlive]
        · simp only [hlive, List.mem_singleton, forall_eq]
          omega
    obtain ⟨heap', hmove, -⟩ :=
      moveLine_spec ho (show s.lineCapacity < s.lineCapacity * 2 + 1 by omega) hres hp0
    rw [if_neg hp0]
    simp only [hmove]
    refine ⟨_, rfl, rfl, ?_, iff_of_false ?_ htop⟩
    · show s.lineCapacity * 2 + 1 + 1 ≤ 2 ^ 19
      omega
    · exact fun hstopped => Bool.false_ne_true (hrun.symm.trans hstopped)

/-- Storing a character changes the length and the heap only. -/
theorem storeChar_keeps {H : Type*} {ops : HeapOps H} {c : UInt8} {s s' : Shell H}
    (hres : storeChar ops c s = some s') :
    s'.lineCapacity = s.lineCapacity ∧ s'.stopped = s.stopped ∧ s'.echoed = s.echoed := by
  rw [storeChar] at hres
  cases hstore : ops.store (s.currentLine + s.lineSize) c s.heap with
  | none =>
    rw [hstore] at hres
    exact absurd hres.symm (Option.some_ne_none s')
  | some heap =>
    rw [hstore] at hres
    obtain rfl := Option.some_inj.1 hres
    exact ⟨rfl, rfl, rfl⟩

theorem LineOnPage.appendChar (h : LineOnPage hp mem s) (hrun : s.stopped = false) (c : UInt8) :
    ∃ s', Ssos.appendChar (pageAllocator hp mem).toHeapOps c s = some s' ∧ LineOnPage hp mem s' := by
  obtain ⟨s', hres, hs', -, -⟩ := appendChar_spec h.toLineHolds hrun c
  have hsize := h.lineSize_eq hrun
  have hlength : (s.echoed ++ [c]).length = s.lineSize + 1 := by
    rw [List.length_append, ← hsize]
    rfl
  have hcap := h.capacity_le
  have hle := h.size_le
  suffices hfacts : s'.lineCapacity + 1 ≤ 2 ^ 19 ∧ (s'.stopped = true ↔ s'.echoed.length = 2 ^ 19) from
    ⟨s', hres, hs', hfacts.1, hfacts.2⟩
  rw [Ssos.appendChar, h.size_succ] at hres
  by_cases hfull : s.lineSize + 1 > s.lineCapacity
  · rw [if_pos hfull] at hres
    have hsame : s.lineSize = s.lineCapacity := by omega
    obtain ⟨s₁, hgrow, hecho, hcap₁, hstop⟩ := h.growLine hrun hsame (s.echoed ++ [c])
    simp only [hgrow] at hres
    rw [← hsame, ← hlength, ← hecho] at hstop
    by_cases hstopped : s₁.stopped = true
    · rw [if_pos hstopped] at hres
      obtain rfl := Option.some_inj.1 hres
      exact ⟨hcap₁, hstop⟩
    · rw [if_neg hstopped] at hres
      obtain ⟨hcap₂, hstop₂, hecho₂⟩ := storeChar_keeps hres
      rw [hcap₂, hstop₂, hecho₂]
      exact ⟨hcap₁, hstop⟩
  · rw [if_neg hfull] at hres
    obtain ⟨hcap₂, hstop₂, hecho₂⟩ := storeChar_keeps hres
    rw [hcap₂, hstop₂, hecho₂]
    refine ⟨hcap, iff_of_false ?_ ?_⟩
    · exact fun hstopped => Bool.false_ne_true (hrun.symm.trans hstopped)
    · rw [hlength]
      omega

theorem shellResetPromptBuffer_capacity {H : Type*} {ops : HeapOps H} {s s' : Shell H}
    (hres : shellResetPromptBuffer ops s = some s') : s'.lineCapacity = 0 := by
  rw [shellResetPromptBuffer] at hres
  by_cases hline : s.currentLine ≠ 0
  · simp only [if_pos hline, freeLine] at hres
    cases hfree : ops.free s.currentLine s.heap with
    | none =>
      rw [hfree] at hres
      exact absurd hres.symm (Option.some_ne_none s')
    | some heap =>
      rw [hfree] at hres
      obtain rfl := Option.some_inj.1 hres
      rfl
  · simp only [if_neg hline] at hres
    obtain rfl := Option.some_inj.1 hres
    rfl

/-- **Step lemma.** -/
theorem LineOnPage.step (h : LineOnPage hp mem s) (call : ShellCall) :
    ∃ s', shellStep (pageAllocator hp mem).toHeapOps s call = some s' ∧ LineOnPage hp mem s' := by
  unfold shellStep
  cases hstopped : s.stopped with
  | true => exact ⟨s, rfl, h⟩
  | false =>
    rw [if_neg Bool.false_ne_true]
    cases call with
    | inputCallback event =>
      by_cases hsilent : typedChars s.shiftIsHeld event = []
      · obtain ⟨shiftIsHeld, hres⟩ :=
          shellInputCallback_silent (pageAllocator hp mem).toHeapOps hsilent
        exact ⟨_, hres, ⟨⟨h.size_le, h.buffer, h.stop_le, h.capacity⟩, h.bytes⟩, h.capacity_le,
          h.stopped_iff⟩
      · obtain ⟨c, -, -, hres⟩ := shellInputCallback_typed (pageAllocator hp mem).toHeapOps hsilent
        obtain ⟨s', happend, hs'⟩ := h.appendChar hstopped c
        exact ⟨s', hres.trans happend, hs'⟩
    | resetPromptBuffer =>
      obtain ⟨s', hres, hs', -, hrun, hecho⟩ := shellResetPromptBuffer_spec h.toLineHolds hstopped
      refine ⟨s', hres, hs', ?_, ?_⟩
      · rw [shellResetPromptBuffer_capacity hres]
        decide
      · rw [hrun, hecho]
        exact iff_of_false Bool.false_ne_true (by decide)

end Page

/-! ### The kernel heap -/

/-- A call, and what the page allocator would answer during it. -/
def kernelShellStep (s : Shell HeapState) (call : ShellCall × (ℕ → ℕ)) :
    Option (Shell HeapState) := shellStep (kernelHeap call.2) s call.1

/-- **The line in the kernel heap.** Over the heap that `kalloc_init` leaves,
every sequence of calls is defined, whatever pages there are. While fewer than
`2 ^ 19` letters have been echoed since the last reset the shell runs, the bytes
at `shell_current_line` are those letters, and the line is all that is
allocated; the letter number `2 ^ 19` of a line, and nothing else, ends in `stop`. -/
theorem kernelLine_of_calls {page : ℕ} (hp : PageOk page) (mem : ByteMemory.Mem)
    (calls : List (ShellCall × (ℕ → ℕ))) :
    ∃ s, exec kernelShellStep (Shell.initial (HeapState.start mem page)) calls = some s ∧
      s.echoed.length ≤ 2 ^ 19 ∧ (s.stopped = true ↔ s.echoed.length = 2 ^ 19) ∧
      (s.stopped = false →
        (List.range s.lineSize).map (fun i => s.heap.heap.mem (s.currentLine + i)) = s.echoed ∧
          s.heap.live = if s.currentLine = 0 then [] else [⟨s.currentLine, s.lineCapacity⟩]) := by
  -- the run over the page alone is seen through the state of its heap
  have hstart : LineOnPage hp mem (Shell.initial (pageAllocator hp mem).initial) :=
    ⟨initial_holds, show 0 + 1 ≤ 2 ^ 19 by decide,
      iff_of_false Bool.false_ne_true (show ([] : List UInt8).length ≠ 2 ^ 19 by decide)⟩
  have halong : Along kernelShellStep (fun _ _ => True)
      (Shell.initial (HeapState.start mem page)) calls := .of_forall (fun _ _ => trivial) calls
  have hstep : ∀ t call, (∃ s, s.map PageHeap.state = t ∧ LineOnPage hp mem s) → True →
      ∃ t', kernelShellStep t call = some t' ∧
        ∃ s, s.map PageHeap.state = t' ∧ LineOnPage hp mem s := by
    rintro _ ⟨call, palloc⟩ ⟨s, rfl, hs⟩ -
    obtain ⟨s', hres, hs'⟩ := hs.step call
    refine ⟨_, ?_, s', rfl, hs'⟩
    have hsmall : GrowsSmall (fun n => n ≤ 2 ^ 21 - 16) s := by
      have hcap := hs.capacity_le
      rw [GrowsSmall, hs.nextCapacity_eq]
      omega
    have hmap := shellStep_map (pageAllocator_carries hp mem palloc) s hsmall call
    rw [hres] at hmap
    exact hmap.symm
  obtain ⟨_, hexec, s, rfl, hs⟩ := halong.exec_invariant hstep ⟨_, rfl, hstart⟩
  refine ⟨_, hexec, ?_, hs.stopped_iff, fun hrun => ⟨hs.bytes hrun, ?_⟩⟩
  · cases hstopped : s.stopped with
    | true => exact (hs.stopped_iff.1 hstopped).le
    | false =>
      have hsize := hs.lineSize_eq hstopped
      have hle := hs.size_le
      have hcap := hs.capacity_le
      show s.echoed.length ≤ 2 ^ 19
      omega
  · show s.heap.state.live = if s.currentLine = 0 then [] else [⟨s.currentLine, s.lineCapacity⟩]
    obtain ⟨hline, -, hnone, -⟩ | ⟨hline, -, hone, -⟩ := hs.buffer
    · rw [if_pos hline]
      exact List.map_eq_nil_iff.1 hnone
    · rw [if_neg hline]
      obtain ⟨a, hlive, ha⟩ := List.map_eq_singleton_iff.1 hone
      obtain ⟨hptr, hbytes⟩ := Block.mk.inj ha
      rw [hlive, ← hptr, ← hbytes]

/-- A letter after Shift on the page at 2 MiB. -/
theorem kernelLine_of_calls_letter :
    let calls := [(ShellCall.inputCallback ⟨.leftShift, false⟩, fun _ => 0),
      (.inputCallback ⟨.a, false⟩, fun _ => 0)]
    ∃ s, exec kernelShellStep (Shell.initial (HeapState.start (fun _ => 0) 0x200000)) calls = some s ∧
      s.echoed.length ≤ 2 ^ 19 ∧ (s.stopped = true ↔ s.echoed.length = 2 ^ 19) ∧
      (s.stopped = false →
        (List.range s.lineSize).map (fun i => s.heap.heap.mem (s.currentLine + i)) = s.echoed ∧
          s.heap.live = if s.currentLine = 0 then [] else [⟨s.currentLine, s.lineCapacity⟩]) :=
  kernelLine_of_calls ⟨by decide, by decide, by decide⟩ _ _

end Ssos
