import Ssos.Drivers.KeyQueue

/-!
# Reading an empty event buffer

`keyboard_get_event` takes one off `event_count` without a look at it. With no
event pending the count becomes negative, and the read position, which is found
by counting back, runs ahead of the write position.

## Main result

- `emptyReadsHarmless_iff` — reads do no harm exactly when none finds the buffer empty
-/

namespace Ssos

open RingQueue PartialRun

/-- What the reads of a run are to return: the oldest pending event each. A
read with nothing pending is owed none. -/
def dueReads : Fifo → List QueueOp → List (Option KeyboardEvent)
  | _, [] => []
  | u, .interrupt scancode :: ops => dueReads (fifoStep u (.interrupt scancode)) ops
  | u, .getEvent :: ops => u.queue.head? :: dueReads (fifoStep u .getEvent) ops

/-- The value of a read that is owed nothing does not matter. -/
def Pays (due : Option KeyboardEvent) (event : KeyboardEvent) : Prop :=
  ∀ pending, due = some pending → event = pending

/-- In every state of the run the count is one of a buffer of 24 events, and
the reads so far have returned what was due. -/
def EmptyReadsHarmless (ops : List QueueOp) : Prop :=
  ∀ part, part <+: ops → ∃ s, exec queueStep ⟨.initial, []⟩ part = some s ∧
    0 ≤ s.keyboard.eventCount ∧ s.keyboard.eventCount ≤ maxKeyboardBuffSize ∧
    List.Forall₂ Pays (dueReads ⟨.initial, [], []⟩ part) s.returned

section Reads
variable {s : QueueRun} {u : Fifo} {ops : List QueueOp}

/-- A buffer that holds a queue counts its events. -/
theorem Refines.count_bounds (h : Refines s u) :
    0 ≤ s.keyboard.eventCount ∧ s.keyboard.eventCount ≤ maxKeyboardBuffSize := by
  have hlen := h.buffers.ring.length_le
  rw [h.buffers.count]
  exact ⟨Int.natCast_nonneg _, Int.ofNat_le.2 hlen⟩

/-- **Run lemma.** While no read finds the buffer empty, the reads return what
is due. -/
theorem Refines.pays (h : Refines s u) (hlaw : Along queueStep QueueLawful s ops) :
    ∃ t new, exec queueStep s ops = some t ∧ Refines t (ops.foldl fifoStep u) ∧
      t.returned = s.returned ++ new ∧ List.Forall₂ Pays (dueReads u ops) new := by
  induction ops generalizing s u with
  | nil => exact ⟨s, [], rfl, h, (List.append_nil _).symm, List.Forall₂.nil⟩
  | cons op ops ih =>
    obtain ⟨s₁, hstep, h₁⟩ := h.step hlaw.1
    obtain ⟨t, new, hexec, ht, hreturned, hpays⟩ := ih h₁ (hlaw.2 s₁ hstep)
    rw [exec_cons hstep]
    have hbefore := h₁.returned
    cases op with
    | interrupt scancode =>
      refine ⟨t, new, hexec, ht, ?_, hpays⟩
      have hkept : (fifoStep u (.interrupt scancode)).returned = u.returned := by
        rw [fifoStep]
        cases handledEvent scancode u.decoder <;> rfl
      rw [hreturned, hbefore, hkept, h.returned]
    | getEvent =>
      cases hq : u.queue with
      | nil =>
        -- the law excludes this case: nothing is pending
        have hcount := h.buffers.count
        rw [hq, List.length_nil] at hcount
        exact absurd hlaw.1 (by rw [QueueLawful, hcount]; exact lt_irrefl _)
      | cons event rest =>
        have hgot : (fifoStep u .getEvent).returned = u.returned ++ [event] := by
          rw [fifoStep, hq]
          rfl
        refine ⟨t, event :: new, hexec, ht, ?_, ?_⟩
        · rw [hreturned, hbefore, hgot, h.returned, List.append_assoc]
          rfl
        · rw [dueReads, hq]
          refine List.Forall₂.cons ?_ hpays
          intro pending hdue
          exact Option.some_inj.1 hdue

end Reads

/-- A read takes one off the count, whatever it is. -/
theorem keyboardGetEvent_count {s : Keyboard} {res : KeyboardEvent × Keyboard}
    (h : keyboardGetEvent s = some res) : res.2.eventCount = s.eventCount - 1 := by
  rw [keyboardGetEvent] at h
  obtain ⟨_, hres⟩ := Option.ite_none_right_eq_some.1 h
  rw [← Option.some_inj.1 hres]

/-- A harmless read finds an event pending. -/
theorem EmptyReadsHarmless.lawful {ops : List QueueOp} (h : EmptyReadsHarmless ops) :
    Along queueStep QueueLawful ⟨.initial, []⟩ ops := by
  refine Along.of_prefixes fun before op hpre t hexec => ?_
  cases op with
  | interrupt scancode => trivial
  | getEvent =>
    obtain ⟨s, hs, hlow, _⟩ := h _ hpre
    rw [exec_append, hexec, Option.bind_some] at hs
    cases hget : keyboardGetEvent t.keyboard with
    | none =>
      have hstuck : queueStep t .getEvent = none := by rw [queueStep, hget, Option.map_none]
      rw [exec, hstuck] at hs
      exact absurd hs.symm (Option.some_ne_none s)
    | some res =>
      have hstep : queueStep t .getEvent = some ⟨res.2, t.returned ++ [res.1]⟩ := by
        rw [queueStep, hget, Option.map_some]
      rw [exec_cons hstep, exec, Option.some_inj] at hs
      rw [← hs] at hlow
      have hcount := keyboardGetEvent_count hget
      simp only at hlow
      rw [QueueLawful]
      omega

/-- **Reads do no harm** in exactly the runs in which none of them finds the
buffer empty. -/
theorem emptyReadsHarmless_iff (ops : List QueueOp) :
    EmptyReadsHarmless ops ↔ Along queueStep QueueLawful ⟨.initial, []⟩ ops := by
  constructor
  · exact EmptyReadsHarmless.lawful
  · rintro hlaw part ⟨rest, rfl⟩
    have hstart : Refines ⟨.initial, []⟩ ⟨.initial, [], []⟩ := ⟨rfl, Buffers.initial, rfl, rfl⟩
    obtain ⟨s, new, hexec, hs, hreturned, hpays⟩ := hstart.pays hlaw.of_append
    obtain ⟨hlow, hhigh⟩ := hs.count_bounds
    rw [List.nil_append] at hreturned
    exact ⟨s, hexec, hlow, hhigh, hreturned ▸ hpays⟩

/-- After a read of the empty buffer the event of the next key press is not
what the next read returns. -/
theorem emptyReadsHarmless_fails :
    ¬EmptyReadsHarmless [.getEvent, .interrupt 0x1C, .getEvent] := by
  intro h
  obtain ⟨s, hexec, _, _, hpays⟩ := h _ (List.prefix_refl _)
  have hreturned : (exec queueStep ⟨.initial, []⟩ [.getEvent, .interrupt 0x1C, .getEvent]).map
      QueueRun.returned = some [noEvent, noEvent] := by decide
  rw [hexec, Option.map_some, Option.some_inj] at hreturned
  have hdue : dueReads ⟨.initial, [], []⟩ [.getEvent, .interrupt 0x1C, .getEvent] =
      [none, some ⟨.a, false⟩] := by decide
  rw [hreturned, hdue] at hpays
  obtain ⟨_, hrest⟩ := List.forall₂_cons.1 hpays
  obtain ⟨hlast, _⟩ := List.forall₂_cons.1 hrest
  exact absurd (hlast _ rfl) (by decide)

end Ssos
