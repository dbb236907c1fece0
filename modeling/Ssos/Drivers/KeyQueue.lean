import Ssos.Foundations.PartialRuns
import Ssos.Foundations.RingQueue
import Ssos.Foundations.Transducer
import Ssos.Drivers.Scancodes

/-!
# The event buffer of the keyboard

`keyboard_irq_handler` and `keyboard_get_event` of `drivers/keyboard.c`. The
read position is not stored but found by counting back from the write position.

## Main results

- `queue_refines` — the buffer is a queue that drops its oldest event
- `neverBehind_iff` — exactly when the callback keeps up
-/

namespace Ssos

open RingQueue PartialRun Transducer

def maxKeyboardBuffSize : ℕ := 24

/-- The statics of `drivers/keyboard.c`, those of the decoder included.
`callback` says whether a callback is installed. -/
structure Keyboard where
  decoder : Decoder
  eventBuff : ℕ → KeyboardEvent
  eventBuffIdx : ℤ
  eventCount : ℤ
  callback : Bool

def Keyboard.initial : Keyboard := ⟨.initial, fun _ => noEvent, 0, 0, false⟩

/-- `keyboard_event_buff[idx]`; outside the array the access is undefined. -/
def inBuff (idx : ℤ) : Bool := 0 ≤ idx ∧ idx < maxKeyboardBuffSize

def keyboardGetEvent (s : Keyboard) : Option (KeyboardEvent × Keyboard) :=
  let idx := ((s.eventBuffIdx - s.eventCount) + maxKeyboardBuffSize).tmod maxKeyboardBuffSize
  if inBuff idx then some (s.eventBuff idx.toNat, { s with eventCount := s.eventCount - 1 })
  else none

/-- The part of the handler behind the decoder: the event goes into the buffer,
and the callback, if there is one, gets an event out of it. -/
def pushEvent (event : KeyboardEvent) (s : Keyboard) : Option (Option KeyboardEvent × Keyboard) :=
  if inBuff s.eventBuffIdx then
    let s := { s with
      eventBuff := Function.update s.eventBuff s.eventBuffIdx.toNat event
      eventBuffIdx := (s.eventBuffIdx + 1).tmod maxKeyboardBuffSize
      eventCount := if s.eventCount < maxKeyboardBuffSize then s.eventCount + 1
        else maxKeyboardBuffSize }
    if s.callback then
      match keyboardGetEvent s with
      | none => none
      | some (event, s) => some (some event, s)
    else some (none, s)
  else none

/-- The event passed to the callback, if any, and the state afterwards. -/
def keyboardIrqHandler (scancode : UInt8) (s : Keyboard) :
    Option (Option KeyboardEvent × Keyboard) :=
  let res := keyboardTranslateScancode scancode s.decoder
  let s := { s with decoder := res.2 }
  if res.1.keycode = .none ∨ res.1.keycode = .unknown then some (none, s) else pushEvent res.1 s

def keyboardInstallEventCallback (s : Keyboard) : Keyboard := { s with callback := true }

/-- The buffer holds the queue. -/
structure Buffers (s : Keyboard) (q : List KeyboardEvent) : Prop where
  idx_nonneg : 0 ≤ s.eventBuffIdx
  ring : Ring maxKeyboardBuffSize s.eventBuff s.eventBuffIdx.toNat q
  count : s.eventCount = q.length

section Buffer
variable {s : Keyboard} {q : List KeyboardEvent} {event : KeyboardEvent}

theorem inBuff_iff (idx : ℤ) : inBuff idx = true ↔ 0 ≤ idx ∧ idx < 24 := decide_eq_true_iff

/-- The read position is the slot of the oldest event. -/
theorem Buffers.readIdx (h : Buffers s (event :: q)) :
    ((s.eventBuffIdx - s.eventCount) + maxKeyboardBuffSize).tmod maxKeyboardBuffSize =
      slot maxKeyboardBuffSize s.eventBuffIdx.toNat (q.length + 1) 0 := by
  have hidx := h.ring.idx_lt
  have hlen := h.ring.length_le
  have hnonneg := h.idx_nonneg
  have hcount := h.count
  simp only [maxKeyboardBuffSize, List.length_cons] at hidx hlen hcount ⊢
  rw [Int.tmod_eq_emod_of_nonneg (by omega), slot]
  omega

/-- `keyboard_get_event` takes the oldest event out. -/
theorem Buffers.getEvent (h : Buffers s (event :: q)) :
    keyboardGetEvent s = some (event, { s with eventCount := s.eventCount - 1 }) ∧
      Buffers { s with eventCount := s.eventCount - 1 } q := by
  obtain ⟨hslot, hring⟩ := h.ring.pop
  have hlt : slot maxKeyboardBuffSize s.eventBuffIdx.toNat (q.length + 1) 0 < 24 :=
    Nat.mod_lt _ (by decide)
  constructor
  · rw [keyboardGetEvent]
    simp only [h.readIdx]
    rw [if_pos ((inBuff_iff _).2 ⟨by omega, by omega⟩), Int.toNat_natCast, hslot]
  · refine ⟨h.idx_nonneg, hring, ?_⟩
    have hcount := h.count
    rw [List.length_cons] at hcount
    simp only [hcount]
    omega

/-- The buffer after the event has been written. -/
def Keyboard.withEvent (s : Keyboard) (event : KeyboardEvent) : Keyboard :=
  { s with
    eventBuff := Function.update s.eventBuff s.eventBuffIdx.toNat event
    eventBuffIdx := (s.eventBuffIdx + 1).tmod maxKeyboardBuffSize
    eventCount := if s.eventCount < maxKeyboardBuffSize then s.eventCount + 1
      else maxKeyboardBuffSize }

/-- Writing an event appends it to the queue. -/
theorem Buffers.withEvent (h : Buffers s q) :
    Buffers (s.withEvent event) (push maxKeyboardBuffSize event q) := by
  have hring := h.ring.push (x := event)
  have hnonneg := h.idx_nonneg
  have hidx : (s.eventBuffIdx + 1).tmod maxKeyboardBuffSize =
      ((s.eventBuffIdx.toNat + 1) % maxKeyboardBuffSize : ℕ) := by
    rw [Int.tmod_eq_emod_of_nonneg (by omega)]
    simp only [maxKeyboardBuffSize]
    omega
  refine ⟨?_, ?_, ?_⟩
  · rw [Keyboard.withEvent]
    simp only [hidx]
    omega
  · rw [Keyboard.withEvent]
    simp only [hidx, Int.toNat_natCast]
    exact hring
  · have hlen := h.ring.length_le
    have hcount := h.count
    have hpush := length_push (x := event) (by decide) hlen
    rw [Keyboard.withEvent, hpush]
    by_cases hfull : q.length < maxKeyboardBuffSize
    · rw [if_pos hfull, if_pos (by omega), Nat.cast_succ, ← hcount]
    · rw [if_neg hfull, if_neg (by omega)]

theorem Buffers.pushEvent_eq (h : Buffers s q) :
    pushEvent event s = if s.callback then
      (match keyboardGetEvent (s.withEvent event) with
      | none => none
      | some (event, s) => some (some event, s))
    else some (none, s.withEvent event) := by
  have hidx := h.ring.idx_lt
  have hnonneg := h.idx_nonneg
  simp only [maxKeyboardBuffSize] at hidx
  rw [pushEvent, if_pos ((inBuff_iff _).2 ⟨hnonneg, by omega⟩)]
  rfl

/-- Without a callback an event is stored. -/
theorem Buffers.pushEvent_store (h : Buffers s q) (hc : s.callback = false) :
    pushEvent event s = some (none, s.withEvent event) := by
  rw [h.pushEvent_eq, hc, if_neg Bool.false_ne_true]

/-- With a callback the oldest event is passed on. -/
theorem Buffers.pushEvent_deliver (h : Buffers s q) (hc : s.callback = true)
    {oldest : KeyboardEvent} {rest : List KeyboardEvent}
    (hq : push maxKeyboardBuffSize event q = oldest :: rest) :
    ∃ s', pushEvent event s = some (some oldest, s') ∧ Buffers s' rest ∧ s'.callback = true ∧
      s'.decoder = s.decoder := by
  have hwith : Buffers (s.withEvent event) (push maxKeyboardBuffSize event q) := h.withEvent
  rw [hq] at hwith
  obtain ⟨hget, hrest⟩ := hwith.getEvent
  refine ⟨_, ?_, hrest, hc, rfl⟩
  rw [h.pushEvent_eq, hc, if_pos rfl, hget]

theorem Buffers.initial : Buffers .initial [] := ⟨le_refl 0, Ring.nil _ (by decide), rfl⟩

end Buffer

/-- The event of a scancode, unless it has no key or an unknown one. -/
def handledEvent (scancode : UInt8) (d : Decoder) : Option KeyboardEvent :=
  let event := (keyboardTranslateScancode scancode d).1
  if event.keycode = .none ∨ event.keycode = .unknown then none else some event

def nextDecoder (scancode : UInt8) (d : Decoder) : Decoder := (keyboardTranslateScancode scancode d).2

/-- The keyboard behind the decoder. -/
def Keyboard.advance (s : Keyboard) (b : UInt8) : Keyboard :=
  { s with decoder := nextDecoder b s.decoder }

theorem irqHandler_none {b : UInt8} {s : Keyboard} (h : handledEvent b s.decoder = none) :
    keyboardIrqHandler b s = some (none, s.advance b) := by
  rw [handledEvent] at h
  rw [keyboardIrqHandler, if_pos]
  · rfl
  · by_contra hkey
    rw [if_neg hkey] at h
    exact Option.some_ne_none _ h

theorem irqHandler_some {b : UInt8} {s : Keyboard} {event : KeyboardEvent}
    (h : handledEvent b s.decoder = some event) :
    keyboardIrqHandler b s = pushEvent event (s.advance b) := by
  rw [handledEvent] at h
  rw [keyboardIrqHandler]
  by_cases hkey : (keyboardTranslateScancode b s.decoder).1.keycode = .none ∨
      (keyboardTranslateScancode b s.decoder).1.keycode = .unknown
  · rw [if_pos hkey] at h
    exact absurd h.symm (Option.some_ne_none event)
  · rw [if_neg hkey] at h
    rw [if_neg hkey, Option.some_inj.1 h]
    rfl

theorem Buffers.congr {s s' : Keyboard} {q : List KeyboardEvent} (h : Buffers s q)
    (hb : s'.eventBuff = s.eventBuff) (hi : s'.eventBuffIdx = s.eventBuffIdx)
    (hc : s'.eventCount = s.eventCount) : Buffers s' q :=
  ⟨hi ▸ h.idx_nonneg, hb ▸ hi ▸ h.ring, hc ▸ h.count⟩

/-! ### Interrupts and reads -/

inductive QueueOp
  | interrupt (scancode : UInt8)
  | getEvent

/-- The keyboard, and the values that `keyboard_get_event` has returned. -/
structure QueueRun where
  keyboard : Keyboard
  returned : List KeyboardEvent

def queueStep (s : QueueRun) : QueueOp → Option QueueRun
  | .interrupt scancode =>
    (keyboardIrqHandler scancode s.keyboard).map fun res => ⟨res.2, s.returned⟩
  | .getEvent => (keyboardGetEvent s.keyboard).map fun res => ⟨res.2, s.returned ++ [res.1]⟩

/-- Events are read only while some are pending. -/
def QueueLawful (s : QueueRun) : QueueOp → Prop
  | .interrupt _ => True
  | .getEvent => 0 < s.keyboard.eventCount

instance (s : QueueRun) : ∀ op, Decidable (QueueLawful s op)
  | .interrupt _ => isTrue trivial
  | .getEvent => inferInstanceAs (Decidable (0 < s.keyboard.eventCount))

/-- The same with a queue that drops its oldest event. -/
structure Fifo where
  decoder : Decoder
  queue : List KeyboardEvent
  returned : List KeyboardEvent

def fifoStep (u : Fifo) : QueueOp → Fifo
  | .interrupt scancode =>
    match handledEvent scancode u.decoder with
    | none => { u with decoder := nextDecoder scancode u.decoder }
    | some event => { u with
        decoder := nextDecoder scancode u.decoder
        queue := push maxKeyboardBuffSize event u.queue }
  | .getEvent => { u with
      queue := u.queue.tail
      returned := u.returned ++ u.queue.head?.toList }

/-- The buffer and the queue hold the same events and have returned the same. -/
structure Refines (s : QueueRun) (u : Fifo) : Prop where
  decoder : s.keyboard.decoder = u.decoder
  buffers : Buffers s.keyboard u.queue
  callback : s.keyboard.callback = false
  returned : s.returned = u.returned

/-- **Step lemma.** -/
theorem Refines.step {s : QueueRun} {u : Fifo} (h : Refines s u) {op : QueueOp}
    (hlaw : QueueLawful s op) : ∃ s', queueStep s op = some s' ∧ Refines s' (fifoStep u op) := by
  cases op with
  | interrupt b =>
    rw [queueStep, fifoStep, ← h.decoder]
    cases he : handledEvent b s.keyboard.decoder with
    | none =>
      rw [irqHandler_none he]
      exact ⟨_, rfl, rfl, h.buffers.congr rfl rfl rfl, h.callback, h.returned⟩
    | some event =>
      have hbuf : Buffers (s.keyboard.advance b) u.queue :=
        h.buffers.congr rfl rfl rfl
      rw [irqHandler_some he, hbuf.pushEvent_store h.callback]
      exact ⟨_, rfl, rfl, hbuf.withEvent, h.callback, h.returned⟩
  | getEvent =>
    rw [queueStep, fifoStep]
    cases hq : u.queue with
    | nil =>
      have hcount := h.buffers.count
      rw [hq, List.length_nil] at hcount
      rw [QueueLawful, hcount] at hlaw
      exact absurd hlaw (lt_irrefl _)
    | cons event rest =>
      have hbuf := h.buffers
      rw [hq] at hbuf
      obtain ⟨hget, hrest⟩ := hbuf.getEvent
      rw [hget]
      refine ⟨_, rfl, h.decoder, hrest, h.callback, ?_⟩
      rw [← h.returned]
      rfl

/-- **The event buffer is a queue of 24 events that drops its oldest.** -/
theorem queue_refines (ops : List QueueOp)
    (hlaw : Along queueStep QueueLawful ⟨.initial, []⟩ ops) :
    ∃ s, exec queueStep ⟨.initial, []⟩ ops = some s ∧
      s.returned = (ops.foldl fifoStep ⟨.initial, [], []⟩).returned ∧
      s.keyboard.eventCount = (ops.foldl fifoStep ⟨.initial, [], []⟩).queue.length := by
  have hrun : ∀ (ops : List QueueOp) (s : QueueRun) (u : Fifo), Refines s u →
      Along queueStep QueueLawful s ops →
        ∃ s', exec queueStep s ops = some s' ∧ Refines s' (ops.foldl fifoStep u) := by
    intro ops
    induction ops with
    | nil => exact fun s u h _ => ⟨s, rfl, h⟩
    | cons op ops ih =>
      intro s u h hops
      obtain ⟨s₁, hstep, hs₁⟩ := h.step hops.1
      rw [exec_cons hstep]
      exact ih s₁ (fifoStep u op) hs₁ (hops.2 s₁ hstep)
  obtain ⟨s, hexec, hs⟩ := hrun ops ⟨.initial, []⟩ ⟨.initial, [], []⟩
    ⟨rfl, Buffers.initial, rfl, rfl⟩ hlaw
  exact ⟨s, hexec, hs.returned, hs.buffers.count⟩

/-- The keys from A to Z are pressed, and then 24 events are read. -/
def lettersThenReads : List QueueOp :=
  [0x1C, 0x32, 0x21, 0x23, 0x24, 0x2B, 0x34, 0x33, 0x43, 0x3B, 0x42, 0x4B, 0x3A, 0x31, 0x44, 0x4D,
    0x15, 0x2D, 0x1B, 0x2C, 0x3C, 0x2A, 0x1D, 0x22, 0x35, 0x1A].map .interrupt ++
    List.replicate 24 .getEvent

/-- The oldest two of the events are lost, and the others are read in order. -/
theorem queue_refines_letters :
    ∃ s, exec queueStep ⟨.initial, []⟩ lettersThenReads = some s ∧
      s.returned = [Key.c, .d, .e, .f, .g, .h, .i, .j, .k, .l, .m, .n, .o, .p, .q, .r, .s, .t, .u,
        .v, .w, .x, .y, .z].map (⟨·, false⟩) ∧
      s.keyboard.eventCount = 0 := by
  obtain ⟨s, hexec, hreturned, hcount⟩ := queue_refines lettersThenReads (by decide +kernel)
  exact ⟨s, hexec, hreturned.trans (by decide +kernel), hcount.trans (by decide +kernel)⟩

/-! ### Histories with a callback -/

inductive HistoryOp
  | interrupt (scancode : UInt8)
  | install

/-- The keyboard, the events received that the buffer did not have to discard,
and those passed to the callback. -/
structure History where
  keyboard : Keyboard
  kept : List KeyboardEvent
  delivered : List KeyboardEvent

/-- A full buffer discards the oldest event not yet delivered. -/
def History.receive (s : History) : Option KeyboardEvent → List KeyboardEvent
  | none => s.kept
  | some event =>
    (if s.keyboard.eventCount = maxKeyboardBuffSize then s.kept.eraseIdx s.delivered.length
      else s.kept) ++ [event]

def historyStep (s : History) : HistoryOp → Option History
  | .interrupt scancode =>
    (keyboardIrqHandler scancode s.keyboard).map fun res =>
      ⟨res.2, s.receive (handledEvent scancode s.keyboard.decoder), s.delivered ++ res.1.toList⟩
  | .install => some { s with keyboard := keyboardInstallEventCallback s.keyboard }

def History.initial : History := ⟨.initial, [], []⟩

/-- All events kept have been delivered, in order, and none is pending. -/
def CaughtUp (s : History) : Prop := s.keyboard.eventCount = 0 ∧ s.delivered = s.kept

/-- Bytes before the callback is installed, and bytes behind it. -/
def historyOf (before after : List UInt8) : List HistoryOp :=
  before.map .interrupt ++ .install :: after.map .interrupt

/-- After every interrupt that produced an event the callback has caught up. -/
def NeverBehind (before after : List UInt8) : Prop :=
  ∀ bytes b, bytes ++ [b] <+: after → ∀ s,
    exec historyStep .initial (historyOf before bytes) = some s →
      handledEvent b s.keyboard.decoder ≠ none →
        ∃ t, historyStep s (.interrupt b) = some t ∧ CaughtUp t

/-- The events that a byte stream produces. -/
def eventByte (b : UInt8) (d : Decoder) : List KeyboardEvent × Decoder :=
  ((handledEvent b d).toList, nextDecoder b d)

def eventsOf (bytes : List UInt8) (d : Decoder) : List KeyboardEvent := outputs eventByte bytes d

section Histories
variable {s : History}

/-- **Run lemma.** An invariant that every interrupt keeps, and the decoder. -/
theorem exec_interrupts {Inv : History → Prop}
    (hstep : ∀ s b, Inv s → ∃ t, historyStep s (.interrupt b) = some t ∧ Inv t ∧
      t.keyboard.decoder = nextDecoder b s.keyboard.decoder) (bytes : List UInt8) (hs : Inv s) :
    ∃ t, exec historyStep s (bytes.map .interrupt) = some t ∧ Inv t ∧
      t.keyboard.decoder = final eventByte bytes s.keyboard.decoder := by
  induction bytes generalizing s with
  | nil => exact ⟨s, rfl, hs, rfl⟩
  | cons b bytes ih =>
    obtain ⟨s₁, h₁, hinv, hdec⟩ := hstep s b hs
    obtain ⟨t, ht, hinv', hdec'⟩ := ih hinv
    refine ⟨t, ?_, hinv', ?_⟩
    · rw [List.map_cons, exec_cons h₁, ht]
    · rw [hdec', hdec]
      rfl

/-- An interrupt without an event. -/
theorem historyStep_quiet {b : UInt8} (h : handledEvent b s.keyboard.decoder = none) :
    historyStep s (.interrupt b) = some { s with keyboard := s.keyboard.advance b } := by
  rw [historyStep, irqHandler_none h, h]
  simp [History.receive]

theorem historyStep_event {b : UInt8} {event : KeyboardEvent} {out : Option KeyboardEvent}
    {k : Keyboard} (h : handledEvent b s.keyboard.decoder = some event)
    (hpush : pushEvent event (s.keyboard.advance b) = some (out, k)) :
    historyStep s (.interrupt b) =
      some ⟨k, s.receive (some event), s.delivered ++ out.toList⟩ := by
  rw [historyStep, irqHandler_some h, hpush, h]
  rfl

/-- No callback yet: what has been kept waits in the buffer. -/
structure Waiting (s : History) : Prop where
  callback : s.keyboard.callback = false
  buffers : Buffers s.keyboard s.kept
  delivered : s.delivered = []

theorem Waiting.step (h : Waiting s) (b : UInt8) :
    ∃ t, historyStep s (.interrupt b) = some t ∧ Waiting t ∧
      t.keyboard.decoder = nextDecoder b s.keyboard.decoder ∧
      (t.kept = [] ↔ s.kept = [] ∧ handledEvent b s.keyboard.decoder = none) := by
  have hbuf : Buffers (s.keyboard.advance b) s.kept := h.buffers.congr rfl rfl rfl
  cases he : handledEvent b s.keyboard.decoder with
  | none =>
    have hwait : Waiting { s with keyboard := s.keyboard.advance b } :=
      ⟨h.callback, hbuf, h.delivered⟩
    exact ⟨_, historyStep_quiet he, hwait, rfl, (and_iff_left rfl).symm⟩
  | some event =>
    have hkept : s.receive (some event) = push maxKeyboardBuffSize event s.kept := by
      have hcount := h.buffers.count
      have hle := h.buffers.ring.length_le
      rw [History.receive, h.delivered, List.length_nil]
      by_cases hfull : s.keyboard.eventCount = maxKeyboardBuffSize
      · have hlen : s.kept.length = maxKeyboardBuffSize := by omega
        rw [if_pos hfull, push_of_full hlen]
        cases hk : s.kept with
        | nil =>
          rw [hk] at hlen
          exact absurd hlen (by decide)
        | cons x rest => rfl
      · rw [if_neg hfull, push_of_lt (by omega)]
    have hwait : Waiting ⟨(s.keyboard.advance b).withEvent event, s.receive (some event),
        s.delivered ++ (none : Option KeyboardEvent).toList⟩ := by
      rw [hkept, h.delivered]
      exact ⟨h.callback, hbuf.withEvent, rfl⟩
    refine ⟨_, historyStep_event he (hbuf.pushEvent_store h.callback), hwait, rfl, ?_⟩
    refine ⟨fun hnil => ?_, fun hnone => absurd hnone.2 (Option.some_ne_none event)⟩
    rw [History.receive, List.append_eq_nil_iff] at hnil
    exact absurd hnil.2 (List.cons_ne_nil event [])

/-- The callback is installed and nothing is pending. -/
structure Caught (s : History) : Prop where
  callback : s.keyboard.callback = true
  buffers : Buffers s.keyboard []
  delivered : s.delivered = s.kept

theorem Caught.caughtUp (h : Caught s) : CaughtUp s := ⟨h.buffers.count, h.delivered⟩

/-- An event is passed on at once. -/
theorem Caught.step (h : Caught s) (b : UInt8) :
    ∃ t, historyStep s (.interrupt b) = some t ∧ Caught t ∧
      t.keyboard.decoder = nextDecoder b s.keyboard.decoder := by
  have hbuf : Buffers (s.keyboard.advance b) [] := h.buffers.congr rfl rfl rfl
  cases he : handledEvent b s.keyboard.decoder with
  | none =>
    have hcaught : Caught { s with keyboard := s.keyboard.advance b } :=
      ⟨h.callback, hbuf, h.delivered⟩
    exact ⟨_, historyStep_quiet he, hcaught, rfl⟩
  | some event =>
    obtain ⟨k, hpush, hk, hcb, hdec⟩ := hbuf.pushEvent_deliver h.callback (push_of_lt (by decide))
    have hcount := h.buffers.count
    have hfull : ¬s.keyboard.eventCount = maxKeyboardBuffSize := by
      rw [hcount]
      decide
    have hcaught : Caught ⟨k, s.receive (some event), s.delivered ++ (some event).toList⟩ := by
      refine ⟨hcb, hk, ?_⟩
      rw [History.receive, if_neg hfull, h.delivered]
      rfl
    exact ⟨_, historyStep_event he hpush, hcaught, hdec⟩

/-- The callback is installed and some events are pending. -/
structure Lagging (s : History) : Prop where
  callback : s.keyboard.callback = true
  pending : ∃ event rest, Buffers s.keyboard (event :: rest)

theorem Lagging.not_caughtUp (h : Lagging s) : ¬CaughtUp s := by
  obtain ⟨event, rest, hbuf⟩ := h.pending
  rintro ⟨hzero, _⟩
  have hcount := hbuf.count
  rw [hzero, List.length_cons] at hcount
  omega

/-- One event in, one out: the backlog stays. -/
theorem Lagging.step (h : Lagging s) (b : UInt8) :
    ∃ t, historyStep s (.interrupt b) = some t ∧ Lagging t ∧
      t.keyboard.decoder = nextDecoder b s.keyboard.decoder := by
  obtain ⟨first, rest, hold⟩ := h.pending
  have hbuf : Buffers (s.keyboard.advance b) (first :: rest) := hold.congr rfl rfl rfl
  cases he : handledEvent b s.keyboard.decoder with
  | none =>
    have hlag : Lagging { s with keyboard := s.keyboard.advance b } :=
      ⟨h.callback, first, rest, hbuf⟩
    exact ⟨_, historyStep_quiet he, hlag, rfl⟩
  | some event =>
    obtain ⟨x, y, more, hq⟩ : ∃ x y more,
        push maxKeyboardBuffSize event (first :: rest) = x :: y :: more := by
      have htwo : 2 ≤ (push maxKeyboardBuffSize event (first :: rest)).length := by
        rw [length_push (by decide) hbuf.ring.length_le, List.length_cons]
        split_ifs
        · omega
        · decide
      cases hq : push maxKeyboardBuffSize event (first :: rest) with
      | nil =>
        rw [hq] at htwo
        exact absurd htwo (by decide)
      | cons x tail =>
        cases tail with
        | nil =>
          rw [hq] at htwo
          exact absurd htwo (Nat.not_succ_le_self 1)
        | cons y more => exact ⟨x, y, more, rfl⟩
    obtain ⟨k, hpush, hk, hcb, hdec⟩ := hbuf.pushEvent_deliver h.callback hq
    exact ⟨_, historyStep_event he hpush, ⟨hcb, y, more, hk⟩, hdec⟩

/-- Without a callback something is kept exactly when some event has arrived. -/
theorem Waiting.exec_interrupts (hs : Waiting s) (bytes : List UInt8) : ∃ t,
    exec historyStep s (bytes.map .interrupt) = some t ∧ Waiting t ∧
      t.keyboard.decoder = final eventByte bytes s.keyboard.decoder ∧
      (t.kept = [] ↔ s.kept = [] ∧ eventsOf bytes s.keyboard.decoder = []) := by
  induction bytes generalizing s with
  | nil => exact ⟨s, rfl, hs, rfl, (and_iff_left rfl).symm⟩
  | cons b bytes ih =>
    obtain ⟨s₁, h₁, hwait, hdec, hkept⟩ := hs.step b
    obtain ⟨t, ht, hwait', hdec', hkept'⟩ := ih hwait
    refine ⟨t, ?_, hwait', ?_, ?_⟩
    · rw [List.map_cons, exec_cons h₁, ht]
    · rw [hdec', hdec]
      rfl
    · have hevents : eventsOf (b :: bytes) s.keyboard.decoder =
          (handledEvent b s.keyboard.decoder).toList ++ eventsOf bytes s₁.keyboard.decoder := by
        rw [hdec]
        rfl
      rw [hkept', hkept, hevents, List.append_eq_nil_iff, Option.toList_eq_nil_iff, and_assoc]

/-- The state in which the callback has just been installed. -/
theorem exec_install (before : List UInt8) : ∃ s₁,
    (∀ after, exec historyStep .initial (historyOf before after) =
      exec historyStep s₁ (after.map .interrupt)) ∧
    s₁.keyboard.decoder = final eventByte before .initial ∧
    (eventsOf before .initial = [] → Caught s₁) ∧
    (eventsOf before .initial ≠ [] → Lagging s₁) := by
  have hstart : Waiting .initial := ⟨rfl, Buffers.initial, rfl⟩
  obtain ⟨s₀, hbefore, hwait, hdec, hwaiting⟩ := hstart.exec_interrupts before
  have hkept : s₀.kept = [] ↔ eventsOf before .initial = [] := hwaiting.trans (and_iff_right rfl)
  have hbuf := hwait.buffers
  let s₁ : History := { s₀ with keyboard := keyboardInstallEventCallback s₀.keyboard }
  have hinstall : historyStep s₀ .install = some s₁ := rfl
  refine ⟨s₁, ?_, hdec, ?_, ?_⟩
  · intro after
    rw [historyOf, exec_append, hbefore, Option.bind_some, exec_cons hinstall]
  · intro hnone
    rw [hkept.2 hnone] at hbuf
    exact ⟨rfl, hbuf.congr rfl rfl rfl, hwait.delivered.trans (hkept.2 hnone).symm⟩
  · intro hsome
    obtain ⟨event, rest, hq⟩ := List.exists_cons_of_ne_nil (mt hkept.1 hsome)
    rw [hq] at hbuf
    exact ⟨rfl, event, rest, hbuf.congr rfl rfl rfl⟩

/-- **The callback is never behind** exactly when no event had arrived before
it was installed, or none arrives afterwards. -/
theorem neverBehind_iff (before after : List UInt8) : NeverBehind before after ↔
    eventsOf before .initial = [] ∨
      eventsOf after (final eventByte before .initial) = [] := by
  obtain ⟨s₁, hexec, hdec₁, hcaught, hlag⟩ := exec_install before
  have hevent : ∀ b d, (eventByte b d).1 = [] ↔ handledEvent b d = none := fun b d =>
    Option.toList_eq_nil_iff
  constructor
  · intro h
    by_contra hno
    obtain ⟨hb, ha⟩ := not_or.1 hno
    -- at the first event after the installation the backlog is still there
    rw [eventsOf, outputs_eq_nil_iff] at ha
    simp only [not_forall] at ha
    obtain ⟨bytes, b, hpre, hne⟩ := ha
    obtain ⟨s, hs, hlag', hdec⟩ := exec_interrupts (fun s b hs => hs.step b) bytes (hlag hb)
    have hhandled : handledEvent b s.keyboard.decoder ≠ none := by
      rw [hdec, hdec₁]
      exact fun hn => hne ((hevent b _).2 hn)
    obtain ⟨t, ht, hup⟩ := h bytes b hpre s ((hexec bytes).trans hs) hhandled
    obtain ⟨t', ht', hlag'', _⟩ := hlag'.step b
    rw [ht] at ht'
    obtain rfl := Option.some_inj.1 ht'
    exact hlag''.not_caughtUp hup
  · intro h bytes b hpre s hs hhandled
    rw [hexec] at hs
    by_cases hb : eventsOf before .initial = []
    · obtain ⟨s', hs', hc, _⟩ := exec_interrupts (fun s b hs => hs.step b) bytes (hcaught hb)
      rw [hs] at hs'
      obtain rfl := Option.some_inj.1 hs'
      obtain ⟨t, ht, hc', _⟩ := hc.step b
      exact ⟨t, ht, hc'.caughtUp⟩
    · obtain ⟨s', hs', _, hdec⟩ := exec_interrupts (fun s b hs => hs.step b) bytes (hlag hb)
      rw [hs] at hs'
      obtain rfl := Option.some_inj.1 hs'
      have hnone := outputs_eq_nil_iff.1 (h.resolve_left hb) bytes b hpre
      rw [← hdec₁, ← hdec, hevent] at hnone
      exact absurd hnone hhandled

/-- A key pressed during boot is delivered in place of the first one after it. -/
theorem neverBehind_fails : ¬∀ before after : List UInt8, NeverBehind before after := by
  intro h
  have hevent : (exec historyStep .initial (historyOf [0x1C] [])).map
      (fun s => handledEvent 0x32 s.keyboard.decoder) = some (some ⟨.b, false⟩) := by decide
  have hcount : (exec historyStep .initial (historyOf [0x1C] [0x32])).map
      (fun s => s.keyboard.eventCount) = some 1 := by decide
  obtain ⟨s, hs, hb⟩ := Option.map_eq_some_iff.1 hevent
  have hne : handledEvent 0x32 s.keyboard.decoder ≠ none := by
    rw [hb]
    exact Option.some_ne_none _
  obtain ⟨t, ht, hzero, _⟩ := h [0x1C] [0x32] [] 0x32 (List.prefix_refl _) s hs hne
  have hsplit : historyOf [0x1C] [0x32] = historyOf [0x1C] [] ++ [.interrupt 0x32] := rfl
  rw [hsplit, exec_append, hs, Option.bind_some, exec_cons ht, exec, Option.map_some, hzero] at hcount
  exact absurd hcount (by decide)

end Histories

end Ssos
