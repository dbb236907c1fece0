import Ssos.Drivers.KeyboardInit

/-!
# The handshake with the keyboard

What comes of the four bytes that `keyboard_init` sends, each up to three times.

## Main results

- `Ps2.Rests.command` — a command gets through, or it is lost
- `keyboardInit_result` — the result for every pattern of transmission errors
-/

namespace Ssos

open Polling Retry

/-! ### The commands -/

/-- The setup after `n` bytes for the keyboard. -/
def Ps2Setup.after (c : Ps2Setup) (n : ℕ) : Ps2Setup := { c with transmissions := n }

def Ps2Setup.withKeyboard (c : Ps2Setup) (k : KeyboardUnit) : Ps2Setup := { c with keyboard := k }

/-- The setup is `c` after `n` bytes for the keyboard, and no byte waits. -/
structure Ps2.Rests (c : Ps2Setup) (n : ℕ) (d : Ps2) : Prop where
  setup : d.toPs2Setup = c.after n
  queue : d.queue = []

/-- Commands can be sent, and no key disturbs them. -/
structure Ps2Setup.Calm (c : Ps2Setup) : Prop where
  silent : c.Silent
  expectsConfig : c.expectsConfig = false

section Commands
variable {c : Ps2Setup} {k : KeyboardUnit} {value : UInt8} {d : Ps2} {n : ℕ}

/-- A byte that arrives garbled is asked for again. -/
theorem Ps2.Rests.garbled (h : d.Rests c n) (hcalm : c.Calm) (hgarbled : c.garbled n = true)
    (value : UInt8) :
    ∃ d', sendToKeyboard ps2 value d = (none, d') ∧ d'.Rests c (n + 1) := by
  obtain ⟨s, queue, last, inputBusy, lag, interrupts, accesses, sent, handled⟩ := d
  obtain rfl : s = c.after n := h.setup
  obtain rfl : queue = [] := h.queue
  set d : Ps2 := ⟨c.after n, [], last, inputBusy, lag, interrupts, accesses, sent, handled⟩
  have hnil : d.elapse.queue = [] := elapse_queue_nil hcalm.silent rfl
  have hreceive : d.elapse.receive value =
      ({ d.elapse with transmissions := n + 1 } : Ps2).deliver [kbdRespResend] :=
    receive_garbled hgarbled
  have hoffers : (d.elapse.receive value).Offers kbdRespResend := by
    rw [hreceive]
    refine Or.inl ?_
    show d.elapse.queue ++ [kbdRespResend] = [kbdRespResend]
    rw [hnil, List.nil_append]
  have hsilent : (d.elapse.receive value).Silent := by
    rw [hreceive]
    exact hcalm.silent
  obtain ⟨d', hsend, hqueue, hsetup⟩ :=
    sendToKeyboard_of_offers hcalm.expectsConfig hoffers hsilent
  refine ⟨d', hsend, ?_, hqueue⟩
  rw [hsetup, hreceive]
  rfl

/-- A byte that arrives and does not make the keyboard scan is acknowledged. -/
theorem Ps2.Rests.obeyed (h : d.Rests c n) (hcalm : c.Calm) (hpassed : c.garbled n = false)
    (hobey : c.keyboard.obey value = some k)
    (hscan : k.scanning = true → c.keyboard.scanning = true) :
    ∃ d', sendToKeyboard ps2 value d = (some kbdRespAck, d') ∧
      d'.Rests (c.withKeyboard k) (n + 1) := by
  obtain ⟨s, queue, last, inputBusy, lag, interrupts, accesses, sent, handled⟩ := d
  obtain rfl : s = c.after n := h.setup
  obtain rfl : queue = [] := h.queue
  set d : Ps2 := ⟨c.after n, [], last, inputBusy, lag, interrupts, accesses, sent, handled⟩
  have hnil : d.elapse.queue = [] := elapse_queue_nil hcalm.silent rfl
  have hreceive : d.elapse.receive value =
      ({ d.elapse with keyboard := k, transmissions := n + 1 } : Ps2).deliver [kbdRespAck] := by
    rw [receive_obeyed hpassed hobey, if_neg fun h => h.2 (hscan h.1)]
    rfl
  have hoffers : (d.elapse.receive value).Offers kbdRespAck := by
    rw [hreceive]
    refine Or.inl ?_
    show d.elapse.queue ++ [kbdRespAck] = [kbdRespAck]
    rw [hnil, List.nil_append]
  have hsilent : (d.elapse.receive value).Silent := by
    rw [hreceive]
    exact fun h => hcalm.silent (hscan h)
  obtain ⟨d', hsend, hqueue, hsetup⟩ :=
    sendToKeyboard_of_offers hcalm.expectsConfig hoffers hsilent
  refine ⟨d', hsend, ?_, hqueue⟩
  rw [hsetup, hreceive]
  rfl

/-- A command that is sent at most three times. -/
theorem Ps2.Rests.command (h : d.Rests c n) (hcalm : c.Calm)
    (hobey : c.keyboard.obey value = some k)
    (hscan : k.scanning = true → c.keyboard.scanning = true) :
    (∃ a d', Delivered c.garbled maxRetryCount n a ∧
        retry (sendToKeyboard ps2 value) maxRetryCount d = (some kbdRespAck, d') ∧
        d'.Rests (c.withKeyboard k) (n + a + 1)) ∨
      ∃ d', Lost c.garbled maxRetryCount n ∧
        retry (sendToKeyboard ps2 value) maxRetryCount d = (none, d') := by
  have hpass : ∀ n s, c.garbled n = false → Ps2.Rests c n s →
      ∃ b s', sendToKeyboard ps2 value s = (some b, s') ∧
        (b = kbdRespAck ∧ s'.Rests (c.withKeyboard k) (n + 1)) := by
    intro n s hpassed hs
    obtain ⟨s', hsend, hrests⟩ := hs.obeyed hcalm hpassed hobey hscan
    exact ⟨kbdRespAck, s', hsend, rfl, hrests⟩
  obtain ⟨a, b, d', ha, hres, rfl, hrests⟩ | ⟨d', hlost, hres, -⟩ :=
    @retry_spec _ _ _ maxRetryCount _ _ _ (fun n b s => b = kbdRespAck ∧ s.Rests (c.withKeyboard k) n)
      (fun n s hgarbled hs => hs.garbled hcalm hgarbled value) hpass d h
  · exact Or.inl ⟨a, d', ha, hres, hrests⟩
  · exact Or.inr ⟨d', hlost, hres⟩

end Commands

/-! ### The keyboard scans -/

/-- The bytes since the keyboard scans: first the acknowledgement, and all of
them either handled or waiting. -/
structure Ps2.Flowing (d : Ps2) : Prop where
  acknowledged : ∃ scancodes, d.sent = kbdRespAck :: scancodes
  accounted : d.sent = d.handled ++ d.queue
  noResend : kbdRespResend ∉ d.sent
  last : d.handled ≠ [] → d.last ∈ d.handled

/-- The keyboard scans, and the driver has read at most one of its bytes itself:
the acknowledgement, or what came instead when the handler read that. -/
structure Ps2.Listening (d : Ps2) : Prop where
  acknowledged : ∃ scancodes, d.sent = kbdRespAck :: scancodes
  accounted : ∃ own, own.length ≤ 1 ∧ d.sent = d.handled ++ own ++ d.queue

section Scanning
variable {c : Ps2Setup} {k : KeyboardUnit} {d : Ps2} {n : ℕ}

theorem Ps2.Flowing.elapse (h : d.Flowing) (htyped : ∀ n, kbdRespResend ∉ d.typed n) :
    d.elapse.Flowing := by
  have hsent : d.elapse.sent = d.sent ++ d.pressed := rfl
  have hhandled : d.elapse.handled = d.handled ++ (d.queue ++ d.pressed).take d.taken := rfl
  obtain ⟨scancodes, hack⟩ := h.acknowledged
  refine ⟨⟨scancodes ++ d.pressed, ?_⟩, ?_, ?_, fun hne => ?_⟩
  · rw [hsent, hack, List.cons_append]
  · rw [hsent, hhandled, elapse_queue, List.append_assoc, List.take_append_drop, h.accounted,
      List.append_assoc]
  · rw [hsent, List.mem_append]
    rintro (hmem | hmem)
    · exact h.noResend hmem
    · exact notMem_pressed htyped hmem
  · rw [elapse_last, hhandled]
    by_cases htake : (d.queue ++ d.pressed).take d.taken = []
    · rw [htake, List.append_nil]
      rw [hhandled, htake, List.append_nil] at hne
      exact h.last hne
    · refine List.mem_append_right _ ?_
      rw [List.getLastD_eq_getLast?, List.getLast?_eq_some_getLast htake]
      exact List.getLast_mem htake

/-- The read behind the command takes the next byte, or the last one again. -/
theorem Ps2.Flowing.readData (h : d.Flowing) :
    d.readData.1 ≠ kbdRespResend ∧ d.readData.2.Listening := by
  obtain ⟨scancodes, hack⟩ := h.acknowledged
  cases hqueue : d.queue with
  | nil =>
    have hall : d.sent = d.handled := by
      rw [h.accounted, hqueue, List.append_nil]
    have hne : d.handled ≠ [] := by
      rw [← hall, hack]
      exact List.cons_ne_nil _ _
    rw [Ps2.readData, hqueue]
    refine ⟨fun he => h.noResend ?_, ⟨scancodes, hack⟩, [], Nat.zero_le _, ?_⟩
    · rw [hall, ← he]
      exact h.last hne
    · rw [List.append_nil]
      exact h.accounted
  | cons b queue =>
    have hsplit : d.sent = d.handled ++ [b] ++ queue := by
      rw [h.accounted, hqueue, List.append_assoc, List.singleton_append]
    rw [Ps2.readData, hqueue]
    refine ⟨fun he => h.noResend ?_, ⟨scancodes, hack⟩, [b], le_rfl, hsplit⟩
    rw [hsplit, ← he]
    exact List.mem_append_left _ (List.mem_append_right _ (List.mem_singleton_self b))

/-- The command that makes the keyboard scan. -/
theorem Ps2.Rests.enabled (h : d.Rests c n) (hcalm : c.Calm) (hpassed : c.garbled n = false)
    (htyped : ∀ n, kbdRespResend ∉ c.typed n)
    (hobey : c.keyboard.obey kbdCommandEnableScanning = some k)
    (hbefore : c.keyboard.scanning = false) (hscan : k.scanning = true) :
    ∃ b d', sendToKeyboard ps2 kbdCommandEnableScanning d = (some b, d') ∧
      d'.toPs2Setup = (c.withKeyboard k).after (n + 1) ∧ d'.Listening := by
  obtain ⟨s, queue, last, inputBusy, lag, interrupts, accesses, sent, handled⟩ := d
  obtain rfl : s = c.after n := h.setup
  obtain rfl : queue = [] := h.queue
  set d : Ps2 := ⟨c.after n, [], last, inputBusy, lag, interrupts, accesses, sent, handled⟩
  have hnil : d.elapse.queue = [] := elapse_queue_nil hcalm.silent rfl
  have hreceive := receive_obeyed (d := d.elapse) hpassed hobey
  rw [if_pos ⟨hscan, fun htrue => Bool.noConfusion (hbefore.symm.trans htrue)⟩] at hreceive
  have hflowing : (d.elapse.receive kbdCommandEnableScanning).startBusy.Flowing := by
    rw [hreceive]
    have hother : kbdRespResend ∉ [kbdRespAck] := by decide
    refine ⟨⟨[], rfl⟩, ?_, hother, fun hne => absurd rfl hne⟩
    show [kbdRespAck] = [] ++ (d.elapse.queue ++ [kbdRespAck])
    rw [hnil]
    rfl
  have hkeys : (d.elapse.receive kbdCommandEnableScanning).typed = c.typed := by
    rw [hreceive]
    rfl
  have hsetup : (d.elapse.receive kbdCommandEnableScanning).toPs2Setup =
      (c.withKeyboard k).after (n + 1) := by
    rw [hreceive]
    rfl
  obtain ⟨hresp, hlistening⟩ :=
    ((hflowing.elapse (hkeys ▸ htyped)).elapse (hkeys ▸ htyped)).readData
  refine ⟨(d.answering kbdCommandEnableScanning).readData.1,
    (d.answering kbdCommandEnableScanning).readData.2, ?_, ?_, hlistening⟩
  · rw [sendToKeyboard_ps2 hcalm.expectsConfig]
    exact congrArg (·, _) (if_neg hresp)
  · rw [← hsetup, readData_setup]
    rfl

/-- The last command, sent at most three times. -/
theorem Ps2.Rests.enable (h : d.Rests c n) (hcalm : c.Calm)
    (htyped : ∀ n, kbdRespResend ∉ c.typed n)
    (hobey : c.keyboard.obey kbdCommandEnableScanning = some k)
    (hbefore : c.keyboard.scanning = false) (hscan : k.scanning = true) :
    (∃ a d', Delivered c.garbled maxRetryCount n a ∧ keyboardEnableScanning ps2 d = (0, d') ∧
        d'.toPs2Setup = (c.withKeyboard k).after (n + a + 1) ∧ d'.Listening) ∨
      ∃ d', Lost c.garbled maxRetryCount n ∧ keyboardEnableScanning ps2 d = (-1, d') := by
  obtain ⟨a, b, d', ha, hres, hK⟩ | ⟨d', hlost, hres, -⟩ :=
    @retry_spec _ _ _ maxRetryCount _ _ _
      (fun n _ s => s.toPs2Setup = (c.withKeyboard k).after n ∧ s.Listening)
      (fun n s hgarbled hs => hs.garbled hcalm hgarbled _)
      (fun n s hpassed hs => hs.enabled hcalm hpassed htyped hobey hbefore hscan) d h
  · refine Or.inl ⟨a, d', ha, ?_, hK⟩
    rw [keyboardEnableScanning, hres]
  · refine Or.inr ⟨d', hlost, ?_⟩
    rw [keyboardEnableScanning, hres]

end Scanning

/-! ### The controller -/

section Controller
variable {c : Ps2Setup} {d : Ps2} {n : ℕ}

theorem Ps2.statusByte_and : ∀ full busy : Bool,
    (statusByte full busy &&& 0x1 ≠ 0 ↔ full = true) ∧
      (statusByte full busy &&& 0x02 ≠ 0 ↔ busy = true) := by decide

theorem Ps2.status_and_one (d : Ps2) : d.status &&& 0x1 ≠ 0 ↔ d.queue ≠ [] := by
  rw [status, (statusByte_and _ _).1, Bool.not_eq_true', List.isEmpty_eq_false_iff]

theorem Ps2.inputVerdict_status (d : Ps2) :
    inputVerdict d.status = if d.inputBusy ≠ 0 then none else some () := by
  rw [inputVerdict, status]
  refine if_congr ?_ rfl rfl
  rw [(statusByte_and _ _).2, decide_eq_true_iff]

/-- The queue of a keyboard that does not scan is emptied. -/
theorem keyboardFlushBuff_settles (hsilent : c.Silent) (hinst : c.installed = false)
    (hd : d.toPs2Setup = c.after n) :
    ∃ d', Settles (fun fuel => keyboardFlushBuff ps2 fuel d) d' ∧ d'.Rests c n := by
  induction hlen : d.queue.length generalizing d with
  | zero =>
    have hqueue : d.elapse.queue = [] :=
      Ps2.elapse_queue_nil (d := d) (hd ▸ hsilent) (List.eq_nil_of_length_eq_zero hlen)
    refine ⟨{ d.elapse with inputBusy := d.elapse.inputBusy - 1 }, ⟨1, fun fuel hfuel => ?_⟩,
      hd, hqueue⟩
    obtain ⟨fuel, rfl⟩ := Nat.exists_eq_add_of_le' hfuel
    exact if_neg fun hbit => (d.elapse.status_and_one.1 hbit) hqueue
  | succ len ih =>
    obtain ⟨b, queue, hqueue⟩ := List.exists_cons_of_length_eq_add_one hlen
    have hfull : d.elapse.queue = b :: queue := by
      rw [Ps2.elapse_queue_of_not_installed (hd ▸ hinst), Ps2.pressed_eq_nil (hd ▸ hsilent), hqueue,
        List.append_nil]
    set d₁ : Ps2 := { d.elapse with inputBusy := d.elapse.inputBusy - 1 }
    have hfull₁ : d₁.elapse.queue = b :: queue := by
      rw [Ps2.elapse_queue_of_not_installed (hd ▸ hinst), Ps2.pressed_eq_nil (hd ▸ hsilent),
        List.append_nil]
      exact hfull
    have hread : d₁.elapse.readData.2.queue = queue := by
      rw [Ps2.readData, hfull₁]
    have hsetup : d₁.elapse.readData.2.toPs2Setup = c.after n := by
      rw [Ps2.readData_setup]
      exact hd
    obtain ⟨d', ⟨N, hN⟩, hrests⟩ := ih hsetup (by
      rw [hread]
      rw [hqueue, List.length_cons] at hlen
      exact Nat.succ_injective hlen)
    refine ⟨d', ⟨N + 1, fun fuel hfuel => ?_⟩, hrests⟩
    obtain ⟨fuel, rfl⟩ := Nat.exists_eq_add_of_le' hfuel
    have hturn : keyboardFlushBuff ps2 (fuel + N + 1) d =
        keyboardFlushBuff ps2 (fuel + N) d₁.elapse.readData.2 :=
      if_pos (d.elapse.status_and_one.2 (by rw [hfull]; exact List.cons_ne_nil _ _))
    exact hturn.trans (hN _ (Nat.le_add_left _ _))

/-- The controller gets ready for a byte. -/
theorem pollInput_settles (hsilent : c.Silent) (hd : d.toPs2Setup = c) (hqueue : d.queue = []) :
    ∃ d', Settles (fun fuel => pollUntil ps2 kbdStatus inputVerdict fuel d) ((), d') ∧
      d'.toPs2Setup = c ∧ d'.queue = [] := by
  have hturn : ∀ d : Ps2, d.toPs2Setup = c ∧ d.queue = [] →
      (inputVerdict (ps2.inb kbdStatus d).1 = none ∧
        ((ps2.inb kbdStatus d).2.toPs2Setup = c ∧ (ps2.inb kbdStatus d).2.queue = []) ∧
        (ps2.inb kbdStatus d).2.inputBusy < d.inputBusy) ∨
      ∃ b, inputVerdict (ps2.inb kbdStatus d).1 = some b ∧
        (ps2.inb kbdStatus d).2.toPs2Setup = c ∧ (ps2.inb kbdStatus d).2.queue = [] := by
    intro d ⟨hd, hqueue⟩
    have hstays : (ps2.inb kbdStatus d).2.toPs2Setup = c ∧ (ps2.inb kbdStatus d).2.queue = [] :=
      ⟨hd, Ps2.elapse_queue_nil (d := d) (hd ▸ hsilent) hqueue⟩
    have hverdict : inputVerdict (ps2.inb kbdStatus d).1 =
        if d.inputBusy ≠ 0 then none else some () := d.elapse.inputVerdict_status
    by_cases hbusy : d.inputBusy ≠ 0
    · rw [if_pos hbusy] at hverdict
      exact Or.inl ⟨hverdict, hstays, Nat.sub_one_lt hbusy⟩
    · rw [if_neg hbusy] at hverdict
      exact Or.inr ⟨(), hverdict, hstays⟩
  obtain ⟨_, d', hsettles, hd'⟩ := @exists_settles_pollUntil _ _ _ _ _ _
    (fun _ d => d.toPs2Setup = c ∧ d.queue = []) Ps2.inputBusy hturn d ⟨hd, hqueue⟩
  exact ⟨d', hsettles, hd'⟩

theorem ps2ControllerConfigure_settles (hcalm : c.Calm) (hd : d.Rests c n) :
    ∃ d', Settles (fun fuel => ps2ControllerConfigure ps2 fuel d) d' ∧
      d'.Rests { c with config := ps2ConfigByte } n := by
  have hsilent : (c.after n).Silent := hcalm.silent
  obtain ⟨d₁, hpoll₁, hsetup₁, hqueue₁⟩ := pollInput_settles hsilent hd.setup hd.queue
  have hsetup₂ : (ps2.outb kbdCommand kbdCommandWriteCcb d₁).toPs2Setup =
      { c.after n with expectsConfig := true } := by
    rw [← hsetup₁]
    rfl
  have hqueue₂ : (ps2.outb kbdCommand kbdCommandWriteCcb d₁).queue = [] :=
    Ps2.elapse_queue_nil (d := d₁) (hsetup₁ ▸ hsilent) hqueue₁
  obtain ⟨d₃, hpoll₃, hsetup₃, hqueue₃⟩ := pollInput_settles (c := { c.after n with
    expectsConfig := true }) hsilent hsetup₂ hqueue₂
  have hexpects : d₃.elapse.expectsConfig = true := congrArg Ps2Setup.expectsConfig hsetup₃
  have hwrite : ps2.outb kbdData ps2ConfigByte d₃ =
      { d₃.elapse with config := ps2ConfigByte, expectsConfig := false }.startBusy :=
    if_pos hexpects
  refine ⟨ps2.outb kbdData ps2ConfigByte d₃, hpoll₁.bind (hpoll₃.map _), ?_, ?_⟩
  · have hconfigured : (ps2.outb kbdData ps2ConfigByte d₃).toPs2Setup =
        { d₃.toPs2Setup with config := ps2ConfigByte, expectsConfig := false } := by
      rw [hwrite]
      rfl
    rw [hconfigured, hsetup₃]
    simp only [Ps2Setup.after, hcalm.expectsConfig]
  · rw [hwrite]
    exact Ps2.elapse_queue_nil (d := d₃) (hsetup₃ ▸ hsilent) hqueue₃

end Controller

/-! ### The whole sequence -/

/-- The result for the transmission errors from byte `n` on. Four bytes go to the
keyboard: to stop scanning, to select a scancode set, the set, and to scan. -/
def InitResult (garbled : ℕ → Bool) (n : ℕ) (r : ℤ) : Prop :=
  Exchange garbled maxRetryCount 0 n [-1, -2, -2, -3] r

/-- The keyboard before `keyboard_init`. Bytes may be waiting and keys may be
pressed when the first byte for the keyboard is not garbled. -/
structure Ps2.Boots (d : Ps2) : Prop where
  installed : d.installed = false
  expectsConfig : d.expectsConfig = false
  expectsSet : d.keyboard.expectsSet = false
  queue : kbdRespResend ∉ d.queue
  typed : ∀ n, kbdRespResend ∉ d.typed n
  undisturbed : d.garbled d.transmissions = false ∨ d.queue = [] ∧ d.Silent

section Init
variable {c : Ps2Setup} {k : KeyboardUnit} {d : Ps2} {n : ℕ}

/-- The first byte, when it arrives at once: some byte that waited is taken for
the answer, or the answer. -/
theorem disableScanning_undisturbed (hd : d.toPs2Setup = c.after n)
    (hconfig : c.expectsConfig = false) (hset : c.keyboard.expectsSet = false)
    (hinst : c.installed = false) (hpassed : c.garbled n = false)
    (hqueue : kbdRespResend ∉ d.queue) (htyped : ∀ n, kbdRespResend ∉ c.typed n) :
    ∃ d', keyboardDisableScanning ps2 d = (0, d') ∧
      d'.toPs2Setup = (c.withKeyboard { c.keyboard with scanning := false }).after (n + 1) := by
  obtain ⟨s, queue, last, inputBusy, lag, interrupts, accesses, sent, handled⟩ := d
  obtain rfl : s = c.after n := hd
  set d : Ps2 := ⟨c.after n, queue, last, inputBusy, lag, interrupts, accesses, sent, handled⟩
  have hobey : d.elapse.keyboard.obey kbdCommandDisableScanning =
      some { c.keyboard with scanning := false } :=
    KeyboardUnit.obey_disable (k := c.keyboard) hset
  have hreceive := Ps2.receive_obeyed (d := d.elapse) hpassed hobey
  rw [if_neg fun h => Bool.false_ne_true h.1] at hreceive
  have hsilent : (d.elapse.receive kbdCommandDisableScanning).Silent := by
    rw [hreceive]
    exact fun h => Bool.noConfusion h
  have hquiet : ∀ d₁ : Ps2, d₁.installed = false → d₁.Silent → d₁.elapse.queue = d₁.queue := by
    intro d₁ hinst₁ hsilent₁
    rw [Ps2.elapse_queue_of_not_installed hinst₁, Ps2.pressed_eq_nil hsilent₁, List.append_nil]
  have hinst' : (d.elapse.receive kbdCommandDisableScanning).installed = false := by
    rw [hreceive]
    exact hinst
  have hanswer : (d.answering kbdCommandDisableScanning).queue =
      queue ++ d.pressed ++ [kbdRespAck] := by
    have hfirst := hquiet (d.elapse.receive kbdCommandDisableScanning).startBusy hinst' hsilent
    have hsecond := hquiet (d.elapse.receive kbdCommandDisableScanning).startBusy.elapse hinst'
      hsilent
    rw [Ps2.answering, hsecond, hfirst]
    show (d.elapse.receive kbdCommandDisableScanning).queue = _
    rw [hreceive]
    show d.elapse.queue ++ [kbdRespAck] = _
    rw [Ps2.elapse_queue_of_not_installed hinst]
  have hresp : (d.answering kbdCommandDisableScanning).readData.1 ≠ kbdRespResend := by
    have hmem := Ps2.readData_mem (d := d.answering kbdCommandDisableScanning) (by
      rw [hanswer]
      exact List.append_ne_nil_of_right_ne_nil _ (List.cons_ne_nil _ _))
    intro he
    rw [he, hanswer, List.mem_append, List.mem_append, List.mem_singleton] at hmem
    obtain (hmem | hmem) | hmem := hmem
    · exact hqueue hmem
    · exact Ps2.notMem_pressed (d := d) htyped hmem
    · exact absurd hmem (by decide)
  refine ⟨(d.answering kbdCommandDisableScanning).readData.2, ?_, ?_⟩
  · rw [keyboardDisableScanning, maxRetryCount, retry, Ps2.sendToKeyboard_ps2 hconfig, if_neg hresp]
  · rw [Ps2.readData_setup]
    show (d.elapse.receive kbdCommandDisableScanning).toPs2Setup = _
    rw [hreceive]
    rfl

/-- `keyboard_disable_scanning` for a keyboard that boots. -/
theorem Ps2.Boots.disableScanning (hd : d.Boots) :
    (∃ a d', Delivered d.garbled maxRetryCount d.transmissions a ∧
        keyboardDisableScanning ps2 d = (0, d') ∧ d'.toPs2Setup =
          (d.toPs2Setup.withKeyboard { d.keyboard with scanning := false }).after
            (d.transmissions + a + 1)) ∨
      ∃ d', Lost d.garbled maxRetryCount d.transmissions ∧
        keyboardDisableScanning ps2 d = (-1, d') := by
  obtain hpassed | ⟨hqueue, hsilent⟩ := hd.undisturbed
  · obtain ⟨d', hres, hsetup⟩ := disableScanning_undisturbed (c := d.toPs2Setup)
      (n := d.transmissions) rfl hd.expectsConfig hd.expectsSet hd.installed hpassed hd.queue hd.typed
    exact Or.inl ⟨0, d', delivered_zero (by decide) hpassed, hres, hsetup⟩
  · have hrests : d.Rests d.toPs2Setup d.transmissions := ⟨rfl, hqueue⟩
    have hobey := KeyboardUnit.obey_disable hd.expectsSet
    obtain ⟨a, d', ha, hres, hd'⟩ | ⟨d', hlost, hres⟩ :=
      hrests.command ⟨hsilent, hd.expectsConfig⟩ hobey fun h => Bool.noConfusion h
    · refine Or.inl ⟨a, d', ha, ?_, hd'.setup⟩
      rw [keyboardDisableScanning, hres]
    · refine Or.inr ⟨d', hlost, ?_⟩
      rw [keyboardDisableScanning, hres]

/-- `keyboard_set_default_scancode_set`. -/
theorem Ps2.Rests.setDefaultScancodeSet (h : d.Rests c n) (hcalm : c.Calm)
    (hset : c.keyboard.expectsSet = false) :
    (∃ a b d', Delivered c.garbled maxRetryCount n a ∧
        Delivered c.garbled maxRetryCount (n + a + 1) b ∧
        keyboardSetDefaultScancodeSet ps2 d = (0, d') ∧
        d'.Rests (c.withKeyboard { c.keyboard with scancodeSet := defaultScancodeSet })
          (n + a + 1 + b + 1)) ∨
      ∃ r d', r ≠ 0 ∧ keyboardSetDefaultScancodeSet ps2 d = (r, d') ∧
        (Lost c.garbled maxRetryCount n ∨ ∃ a, Delivered c.garbled maxRetryCount n a ∧
          Lost c.garbled maxRetryCount (n + a + 1)) := by
  have hselect := KeyboardUnit.obey_select hset
  obtain ⟨a, d₁, ha, hres₁, hrests₁⟩ | ⟨d₁, hlost, hres₁⟩ := h.command hcalm hselect id
  · have hvalue : KeyboardUnit.obey defaultScancodeSet { c.keyboard with expectsSet := true } =
        some { c.keyboard with scancodeSet := defaultScancodeSet, expectsSet := false } := rfl
    obtain ⟨b, d₂, hb, hres₂, hrests₂⟩ | ⟨d₂, hlost, hres₂⟩ :=
      hrests₁.command ⟨hcalm.silent, hcalm.expectsConfig⟩ hvalue id
    · refine Or.inl ⟨a, b, d₂, ha, hb, ?_, ?_⟩
      · simp [keyboardSetDefaultScancodeSet, hres₁, hres₂]
      · have hkeyboard : ({ c.keyboard with scancodeSet := defaultScancodeSet } : KeyboardUnit) =
            { c.keyboard with scancodeSet := defaultScancodeSet, expectsSet := false } :=
          congrArg (KeyboardUnit.mk c.keyboard.scanning defaultScancodeSet) hset
        rw [hkeyboard]
        exact hrests₂
    · refine Or.inr ⟨-3, d₂, by decide, ?_, Or.inr ⟨a, ha, hlost⟩⟩
      simp [keyboardSetDefaultScancodeSet, hres₁, hres₂]
  · refine Or.inr ⟨-1, d₁, by decide, ?_, Or.inl hlost⟩
    rw [keyboardSetDefaultScancodeSet, hres₁]

/-- The keyboard and the controller after a call that returns 0. -/
structure Ps2.Enabled (d : Ps2) : Prop extends d.Listening where
  keyboard : d.keyboard = ⟨true, defaultScancodeSet, false⟩
  config : d.config = ps2ConfigByte
  installed : d.installed = true

/-- What remains once the controller is configured. -/
theorem keyboardInit_settles (install : Ps2 → Ps2) {d₁ d₃ : Ps2}
    (hdisable : keyboardDisableScanning ps2 d = (0, d₁)) {d₂ : Ps2}
    (hflush : Settles (fun fuel => keyboardFlushBuff ps2 fuel d₁) d₂)
    (hconfigure : Settles (fun fuel => ps2ControllerConfigure ps2 fuel d₂) d₃) :
    Settles (fun fuel => keyboardInit ps2 install fuel d)
      (if (keyboardSetDefaultScancodeSet ps2 d₃).1 ≠ 0 then
        (-2, (keyboardSetDefaultScancodeSet ps2 d₃).2)
      else
        let d₄ := install (keyboardSetDefaultScancodeSet ps2 d₃).2
        if (keyboardEnableScanning ps2 d₄).1 ≠ 0 then (-3, (keyboardEnableScanning ps2 d₄).2)
        else (0, (keyboardEnableScanning ps2 d₄).2)) := by
  obtain ⟨N, hN⟩ := hflush
  obtain ⟨M, hM⟩ := hconfigure
  refine ⟨max N M, fun fuel hfuel => ?_⟩
  have hfirst := hN fuel (le_of_max_le_left hfuel)
  have hsecond := hM fuel (le_of_max_le_right hfuel)
  simp only [keyboardInit, hdisable, ne_eq, not_true_eq_false, if_false, hfirst, hsecond,
    Option.bind_some]
  by_cases hselect : (keyboardSetDefaultScancodeSet ps2 d₃).1 = 0
  · by_cases henable :
        (keyboardEnableScanning ps2 (install (keyboardSetDefaultScancodeSet ps2 d₃).2)).1 = 0
    · simp only [hselect, henable, not_true_eq_false, if_false]
    · simp only [hselect, henable, not_true_eq_false, not_false_eq_true, if_false, if_true]
  · simp only [hselect, not_false_eq_true, if_true]

/-- `keyboard_init`, with the byte that decides. -/
theorem Ps2.Boots.initResult (hd : d.Boots) :
    ∃ r d', Settles (fun fuel => keyboardInit ps2 Ps2.installDriver fuel d) (r, d') ∧
      InitResult d.garbled d.transmissions r ∧ (r = 0 → d'.Enabled) := by
  obtain ⟨a, d₁, ha, hdisable, hsetup₁⟩ | ⟨d₁, hlost, hdisable⟩ := hd.disableScanning
  · set c := d.toPs2Setup.withKeyboard { d.keyboard with scanning := false }
    have hsilent : c.Silent := fun h => Bool.noConfusion h
    obtain ⟨d₂, hflush, hrests₂⟩ := keyboardFlushBuff_settles hsilent hd.installed hsetup₁
    obtain ⟨d₃, hconfigure, hrests₃⟩ :=
      ps2ControllerConfigure_settles ⟨hsilent, hd.expectsConfig⟩ hrests₂
    have hsettles := keyboardInit_settles Ps2.installDriver hdisable hflush hconfigure
    obtain ⟨b, e, d₄, hb, he, hselect, hrests₄⟩ | ⟨r, d₄, hr, hselect, hlost⟩ :=
      hrests₃.setDefaultScancodeSet ⟨hsilent, hd.expectsConfig⟩ hd.expectsSet
    · have hrests₅ : d₄.installDriver.Rests { c with
          keyboard := { c.keyboard with scancodeSet := defaultScancodeSet }
          config := ps2ConfigByte
          installed := true } (d.transmissions + a + 1 + b + 1 + e + 1) :=
        ⟨congrArg (fun c : Ps2Setup => { c with installed := true }) hrests₄.setup, hrests₄.queue⟩
      obtain ⟨f, d', hf, henable, hsetup, hlistening⟩ | ⟨d', hlost, henable⟩ :=
        hrests₅.enable ⟨hsilent, hd.expectsConfig⟩ hd.typed
          (KeyboardUnit.obey_enable hd.expectsSet) rfl rfl
      · refine ⟨0, d', ?_, .next ha (.next hb (.next he (.next hf (.all _)))), fun _ => ?_⟩
        · simpa only [hselect, henable, ne_eq, not_true_eq_false, if_false] using hsettles
        · refine ⟨hlistening, ?_, congrArg Ps2Setup.config hsetup,
            congrArg Ps2Setup.installed hsetup⟩
          refine (congrArg Ps2Setup.keyboard hsetup).trans ?_
          exact congrArg (KeyboardUnit.mk true defaultScancodeSet) hd.expectsSet
      · refine ⟨-3, d', ?_, .next ha (.next hb (.next he (.lost hlost))),
          fun h => absurd h (by decide)⟩
        have hne : ¬((-1 : ℤ) = 0) := by decide
        simpa only [hselect, henable, ne_eq, not_true_eq_false, if_false, hne,
          not_false_eq_true, if_true] using hsettles
    · refine ⟨-2, d₄, ?_, ?_, fun h => absurd h (by decide)⟩
      · simpa only [hselect, ne_eq, hr, not_false_eq_true, if_true] using hsettles
      · obtain hlost | ⟨b, hb, hlost⟩ := hlost
        · exact .next ha (.lost hlost)
        · exact .next ha (.next hb (.lost hlost))
  · refine ⟨-1, d₁, ⟨0, fun fuel _ => ?_⟩, .lost hlost, fun h => absurd h (by decide)⟩
    simp [keyboardInit, hdisable]

end Init

/-- **The result of `keyboard_init`** for every pattern of transmission errors,
whatever waits and whatever is pressed meanwhile: the byte that was lost three
times in a row decides, and without one the keyboard scans in set 2, with every
later byte but at most one left to the driver. -/
theorem keyboardInit_result {d : Ps2} (hd : d.Boots) :
    ∃ r d', Settles (fun fuel => keyboardInit ps2 Ps2.installDriver fuel d) (r, d') ∧
      (∀ r', InitResult d.garbled d.transmissions r' ↔ r' = r) ∧ (r = 0 → d'.Enabled) := by
  obtain ⟨r, d', hsettles, hr, henabled⟩ := hd.initResult
  refine ⟨r, d', hsettles, fun r' => ⟨fun hr' => hr'.unique hr, fun he => he ▸ hr⟩, henabled⟩

/-- A byte waits, a key is pressed before every port access, the handler reads
whenever it can, and the second byte for the keyboard is garbled. -/
theorem keyboardInit_result_busy :
    let d : Ps2 := {
      keyboard := ⟨true, 3, false⟩, expectsConfig := false, config := 0, installed := false
      garbled := fun n => n == 1, transmissions := 0, typed := fun _ => [0x1C]
      queue := [0x2A], last := 0, inputBusy := 1, lag := fun _ => 2, interrupts := fun _ => 1
      accesses := 0, sent := [], handled := [] }
    ∃ d', Settles (fun fuel => keyboardInit ps2 Ps2.installDriver fuel d) (0, d') ∧ d'.Enabled := by
  intro d
  have hscancode : ∀ b : UInt8, b ≠ kbdRespResend → kbdRespResend ∉ [b] := fun b hb hmem =>
    hb (List.mem_singleton.1 hmem).symm
  have hboots : d.Boots :=
    ⟨rfl, rfl, rfl, hscancode 0x2A (by decide), fun _ => hscancode 0x1C (by decide), Or.inl rfl⟩
  obtain ⟨r, d', hsettles, hresult, henabled⟩ := keyboardInit_result hboots
  have hpass : ∀ n, n ≠ 1 → Delivered d.garbled maxRetryCount n 0 := fun n hn =>
    delivered_zero (by decide) (beq_false_of_ne hn)
  have hsecond : Delivered d.garbled maxRetryCount 1 1 := (delivered_zero (by decide) rfl).succ rfl
  obtain rfl : 0 = r := (hresult 0).1 <|
    .next (hpass 0 (by decide)) <| .next hsecond <| .next (hpass 3 (by decide)) <|
      .next (hpass 4 (by decide)) <| .all _
  exact ⟨d', hsettles, henabled rfl⟩

end Ssos
