import Mathlib.Data.List.Nodup
import Ssos.Foundations.Transducer
import Ssos.Drivers.Scancodes

/-!
# Streams of key actions

What the decoder makes of the bytes that a keyboard sends for presses and
releases of keys.

## Main results

- `decode_actions` — ordinary actions are decoded one by one and uniquely
- `printScreen_transparent_iff` — which actions the Print Screen sequences spoil
- `pause_unrecognised` — the pause sequence is never recognised
-/

namespace Ssos

open Transducer

/-- One byte for the decoder; an event without a key is dropped. -/
def decodeByte (scancode : UInt8) (d : Decoder) : List KeyboardEvent × Decoder :=
  let res := keyboardTranslateScancode scancode d
  (if res.1.keycode = .none then [] else [res.1], res.2)

/-- The events of a byte stream. -/
def decode (bytes : List UInt8) (d : Decoder) : List KeyboardEvent := outputs decodeByte bytes d

/-- The state of the decoder after a byte stream. -/
def decoderAfter (bytes : List UInt8) (d : Decoder) : Decoder := final decodeByte bytes d

/-- A press or release of the key with a code, in the extended or plain table. -/
structure KeyAction where
  extended : Bool
  code : UInt8
  released : Bool

namespace KeyAction

/-- The key that the table of the action has for its code. -/
def key (a : KeyAction) : Key := if a.extended then extendedKey a.code else plainKey a.code

/-- The table has a key for the code. -/
def Known (a : KeyAction) : Prop := a.key ≠ .unknown ∧ a.key ≠ .none

/-- The bytes in front of the code. -/
def prefixes (a : KeyAction) : List UInt8 :=
  (if a.extended then [0xE0] else []) ++ if a.released then [0xF0] else []

/-- The bytes that the keyboard sends. -/
def bytes (a : KeyAction) : List UInt8 := a.prefixes ++ [a.code]

def event (a : KeyAction) : KeyboardEvent := ⟨a.key, a.released⟩

end KeyAction

/-- The tables have no key for the bytes that the decoder takes first. -/
theorem KeyAction.code_ne {a : KeyAction} (h : a.key ≠ .unknown) :
    a.code ≠ 0xE0 ∧ a.code ≠ 0xF0 ∧ a.code ≠ 0xE1 := by
  have hforward : ∀ c : UInt8, c = 0xE0 ∨ c = 0xF0 ∨ c = 0xE1 →
      extendedKey c = .unknown ∧ plainKey c = .unknown := by
    rintro c (rfl | rfl | rfl) <;> decide
  have hkey : ∀ c : UInt8, a.code = c → ¬(c = 0xE0 ∨ c = 0xF0 ∨ c = 0xE1) := by
    rintro c rfl hc
    apply h
    rw [KeyAction.key, (hforward _ hc).1, (hforward _ hc).2, ite_self]
  have hcode := hkey a.code rfl
  exact ⟨fun hc => hcode (Or.inl hc), fun hc => hcode (Or.inr (Or.inl hc)),
    fun hc => hcode (Or.inr (Or.inr hc))⟩

/-- The byte behind the prefixes goes to the tables. -/
theorem translate_code {a : KeyAction} (h : a.Known) {d : Decoder} (hp : d.pauseSequenceIdx = 0)
    (h₁ : d.isPrintScreenPressedPending = false) (h₂ : d.isPrintScreenReleasedPending = false) :
    keyboardTranslateScancode a.code d = translateKey a.code d := by
  obtain ⟨he0, hf0, he1⟩ := KeyAction.code_ne h.1
  have hpause : ¬(d.pauseSequenceIdx > 0 ∨ a.code = 0xE1) := by
    rw [hp]
    exact not_or.2 ⟨Nat.lt_irrefl 0, he1⟩
  rw [keyboardTranslateScancode, if_neg he0, if_neg hf0, if_neg (by simp [h₁]), if_neg (by simp [h₂]),
    if_neg hpause]

theorem mem_of_lookup {table : List (UInt8 × Key)} {c : UInt8}
    (h : (table.lookup c).getD .unknown ≠ .unknown) :
    (c, (table.lookup c).getD .unknown) ∈ table := by
  cases hl : table.lookup c with
  | none =>
    rw [hl, Option.getD_none] at h
    exact absurd rfl h
  | some key =>
    obtain ⟨l₁, l₂, rfl, _⟩ := List.lookup_eq_some_iff.1 hl
    exact List.mem_append_right l₁ List.mem_cons_self

/-- The two print-screen codes are the only ones without a key in a table. -/
theorem extendedKey_eq_none (c : UInt8) : extendedKey c = .none ↔ c = 0x12 ∨ c = 0x7C := by
  constructor
  · intro hnone
    have hknown : extendedKey c ≠ .unknown := by
      rw [hnone]
      decide
    have hmem : (c, extendedKey c) ∈ extendedTable := mem_of_lookup hknown
    rw [hnone] at hmem
    have hentries : ∀ e ∈ extendedTable, e.2 = .none → e.1 = 0x12 ∨ e.1 = 0x7C := by decide
    exact hentries _ hmem rfl
  · rintro (rfl | rfl)
    · rfl
    · rfl

/-- The decoder behind the bytes in front of the code. -/
def KeyAction.prefixed (a : KeyAction) (d : Decoder) : Decoder :=
  { d with
    isExtended := d.isExtended || a.extended
    isReleased := d.isReleased || a.released }

theorem decode_prefixes (a : KeyAction) (d : Decoder) :
    outputs decodeByte a.prefixes d = [] ∧ final decodeByte a.prefixes d = a.prefixed d := by
  have he0 : ∀ d, decodeByte 0xE0 d = ([], { d with isExtended := true }) := fun d => rfl
  have hf0 : ∀ d, decodeByte 0xF0 d = ([], { d with isReleased := true }) := fun d => rfl
  rw [KeyAction.prefixes, KeyAction.prefixed]
  cases a.extended <;> cases a.released <;> simp [outputs, final, he0, hf0]

/-- An action adds its prefixes to those pending and looks its code up. -/
theorem decode_action {a : KeyAction} (h : a.Known) {d : Decoder} (hp : d.pauseSequenceIdx = 0)
    (h₁ : d.isPrintScreenPressedPending = false) (h₂ : d.isPrintScreenReleasedPending = false) :
    outputs decodeByte a.bytes d =
        (if (translateKey a.code (a.prefixed d)).1.keycode = .none then []
          else [(translateKey a.code (a.prefixed d)).1]) ∧
      final decodeByte a.bytes d = (translateKey a.code (a.prefixed d)).2 := by
  obtain ⟨hout, hfin⟩ := decode_prefixes a d
  have hcode : keyboardTranslateScancode a.code (a.prefixed d) = translateKey a.code (a.prefixed d) :=
    translate_code h hp h₁ h₂
  constructor
  · rw [KeyAction.bytes, outputs_append, hout, hfin, outputs, outputs, decodeByte, hcode,
      List.append_nil, List.nil_append]
  · rw [KeyAction.bytes, final_append, hfin, final, final, decodeByte, hcode]

/-- An action from the initial state gives its event and leads back there. -/
theorem KeyAction.Known.loops {a : KeyAction} (h : a.Known) :
    Loops decodeByte .initial a.bytes [a.event] := by
  obtain ⟨hout, hfin⟩ := decode_action h (d := .initial) rfl rfl rfl
  have hres : translateKey a.code (a.prefixed .initial) = (a.event, .initial) := by
    have hnone : a.extended = true → a.code ≠ 0x12 ∧ a.code ≠ 0x7C := by
      intro he
      have hk := h.2
      rw [KeyAction.key, if_pos he, ne_eq, extendedKey_eq_none] at hk
      exact not_or.1 hk
    rw [translateKey, KeyAction.event, KeyAction.key, KeyAction.prefixed]
    cases he : a.extended with
    | false => simp [Decoder.initial]
    | true =>
      obtain ⟨h12, h7c⟩ := hnone he
      simp [Decoder.initial, h12, h7c]
  rw [hres] at hout hfin
  exact ⟨hout.trans (if_neg h.2), hfin⟩

/-- All codes with their keys. -/
def keyEntries : List ((Bool × UInt8) × Key) :=
  (extendedTable.filter fun e => e.2 ≠ .none).map (fun e => ((true, e.1), e.2)) ++
    plainTable.map fun e => ((false, e.1), e.2)

theorem keyEntries_nodup : (keyEntries.map Prod.snd).Nodup := by
  have hindices : ((keyEntries.map Prod.snd).map Key.ctorIdx).Nodup := by decide +kernel
  exact hindices.of_map _

theorem KeyAction.Known.mem_entries {a : KeyAction} (h : a.Known) :
    ((a.extended, a.code), a.key) ∈ keyEntries := by
  obtain ⟨hu, hn⟩ := h
  cases he : a.extended with
  | false =>
    have hkey : a.key = plainKey a.code := by rw [KeyAction.key, he, if_neg Bool.false_ne_true]
    rw [hkey] at hu ⊢
    exact List.mem_append_right _ (List.mem_map.2 ⟨_, mem_of_lookup hu, rfl⟩)
  | true =>
    have hkey : a.key = extendedKey a.code := by rw [KeyAction.key, he, if_pos rfl]
    rw [hkey] at hu hn ⊢
    have hmem : (a.code, extendedKey a.code) ∈ extendedTable.filter fun e => e.2 ≠ .none :=
      List.mem_filter.2 ⟨mem_of_lookup hu, decide_eq_true hn⟩
    exact List.mem_append_left _ (List.mem_map.2 ⟨_, hmem, rfl⟩)

/-- The event tells the action. -/
theorem KeyAction.Known.event_inj {a b : KeyAction} (ha : a.Known) (hb : b.Known)
    (h : a.event = b.event) : a = b := by
  obtain ⟨hkey, hrel⟩ := KeyboardEvent.mk.inj h
  have hmem := ha.mem_entries
  have hsame := List.inj_on_of_nodup_map keyEntries_nodup hmem hb.mem_entries hkey
  obtain ⟨hext, hcode⟩ := Prod.mk.inj (Prod.mk.inj hsame).1
  cases a
  cases b
  exact KeyAction.mk.injEq .. |>.mpr ⟨hext, hcode, hrel⟩

/-- The bytes of several actions. -/
def streamBytes (actions : List KeyAction) : List UInt8 := actions.flatMap KeyAction.bytes

theorem streamBytes_loops {actions : List KeyAction} (h : ∀ a ∈ actions, a.Known) :
    Loops decodeByte .initial (streamBytes actions) (actions.map KeyAction.event) := by
  have hloops := Loops.flatMap fun a ha => (h a ha).loops
  rwa [← List.map_eq_flatMap] at hloops

theorem events_inj {actions actions' : List KeyAction} (h : ∀ a ∈ actions, a.Known)
    (h' : ∀ a ∈ actions', a.Known)
    (he : actions.map KeyAction.event = actions'.map KeyAction.event) : actions = actions' := by
  induction actions generalizing actions' with
  | nil => exact (List.map_eq_nil_iff.1 he.symm).symm
  | cons a actions ih =>
    cases actions' with
    | nil => exact absurd he (List.cons_ne_nil _ _)
    | cons b actions' =>
      obtain ⟨hhead, htail⟩ := List.cons.inj he
      have hab := (h a List.mem_cons_self).event_inj (h' b List.mem_cons_self) hhead
      rw [hab, ih (fun c hc => h c (List.mem_cons_of_mem a hc))
        (fun c hc => h' c (List.mem_cons_of_mem b hc)) htail]

/-- **Ordinary streams decode faithfully and uniquely.** -/
theorem decode_actions {actions : List KeyAction} (h : ∀ a ∈ actions, a.Known) :
    decode (streamBytes actions) .initial = actions.map KeyAction.event ∧
      decoderAfter (streamBytes actions) .initial = .initial ∧
      ∀ actions' : List KeyAction, (∀ a ∈ actions', a.Known) →
        decode (streamBytes actions') .initial = decode (streamBytes actions) .initial →
          actions' = actions := by
  have hloops := streamBytes_loops h
  refine ⟨hloops.outputs, hloops.final, fun actions' h' he => events_inj h' h ?_⟩
  rw [← (streamBytes_loops h').outputs, ← hloops.outputs]
  exact he

/-- The decoder on Shift pressed, `A` pressed and released, and Right Ctrl pressed. -/
theorem decode_actions_shiftA :
    decode [0x12, 0x1C, 0xF0, 0x1C, 0xE0, 0x14] .initial =
      [⟨.leftShift, false⟩, ⟨.a, false⟩, ⟨.a, true⟩, ⟨.rightCtrl, false⟩] := by
  have hknown : ∀ a ∈ [⟨false, 0x12, false⟩, ⟨false, 0x1C, false⟩, ⟨false, 0x1C, true⟩,
      ⟨true, 0x14, false⟩], KeyAction.Known a := by
    intro a ha
    simp only [List.mem_cons, List.not_mem_nil, or_false] at ha
    rcases ha with rfl | rfl | rfl | rfl <;> exact ⟨by decide, by decide⟩
  exact (decode_actions hknown).1

/-- The bytes of a Print Screen press and release. -/
def printScreenPress : List UInt8 := [0xE0, 0x12, 0xE0, 0x7C]

def printScreenRelease : List UInt8 := [0xE0, 0xF0, 0x7C, 0xE0, 0xF0, 0x12]

/-- The decoder with prefixes that have not been used up. -/
def Decoder.left (released : Bool) : Decoder := { Decoder.initial with
  isExtended := true
  isReleased := released }

theorem decode_printScreenPress :
    outputs decodeByte printScreenPress .initial = [⟨.printScreen, false⟩] ∧
    final decodeByte printScreenPress .initial = .left false := by decide

theorem decode_printScreenRelease :
    outputs decodeByte printScreenRelease .initial = [⟨.printScreen, true⟩] ∧
      final decodeByte printScreenRelease .initial = .left true := by decide

/-- The prefixes left over are among those of the action itself. -/
def Absorbs (released : Bool) (a : KeyAction) : Prop :=
  a.extended = true ∧ (released = true → a.released = true)

theorem Absorbs.prefixed_left {r : Bool} {a : KeyAction} (h : Absorbs r a) :
    a.prefixed (.left r) = a.prefixed .initial := by
  obtain ⟨hext, hrel⟩ := h
  cases r with
  | false => simp [KeyAction.prefixed, Decoder.left, Decoder.initial, hext]
  | true => simp [KeyAction.prefixed, Decoder.left, Decoder.initial, hext, hrel rfl]

/-- No code has one key in both tables. -/
theorem extendedKey_ne_plainKey {c : UInt8} (hu : plainKey c ≠ .unknown) (hn : plainKey c ≠ .none) :
    extendedKey c ≠ plainKey c := by
  intro he
  have hext : KeyAction.Known ⟨true, c, false⟩ := by
    rw [KeyAction.Known, KeyAction.key, if_pos rfl, he]
    exact ⟨hu, hn⟩
  have hplain : KeyAction.Known ⟨false, c, false⟩ := ⟨hu, hn⟩
  have hsame := hext.event_inj hplain (congrArg (KeyboardEvent.mk · false) he)
  exact Bool.noConfusion (congrArg KeyAction.extended hsame)

theorem translateKey_pause (c : UInt8) (d : Decoder) :
    (translateKey c d).2.pauseSequenceIdx = d.pauseSequenceIdx := by
  rw [translateKey]
  cases d.isExtended <;> rfl

/-- Only `0xE1` starts the pause sequence. -/
theorem translate_pause {c : UInt8} (hc : c ≠ 0xE1) {d : Decoder} (hp : d.pauseSequenceIdx = 0) :
    (keyboardTranslateScancode c d).2.pauseSequenceIdx = 0 := by
  have hpause : ¬(d.pauseSequenceIdx > 0 ∨ c = 0xE1) := by
    rw [hp]
    exact not_or.2 ⟨Nat.lt_irrefl 0, hc⟩
  rw [keyboardTranslateScancode, if_neg hpause]
  by_cases he0 : c = 0xE0
  · rw [if_pos he0]
    exact hp
  · rw [if_neg he0]
    by_cases hf0 : c = 0xF0
    · rw [if_pos hf0]
      exact hp
    · rw [if_neg hf0]
      by_cases h7c : d.isPrintScreenPressedPending = true ∧ c = 0x7C
      · rw [if_pos h7c]
        exact hp
      · rw [if_neg h7c]
        by_cases h12 : d.isPrintScreenReleasedPending = true ∧ c = 0x12
        · rw [if_pos h12]
          exact hp
        · rw [if_neg h12, translateKey_pause, hp]

/-- No action starts or continues the pause sequence. -/
theorem decode_action_pause {a : KeyAction} (h : a.key ≠ .unknown) {d : Decoder}
    (hp : d.pauseSequenceIdx = 0) : (final decodeByte a.bytes d).pauseSequenceIdx = 0 := by
  obtain ⟨_, hfin⟩ := decode_prefixes a d
  rw [KeyAction.bytes, final_append, hfin, final, final, decodeByte]
  exact translate_pause (KeyAction.code_ne h).2.2 hp

/-- Every action yields at most one event outside the pause sequence. -/
theorem decode_action_length {a : KeyAction} (h : a.Known) {d : Decoder}
    (hp : d.pauseSequenceIdx = 0) : (outputs decodeByte a.bytes d).length ≤ 1 ∧
      (final decodeByte a.bytes d).pauseSequenceIdx = 0 := by
  refine ⟨?_, decode_action_pause h.1 hp⟩
  obtain ⟨hout, hfin⟩ := decode_prefixes a d
  rw [KeyAction.bytes, outputs_append, hout, hfin, List.nil_append, outputs, outputs,
    List.append_nil, decodeByte]
  by_cases hn : (keyboardTranslateScancode a.code (a.prefixed d)).1.keycode = .none
  · simp only [hn, if_true, List.length_nil, Nat.zero_le]
  · simp only [hn, if_false, List.length_singleton, le_refl]

/-- With a prefix left over the next action, if it does not absorb it, is
decoded as another one or not at all. -/
theorem decode_left_ne {r : Bool} {a : KeyAction} {rest : List KeyAction} (ha : a.Known)
    (hrest : ∀ b ∈ rest, b.Known) (h : ¬Absorbs r a) :
    outputs decodeByte (streamBytes (a :: rest)) (.left r) ≠ (a :: rest).map KeyAction.event := by
  obtain ⟨hout, _⟩ := decode_action ha (d := .left r) rfl rfl rfl
  have hevent : (translateKey a.code (a.prefixed (.left r))).1 =
      ⟨extendedKey a.code, r || a.released⟩ := rfl
  rw [hevent] at hout
  have hsplit : streamBytes (a :: rest) = a.bytes ++ streamBytes rest := List.flatMap_cons
  rw [hsplit, outputs_append, hout, List.map_cons]
  intro he
  by_cases hnone : extendedKey a.code = .none
  · rw [if_pos hnone, List.nil_append] at he
    have hlen : (outputs decodeByte (streamBytes rest)
        (final decodeByte a.bytes (.left r))).length ≤ rest.length :=
      length_outputs_flatMap_le (fun d => d.pauseSequenceIdx = 0)
        (fun b hb d hd => decode_action_length (hrest b hb) hd) (decode_action_length ha rfl).2
    rw [he, List.length_cons, List.length_map] at hlen
    exact Nat.not_succ_le_self _ hlen
  · rw [if_neg hnone] at he
    obtain ⟨hkey, hrel⟩ := KeyboardEvent.mk.inj (List.cons.inj he).1
    cases hext : a.extended with
    | false =>
      have hplain : a.key = plainKey a.code := by rw [KeyAction.key, hext, if_neg Bool.false_ne_true]
      obtain ⟨hu, hn⟩ := ha
      rw [hplain] at hu hn hkey
      exact extendedKey_ne_plainKey hu hn hkey
    | true =>
      refine h ⟨hext, fun hr => ?_⟩
      rw [← hrel, hr, Bool.true_or]

/-- What follows a sequence that leaves a prefix is decoded as usual exactly
when its first action absorbs the prefix. -/
theorem decode_left_iff {r : Bool} {actions : List KeyAction} (h : ∀ a ∈ actions, a.Known) :
    outputs decodeByte (streamBytes actions) (.left r) = actions.map KeyAction.event ↔
      ∀ a ∈ actions.head?, Absorbs r a := by
  cases actions with
  | nil => exact ⟨fun _ a ha => absurd ha (by simp), fun _ => rfl⟩
  | cons a rest =>
    have ha := h a List.mem_cons_self
    have hrest : ∀ b ∈ rest, b.Known := fun b hb => h b (List.mem_cons_of_mem a hb)
    constructor
    · intro he b hb
      obtain rfl := Option.some_inj.1 hb
      by_contra habs
      exact decode_left_ne ha hrest habs he
    · intro habs
      have hpre := (habs a rfl).prefixed_left
      obtain ⟨hout, hfin⟩ := decode_action ha (d := .left r) rfl rfl rfl
      obtain ⟨hout₀, hfin₀⟩ := decode_action ha (d := .initial) rfl rfl rfl
      rw [hpre] at hout hfin
      have hloop := ha.loops
      have hsplit : streamBytes (a :: rest) = a.bytes ++ streamBytes rest := List.flatMap_cons
      rw [hsplit, outputs_append, hout, ← hout₀, hloop.outputs, hfin, ← hfin₀, hloop.final,
        (streamBytes_loops hrest).outputs]
      rfl

/-- A stream around a sequence that leaves a prefix. -/
theorem decode_around_iff {r : Bool} {seq : List UInt8} {e : KeyboardEvent}
    (hseq : outputs decodeByte seq .initial = [e] ∧ final decodeByte seq .initial = .left r)
    {A B : List KeyAction} (hA : ∀ a ∈ A, a.Known) (hB : ∀ b ∈ B, b.Known) :
    decode (streamBytes A ++ seq ++ streamBytes B) .initial =
        decode (streamBytes A) .initial ++ [e] ++ decode (streamBytes B) .initial ↔
      ∀ b ∈ B.head?, Absorbs r b := by
  have hloop := streamBytes_loops hA
  have hall : decode (streamBytes A ++ seq ++ streamBytes B) .initial =
      decode (streamBytes A) .initial ++ [e] ++ outputs decodeByte (streamBytes B) (.left r) := by
    rw [decode, decode, outputs_append, outputs_append, final_append, hloop.final, hseq.1, hseq.2]
  rw [hall, List.append_cancel_left_eq, decode, (streamBytes_loops hB).outputs, decode_left_iff hB]

/-- **Print Screen does not disturb its neighbours** exactly when the next
action sends the prefixes that are left over itself. -/
theorem printScreen_transparent_iff {A B : List KeyAction} (hA : ∀ a ∈ A, a.Known)
    (hB : ∀ b ∈ B, b.Known) :
    (decode (streamBytes A ++ printScreenPress ++ streamBytes B) .initial =
        decode (streamBytes A) .initial ++ [⟨.printScreen, false⟩] ++
          decode (streamBytes B) .initial ↔ ∀ b ∈ B.head?, b.extended = true) ∧
      (decode (streamBytes A ++ printScreenRelease ++ streamBytes B) .initial =
        decode (streamBytes A) .initial ++ [⟨.printScreen, true⟩] ++
          decode (streamBytes B) .initial ↔
        ∀ b ∈ B.head?, b.extended = true ∧ b.released = true) := by
  have hpress := decode_around_iff decode_printScreenPress hA hB
  have hrelease := decode_around_iff decode_printScreenRelease hA hB
  refine ⟨hpress.trans ?_, hrelease.trans ?_⟩
  · simp only [Absorbs, Bool.false_eq_true, false_implies, and_true]
  · simp only [Absorbs, true_implies]

theorem printScreen_transparent_iff_shift :
    (decode (streamBytes [⟨false, 0x12, false⟩] ++ printScreenPress ++
          streamBytes [⟨true, 0x75, false⟩]) .initial =
        decode (streamBytes [⟨false, 0x12, false⟩]) .initial ++ [⟨.printScreen, false⟩] ++
          decode (streamBytes [⟨true, 0x75, false⟩]) .initial ↔ True) := by
  have hshift : ∀ a ∈ [⟨false, 0x12, false⟩], KeyAction.Known a := by
    intro a ha
    rw [List.mem_singleton.1 ha]
    exact ⟨by decide, by decide⟩
  have hup : ∀ b ∈ [⟨true, 0x75, false⟩], KeyAction.Known b := by
    intro b hb
    rw [List.mem_singleton.1 hb]
    exact ⟨by decide, by decide⟩
  refine (printScreen_transparent_iff hshift hup).1.trans ⟨fun _ => trivial, fun _ b hb => ?_⟩
  rw [← Option.some_inj.1 hb]

/-- After a Print Screen press the key `A` is not recognised. -/
theorem printScreen_disturbs : ¬∀ A B : List KeyAction, (∀ a ∈ A, a.Known) → (∀ b ∈ B, b.Known) →
    decode (streamBytes A ++ printScreenPress ++ streamBytes B) .initial =
      decode (streamBytes A) .initial ++ [⟨.printScreen, false⟩] ++
        decode (streamBytes B) .initial := by
  intro h
  have hnil : ∀ a ∈ ([] : List KeyAction), a.Known := fun a ha => absurd ha List.not_mem_nil
  have ha : ∀ b ∈ [⟨false, 0x1C, false⟩], KeyAction.Known b := by
    intro b hb
    rw [List.mem_singleton.1 hb]
    exact ⟨by decide, by decide⟩
  have hbad := h [] [⟨false, 0x1C, false⟩] hnil ha
  exact absurd hbad (by decide)

/-- The Ctrl key that the code `0x14` stands for. -/
def Decoder.ctrl (d : Decoder) : Key := if d.isExtended then .rightCtrl else .leftCtrl

/-- The test for `0xF0` takes the fifth byte of the sequence, so that the
matcher fails at the sixth and the last four bytes are two key releases. -/
theorem decode_pauseSequence {d : Decoder} (hp : d.pauseSequenceIdx = 0) :
    outputs decodeByte pauseSequence d = [⟨d.ctrl, true⟩, ⟨.numlock, true⟩] := by
  obtain ⟨isExtended, isReleased, idx, pressed, released⟩ := d
  obtain rfl : idx = 0 := hp
  cases isExtended <;> cases isReleased <;> cases pressed <;> cases released <;> decide

/-- **The pause sequence is never recognised**: behind any actions it gives a
released Ctrl and a released Num Lock. -/
theorem pause_unrecognised {A B : List KeyAction} (hA : ∀ a ∈ A, a.key ≠ .unknown) :
    outputs decodeByte pauseSequence (decoderAfter (streamBytes A) .initial) =
        [⟨(decoderAfter (streamBytes A) .initial).ctrl, true⟩, ⟨.numlock, true⟩] ∧
      decode (streamBytes A ++ pauseSequence ++ streamBytes B) .initial ≠
        decode (streamBytes A) .initial ++ [⟨.playPause, false⟩] ++
          decode (streamBytes B) .initial := by
  have hidx : (decoderAfter (streamBytes A) .initial).pauseSequenceIdx = 0 :=
    final_flatMap_of (fun d : Decoder => d.pauseSequenceIdx = 0)
      (fun a ha d hd => decode_action_pause (hA a ha) hd) rfl
  have hpause := decode_pauseSequence hidx
  refine ⟨hpause, fun he => ?_⟩
  rw [decoderAfter] at hpause
  rw [decode, outputs_append, outputs_append, hpause, List.append_assoc, List.append_assoc, decode,
    List.append_cancel_left_eq] at he
  obtain ⟨_, hreleased⟩ := KeyboardEvent.mk.inj (List.cons.inj he).1
  exact Bool.noConfusion hreleased

/-- The sequence between Shift pressed and a released cursor key. -/
theorem pause_unrecognised_shift :
    decode (streamBytes [⟨false, 0x12, false⟩] ++ pauseSequence ++
        streamBytes [⟨true, 0x75, true⟩]) .initial ≠
      decode (streamBytes [⟨false, 0x12, false⟩]) .initial ++ [⟨.playPause, false⟩] ++
        decode (streamBytes [⟨true, 0x75, true⟩]) .initial := by
  have hshift : ∀ a ∈ [⟨false, 0x12, false⟩], KeyAction.key a ≠ .unknown := by
    intro a ha
    rw [List.mem_singleton.1 ha]
    decide
  exact (pause_unrecognised hshift).2

/-- The sequence alone. -/
theorem pause_phantom : ¬∀ A B : List KeyAction, (∀ a ∈ A, a.Known) → (∀ b ∈ B, b.Known) →
    decode (streamBytes A ++ pauseSequence ++ streamBytes B) .initial =
      decode (streamBytes A) .initial ++ [⟨.playPause, false⟩] ++
        decode (streamBytes B) .initial := by
  intro h
  have hnil : ∀ a ∈ ([] : List KeyAction), a.Known := fun a ha => absurd ha List.not_mem_nil
  have hbad := h [] [] hnil hnil
  exact absurd hbad (by decide)

end Ssos
