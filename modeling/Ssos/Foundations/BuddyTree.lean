import Mathlib.Data.Set.Insert
import Mathlib.Order.CompletePartialOrder
import Mathlib.Data.Nat.Bitwise
import Mathlib.Tactic.Ring
import Mathlib.Tactic.Linarith

/-!
# Buddy trees

Windows of power-of-two size, the binary tree of windows below a root, and
tilings of a family of roots by disjoint windows of their trees. A tiling is
changed by splitting a window into its two halves or by merging two halves.

## Main definitions

- `Window` — `2 ^ order` consecutive addresses
- `Window.Sub` — `w` is a node of the binary tree rooted at `r`
- `Tiling` — disjoint tree nodes that together cover the roots

## Main results

- `Window.Sub.nested` — two nodes of one tree that share an address are nested
- `Tiling.exists_partner` — next to a tile, the other half of its parent starts a tile
- `Tiling.split`, `Tiling.merge` — the two edits of a tiling
- `Window.xor_partner` — the other half is found by flipping one address bit
-/

namespace Buddy

/-- `2 ^ order` addresses from `addr` on. -/
@[ext] structure Window where
  addr : ℕ
  order : ℕ
deriving DecidableEq, Repr

namespace Window

/-- First address after the window. -/
def stop (w : Window) : ℕ := w.addr + 2 ^ w.order

instance : Membership ℕ Window where
  mem w x := w.addr ≤ x ∧ x < w.stop

instance (w : Window) (x : ℕ) : Decidable (x ∈ w) :=
  inferInstanceAs (Decidable (w.addr ≤ x ∧ x < w.stop))

theorem mem_def {w : Window} {x : ℕ} : x ∈ w ↔ w.addr ≤ x ∧ x < w.addr + 2 ^ w.order := Iff.rfl

theorem addr_mem (w : Window) : w.addr ∈ w :=
  ⟨le_rfl, Nat.lt_add_of_pos_right (by positivity)⟩

/-- Lower half. -/
def lo (w : Window) : Window := ⟨w.addr, w.order - 1⟩

/-- Upper half. -/
def hi (w : Window) : Window := ⟨w.addr + 2 ^ (w.order - 1), w.order - 1⟩

@[simp] theorem lo_addr (w : Window) : w.lo.addr = w.addr := rfl
@[simp] theorem lo_order (w : Window) : w.lo.order = w.order - 1 := rfl
@[simp] theorem hi_addr (w : Window) : w.hi.addr = w.addr + 2 ^ (w.order - 1) := rfl
@[simp] theorem hi_order (w : Window) : w.hi.order = w.order - 1 := rfl

theorem two_pow_half {n : ℕ} (h : 0 < n) : 2 ^ n = 2 ^ (n - 1) + 2 ^ (n - 1) := by
  obtain ⟨k, rfl⟩ := Nat.exists_eq_succ_of_ne_zero h.ne'
  simp [pow_succ]
  ring

theorem lo_addr_lt_hi_addr (w : Window) : w.lo.addr < w.hi.addr :=
  Nat.lt_add_of_pos_right (Nat.two_pow_pos _)

theorem lo_ne_hi (w : Window) : w.lo ≠ w.hi := by
  intro h
  have hlt := w.lo_addr_lt_hi_addr
  rw [h] at hlt
  exact lt_irrefl _ hlt

/-- The two halves partition a window. -/
theorem mem_iff_halves {w : Window} (h : 0 < w.order) {x : ℕ} :
    x ∈ w ↔ x ∈ w.lo ∨ x ∈ w.hi := by
  have hsize := two_pow_half h
  simp only [mem_def, lo_addr, lo_order, hi_addr, hi_order]
  omega

theorem not_mem_hi_of_mem_lo {w : Window} {x : ℕ} (h : x ∈ w.lo) : x ∉ w.hi := by
  simp only [mem_def, lo_addr, lo_order, hi_addr, hi_order] at *
  omega

/-- `w` is a node of the binary tree of windows rooted at `r`: it has at most
the size of `r` and lies at a multiple of its own size from the start of `r`. -/
def Sub (w r : Window) : Prop :=
  w.order ≤ r.order ∧ ∃ i < 2 ^ (r.order - w.order), w.addr = r.addr + i * 2 ^ w.order

theorem Sub.refl (w : Window) : Sub w w := ⟨le_rfl, 0, by simp, by simp⟩

theorem Sub.order_le {w r : Window} (h : Sub w r) : w.order ≤ r.order := h.1

theorem Sub.addr_le {w r : Window} (h : Sub w r) : r.addr ≤ w.addr := by
  obtain ⟨_, i, _, he⟩ := h
  omega

theorem two_pow_split {p q : ℕ} (h : p ≤ q) : 2 ^ q = 2 ^ (q - p) * 2 ^ p := by
  rw [← pow_add, Nat.sub_add_cancel h]

theorem Sub.stop_le {w r : Window} (h : Sub w r) : w.stop ≤ r.stop := by
  obtain ⟨hle, i, hi, he⟩ := h
  have hsize := two_pow_split hle
  have hmul : (i + 1) * 2 ^ w.order ≤ 2 ^ (r.order - w.order) * 2 ^ w.order :=
    Nat.mul_le_mul_right _ hi
  simp only [stop]
  rw [he, hsize]
  linarith

theorem Sub.mem {w r : Window} (h : Sub w r) {x : ℕ} (hx : x ∈ w) : x ∈ r :=
  ⟨h.addr_le.trans hx.1, hx.2.trans_le h.stop_le⟩

/-- Being a tree node is transitive. -/
theorem Sub.trans {w v r : Window} (h : Sub w v) (h' : Sub v r) : Sub w r := by
  obtain ⟨hle, i, hi, he⟩ := h
  obtain ⟨hle', j, hj, he'⟩ := h'
  have hexp : 2 ^ (r.order - w.order)
      = 2 ^ (r.order - v.order) * 2 ^ (v.order - w.order) := by
    rw [← pow_add]
    congr 1
    omega
  refine ⟨hle.trans hle', i + j * 2 ^ (v.order - w.order), ?_, ?_⟩
  · have hmul : (j + 1) * 2 ^ (v.order - w.order)
        ≤ 2 ^ (r.order - v.order) * 2 ^ (v.order - w.order) := Nat.mul_le_mul_right _ hj
    rw [hexp]
    linarith
  · rw [he, he', two_pow_split hle]
    ring

/-- Two nodes of one tree that share an address are nested. -/
theorem Sub.nested {b c r : Window} (hb : Sub b r) (hc : Sub c r) {x : ℕ} (hxb : x ∈ b)
    (hxc : x ∈ c) (hle : b.order ≤ c.order) : Sub b c := by
  obtain ⟨_, i, _, hbaddr⟩ := hb
  obtain ⟨_, j, _, hcaddr⟩ := hc
  rw [mem_def] at hxb hxc
  rw [two_pow_split hle] at hcaddr hxc
  have hpos : 0 < 2 ^ b.order := by positivity
  have hlower : j * 2 ^ (c.order - b.order) < i + 1 := by
    refine Nat.lt_of_mul_lt_mul_right (a := 2 ^ b.order) ?_
    linarith
  have hupper : i < (j + 1) * 2 ^ (c.order - b.order) := by
    refine Nat.lt_of_mul_lt_mul_right (a := 2 ^ b.order) ?_
    linarith
  obtain ⟨t, rfl⟩ := Nat.exists_eq_add_of_le (Nat.le_of_lt_succ hlower)
  refine ⟨hle, t, by linarith, ?_⟩
  rw [hbaddr, hcaddr]
  ring

theorem Sub.eq_of_order_eq {b c : Window} (h : Sub b c) (ho : b.order = c.order) : b = c := by
  obtain ⟨_, i, hi, he⟩ := h
  rw [ho, Nat.sub_self, pow_zero, Nat.lt_one_iff] at hi
  ext
  · simp [he, hi]
  · exact ho

theorem Sub.lo {w r : Window} (h : Sub w r) : Sub w.lo r := by
  refine Sub.trans ⟨by simp, 0, by simp, by simp⟩ h

theorem Sub.hi {w r : Window} (h : Sub w r) (hpos : 0 < w.order) : Sub w.hi r := by
  refine Sub.trans ⟨by simp, 1, ?_, by simp⟩ h
  have hone : w.order - (w.order - 1) = 1 := by omega
  simp [hone]

/-- `s` and `t` are the two halves of `w`. -/
def Halves (w s t : Window) : Prop := s = w.lo ∧ t = w.hi ∨ s = w.hi ∧ t = w.lo

section Halves
variable {w s t : Window}

theorem halves_lo_hi (w : Window) : Halves w w.lo w.hi := Or.inl ⟨rfl, rfl⟩

theorem Halves.symm (h : Halves w s t) : Halves w t s := by
  rcases h with ⟨hs, ht⟩ | ⟨hs, ht⟩
  · exact Or.inr ⟨ht, hs⟩
  · exact Or.inl ⟨ht, hs⟩

theorem Halves.order_eq (h : Halves w s t) : s.order = w.order - 1 := by
  rcases h with ⟨rfl, _⟩ | ⟨rfl, _⟩ <;> rfl

theorem Halves.mem_iff (h : Halves w s t) (hpos : 0 < w.order) {x : ℕ} :
    x ∈ w ↔ x ∈ s ∨ x ∈ t := by
  rw [mem_iff_halves hpos]
  rcases h with ⟨rfl, rfl⟩ | ⟨rfl, rfl⟩
  · exact Iff.rfl
  · exact or_comm

theorem Halves.sub {r : Window} (h : Halves w s t) (hw : Sub w r) (hpos : 0 < w.order) :
    Sub s r := by
  rcases h with ⟨rfl, _⟩ | ⟨rfl, _⟩
  · exact hw.lo
  · exact hw.hi hpos

/-- The halves start at different addresses, the window at the lower one. -/
theorem Halves.addr_ne (h : Halves w s t) : s.addr ≠ t.addr := by
  rcases h with ⟨rfl, rfl⟩ | ⟨rfl, rfl⟩
  · exact w.lo_addr_lt_hi_addr.ne
  · exact w.lo_addr_lt_hi_addr.ne'

theorem Halves.addr_eq (h : Halves w s t) :
    w.addr = if t.addr < s.addr then t.addr else s.addr := by
  rcases h with ⟨rfl, rfl⟩ | ⟨rfl, rfl⟩
  · rw [if_neg w.lo_addr_lt_hi_addr.asymm]
    rfl
  · rw [if_pos w.lo_addr_lt_hi_addr]
    rfl

end Halves

/-- A node below the root has a parent, of which it is one half. -/
theorem Sub.exists_parent {b r : Window} (h : Sub b r) (hlt : b.order < r.order) :
    ∃ w, Sub w r ∧ w.order = b.order + 1 ∧ (b = w.lo ∨ b = w.hi) := by
  obtain ⟨hle, i, hi, he⟩ := h
  have hexp : 2 ^ (r.order - b.order) = 2 ^ (r.order - (b.order + 1)) * 2 := by
    rw [← pow_succ]
    congr 1
    omega
  refine ⟨⟨r.addr + i / 2 * 2 ^ (b.order + 1), b.order + 1⟩,
    ⟨hlt, i / 2, ?_, rfl⟩, rfl, ?_⟩
  · show i / 2 < 2 ^ (r.order - (b.order + 1))
    omega
  · rcases Nat.mod_two_eq_zero_or_one i with hpar | hpar
    · left
      have hi2 : i = i / 2 * 2 := by omega
      ext
      · show b.addr = r.addr + i / 2 * 2 ^ (b.order + 1)
        rw [he, pow_succ]
        conv_lhs => rw [hi2]
        ring
      · rfl
    · right
      have hi2 : i = i / 2 * 2 + 1 := by omega
      ext
      · show b.addr = r.addr + i / 2 * 2 ^ (b.order + 1) + 2 ^ (b.order + 1 - 1)
        rw [he, pow_succ, Nat.add_sub_cancel]
        conv_lhs => rw [hi2]
        ring
      · rfl

theorem Sub.exists_halves {b r : Window} (h : Sub b r) (hlt : b.order < r.order) :
    ∃ w s, Sub w r ∧ w.order = b.order + 1 ∧ Halves w b s := by
  obtain ⟨w, hw, ho, hb | hb⟩ := h.exists_parent hlt
  · exact ⟨w, w.hi, hw, ho, Or.inl ⟨hb, rfl⟩⟩
  · exact ⟨w, w.lo, hw, ho, Or.inr ⟨hb, rfl⟩⟩

/-- Below an aligned root the tree nodes are the size-aligned windows inside it. -/
theorem sub_iff_aligned {w r : Window} (hr : 2 ^ r.order ∣ r.addr) :
    Sub w r ↔ 2 ^ w.order ∣ w.addr ∧ r.addr ≤ w.addr ∧ w.stop ≤ r.stop := by
  constructor
  · intro h
    refine ⟨?_, h.addr_le, h.stop_le⟩
    obtain ⟨hle, i, _, he⟩ := h
    rw [he]
    exact Nat.dvd_add (Dvd.dvd.trans (Nat.pow_dvd_pow 2 hle) hr) (Dvd.intro_left i rfl)
  · intro ⟨hw, haddr, hstop⟩
    simp only [stop] at hstop
    have hle : w.order ≤ r.order := by
      refine (Nat.pow_le_pow_iff_right (by omega : 1 < 2)).1 ?_
      omega
    have hsplit := two_pow_split hle
    obtain ⟨q, hq⟩ := hw
    obtain ⟨t, ht⟩ := Dvd.dvd.trans (Nat.pow_dvd_pow 2 hle) hr
    have hpos : 0 < 2 ^ w.order := Nat.two_pow_pos _
    have htq : t ≤ q := by
      refine Nat.le_of_mul_le_mul_left (?_ : 2 ^ w.order * t ≤ 2 ^ w.order * q) hpos
      omega
    obtain ⟨i, rfl⟩ := Nat.exists_eq_add_of_le htq
    refine ⟨hle, i, ?_, by rw [hq, ht]; ring⟩
    refine Nat.lt_of_mul_lt_mul_left (a := 2 ^ w.order) ?_
    rw [hq, ht, hsplit, mul_add, mul_comm (2 ^ (r.order - w.order))] at hstop
    omega

/-- Flipping bit `k` of a multiple of `2 ^ k`. -/
theorem xor_two_pow_of_even {q k : ℕ} (h : Even q) : (q * 2 ^ k) ^^^ 2 ^ k = q * 2 ^ k + 2 ^ k := by
  have hshift : (q * 2 ^ k) ^^^ 2 ^ k = (q ^^^ 1) <<< k := by
    rw [Nat.shiftLeft_xor_distrib, Nat.shiftLeft_eq, Nat.shiftLeft_eq, one_mul]
  rw [hshift, Nat.xor_one_of_even h, Nat.shiftLeft_eq]
  ring

theorem xor_two_pow_of_odd {q k : ℕ} (h : Odd q) : (q * 2 ^ k) ^^^ 2 ^ k = (q - 1) * 2 ^ k := by
  have hshift : (q * 2 ^ k) ^^^ 2 ^ k = (q ^^^ 1) <<< k := by
    rw [Nat.shiftLeft_xor_distrib, Nat.shiftLeft_eq, Nat.shiftLeft_eq, one_mul]
  rw [hshift, Nat.xor_one_of_odd h, Nat.shiftLeft_eq]

/-- In a tree whose root is aligned past the parent's size, the start of the
other half of the parent is the own start with one bit flipped. -/
theorem xor_partner {w : Window} (hpos : 0 < w.order) (halign : 2 ^ w.order ∣ w.addr) :
    w.lo.addr ^^^ 2 ^ w.lo.order = w.hi.addr ∧ w.hi.addr ^^^ 2 ^ w.hi.order = w.lo.addr := by
  obtain ⟨q, hq⟩ := halign
  have hsize := two_pow_half hpos
  have hlo : w.addr = 2 * q * 2 ^ (w.order - 1) := by
    rw [hq, hsize]
    ring
  have hhi : w.addr + 2 ^ (w.order - 1) = (2 * q + 1) * 2 ^ (w.order - 1) := by
    rw [hlo]
    ring
  simp only [lo_addr, lo_order, hi_addr, hi_order]
  constructor
  · conv_lhs => rw [hlo]
    rw [xor_two_pow_of_even (even_two_mul q), ← hlo]
  · rw [hhi, xor_two_pow_of_odd (odd_two_mul_add_one q), Nat.add_sub_cancel, ← hlo]

/-- Either half of an aligned window is found from the other one. -/
theorem Halves.xor_eq {w s t : Window} (h : Halves w s t) (hpos : 0 < w.order)
    (halign : 2 ^ w.order ∣ w.addr) : s.addr ^^^ 2 ^ s.order = t.addr := by
  rcases h with ⟨rfl, rfl⟩ | ⟨rfl, rfl⟩
  · exact (xor_partner hpos halign).1
  · exact (xor_partner hpos halign).2

end Window

open Window

/-- No address belongs to two different windows of the family. -/
def Apart (ws : Set Window) : Prop :=
  ∀ b ∈ ws, ∀ c ∈ ws, ∀ x, x ∈ b → x ∈ c → b = c

/-- `blocks` are disjoint tree nodes below `roots` that cover every root. -/
structure Tiling (roots blocks : Set Window) : Prop where
  within : ∀ b ∈ blocks, ∃ r ∈ roots, Sub b r
  cover : ∀ r ∈ roots, ∀ x ∈ r, ∃ b ∈ blocks, x ∈ b
  apart : Apart blocks

theorem Apart.mono {ws vs : Set Window} (h : Apart ws) (hsub : vs ⊆ ws) : Apart vs :=
  fun b hb c hc x hxb hxc => h b (hsub hb) c (hsub hc) x hxb hxc

/-- A window that meets none of the family. -/
theorem Apart.insert {ws : Set Window} (h : Apart ws) {w : Window}
    (hnew : ∀ c ∈ ws, ∀ x, x ∈ w → x ∉ c) : Apart (insert w ws) := by
  rintro b (rfl | hb) c (rfl | hc) x hxb hxc
  · rfl
  · exact absurd hxc (hnew c hc x hxb)
  · exact absurd hxb (hnew b hb x hxc)
  · exact h b hb c hc x hxb hxc

/-- Tiles are determined by their start. -/
theorem Apart.eq_of_addr {ws : Set Window} (h : Apart ws) {b c : Window} (hb : b ∈ ws)
    (hc : c ∈ ws) (he : b.addr = c.addr) : b = c :=
  h b hb c hc b.addr b.addr_mem (he ▸ c.addr_mem)

/-- A tile and its half are not both in the family. -/
theorem Apart.half_notMem {ws : Set Window} (h : Apart ws) {w s t : Window} (hw : w ∈ ws)
    (hpos : 0 < w.order) (hhalf : Halves w s t) : s ∉ ws := by
  intro hs
  have he := h w hw s hs s.addr ((hhalf.mem_iff hpos).2 (Or.inl s.addr_mem)) s.addr_mem
  have ho := hhalf.order_eq
  rw [← he] at ho
  omega

/-- Of two tiles one ends before the other starts. -/
theorem Apart.stop_le {ws : Set Window} (h : Apart ws) {b c : Window} (hb : b ∈ ws)
    (hc : c ∈ ws) (hne : b ≠ c) : b.stop ≤ c.addr ∨ c.stop ≤ b.addr := by
  by_contra hcon
  rw [not_or, not_le, not_le] at hcon
  by_cases hle : b.addr ≤ c.addr
  · exact hne (h b hb c hc c.addr ⟨hle, hcon.1⟩ c.addr_mem)
  · exact hne (h b hb c hc b.addr b.addr_mem ⟨(not_le.1 hle).le, hcon.2⟩)

section Partner
variable {roots blocks : Set Window}

/-- The root of a tile that meets the tree of `r` is `r`. -/
theorem Tiling.sub_of_mem (ht : Tiling roots blocks) (hr : Apart roots) {b r : Window} {x : ℕ}
    (hb : b ∈ blocks) (hroot : r ∈ roots) (hxb : x ∈ b) (hxr : x ∈ r) : Sub b r := by
  obtain ⟨r', hr', hsub⟩ := ht.within b hb
  have he : r' = r := hr r' hr' r hroot x (hsub.mem hxb) hxr
  exact he ▸ hsub

/-- Next to a tile `b` that is one half of `w`, the other half `s` starts with
a tile that is not larger than `b`. -/
theorem Tiling.exists_partner (ht : Tiling roots blocks) (hr : Apart roots) {b r w s : Window}
    (hb : b ∈ blocks) (hroot : r ∈ roots) (hw : Sub w r) (hpos : 0 < w.order)
    (hhalf : Halves w b s) : ∃ c ∈ blocks, c.addr = s.addr ∧ c.order ≤ s.order := by
  have hsr : Sub s r := hhalf.symm.sub hw hpos
  have hso := hhalf.symm.order_eq
  have hbo := hhalf.order_eq
  have hmem := s.addr_mem
  obtain ⟨c, hc, hxc⟩ := ht.cover r hroot s.addr (hsr.mem hmem)
  have hcr := ht.sub_of_mem hr hc hroot hxc (hsr.mem hmem)
  rcases Nat.lt_or_ge s.order c.order with hlt | hge
  · -- a larger tile would contain the whole parent, and with it `b`
    have hsw : s.addr ∈ w := (hhalf.mem_iff hpos).2 (Or.inr hmem)
    have hbw : b.addr ∈ w := (hhalf.mem_iff hpos).2 (Or.inl b.addr_mem)
    have hwc : Sub w c := hw.nested hcr hsw hxc (by omega)
    have hbc : b = c := ht.apart b hb c hc b.addr b.addr_mem (hwc.mem hbw)
    rw [← hbc] at hlt
    omega
  · have hcs : Sub c s := hcr.nested hsr hxc hmem hge
    exact ⟨c, hc, le_antisymm hxc.1 hcs.addr_le, hge⟩

end Partner

/-! ### Edits -/

section Edits
variable {roots B : Set Window} {w : Window}

/-- Replace a tile by its two halves. -/
theorem Tiling.split (ht : Tiling roots (insert w B)) (hw : w ∉ B) (hpos : 0 < w.order) :
    Tiling roots (insert w.lo (insert w.hi B)) where
  within b hb := by
    rcases hb with rfl | rfl | hb
    · obtain ⟨r, hr, hs⟩ := ht.within w (Set.mem_insert _ _)
      exact ⟨r, hr, hs.lo⟩
    · obtain ⟨r, hr, hs⟩ := ht.within w (Set.mem_insert _ _)
      exact ⟨r, hr, hs.hi hpos⟩
    · exact ht.within b (Set.mem_insert_of_mem _ hb)
  cover r hr x hx := by
    obtain ⟨b, hb, hxb⟩ := ht.cover r hr x hx
    rcases hb with rfl | hb
    · rcases (mem_iff_halves hpos).1 hxb with h | h
      · exact ⟨b.lo, Or.inl rfl, h⟩
      · exact ⟨b.hi, Or.inr (Or.inl rfl), h⟩
    · exact ⟨b, Or.inr (Or.inr hb), hxb⟩
  apart := by
    have hout : ∀ c ∈ B, ∀ x, x ∈ w → x ∉ c := fun c hc x hxw hxc => by
      have := ht.apart w (Set.mem_insert _ _) c (Set.mem_insert_of_mem _ hc) x hxw hxc
      exact hw (this ▸ hc)
    have hhalf : ∀ x, x ∈ w.lo ∨ x ∈ w.hi → x ∈ w := fun x h => (mem_iff_halves hpos).2 h
    have hhi : Apart (insert w.hi B) :=
      (ht.apart.mono fun b hb => Or.inr hb).insert fun c hc x hx =>
        hout c hc x (hhalf x (Or.inr hx))
    refine hhi.insert fun c hc x hx => ?_
    rcases hc with rfl | hc
    · exact not_mem_hi_of_mem_lo hx
    · exact hout c hc x (hhalf x (Or.inl hx))

/-- Replace two tiles that are the halves of `w` by `w`. -/
theorem Tiling.merge (ht : Tiling roots (insert w.lo (insert w.hi B))) (hlo : w.lo ∉ B)
    (hhi : w.hi ∉ B) (hpos : 0 < w.order) {r : Window} (hr : r ∈ roots) (hw : Sub w r) :
    Tiling roots (insert w B) where
  within b hb := by
    rcases hb with rfl | hb
    · exact ⟨r, hr, hw⟩
    · exact ht.within b (Or.inr (Or.inr hb))
  cover r hr x hx := by
    obtain ⟨b, hb, hxb⟩ := ht.cover r hr x hx
    rcases hb with rfl | rfl | hb
    · exact ⟨w, Or.inl rfl, (mem_iff_halves hpos).2 (Or.inl hxb)⟩
    · exact ⟨w, Or.inl rfl, (mem_iff_halves hpos).2 (Or.inr hxb)⟩
    · exact ⟨b, Or.inr hb, hxb⟩
  apart := by
    refine (ht.apart.mono fun b hb => Or.inr (Or.inr hb)).insert fun c hc x hxw hxc => ?_
    rcases (mem_iff_halves hpos).1 hxw with h | h
    · exact hlo (ht.apart w.lo (Or.inl rfl) c (Or.inr (Or.inr hc)) x h hxc ▸ hc)
    · exact hhi (ht.apart w.hi (Or.inr (Or.inl rfl)) c (Or.inr (Or.inr hc)) x h hxc ▸ hc)

/-- A fresh root, apart from the old ones, enlarges the tiling by itself. -/
theorem Tiling.insert_root (ht : Tiling roots B) {r : Window}
    (hnew : ∀ r' ∈ roots, ∀ x, x ∈ r → x ∉ r') : Tiling (insert r roots) (insert r B) where
  within b hb := by
    rcases hb with rfl | hb
    · exact ⟨b, Or.inl rfl, Sub.refl b⟩
    · obtain ⟨r', hr', hs⟩ := ht.within b hb
      exact ⟨r', Or.inr hr', hs⟩
  cover r' hr' x hx := by
    rcases hr' with rfl | hr'
    · exact ⟨r', Or.inl rfl, hx⟩
    · obtain ⟨b, hb, hxb⟩ := ht.cover r' hr' x hx
      exact ⟨b, Or.inr hb, hxb⟩
  apart := by
    refine ht.apart.insert fun c hc x hxr hxc => ?_
    obtain ⟨r', hr', hs⟩ := ht.within c hc
    exact hnew r' hr' x hxr (hs.mem hxc)

end Edits

/-! ### Tilings in address order -/

/-- The windows of the list follow one another without gaps from `a` to `stop`. -/
inductive Contiguous (stop : ℕ) : ℕ → List Window → Prop
  | nil : Contiguous stop stop []
  | cons {b : Window} {bs : List Window} (h : Contiguous stop b.stop bs) :
      Contiguous stop b.addr (b :: bs)

/-- Start at `a`, look up the order of the window there, and go on behind it,
for at most `fuel` windows. -/
def walk (orderAt : ℕ → ℕ) (stop : ℕ) : ℕ → ℕ → List Window
  | 0, _ => []
  | fuel + 1, a =>
    if a < stop then ⟨a, orderAt a⟩ :: walk orderAt stop fuel (a + 2 ^ orderAt a) else []

theorem walk_end (orderAt : ℕ → ℕ) (stop fuel : ℕ) : walk orderAt stop fuel stop = [] := by
  cases fuel with
  | zero => rfl
  | succ fuel => rw [walk, if_neg (lt_irrefl _)]

/-- A root that is one tile. -/
theorem walk_single {orderAt : ℕ → ℕ} {r : Window} (h : orderAt r.addr = r.order) :
    walk orderAt r.stop (2 ^ r.order) r.addr = [r] := by
  obtain ⟨fuel, hfuel⟩ := Nat.exists_eq_succ_of_ne_zero (Nat.two_pow_pos r.order).ne'
  have hlt : r.addr < r.stop := r.addr_mem.2
  rw [hfuel, walk, if_pos hlt, h]
  exact congrArg (r :: ·) (walk_end orderAt r.stop fuel)

section Walk
variable {roots blocks : Set Window}

/-- A root starts with a tile. -/
theorem Tiling.exists_first (ht : Tiling roots blocks) (hr : Apart roots) {r : Window}
    (hroot : r ∈ roots) : ∃ b ∈ blocks, Sub b r ∧ b.addr = r.addr := by
  obtain ⟨b, hb, hx⟩ := ht.cover r hroot r.addr r.addr_mem
  have hs := ht.sub_of_mem hr hb hroot hx r.addr_mem
  exact ⟨b, hb, hs, le_antisymm hx.1 hs.addr_le⟩

/-- Behind a tile the root ends or the next tile starts. -/
theorem Tiling.exists_next (ht : Tiling roots blocks) {b r : Window} (hb : b ∈ blocks)
    (hroot : r ∈ roots) (hs : Sub b r) : b.stop = r.stop ∨ ∃ c ∈ blocks, c.addr = b.stop := by
  by_cases hlt : b.stop < r.stop
  · have hb0 : b.addr < b.stop := b.addr_mem.2
    obtain ⟨c, hc, hxc⟩ := ht.cover r hroot b.stop ⟨hs.addr_le.trans hb0.le, hlt⟩
    have hne : c ≠ b := fun he => lt_irrefl _ (he ▸ hxc).2
    refine Or.inr ⟨c, hc, le_antisymm hxc.1 ?_⟩
    by_contra hcon
    by_cases hcb : b.addr ≤ c.addr
    · exact hne (ht.apart c hc b hb c.addr c.addr_mem ⟨hcb, by omega⟩)
    · exact hne (ht.apart c hc b hb b.addr ⟨by omega, hb0.trans hxc.2⟩ b.addr_mem)
  · exact Or.inl (le_antisymm hs.stop_le (by omega))

/-- Behind the last tile of a root nothing is left to list. -/
theorem walk_done {r : Window} {a : ℕ} (ha : a = r.stop ∨ ∃ b ∈ blocks, Sub b r ∧ b.addr = a)
    (hle : r.stop ≤ a) :
    Contiguous r.stop a [] ∧ ∀ b, b ∈ ([] : List Window) ↔ b ∈ blocks ∧ Sub b r ∧ a ≤ b.addr := by
  have hend : a = r.stop := by
    obtain he | ⟨b, _, hs, rfl⟩ := ha
    · exact he
    · have hpos := b.addr_mem.2
      have hstop := hs.stop_le
      omega
  subst hend
  refine ⟨Contiguous.nil, fun b => ⟨fun hb => absurd hb List.not_mem_nil, ?_⟩⟩
  rintro ⟨_, hs, hge⟩
  have hpos := b.addr_mem.2
  have hstop := hs.stop_le
  omega

/-- When the looked-up orders are those of the tiles, the walk through a root
lists exactly its tiles, in address order. -/
theorem Tiling.walk_spec (ht : Tiling roots blocks) (hr : Apart roots) {orderAt : ℕ → ℕ}
    (horder : ∀ b ∈ blocks, orderAt b.addr = b.order) {r : Window} (hroot : r ∈ roots)
    {fuel a : ℕ} (ha : a = r.stop ∨ ∃ b ∈ blocks, Sub b r ∧ b.addr = a)
    (hfuel : r.stop ≤ a + fuel) :
    Contiguous r.stop a (walk orderAt r.stop fuel a) ∧
      ∀ b, b ∈ walk orderAt r.stop fuel a ↔ b ∈ blocks ∧ Sub b r ∧ a ≤ b.addr := by
  induction fuel generalizing a with
  | zero => exact walk_done ha (by omega)
  | succ fuel ih =>
    by_cases hlt : a < r.stop
    · obtain ⟨b, hb, hs, rfl⟩ := ha.resolve_left hlt.ne
      have hbo := horder b hb
      have hwalk : walk orderAt r.stop (fuel + 1) b.addr =
          b :: walk orderAt r.stop fuel b.stop := by
        rw [walk, if_pos hlt, hbo]
        rfl
      have hpos : b.addr < b.stop := b.addr_mem.2
      -- the walk goes on at a tile of the same root, or has left the root
      have hnext : b.stop = r.stop ∨ ∃ c ∈ blocks, Sub c r ∧ c.addr = b.stop := by
        by_cases hend : b.stop = r.stop
        · exact Or.inl hend
        · obtain ⟨c, hc, hca⟩ := (ht.exists_next hb hroot hs).resolve_left hend
          have hcr : b.stop ∈ r := ⟨hs.addr_le.trans hpos.le, lt_of_le_of_ne hs.stop_le hend⟩
          exact Or.inr ⟨c, hc, ht.sub_of_mem hr hc hroot (hca ▸ c.addr_mem) hcr, hca⟩
      rw [hwalk]
      obtain ⟨hc, hmem⟩ := ih hnext (by omega)
      refine ⟨Contiguous.cons hc, fun c => ?_⟩
      rw [List.mem_cons, hmem]
      constructor
      · rintro (rfl | ⟨hcb, hcs, hle⟩)
        · exact ⟨hb, hs, le_rfl⟩
        · exact ⟨hcb, hcs, by omega⟩
      · rintro ⟨hcb, hcs, hle⟩
        by_cases hcstop : b.stop ≤ c.addr
        · exact Or.inr ⟨hcb, hcs, hcstop⟩
        · exact Or.inl (ht.apart c hcb b hb c.addr c.addr_mem ⟨hle, by omega⟩)
    · rw [walk, if_neg hlt]
      exact walk_done ha (not_lt.1 hlt)

end Walk

end Buddy
