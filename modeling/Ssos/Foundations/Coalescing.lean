import Ssos.Foundations.BuddyTree

/-!
# Coalesced tilings

A tiling whose tiles are coloured free or live is coalesced when no two free
tiles are the halves of one node. In a coalesced tiling the free tiles are
determined by the live ones: they are exactly the maximal tree nodes that meet
no live tile (`Coalesced.free_iff_maximal`).
-/

namespace Buddy

open Window

/-- No node of the trees has both halves among the free tiles. -/
def Coalesced (roots free : Set Window) : Prop :=
  ∀ r ∈ roots, ∀ w, Sub w r → 0 < w.order → ¬(w.lo ∈ free ∧ w.hi ∈ free)

/-- A tree node that meets no live tile. -/
def Vacant (roots live : Set Window) (w : Window) : Prop :=
  (∃ r ∈ roots, Sub w r) ∧ ∀ b ∈ live, ∀ x, x ∈ w → x ∉ b

/-- An inclusion-maximal vacant node. -/
def MaximalVacant (roots live : Set Window) (w : Window) : Prop :=
  Vacant roots live w ∧ ∀ v, Vacant roots live v → (∀ x, x ∈ w → x ∈ v) → v = w

theorem Coalesced.mono {roots free free' : Set Window} (h : Coalesced roots free)
    (hsub : free' ⊆ free) : Coalesced roots free' :=
  fun r hr w hw hpos hboth => h r hr w hw hpos ⟨hsub hboth.1, hsub hboth.2⟩

/-- A window is a half of at most one node. -/
theorem half_unique {roots : Set Window} (hr : Apart roots) {r r' v w : Window}
    (hroot : r ∈ roots) (hroot' : r' ∈ roots) (hv : Sub v r) (hw : Sub w r')
    (hvpos : 0 < v.order) (hwpos : 0 < w.order) {b : Window} (hbv : b = v.lo ∨ b = v.hi)
    (hbw : b = w.lo ∨ b = w.hi) : v = w := by
  have hxv : b.addr ∈ v := by
    rw [mem_iff_halves hvpos]
    obtain rfl | rfl := hbv
    · exact Or.inl v.lo.addr_mem
    · exact Or.inr v.hi.addr_mem
  have hxw : b.addr ∈ w := by
    rw [mem_iff_halves hwpos]
    obtain rfl | rfl := hbw
    · exact Or.inl w.lo.addr_mem
    · exact Or.inr w.hi.addr_mem
  have hov : b.order = v.order - 1 := by
    obtain rfl | rfl := hbv <;> rfl
  have how : b.order = w.order - 1 := by
    obtain rfl | rfl := hbw <;> rfl
  have ho : v.order = w.order := by omega
  obtain rfl : r = r' := hr r hroot r' hroot' b.addr (hv.mem hxv) (hw.mem hxw)
  exact (hv.nested hw hxv hxw ho.le).eq_of_order_eq ho

/-- Freeing one half of a node whose other half is not free. -/
theorem Coalesced.insert_half {roots free : Set Window} (hc : Coalesced roots free)
    (hr : Apart roots) {r w s t : Window} (hroot : r ∈ roots) (hw : Sub w r)
    (hpos : 0 < w.order) (hhalf : Halves w s t) (ht : t ∉ free) :
    Coalesced roots (insert s free) := by
  intro r' hroot' v hv hvpos ⟨hlo, hhi⟩
  have hvw : s = v.lo ∨ s = v.hi → v = w := fun hs =>
    half_unique hr hroot' hroot hv hw hvpos hpos hs (hhalf.imp And.left And.left)
  have hst : s ≠ t := fun he => hhalf.addr_ne (congrArg Window.addr he)
  by_cases hs : s = v.lo ∨ s = v.hi
  · -- then `v = w`, and the other half would have to be free
    obtain rfl := hvw hs
    have hmem : t ∈ insert s free := by
      obtain ⟨_, rfl⟩ | ⟨_, rfl⟩ := hhalf
      · exact hhi
      · exact hlo
    obtain he | hf := hmem
    · exact hst he.symm
    · exact ht hf
  · rw [not_or] at hs
    exact hc r' hroot' v hv hvpos
      ⟨hlo.resolve_left (Ne.symm hs.1), hhi.resolve_left (Ne.symm hs.2)⟩

/-- Freeing a window that is as large as every root. -/
theorem Coalesced.insert_top {roots free : Set Window} (hc : Coalesced roots free)
    {s : Window} (hs : ∀ r ∈ roots, r.order ≤ s.order) : Coalesced roots (insert s free) := by
  intro r hroot v hv hvpos ⟨hlo, hhi⟩
  have hle := hs r hroot
  have hvle := hv.order_le
  have hne : ∀ b : Window, b.order = v.order - 1 → b ≠ s := fun b hb he => by
    rw [he] at hb
    omega
  exact hc r hroot v hv hvpos ⟨hlo.resolve_left (hne _ rfl), hhi.resolve_left (hne _ rfl)⟩

/-- A fresh root outside every free window. -/
theorem Coalesced.insert_root {roots free : Set Window} (hc : Coalesced roots free) {t : Window}
    (hout : ∀ b ∈ free, b.addr ∉ t) : Coalesced (insert t roots) free := by
  intro r hroot v hv hvpos hboth
  obtain rfl | hroot := hroot
  · refine hout _ hboth.1 (hv.mem ?_)
    exact (mem_iff_halves hvpos).2 (Or.inl v.lo.addr_mem)
  · exact hc r hroot v hv hvpos hboth

theorem Window.Sub.of_subset {w v r : Window} (hw : Sub w r) (hv : Sub v r)
    (h : ∀ x, x ∈ w → x ∈ v) : Sub w v := by
  rcases Nat.lt_or_ge v.order w.order with hlt | hge
  · -- a smaller window cannot contain all of `w`
    have hvw := hv.nested hw (h _ w.addr_mem) w.addr_mem hlt.le
    have hlast : w.addr + 2 ^ w.order - 1 ∈ v := by
      refine h _ ?_
      have := w.addr_mem.2
      simp only [mem_def, stop] at *
      omega
    have hsize : 2 ^ v.order < 2 ^ w.order := Nat.pow_lt_pow_right (by omega) hlt
    have haddr : v.addr ≤ w.addr := (h _ w.addr_mem).1
    simp only [mem_def] at hlast
    omega
  · exact hw.nested hv w.addr_mem (h _ w.addr_mem) hge

section Maximal
variable {roots free live : Set Window}

/-- In a coalesced tiling a vacant node lies inside one free tile. -/
theorem Coalesced.exists_free_sup (hc : Coalesced roots free)
    (ht : Tiling roots (free ∪ live)) (hr : Apart roots) {r w : Window} (hroot : r ∈ roots)
    (hw : Sub w r) (hvac : ∀ b ∈ live, ∀ x, x ∈ w → x ∉ b) : ∃ f ∈ free, Sub w f := by
  induction ho : w.order generalizing w with
  | zero =>
    obtain ⟨b, hb, hxb⟩ := ht.cover r hroot w.addr (hw.mem w.addr_mem)
    rcases hb with hb | hb
    · have hbr := ht.sub_of_mem hr (Or.inl hb) hroot hxb (hw.mem w.addr_mem)
      exact ⟨b, hb, hw.nested hbr w.addr_mem hxb (by omega)⟩
    · exact absurd hxb (hvac b hb _ w.addr_mem)
  | succ n ih =>
    have hpos : 0 < w.order := by omega
    have hhalf : ∀ x, x ∈ w.lo ∨ x ∈ w.hi → x ∈ w := fun x h => (mem_iff_halves hpos).2 h
    obtain ⟨f, hf, hflo⟩ := ih hw.lo (fun b hb x hx => hvac b hb x (hhalf x (Or.inl hx)))
      (by simp [ho])
    obtain ⟨g, hg, hghi⟩ := ih (hw.hi hpos) (fun b hb x hx => hvac b hb x (hhalf x (Or.inr hx)))
      (by simp [ho])
    have hfr := ht.sub_of_mem hr (Or.inl hf) hroot (hflo.mem w.lo.addr_mem)
      (hw.mem (hhalf _ (Or.inl w.lo.addr_mem)))
    have hgr := ht.sub_of_mem hr (Or.inl hg) hroot (hghi.mem w.hi.addr_mem)
      (hw.mem (hhalf _ (Or.inr w.hi.addr_mem)))
    -- either one of the two tiles is larger than a half, or both halves are free tiles
    rcases Nat.lt_or_ge w.lo.order f.order with hlt | hle
    · exact ⟨f, hf, hw.nested hfr (hhalf _ (Or.inl w.lo.addr_mem)) (hflo.mem w.lo.addr_mem)
        (by simp at hlt; omega)⟩
    · rcases Nat.lt_or_ge w.hi.order g.order with hlt' | hle'
      · exact ⟨g, hg, hw.nested hgr (hhalf _ (Or.inr w.hi.addr_mem)) (hghi.mem w.hi.addr_mem)
          (by simp at hlt'; omega)⟩
      · have hfe := hflo.eq_of_order_eq (le_antisymm hflo.order_le hle)
        have hge := hghi.eq_of_order_eq (le_antisymm hghi.order_le hle')
        exact absurd ⟨hfe ▸ hf, hge ▸ hg⟩ (hc r hroot w hw hpos)

/-- A free tile is vacant. -/
theorem Tiling.vacant_of_free (ht : Tiling roots (free ∪ live)) (hdis : Disjoint free live)
    {f : Window} (hf : f ∈ free) : Vacant roots live f := by
  refine ⟨ht.within f (Or.inl hf), fun b hb x hxf hxb => ?_⟩
  have he := ht.apart f (Or.inl hf) b (Or.inr hb) x hxf hxb
  exact Set.disjoint_left.1 hdis hf (he ▸ hb)

/-- The free tiles of a coalesced tiling are the maximal vacant nodes: they
are a function of the live tiles. -/
theorem Coalesced.free_iff_maximal (hc : Coalesced roots free)
    (ht : Tiling roots (free ∪ live)) (hr : Apart roots) (hdis : Disjoint free live)
    (w : Window) : w ∈ free ↔ MaximalVacant roots live w := by
  constructor
  · intro hw
    have hvac := ht.vacant_of_free hdis hw
    refine ⟨hvac, fun v ⟨⟨r, hroot, hv⟩, hvl⟩ hsub => ?_⟩
    obtain ⟨f, hf, hvf⟩ := hc.exists_free_sup ht hr hroot hv hvl
    have hwf : w = f := ht.apart w (Or.inl hw) f (Or.inl hf) w.addr w.addr_mem
      (hvf.mem (hsub _ w.addr_mem))
    have hwr : Sub w r := ht.sub_of_mem hr (Or.inl hw) hroot w.addr_mem
      (hv.mem (hsub _ w.addr_mem))
    have hwv := Sub.of_subset hwr hv hsub
    exact hvf.eq_of_order_eq (le_antisymm hvf.order_le (hwf ▸ hwv.order_le)) |>.trans hwf.symm
  · rintro ⟨⟨⟨r, hroot, hw⟩, hwl⟩, hmax⟩
    obtain ⟨f, hf, hwf⟩ := hc.exists_free_sup ht hr hroot hw hwl
    exact hmax f (ht.vacant_of_free hdis hf) (fun x hx => hwf.mem hx) ▸ hf

/-- Without live tiles the free tiles are the roots. -/
theorem Coalesced.free_eq_roots (hc : Coalesced roots free)
    (ht : Tiling roots (free ∪ ∅)) (hr : Apart roots) : free = roots := by
  ext w
  rw [hc.free_iff_maximal ht hr (Set.disjoint_empty _)]
  have hroot_vac : ∀ r ∈ roots, Vacant roots ∅ r := fun r hroot =>
    ⟨⟨r, hroot, Sub.refl r⟩, fun b hb => absurd hb (Set.notMem_empty b)⟩
  constructor
  · rintro ⟨⟨⟨r, hroot, hw⟩, _⟩, hmax⟩
    exact hmax r (hroot_vac r hroot) (fun x hx => hw.mem hx) ▸ hroot
  · intro hroot
    refine ⟨hroot_vac w hroot, fun v ⟨⟨r, hr', hv⟩, _⟩ hsub => ?_⟩
    have he : w = r := hr w hroot r hr' w.addr w.addr_mem (hv.mem (hsub _ w.addr_mem))
    have hwv : Sub w v := Sub.of_subset (he ▸ Sub.refl r) hv hsub
    exact hv.eq_of_order_eq (le_antisymm hv.order_le (he ▸ hwv.order_le)) |>.trans he.symm

end Maximal

end Buddy
