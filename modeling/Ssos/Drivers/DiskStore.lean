import Ssos.Drivers.DiskTransfers

/-!
# The disk as a store

What a sequence of `disk_read` and `disk_write` calls returns, against a store
that only knows the contents of its sectors.

## Main results

- `SectorStore.after_eq` — a sector of the store holds what was written to it last
- `diskCalls_refine_store` — every call returns 0, and reads deliver the sectors of the store
-/

namespace Ssos

open Polling

/-! ### The store -/

/-- The contents of the sectors. -/
abbrev SectorStore := ℕ → Sector

namespace SectorStore

/-- Sectors of a buffer are put into the store. -/
def write (lba count : ℕ) (buff : Words) (store : SectorStore) : SectorStore := fun i =>
  if lba ≤ i ∧ i < lba + count then sectorOf buff (i - lba) else store i

/-- A buffer into which sectors have been read. -/
def read (lba count : ℕ) (buff : Words) (store : SectorStore) : Words := fun i =>
  if i < 256 * count then store (lba + i / 256) ⟨i % 256, Nat.mod_lt i (by decide)⟩ else buff i

def step (store : SectorStore) : DiskCall → SectorStore
  | .read _ _ _ => store
  | .write lba count buff => store.write lba count buff

def after (store : SectorStore) (calls : List DiskCall) : SectorStore := calls.foldl step store

end SectorStore

/-- A call that writes the sector. -/
def DiskCall.WritesTo (i : ℕ) : DiskCall → Prop
  | .read _ _ _ => False
  | .write lba count _ => lba ≤ i ∧ i < lba + count

section Store
variable {store : SectorStore} {calls rest : List DiskCall} {i : ℕ}

theorem SectorStore.after_append :
    store.after (calls ++ rest) = (store.after calls).after rest := List.foldl_append

theorem SectorStore.after_of_not_writesTo (h : ∀ call ∈ calls, ¬ call.WritesTo i) :
    store.after calls i = store i := by
  induction calls generalizing store with
  | nil => rfl
  | cons call calls ih =>
    obtain ⟨hcall, hcalls⟩ := List.forall_mem_cons.1 h
    refine Eq.trans (ih hcalls) ?_
    cases call with
    | read lba count buff => rfl
    | write lba count buff => exact if_neg hcall

/-- **The last write counts.** -/
theorem SectorStore.after_eq {lba count : ℕ} {buff : Words} (hcovers : lba ≤ i ∧ i < lba + count)
    (hrest : ∀ call ∈ rest, ¬ call.WritesTo i) :
    store.after (calls ++ .write lba count buff :: rest) i = sectorOf buff (i - lba) := by
  rw [after_append]
  exact (after_of_not_writesTo hrest).trans (if_pos hcovers)

end Store

/-! ### The calls -/

/-- The call is for 1 to 256 sectors of a disk of `capacity`. -/
def DiskCall.Fits (capacity : ℕ) : DiskCall → Prop
  | .read lba count _ => 1 ≤ count ∧ count ≤ 256 ∧ lba + count ≤ capacity
  | .write lba count _ => 1 ≤ count ∧ count ≤ 256 ∧ lba + count ≤ capacity

/-- The drive is idle and holds the store. -/
structure HoldsStore (capacity : ℕ) (store : SectorStore) (d : Drive) : Prop where
  idle : d.Idle
  length : d.sectors.length = capacity
  sector : ∀ lba < capacity, d.sectors[lba]? = some (store lba)

theorem Drive.holdsStore_blank (capacity : ℕ) :
    HoldsStore capacity (fun _ _ => 0) (.blank capacity) := by
  refine ⟨⟨rfl, rfl⟩, List.length_replicate, fun lba hlba => ?_⟩
  rw [Drive.blank, List.getElem?_replicate, if_pos hlba]

/-- What a call returns, and the drive afterwards. -/
def DiskCall.result (fuel : ℕ) (d : Drive) : DiskCall → Option (ℤ × Drive)
  | .read lba count buff =>
    (diskRead ataDrive fuel lba count buff d).map fun res => (res.1, res.2.2)
  | .write lba count buff => diskWrite ataDrive fuel lba count buff d

/-- Every call of the sequence returns 0, and the last one leaves the drive as `d'`. -/
def Leads (d' : Drive) : Drive → List DiskCall → Prop
  | d, [] => d = d'
  | d, call :: calls => ∃ d₁, Settles (fun fuel => call.result fuel d) (0, d₁) ∧ Leads d' d₁ calls

section Calls
variable {capacity lba count : ℕ} {store : SectorStore} {d : Drive}

theorem HoldsStore.read (h : HoldsStore capacity store d) (hcap : capacity ≤ 2 ^ 28)
    (hlow : 1 ≤ count) (hhigh : count ≤ 256) (hrange : lba + count ≤ capacity) (buff : Words) :
    ∃ d', Settles (fun fuel => diskRead ataDrive fuel lba count buff d)
        (0, store.read lba count buff, d') ∧ HoldsStore capacity store d' := by
  have hblocks := (programmedBlocks_eq_iff count).2 ⟨hlow, hhigh⟩
  have hlba : lba % 2 ^ 28 = lba := Nat.mod_eq_of_lt (by omega)
  obtain ⟨d', hsettles, hd'⟩ := diskRead_settles h.idle lba hblocks.ge buff
  have hloaded : loadSectors d (lba % 2 ^ 28) count buff = store.read lba count buff := by
    funext i
    rw [loadSectors, SectorStore.read, hlba]
    by_cases hi : i < 256 * count
    · rw [if_pos hi, if_pos hi, Drive.sectorAt, h.sector _ (by omega), Option.getD_some]
      rfl
    · rw [if_neg hi, if_neg hi]
  rw [hloaded] at hsettles
  exact ⟨d', hsettles, hd'.done hblocks.le, hd'.sectors ▸ h.length, hd'.sectors ▸ h.sector⟩

theorem HoldsStore.write (h : HoldsStore capacity store d) (hcap : capacity ≤ 2 ^ 28)
    (hlow : 1 ≤ count) (hhigh : count ≤ 256) (hrange : lba + count ≤ capacity) (buff : Words) :
    ∃ d', Settles (fun fuel => diskWrite ataDrive fuel lba count buff d) (0, d') ∧
      HoldsStore capacity (store.write lba count buff) d' := by
  have hblocks := (programmedBlocks_eq_iff count).2 ⟨hlow, hhigh⟩
  have hlba : lba % 2 ^ 28 = lba := Nat.mod_eq_of_lt (by omega)
  obtain ⟨d', hsettles, hd', hbusy⟩ := diskWrite_settles h.idle lba hblocks.ge buff
  refine ⟨d', hsettles, ⟨hd'.done hblocks.le, hbusy⟩, ?_, fun i hi => ?_⟩
  · rw [hd'.sectors, length_storeSectors, h.length]
  · rw [hd'.sectors, getElem?_storeSectors, hlba, h.length, SectorStore.write]
    by_cases hin : lba ≤ i ∧ i < lba + count
    · rw [if_pos ⟨hin.1, hin.2, hi⟩, if_pos hin]
    · rw [if_neg fun hc => hin ⟨hc.1, hc.2.1⟩, if_neg hin, h.sector i hi]

/-- **Step lemma.** -/
theorem HoldsStore.call (h : HoldsStore capacity store d) (hcap : capacity ≤ 2 ^ 28)
    {call : DiskCall} (hfits : call.Fits capacity) :
    ∃ d', Settles (fun fuel => call.result fuel d) (0, d') ∧
      HoldsStore capacity (store.step call) d' := by
  cases call with
  | read lba count buff =>
    obtain ⟨d', hsettles, hd'⟩ := h.read hcap hfits.1 hfits.2.1 hfits.2.2 buff
    exact ⟨d', hsettles.map _, hd'⟩
  | write lba count buff => exact h.write hcap hfits.1 hfits.2.1 hfits.2.2 buff

/-- **Run lemma.** -/
theorem HoldsStore.calls (h : HoldsStore capacity store d) (hcap : capacity ≤ 2 ^ 28)
    {calls : List DiskCall} (hfits : ∀ call ∈ calls, call.Fits capacity) :
    ∃ d', Leads d' d calls ∧ HoldsStore capacity (store.after calls) d' := by
  induction calls generalizing d store with
  | nil => exact ⟨d, rfl, h⟩
  | cons call calls ih =>
    obtain ⟨hcall, hrest⟩ := List.forall_mem_cons.1 hfits
    obtain ⟨d₁, hsettles, hd₁⟩ := h.call hcap hcall
    obtain ⟨d', hleads, hd'⟩ := ih hd₁ hrest
    exact ⟨d', ⟨d₁, hsettles, hleads⟩, hd'⟩

end Calls

/-- **The disk is a store.** Any calls inside the disk return 0, and a read
behind them delivers each sector as the last write to it has left it; where
there was none, as it was in the beginning. -/
theorem diskCalls_refine_store {capacity : ℕ} (hcap : capacity ≤ 2 ^ 28) {d : Drive}
    {store : SectorStore} (hd : HoldsStore capacity store d) {calls : List DiskCall}
    (hcalls : ∀ call ∈ calls, call.Fits capacity) {lba count : ℕ} {buff : Words}
    (hread : (DiskCall.read lba count buff).Fits capacity) :
    ∃ d' words d'', Leads d' d calls ∧
      Settles (fun fuel => diskRead ataDrive fuel lba count buff d') (0, words, d'') ∧
      ∀ s < count, ((∀ call ∈ calls, ¬ call.WritesTo (lba + s)) → sectorOf words s = store (lba + s)) ∧
        ∀ before between lba' count' buff',
          calls = before ++ .write lba' count' buff' :: between →
            (lba' ≤ lba + s ∧ lba + s < lba' + count') →
              (∀ call ∈ between, ¬ call.WritesTo (lba + s)) →
                sectorOf words s = sectorOf buff' (lba + s - lba') := by
  obtain ⟨d', hleads, hd'⟩ := hd.calls hcap hcalls
  obtain ⟨d'', hsettles, -⟩ := hd'.read hcap hread.1 hread.2.1 hread.2.2 buff
  refine ⟨d', _, d'', hleads, hsettles, fun s hs => ?_⟩
  have hsector : sectorOf ((store.after calls).read lba count buff) s = store.after calls (lba + s) := by
    funext i
    have hdiv : (s * 256 + i.val) / 256 = s := by omega
    rw [sectorOf, SectorStore.read, if_pos (by omega), hdiv]
    exact congrArg _ (Fin.ext (show (s * 256 + i.val) % 256 = i.val by omega))
  rw [hsector]
  refine ⟨SectorStore.after_of_not_writesTo, ?_⟩
  rintro before between lba' count' buff' rfl hcovers hbetween
  exact SectorStore.after_eq hcovers hbetween

theorem diskCalls_refine_store_twice :
    ∃ d' words d'', Leads d' (.blank 4) [.write 0 3 fun _ => 1, .write 2 1 fun _ => 2] ∧
      Settles (fun fuel => diskRead ataDrive fuel 1 2 (fun _ => 0) d') (0, words, d'') ∧
      sectorOf words 0 = fun _ => 1 := by
  have hcalls : ∀ call ∈ [DiskCall.write 0 3 fun _ => 1, .write 2 1 fun _ => 2], call.Fits 4 := by
    intro call hcall
    simp only [List.mem_cons, List.not_mem_nil, or_false] at hcall
    rcases hcall with rfl | rfl <;> exact ⟨by decide, by decide, by decide⟩
  obtain ⟨d', words, d'', hleads, hsettles, hwords⟩ := diskCalls_refine_store (by decide)
    (Drive.holdsStore_blank 4) hcalls
    (show (DiskCall.read 1 2 fun _ => 0).Fits 4 from ⟨by decide, by decide, by decide⟩)
  refine ⟨d', words, d'', hleads, hsettles, ?_⟩
  refine (hwords 0 (by decide)).2 [] [.write 2 1 fun _ => 2] 0 3 _ rfl ⟨by decide, by decide⟩ ?_
  rintro call hcall
  obtain rfl := List.mem_singleton.1 hcall
  exact fun h => absurd h.1 (by decide)

end Ssos
