import Ssos.Mem.Heap

/-!
# `kfree` statement by statement

The statements of `kfree`, one at a time, so that interrupts can be placed
between them. Without interrupts they do what the function does.

## Main result

- `KfreeRuns.of_kfree` — the statements of a call end in the state of the call
-/

namespace Ssos

open ByteMemory PointerList

/-- The statement that comes next, with the local variables that are in use. -/
inductive KfreePc
  | markFree (block : ℕ)
  | testLevel (block : ℕ)
  | takeBuddy (block : ℕ)
  | testBuddy (block buddy : ℕ)
  | testHead (block buddy : ℕ)
  | unlinkHead (block buddy : ℕ)
  | startSearch (block buddy : ℕ)
  | search (block buddy prev : ℕ)
  | unlinkBehind (block buddy prev : ℕ)
  | lowerBlock (block buddy : ℕ)
  | raiseLevel (block : ℕ)
  | pushNext (block : ℕ)
  | pushHead (block : ℕ)
  | done
deriving DecidableEq

/-- `if (!mem) return`, and the address of the header. -/
def kfreeStart (mem : ℕ) : KfreePc := if mem = 0 then .done else .markFree (mem - metaSize)

/-- One statement; after the last there is none. -/
def kfreeStep (h : Heap) : KfreePc → Option (KfreePc × Heap)
  | .markFree block => some (.testLevel block, { h with mem := setIsFree h.mem block true })
  | .testLevel block =>
    if blockLevel h.mem block < h.highestLevel then some (.takeBuddy block, h)
    else some (.pushNext block, h)
  | .takeBuddy block =>
    let blockSize := 2 ^ (blockLevel h.mem block + memBlocksBaseLevel)
    some (.testBuddy block (block ^^^ blockSize), h)
  | .testBuddy block buddy =>
    if !(blockIsFree h.mem buddy && blockLevel h.mem buddy == blockLevel h.mem block) then
      some (.pushNext block, h)
    else some (.testHead block buddy, h)
  | .testHead block buddy =>
    if h.memBlocks (blockLevel h.mem block) = buddy then some (.unlinkHead block buddy, h)
    else some (.startSearch block buddy, h)
  | .unlinkHead block buddy =>
    some (.lowerBlock block buddy, h.setHead (blockLevel h.mem block) (blockNext h.mem buddy))
  | .startSearch block buddy =>
    some (.search block buddy (h.memBlocks (blockLevel h.mem block)), h)
  | .search block buddy prev =>
    if prev ≠ 0 ∧ blockNext h.mem prev ≠ buddy then
      some (.search block buddy (blockNext h.mem prev), h)
    else some (.unlinkBehind block buddy prev, h)
  | .unlinkBehind block buddy prev =>
    if prev ≠ 0 then
      some (.lowerBlock block buddy, { h with mem := setNext h.mem prev (blockNext h.mem buddy) })
    else some (.lowerBlock block buddy, h)
  | .lowerBlock block buddy => some (.raiseLevel (if buddy < block then buddy else block), h)
  | .raiseLevel block =>
    some (.testLevel block, { h with mem := setLevel h.mem block (blockLevel h.mem block + 1) })
  | .pushNext block =>
    -- an index outside `mem_blocks`
    if blockLevel h.mem block < memBlocksMaxLevelCount then
      some (.pushHead block,
        { h with mem := setNext h.mem block (h.memBlocks (blockLevel h.mem block)) })
    else none
  | .pushHead block => some (.done, h.setHead (blockLevel h.mem block) block)
  | .done => none

/-- The statements from a point of the function on take one heap to another. -/
inductive KfreeRuns : KfreePc → Heap → Heap → Prop
  | done (h : Heap) : KfreeRuns .done h h
  | step {pc pc' : KfreePc} {h h₁ h' : Heap} (hstep : kfreeStep h pc = some (pc', h₁))
      (hrest : KfreeRuns pc' h₁ h') : KfreeRuns pc h h'

namespace KfreeRuns

variable {h h' h₁ : Heap} {block buddy : ℕ}

/-- Before the end of a run there is a next statement, and it stays on the run. -/
theorem next {pc : KfreePc} (hrun : KfreeRuns pc h h') (hpc : pc ≠ .done) :
    ∃ pc' h₁, kfreeStep h pc = some (pc', h₁) ∧ KfreeRuns pc' h₁ h' := by
  cases hrun with
  | done => exact absurd rfl hpc
  | step hstep hrest => exact ⟨_, _, hstep, hrest⟩

/-- The search for the predecessor. -/
theorem search {prev last fuel : ℕ} (hfind : findPrev (blockNext h.mem) buddy fuel prev = some last)
    (hrest : KfreeRuns (.unlinkBehind block buddy last) h h') :
    KfreeRuns (.search block buddy prev) h h' := by
  induction fuel generalizing prev with
  | zero => exact absurd hfind.symm (Option.some_ne_none last)
  | succ fuel ih =>
    rw [findPrev] at hfind
    by_cases hgo : prev ≠ 0 ∧ blockNext h.mem prev ≠ buddy
    · rw [if_pos hgo] at hfind
      exact .step (by rw [kfreeStep, if_pos hgo]) (ih hfind)
    · rw [if_neg hgo] at hfind
      obtain rfl := Option.some_inj.1 hfind
      exact .step (by rw [kfreeStep, if_neg hgo]) hrest

/-- Taking the buddy off its list. -/
theorem unlink (hun : unlinkBuddy h (blockLevel h.mem block) buddy = some h₁)
    (hrest : KfreeRuns (.lowerBlock block buddy) h₁ h') :
    KfreeRuns (.testHead block buddy) h h' := by
  rw [unlinkBuddy] at hun
  by_cases hhead : h.memBlocks (blockLevel h.mem block) = buddy
  · rw [if_pos hhead] at hun
    obtain rfl := Option.some_inj.1 hun
    exact .step (by rw [kfreeStep, if_pos hhead]) (.step rfl hrest)
  · rw [if_neg hhead] at hun
    cases hfind : findPrev (blockNext h.mem) buddy loopFuel
        (h.memBlocks (blockLevel h.mem block)) with
    | none =>
      rw [hfind] at hun
      exact absurd hun.symm (Option.some_ne_none h₁)
    | some prev =>
      rw [hfind] at hun
      simp only at hun
      refine .step (by rw [kfreeStep, if_neg hhead]) (.step rfl (search hfind ?_))
      by_cases hprev : prev ≠ 0
      · rw [if_pos hprev] at hun
        obtain rfl := Option.some_inj.1 hun
        exact .step (by rw [kfreeStep, if_pos hprev]) hrest
      · rw [if_neg hprev] at hun
        obtain rfl := Option.some_inj.1 hun
        exact .step (by rw [kfreeStep, if_neg hprev]) hrest

/-- The merge loop, by induction on its turns. -/
theorem merge {fuel last : ℕ} {examined : List ℕ}
    (hmerge : mergeLoop fuel block h = some (last, examined, h₁))
    (hrest : KfreeRuns (.pushNext last) h₁ h') : KfreeRuns (.testLevel block) h h' := by
  induction fuel generalizing block h examined with
  | zero => exact absurd hmerge.symm (Option.some_ne_none _)
  | succ fuel ih =>
    rw [mergeLoop] at hmerge
    by_cases hlevel : blockLevel h.mem block < h.highestLevel
    · rw [if_pos hlevel] at hmerge
      refine .step (by rw [kfreeStep, if_pos hlevel]) (.step rfl ?_)
      simp only at hmerge
      generalize block ^^^ 2 ^ (blockLevel h.mem block + memBlocksBaseLevel) = buddy at hmerge ⊢
      by_cases hbreak :
        (!(blockIsFree h.mem buddy && blockLevel h.mem buddy == blockLevel h.mem block)) = true
      · rw [if_pos hbreak] at hmerge
        obtain ⟨rfl, hpair⟩ := Prod.mk.inj (Option.some_inj.1 hmerge)
        obtain ⟨_, rfl⟩ := Prod.mk.inj hpair
        exact .step (by rw [kfreeStep, if_pos hbreak]) hrest
      · rw [if_neg hbreak] at hmerge
        refine .step (by rw [kfreeStep, if_neg hbreak]) ?_
        cases hun : unlinkBuddy h (blockLevel h.mem block) buddy with
        | none =>
          rw [hun] at hmerge
          exact absurd hmerge.symm (Option.some_ne_none _)
        | some h₂ =>
          rw [hun] at hmerge
          simp only at hmerge
          refine unlink hun (.step rfl (.step rfl ?_))
          generalize (if buddy < block then buddy else block) = block' at hmerge ⊢
          cases hrec : mergeLoop fuel block'
              { h₂ with mem := setLevel h₂.mem block' (blockLevel h₂.mem block' + 1) } with
          | none =>
            rw [hrec] at hmerge
            exact absurd hmerge.symm (Option.some_ne_none _)
          | some res =>
            obtain ⟨last', examined', h₃⟩ := res
            rw [hrec] at hmerge
            obtain ⟨rfl, hpair⟩ := Prod.mk.inj (Option.some_inj.1 hmerge)
            obtain ⟨_, rfl⟩ := Prod.mk.inj hpair
            exact ih hrec
    · rw [if_neg hlevel] at hmerge
      obtain ⟨rfl, hpair⟩ := Prod.mk.inj (Option.some_inj.1 hmerge)
      obtain ⟨_, rfl⟩ := Prod.mk.inj hpair
      exact .step (by rw [kfreeStep, if_neg hlevel]) hrest

/-- The level of a block does not change when its link does. -/
theorem blockLevel_setNext_self (m : Mem) (block p : ℕ) :
    blockLevel (setNext m block p) block = blockLevel m block := by
  rw [blockLevel, setNext, storeLE_apply_of_outside (by omega)]
  rfl

/-- Putting the block on its list. -/
theorem push (hpush : pushFreed h block = some h') : KfreeRuns (.pushNext block) h h' := by
  rw [pushFreed] at hpush
  by_cases hlevel : blockLevel h.mem block < memBlocksMaxLevelCount
  · simp only [if_pos hlevel] at hpush
    obtain rfl := Option.some_inj.1 hpush
    refine .step (by rw [kfreeStep, if_pos hlevel]) (.step rfl ?_)
    simp only [blockLevel_setNext_self]
    exact .done _
  · simp only [if_neg hlevel] at hpush
    exact absurd hpush.symm (Option.some_ne_none h')

/-- **The statements of a call** end in the state of the call. -/
theorem of_kfree {mem : ℕ} {f : Freed} (hfree : kfree mem h = some f) :
    KfreeRuns (kfreeStart mem) h f.heap := by
  rw [kfree] at hfree
  rw [kfreeStart]
  by_cases hnull : mem = 0
  · rw [if_pos hnull] at hfree ⊢
    obtain rfl := Option.some_inj.1 hfree
    exact .done h
  · rw [if_neg hnull] at hfree ⊢
    simp only at hfree
    cases hmerge : mergeLoop loopFuel (mem - metaSize)
        { h with mem := setIsFree h.mem (mem - metaSize) true } with
    | none =>
      rw [hmerge] at hfree
      exact absurd hfree.symm (Option.some_ne_none f)
    | some res =>
      obtain ⟨last, examined, h₂⟩ := res
      rw [hmerge] at hfree
      simp only at hfree
      cases hpush : pushFreed h₂ last with
      | none =>
        rw [hpush] at hfree
        exact absurd hfree.symm (Option.some_ne_none f)
      | some h₃ =>
        rw [hpush] at hfree
        obtain rfl := Option.some_inj.1 hfree
        exact .step rfl (merge hmerge (push hpush))

end KfreeRuns

end Ssos
