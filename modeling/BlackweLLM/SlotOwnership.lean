import BlackweLLM.SlotLifecycle

/-!
# Ownership over whole runs

A run of calls of the slot pool, those that raise included, keeps rows, sets,
references and mirror in step as long as no `prepare_kv_writes` is refused a
bundle half-way and no restore meets pages that the slot already has.
-/

namespace SlotPool

open List Function BundlePool RaisingState StepRun

variable {β : Type} {s s' : Slots β} {slot : Nat} {g : Geometry} {kv : Nat → Nat → β}

inductive Op where
  | prepareKvWrites (slot start length : Nat)
  | restorePrefixFromArena (slot kvLen : Nat) (keys : List BlockKey)
  | restorePrefixFromCachedBundles (slot kvLen : Nat) (bundleIds : List Nat)
  | publishCommittedBlocks (slot kvLen : Nat) (keys : List BlockKey) (blockSize : Nat) (includePartial : Bool)
  | reserveKvCapacity (slot totalTokens : Nat)
  | resetSlot (slot : Nat)

/-- A call, which may raise half-way. -/
def call (s : Slots β) : Op → Option (Slots β)
  | .prepareKvWrites slot start length => some (endState (prepareKvWrites slot start length s))
  | .restorePrefixFromArena slot kvLen keys => some (endState (restorePrefixFromArena slot kvLen keys s))
  | .restorePrefixFromCachedBundles slot kvLen ids => some (endState (restorePrefixFromCachedBundles slot kvLen ids s))
  | .publishCommittedBlocks slot kvLen keys blockSize includePartial =>
    some (endState (publishCommittedBlocks slot kvLen keys blockSize includePartial s))
  | .reserveKvCapacity slot total => some (endState (reserveKvCapacity slot total s))
  | .resetSlot slot => some (endState (resetSlot slot s))

/-- The calls that keep the rows in step with the sets. -/
def Tracked (s : Slots β) : Op → Prop
  | .prepareKvWrites slot start length =>
    slot < s.geometry.numRows → start + length ≤ s.geometry.maxSeqLen → 0 < length →
      Covered s slot (s.geometry.touched start length)
  | .restorePrefixFromArena slot kvLen keys =>
    Hits s slot kvLen (arenaSources s kvLen keys) → Installable s slot kvLen (arenaSources s kvLen keys)
  | .restorePrefixFromCachedBundles slot kvLen ids => Hits s slot kvLen ids → Installable s slot kvLen ids
  | _ => True

instance decidableTracked (s : Slots β) : (op : Op) → Decidable (Tracked s op)
  | .prepareKvWrites _ _ _ => inferInstanceAs (Decidable (_ → _ → _ → _))
  | .restorePrefixFromArena _ _ _ => inferInstanceAs (Decidable (_ → _))
  | .restorePrefixFromCachedBundles _ _ _ => inferInstanceAs (Decidable (_ → _))
  | .publishCommittedBlocks _ _ _ _ _ => isTrue trivial
  | .reserveKvCapacity _ _ => isTrue trivial
  | .resetSlot _ => isTrue trivial

theorem start_mapped : Mapped (start g kv) where
  valid := start_valid _
  config := rfl
  nodup := fun _ => nodup_nil
  refCnt := by simp [start, BundlePool.start, holders]
  shows := fun _ => shows_replicate _
  width := fun _ => length_replicate ..
  device := rfl
  promised := fun _ _ => rfl
  outside := fun _ _ => rfl

section Steps

theorem call_mapped {op : Op} (h : Mapped s) (hop : Tracked s op) (hcall : call s op = some s') : Mapped s' := by
  cases op with
  | prepareKvWrites slot start length =>
    cases hcall
    have hends := prepareKvWrites_ends h hop
    exact hends.endState (fun _ s' hs' => hs'.1) fun s' hs' => hs'.1 ▸ h
  | restorePrefixFromArena slot kvLen keys =>
    cases hcall
    exact (restorePrefixFromArena_ends h hop).endState (fun _ s' hs' => hs'.1) fun s' hs' => hs'.1 ▸ h
  | restorePrefixFromCachedBundles slot kvLen ids =>
    cases hcall
    exact (restorePrefixFromCachedBundles_ends h hop).endState (fun _ s' hs' => hs'.1) fun _ => False.elim
  | publishCommittedBlocks slot kvLen keys blockSize includePartial =>
    cases hcall
    exact (publishCommittedBlocks_ends h includePartial).endState (fun _ s' hs' => hs'.1) fun s' hs' => hs'.1
  | reserveKvCapacity slot total =>
    cases hcall
    exact (reserveKvCapacity_ends h slot total).endState (fun _ s' hs' => hs'.1) fun s' hs' => hs' ▸ h
  | resetSlot slot =>
    cases hcall
    by_cases hslot : slot < s.geometry.numRows
    · obtain ⟨s', hrun, hmapped, -⟩ := resetSlot_of h hslot
      rw [hrun]
      exact hmapped
    · rw [resetSlot_of_outside hslot]
      exact h

theorem run_mapped {ops : List Op} (hops : Along call Tracked (start g kv) ops)
    (hrun : run call (start g kv) ops = some s) : Mapped s :=
  invariant_of_steps (fun _ _ _ => call_mapped) start_mapped hops hrun

end Steps

section ResetAll

/-- Nothing is referenced or promised, and every bundle is in the queue. -/
structure Clean (s : Slots β) : Prop where
  refCnt : ∀ b, s.arena.refCnt b = 0
  promises : ∀ owner, reservedFor s.arena owner = 0
  promised : requestReserved s.arena = 0
  freeLen : s.arena.freeLen = s.arena.config.usable.length
  bundles : ∀ slot, s.bundles slot = []
  host : ∀ slot, ∀ b ∈ s.host slot, b = 0

theorem resetAll_of (h : Mapped s) : ∃ s', resetAll s = .ok ⟨⟩ s' ∧ Mapped s' ∧ Clean s' := by
  have hloop : ∃ s', (forM (range s.geometry.numRows) resetSlot) s = .ok ⟨⟩ s' ∧ Mapped s' ∧
      s'.geometry = s.geometry ∧ ∀ o ∈ range s.geometry.numRows, s'.bundles o = [] ∧ reservedFor s'.arena o = 0 := by
    apply forM_succeeds (I := fun done s' => Mapped s' ∧ s'.geometry = s.geometry ∧
      ∀ o ∈ done, s'.bundles o = [] ∧ reservedFor s'.arena o = 0)
    · rintro done slot rest s₁ hsplit ⟨hmapped, hgeometry, hdone⟩
      have hslot : slot < s₁.geometry.numRows := by
        rw [hgeometry, ← mem_range, hsplit]
        simp
      obtain ⟨s₂, hrun, hmapped₂, hemptied⟩ := resetSlot_of hmapped hslot
      refine ⟨s₂, hrun, hmapped₂, hemptied.geometry.trans hgeometry, fun o ho => ?_⟩
      rw [hemptied.bundles, reservedFor, hemptied.promises]
      by_cases heq : o = slot
      · rw [heq, update_self]
        exact ⟨rfl, Ledger.amount_erase_self⟩
      · rw [update_of_ne heq, Ledger.amount_erase_of_ne heq]
        apply hdone
        simpa [heq] using ho
    · exact ⟨h, rfl, by simp⟩
  obtain ⟨s', hrun, hmapped, hgeometry, hdone⟩ := hloop
  have hnone : ∀ o, s'.bundles o = [] := by
    intro o
    by_cases ho : o < s'.geometry.numRows
    · exact (hdone o (mem_range.mpr (hgeometry ▸ ho))).1
    · exact hmapped.outside o (not_lt.mp ho)
  have hpromised : ∀ o, reservedFor s'.arena o = 0 := by
    intro o
    by_cases ho : o < s'.geometry.numRows
    · exact (hdone o (mem_range.mpr (hgeometry ▸ ho))).2
    · exact hmapped.promised o (not_lt.mp ho)
  have hspare : ∀ b, s'.arena.refCnt b = 0 := by
    intro b
    rw [hmapped.refCnt, holders, countP_eq_zero]
    simp [hnone]
  refine ⟨s', hrun, hmapped, hspare, hpromised, Ledger.total_eq_zero hpromised, ?_, hnone, fun o b hb => ?_⟩
  · obtain ⟨cold, hot, hwf⟩ := hmapped.valid
    rw [hwf.freeLen_eq, countP_eq_length]
    simp [hspare]
  · simpa using all_eq_true.mp ((all_null_iff hmapped).mpr (hnone o)) b hb

end ResetAll

section Runs

def rowsHolding (s : Slots β) (b : Nat) : Nat := (range s.geometry.numRows).countP fun slot => decide (b ∈ s.host slot)

/-- Rows, sets, references and mirror agree. -/
structure Consistent (s : Slots β) : Prop where
  pages : ∀ slot b, b ∈ s.bundles slot ↔ b ∈ s.host slot ∧ b ≠ 0
  once : ∀ slot, ((s.host slot).filter (· ≠ 0)).Nodup
  refCnt : ∀ b, b ≠ 0 → s.arena.refCnt b = rowsHolding s b
  device : s.device = s.host

theorem Mapped.consistent (h : Mapped s) : Consistent s where
  pages := by
    intro slot b
    constructor
    · intro hmem
      by_cases hslot : slot < s.geometry.numRows
      · have hne := h.nonnull (h.usable (h.live hslot hmem))
        exact ⟨((h.shows slot).mem_iff hne).mpr hmem, hne⟩
      · rw [h.outside slot (not_lt.mp hslot)] at hmem
        cases hmem
    · rintro ⟨hmem, hne⟩
      exact ((h.shows slot).mem_iff hne).mp hmem
  once := fun slot => (h.shows slot).distinct
  refCnt := by
    intro b hb
    rw [h.refCnt]
    apply countP_congr
    intro slot _
    simp [(h.shows slot).mem_iff hb]
  device := h.device

/-- Every state of such a run is consistent, and `reset_all` gives everything back. -/
theorem run_consistent {ops : List Op} (hops : Along call Tracked (start g kv) ops)
    (hrun : run call (start g kv) ops = some s) :
    Consistent s ∧ ∃ s', resetAll s = .ok ⟨⟩ s' ∧ Consistent s' ∧ Clean s' := by
  have hmapped := run_mapped hops hrun
  obtain ⟨s', hreset, hmapped', hclean⟩ := resetAll_of hmapped
  exact ⟨hmapped.consistent, s', hreset, hmapped'.consistent, hclean⟩

theorem four_bundles : 1 < 4 := by decide

theorem page_pos : 0 < 128 := by decide

def threeBundles : Geometry := ⟨2, 128, 4, ⟨4, 1, 0, true, Nat.one_pos, four_bundles⟩, page_pos, rfl⟩

/-- A prompt is published and restored in another slot. -/
def shared : List Op :=
  [.reserveKvCapacity 0 200, .prepareKvWrites 0 0 200,
    .publishCommittedBlocks 0 200 [⟨7, 64⟩, ⟨8, 128⟩, ⟨9, 192⟩] 64 false,
    .restorePrefixFromArena 1 192 [⟨7, 64⟩, ⟨8, 128⟩, ⟨9, 192⟩], .prepareKvWrites 1 192 8, .prepareKvWrites 0 0 300]

theorem run_consistent_shared : ∃ s, run call (start threeBundles fun _ _ => ()) shared = some s ∧
    s.host 0 = [1, 2, 0, 0] ∧ s.host 1 = [1, 3, 0, 0] ∧
    Consistent s ∧ ∃ s', resetAll s = .ok ⟨⟩ s' ∧ Consistent s' ∧ Clean s' :=
  have halong : Along call Tracked (start threeBundles fun _ _ => ()) shared := by decide
  ⟨_, rfl, by decide, by decide, run_consistent halong rfl⟩

/-- Four pages are asked for, three are taken, and the row shows none of them. -/
theorem run_not_consistent : ∃ s, run call (start threeBundles fun _ _ => ()) [.prepareKvWrites 0 0 512] = some s ∧
    s.bundles 0 ≠ [] ∧ (∀ b ∈ s.host 0, b = 0) ∧ ¬Consistent s := by
  refine ⟨_, rfl, by decide, by decide, fun h => ?_⟩
  have hmem := (h.pages 0 1).mp (by decide)
  revert hmem
  decide

end Runs

end SlotPool
