import BlackweLLM.SlotRestore

/-!
# Publication, reservation and reset

The calls of the slot pool that leave the rows alone or empty one.
-/

namespace SlotPool

open List Function BundlePool RaisingState

variable {β : Type} {s s' : Slots β} {slot kvLen blockSize : Nat} {p p' : Pool Nat} {ids : List Nat}
  {keys : List BlockKey}

section Publish

/-- Only the hashes have changed. -/
structure Rehashed (p p' : Pool Nat) : Prop where
  config : p'.config = p.config
  refCnt : p'.refCnt = p.refCnt
  freeLen : p'.freeLen = p.freeLen
  reservations : p'.reservations = p.reservations

theorem Rehashed.refl (p : Pool Nat) : Rehashed p p := ⟨rfl, rfl, rfl, rfl⟩

theorem cacheFullBlocks_ends (hvalid : Valid p) (hnull : p.config.reserved = 1) :
    Ends (fun _ p' => Rehashed p p' ∧ Valid p') (fun p' => Rehashed p p' ∧ Valid p') (cacheFullBlocks keys ids p) := by
  apply ends_raiseIf_bind
  · exact fun _ => ⟨Rehashed.refl p, hvalid⟩
  intro _
  apply ends_bind
  · apply ends_forM (I := fun _ p' => Rehashed p p' ∧ Valid p')
    · rintro done entry rest p₁ - ⟨hsame, cold, hot, hwf⟩
      cases hstep : publishOne entry.1 entry.2 p₁ with
      | ok u p₂ =>
        obtain ⟨rfl, -, -, hwf'⟩ := publishOne_ok hwf hstep
        exact ⟨⟨hsame.config, hsame.refCnt, hsame.freeLen, hsame.reservations⟩, _, _, hwf'⟩
      | error e p₂ =>
        rw [publishOne_error hstep]
        exact ⟨hsame, _, _, hwf⟩
    · exact ⟨Rehashed.refl p, hvalid⟩
  rintro ⟨⟩ p₁ ⟨hsame, cold, hot, hwf⟩
  rw [maybeInvariantCheck_of (hwf.checked (by rw [hsame.config, hnull]))]
  exact ⟨hsame, _, _, hwf⟩

theorem committedBlocks_ends (includePartial : Bool) (keys : List BlockKey) :
    Ends (fun _ s' => s' = s) (fun s' => s' = s) (committedBlocks slot kvLen blockSize includePartial keys s) := by
  induction keys with
  | nil => exact rfl
  | cons key keys ih =>
    rw [committedBlocks]
    split_ifs with hend hboundary
    · exact rfl
    · exact ih
    · rw [bind_of_ok (get_apply s)]
      apply ends_raiseIf_bind
      · exact fun _ => rfl
      intro _
      exact ends_bind ih fun blocks _ hs => hs

theorem Mapped.rehashed (h : Mapped s) (hp : Valid p) (hsame : Rehashed s.arena p) : Mapped { s with arena := p } where
  valid := hp
  config := hsame.config.trans h.config
  __ := h
  refCnt := fun b => (congrFun hsame.refCnt b).trans (h.refCnt b)
  promised := by
    intro o ho
    rw [reservedFor, hsame.reservations]
    exact h.promised o ho

theorem publishCommittedBlocks_ends (h : Mapped s) (includePartial : Bool) :
    Ends (fun _ s' => Mapped s' ∧ ∃ p, s' = { s with arena := p } ∧ Rehashed s.arena p)
      (fun s' => Mapped s' ∧ ∃ p, s' = { s with arena := p } ∧ Rehashed s.arena p)
      (publishCommittedBlocks slot kvLen keys blockSize includePartial s) := by
  have hstay : Mapped s ∧ ∃ p, s = { s with arena := p } ∧ Rehashed s.arena p := ⟨h, _, rfl, Rehashed.refl _⟩
  rw [publishCommittedBlocks, bind_of_ok (get_apply s)]
  apply ends_raiseIf_bind
  · exact fun _ => hstay
  intro _
  apply ends_raiseIf_bind
  · exact fun _ => hstay
  intro _
  apply ends_raiseIf_bind
  · exact fun _ => hstay
  intro _
  apply ends_bind ((committedBlocks_ends includePartial keys).weaken fun s' hs' => hs' ▸ hstay)
  intro blocks s₁ hs₁
  rw [hs₁]
  apply ends_bind (P := fun _ s' => Mapped s' ∧ ∃ p, s' = { s with arena := p } ∧ Rehashed s.arena p)
  · apply ends_onArena
    apply (cacheFullBlocks_ends h.valid h.nullOnly).mono
    · exact fun _ p hp => ⟨h.rehashed hp.2 hp.1, p, rfl, hp.1⟩
    · exact fun p hp => ⟨h.rehashed hp.2 hp.1, p, rfl, hp.1⟩
  · exact fun _ _ hs => hs

end Publish

section Reserve

/-- A grant: it is the slot's only one, and the pool covers it besides all others. -/
structure Reserved (s : Slots β) (slot total : Nat) (s' : Slots β) : Prop where
  live : slot < s.geometry.numSlots
  inside : total ≤ s.geometry.maxSeqLen
  first : reservedFor s.arena slot = 0
  fits : s.geometry.pages total + requestReserved s.arena + s.arena.config.watermark ≤ s.arena.freeLen
  promised : Promised s.arena.reservations slot (s.geometry.pages total) s'.arena.reservations
  frame : s' = { s with arena := { s.arena with reservations := s'.arena.reservations } }

theorem reserveKvCapacity_ends (h : Mapped s) (slot total : Nat) :
    Ends (fun granted s' => Mapped s' ∧ (granted = false → s' = s) ∧ (granted = true → Reserved s slot total s'))
      (fun s' => s' = s) (reserveKvCapacity slot total s) := by
  rw [reserveKvCapacity, bind_of_ok (get_apply s)]
  apply ends_raiseIf_bind
  · exact fun _ => rfl
  intro hslot
  apply ends_raiseIf_bind
  · exact fun _ => rfl
  intro htotal
  apply ends_onArena
  apply (reserve_ends h.valid).mono
  · rintro granted p ⟨hp, hrefused, hgranted⟩
    refine ⟨?_, fun hfalse => by rw [hrefused hfalse], fun htrue => ?_⟩
    · cases granted with
      | false => exact (hrefused rfl).symm ▸ h
      | true =>
        obtain ⟨-, -, promises, rfl, hpromised⟩ := hgranted rfl
        refine { h with valid := hp, promised := fun o ho => ?_ }
        have hne : o ≠ slot := by
          have hlive := not_le.mp hslot
          change s.geometry.numSlots + 1 ≤ o at ho
          omega
        exact (hpromised.other o hne).trans (h.promised o ho)
    · obtain ⟨hfirst, hfits, promises, rfl, hpromised⟩ := hgranted htrue
      exact ⟨not_le.mp hslot, not_lt.mp htotal, hfirst, hfits, hpromised, rfl⟩
  · rintro p rfl
    rfl

end Reserve

section Reset

theorem holders_clear (hslot : slot < s.geometry.numRows) (b : Nat) :
    holders { s with bundles := update s.bundles slot [] } b + (if b ∈ s.bundles slot then 1 else 0) =
      holders s b := by
  by_cases hb : b ∈ s.bundles slot
  · rw [if_pos hb]
    symm
    apply Ledger.countP_range_succ_of_ne hslot
    · simp
    · simpa using hb
    · intro o ho
      simp [ho]
  · rw [if_neg hb, add_zero]
    apply countP_congr
    intro o _
    by_cases ho : o = slot
    · subst ho
      simp [hb]
    · simp [ho]

/-- What a reset leaves. -/
structure Emptied (s : Slots β) (slot : Nat) (s' : Slots β) : Prop where
  geometry : s'.geometry = s.geometry
  bundles : s'.bundles = update s.bundles slot []
  host : s'.host = update s.host slot (replicate s.geometry.pagesPerSlot 0)
  promises : s'.arena.reservations = s.arena.reservations.erase slot
  freeLen : s.arena.freeLen ≤ s'.arena.freeLen
  kv : s'.kv = s.kv
  writes : s'.writes = s.writes

theorem all_null_iff (h : Mapped s) : (s.host slot).all (fun page => decide (page = 0)) = true ↔ s.bundles slot =
    [] := by
  rw [all_eq_true, eq_nil_iff_forall_not_mem]
  constructor
  · intro hnull b hb
    by_cases hslot : slot < s.geometry.numRows
    · have hne := h.nonnull (h.usable (h.live hslot hb))
      exact hne (by simpa using hnull b (((h.shows slot).mem_iff hne).mpr hb))
    · rw [h.outside slot (not_lt.mp hslot)] at hb
      cases hb
  · intro hnone b hb
    by_contra hne
    exact hnone b (((h.shows slot).mem_iff (by simpa using hne)).mp hb)

/-- The state behind the counters and the reservation of a reset. -/
def released (slot : Nat) (s : Slots β) : Slots β :=
  { s with
    kvLen := update s.kvLen slot 0, seen := update s.seen slot 0
    hasPrevious := update s.hasPrevious slot false
    arena := { s.arena with reservations := s.arena.reservations.erase slot } }

theorem Mapped.released (h : Mapped s) (slot : Nat) : Mapped (released slot s) where
  valid := by
    obtain ⟨cold, hot, hwf⟩ := h.valid
    exact ⟨cold, hot, hwf.unpromise slot⟩
  __ := h
  promised := by
    intro o ho
    by_cases heq : o = slot
    · rw [heq]
      exact Ledger.amount_erase_self
    · exact (Ledger.amount_erase_of_ne heq).trans (h.promised o ho)

theorem resetSlot_eq (hslot : slot < s.geometry.numRows) : resetSlot slot s = (do
    if s.bundles slot = [] then pure ()
    else
      onArena (decref ((s.bundles slot).insertionSort (· ≤ ·)))
      modify fun s => { s with bundles := update s.bundles slot [] }
    let s ← get
    if (s.host slot).all (· = 0) then pure ()
    else setPageTableRow slot (replicate s.geometry.pagesPerSlot 0) : SlotM β Unit) (released slot s) := by
  rw [resetSlot, bind_of_ok (pageRow_of hslot)]
  rfl

theorem Emptied.of_none (h : Mapped s) (hnone : s.bundles slot = []) : Emptied s slot (released slot s) where
  geometry := rfl
  bundles := by rw [← hnone, update_eq_self]; rfl
  host := by
    have hrow : s.host slot = replicate s.geometry.pagesPerSlot 0 := by
      rw [eq_replicate_iff]
      refine ⟨h.width slot, fun b hb => ?_⟩
      simpa using all_eq_true.mp ((all_null_iff h).mpr hnone) b hb
    rw [← hrow, update_eq_self]
    rfl
  promises := rfl
  freeLen := le_refl _
  kv := rfl
  writes := rfl

theorem Mapped.dropped (h : Mapped s) (hslot : slot < s.geometry.numRows) :
    ∃ p, decref ((s.bundles slot).insertionSort (· ≤ ·)) s.arena = .ok ⟨⟩ p ∧
      s.arena.freeLen ≤ p.freeLen ∧ p.reservations = s.arena.reservations ∧
      Owned { s with arena := p, bundles := update s.bundles slot [] } := by
  have hperm := perm_insertionSort (· ≤ ·) (s.bundles slot)
  have hcount : ∀ b, ((s.bundles slot).insertionSort (· ≤ ·)).count b = if b ∈ s.bundles slot then 1 else 0 := by
    intro b
    rw [hperm.count_eq, (h.nodup slot).count]
  have husable : ∀ b ∈ (s.bundles slot).insertionSort (· ≤ ·), Usable s.arena b :=
    fun b hb => h.usable (h.live hslot (hperm.mem_iff.mp hb))
  obtain ⟨p, hrun, hdecref, cold', hot', hwf'⟩ := decref_of h.valid h.nullOnly husable (by
    intro b
    rw [hcount]
    split_ifs with hb
    · exact h.live hslot hb
    · exact Nat.zero_le _)
  obtain ⟨cold, hot, hwf⟩ := h.valid
  have href : ∀ b, p.refCnt b + (if b ∈ s.bundles slot then 1 else 0) = s.arena.refCnt b := by
    intro b
    rw [← hcount]
    exact hdecref.refCnt b
  refine ⟨p, hrun, hwf.freeLen_mono hwf' hdecref.config fun b => ?_, hdecref.reservations,
    ⟨_, _, hwf'⟩, hdecref.config.trans h.config, fun o => ?_, fun b => ?_⟩
  · rw [← href b]
    exact Nat.le_add_right _ _
  · by_cases ho : o = slot
    · simp [ho]
    · simpa [ho] using h.nodup o
  · have hcleared := holders_clear hslot b
    have hbefore := href b
    rw [h.refCnt, ← hcleared] at hbefore
    exact Nat.add_right_cancel hbefore

theorem resetSlot_of (h : Mapped s) (hslot : slot < s.geometry.numRows) :
    ∃ s', resetSlot slot s = .ok ⟨⟩ s' ∧ Mapped s' ∧ Emptied s slot s' := by
  have hreleased := h.released slot
  rw [resetSlot_eq hslot]
  by_cases hnone : s.bundles slot = []
  · have hnull := (all_null_iff hreleased).mpr hnone
    refine ⟨released slot s, ?_, hreleased, Emptied.of_none h hnone⟩
    simp only [if_pos hnone, bind_of_ok (get_apply _), if_pos hnull, pure_apply]
  · have hrow : slot < (released slot s).geometry.numRows := hslot
    obtain ⟨p, hrun, hlen, hpromises, howned⟩ := hreleased.dropped hrow
    have hempty : Shows (replicate s.geometry.pagesPerSlot 0) (update s.bundles slot [] slot) := by
      simpa using shows_replicate s.geometry.pagesPerSlot
    have hother : ∀ o, o ≠ slot → update s.bundles slot [] o = s.bundles o :=
      fun o ho => update_of_ne ho _ _
    obtain ⟨hset, hmapped⟩ := hreleased.remapped howned rfl hother
      (fun o _ => by rw [reservedFor, hpromises]; rfl) hslot (length_replicate ..)
      hempty
    have hsome : ¬(s.host slot).all (fun page => decide (page = 0)) = true := fun hall => hnone ((all_null_iff h).mp hall)
    refine ⟨_, ?_, hmapped, rfl, rfl, rfl, hpromises, hlen, rfl, rfl⟩
    have hshown : ¬((released slot s).host slot).all (fun page => decide (page = 0)) = true := hsome
    have hdrop : onArena (decref ((s.bundles slot).insertionSort (· ≤ ·))) (released slot s) =
        .ok ⟨⟩ { released slot s with arena := p } := onArena_of_ok hrun
    simp only [if_neg hnone, bind_of_ok hdrop, bind_of_ok (modify_apply _ _), bind_of_ok (get_apply _),
      if_neg hshown]
    exact hset

theorem resetSlot_of_outside (hslot : ¬slot < s.geometry.numRows) : resetSlot slot s = .error (.noRow slot) s := by
  rw [resetSlot, bind_of_error (pageRow_of_outside hslot)]

end Reset

end SlotPool
