import BlackweLLM.ScratchCalls

/-!
# Runs over the scratch row

Forwards, lifecycle and capture, and the runs of the backend.
-/

namespace ScratchStore

open List Function RaisingState FixedArena CheckpointPool StepRun

variable {Tok Hash β : Type} {s s₁ s' : Backend Tok Hash β} {slot n : Nat}

theorem some_of_update_none {α : Type} {f : Nat → Option α} {a : α} {i : Nat} (h : update f slot none i = some a) :
    f i = some a := by
  by_cases hi : i = slot
  · simp [hi] at h
  · rwa [update_of_ne hi] at h

section Prefill

theorem progress_sound (h : Sound s)
    (hclear : ∀ prompt done, s.inFlight slot = some (prompt, done) → Clear s slot (done + n)) :
    Sound (progress slot n s) := by
  refine h.relength rfl rfl fun other _ m hm => ?_
  rw [mem_heldLengths] at hm ⊢
  by_cases hother : other = slot
  · subst hother
    rcases hm with hm | ⟨prompt, hprefill⟩ | hm
    · exact .inl (.inl hm)
    · right
      rw [progress] at hprefill
      simp only [update_self, Option.map_eq_some_iff, Prod.mk.injEq, Prod.exists] at hprefill
      obtain ⟨prompt', done, hbefore, -, rfl⟩ := hprefill
      exact hclear prompt' done hbefore
    · exact .inl (.inr (.inr hm))
  · left
    refine hm.imp_right (Or.imp_left ?_)
    rintro ⟨prompt, hprefill⟩
    exact ⟨prompt, by simpa [progress, update_of_ne hother] using hprefill⟩

theorem Writes.inFlight (h : Writes s s') : s'.inFlight = s.inFlight := by rw [h.frame]

theorem prefillSerial_ends (h : Sound s) (hslot : slot < s.arena.geometry.numSlots) (entries : List β) :
    Ends (fun _ => Sound) Sound (prefillSerial slot entries s) := by
  rw [prefillSerial, bind_of_ok (get_apply s)]
  cases hprefill : s.inFlight slot with
  | none => exact h
  | some prefill =>
    obtain ⟨prompt, done⟩ := prefill
    dsimp only
    have hclear : Clear s slot done := h.held slot hslot done (mem_heldLengths.mpr (.inr (.inl ⟨prompt, hprefill⟩)))
    apply ends_bind ((prepare_ends h hslot hclear _).weaken fun _ hs' => hs'.sound)
    rintro _ s₁ ⟨hwrites, hclear⟩
    apply ends_bind ((forward_ends hwrites.sound slot _).weaken fun _ hs' => hs'.sound)
    intro _ s₂ hwrites'
    rw [modify_apply, ends_ok]
    apply progress_sound hwrites'.sound
    intro prompt' done' hprefill'
    rw [hwrites'.inFlight, hwrites.inFlight, hprefill] at hprefill'
    cases hprefill'
    exact hwrites'.clear _ _ hclear

/-- The writes of a batch, whose pages are not looked at again. -/
theorem Writes.of_rows (h : Sound s) {α : Type} (rows : List α) (slotOf : α → Nat) (startOf : Arena β → α → Nat)
    (entriesOf : α → List β) :
    Writes s { s with
      arena := rows.foldl
        (fun arena row => writeKv (slotOf row) (startOf arena row) (entriesOf row) arena) s.arena } := by
  induction rows generalizing s with
  | nil => exact Writes.refl h
  | cons row rows ih =>
    have hfirst := Writes.of_writeKv h (slotOf row) (startOf s.arena row) (entriesOf row)
    exact hfirst.trans (ih hfirst.sound)

theorem checkPrefillBatch_ends (s : Backend Tok Hash β) (rows : List (Nat × List β)) :
    Ends (fun _ s' => s' = s ∧ (rows.map Prod.fst).Nodup) (fun s' => s' = s) (checkPrefillBatch rows s) := by
  rw [checkPrefillBatch, bind_of_ok (get_apply s)]
  apply ends_raiseIf_bind
  · exact fun _ => rfl
  intro hshape
  exact ends_raiseIf (fun _ => rfl) fun _ => ⟨rfl, not_not.mp (not_or.mp hshape).1⟩

/-- The lengths behind a batched chunk. -/
theorem advanceRows_sound (rows : List (Nat × List β)) (h : Sound s) (hnodup : (rows.map Prod.fst).Nodup)
    (hclear : ∀ row ∈ rows, Clear s row.1 (s.arena.kvLen row.1 + row.2.length))
    (hprogress : ∀ row ∈ rows, ∀ prompt done, s.inFlight row.1 = some (prompt, done) → done = s.arena.kvLen row.1) :
    Sound (rows.foldl (fun s row =>
      progress row.1 row.2.length
        { s with
          arena :=
            { s.arena with
              kvLen := update s.arena.kvLen row.1 (s.arena.kvLen row.1 + row.2.length)
              seen := update s.arena.seen row.1 (s.arena.kvLen row.1 + row.2.length) } }) s) := by
  induction rows generalizing s with
  | nil => exact h
  | cons row rows ih =>
    rw [map_cons, nodup_cons] at hnodup
    rw [foldl_cons]
    have hfirst := hclear row mem_cons_self
    have hne : ∀ other ∈ rows, other.1 ≠ row.1 := by
      intro other hother heq
      exact hnodup.1 (heq ▸ mem_map_of_mem hother)
    generalize hs₁ : ({ s with
      arena :=
        { s.arena with
          kvLen := update s.arena.kvLen row.1 (s.arena.kvLen row.1 + row.2.length)
          seen := update s.arena.seen row.1 (s.arena.kvLen row.1 + row.2.length) } } : Backend Tok Hash β) = s₁
    have hsound : Sound s₁ := by
      subst hs₁
      exact (h.moved hfirst (fun _ => id) fun _ _ => id).sound
    apply ih
    · apply progress_sound hsound
      intro prompt done hprefill
      subst hs₁
      rw [hprogress row mem_cons_self prompt done hprefill]
      exact hfirst
    · exact hnodup.2
    · intro other hother
      subst hs₁
      have hkept := hclear other (mem_cons_of_mem _ hother)
      simp only [progress, update_of_ne (hne other hother)]
      exact hkept
    · intro other hother prompt done hprefill
      subst hs₁
      simp only [progress, update_of_ne (hne other hother)] at hprefill ⊢
      exact hprogress other (mem_cons_of_mem _ hother) prompt done hprefill

theorem prefillBatched_ends (h : Sound s) (rows : List (Nat × List β))
    (hslots : ∀ row ∈ rows, row.1 < s.arena.geometry.numSlots)
    (hprogress : ∀ row ∈ rows, ∀ prompt done, s.inFlight row.1 = some (prompt, done) → done = s.arena.kvLen row.1) :
    Ends (fun _ => Sound) Sound (prefillBatched rows s) := by
  rw [prefillBatched]
  apply ends_bind ((checkPrefillBatch_ends s rows).weaken fun s' hs' => by rw [hs']; exact h)
  rintro _ s₀ ⟨hsame, hnodup⟩
  rw [hsame, bind_of_ok (get_apply s)]
  apply ends_bind (P := fun _ s₁ => Writes s s₁ ∧ ∀ row ∈ rows, Clear s₁ row.1 (s.arena.kvLen row.1 + row.2.length))
  · apply ends_forM (I := fun (done : List (Nat × List β)) s₁ => Writes s s₁ ∧
      ∀ row ∈ done, Clear s₁ row.1 (s.arena.kvLen row.1 + row.2.length))
    · rintro done row rest s₁ hsplit ⟨hwrites, hdone⟩
      have hrow : row ∈ rows := hsplit ▸ mem_append_right _ mem_cons_self
      have hslot : row.1 < s₁.arena.geometry.numSlots := by
        rw [hwrites.geometry]
        exact hslots row hrow
      have hclear : Clear s₁ row.1 (s.arena.kvLen row.1) := hwrites.clear _ _ (h.kvLen_clear (hslots row hrow))
      apply (prepare_ends hwrites.sound hslot hclear _).mono
      · rintro _ s₂ ⟨hwrites', hlast⟩
        refine ⟨hwrites.trans hwrites', fun other hother => ?_⟩
        cases mem_append.mp hother with
        | inl hbefore => exact hwrites'.clear _ _ (hdone other hbefore)
        | inr hself => rwa [mem_singleton.mp hself]
      · exact fun _ hs' => hs'.sound
    · exact ⟨Writes.refl h, by simp⟩
  rintro _ s₁ ⟨hwrites, hclear⟩
  rw [bind_of_ok (modify_apply _ s₁), modify_apply, ends_ok]
  have hwrites' := Writes.of_rows hwrites.sound rows Prod.fst (fun arena row => arena.kvLen row.1) Prod.snd
  apply advanceRows_sound rows hwrites'.sound hnodup
  · intro row hrow
    rw [hwrites'.kvLen, hwrites.kvLen]
    exact hwrites'.clear _ _ (hclear row hrow)
  · intro row hrow prompt done hprefill
    rw [hwrites'.inFlight, hwrites.inFlight] at hprefill
    rw [hwrites'.kvLen, hwrites.kvLen]
    exact hprogress row hrow prompt done hprefill

end Prefill

section Decode

/-- A loop of calls that each keep the slots' pages. -/
theorem forM_keeps {α : Type} {l : List α} {f : α → StoreM Tok Hash β Unit} (h : Sound s)
    (hf : ∀ a ∈ l, ∀ s', Keeps s s' → Ends (fun _ => Keeps s') (Keeps s') (f a s')) :
    Ends (fun _ => Keeps s) (Keeps s) ((forM l f) s) := by
  apply ends_forM (I := fun _ => Keeps s)
  · intro done a rest s' hsplit hkeeps
    have ha : a ∈ l := hsplit ▸ mem_append_right _ mem_cons_self
    exact (hf a ha s' hkeeps).mono (fun _ _ => hkeeps.trans) fun _ => hkeeps.trans
  · exact Keeps.refl h

theorem extendCommitted_keeps (h : Sound s) (tokens : List Tok) (hclear : Clear s slot n) :
    Keeps s (extendCommitted slot tokens n s) :=
  h.moved hclear (fun _ => id) fun _ _ => id

theorem stageDecode_ends (h : Sound s) (hslot : slot < s.arena.geometry.numSlots) (token : Tok) :
    Ends (fun _ => Keeps s) (Keeps s) (stageDecode slot token s) := by
  rw [stageDecode, bind_of_ok (get_apply s)]
  apply ends_raiseIf_bind
  · exact fun _ => Keeps.refl h
  intro _
  apply ends_bind ((prepare_ends h hslot (h.kvLen_clear hslot) 1).weaken fun _ hs' => hs'.keeps)
  rintro _ s₁ ⟨hwrites, hclear⟩
  exact hwrites.keeps.trans (extendCommitted_keeps hwrites.sound [token] hclear)

/-- A decode without a preparation keeps what is clear, and adds a position. -/
theorem decodeSerialOne_ends (h : Sound s) (token : Tok) (entry : β) (hclear : Clear s slot (s.arena.kvLen slot + 1)) :
    Ends (fun _ s' => Keeps s s' ∧ (∀ slot n, Clear s slot n → Clear s' slot n) ∧
        s'.arena.kvLen = update s.arena.kvLen slot (s.arena.kvLen slot + 1)) (Keeps s)
      (decodeSerialOne slot token entry s) := by
  rw [decodeSerialOne]
  apply ends_bind ((forward_ends h slot [entry]).weaken fun _ hs' => hs'.keeps)
  intro _ s₁ hwrites
  rw [modify_apply, ends_ok]
  have hclear' := hwrites.clear _ _ hclear
  rw [← hwrites.kvLen] at hclear'
  exact ⟨hwrites.keeps.trans (hwrites.sound.moved hclear' (fun _ => id) fun _ _ => id),
    fun other n hclear' => hwrites.clear other n hclear', by rw [hwrites.kvLen]⟩

/-- The scratch row keeps its pages, where no slot shows one that the rejected positions take. -/
theorem verifyScratch_ends (h : Sound s) (entries : List β)
    (hunshared : ∀ i ∈ s.arena.geometry.touched 0 entries.length,
      s.arena.refCnt ((s.arena.host s.arena.geometry.scratchRow).getD i 0) ≤ 1) :
    Ends (fun _ => Sound) Sound (verifyScratch entries s) := by
  rw [verifyScratch, bind_of_ok (get_apply s)]
  apply ends_bind (P := fun _ s₁ => s₁ = s)
  · apply ends_zoom
    rw [prepareKvWrites, bind_of_ok (get_apply s.arena)]
    apply ends_raiseIf_bind
    · exact fun _ => h
    intro _
    split
    · exact rfl
    · have hdetach : detach s.arena.geometry.scratchRow (s.arena.geometry.touched 0 entries.length) (fun _ => true)
          .exhausted s.arena = .ok false s.arena := detach_of_unshared (Nat.lt_succ_self _) hunshared
      rw [bind_of_ok hdetach]
      exact rfl
  rintro _ _ rfl
  rw [modify_apply, ends_ok]
  exact (Writes.of_writeKv h _ _ _).sound

variable [DecidableEq Hash] (cfg : Config Tok Hash)

theorem maybeCheckpoint_keeps (h : Sound s) (hslot : slot < s.arena.geometry.numSlots) :
    Ends (fun _ => Keeps s) (Keeps s) (maybeCheckpoint cfg slot s) :=
  (maybeCheckpoint_ends cfg h slot hslot).mono (fun _ _ hs' => ⟨hs'.1, by rw [hs'.2]⟩)
    fun _ hs' => ⟨hs'.1, by rw [hs'.2]⟩

section

variable (h : Sound s) (rows : List (Nat × Tok × β)) (hslots : ∀ row ∈ rows, row.1 < s.arena.geometry.numSlots)
include h hslots

theorem decodeBatched_ends : Ends (fun _ => Sound) Sound (decodeBatched cfg rows s) := by
  rw [decodeBatched]
  apply ends_bind ((forM_keeps h fun row hrow s' hkeeps =>
    stageDecode_ends hkeeps.sound (by rw [hkeeps.geometry]; exact hslots row hrow) row.2.1).weaken
      fun _ hs' => hs'.sound)
  intro _ s₁ hkeeps
  rw [bind_of_ok (modify_apply _ s₁)]
  have hwrites := Writes.of_rows hkeeps.sound rows Prod.fst (fun arena row => arena.kvLen row.1 - 1) fun row => [row.2.2]
  apply (forM_keeps hwrites.sound fun row hrow s' hkeeps' =>
    maybeCheckpoint_keeps cfg hkeeps'.sound (by
      rw [hkeeps'.geometry, hwrites.geometry, hkeeps.geometry]
      exact hslots row hrow)).mono
  · exact fun _ _ hs' => hs'.sound
  · exact fun _ hs' => hs'.sound

theorem decodeSerial_ends
    (hclear : ∀ row ∈ rows, Clear s row.1 (s.arena.kvLen row.1 + (rows.map Prod.fst).count row.1)) :
    Ends (fun _ => Sound) Sound (decodeSerial cfg rows s) := by
  rw [decodeSerial]
  apply ends_bind (P := fun _ => Keeps s)
  · apply Ends.mono (P := fun _ s₁ => Keeps s s₁ ∧ (∀ slot n, Clear s slot n → Clear s₁ slot n) ∧
      ∀ slot, s₁.arena.kvLen slot = s.arena.kvLen slot + (rows.map Prod.fst).count slot) (E := Sound)
    · apply ends_forM (I := fun (done : List (Nat × Tok × β)) s₁ => Keeps s s₁ ∧ (∀ slot n, Clear s slot n → Clear s₁ slot n) ∧
        ∀ slot, s₁.arena.kvLen slot = s.arena.kvLen slot + (done.map Prod.fst).count slot)
      · rintro done row rest s₁ hsplit ⟨hkeeps, hkept, hkvLen⟩
        have hrow : row ∈ rows := hsplit ▸ mem_append_right _ mem_cons_self
        have hcount : (done.map Prod.fst).count row.1 + 1 ≤ (rows.map Prod.fst).count row.1 := by
          rw [hsplit, map_append, map_cons, count_append, count_cons_self]
          omega
        have hnext : Clear s₁ row.1 (s₁.arena.kvLen row.1 + 1) := by
          rw [hkvLen]
          exact hkept _ _ ((hclear row hrow).mono (by omega))
        apply (decodeSerialOne_ends hkeeps.sound row.2.1 row.2.2 hnext).mono
        · rintro _ s₂ ⟨hkeeps', hkept', hkvLen'⟩
          refine ⟨hkeeps.trans hkeeps', fun slot n hn => hkept' slot n (hkept slot n hn), fun slot => ?_⟩
          rw [hkvLen', map_append, count_append]
          by_cases hself : slot = row.1
          · subst hself
            rw [update_self, hkvLen]
            simp [add_assoc]
          · rw [update_of_ne hself, hkvLen]
            simp [Ne.symm hself]
        · exact fun _ hs' => hs'.sound
      · exact ⟨Keeps.refl h, fun _ _ => id, fun _ => rfl⟩
    · exact fun _ _ hs' => hs'.1
    · exact fun _ => id
  intro _ s₁ hkeeps
  apply (forM_keeps hkeeps.sound fun row hrow s' hkeeps' =>
    maybeCheckpoint_keeps cfg hkeeps'.sound (by
      rw [hkeeps'.geometry, hkeeps.geometry]
      exact hslots row hrow)).mono
  · exact fun _ _ hs' => hs'.sound
  · exact fun _ hs' => hs'.sound

end

theorem verify_ends (h : Sound s) (hslot : slot < s.arena.geometry.numSlots) (prepared : Bool) (accepted : Nat)
    (entries : List β) (tokens : List Tok)
    (hclear : prepared = false → Clear s slot (s.arena.kvLen slot + min accepted entries.length)) :
    Ends (fun _ => Sound) Sound (verify cfg prepared slot accepted entries tokens s) := by
  have hrest : ∀ s₁, Writes s s₁ → Clear s₁ slot (s.arena.kvLen slot + min accepted entries.length) →
      Ends (fun _ => Sound) Sound ((do
        onArena (forward slot entries)
        modify (extendCommitted slot tokens (s.arena.kvLen slot + min accepted entries.length))
        maybeCheckpoint cfg slot : StoreM Tok Hash β Unit) s₁) := by
    intro s₁ hwrites hclear
    apply ends_bind ((forward_ends hwrites.sound slot entries).weaken fun _ hs' => hs'.sound)
    intro _ s₂ hwrites'
    rw [bind_of_ok (modify_apply _ s₂)]
    have hkeeps := extendCommitted_keeps hwrites'.sound tokens (hwrites'.clear _ _ hclear)
    apply (maybeCheckpoint_keeps cfg hkeeps.sound (by
      rw [hkeeps.geometry, hwrites'.geometry, hwrites.geometry]
      exact hslot)).mono
    · exact fun _ _ hs' => hs'.sound
    · exact fun _ hs' => hs'.sound
  rw [verify, bind_of_ok (get_apply s)]
  cases prepared with
  | false => exact hrest s (Writes.refl h) (hclear rfl)
  | true =>
    rw [if_pos rfl]
    apply ends_bind ((prepare_ends h hslot (h.kvLen_clear hslot) entries.length).weaken
      fun _ hs' => hs'.sound)
    rintro _ s₁ ⟨hwrites, hclear⟩
    exact hrest s₁ hwrites (hclear.mono (by omega))

end Decode

section Lifecycle

theorem released_sound (h : Sound s) (committed : Nat → List Tok) (pending : Nat → Option PrefixHit)
    (hidden : Nat → Bool) (hpending : ∀ slot, (pending slot).isSome → (s.pendingHits slot).isSome) :
    Sound { s with
      arena := FixedArena.resetSlot slot s.arena
      committed := committed
      pendingHits := pending
      cachedHidden := hidden
      inFlight := update s.inFlight slot none } := by
  exact (h.moved clear_zero hpending fun _ _ => some_of_update_none).sound

theorem retainPrefix_ends (h : Sound s) (hslot : slot < s.arena.geometry.numSlots) :
    Ends (fun _ => Sound) (fun _ => False) (retainPrefix slot s) := by
  rw [retainPrefix, bind_of_ok (get_apply s)]
  split
  · rw [bind_of_ok (set_apply _ s)]
    refine h.relength rfl rfl fun other _ m hm => ?_
    rw [mem_heldLengths] at hm ⊢
    rcases hm with hm | hm | ⟨hlength, hrestorable⟩
    · exact .inl (.inl hm)
    · exact .inl (.inr (.inl hm))
    by_cases hother : other = slot
    · subst hother
      rw [restorable, Bool.or_eq_true] at hrestorable
      cases hrestorable with
      | inl hcovered =>
        have hle : m ≤ s.arena.kvLen other := by simpa using hcovered
        exact .inr ((h.kvLen_clear hslot).mono hle)
      | inr hpending =>
        refine .inl (.inr (.inr ⟨hlength, ?_⟩))
        rw [restorable, Bool.or_eq_true]
        exact .inr hpending
    · refine .inl (.inr (.inr ⟨hlength, ?_⟩))
      simpa [restorable, update_of_ne hother] using hrestorable
  · exact h

theorem captureWarm_ends (h : Sound s) (rows : List (Nat × Tok × β))
    (hslots : ∀ row ∈ rows, row.1 < s.arena.geometry.numSlots) :
    Ends (fun _ => Sound) Sound (captureWarm rows s) := by
  rw [captureWarm, bind_of_ok (modify_apply _ s)]
  have hreset : ∀ (rows : List (Nat × Tok × β)) (s : Backend Tok Hash β), Sound s → Keeps s (rows.foldl (fun s row =>
      { s with
        arena := FixedArena.resetSlot row.1 s.arena, committed := update s.committed row.1 [] }) s) := by
    intro rows
    induction rows with
    | nil => exact fun s h => Keeps.refl h
    | cons row rows ih =>
      intro s h
      rw [foldl_cons]
      have hfirst : Keeps s { s with
          arena := FixedArena.resetSlot row.1 s.arena, committed := update s.committed row.1 [] } :=
        h.moved clear_zero (fun _ => id) fun _ _ => id
      exact hfirst.trans (ih _ hfirst.sound)
  have hkeeps := hreset rows s h
  apply ends_bind ((forM_keeps hkeeps.sound fun row hrow s' hkeeps' =>
    stageDecode_ends hkeeps'.sound (by
      rw [hkeeps'.geometry, hkeeps.geometry]
      exact hslots row hrow) row.2.1).weaken fun _ hs' => hs'.sound)
  intro _ s₁ hkeeps'
  rw [modify_apply, ends_ok]
  exact (Writes.of_rows hkeeps'.sound rows Prod.fst (fun arena row => arena.kvLen row.1 - 1) fun row => [row.2.2]).sound

variable [DecidableEq Hash] (cfg : Config Tok Hash)

theorem commitPrefill_ends (h : Sound s) (hslot : slot < s.arena.geometry.numSlots) (firstToken : Tok) :
    Ends (fun _ => Sound) Sound (commitPrefill cfg slot firstToken s) := by
  rw [commitPrefill, bind_of_ok (get_apply s)]
  cases hprefill : s.inFlight slot with
  | none => exact h
  | some prefill =>
    obtain ⟨prompt, done⟩ := prefill
    dsimp only
    by_cases hdone : done ≠ prompt.length
    · rw [if_pos hdone]
      exact h
    rw [if_neg hdone, bind_of_ok (set_apply _ s)]
    obtain rfl := not_not.mp hdone
    have hclear : Clear s slot prompt.length :=
      h.held slot hslot _ (mem_heldLengths.mpr (.inr (.inl ⟨prompt, hprefill⟩)))
    generalize hs₁ : ({ s with
      arena := { s.arena with kvLen := update s.arena.kvLen slot prompt.length }
      committed := update s.committed slot (prompt ++ [firstToken])
      cachedHidden := update s.cachedHidden slot false
      inFlight := update s.inFlight slot none } : Backend Tok Hash β) = s₁
    have hkeeps : Keeps s s₁ := by
      subst hs₁
      exact h.moved hclear (fun _ => id) fun _ _ => some_of_update_none
    apply ends_bind ((maybeCheckpoint_keeps cfg hkeeps.sound (by rwa [hkeeps.geometry])).weaken
      fun _ hs' => hs'.sound)
    exact fun _ s₂ hkeeps' => hkeeps'.sound

/-- A loop of evictions that asks no slot. -/
theorem clearPersistentPrefixes_ends (h : Books s) :
    Ends (fun _ s' => Books s' ∧ s'.arena = s.arena ∧ s'.inFlight = s.inFlight) (fun _ => False)
      (clearPersistentPrefixes s) := by
  rw [clearPersistentPrefixes, bind_of_ok (get_apply s)]
  apply ends_forM (I := fun _ s' => Books s' ∧ s'.arena = s.arena ∧ s'.inFlight = s.inFlight)
  · rintro done entry rest s₁ - ⟨hbooks, harena, hinFlight⟩
    apply (unpinEvict_ends hbooks (.persistent entry.hashValue)).mono
    · exact fun _ s' hs' => ⟨hs'.1, hs'.2.arena.trans harena, hs'.2.inFlight.trans hinFlight⟩
    · exact fun _ => id
  · exact ⟨h, rfl, rfl⟩

theorem captureEnd_ends (h : Sound s) : Ends (fun _ => Sound) (fun _ => False) (captureEnd s) := by
  rw [captureEnd, bind_of_ok (modify_apply _ s)]
  generalize hs₁ : ({ s with
    arena := { s.arena with kvLen := fun _ => 0, seen := fun _ => 0 }
    committed := fun _ => []
    inFlight := fun _ => none } : Backend Tok Hash β) = s₁
  have hbooks : Books s₁ := by
    subst hs₁
    have hcounted : Counted { s.arena with kvLen := fun _ => 0, seen := fun _ => 0 } :=
      ⟨h.counted.width, h.counted.nodup, h.counted.refCnt, h.counted.unheld, h.counted.freeNodup, h.counted.scratch⟩
    exact ⟨hcounted, h.freeRange, h.entryRange, h.entryFree, h.unique, h.disjoint, h.pinned⟩
  have hempty : s₁.arena.kvLen = (fun _ => 0) ∧ s₁.inFlight = fun _ => none := by
    subst hs₁
    exact ⟨rfl, rfl⟩
  apply ends_bind (clearPersistentPrefixes_ends hbooks)
  rintro _ s₂ ⟨hbooks, harena, hinFlight⟩
  rw [modify_apply, ends_ok]
  refine ⟨⟨hbooks.counted, hbooks.freeRange, hbooks.entryRange, hbooks.entryFree, hbooks.unique, hbooks.disjoint,
    hbooks.pinned⟩, fun slot _ n hn => ?_⟩
  rw [mem_heldLengths] at hn
  rcases hn with hn | ⟨prompt, hprefill⟩ | ⟨-, hrestorable⟩
  · dsimp only at hn
    rw [harena, hempty.1] at hn
    rw [hn]
    exact clear_zero
  · dsimp only at hprefill
    rw [hinFlight, hempty.2] at hprefill
    cases hprefill
  · simp [restorable] at hrestorable

variable [DecidableEq Tok]

section

variable (h : Sound s) (hslot : slot < s.arena.geometry.numSlots) (snapshots : Bool)
include h hslot

theorem finishPrefill_ends (firstToken : Tok)
    (hspares : ∀ s', commitPrefill cfg slot firstToken s = .ok true s' → StoreSpares cfg true snapshots slot s') :
    Ends (fun _ => Sound) Sound (finishPrefill cfg snapshots slot firstToken s) := by
  have hcommit := commitPrefill_ends cfg h hslot firstToken
  rw [finishPrefill]
  cases hrun : commitPrefill cfg slot firstToken s with
  | error e s₁ =>
    rw [bind_of_error hrun]
    exact hcommit.error_of hrun
  | ok done s₁ =>
    rw [bind_of_ok hrun]
    cases done with
    | false => exact hcommit.ok_of hrun
    | true =>
      have hstore := storePersistentPrefix_ends cfg (hcommit.ok_of hrun) true snapshots slot
      exact hstore.mono (fun _ s' hs' => hs'.1 (hspares s₁ hrun)) fun s' hs' => hs'.1 (hspares s₁ hrun)

theorem resetSlot_ends
    (hspares : ∀ s', retainPrefix slot s = .ok true s' → StoreSpares cfg false snapshots slot s') :
    Ends (fun _ => Sound) Sound (resetSlot cfg snapshots slot s) := by
  have hretain := retainPrefix_ends h hslot
  have hrelease : ∀ s₁ : Backend Tok Hash β, Sound s₁ → Ends (fun _ => Sound) Sound ((modify fun s =>
      { s with
        arena := FixedArena.resetSlot slot s.arena
        committed := update s.committed slot []
        pendingHits := update s.pendingHits slot none
        cachedHidden := update s.cachedHidden slot false
        inFlight := update s.inFlight slot none } : StoreM Tok Hash β Unit) s₁) := by
    intro s₁ hsound
    rw [modify_apply, ends_ok]
    apply released_sound hsound
    intro other
    by_cases hother : other = slot
    · subst hother
      simp
    · simp [update_of_ne hother]
  rw [resetSlot]
  obtain ⟨retained, s₁, hrun, hsound⟩ := hretain.returns
  rw [bind_of_ok hrun]
  cases retained with
  | false => exact hrelease s₁ hsound
  | true =>
    have hstore := storePersistentPrefix_ends cfg hsound false snapshots slot
    rw [if_pos rfl]
    apply ends_bind (hstore.mono (fun _ s' hs' => hs'.1 (hspares s₁ hrun)) fun s' hs' => hs'.1 (hspares s₁ hrun))
    exact fun _ s₂ hsound => hrelease s₂ hsound

end

end Lifecycle

section Runs

variable [DecidableEq Tok] [DecidableEq Hash] (cfg : Config Tok Hash)

/-- The calls that leave every slot its pages: a store takes no entry that a slot shows, a batched chunk goes on
where its prompt has come to, and a write that nobody has prepared goes to no page that is free for a prefix. -/
def Admissible (s : Backend Tok Hash β) : Op Tok β → Prop
  | .finishPrefill snapshots slot firstToken =>
    ∀ s', commitPrefill cfg slot firstToken s = .ok true s' → StoreSpares cfg true snapshots slot s'
  | .resetSlot snapshots slot => ∀ s', retainPrefix slot s = .ok true s' → StoreSpares cfg false snapshots slot s'
  | .prefillBatched rows =>
    ∀ row ∈ rows, ∀ prompt done, s.inFlight row.1 = some (prompt, done) → done = s.arena.kvLen row.1
  | .decodeSerial rows => ∀ row ∈ rows, Clear s row.1 (s.arena.kvLen row.1 + (rows.map Prod.fst).count row.1)
  | .verify prepared slot accepted entries _ =>
    prepared = false → Clear s slot (s.arena.kvLen slot + min accepted entries.length)
  | .verifyScratch entries => ∀ i ∈ s.arena.geometry.touched 0 entries.length,
      s.arena.refCnt ((s.arena.host s.arena.geometry.scratchRow).getD i 0) ≤ 1
  | _ => True

theorem call_sound (h : Sound s) {op : Op Tok β} (hslots : ∀ slot ∈ op.slots, slot < s.arena.geometry.numSlots)
    (hadmissible : Admissible cfg s op) : Ends (fun _ => Sound) Sound (call cfg op s) := by
  cases op with
  | reconcilePrefixHit canRestore tokens => exact (reconcilePrefixHit_keeps cfg h canRestore tokens).sound
  | prefillBegin canRestore restores slot prompt =>
    exact prefillBegin_ends cfg h canRestore restores (hslots slot mem_cons_self) prompt
  | prefillSerial slot entries => exact prefillSerial_ends h (hslots slot mem_cons_self) entries
  | prefillBatched rows =>
    exact prefillBatched_ends h rows (fun row hrow => hslots row.1 (mem_map_of_mem hrow)) hadmissible
  | finishPrefill snapshots slot firstToken =>
    exact finishPrefill_ends cfg h (hslots slot mem_cons_self) snapshots firstToken hadmissible
  | decodeBatched rows => exact decodeBatched_ends cfg h rows fun row hrow => hslots row.1 (mem_map_of_mem hrow)
  | decodeSerial rows =>
    exact decodeSerial_ends cfg h rows (fun row hrow => hslots row.1 (mem_map_of_mem hrow)) hadmissible
  | verify prepared slot accepted entries tokens =>
    exact verify_ends cfg h (hslots slot mem_cons_self) prepared accepted entries tokens hadmissible
  | verifyScratch entries => exact verifyScratch_ends h entries hadmissible
  | resetSlot snapshots slot => exact resetSlot_ends cfg h (hslots slot mem_cons_self) snapshots hadmissible
  | dropPrefixCache slot =>
    exact (dropPrefixCache_ends h slot).mono (fun _ _ hs' => hs'.sound) fun _ hs' => hs'.sound
  | captureWarm rows => exact captureWarm_ends h rows fun row hrow => hslots row.1 (mem_map_of_mem hrow)
  | captureEnd => exact (captureEnd_ends h).weaken fun _ => False.elim

theorem next_sound (h : Sound s) {op : Op Tok β} (hadmissible : Admissible cfg s op) (hnext : next cfg s op = some s') :
    Sound s' := by
  rw [next] at hnext
  split at hnext
  next hslots =>
    cases hnext
    exact (call_sound cfg h hslots hadmissible).endState (fun _ _ => id) fun _ => id
  next => cases hnext

omit [DecidableEq Tok] [DecidableEq Hash] in
theorem start_sound (g : Geometry) (kv : Nat → Nat → β) (byteBudget : Nat) :
    Sound (start g kv byteBudget : Backend Tok Hash β) := by
  refine ⟨⟨counted_start g kv, fun offset => mem_range.mp, by simp [start], by simp [start], by simp [start],
    by simp [start], ?_⟩, fun slot _ n hn => ?_⟩
  · rintro hash ⟨record, hrecord, -⟩
    exact absurd hrecord not_mem_nil
  · rw [mem_heldLengths] at hn
    rcases hn with hn | ⟨prompt, hprefill⟩ | ⟨hlength, -⟩
    · rw [hn]
      exact clear_zero
    · cases hprefill
    · cases hlength

/-- No slot shows a free scratch page below its committed length, and a store changes nothing that a slot reads. -/
theorem run_unaliased (g : Geometry) (kv : Nat → Nat → β) (byteBudget : Nat) {ops : List (Op Tok β)}
    {s' : Backend Tok Hash β} (halong : Along (next cfg) (Admissible cfg) (start g kv byteBudget) ops)
    (hrun : run (next cfg) (start g kv byteBudget) ops = some s') :
    (∀ slot, slot < s'.arena.geometry.numSlots → ∀ i, i < s'.arena.geometry.pages (s'.arena.kvLen slot) →
      ∀ offset ∈ s'.freeScratch, (s'.arena.host slot).getD i 0 ≠ s'.arena.geometry.scratchPage offset) ∧
    ∀ hidden snapshots source, ∀ slot, slot < s'.arena.geometry.numSlots → ∀ position,
      position < s'.arena.kvLen slot → position < s'.arena.geometry.maxSeqLen →
      reads (endState (storePersistentPrefix cfg hidden snapshots source s')).arena slot position =
        reads s'.arena slot position := by
  have hsound : Sound s' := invariant_of_steps (fun s op s' h hop => next_sound cfg h hop)
    (start_sound g kv byteBudget) halong hrun
  refine ⟨fun slot hslot => hsound.kvLen_clear hslot, fun hidden snapshots source => ?_⟩
  exact ((storePersistentPrefix_ends cfg hsound hidden snapshots source).endState (fun _ _ hs' => hs'.2)
    fun _ hs' => hs'.2).reads

end Runs

section Instances

variable [DecidableEq Tok] [DecidableEq Hash] (cfg : Config Tok Hash)

instance (s : Backend Tok Hash β) (slot n : Nat) : Decidable (Clear s slot n) :=
  inferInstanceAs (Decidable (∀ i, i < s.arena.geometry.pages n → _))

instance (s : Backend Tok Hash β) (entry : Entry Tok Hash) : Decidable (Spares s entry) :=
  inferInstanceAs (Decidable (∀ slot, slot < s.arena.geometry.numSlots → ∀ n ∈ heldLengths s slot,
    ∀ i, i < s.arena.geometry.pages n → _))

local instance : LawfulBEq (Key Hash) := inferInstance

instance (hidden snapshots : Bool) (slot : Nat) (s : Backend Tok Hash β) :
    Decidable (StoreSpares cfg hidden snapshots slot s) :=
  match h : reserveScratch cfg hidden snapshots slot s with
  | .ok (some r) s' =>
    @decidable_of_iff _ (∀ entry ∈ s'.persistent,
      Key.persistent entry.hashValue ∈ s'.checkpointPool.victims cfg.checkpointBytes Key.isPersistent →
        Spares s' entry) (by simp [StoreSpares, h]) _
  | .ok none _ => isTrue (by simp [StoreSpares, h])
  | .error _ _ => isTrue (by simp [StoreSpares, h])

/-- A store behind a call that may have nothing to store. -/
instance {r : EStateM.Result StoreError (Backend Tok Hash β) Bool} {P : Backend Tok Hash β → Prop}
    [∀ s, Decidable (P s)] :
    Decidable (∀ s', r = .ok true s' → P s') :=
  match r with
  | .ok true s' => @decidable_of_iff _ (P s') (by simp) _
  | .ok false _ => isTrue (by simp)
  | .error _ _ => isTrue (by simp)

instance (s : Backend Tok Hash β) (slot : Nat) :
    Decidable (∀ prompt done, s.inFlight slot = some (prompt, done) → done = s.arena.kvLen slot) :=
  match h : s.inFlight slot with
  | none => isTrue (by simp)
  | some (prompt, done) => @decidable_of_iff _ (done = s.arena.kvLen slot) (by simp) _

instance (s : Backend Tok Hash β) : (op : Op Tok β) → Decidable (Admissible cfg s op)
  | .finishPrefill snapshots slot firstToken =>
    inferInstanceAs (Decidable (∀ s', commitPrefill cfg slot firstToken s = .ok true s' →
      StoreSpares cfg true snapshots slot s'))
  | .resetSlot snapshots slot =>
    inferInstanceAs (Decidable (∀ s', retainPrefix slot s = .ok true s' → StoreSpares cfg false snapshots slot s'))
  | .prefillBatched rows => inferInstanceAs (Decidable (∀ row ∈ rows, ∀ _ _, _ → _))
  | .decodeSerial rows => inferInstanceAs (Decidable (∀ row ∈ rows, Clear s row.1 _))
  | .verify prepared slot accepted entries _ =>
    inferInstanceAs (Decidable (prepared = false → Clear s slot (s.arena.kvLen slot + min accepted entries.length)))
  | .verifyScratch entries => inferInstanceAs (Decidable (∀ i ∈ s.arena.geometry.touched 0 entries.length, _))
  | .reconcilePrefixHit _ _ => isTrue trivial
  | .prefillBegin _ _ _ _ => isTrue trivial
  | .prefillSerial _ _ => isTrue trivial
  | .decodeBatched _ => isTrue trivial
  | .dropPrefixCache _ => isTrue trivial
  | .captureWarm _ => isTrue trivial
  | .captureEnd => isTrue trivial

end Instances

section Aliased

/-- Two slots of four pages of two positions; the budget holds two checkpoints. -/
def pairGeometry : Geometry := ⟨2, 2, 4, Nat.two_pos⟩

def pairConfig : Config Nat (List Nat) := ⟨id, 2, 1, 8⟩

def pair : Backend Nat (List Nat) Nat := start pairGeometry (fun _ _ => 0) 2

def serve (slot : Nat) (prompt : List Nat) : List (Op Nat Nat) :=
  [.prefillBegin (fun _ _ => true) true slot prompt, .prefillSerial slot prompt, .finishPrefill true slot 9]

/-- Two prompts on one slot and a third on the other: the budget takes the first prompt, which nobody shows. -/
def sparingOps : List (Op Nat Nat) :=
  serve 0 [1, 2, 3, 4] ++ [.resetSlot true 0] ++ serve 0 [20, 21] ++ [.resetSlot true 0] ++ serve 1 [30, 31]

/-- The second slot restores the first prompt and reads it, while two others take its place in the budget. -/
def aliasedOps : List (Op Nat Nat) :=
  serve 0 [1, 2, 3, 4] ++ [.resetSlot true 0] ++
    [.prefillBegin (fun _ _ => true) true 1 [1, 2, 3, 4, 5], .prefillSerial 1 [5], .finishPrefill true 1 9] ++
    serve 0 [20, 21] ++ [.resetSlot true 0] ++ serve 0 [30, 31] ++ [.resetSlot true 0]

theorem run_unaliased_sparing : ∃ s', run (next pairConfig) pair sparingOps = some s' ∧ s'.freeScratch = [0, 1] ∧
    ∀ slot, slot < s'.arena.geometry.numSlots → ∀ i, i < s'.arena.geometry.pages (s'.arena.kvLen slot) →
      ∀ offset ∈ s'.freeScratch, (s'.arena.host slot).getD i 0 ≠ s'.arena.geometry.scratchPage offset := by
  have halong : Along (next pairConfig) (Admissible pairConfig) pair sparingOps := by decide +kernel
  have hend : (run (next pairConfig) pair sparingOps).any (fun s => s.freeScratch = [0, 1]) = true := by decide +kernel
  obtain ⟨s', hrun, hfree⟩ := (Option.any_eq_true _ _).mp hend
  exact ⟨s', hrun, of_decide_eq_true hfree,
    (run_unaliased pairConfig pairGeometry (fun _ _ => 0) 2 halong hrun).1⟩

/-- The budget frees the pages that the second slot reads, and the next prompt is copied over them. -/
theorem run_aliased : ∃ s' s'', run (next pairConfig) pair aliasedOps = some s' ∧
    (s'.arena.kvLen 1 = 5 ∧ 0 ∈ s'.freeScratch ∧ (s'.arena.host 1).getD 0 0 = s'.arena.geometry.scratchPage 0 ∧
      reads s'.arena 1 0 = 1) ∧
    run (next pairConfig) s' (serve 0 [40, 41]) = some s'' ∧ s''.arena.kvLen 1 = 5 ∧ reads s''.arena 1 0 = 40 := by
  have hend : (run (next pairConfig) pair aliasedOps).any (fun s' =>
      decide (s'.arena.kvLen 1 = 5 ∧ 0 ∈ s'.freeScratch ∧
        (s'.arena.host 1).getD 0 0 = s'.arena.geometry.scratchPage 0 ∧ reads s'.arena 1 0 = 1) &&
      (run (next pairConfig) s' (serve 0 [40, 41])).any (fun s'' =>
        decide (s''.arena.kvLen 1 = 5 ∧ reads s''.arena 1 0 = 40))) = true := by decide +kernel
  obtain ⟨s', hrun, hboth⟩ := (Option.any_eq_true _ _).mp hend
  rw [Bool.and_eq_true] at hboth
  obtain ⟨s'', hnext, hreads⟩ := (Option.any_eq_true _ _).mp hboth.2
  exact ⟨s', s'', hrun, of_decide_eq_true hboth.1, hnext, of_decide_eq_true hreads⟩

end Aliased

end ScratchStore
