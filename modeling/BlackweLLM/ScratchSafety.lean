import BlackweLLM.ScratchBooks

/-!
# Storing a prefix

A store changes nothing that a slot reads: what it copies back goes to pages
that nobody shows, and what it takes from the free scratch pages no slot holds.
-/

namespace ScratchStore

open List Function RaisingState FixedArena CheckpointPool

variable {Tok Hash β : Type} {s s₁ s' : Backend Tok Hash β} {slot n : Nat}

section Stays

/-- Every slot reads what it did. -/
structure Stays (s s' : Backend Tok Hash β) : Prop where
  geometry : s'.arena.geometry = s.arena.geometry
  kvLen : s'.arena.kvLen = s.arena.kvLen
  reads : ∀ slot, slot < s.arena.geometry.numSlots → ∀ position, position < s.arena.kvLen slot →
    position < s.arena.geometry.maxSeqLen → reads s'.arena slot position = reads s.arena slot position

theorem Stays.of_arena (h : s'.arena = s.arena) : Stays s s' :=
  ⟨by rw [h], by rw [h], fun _ _ _ _ _ => by rw [h]⟩

theorem Stays.refl (s : Backend Tok Hash β) : Stays s s := Stays.of_arena rfl

theorem Stays.trans (h : Stays s s₁) (h' : Stays s₁ s') : Stays s s' where
  geometry := h'.geometry.trans h.geometry
  kvLen := h'.kvLen.trans h.kvLen
  reads slot hslot position hposition hbound := by
    rw [h'.reads slot (by rwa [h.geometry]) position (by rwa [h.kvLen]) (by rwa [h.geometry]),
      h.reads slot hslot position hposition hbound]

/-- What a store does before it takes a page. -/
structure Frees (s s' : Backend Tok Hash β) : Prop extends Stays s s' where
  committed : s'.committed = s.committed
  persistent : ∀ entry ∈ s'.persistent, entry ∈ s.persistent

theorem Frees.refl (s : Backend Tok Hash β) : Frees s s := ⟨Stays.refl s, rfl, fun _ => id⟩

theorem Frees.trans (h : Frees s s₁) (h' : Frees s₁ s') : Frees s s' :=
  ⟨h.toStays.trans h'.toStays, h'.committed.trans h.committed,
    fun entry hentry => h.persistent entry (h'.persistent entry hentry)⟩

theorem Frees.of_trims {keys : List (Key Hash)} (h : Trims keys s s') : Frees s s' :=
  ⟨Stays.of_arena h.arena, h.committed, h.persistent⟩

theorem Frees.of_forgets (h : Forgets s s') : Frees s s' :=
  ⟨Stays.of_arena h.arena, h.committed, fun entry => (h.persistent entry).mp⟩

theorem Stays.detached {arena : Arena β} {target : Nat} {pages : List Nat} {wanted : Nat → Bool}
    (hd : Detached s.arena target pages wanted arena) : Stays s { s with arena := arena } :=
  ⟨hd.geometry, hd.kvLen, fun _ hslot _ _ hbound => hd.reads (Nat.lt_succ_of_lt hslot) hbound⟩

theorem Stays.unmoved (h : Sound s) {arena : Arena β} (hu : Unmoved s.arena arena) :
    Stays s { s with arena := arena } :=
  ⟨hu.geometry, hu.kvLen, fun _ hslot _ _ hbound => hu.reads h.counted (Nat.lt_succ_of_lt hslot) hbound⟩

theorem Sound.of_pool (h : Sound s) {pool : Pool (Key Hash) Hash}
    (hpool : ∀ hash, pool.contains (.persistent hash) → Key.persistent hash ∈ pool.pinned) :
    Sound { s with checkpointPool := pool } :=
  ⟨h.toBooks.of_pool hpool, h.held⟩

theorem Sound.of_persistent (h : Sound s) {persistent : List (Entry Tok Hash)}
    (hsub : ∀ entry ∈ persistent, entry ∈ s.persistent) : Sound { s with persistent := persistent } :=
  ⟨⟨h.counted, h.freeRange, fun entry hentry => h.entryRange entry (hsub entry hentry),
    fun entry hentry => h.entryFree entry (hsub entry hentry),
    fun entry hentry other hother => h.unique entry (hsub entry hentry) other (hsub other hother),
    fun entry hentry other hother => h.disjoint entry (hsub entry hentry) other (hsub other hother), h.pinned⟩, h.held⟩

end Stays

section Reserve

theorem detachAliases_ends (h : Sound s) :
    Ends (fun _ s' => Sound s' ∧ Frees s s') (fun s' => Sound s' ∧ Frees s s') (detachAliases s) := by
  rw [detachAliases, bind_of_ok (get_apply s)]
  apply ends_foldlM (I := fun _ _ s' => Sound s' ∧ Frees s s')
  · intro done pair rest detached s₁ _ hdone
    obtain ⟨hsound, hfrees⟩ := hdone
    apply ends_bind (P := fun _ s' => Sound s' ∧ Frees s s')
    · apply ends_zoom
      apply (detachScratchAliases_ends hsound.counted pair.2 pair.1.kvLen pair.1.scratchPageOffsets).mono
      · rintro _ arena ⟨pages, wanted, -, hd⟩
        exact ⟨hsound.detached hd, hfrees.trans ⟨Stays.detached hd, rfl, fun _ => id⟩⟩
      · intro arena hu
        exact ⟨hsound.unmoved hu, hfrees.trans ⟨Stays.unmoved hsound hu, rfl, fun _ => id⟩⟩
    · exact fun _ _ => id
  · exact ⟨h, Frees.refl s⟩

/-- An entry whose pages are in no other row is spared by every slot. -/
theorem Sound.spares (h : Sound s) {entry : Entry Tok Hash} (hentry : entry ∈ s.persistent)
    (hunaliased : unaliased s entry = true) : Spares s entry := by
  intro slot hslot n _ i _ offset hoffset hshows
  have hshared := h.shared hslot (h.entryRange entry hentry offset hoffset) hshows
  have hsingle := all_eq_true.mp hunaliased offset hoffset
  rw [decide_eq_true_iff] at hsingle
  omega

variable [DecidableEq Hash]

theorem touch_ends (h : Sound s) (key : Key Hash) :
    Ends (fun _ s' => Sound s' ∧ s' = { s with checkpointPool := s'.checkpointPool }) (fun s' => s' = s)
      (touch key s) := by
  rw [touch, bind_of_ok (get_apply s)]
  apply ends_raiseIf_bind
  · exact fun _ => rfl
  intro _
  exact ⟨h.of_pool fun hash hcontains => h.pinned hash (contains_touch.mp hcontains), rfl⟩

theorem register_ends (s : Backend Tok Hash β) (key : Key Hash) (info : CheckpointMeta Hash) :
    Ends (fun _ s' => s' = { s with checkpointPool := s.checkpointPool.register key info }) (fun s' => s' = s)
      (register key info s) := by
  rw [register, bind_of_ok (get_apply s)]
  exact ends_raiseIf_bind (fun _ => rfl) fun _ => rfl

theorem moveToEnd_ends (h : Sound s) {entry : Entry Tok Hash} (hentry : entry ∈ s.persistent) :
    Ends (fun _ s' => Sound s' ∧ Stays s s') (fun _ => False) (moveToEnd entry s) := by
  rw [moveToEnd, modify_apply, ends_ok]
  refine ⟨h.of_persistent fun other hother => ?_, Stays.of_arena rfl⟩
  cases mem_append.mp hother with
  | inl hold => exact mem_of_mem_filter hold
  | inr hlast => exact mem_singleton.mp hlast ▸ hentry

theorem evictPersistentUntil_ends (h : Sound s) (pages rounds : Nat) :
    Ends (fun _ s' => Sound s' ∧ Frees s s') (fun s' => Sound s' ∧ Frees s s')
      (evictPersistentUntil pages rounds s) := by
  induction rounds generalizing s with
  | zero => exact ⟨h, Frees.refl s⟩
  | succ rounds ih =>
    have hagain : ∀ s₁, Sound s₁ ∧ Frees s s₁ →
        Ends (fun _ s' => Sound s' ∧ Frees s s') (fun s' => Sound s' ∧ Frees s s')
          (evictPersistentUntil pages rounds s₁) := by
      rintro s₁ ⟨hsound, hfrees⟩
      apply (ih hsound).mono
      · exact fun _ s' hs' => ⟨hs'.1, hfrees.trans hs'.2⟩
      · exact fun s' hs' => ⟨hs'.1, hfrees.trans hs'.2⟩
    rw [evictPersistentUntil, bind_of_ok (get_apply s)]
    by_cases hroom : pages ≤ s.freeScratch.length
    · rw [if_pos hroom]
      exact ⟨h, Frees.refl s⟩
    rw [if_neg hroom]
    cases hfind : s.persistent.find? (unaliased s) with
    | some entry =>
      have hentry : entry ∈ s.persistent := mem_of_find?_eq_some hfind
      have hunaliased : unaliased s entry = true := find?_some hfind
      dsimp only
      rw [← bind_assoc]
      apply ends_bind ((unpinEvict_ends h.toBooks (.persistent entry.hashValue)).weaken
        fun _ => False.elim)
      rintro _ s₁ ⟨hbooks, htrims⟩
      apply hagain
      refine ⟨h.trims hbooks htrims fun other hother hkey => ?_, Frees.of_trims htrims⟩
      have hhash : other.hashValue = entry.hashValue := by simpa using hkey
      rw [h.unique other hother entry hentry hhash]
      exact h.spares hentry hunaliased
    | none =>
      dsimp only
      apply ends_bind (detachAliases_ends h)
      intro detached s₁ hs₁
      cases detached with
      | false => exact hs₁
      | true => exact hagain s₁ hs₁

variable [DecidableEq Tok] (cfg : Config Tok Hash)

/-- What a store has chosen: free pages, for a prefix without an entry. -/
structure Chosen (slot kvLen : Nat) (offsets : List Nat) (s : Backend Tok Hash β) : Prop where
  free : ∀ offset ∈ offsets, offset ∈ s.freeScratch
  absent : ∀ entry ∈ s.persistent, entry.hashValue ≠ cfg.hash ((s.committed slot).take kvLen)

theorem reserveScratch_ends (h : Sound s) (hidden snapshots : Bool) (slot : Nat) :
    Ends (fun r s' => (Sound s' ∧ Stays s s') ∧
      ∀ kvLen offsets, r = some (kvLen, offsets) → Chosen cfg slot kvLen offsets s')
      (fun s' => Sound s' ∧ Stays s s') (reserveScratch cfg hidden snapshots slot s) := by
  rw [reserveScratch, bind_of_ok (get_apply s)]
  cases hboundary : storeBoundary hidden slot s with
  | none => exact ⟨⟨h, Stays.refl s⟩, by simp⟩
  | some kvLen =>
    dsimp only
    cases hcurrent : s.persistent.find? (·.hashValue = cfg.hash ((s.committed slot).take kvLen)) with
    | some current =>
      dsimp only
      apply ends_bind ((touch_ends h (.persistent current.hashValue)).weaken
        fun s' hs' => by rw [hs']; exact ⟨h, Stays.refl s⟩)
      rintro _ s₁ ⟨hsound, hframe⟩
      have hmem : current ∈ s₁.persistent := by
        rw [hframe]
        exact mem_of_find?_eq_some hcurrent
      have hstays : Stays s s₁ := Stays.of_arena (by rw [hframe])
      apply ends_bind ((moveToEnd_ends hsound hmem).weaken fun _ => False.elim)
      rintro _ s₂ ⟨hsound, hstays'⟩
      exact ⟨⟨hsound, hstays.trans hstays'⟩, by simp⟩
    | none =>
      dsimp only
      by_cases hextends : hidden = false ∧ extendsPrompt s (s.committed slot) kvLen
      · rw [if_pos hextends]
        exact ⟨⟨h, Stays.refl s⟩, by simp⟩
      rw [if_neg hextends]
      apply ends_bind ((evictPersistentUntil_ends h (s.arena.geometry.pages kvLen) cfg.rounds).weaken
        fun s' hs' => ⟨hs'.1, hs'.2.toStays⟩)
      rintro room s₁ ⟨hsound, hfrees⟩
      cases room with
      | false => exact ⟨⟨hsound, hfrees.toStays⟩, by simp⟩
      | true =>
        rw [if_pos rfl, bind_of_ok (get_apply s₁)]
        cases snapshots with
        | false => exact ⟨⟨hsound, hfrees.toStays⟩, by simp⟩
        | true =>
          rw [if_pos rfl]
          apply ends_bind ((evictCheckpoint_ends hsound slot).weaken
            fun s' hs' => ⟨hs'.sound, hfrees.toStays.trans (Frees.of_forgets hs').toStays⟩)
          intro _ s₂ hforgets
          have hfrees₂ := hfrees.trans (Frees.of_forgets hforgets)
          refine ⟨⟨hforgets.sound, hfrees₂.toStays⟩, ?_⟩
          rintro kvLen' offsets heq
          cases heq
          constructor
          · intro offset hoffset
            rw [hforgets.free]
            exact (mem_insertionSort _).mp (mem_of_mem_take hoffset)
          · intro entry hentry hhash
            rw [hfrees₂.committed] at hhash
            have hnone := find?_eq_none.mp hcurrent entry (hfrees₂.persistent entry hentry)
            exact hnone (by simpa using hhash)

end Reserve

section Publish

variable {kvLen : Nat} {offsets pages : List Nat}

/-- Only the bytes of the given pages change. -/
theorem foldl_copy {γ : Type} (copies : List (Nat × Nat)) (from_ kv : Nat → γ) {page : Nat}
    (hpage : ∀ copy ∈ copies, copy.1 ≠ page) :
    copies.foldl (fun kv copy => update kv copy.1 (from_ copy.2)) kv page = kv page := by
  induction copies generalizing kv with
  | nil => rfl
  | cons copy copies ih =>
    rw [foldl_cons, ih _ fun other hother => hpage other (mem_cons_of_mem _ hother)]
    exact update_of_ne (hpage copy mem_cons_self).symm _ _

/-- What a copy to the scratch row leaves. -/
structure Copied (pages : List Nat) (a a' : Arena β) : Prop where
  frame : a' = { a with kv := a'.kv }
  kv : ∀ page, page ∉ pages → a'.kv page = a.kv page

theorem checkScratchPages_ends (a : Arena β) (slot kvLen : Nat) (pages : List Nat) :
    Ends (fun _ a' => a' = a ∧ slot < a.geometry.numSlots ∧ kvLen ≤ a.geometry.maxSeqLen ∧
      pages.length = a.geometry.pages kvLen) (fun a' => a' = a) (checkScratchPages slot kvLen pages a) := by
  rw [checkScratchPages, bind_of_ok (get_apply a)]
  apply ends_raiseIf_bind
  · exact fun _ => rfl
  intro hslot
  apply ends_raiseIf_bind
  · exact fun _ => rfl
  intro hlen
  apply ends_raiseIf_bind
  · exact fun _ => rfl
  intro hpages
  by_cases hrange : ∃ page ∈ pages, page < a.geometry.scratchPage 0 ∨ a.geometry.scratchPage a.geometry.pagesPerSlot ≤ page
  · rw [raiseIf_of hrange]
    exact rfl
  · rw [raiseIf_of_not hrange]
    exact ⟨rfl, not_le.mp hslot, not_lt.mp (not_or.mp hlen).2, not_not.mp (not_or.mp hpages).1⟩

theorem copyPrefixToScratch_ends (a : Arena β) (slot kvLen : Nat) (pages : List Nat) :
    Ends (fun _ => Copied pages a) (fun a' => a' = a) (copyPrefixToScratch slot kvLen pages a) := by
  rw [copyPrefixToScratch]
  apply ends_bind (checkScratchPages_ends a slot kvLen pages)
  rintro _ _ ⟨rfl, -⟩
  rw [modify_apply, ends_ok]
  refine ⟨rfl, fun page hpage => ?_⟩
  exact foldl_copy _ _ _ fun copy hcopy heq => hpage (heq ▸ (of_mem_zip hcopy).1)

/-- The copy goes to pages that no slot reads. -/
theorem Sound.copied (h : Sound s) (hfree : ∀ offset ∈ offsets, offset ∈ s.freeScratch) {arena : Arena β}
    (hc : Copied (offsets.map s.arena.geometry.scratchPage) s.arena arena) : Stays s { s with arena := arena } := by
  have hgeometry : arena.geometry = s.arena.geometry := by rw [hc.frame]
  have hhost : arena.host = s.arena.host := by rw [hc.frame]
  refine ⟨hgeometry, by rw [hc.frame], fun slot hslot position hposition hbound => ?_⟩
  have hpos := s.arena.geometry.pageSize_pos
  have hpage : position / s.arena.geometry.pageSize < s.arena.geometry.pages (s.arena.kvLen slot) := by
    rw [Geometry.lt_pages_iff]
    exact lt_of_le_of_lt (Nat.div_mul_le_self _ _) hposition
  rw [reads, reads, hgeometry, hhost, hc.kv]
  intro hmem
  obtain ⟨offset, hoffset, hshows⟩ := mem_map.mp hmem
  exact h.kvLen_clear hslot _ hpage offset (hfree offset hoffset) hshows.symm

theorem Sound.of_copied (h : Sound s) {arena : Arena β} (hc : Copied pages s.arena arena) :
    Sound { s with arena := arena } := by
  have hcounted := h.counted.shrink h.counted.freeNodup (fun _ => id) arena.kv
  rw [hc.frame]
  exact h.of_rows hcounted rfl rfl fun _ _ _ _ _ => id

variable [DecidableEq Hash] (cfg : Config Tok Hash)

theorem Sound.publish (h : Sound s) (hchosen : Chosen cfg slot kvLen offsets s) (hidden : Bool)
    (info : CheckpointMeta Hash) :
    let tokens := (s.committed slot).take kvLen
    Sound { s with
      checkpointPool := (s.checkpointPool.register (.persistent (cfg.hash tokens)) info).pin
        (.persistent (cfg.hash tokens))
      persistent := s.persistent ++ [⟨tokens, kvLen, cfg.hash tokens, offsets, hidden⟩]
      freeScratch := s.freeScratch.filter (· ∉ offsets) } := by
  intro tokens
  have hfree : ∀ offset ∈ s.freeScratch.filter (· ∉ offsets), offset ∈ s.freeScratch ∧ offset ∉ offsets := by
    intro offset hoffset
    simpa using hoffset
  have hentry : ∀ entry ∈ s.persistent ++ [⟨tokens, kvLen, cfg.hash tokens, offsets, hidden⟩],
      entry ∈ s.persistent ∨ entry = ⟨tokens, kvLen, cfg.hash tokens, offsets, hidden⟩ := by
    intro entry hentry
    simpa using hentry
  constructor
  · constructor
    · exact h.counted
    · exact fun offset hoffset => h.freeRange offset (hfree offset hoffset).1
    · intro entry hmem offset hoffset
      cases hentry entry hmem with
      | inl hold => exact h.entryRange entry hold offset hoffset
      | inr hnew =>
        subst hnew
        exact h.freeRange offset (hchosen.free offset hoffset)
    · intro entry hmem offset hoffset hstill
      obtain ⟨hbefore, hnot⟩ := hfree offset hstill
      cases hentry entry hmem with
      | inl hold => exact h.entryFree entry hold offset hoffset hbefore
      | inr hnew =>
        subst hnew
        exact hnot hoffset
    · intro entry hmem other hother hhash
      rcases hentry entry hmem with hold | rfl <;> rcases hentry other hother with hold' | rfl
      · exact h.unique entry hold other hold' hhash
      · exact absurd hhash (hchosen.absent entry hold)
      · exact absurd hhash.symm (hchosen.absent other hold')
      · rfl
    · intro entry hmem other hother hne offset hoffset
      rcases hentry entry hmem with hold | rfl <;> rcases hentry other hother with hold' | rfl
      · exact h.disjoint entry hold other hold' hne offset hoffset
      · exact fun hmem => h.entryFree entry hold offset hoffset (hchosen.free offset hmem)
      · exact fun hmem => h.entryFree other hold' offset hmem (hchosen.free offset hoffset)
      · exact absurd rfl hne
    · rintro hash ⟨record, hrecord, heq⟩
      cases mem_append.mp hrecord with
      | inl hold => exact mem_insert_of_mem (h.pinned hash ⟨record, hold, heq⟩)
      | inr hnew =>
        rw [mem_singleton.mp hnew] at heq
        exact heq ▸ mem_insert_self
  · intro slot hslot n hn i hi offset hoffset
    exact h.held slot hslot n hn i hi offset (hfree offset hoffset).1

/-- The pages are those of the choice, so whatever the budget has taken in between the copy is not read. -/
theorem publishPrefix_ends (h : Sound s) (hchosen : Chosen cfg slot kvLen offsets s) (hidden : Bool) :
    let Kept (s' : Backend Tok Hash β) := ((∀ entry ∈ s.persistent, Key.persistent entry.hashValue ∈
      s.checkpointPool.victims cfg.checkpointBytes Key.isPersistent → Spares s entry) → Sound s') ∧ Stays s s'
    Ends (fun _ => Kept) Kept (publishPrefix cfg hidden slot kvLen offsets s) := by
  intro Kept
  rw [publishPrefix]
  apply ends_bind ((evictForBudget_ends h.toBooks cfg.checkpointBytes Key.isPersistent).weaken
    fun _ => False.elim)
  rintro _ s₁ ⟨hbooks, htrims⟩
  have hkept : Kept s₁ := ⟨fun hspares => h.trims hbooks htrims hspares, Stays.of_arena htrims.arena⟩
  have hchosen₁ : Chosen cfg slot kvLen offsets s₁ := by
    refine ⟨fun offset hoffset => htrims.kept offset (hchosen.free offset hoffset), fun entry hentry => ?_⟩
    rw [htrims.committed]
    exact hchosen.absent entry (htrims.persistent entry hentry)
  rw [bind_of_ok (get_apply s₁)]
  split
  · exact hkept
  apply ends_bind (P := fun _ s' => ∃ arena, s' = { s₁ with arena := arena } ∧ Kept { s₁ with arena := arena })
  · apply ends_zoom
    apply (copyPrefixToScratch_ends s₁.arena slot kvLen _).mono
    · intro _ arena hc
      refine ⟨arena, rfl, fun hspares => (hkept.1 hspares).of_copied hc, ?_⟩
      rw [htrims.arena] at hc
      have hstays := h.copied hchosen.free hc
      exact ⟨hstays.geometry, hstays.kvLen, hstays.reads⟩
    · rintro _ rfl
      exact hkept
  rintro _ _ ⟨arena, rfl, hkept⟩
  have hchosen₂ : Chosen cfg slot kvLen offsets { s₁ with arena := arena } := ⟨hchosen₁.free, hchosen₁.absent⟩
  apply ends_bind ((register_ends _ _ _).weaken fun s' hs' => hs' ▸ hkept)
  rintro _ _ rfl
  rw [modify_apply, ends_ok]
  exact ⟨fun hspares => (hkept.1 hspares).publish cfg hchosen₂ hidden _, hkept.2.trans (Stays.of_arena rfl)⟩

end Publish

end ScratchStore
