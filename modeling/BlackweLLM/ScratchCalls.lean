import BlackweLLM.ScratchSafety
import Mathlib.Data.List.GetD

/-!
# Slots over the scratch row

Every call keeps the pages that a slot holds out of the free scratch pages,
as long as no store evicts an entry that a slot still shows and no write goes
past its preparation.
-/

namespace ScratchStore

open List Function RaisingState FixedArena CheckpointPool

variable {Tok Hash β : Type} {s s₁ s' : Backend Tok Hash β} {slot n : Nat}

section Writes

/-- Only rows and bytes have changed, and what was clear still is. -/
structure Writes (s s' : Backend Tok Hash β) : Prop where
  sound : Sound s'
  frame : s' = { s with arena := s'.arena }
  geometry : s'.arena.geometry = s.arena.geometry
  kvLen : s'.arena.kvLen = s.arena.kvLen
  clear : ∀ slot n, Clear s slot n → Clear s' slot n

theorem Writes.refl (h : Sound s) : Writes s s := ⟨h, rfl, rfl, rfl, fun _ _ => id⟩

theorem Writes.trans (h : Writes s s₁) (h' : Writes s₁ s') : Writes s s' where
  sound := h'.sound
  frame := by rw [h'.frame, h.frame]
  geometry := h'.geometry.trans h.geometry
  kvLen := h'.kvLen.trans h.kvLen
  clear slot n hclear := h'.clear slot n (h.clear slot n hclear)

/-- The bytes of the rows, and how far the attention caches have come. -/
theorem Writes.of_kv (h : Sound s) (kv : Nat → Nat → β) (seen : Nat → Nat) :
    Writes s { s with arena := { s.arena with kv := kv, seen := seen } } := by
  have hcounted : Counted { s.arena with kv := kv, seen := seen } :=
    ⟨h.counted.width, h.counted.nodup, h.counted.refCnt, h.counted.unheld, h.counted.freeNodup, h.counted.scratch⟩
  exact ⟨h.of_rows hcounted rfl rfl fun _ _ _ _ _ => id, rfl, rfl, rfl, fun _ _ => id⟩

theorem writeKv_frame (slot start : Nat) (entries : List β) (a : Arena β) :
    writeKv slot start entries a = { a with kv := (writeKv slot start entries a).kv } := by
  rw [writeKv]
  generalize entries.zipIdx = rows
  induction rows generalizing a with
  | nil => rfl
  | cons row rows ih =>
    rw [foldl_cons, ih]
    rfl

section

variable (h : Sound s)
include h

theorem Writes.of_writeKv (slot start : Nat) (entries : List β) :
    Writes s { s with arena := writeKv slot start entries s.arena } := by
  rw [writeKv_frame]
  exact Writes.of_kv h _ s.arena.seen

theorem Writes.of_unmoved {arena : Arena β} (hu : Unmoved s.arena arena) :
    Writes s { s with arena := arena } :=
  ⟨h.unmoved hu, rfl, hu.geometry, hu.kvLen,
    fun _ _ hclear => hclear.congr hu.geometry (congrFun hu.host _) fun _ => id⟩

theorem Writes.of_detached {arena : Arena β} {target : Nat} {pages : List Nat} {wanted : Nat → Bool}
    (hd : Detached s.arena target pages wanted arena) : Writes s { s with arena := arena } := by
  refine ⟨h.detached hd, rfl, hd.geometry, hd.kvLen, fun slot n hclear i hi offset hoffset hshows => ?_⟩
  dsimp only at hi hshows
  rw [hd.geometry] at hi hshows
  exact hclear i hi offset hoffset (Detached.rows h.toBooks hd slot i offset hoffset hshows)

theorem prepare_ends (hslot : slot < s.arena.geometry.numSlots) {start : Nat} (hclear : Clear s slot start)
    (length : Nat) :
    Ends (fun _ s' => Writes s s' ∧ Clear s' slot (start + length)) (Writes s)
      (onArena (prepareKvWrites slot start length) s) := by
  apply ends_zoom
  apply (prepareKvWrites_ends h.counted hslot start length).mono
  · rintro _ arena ⟨-, hd⟩
    exact ⟨Writes.of_detached h hd, h.prepared hslot hclear hd⟩
  · intro arena hu
    exact Writes.of_unmoved h hu

theorem forward_ends (slot : Nat) (entries : List β) :
    Ends (fun _ => Writes s) (Writes s) (onArena (forward slot entries) s) := by
  apply ends_zoom
  rw [forward, bind_of_ok (get_apply s.arena)]
  apply ends_raiseIf_bind
  · exact fun _ => Writes.refl h
  intro _
  rw [bind_of_ok (modify_apply _ _), modify_apply, ends_ok, writeKv_frame]
  exact Writes.of_kv h _ _

/-- A slot has, or is coming to, another length. -/
theorem Sound.relength (hgeometry : s'.arena.geometry = s.arena.geometry) (hframe : s' = { s with
      arena := { s.arena with kvLen := s'.arena.kvLen, seen := s'.arena.seen }
      committed := s'.committed
      prefixCache := s'.prefixCache
      pendingHits := s'.pendingHits
      cachedHidden := s'.cachedHidden
      checkpointLen := s'.checkpointLen
      inFlight := s'.inFlight })
    (hheld : ∀ slot, slot < s.arena.geometry.numSlots → ∀ n ∈ heldLengths s' slot,
      n ∈ heldLengths s slot ∨ Clear s slot n) :
    Sound s' := by
  have hcounted : Counted s'.arena := by
    rw [hframe]
    exact ⟨h.counted.width, h.counted.nodup, h.counted.refCnt, h.counted.unheld, h.counted.freeNodup, h.counted.scratch⟩
  have hhost : s'.arena.host = s.arena.host := by rw [hframe]
  have hfree : s'.freeScratch = s.freeScratch := by rw [hframe]
  have hpersistent : s'.persistent = s.persistent := by rw [hframe]
  have hpool : s'.checkpointPool = s.checkpointPool := by rw [hframe]
  apply h.of_lengths hcounted hgeometry hhost hfree hpersistent hpool
  intro slot hslot n hn
  exact (hheld slot hslot n hn).elim (h.held slot hslot n) id

end

end Writes

section Store

variable [DecidableEq Hash] (cfg : Config Tok Hash)

theorem maybeCheckpoint_ends (h : Sound s) (slot : Nat) (hslot : slot < s.arena.geometry.numSlots) :
    Ends (fun _ s' => Sound s' ∧ s'.arena = s.arena) (fun s' => Sound s' ∧ s'.arena = s.arena)
      (maybeCheckpoint cfg slot s) := by
  rw [maybeCheckpoint, bind_of_ok (get_apply s)]
  dsimp only
  split
  · exact ⟨h, rfl⟩
  apply ends_bind ((evictCheckpoint_ends h slot).weaken fun s' hs' => ⟨hs'.sound, hs'.arena⟩)
  intro _ s₁ hforgets
  have hvictims := evictForBudget_ends hforgets.sound.toBooks cfg.checkpointBytes fun _ : Key Hash => false
  apply ends_bind (hvictims.weaken fun _ => False.elim)
  rintro _ s₂ ⟨hbooks, htrims⟩
  -- Persistent keys are pinned, and a rolling checkpoint takes no pinned key.
  have hsound : Sound s₂ := by
    apply hforgets.sound.trims hbooks htrims
    intro entry _ hkey
    cases victims_unpinned hkey with
    | inl hunpinned => exact absurd (hforgets.sound.pinned _ (contains_of_victims hkey)) hunpinned
    | inr hfalse => cases hfalse
  have harena : s₂.arena = s.arena := htrims.arena.trans hforgets.arena
  rw [bind_of_ok (get_apply s₂)]
  split
  · exact ⟨hsound, harena⟩
  apply ends_bind ((register_ends s₂ _ _).weaken fun s' hs' => by rw [hs']; exact ⟨hsound, harena⟩)
  rintro _ s₃ hs₃
  rw [modify_apply, ends_ok]
  have hpool : Sound s₃ := by
    rw [hs₃]
    apply hsound.of_pool
    rintro hash ⟨record, hrecord, heq⟩
    cases mem_append.mp hrecord with
    | inl hold => exact hsound.pinned hash ⟨record, hold, heq⟩
    | inr hnew =>
      rw [mem_singleton.mp hnew] at heq
      cases heq
  have harena₃ : s₃.arena = s.arena := by rw [hs₃]; exact harena
  refine ⟨hpool.relength rfl rfl fun other hother n hn => ?_, harena₃⟩
  rw [mem_heldLengths] at hn ⊢
  by_cases hself : other = slot
  · subst hself
    rcases hn with hn | hn | ⟨hlength, -⟩
    · exact .inl (.inl hn)
    · exact .inl (.inr (.inl hn))
    · right
      have hn : s.arena.kvLen other = n := by simpa using hlength
      rw [← hn, ← harena₃]
      exact hpool.kvLen_clear hother
  · left
    refine hn.imp_right (Or.imp_right ?_)
    rintro ⟨hlength, hrestorable⟩
    exact ⟨by simpa [update_of_ne hself] using hlength, hrestorable⟩

variable [DecidableEq Tok]

/-- The entries that the budget takes from a store are spared by every slot. -/
def StoreSpares (hidden snapshots : Bool) (slot : Nat) (s : Backend Tok Hash β) : Prop :=
  ∀ r s', reserveScratch cfg hidden snapshots slot s = .ok (some r) s' → ∀ entry ∈ s'.persistent,
    Key.persistent entry.hashValue ∈ s'.checkpointPool.victims cfg.checkpointBytes Key.isPersistent → Spares s' entry

theorem storePersistentPrefix_ends (h : Sound s) (hidden snapshots : Bool) (slot : Nat) :
    let Kept (s' : Backend Tok Hash β) := (StoreSpares cfg hidden snapshots slot s → Sound s') ∧ Stays s s'
    Ends (fun _ => Kept) Kept (storePersistentPrefix cfg hidden snapshots slot s) := by
  intro Kept
  rw [storePersistentPrefix]
  have hreserve := reserveScratch_ends cfg h hidden snapshots slot
  cases hrun : reserveScratch cfg hidden snapshots slot s with
  | error e s₁ =>
    rw [bind_of_error hrun]
    exact ⟨fun _ => (hreserve.error_of hrun).1, (hreserve.error_of hrun).2⟩
  | ok r s₁ =>
    rw [bind_of_ok hrun]
    obtain ⟨⟨hsound, hstays⟩, hchosen⟩ := hreserve.ok_of hrun
    cases r with
    | none => exact ⟨fun _ => hsound, hstays⟩
    | some r =>
      obtain ⟨kvLen, offsets⟩ := r
      have hpublish := publishPrefix_ends cfg hsound (hchosen kvLen offsets rfl) hidden
      exact hpublish.mono (fun _ s' hs' => ⟨fun hspares => hs'.1 (hspares _ s₁ hrun), hstays.trans hs'.2⟩)
        fun s' hs' => ⟨fun hspares => hs'.1 (hspares _ s₁ hrun), hstays.trans hs'.2⟩

end Store

section Restore

structure Keeps (s s' : Backend Tok Hash β) : Prop where
  sound : Sound s'
  geometry : s'.arena.geometry = s.arena.geometry

theorem Keeps.refl (h : Sound s) : Keeps s s := ⟨h, rfl⟩

theorem Keeps.trans (h : Keeps s s₁) (h' : Keeps s₁ s') : Keeps s s' := ⟨h'.sound, h'.geometry.trans h.geometry⟩

theorem Writes.keeps (h : Writes s s') : Keeps s s' := ⟨h.sound, h.geometry⟩

/-- A slot stands at a length that is clear, and no prefill or restorable checkpoint is added. -/
theorem Sound.moved (h : Sound s) (hclear : Clear s slot n) {seen : Nat → Nat} {committed : Nat → List Tok}
    {pending : Nat → Option PrefixHit} {hidden : Nat → Bool} {inFlight : Nat → Option (List Tok × Nat)}
    (hpending : ∀ slot, (pending slot).isSome → (s.pendingHits slot).isSome)
    (hinFlight : ∀ other prefill, inFlight other = some prefill → s.inFlight other = some prefill) :
    Keeps s { s with
      arena := { s.arena with kvLen := update s.arena.kvLen slot n, seen := seen }
      committed := committed
      pendingHits := pending
      cachedHidden := hidden
      inFlight := inFlight } := by
  refine ⟨h.relength rfl rfl fun other _ m hm => ?_, rfl⟩
  rw [mem_heldLengths] at hm ⊢
  rcases hm with hm | ⟨prompt, hprefill⟩ | ⟨hlength, hrestorable⟩
  · by_cases hother : other = slot
    · subst hother
      right
      rw [hm]
      simpa using hclear
    · exact .inl (.inl (by simpa [update_of_ne hother] using hm))
  · exact .inl (.inr (.inl ⟨prompt, hinFlight other _ hprefill⟩))
  · refine .inl (.inr (.inr ⟨hlength, ?_⟩))
    rw [restorable, Bool.or_eq_true] at hrestorable ⊢
    exact hrestorable.imp_right (hpending other)

/-- A row takes pages that are not free. -/
theorem Sound.remapped (h : Sound s) {arena : Arena β} {shown : List Nat} {count : Nat} (hcount : shown.length = count)
    (hr : Remapped s.arena slot (shown ++ (s.arena.host slot).drop count) arena)
    (hshown : ∀ page ∈ shown, ∀ offset ∈ s.freeScratch, page ≠ s.arena.geometry.scratchPage offset) :
    Writes s { s with arena := arena } ∧
      ∀ n, s.arena.geometry.pages n ≤ count → Clear { s with arena := arena } slot n := by
  subst hcount
  have hentry : ∀ i, (i < shown.length ∧ (arena.host slot).getD i 0 ∈ shown) ∨
      shown.length ≤ i ∧ (arena.host slot).getD i 0 = (s.arena.host slot).getD i 0 := by
    intro i
    rw [hr.host, update_self]
    by_cases hi : i < shown.length
    · left
      rw [getD_append _ _ _ _ hi, getD_eq_getElem?_getD, getElem?_eq_getElem hi]
      exact ⟨hi, getElem_mem hi⟩
    · right
      have hi := not_lt.mp hi
      rw [getD_append_right _ _ _ _ hi, getD_eq_getElem?_getD, getElem?_drop, Nat.add_sub_cancel' hi,
        ← getD_eq_getElem?_getD]
      exact ⟨hi, rfl⟩
  have hrows : ∀ other, other < s.arena.geometry.numSlots → ∀ i, ∀ offset ∈ s.freeScratch,
      (arena.host other).getD i 0 = s.arena.geometry.scratchPage offset →
      (s.arena.host other).getD i 0 = s.arena.geometry.scratchPage offset := by
    intro other _ i offset hoffset hshows
    by_cases hother : other = slot
    · subst hother
      cases hentry i with
      | inl hnew => exact absurd hshows (hshown _ hnew.2 offset hoffset)
      | inr hold => exact hold.2 ▸ hshows
    · rwa [hr.host, update_of_ne hother] at hshows
  constructor
  · refine ⟨h.of_rows hr.counted hr.geometry hr.kvLen hrows, rfl, hr.geometry, hr.kvLen, ?_⟩
    intro other n hclear i hi offset hoffset hshows
    dsimp only at hi hshows
    rw [hr.geometry] at hi hshows
    by_cases hother : other = slot
    · subst hother
      cases hentry i with
      | inl hnew => exact hshown _ hnew.2 offset hoffset hshows
      | inr hold => exact hclear i hi offset hoffset (hold.2 ▸ hshows)
    · rw [hr.host, update_of_ne hother] at hshows
      exact hclear i hi offset hoffset hshows
  · intro n hn i hi offset hoffset hshows
    dsimp only at hi hshows
    rw [hr.geometry] at hi hshows
    cases hentry i with
    | inl hnew => exact hshown _ hnew.2 offset hoffset hshows
    | inr hold => omega

theorem sharePrefixKv_ends (h : Sound s) {source target kvLen : Nat} (hne : source ≠ target)
    (hclear : Clear s source kvLen) :
    Ends (fun _ s' => Writes s s' ∧ Clear s' target kvLen) (Writes s)
      (onArena (sharePrefixKv source target kvLen) s) := by
  apply ends_zoom
  rw [sharePrefixKv, bind_of_ok (get_apply s.arena)]
  apply ends_raiseIf_bind
  · exact fun _ => Writes.refl h
  intro _
  apply ends_raiseIf_bind
  · exact fun _ => Writes.refl h
  intro htarget
  by_cases hzero : kvLen = 0
  · rw [if_pos (.inr hzero)]
    exact ⟨Writes.refl h, by rw [hzero]; exact clear_zero⟩
  rw [if_neg (by simp [hne, hzero])]
  apply ends_raiseIf_bind
  · exact fun _ => Writes.refl h
  intro hbound
  have hlength : ((s.arena.host source).take (s.arena.geometry.pages kvLen)).length = s.arena.geometry.pages kvLen := by
    rw [length_take, h.counted.width]
    exact min_eq_left (Geometry.pages_le (not_lt.mp hbound))
  apply (setPageTableRow_ends h.counted (not_le.mp htarget) _).mono
  · intro _ arena hr
    obtain ⟨hwrites, hclear'⟩ := h.remapped hlength hr (by
      intro page hpage offset hoffset
      obtain ⟨i, hi, rfl⟩ := getElem_of_mem hpage
      have hclear := hclear i (hlength ▸ hi) offset hoffset
      rw [length_take] at hi
      rw [getElem_take]
      rwa [getD_eq_getElem _ _ (lt_of_lt_of_le hi (min_le_right _ _))] at hclear)
    exact ⟨hwrites, hclear' kvLen (le_refl _)⟩
  · rintro _ rfl
    exact Writes.refl h

theorem scratchPage_inj (g : Geometry) {offset offset' : Nat} (h : g.scratchPage offset = g.scratchPage offset') :
    offset = offset' := Nat.add_left_cancel h

theorem shareScratchPrefix_ends (h : Sound s) {target kvLen : Nat} {offsets : List Nat}
    (hoffsets : ∀ offset ∈ offsets, offset ∉ s.freeScratch) :
    Ends (fun _ s' => Writes s s' ∧ Clear s' target kvLen) (Writes s)
      (onArena (shareScratchPrefix target kvLen (offsets.map s.arena.geometry.scratchPage)) s) := by
  apply ends_zoom
  rw [shareScratchPrefix]
  apply ends_bind ((checkScratchPages_ends s.arena target kvLen _).weaken
    fun a' ha' => by rw [ha']; exact Writes.refl h)
  rintro _ _ ⟨rfl, htarget, -, hlength⟩
  rw [bind_of_ok (get_apply s.arena)]
  apply (setPageTableRow_ends h.counted htarget _).mono
  · intro _ arena hr
    obtain ⟨hwrites, hclear⟩ := h.remapped rfl hr (by
      intro page hpage offset hoffset heq
      obtain ⟨own, hown, rfl⟩ := mem_map.mp hpage
      exact hoffsets own hown (scratchPage_inj _ heq ▸ hoffset))
    exact ⟨hwrites, hclear kvLen (le_of_eq hlength.symm)⟩
  · rintro _ rfl
    exact Writes.refl h

theorem rewindSlot_ends (h : Sound s) {kvLen : Nat} (hclear : Clear s slot kvLen) :
    Ends (fun _ s' => Keeps s s' ∧ s'.checkpointPool = s.checkpointPool ∧ s'.persistent = s.persistent) (Keeps s)
      (onArena (rewindSlot slot kvLen) s) := by
  apply ends_zoom
  rw [rewindSlot, bind_of_ok (get_apply s.arena)]
  apply ends_raiseIf_bind
  · exact fun _ => Keeps.refl h
  intro _
  rw [set_apply, ends_ok]
  exact ⟨h.moved hclear (fun _ => id) fun _ _ => id, rfl, rfl⟩

theorem Forgets.keeps (h : Forgets s s') : Keeps s s' := ⟨h.sound, by rw [h.arena]⟩

variable [DecidableEq Hash]

theorem dropPrefixCache_ends (h : Sound s) (slot : Nat) :
    Ends (fun _ => Forgets s) (Forgets s) (dropPrefixCache slot s) := by
  rw [dropPrefixCache, bind_of_ok (modify_apply _ s)]
  generalize hs₁ : { s with prefixCache := update s.prefixCache slot none } = s₁
  have hheld : ∀ other, ∀ n ∈ heldLengths s₁ other, n ∈ heldLengths s other := by
    intro other n hn
    subst hs₁
    rw [mem_heldLengths] at hn ⊢
    refine hn.imp_right (Or.imp_right ?_)
    rintro ⟨hlength, hrestorable⟩
    refine ⟨hlength, ?_⟩
    by_cases hother : other = slot
    · subst hother
      rw [restorable, Bool.or_eq_true] at hrestorable ⊢
      exact .inr (hrestorable.resolve_left (by simp))
    · simpa [restorable, update_of_ne hother] using hrestorable
  have hsound : Sound s₁ := by
    subst hs₁
    exact h.relength rfl rfl fun other _ n hn => .inl (hheld other n hn)
  have hforgets : ∀ s', Forgets s₁ s' → Forgets s s' := by
    intro s' hs'
    subst hs₁
    exact ⟨hs'.sound, hs'.arena, hs'.committed, hs'.persistent, hs'.free,
      fun other n hn => hheld other n (hs'.held other n hn)⟩
  exact (evictCheckpoint_ends hsound slot).mono (fun _ => hforgets) hforgets

variable [DecidableEq Tok] (cfg : Config Tok Hash) {tokens : List Tok}

theorem persistentPrefixEntry_mem {entry : Entry Tok Hash}
    (h : persistentPrefixEntry cfg s tokens = some entry) : entry ∈ s.persistent := by
  rw [persistentPrefixEntry] at h
  suffices hfold : ∀ (l : List (Entry Tok Hash)) best, (∀ found, best = some found → found ∈ s.persistent) →
      (∀ other ∈ l, other ∈ s.persistent) → ∀ found,
      l.foldl (fun best entry =>
        if tokens.length < entry.kvLen ∨ tokens.length = entry.kvLen ∧ entry.finalHidden = false ∨
            tokens.take entry.kvLen ≠ entry.tokens then best
        else if ¬s.checkpointPool.contains (.persistent entry.hashValue) then best
        else if s.checkpointPool.byHash (cfg.hash (tokens.take entry.kvLen)) ≠
            some (.persistent entry.hashValue) then best
        else if best.all fun found => found.kvLen < entry.kvLen then some entry
        else best) best = some found → found ∈ s.persistent from hfold _ none (by simp) (fun _ => id) entry h
  intro l
  induction l with
  | nil => exact fun best hbest _ => hbest
  | cons first l ih =>
    intro best hbest hl
    rw [foldl_cons]
    apply ih
    · intro found hfound
      split at hfound
      · exact hbest found hfound
      split at hfound
      · exact hbest found hfound
      split at hfound
      · exact hbest found hfound
      split at hfound
      · cases hfound
        exact hl _ mem_cons_self
      · exact hbest found hfound
    · exact fun other hother => hl other (mem_cons_of_mem _ hother)

theorem restorePersistentPrefix_ends (h : Sound s) (restores : Bool) (slot : Nat) (prompt : List Tok) :
    Ends (fun _ => Keeps s) (Keeps s) (restorePersistentPrefix cfg restores slot prompt s) := by
  rw [restorePersistentPrefix, bind_of_ok (get_apply s)]
  cases hentry : persistentPrefixEntry cfg s prompt with
  | none => exact Keeps.refl h
  | some entry =>
    have hmem := persistentPrefixEntry_mem cfg hentry
    dsimp only
    apply ends_bind ((dropPrefixCache_ends h slot).weaken fun _ => Forgets.keeps)
    intro _ s₁ hforgets
    have hkeeps₁ := hforgets.keeps
    have hgeometry : s.arena.geometry = s₁.arena.geometry := hkeeps₁.geometry.symm
    rw [hgeometry]
    apply ends_bind ((shareScratchPrefix_ends hforgets.sound fun offset hoffset hfree =>
        h.entryFree entry hmem offset hoffset ((hforgets.free offset).mp hfree)).weaken
      fun _ hs₂ => hkeeps₁.trans hs₂.keeps)
    rintro _ s₂ ⟨hwrites, hclear⟩
    have hkeeps₂ := hkeeps₁.trans hwrites.keeps
    apply ends_bind ((rewindSlot_ends hwrites.sound hclear).weaken fun _ => hkeeps₂.trans)
    rintro _ s₃ ⟨hkeeps₃, -, hpersistent⟩
    have hkeeps := hkeeps₂.trans hkeeps₃
    apply ends_raiseIf_bind
    · exact fun _ => hkeeps
    intro _
    apply ends_bind ((touch_ends hkeeps.sound (.persistent entry.hashValue)).weaken
      fun s' hs' => by rw [hs']; exact hkeeps)
    rintro _ s₄ ⟨hsound, hframe⟩
    have hgeometry₄ : s₄.arena.geometry = s.arena.geometry := by
      rw [hframe]
      exact hkeeps.geometry
    have hmem₄ : entry ∈ s₄.persistent := by
      rw [hframe, hpersistent, hwrites.frame]
      exact (hforgets.persistent entry).mpr hmem
    apply ends_bind ((moveToEnd_ends hsound hmem₄).weaken fun _ => False.elim)
    rintro _ s₅ ⟨hsound, hstays⟩
    have hgeometry₅ := hstays.geometry.trans hgeometry₄
    split
    · rw [bind_of_ok (modify_apply _ s₅)]
      exact ⟨hsound.relength rfl rfl fun _ _ _ hn => .inl hn, hgeometry₅⟩
    · exact ⟨hsound, hgeometry₅⟩

/-- A hit is a checkpoint that the slot's retained prefix covers. -/
theorem prefixHitForSlot_restorable (h : 0 < (prefixHitForSlot cfg s tokens slot).effective) :
    s.checkpointLen slot = some (prefixHitForSlot cfg s tokens slot).effective ∧
      restorable s slot (prefixHitForSlot cfg s tokens slot).effective = true := by
  rw [prefixHitForSlot] at h ⊢
  cases hcached : s.prefixCache slot with
  | none =>
    rw [hcached] at h
    exact absurd h (lt_irrefl 0)
  | some cached =>
    obtain ⟨cached, cachedLen⟩ := cached
    rw [hcached] at h
    dsimp only at h ⊢
    generalize hmatch : (((tokens.zip cached).take cachedLen).takeWhile fun pair => pair.1 = pair.2).length =
      matchLen at h ⊢
    have hle : matchLen ≤ cachedLen := by
      rw [← hmatch]
      exact le_trans ((takeWhile_sublist _).length_le) (length_take_le _ _)
    have haligned : matchLen / cfg.blockSize * cfg.blockSize ≤ matchLen := Nat.div_mul_le_self _ _
    generalize hhit : (if tokens.length ≤ matchLen / cfg.blockSize * cfg.blockSize then
      (tokens.length - 1) / cfg.blockSize * cfg.blockSize else matchLen / cfg.blockSize * cfg.blockSize) = kvHit at h ⊢
    have hkvHit : kvHit ≤ cachedLen := by
      rw [← hhit]
      split
      · have := Nat.div_mul_le_self (tokens.length - 1) cfg.blockSize
        omega
      · omega
    split at h
    · exact absurd h (lt_irrefl 0)
    next hpos =>
      rw [if_neg hpos]
      cases hcheckpoint : s.checkpointLen slot with
      | none =>
        rw [hcheckpoint] at h
        exact absurd h (lt_irrefl 0)
      | some length =>
        rw [hcheckpoint] at h
        dsimp only at h ⊢
        split at h
        next hfound =>
          rw [if_pos hfound]
          refine ⟨rfl, ?_⟩
          rw [restorable, hcached]
          have hcovered : length ≤ cachedLen := le_trans hfound.1 hkvHit
          rw [Bool.or_eq_true]
          exact .inl (decide_eq_true hcovered)
        next => exact absurd h (lt_irrefl 0)

theorem bestPrefixSource_spec {canRestore : Nat → Nat → Bool} {preferred : Option Nat}
    {source : Nat} {hit : PrefixHit} (h : bestPrefixSource cfg canRestore s tokens preferred = (some source, hit)) :
    hit = prefixHitForSlot cfg s tokens source ∧ source < s.arena.geometry.numSlots := by
  rw [bestPrefixSource] at h
  suffices hfold : ∀ (l : List Nat) (best : Option Nat × PrefixHit),
      (∀ found hit, best = (some found, hit) →
        hit = prefixHitForSlot cfg s tokens found ∧ found < s.arena.geometry.numSlots) →
      (∀ other ∈ l, other < s.arena.geometry.numSlots) → ∀ found hit,
      l.foldl (fun best source =>
        let hit := prefixHitForSlot cfg s tokens source
        if s.arena.kvLen source ≠ 0 then best
        else if 0 < hit.effective ∧ canRestore source hit.effective = false then best
        else if better hit best.2 (some source = preferred) (best.1 = preferred) then (some source, hit)
        else best) best = (some found, hit) →
      hit = prefixHitForSlot cfg s tokens found ∧ found < s.arena.geometry.numSlots from
    hfold _ (none, noHit) (by simp) (fun _ => mem_range.mp) source hit h
  intro l
  induction l with
  | nil => exact fun best hbest _ => hbest
  | cons first l ih =>
    intro best hbest hl
    rw [foldl_cons]
    apply ih
    · intro found hit hfound
      dsimp only at hfound
      split at hfound
      · exact hbest found hit hfound
      split at hfound
      · exact hbest found hit hfound
      split at hfound
      · cases hfound
        exact ⟨rfl, hl _ mem_cons_self⟩
      · exact hbest found hit hfound
    · exact fun other hother => hl other (mem_cons_of_mem _ hother)

theorem reconcilePrefixHit_keeps (h : Sound s) (canRestore : Nat → Nat → Bool) (tokens : List Tok) :
    Keeps s (reconcilePrefixHit cfg canRestore tokens s) := by
  rw [reconcilePrefixHit]
  split
  · exact Keeps.refl h
  cases hbest : bestPrefixSource cfg canRestore s tokens none with
  | mk found hit =>
    cases found with
    | none => exact Keeps.refl h
    | some source =>
      obtain ⟨rfl, hsource⟩ := bestPrefixSource_spec cfg hbest
      dsimp only
      split
      next hpos =>
        refine ⟨h.relength rfl rfl fun other hother n hn => ?_, rfl⟩
        rw [mem_heldLengths] at hn ⊢
        by_cases hself : other = source
        · subst hself
          rcases hn with hn | hn | ⟨hlength, -⟩
          · exact .inl (.inl hn)
          · exact .inl (.inr (.inl hn))
          · -- The checkpoint is the one that the hit has found.
            have hfound := prefixHitForSlot_restorable cfg hpos
            obtain rfl : (prefixHitForSlot cfg s tokens other).effective = n :=
              Option.some.inj (hfound.1.symm.trans hlength)
            exact .inl (.inr (.inr hfound))
        · left
          refine hn.imp_right (Or.imp_right ?_)
          rintro ⟨hlength, hrestorable⟩
          exact ⟨hlength, by simpa [restorable, update_of_ne hself] using hrestorable⟩
      next => exact Keeps.refl h

/-- The source has a checkpoint that a slot can be sent to, so its pages are not free. -/
theorem findSource_clear (h : Sound s) {canRestore : Nat → Nat → Bool} (hslot : slot < s.arena.geometry.numSlots)
    {prompt : List Tok} {source : Nat} (hsome : (findSource cfg canRestore s slot prompt).1 = some source)
    (hpos : 0 < (findSource cfg canRestore s slot prompt).2.effective)
    (hlength : s.checkpointLen source = some (findSource cfg canRestore s slot prompt).2.effective) :
    Clear s source (findSource cfg canRestore s slot prompt).2.effective := by
  have hbest : ∀ found, bestPrefixSource cfg canRestore s prompt (some slot) = found → found.1 = some source →
      0 < found.2.effective → Clear s source found.2.effective := by
    rintro ⟨_, hit⟩ hbest rfl hpos
    obtain ⟨rfl, hlt⟩ := bestPrefixSource_spec cfg hbest
    exact h.held source hlt _ (mem_heldLengths.mpr (.inr (.inr (prefixHitForSlot_restorable cfg hpos))))
  rw [findSource] at hsome hpos hlength ⊢
  cases hpending : s.pendingHits slot with
  | none =>
    rw [hpending] at hsome hpos
    exact hbest _ rfl hsome hpos
  | some hit =>
    rw [hpending] at hsome hpos hlength
    dsimp only at hsome hpos hlength ⊢
    by_cases hhit : 0 < hit.effective
    · rw [if_pos hhit] at hsome hlength ⊢
      cases hsome
      apply h.held slot hslot _ (mem_heldLengths.mpr (.inr (.inr ⟨hlength, ?_⟩)))
      rw [restorable, hpending, Bool.or_eq_true]
      exact .inr rfl
    · rw [if_neg hhit] at hsome hpos ⊢
      exact hbest _ rfl hsome hpos

section

variable (h : Sound s) (canRestore : Nat → Nat → Bool) (restores : Bool) (hslot : slot < s.arena.geometry.numSlots)
  (prompt : List Tok)
include h hslot

theorem applyPrefixHit_ends :
    Ends (fun _ => Keeps s) (Keeps s) (applyPrefixHit cfg canRestore restores slot prompt s) := by
  rw [applyPrefixHit, bind_of_ok (get_apply s)]
  dsimp only
  rw [bind_of_ok (set_apply _ s)]
  generalize hs₁ : { s with pendingHits := update s.pendingHits slot none } = s₁
  have hsound : Sound s₁ := by
    subst hs₁
    refine h.relength rfl rfl fun other _ n hn => .inl ?_
    rw [mem_heldLengths] at hn ⊢
    refine hn.imp_right (Or.imp_right ?_)
    rintro ⟨hlength, hrestorable⟩
    refine ⟨hlength, ?_⟩
    by_cases hother : other = slot
    · subst hother
      rw [restorable, Bool.or_eq_true] at hrestorable ⊢
      exact .inl (hrestorable.resolve_right (by simp))
    · simpa [restorable, update_of_ne hother] using hrestorable
  have harena : s₁.arena = s.arena := by rw [← hs₁]
  have hfree : s₁.freeScratch = s.freeScratch := by rw [← hs₁]
  have hkeeps : Keeps s s₁ := ⟨hsound, by rw [harena]⟩
  generalize hfound : findSource cfg canRestore s slot prompt = found
  have hsource : ∀ source, found.1 = some source → 0 < found.2.effective →
      s.checkpointLen source = some found.2.effective → Clear s source found.2.effective := by
    rw [← hfound]
    exact fun source => findSource_clear cfg h hslot
  split
  · apply (restorePersistentPrefix_ends cfg hsound restores slot prompt).mono
    · exact fun _ _ => hkeeps.trans
    · exact fun _ => hkeeps.trans
  cases hsome : found.1 with
  | none => exact hkeeps
  | some source =>
    dsimp only
    split
    · exact hkeeps
    next hguards =>
      simp only [not_or, not_not] at hguards
      obtain ⟨hne, -, hlength, -⟩ := hguards
      have hclear : Clear s₁ source found.2.effective :=
        (hsource source hsome (Nat.pos_of_ne_zero hne) hlength).congr (by rw [harena]) (by rw [harena])
          (fun offset => by rw [hfree]; exact id)
      have hrest : ∀ s₂, Keeps s s₂ → Clear s₂ slot found.2.effective →
          Ends (fun _ => Keeps s) (Keeps s) ((do
            onArena (rewindSlot slot found.2.effective)
            touch (.rolling source found.2.effective)
            pure found.2.effective : StoreM Tok Hash β Nat) s₂) := by
        intro s₂ hkeeps₂ hclear₂
        apply ends_bind ((rewindSlot_ends hkeeps₂.sound hclear₂).weaken fun _ => hkeeps₂.trans)
        rintro _ s₃ ⟨hkeeps₃, -⟩
        have hkeeps := hkeeps₂.trans hkeeps₃
        apply ends_bind ((touch_ends hkeeps.sound _).weaken fun s' hs' => by rw [hs']; exact hkeeps)
        rintro _ s₄ ⟨hsound, hframe⟩
        exact ⟨hsound, by rw [hframe]; exact hkeeps.geometry⟩
      by_cases hself : source = slot
      · subst hself
        rw [if_neg (not_not.mpr rfl)]
        exact hrest s₁ hkeeps hclear
      · rw [if_pos hself]
        apply ends_bind ((dropPrefixCache_ends hsound slot).weaken fun _ hs' => hkeeps.trans hs'.keeps)
        intro _ s₂ hforgets
        have hkeeps₂ := hkeeps.trans hforgets.keeps
        have hclear₂ : Clear s₂ source found.2.effective :=
          hclear.congr (by rw [hforgets.arena]) (by rw [hforgets.arena]) fun offset => (hforgets.free offset).mp
        apply ends_bind ((sharePrefixKv_ends hforgets.sound hself hclear₂).weaken
          fun _ hs' => hkeeps₂.trans hs'.keeps)
        rintro _ s₃ ⟨hwrites, hclear₃⟩
        exact hrest s₃ (hkeeps₂.trans hwrites.keeps) hclear₃

theorem prefillBegin_ends :
    Ends (fun _ => Sound) Sound (prefillBegin cfg canRestore restores slot prompt s) := by
  rw [prefillBegin]
  apply ends_bind ((applyPrefixHit_ends cfg h canRestore restores hslot prompt).weaken fun _ hs' => hs'.sound)
  intro hit s₁ hkeeps
  rw [bind_of_ok (get_apply s₁)]
  apply ends_raiseIf_bind
  · exact fun _ => hkeeps.sound
  intro hdirty
  apply ends_raiseIf_bind
  · exact fun _ => hkeeps.sound
  intro _
  rw [set_apply, ends_ok]
  refine hkeeps.sound.relength rfl rfl fun other hother n hn => ?_
  rw [mem_heldLengths] at hn ⊢
  by_cases hself : other = slot
  · subst hself
    rcases hn with hn | ⟨prompt', hprefill⟩ | hn
    · exact .inl (.inl hn)
    · left
      left
      have hhit : hit = n := by simpa using (congrArg (Option.map Prod.snd) hprefill)
      rw [← hhit]
      exact (not_not.mp hdirty).symm
    · exact .inl (.inr (.inr hn))
  · left
    refine hn.imp_right (Or.imp_left ?_)
    rintro ⟨prompt', hprefill⟩
    exact ⟨prompt', by simpa [update_of_ne hself] using hprefill⟩

end

end Restore

end ScratchStore
