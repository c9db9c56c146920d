import BlackweLLM.ScratchBackend

/-!
# The scratch pages of the persistent prefixes

Every scratch page belongs to one entry, or is free, or is out of use. An
eviction frees the pages of the entry that it drops and of no other, so a slot
still reads what it did unless it showed one of those pages.
-/

namespace ScratchStore

open List Function RaisingState FixedArena CheckpointPool

variable {Tok Hash β : Type} {s s₁ s' : Backend Tok Hash β} {slot n m : Nat}

section Definitions

/-- The first `n` positions of a slot show no page that is free for a new prefix. -/
def Clear (s : Backend Tok Hash β) (slot n : Nat) : Prop :=
  ∀ i, i < s.arena.geometry.pages n → ∀ offset ∈ s.freeScratch,
    (s.arena.host slot).getD i 0 ≠ s.arena.geometry.scratchPage offset

/-- A checkpoint that a later prompt can be sent to. -/
def restorable (s : Backend Tok Hash β) (slot n : Nat) : Bool :=
  (s.prefixCache slot).any (fun cached => n ≤ cached.2) || (s.pendingHits slot).isSome

/-- The lengths that a slot has, is coming to, or can go back to. -/
def heldLengths (s : Backend Tok Hash β) (slot : Nat) : List Nat :=
  s.arena.kvLen slot :: (((s.inFlight slot).map Prod.snd).toList ++
    ((s.checkpointLen slot).filter fun n => restorable s slot n).toList)

/-- No slot shows a page of the entry in what it holds. -/
def Spares (s : Backend Tok Hash β) (entry : Entry Tok Hash) : Prop :=
  ∀ slot, slot < s.arena.geometry.numSlots → ∀ n ∈ heldLengths s slot, ∀ i, i < s.arena.geometry.pages n →
    ∀ offset ∈ entry.scratchPageOffsets, (s.arena.host slot).getD i 0 ≠ s.arena.geometry.scratchPage offset

structure Books (s : Backend Tok Hash β) : Prop where
  counted : Counted s.arena
  freeRange : ∀ offset ∈ s.freeScratch, offset < s.arena.geometry.pagesPerSlot
  entryRange : ∀ entry ∈ s.persistent, ∀ offset ∈ entry.scratchPageOffsets, offset < s.arena.geometry.pagesPerSlot
  entryFree : ∀ entry ∈ s.persistent, ∀ offset ∈ entry.scratchPageOffsets, offset ∉ s.freeScratch
  unique : ∀ entry ∈ s.persistent, ∀ other ∈ s.persistent, entry.hashValue = other.hashValue → entry = other
  disjoint : ∀ entry ∈ s.persistent, ∀ other ∈ s.persistent, entry.hashValue ≠ other.hashValue →
    ∀ offset ∈ entry.scratchPageOffsets, offset ∉ other.scratchPageOffsets
  pinned : ∀ hash, s.checkpointPool.contains (.persistent hash) → Key.persistent hash ∈ s.checkpointPool.pinned

structure Sound (s : Backend Tok Hash β) : Prop extends Books s where
  held : ∀ slot, slot < s.arena.geometry.numSlots → ∀ n ∈ heldLengths s slot, Clear s slot n

end Definitions

section Lengths

theorem mem_heldLengths : n ∈ heldLengths s slot ↔ n = s.arena.kvLen slot ∨
    (∃ prompt, s.inFlight slot = some (prompt, n)) ∨ s.checkpointLen slot = some n ∧ restorable s slot n = true := by
  simp only [heldLengths, mem_cons, mem_append, Option.mem_toList, Option.map_eq_some_iff, Prod.exists,
    exists_eq_right, Option.filter_eq_some_iff]

theorem kvLen_held : s.arena.kvLen slot ∈ heldLengths s slot := mem_cons_self

theorem clear_zero : Clear s slot 0 := by
  intro i hi
  exact absurd (Geometry.lt_pages_iff.mp hi) (Nat.not_lt_zero _)

theorem Clear.mono (h : Clear s slot n) (hm : m ≤ n) : Clear s slot m := by
  intro i hi
  exact h i (Geometry.lt_pages_iff.mpr (lt_of_lt_of_le (Geometry.lt_pages_iff.mp hi) hm))

/-- Where the rows and the free pages are the same, so is what is clear. -/
theorem Clear.congr (h : Clear s slot n) (hgeometry : s'.arena.geometry = s.arena.geometry)
    (hhost : s'.arena.host slot = s.arena.host slot) (hfree : ∀ offset ∈ s'.freeScratch, offset ∈ s.freeScratch) :
    Clear s' slot n := by
  rw [Clear, hgeometry, hhost]
  exact fun i hi offset hoffset => h i hi offset (hfree offset hoffset)

theorem Sound.kvLen_clear (h : Sound s) (hslot : slot < s.arena.geometry.numSlots) :
    Clear s slot (s.arena.kvLen slot) :=
  h.held slot hslot _ kvLen_held

end Lengths

section Steps

variable {arena : Arena β}

/-- Only lengths and records have changed, and no length that was not clear has been added. -/
theorem Sound.of_lengths (h : Sound s) (harena : Counted s'.arena) (hgeometry : s'.arena.geometry = s.arena.geometry)
    (hhost : s'.arena.host = s.arena.host) (hfree : s'.freeScratch = s.freeScratch)
    (hpersistent : s'.persistent = s.persistent) (hpool : s'.checkpointPool = s.checkpointPool)
    (hheld : ∀ slot, slot < s.arena.geometry.numSlots → ∀ n ∈ heldLengths s' slot, Clear s slot n) : Sound s' := by
  constructor
  · constructor
    · exact harena
    · rw [hfree, hgeometry]
      exact h.freeRange
    · rw [hpersistent, hgeometry]
      exact h.entryRange
    · rw [hpersistent, hfree]
      exact h.entryFree
    · rw [hpersistent]
      exact h.unique
    · rw [hpersistent]
      exact h.disjoint
    · rw [hpool]
      exact h.pinned
  · rw [hgeometry]
    intro slot hslot n hn
    exact (hheld slot hslot n hn).congr hgeometry (congrFun hhost slot) (fun offset => by rw [hfree]; exact id)

/-- The rows have changed, and show no page that is free and that they did not show. -/
theorem Sound.of_rows (h : Sound s) (harena : Counted arena)
    (hgeometry : arena.geometry = s.arena.geometry) (hkvLen : arena.kvLen = s.arena.kvLen)
    (hrows : ∀ slot, slot < s.arena.geometry.numSlots → ∀ i, ∀ offset ∈ s.freeScratch,
      (arena.host slot).getD i 0 = s.arena.geometry.scratchPage offset →
      (s.arena.host slot).getD i 0 = s.arena.geometry.scratchPage offset) : Sound { s with arena := arena } := by
  constructor
  · constructor
    · exact harena
    · intro offset hoffset
      rw [hgeometry]
      exact h.freeRange offset hoffset
    · intro entry hentry offset hoffset
      rw [hgeometry]
      exact h.entryRange entry hentry offset hoffset
    · exact h.entryFree
    · exact h.unique
    · exact h.disjoint
    · exact h.pinned
  · intro slot hslot n hn i hi offset hoffset hshows
    rw [hgeometry] at hslot hi hshows
    have hlength : n ∈ heldLengths s slot := by
      rw [mem_heldLengths] at hn ⊢
      rw [← hkvLen]
      exact hn
    exact h.held slot hslot n hlength i hi offset hoffset (hrows slot hslot i offset hoffset hshows)

theorem Detached.rows (h : Books s) {pages : List Nat} {wanted : Nat → Bool} {target : Nat}
    (hd : Detached s.arena target pages wanted arena) : ∀ slot i, ∀ offset ∈ s.freeScratch,
      (arena.host slot).getD i 0 = s.arena.geometry.scratchPage offset →
      (s.arena.host slot).getD i 0 = s.arena.geometry.scratchPage offset := by
  intro slot i offset hoffset hshows
  by_cases hslot : slot = target
  · subst hslot
    by_contra hold
    exact hd.not_scratch h.counted (h.freeRange offset hoffset) hold hshows
  · rwa [hd.other slot hslot] at hshows

theorem Sound.detached (h : Sound s) {pages : List Nat} {wanted : Nat → Bool} {target : Nat}
    (hd : Detached s.arena target pages wanted arena) : Sound { s with arena := arena } :=
  h.of_rows hd.counted hd.geometry hd.kvLen fun slot _ => Detached.rows h.toBooks hd slot

theorem Sound.unmoved (h : Sound s) (hu : Unmoved s.arena arena) : Sound { s with arena := arena } := by
  apply h.of_rows hu.counted hu.geometry hu.kvLen
  intro slot _ i offset _ hshows
  rwa [hu.host] at hshows

/-- A row that shows a scratch page shares it. -/
theorem Books.shared (h : Books s) (hslot : slot < s.arena.geometry.numSlots) {i offset : Nat}
    (hoffset : offset < s.arena.geometry.pagesPerSlot)
    (hshows : (s.arena.host slot).getD i 0 = s.arena.geometry.scratchPage offset) :
    1 < s.arena.refCnt (s.arena.geometry.scratchPage offset) := by
  apply h.counted.scratchPage_shared hslot hoffset
  by_cases hi : i < s.arena.geometry.pagesPerSlot
  · rw [← hshows]
    exact h.counted.entry_mem hi slot
  · -- Past the row the default is page zero, which lies in front of the scratch pages.
    have hdefault : (s.arena.host slot).getD i 0 = 0 := by
      rw [getD_eq_getElem?_getD, getElem?_eq_none (by rw [h.counted.width]; exact not_lt.mp hi)]
      rfl
    rw [hdefault, Geometry.scratchPage, Geometry.scratchRow] at hshows
    have hpos : 0 < s.arena.geometry.numSlots * s.arena.geometry.pagesPerSlot :=
      Nat.mul_pos (Nat.zero_lt_of_lt hslot) (Nat.zero_lt_of_lt hoffset)
    omega

/-- Behind a write that was prepared, the slot shows no scratch page in it. -/
theorem Sound.prepared (h : Sound s) (hslot : slot < s.arena.geometry.numSlots) {start length : Nat}
    (hclear : Clear s slot start)
    (hd : Detached s.arena slot (if length = 0 then [] else s.arena.geometry.touched start length)
      (fun _ => true) arena) :
    Clear { s with arena := arena } slot (start + length) := by
  intro i hi offset hoffset hshows
  dsimp only at hi hshows
  rw [hd.geometry] at hi hshows
  have hold := Detached.rows h.toBooks hd slot i offset hoffset hshows
  have hbefore : ¬i < s.arena.geometry.pages start := fun hi => hclear i hi offset hoffset hold
  cases Geometry.page_cases hi with
  | inl hi => exact hbefore hi
  | inr htouched =>
    by_cases hlength : length = 0
    · subst hlength
      exact hbefore hi
    · rw [if_neg hlength] at hd
      have hshared := h.shared hslot (h.freeRange offset hoffset) hold
      rcases hd.unshared i htouched with hfalse | hsingle | hfree
      · exact absurd hfalse (by simp)
      · rw [hold] at hsingle
        omega
      · rw [hshows] at hfree
        exact h.counted.scratchPage_not_free (h.freeRange offset hoffset) hfree

end Steps

section Evictions

variable {key : Key Hash} {keys : List (Key Hash)} {slot n : Nat}

/-- What evictions of some keys leave: the arena, and fewer entries, whose pages are free. -/
structure Trims (keys : List (Key Hash)) (s s' : Backend Tok Hash β) : Prop where
  arena : s'.arena = s.arena
  committed : s'.committed = s.committed
  inFlight : s'.inFlight = s.inFlight
  persistent : ∀ entry ∈ s'.persistent, entry ∈ s.persistent
  spared : ∀ entry ∈ s.persistent, Key.persistent entry.hashValue ∉ keys → entry ∈ s'.persistent
  held : ∀ slot, ∀ n ∈ heldLengths s' slot, n ∈ heldLengths s slot
  kept : ∀ offset ∈ s.freeScratch, offset ∈ s'.freeScratch
  freed : ∀ offset ∈ s'.freeScratch, offset ∈ s.freeScratch ∨
    ∃ entry ∈ s.persistent, Key.persistent entry.hashValue ∈ keys ∧ offset ∈ entry.scratchPageOffsets

theorem Trims.refl (keys : List (Key Hash)) (s : Backend Tok Hash β) : Trims keys s s :=
  ⟨rfl, rfl, rfl, fun _ => id, fun _ hentry _ => hentry, fun _ _ => id, fun _ => id, fun _ => .inl⟩

theorem Trims.trans (h : Trims keys s s₁) (h' : Trims keys s₁ s') : Trims keys s s' where
  arena := h'.arena.trans h.arena
  committed := h'.committed.trans h.committed
  inFlight := h'.inFlight.trans h.inFlight
  persistent entry hentry := h.persistent entry (h'.persistent entry hentry)
  spared entry hentry hkey := h'.spared entry (h.spared entry hentry hkey) hkey
  held slot n hn := h.held slot n (h'.held slot n hn)
  kept offset hoffset := h'.kept offset (h.kept offset hoffset)
  freed offset hoffset := by
    cases h'.freed offset hoffset with
    | inl hfree => exact h.freed offset hfree
    | inr hentry =>
      obtain ⟨entry, hentry, hkey, hmem⟩ := hentry
      exact .inr ⟨entry, h.persistent entry hentry, hkey, hmem⟩

theorem Trims.mono {keys' : List (Key Hash)} (h : Trims keys s s') (hkeys : ∀ key ∈ keys, key ∈ keys') :
    Trims keys' s s' :=
  { h with
    spared := fun entry hentry hkey => h.spared entry hentry fun hmem => hkey (hkeys _ hmem)
    freed := fun offset hoffset => (h.freed offset hoffset).imp_right fun ⟨entry, hentry, hkey, hmem⟩ =>
      ⟨entry, hentry, hkeys _ hkey, hmem⟩ }

/-- A slot that is spared does not notice. -/
theorem Sound.trims (h : Sound s) (hbooks : Books s') (ht : Trims keys s s')
    (hspares : ∀ entry ∈ s.persistent, Key.persistent entry.hashValue ∈ keys → Spares s entry) : Sound s' := by
  refine ⟨hbooks, fun slot hslot n hn i hi offset hoffset => ?_⟩
  rw [ht.arena] at hslot hi ⊢
  have hheld := ht.held slot n hn
  cases ht.freed offset hoffset with
  | inl hfree => exact h.held slot hslot n hheld i hi offset hfree
  | inr hentry =>
    obtain ⟨entry, hentry, hkey, hmem⟩ := hentry
    exact hspares entry hentry hkey slot hslot n hheld i hi offset hmem

theorem Books.of_pool (h : Books s) {pool : Pool (Key Hash) Hash}
    (hpool : ∀ hash, pool.contains (.persistent hash) → Key.persistent hash ∈ pool.pinned) :
    Books { s with checkpointPool := pool } :=
  ⟨h.counted, h.freeRange, h.entryRange, h.entryFree, h.unique, h.disjoint, hpool⟩

theorem Trims.of_pool (keys : List (Key Hash)) (s : Backend Tok Hash β) (pool : Pool (Key Hash) Hash) :
    Trims keys s { s with checkpointPool := pool } :=
  ⟨rfl, rfl, rfl, fun _ => id, fun _ hentry _ => hentry, fun _ _ => id, fun _ => id, fun _ => .inl⟩

variable [DecidableEq Hash]

theorem dropKvForCheckpoint_trims (s : Backend Tok Hash β) (key : Key Hash) :
    Trims [key] s (dropKvForCheckpoint s key) := by
  cases key with
  | persistent hash =>
    rw [dropKvForCheckpoint]
    cases hfind : s.persistent.find? (·.hashValue = hash) with
    | none => exact Trims.refl _ _
    | some entry =>
      have hmem := mem_of_find?_eq_some hfind
      have hhash : entry.hashValue = hash := by simpa using find?_some hfind
      refine ⟨rfl, rfl, rfl, fun _ => mem_of_mem_filter, fun other hother hkey => ?_, fun _ _ => id,
        fun _ hoffset => mem_union_iff.mpr (.inl hoffset),
        fun offset hoffset => ?_⟩
      · exact mem_filter.mpr ⟨hother, by simpa using hkey⟩
      cases mem_union_iff.mp hoffset with
      | inl hfree => exact .inl hfree
      | inr hown => exact .inr ⟨entry, hmem, by simp [hhash], hown⟩
  | rolling target length =>
    refine ⟨rfl, rfl, rfl, fun _ => id, fun _ hentry _ => hentry, fun slot n hn => ?_, fun _ => id, fun _ => .inl⟩
    rw [mem_heldLengths] at hn ⊢
    apply hn.imp_right
    apply Or.imp_right
    rintro ⟨hlength, hrestorable⟩
    by_cases hslot : slot = target
    · subst hslot
      simp [dropKvForCheckpoint] at hlength
    · simpa [dropKvForCheckpoint, restorable, update_of_ne hslot] using And.intro hlength hrestorable

theorem dropKvForCheckpoint_pool (s : Backend Tok Hash β) (key : Key Hash) :
    (dropKvForCheckpoint s key).checkpointPool = s.checkpointPool := by
  cases key with
  | persistent hash =>
    rw [dropKvForCheckpoint]
    split <;> rfl
  | rolling _ _ => rfl

section

variable (h : Books s)
include h

theorem Books.drop (key : Key Hash) : Books (dropKvForCheckpoint s key) := by
  have ht := dropKvForCheckpoint_trims s key
  have hpool := dropKvForCheckpoint_pool s key
  constructor
  · rw [ht.arena]
    exact h.counted
  · intro offset hoffset
    rw [ht.arena]
    cases ht.freed offset hoffset with
    | inl hfree => exact h.freeRange offset hfree
    | inr hentry =>
      obtain ⟨entry, hentry, -, hmem⟩ := hentry
      exact h.entryRange entry hentry offset hmem
  · intro entry hentry
    rw [ht.arena]
    exact h.entryRange entry (ht.persistent entry hentry)
  · intro entry hentry offset hoffset hfree
    cases key with
    | persistent hash =>
      rw [dropKvForCheckpoint] at hentry hfree
      cases hfind : s.persistent.find? (·.hashValue = hash) with
      | none =>
        rw [hfind] at hentry hfree
        exact h.entryFree entry hentry offset hoffset hfree
      | some dropped =>
        rw [hfind] at hentry hfree
        have hmem := mem_of_find?_eq_some hfind
        have hhash : dropped.hashValue = hash := by simpa using find?_some hfind
        obtain ⟨hentry, hne⟩ := mem_filter.mp hentry
        have hne : entry.hashValue ≠ dropped.hashValue := by
          rw [hhash]
          simpa using hne
        cases mem_union_iff.mp hfree with
        | inl hfree => exact h.entryFree entry hentry offset hoffset hfree
        | inr hown => exact h.disjoint entry hentry dropped hmem hne offset hoffset hown
    | rolling _ _ => exact h.entryFree entry hentry offset hoffset hfree
  · intro entry hentry other hother
    exact h.unique entry (ht.persistent entry hentry) other (ht.persistent other hother)
  · intro entry hentry other hother
    exact h.disjoint entry (ht.persistent entry hentry) other (ht.persistent other hother)
  · rw [hpool]
    exact h.pinned

theorem evicted_books {pool : Pool (Key Hash) Hash}
    (hpool : ∀ hash, pool.contains (.persistent hash) → Key.persistent hash ∈ pool.pinned) (key : Key Hash) :
    let s₁ := { s with checkpointPool := pool }
    let s' := if checkpointKvIsFree s₁ key then dropKvForCheckpoint s₁ key else s₁
    Books s' ∧ Trims [key] s s' := by
  intro s₁ s'
  have hbooks : Books s₁ := h.of_pool hpool
  have htrims : Trims [key] s s₁ := Trims.of_pool [key] s pool
  by_cases hfree : checkpointKvIsFree s₁ key = true
  · simp only [s', hfree, if_true]
    exact ⟨hbooks.drop key, htrims.trans (dropKvForCheckpoint_trims s₁ key)⟩
  · simp only [s', hfree]
    exact ⟨hbooks, htrims⟩

theorem evict_ends (key : Key Hash) :
    Ends (fun _ s' => Books s' ∧ Trims [key] s s') (fun s' => s' = s) (evict key s) := by
  rw [evict, bind_of_ok (get_apply s)]
  apply ends_raiseIf_bind
  · exact fun _ => rfl
  intro _
  by_cases hcontains : s.checkpointPool.contains key
  · rw [if_pos hcontains, set_apply, ends_ok]
    apply evicted_books h
    intro hash hstill
    rw [forget_pinned]
    exact h.pinned hash (contains_of_forget hstill)
  · rw [if_neg hcontains]
    exact ⟨h, Trims.refl _ _⟩

/-- An eviction that unpins its key cannot be refused. -/
theorem unpinEvict_ends (key : Key Hash) :
    Ends (fun _ s' => Books s' ∧ Trims [key] s s') (fun _ => False) ((do unpin key; evict key) s) := by
  rw [unpin, bind_of_ok (modify_apply _ s), evict, bind_of_ok (get_apply _)]
  dsimp only
  rw [bind_of_ok (raiseIf_of_not (fun h => not_mem_unpin h.1) _)]
  by_cases hcontains : (s.checkpointPool.unpin key).contains key
  · rw [if_pos hcontains, set_apply, ends_ok]
    apply evicted_books h
    intro hash hstill
    have hne : Key.persistent hash ≠ key := by
      rintro rfl
      exact not_contains_forget hstill
    rw [forget_pinned]
    have hbefore : (s.checkpointPool.unpin key).contains (.persistent hash) := contains_of_forget hstill
    exact mem_unpin hne (h.pinned hash hbefore)
  · rw [if_neg hcontains]
    refine ⟨h.of_pool ?_, Trims.of_pool _ _ _⟩
    intro hash hstill
    have hne : Key.persistent hash ≠ key := by
      rintro rfl
      exact hcontains hstill
    exact mem_unpin hne (h.pinned hash hstill)

theorem unpinEvicts_ends (keys : List (Key Hash)) :
    Ends (fun _ s' => Books s' ∧ Trims keys s s') (fun _ => False)
      ((forM keys fun key => do unpin key; evict key) s) := by
  apply ends_forM (I := fun _ s' => Books s' ∧ Trims keys s s')
  · intro done key rest s₁ hsplit hdone
    obtain ⟨hbooks, htrims⟩ := hdone
    apply (unpinEvict_ends hbooks key).mono
    · intro _ s' hs'
      refine ⟨hs'.1, htrims.trans (hs'.2.mono fun k hk => ?_)⟩
      rw [mem_singleton.mp hk, hsplit]
      exact mem_append_right _ mem_cons_self
    · exact fun _ => id
  · exact ⟨h, Trims.refl _ _⟩

theorem evictForBudget_ends (incoming : Nat) (includePinned : Key Hash → Bool) :
    Ends (fun _ s' => Books s' ∧ Trims (s.checkpointPool.victims incoming includePinned) s s') (fun _ => False)
      (evictForBudget incoming includePinned s) := by
  rw [evictForBudget, bind_of_ok (get_apply s)]
  exact unpinEvicts_ends h _

end

omit [DecidableEq Hash] in
/-- A rolling checkpoint has no pages. -/
theorem Trims.free_of_rolling {target length : Nat} (h : Trims [.rolling target length] s s') {offset : Nat}
    (hoffset : offset ∈ s'.freeScratch) : offset ∈ s.freeScratch := by
  cases h.freed offset hoffset with
  | inl hfree => exact hfree
  | inr hentry =>
    obtain ⟨entry, -, hkey, -⟩ := hentry
    cases mem_singleton.mp hkey

/-- What `_evict_checkpoint` leaves. -/
structure Forgets (s s' : Backend Tok Hash β) : Prop where
  sound : Sound s'
  arena : s'.arena = s.arena
  committed : s'.committed = s.committed
  persistent : ∀ entry, entry ∈ s'.persistent ↔ entry ∈ s.persistent
  free : ∀ offset, offset ∈ s'.freeScratch ↔ offset ∈ s.freeScratch
  held : ∀ slot, ∀ n ∈ heldLengths s' slot, n ∈ heldLengths s slot

theorem evictCheckpoint_ends (h : Sound s) (slot : Nat) :
    Ends (fun _ => Forgets s) (Forgets s) (evictCheckpoint slot s) := by
  rw [evictCheckpoint, bind_of_ok (get_apply s)]
  cases hlength : s.checkpointLen slot with
  | none => exact ⟨h, rfl, rfl, fun _ => Iff.rfl, fun _ => Iff.rfl, fun _ _ => id⟩
  | some length =>
    dsimp only
    rw [bind_of_ok (set_apply _ s)]
    generalize hs₁ : { s with checkpointLen := update s.checkpointLen slot none } = s₁
    have hheld : ∀ other, ∀ n ∈ heldLengths s₁ other, n ∈ heldLengths s other := by
      intro other n hn
      subst hs₁
      rw [mem_heldLengths] at hn ⊢
      apply hn.imp_right
      apply Or.imp_right
      rintro ⟨hcheckpoint, hrestorable⟩
      by_cases hother : other = slot
      · subst hother
        simp at hcheckpoint
      · exact ⟨by simpa [update_of_ne hother] using hcheckpoint, hrestorable⟩
    have hsound : Sound s₁ := by
      subst hs₁
      exact h.of_lengths h.counted rfl rfl rfl rfl rfl fun slot hslot n hn => h.held slot hslot n (hheld slot n hn)
    have hparts : s₁.arena = s.arena ∧ s₁.committed = s.committed ∧ s₁.persistent = s.persistent ∧
        s₁.freeScratch = s.freeScratch := by
      subst hs₁
      exact ⟨rfl, rfl, rfl, rfl⟩
    obtain ⟨harena, hcommitted, hpersistent, hfree⟩ := hparts
    apply (evict_ends hsound.toBooks (.rolling slot length)).mono
    · intro _ s' hs'
      obtain ⟨hbooks, htrims⟩ := hs'
      constructor
      · apply hsound.trims hbooks htrims
        intro entry _ hkey
        cases mem_singleton.mp hkey
      · rw [htrims.arena, harena]
      · rw [htrims.committed, hcommitted]
      · intro entry
        rw [← hpersistent]
        refine ⟨htrims.persistent entry, fun hentry => htrims.spared entry hentry fun hkey => ?_⟩
        cases mem_singleton.mp hkey
      · intro offset
        rw [← hfree]
        exact ⟨htrims.free_of_rolling, htrims.kept offset⟩
      · exact fun other n hn => hheld other n (htrims.held other n hn)
    · rintro s' rfl
      exact ⟨hsound, harena, hcommitted, fun entry => by rw [hpersistent], fun offset => by rw [hfree], hheld⟩

end Evictions

end ScratchStore
