import BlackweLLM.SlotOwnership

/-!
# The forwards and the pages they write

Each forward of `runtime/backends/qwen36.py` over the slot pool: which pages
its KV entries land on, and that a page which is published or shared keeps
its content.
-/

namespace SlotPool

open List Function BundlePool RaisingState StepRun

variable {β : Type} {s s' s₁ s₂ : Slots β} {slot first length past : Nat} {g : Geometry} {kv : Nat → Nat → β}
  {entries : List β}

instance (s : Slots β) (b : Nat) : Decidable (Writable s b) :=
  decidable_of_iff (b ≠ 0 ∧ s.arena.refCnt b = 1 ∧ s.arena.blockHash b = none)
    ⟨fun h => ⟨h.1, h.2.1, h.2.2⟩, fun h => ⟨h.nonnull, h.alone, h.unpublished⟩⟩

section Effects

/-- A write to a page that is the slot's own alone, and that nobody can find. -/
structure KvWrite.Exclusive (w : KvWrite) : Prop where
  nonnull : w.page ≠ 0
  alone : w.refCnt = 1
  unpublished : w.blockHash = none
  owned : w.owned = true

/-- What forwards do to pages and log: they write to writable pages, and these stay where they are. -/
structure Advanced (s s' : Slots β) : Prop where
  geometry : s'.geometry = s.geometry
  writes : ∀ w ∈ s'.writes, w ∈ s.writes ∨ w.Exclusive
  kv : ∀ b, ¬Writable s' b → s'.kv b = s.kv b
  steady : ∀ b, Writable s b → Writable s' b
  entries : ∀ slot page, Writable s ((s.host slot).getD page 0) → (s'.host slot).getD page 0 = (s.host slot).getD page 0

theorem Advanced.refl (s : Slots β) : Advanced s s :=
  ⟨rfl, fun _ => .inl, fun _ _ => rfl, fun _ => id, fun _ _ _ => rfl⟩

theorem Advanced.trans (h : Advanced s s₁) (h₁ : Advanced s₁ s₂) : Advanced s s₂ where
  geometry := h₁.geometry.trans h.geometry
  writes := fun w hw => (h₁.writes w hw).elim (h.writes w) .inr
  kv := fun b hb => (h₁.kv b hb).trans (h.kv b fun hwritable => hb (h₁.steady b hwritable))
  steady := fun b hb => h₁.steady b (h.steady b hb)
  entries := by
    intro slot page hentry
    have hsame := h.entries slot page hentry
    rw [h₁.entries slot page (hsame.symm ▸ h.steady _ hentry), hsame]

theorem Writable.congr {b : Nat} (harena : s'.arena = s.arena) : Writable s' b ↔ Writable s b := by
  constructor
  · rintro ⟨hnonnull, halone, hhash⟩
    exact ⟨hnonnull, harena ▸ halone, harena ▸ hhash⟩
  · rintro ⟨hnonnull, halone, hhash⟩
    exact ⟨hnonnull, harena.symm ▸ halone, harena.symm ▸ hhash⟩

theorem Prepared.advanced {pages : List Nat} (h : Prepared s slot pages s') : Advanced s s' where
  geometry := by rw [h.frame]
  writes := by
    intro w hw
    rw [h.frame] at hw
    exact .inl hw
  kv := h.kv
  steady := fun b hb => (h.steady b hb).1
  entries := by
    intro o page hentry
    by_cases ho : o = slot
    · subst ho
      exact (h.steady _ hentry).2 page rfl
    · rw [h.others o ho]

/-- Only the counters of the slots have changed. -/
theorem Advanced.of_counters (h : s' = { s with kvLen := s'.kvLen, seen := s'.seen, hasPrevious := s'.hasPrevious }) :
    Advanced s s' where
  geometry := by rw [h]
  writes := by
    intro w hw
    rw [h] at hw
    exact .inl hw
  kv := by
    intro b _
    rw [h]
  steady := by
    intro b hb
    rw [h]
    exact ⟨hb.nonnull, hb.alone, hb.unpublished⟩
  entries := by
    intro o page _
    rw [h]

theorem Mapped.of_parts (h : Mapped s) (hgeometry : s'.geometry = s.geometry) (harena : s'.arena = s.arena)
    (hhost : s'.host = s.host) (hdevice : s'.device = s.host) (hbundles : s'.bundles = s.bundles) : Mapped s' where
  valid := harena ▸ h.valid
  config := by rw [harena, hgeometry, h.config]
  nodup := hbundles ▸ h.nodup
  refCnt := by
    intro b
    rw [harena, h.refCnt, holders, holders, hgeometry, hbundles]
  shows := by rw [hhost, hbundles]; exact h.shows
  width := by rw [hhost, hgeometry]; exact h.width
  device := by rw [hdevice, hhost]
  promised := by rw [hgeometry, harena]; exact h.promised
  outside := by rw [hgeometry, hbundles]; exact h.outside

end Effects

section Writing

def Landing (s : Slots β) (slot : Nat) (table : List Nat) (position : Nat) : Prop :=
  Writable s (table.getD (position / s.geometry.pageSize) 0) ∧
    table.getD (position / s.geometry.pageSize) 0 ∈ s.bundles slot

/-- Entries that land on writable pages of their slot. -/
structure Written (s s' : Slots β) : Prop where
  frame : s' = { s with kv := s'.kv, writes := s'.writes }
  writes : ∀ w ∈ s'.writes, w ∈ s.writes ∨ w.Exclusive
  kv : ∀ b, ¬Writable s b → s'.kv b = s.kv b

theorem Written.refl (s : Slots β) : Written s s := ⟨rfl, fun _ => .inl, fun _ _ => rfl⟩

theorem Written.arena (h : Written s s') : s'.arena = s.arena := by rw [h.frame]

theorem Written.trans (h : Written s s₁) (h₁ : Written s₁ s₂) : Written s s₂ where
  frame := by rw [h₁.frame, h.frame]
  writes := fun w hw => (h₁.writes w hw).elim (h.writes w) .inr
  kv := fun b hb => (h₁.kv b fun hwritable => hb ((Writable.congr h.arena).mp hwritable)).trans (h.kv b hb)

variable {table : List Nat}

theorem Written.landing (h : Written s s') {o position : Nat} (hlanding : Landing s o table position) :
    Landing s' o table position := by
  rw [Landing, Writable.congr h.arena, h.frame]
  exact hlanding

theorem Written.advanced (h : Written s s') : Advanced s s' where
  geometry := by rw [h.frame]
  writes := h.writes
  kv := fun b hb => h.kv b fun hwritable => hb ((Writable.congr h.arena).mpr hwritable)
  steady := fun b hb => (Writable.congr h.arena).mpr hb
  entries := by
    intro o page _
    rw [h.frame]

theorem Written.mapped (h : Written s s') (hs : Mapped s) : Mapped s' :=
  hs.of_parts (by rw [h.frame]) h.arena (by rw [h.frame]) (by rw [h.frame]; exact hs.device) (by rw [h.frame])

theorem writeEntry_written {position : Nat} (entry : β) (h : Landing s slot table position) :
    Written s (writeEntry slot table position entry s) := by
  obtain ⟨hwritable, howned⟩ := h
  refine ⟨rfl, fun w hw => ?_, fun b hb => ?_⟩
  · rcases mem_append.mp hw with hw | hw
    · exact .inl hw
    · rw [mem_singleton.mp hw]
      exact .inr ⟨hwritable.nonnull, hwritable.alone, hwritable.unpublished, decide_eq_true howned⟩
  · have hne : b ≠ table.getD (position / s.geometry.pageSize) 0 := fun heq => hb (heq ▸ hwritable)
    exact update_of_ne hne _ _

/-- Writes one after the other, each in a state that the others have reached. -/
theorem foldl_written {ι : Type} {l : List ι} {g : Slots β → ι → Slots β}
    (hstep : ∀ i ∈ l, ∀ s', Written s s' → Written s' (g s' i)) : Written s (l.foldl g s) := by
  induction l using reverseRecOn with
  | nil => exact Written.refl s
  | append_singleton l last ih =>
    have hbefore := ih fun i hi => hstep i (mem_append_left _ hi)
    rw [foldl_append]
    exact hbefore.trans (hstep last (by simp) _ hbefore)

theorem writeKv_written (h : ∀ i < entries.length, Landing s slot table (first + i)) :
    Written s (writeKv slot table first entries s) := by
  apply foldl_written
  rintro ⟨entry, i⟩ hentry s' hs'
  have hi : i < entries.length := (mem_zipIdx' hentry).1
  exact writeEntry_written entry (hs'.landing (h i hi))

end Writing

section Serial

theorem Mapped.landing (h : Mapped s) {position : Nat}
    (hwritable : Writable s ((s.host slot).getD (position / s.geometry.pageSize) 0)) :
    Landing s slot (s.host slot) position :=
  ⟨hwritable, (h.shows slot).getD_mem hwritable.nonnull⟩

/-- The pages of a pending write take its entries. -/
theorem Prepared.landing (h : Prepared s slot (s.geometry.touched first length) s') (hmapped : Mapped s') {i : Nat}
    (hi : i < length) : Landing s' slot (s'.host slot) (first + i) := by
  have hgeometry : s'.geometry = s.geometry := by rw [h.frame]
  apply hmapped.landing
  rw [hgeometry]
  apply h.ready
  rw [mem_touched (Nat.lt_of_le_of_lt (Nat.zero_le i) hi)]
  exact ⟨first + i, Nat.le_add_right _ _, Nat.add_lt_add_left hi _, rfl⟩

theorem advance_mapped (h : Mapped s) (n : Nat) : Mapped (advance slot n s) :=
  h.of_parts rfl rfl rfl h.device rfl

theorem forward_ends (h : Mapped s) (entries : List β)
    (hlanding : slot < s.geometry.numRows → s.seen slot + entries.length ≤ s.geometry.maxSeqLen →
      ∀ i < entries.length, Landing s slot (s.host slot) (s.seen slot + i)) :
    Ends (fun _ s' => Mapped s' ∧ Advanced s s') (fun s' => s' = s) (forward slot entries s) := by
  rw [forward]
  by_cases hslot : slot < s.geometry.numRows
  · rw [bind_of_ok (pageRow_of hslot), bind_of_ok (get_apply s)]
    apply ends_raiseIf_bind
    · exact fun _ => rfl
    intro hfits
    have hwritten : Written s (writeKv slot (s.device slot) (s.seen slot) entries s) := by
      rw [h.device]
      exact writeKv_written (hlanding hslot (not_lt.mp hfits))
    rw [bind_of_ok (modify_apply _ s)]
    exact ⟨advance_mapped (hwritten.mapped h) _, hwritten.advanced.trans (Advanced.of_counters rfl)⟩
  · rw [bind_of_error (pageRow_of_outside hslot)]
    exact rfl

theorem prefillSerial_ends (h : Mapped s) (hstart : first = s.seen slot)
    (htracked : Tracked s (.prepareKvWrites slot first entries.length)) :
    Ends (fun _ s' => Mapped s' ∧ Advanced s s') (fun s' => Mapped s' ∧ Advanced s s')
      (prefillSerial slot first entries s) := by
  apply ends_bind
  · apply (prepareKvWrites_ends h htracked).weaken
    rintro s' ⟨rfl, -⟩
    exact ⟨h, Advanced.refl _⟩
  rintro ⟨⟩ s₁ ⟨hmapped, hprepared⟩
  have hadvanced : Advanced s s₁ := by
    rcases hprepared with ⟨-, rfl⟩ | ⟨-, -, -, hprepared⟩
    · exact Advanced.refl _
    · exact hprepared.advanced
  apply (forward_ends hmapped entries _).mono
  · exact fun _ s' hs' => ⟨hs'.1, hadvanced.trans hs'.2⟩
  · rintro s' rfl
    exact ⟨hmapped, hadvanced⟩
  · intro _ _ i hi
    rcases hprepared with ⟨hzero, -⟩ | ⟨-, -, -, hprepared⟩
    · exact absurd (hzero ▸ hi) (Nat.not_lt_zero i)
    · have hseen : s₁.seen slot = first := by
        rw [hprepared.frame]
        exact hstart.symm
      rw [hseen]
      exact hprepared.landing hmapped hi

/-- A serial decode, whose page nobody has prepared. -/
theorem decodeSerialOne_ends (h : Mapped s) (entry : β)
    (hwritable : slot < s.geometry.numRows → s.seen slot + 1 ≤ s.geometry.maxSeqLen →
      Writable s ((s.host slot).getD (s.seen slot / s.geometry.pageSize) 0)) :
    Ends (fun _ s' => Mapped s' ∧ Advanced s s') (fun s' => s' = s) (decodeSerialOne (slot, entry) s) := by
  apply ends_bind (forward_ends h [entry] fun hslot hfits i hi => ?_)
  · rintro ⟨⟩ s₁ ⟨hmapped, hadvanced⟩
    exact ⟨hmapped.of_parts rfl rfl rfl hmapped.device rfl, hadvanced.trans (Advanced.of_counters rfl)⟩
  · have hzero : i = 0 := Nat.lt_one_iff.mp hi
    rw [hzero]
    exact h.landing (hwritable hslot hfits)

end Serial

section Batched

variable {rows : List (List β)}

def PreparesTracked (first length : Nat) : Slots β → List Nat → Prop
  | _, [] => True
  | s, slot :: slots => Tracked s (.prepareKvWrites slot first length) ∧
    ∀ s', prepareKvWrites slot first length s = .ok ⟨⟩ s' → PreparesTracked first length s' slots

instance decidablePreparesTracked (first length : Nat) : (slots : List Nat) → (s : Slots β) →
    Decidable (PreparesTracked first length s slots)
  | [], _ => isTrue trivial
  | slot :: slots, s =>
    have : Decidable (∀ s', prepareKvWrites slot first length s = .ok ⟨⟩ s' → PreparesTracked first length s' slots) :=
      match prepareKvWrites slot first length s with
      | .ok ⟨⟩ s' =>
        @decidable_of_iff _ (PreparesTracked first length s' slots) (by simp)
          (decidablePreparesTracked first length slots s')
      | .error _ _ => isTrue (by simp)
    inferInstanceAs (Decidable (_ ∧ _))

theorem checkPrefillBatch_ends {slots : List Nat} :
    Ends (fun past s' => s' = s ∧ past = s.kvLen (slots.headD 0) ∧ 0 < (rows.headD []).length ∧
        ∀ row ∈ rows, row.length = (rows.headD []).length)
      (fun s' => s' = s) (checkPrefillBatch slots rows s) := by
  rw [checkPrefillBatch, bind_of_ok (get_apply s)]
  apply ends_raiseIf_bind
  · exact fun _ => rfl
  intro _
  apply ends_raiseIf_bind
  · exact fun _ => rfl
  intro hlengths
  apply ends_raiseIf_bind
  · exact fun _ => rfl
  intro _
  apply ends_raiseIf_bind
  · exact fun _ => rfl
  intro _
  apply ends_raiseIf_bind
  · exact fun _ => rfl
  intro _
  apply ends_bind
  · apply ends_forM (I := fun _ s' => s' = s) (E := fun s' => s' = s)
    · rintro done slot rest s' - rfl
      apply ends_raiseIf_bind
      · exact fun _ => rfl
      intro _
      by_cases hcolumn : s'.column slot ≠ 0
      · rw [raiseIf_of hcolumn]
        exact rfl
      · rw [raiseIf_of_not hcolumn]
        exact rfl
    · rfl
  rintro ⟨⟩ s' rfl
  apply ends_raiseIf_bind
  · exact fun _ => rfl
  intro _
  rw [not_or, not_exists] at hlengths
  exact ⟨rfl, rfl, Nat.pos_of_ne_zero hlengths.1, fun row hrow => not_not.mp fun hne => hlengths.2 row ⟨hrow, hne⟩⟩

theorem Advanced.landing (h : Advanced s s') (hmapped : Mapped s') {position : Nat}
    (hlanding : Landing s slot (s.host slot) position) : Landing s' slot (s'.host slot) position := by
  obtain ⟨hwritable, -⟩ := hlanding
  apply hmapped.landing
  rw [h.geometry, h.entries slot _ hwritable]
  exact h.steady _ hwritable

theorem prepares_ends (h : Mapped s) {slots : List Nat} (htracked : PreparesTracked first length s slots) :
    Ends (fun _ s' => Mapped s' ∧ Advanced s s' ∧ ∀ slot ∈ slots, ∀ i < length,
      Landing s' slot (s'.host slot) (first + i)) (fun s' => Mapped s' ∧ Advanced s s')
      ((forM slots fun slot => prepareKvWrites slot first length) s) := by
  induction slots generalizing s with
  | nil => exact ⟨h, Advanced.refl s, by simp⟩
  | cons slot slots ih =>
    rw [forM_cons]
    obtain ⟨hfirst, hrest⟩ := htracked
    cases hrun : prepareKvWrites slot first length s with
    | error e s₁ =>
      obtain ⟨rfl, -⟩ := (prepareKvWrites_ends h hfirst).error_of hrun
      rw [bind_of_error hrun]
      exact ⟨h, Advanced.refl _⟩
    | ok u s₁ =>
      obtain ⟨hmapped, hprepared⟩ := (prepareKvWrites_ends h hfirst).ok_of hrun
      have hadvanced : Advanced s s₁ := by
        rcases hprepared with ⟨-, rfl⟩ | ⟨-, -, -, hprepared⟩
        · exact Advanced.refl _
        · exact hprepared.advanced
      rw [bind_of_ok hrun]
      apply (ih hmapped (hrest s₁ hrun)).mono
      · rintro _ s₂ ⟨hmapped₂, hadvanced₂, hlandings⟩
        refine ⟨hmapped₂, hadvanced.trans hadvanced₂, fun o ho i hi => ?_⟩
        rcases mem_cons.mp ho with rfl | ho
        · rcases hprepared with ⟨hzero, -⟩ | ⟨-, -, -, hprepared⟩
          · exact absurd (hzero ▸ hi) (Nat.not_lt_zero i)
          · exact hadvanced₂.landing hmapped₂ (hprepared.landing hmapped hi)
        · exact hlandings o ho i hi
      · exact fun s₂ hs₂ => ⟨hs₂.1, hadvanced.trans hs₂.2⟩

theorem commitPrefill_counters (l : List (Nat × List β)) (s : Slots β) :
    l.foldl (fun s row => commitPrefillOne row.2.length row.1 s) s =
      { s with
        kvLen := (l.foldl (fun s row => commitPrefillOne row.2.length row.1 s) s).kvLen
        seen := (l.foldl (fun s row => commitPrefillOne row.2.length row.1 s) s).seen
        hasPrevious := (l.foldl (fun s row => commitPrefillOne row.2.length row.1 s) s).hasPrevious } := by
  induction l generalizing s with
  | nil => rfl
  | cons row l ih => exact ih (commitPrefillOne row.2.length row.1 s)

section

variable (h : Mapped s) {slots : List Nat}
include h

theorem buildPrefillBatch_ends
    (htracked : PreparesTracked (s.kvLen (slots.headD 0)) (rows.headD []).length s slots) :
    Ends (fun past s' => Mapped s' ∧ Advanced s s' ∧ ∀ row ∈ slots.zip rows, ∀ i < row.2.length,
      Landing s' row.1 (s'.host row.1) (past + i)) (fun s' => Mapped s' ∧ Advanced s s')
      (buildPrefillBatch slots rows s) := by
  apply ends_bind (checkPrefillBatch_ends.weaken fun s' hs' => hs'.symm ▸ ⟨h, Advanced.refl s⟩)
  rintro past s' ⟨hs', rfl, -, hlengths⟩
  rw [hs']
  apply ends_bind (prepares_ends h htracked)
  rintro ⟨⟩ s₁ ⟨hmapped, hadvanced, hlandings⟩
  refine ⟨hmapped, hadvanced, ?_⟩
  rintro ⟨slot, row⟩ hrow i hi
  obtain ⟨hslot, hmem⟩ := of_mem_zip hrow
  exact hlandings slot hslot i (hlengths row hmem ▸ hi)

/-- The forward of a batch whose entries land on writable pages. -/
theorem forwardBatch_advanced
    (hlandings : ∀ row ∈ slots.zip rows, ∀ i < row.2.length, Landing s row.1 (s.host row.1) (past + i)) :
    Mapped (forwardBatch slots rows past s) ∧ Advanced s (forwardBatch slots rows past s) := by
  have hwritten : Written s ((slots.zip rows).foldl (fun s row => writeKv row.1 (s.host row.1) past row.2 s) s) := by
    apply foldl_written
    intro row hrow s' hs'
    have hhost : s'.host = s.host := by rw [hs'.frame]
    rw [hhost]
    exact writeKv_written fun i hi => hs'.landing (hlandings row hrow i hi)
  have hlast := commitPrefill_counters (slots.zip rows)
    ((slots.zip rows).foldl (fun s row => writeKv row.1 (s.host row.1) past row.2 s) s)
  have hmapped := hwritten.mapped h
  refine ⟨?_, hwritten.advanced.trans (Advanced.of_counters hlast)⟩
  rw [forwardBatch, hlast]
  exact hmapped.of_parts rfl rfl rfl hmapped.device rfl

theorem prefillBatched_ends
    (htracked : PreparesTracked (s.kvLen (slots.headD 0)) (rows.headD []).length s slots) :
    Ends (fun _ s' => Mapped s' ∧ Advanced s s') (fun s' => Mapped s' ∧ Advanced s s')
      (prefillBatched slots rows s) := by
  apply ends_bind (buildPrefillBatch_ends h htracked)
  rintro past s₁ ⟨hmapped, hadvanced, hlandings⟩
  obtain ⟨hmapped', hforward⟩ := forwardBatch_advanced hmapped hlandings
  exact ⟨hmapped', hadvanced.trans hforward⟩

end

/-- One page is never refused half-way. -/
theorem covered_one (s : Slots β) (slot first : Nat) : Covered s slot (s.geometry.touched first 1) := by
  by_cases hzero : Affordable s slot (s.geometry.touched first 1) 0
  · right
    intro k hk
    have hle : (replacedPages s slot (s.geometry.touched first 1)).length ≤ 1 := by
      apply (length_filter_le _ _).trans
      rw [Geometry.touched, length_range', Nat.add_sub_cancel, Nat.add_sub_cancel_left]
    have hk0 : k = 0 := by omega
    rwa [hk0]
  · exact .inl hzero

/-- What is staged for one slot: its row's page at the position is writable, now and until the forward. -/
def Staged (s : Slots β) (slot : Nat) (staged : Nat × List Nat) : Prop :=
  Writable s ((s.host slot).getD (staged.1 / s.geometry.pageSize) 0) ∧
    (s.host slot).getD (staged.1 / s.geometry.pageSize) 0 = staged.2.getD (staged.1 / s.geometry.pageSize) 0

theorem Advanced.staged (h : Advanced s s') {staged : Nat × List Nat} (hstaged : Staged s slot staged) :
    Staged s' slot staged := by
  obtain ⟨hwritable, hentry⟩ := hstaged
  have hsame := h.entries slot _ hwritable
  rw [Staged, h.geometry, hsame]
  exact ⟨h.steady _ hwritable, hentry⟩

theorem Staged.landing (h : Mapped s) {staged : Nat × List Nat} (hstaged : Staged s slot staged) :
    Landing s slot staged.2 staged.1 := by
  obtain ⟨hwritable, hentry⟩ := hstaged
  have hmem := (h.shows slot).getD_mem hwritable.nonnull
  rw [hentry] at hwritable hmem
  exact ⟨hwritable, hmem⟩

theorem stageDecode_ends (h : Mapped s) :
    Ends (fun staged s' => Mapped s' ∧ Advanced s s' ∧ Staged s' slot staged) (fun s' => s' = s)
      (stageDecode slot s) := by
  rw [stageDecode]
  by_cases hslot : slot < s.geometry.numRows
  · rw [bind_of_ok (pageRow_of hslot), bind_of_ok (get_apply s)]
    apply ends_raiseIf_bind
    · exact fun _ => rfl
    intro _
    apply ends_bind
    · apply (prepareKvWrites_ends h fun _ _ _ => covered_one s slot (s.kvLen slot)).weaken
      rintro s' ⟨rfl, -⟩
      rfl
    rintro ⟨⟩ s₁ ⟨hmapped, ⟨hzero, -⟩ | ⟨-, -, -, hprepared⟩⟩
    · cases hzero
    have hgeometry : s₁.geometry = s.geometry := by rw [hprepared.frame]
    have hrow : slot < s₁.geometry.numRows := hgeometry ▸ hslot
    have hlanding := hprepared.landing hmapped one_pos
    rw [bind_of_ok (pageRow_of hrow), bind_of_ok (modify_apply _ s₁)]
    have hcounters : Advanced s₁
        { s₁ with
          kvLen := update s₁.kvLen slot (s.kvLen slot + 1)
          seen := update s₁.seen slot (s.kvLen slot + 1) } := Advanced.of_counters rfl
    exact ⟨hmapped.of_parts rfl rfl rfl hmapped.device rfl, hprepared.advanced.trans hcounters,
      hcounters.staged ⟨hlanding.1, rfl⟩⟩
  · rw [bind_of_error (pageRow_of_outside hslot)]
    exact rfl

theorem stage_ends (h : Mapped s) (tokens : List (Nat × β)) :
    Ends (fun staged s' => Mapped s' ∧ Advanced s s' ∧ ∀ row ∈ tokens.zip staged, Staged s' row.1.1 row.2)
      (fun s' => Mapped s' ∧ Advanced s s') ((tokens.mapM fun token => stageDecode token.1) s) := by
  induction tokens generalizing s with
  | nil => exact ⟨h, Advanced.refl s, by simp⟩
  | cons token tokens ih =>
    rw [mapM_cons]
    apply ends_bind ((stageDecode_ends h).weaken fun s' hs' => hs'.symm ▸ ⟨h, Advanced.refl s⟩)
    rintro first s₁ ⟨hmapped, hadvanced, hstaged⟩
    apply ends_bind ((ih hmapped).weaken fun s' hs' => ⟨hs'.1, hadvanced.trans hs'.2⟩)
    rintro rest s₂ ⟨hmapped₂, hadvanced₂, hrest⟩
    refine ⟨hmapped₂, hadvanced.trans hadvanced₂, fun row hrow => ?_⟩
    rcases mem_cons.mp hrow with rfl | hrow
    · exact hadvanced₂.staged hstaged
    · exact hrest row hrow

theorem decodeBatched_ends (h : Mapped s) (tokens : List (Nat × β)) :
    Ends (fun _ s' => Mapped s' ∧ Advanced s s') (fun s' => Mapped s' ∧ Advanced s s') (decodeBatched tokens s) := by
  apply ends_bind (stage_ends h tokens)
  rintro staged s₁ ⟨hmapped, hadvanced, hstaged⟩
  have hwritten : Written s₁
      ((tokens.zip staged).foldl (fun s row => writeKv row.1.1 row.2.2 row.2.1 [row.1.2] s) s₁) := by
    apply foldl_written
    intro row hrow s' hs'
    apply writeKv_written
    intro i hi
    rw [Nat.lt_one_iff.mp hi]
    exact hs'.landing ((hstaged row hrow).landing hmapped)
  exact ⟨hwritten.mapped hmapped, hadvanced.trans hwritten.advanced⟩

end Batched

section Works

/-- Calls of the slot pool and forwards. -/
inductive Work (β : Type) where
  | pool (op : Op)
  | rewindSlot (slot kvLen : Nat)
  | prefillSerial (slot start : Nat) (entries : List β)
  | prefillBatched (slots : List Nat) (rows : List (List β))
  | decodeBatched (tokens : List (Nat × β))
  | decodeSerial (slot : Nat) (entry : β)

def Work.run (s : Slots β) : Work β → Option (Slots β)
  | .pool op => call s op
  | .rewindSlot slot kvLen => some (endState (SlotPool.rewindSlot slot kvLen s))
  | .prefillSerial slot start entries => some (endState (SlotPool.prefillSerial slot start entries s))
  | .prefillBatched slots rows => some (endState (SlotPool.prefillBatched slots rows s))
  | .decodeBatched tokens => some (endState (SlotPool.decodeBatched tokens s))
  | .decodeSerial slot entry => some (endState (decodeSerialOne (slot, entry) s))

/-- The forwards that find their pages prepared. -/
def Barred (s : Slots β) : Work β → Prop
  | .pool op => Tracked s op
  | .prefillSerial slot start entries => start = s.seen slot ∧ Tracked s (.prepareKvWrites slot start entries.length)
  | .prefillBatched slots rows => PreparesTracked (s.kvLen (slots.headD 0)) (rows.headD []).length s slots
  | .decodeSerial slot _ => slot < s.geometry.numRows → s.seen slot + 1 ≤ s.geometry.maxSeqLen →
      Writable s ((s.host slot).getD (s.seen slot / s.geometry.pageSize) 0)
  | _ => True

instance decidableBarred (s : Slots β) : (w : Work β) → Decidable (Barred s w)
  | .pool op => decidableTracked s op
  | .rewindSlot _ _ => isTrue trivial
  | .prefillSerial _ _ _ => inferInstanceAs (Decidable (_ ∧ (_ → _ → _ → _)))
  | .prefillBatched slots rows => decidablePreparesTracked (s.kvLen (slots.headD 0)) (rows.headD []).length slots s
  | .decodeBatched _ => isTrue trivial
  | .decodeSerial _ _ => inferInstanceAs (Decidable (_ → _ → _))

/-- A page that a prefix lookup can find, or that two slots reference. -/
def Frozen (s : Slots β) (b : Nat) : Prop := (∃ value, b ∈ s.arena.holders value) ∨ 1 < s.arena.refCnt b

theorem Frozen.not_writable {b : Nat} (h : Mapped s) (hfrozen : Frozen s b) : ¬Writable s b := by
  intro hwritable
  rcases hfrozen with ⟨value, hholder⟩ | hshared
  · obtain ⟨cold, hot, hwf⟩ := h.valid
    have hkey := (hwf.inverse b value).mp hholder
    rw [hwf.keyless b hwritable.unpublished] at hkey
    exact AList.notMem_empty value hkey
  · exact ne_of_gt hshared hwritable.alone

/-- The new writes are exclusive, and only writable pages have new content. -/
structure Kept (s s' : Slots β) : Prop where
  writes : ∀ w ∈ s'.writes, w ∈ s.writes ∨ w.Exclusive
  kv : ∀ b, ¬Writable s' b → s'.kv b = s.kv b

theorem Kept.of_eq (hwrites : s'.writes = s.writes) (hkv : s'.kv = s.kv) : Kept s s' :=
  ⟨fun _ hw => .inl (hwrites ▸ hw), fun b _ => congrFun hkv b⟩

theorem Advanced.kept (h : Advanced s s') : Kept s s' := ⟨h.writes, h.kv⟩

theorem Outcome.kept {kvLen : Nat} {sources : List Nat} {r : Nat × List Nat} (h : Outcome s slot kvLen sources r s') :
    Kept s s' := by
  rcases h with ⟨-, p, rfl, -⟩ | ⟨-, restored, fresh, -, hrestored⟩
  · exact Kept.of_eq rfl rfl
  · refine ⟨fun w hw => ?_, fun b hb => ?_⟩
    · rw [hrestored.frame] at hw
      exact .inl hw
    · rw [hrestored.kv, if_neg fun hfresh => hb (hrestored.writable b hfresh)]

theorem call_kept {op : Op} (h : Mapped s) (hop : Tracked s op) (hcall : call s op = some s') : Kept s s' := by
  have hstay : Kept s s := Kept.of_eq rfl rfl
  cases op with
  | prepareKvWrites slot first length =>
    cases hcall
    apply (prepareKvWrites_ends h hop).endState
    · rintro _ s' ⟨-, ⟨-, rfl⟩ | ⟨-, -, -, hprepared⟩⟩
      · exact hstay
      · exact hprepared.advanced.kept
    · rintro s' ⟨rfl, -⟩
      exact hstay
  | restorePrefixFromArena slot kvLen keys =>
    cases hcall
    apply (restorePrefixFromArena_ends h hop).endState
    · exact fun _ s' hs' => hs'.2.kept
    · rintro s' ⟨rfl, -⟩
      exact hstay
  | restorePrefixFromCachedBundles slot kvLen ids =>
    cases hcall
    exact (restorePrefixFromCachedBundles_ends h hop).endState (fun _ s' hs' => hs'.2.kept) fun _ => False.elim
  | publishCommittedBlocks slot kvLen keys blockSize includePartial =>
    cases hcall
    have hsame : ∀ s', (Mapped s' ∧ ∃ p, s' = { s with arena := p } ∧ Rehashed s.arena p) → Kept s s' := by
      rintro s' ⟨-, p, rfl, -⟩
      exact Kept.of_eq rfl rfl
    exact (publishCommittedBlocks_ends h includePartial).endState (fun _ => hsame) hsame
  | reserveKvCapacity slot total =>
    cases hcall
    apply (reserveKvCapacity_ends h slot total).endState
    · rintro granted s' ⟨-, hrefused, hgranted⟩
      cases granted with
      | false => exact (hrefused rfl).symm ▸ hstay
      | true =>
        have hframe := (hgranted rfl).frame
        exact Kept.of_eq (by rw [hframe]) (by rw [hframe])
    · rintro s' rfl
      exact hstay
  | resetSlot slot =>
    cases hcall
    by_cases hslot : slot < s.geometry.numRows
    · obtain ⟨s', hrun, -, hemptied⟩ := resetSlot_of h hslot
      rw [hrun]
      exact Kept.of_eq hemptied.writes hemptied.kv
    · rw [resetSlot_of_outside hslot]
      exact hstay

theorem rewindSlot_ends (h : Mapped s) {kvLen : Nat} :
    Ends (fun _ s' => Mapped s' ∧ Kept s s') (fun s' => s' = s) (rewindSlot slot kvLen s) := by
  rw [rewindSlot, bind_of_ok (get_apply s)]
  apply ends_raiseIf_bind
  · exact fun _ => rfl
  · exact fun _ => ⟨h.of_parts rfl rfl rfl h.device rfl, Kept.of_eq rfl rfl⟩

theorem work_kept {w : Work β} (h : Mapped s) (hw : Barred s w) (hrun : w.run s = some s') : Mapped s' ∧ Kept s s' := by
  have hstay : ∀ s', s' = s → Mapped s' ∧ Kept s s' := by
    rintro s' rfl
    exact ⟨h, Kept.of_eq rfl rfl⟩
  have hforward : ∀ s', Mapped s' ∧ Advanced s s' → Mapped s' ∧ Kept s s' := fun s' hs' => ⟨hs'.1, hs'.2.kept⟩
  cases w with
  | pool op => exact ⟨call_mapped h hw hrun, call_kept h hw hrun⟩
  | rewindSlot slot kvLen =>
    cases hrun
    exact (rewindSlot_ends h).endState (I := fun s' => Mapped s' ∧ Kept s s') (fun _ _ => id) hstay
  | prefillSerial slot first entries =>
    cases hrun
    exact (prefillSerial_ends h hw.1 hw.2).endState (I := fun s' => Mapped s' ∧ Kept s s') (fun _ => hforward) hforward
  | prefillBatched slots rows =>
    cases hrun
    exact (prefillBatched_ends h hw).endState (I := fun s' => Mapped s' ∧ Kept s s') (fun _ => hforward) hforward
  | decodeBatched tokens =>
    cases hrun
    exact (decodeBatched_ends h tokens).endState (I := fun s' => Mapped s' ∧ Kept s s') (fun _ => hforward) hforward
  | decodeSerial slot entry =>
    cases hrun
    exact (decodeSerialOne_ends h entry hw).endState (I := fun s' => Mapped s' ∧ Kept s s') (fun _ => hforward) hstay

/-- In such a run every write is exclusive, and no step changes a page that is found or shared behind it. -/
theorem run_immutable {ws : List (Work β)} (hws : Along Work.run Barred (start g kv) ws)
    (hrun : run Work.run (start g kv) ws = some s) :
    (∀ w ∈ s.writes, w.Exclusive) ∧
    Along Work.run (fun s w => ∀ s', w.run s = some s' → ∀ b, Frozen s' b → s'.kv b = s.kv b) (start g kv) ws := by
  have hstart : Mapped (start g kv) ∧ ∀ w ∈ (start g kv).writes, w.Exclusive := ⟨start_mapped, by simp [start]⟩
  have hstep : ∀ (s : Slots β) (w : Work β) s', (Mapped s ∧ ∀ w ∈ s.writes, w.Exclusive) → Barred s w →
      w.run s = some s' → Mapped s' ∧ ∀ w ∈ s'.writes, w.Exclusive := by
    rintro s w s' ⟨hmapped, hwrites⟩ hw hrun
    obtain ⟨hmapped', hkept⟩ := work_kept hmapped hw hrun
    exact ⟨hmapped', fun w hw => (hkept.writes w hw).elim (hwrites w) id⟩
  refine ⟨(invariant_of_steps hstep hstart hws hrun).2, along_of_steps hstep ?_ hstart hws⟩
  rintro s w ⟨hmapped, -⟩ hw s' hrun b hfrozen
  obtain ⟨hmapped', hkept⟩ := work_kept hmapped hw hrun
  exact hkept.kv b (hfrozen.not_writable hmapped')

theorem nine_bundles : 1 < 9 := by decide

def smallPages : Geometry := ⟨2, 2, 4, ⟨9, 1, 0, true, Nat.one_pos, nine_bundles⟩, Nat.two_pos, rfl⟩

/-- A prompt is published and taken over by another slot, and both go on. -/
def continued : List (Work Nat) :=
  [.prefillBatched [0] [[1, 2, 3]], .pool (.publishCommittedBlocks 0 3 [⟨7, 2⟩] 2 false), .decodeSerial 0 4,
    .pool (.restorePrefixFromArena 1 2 [⟨7, 2⟩]), .rewindSlot 1 2, .prefillSerial 1 2 [5], .decodeBatched [(0, 6)]]

theorem run_immutable_continued : ∃ s, run Work.run (start smallPages fun _ _ => 0) continued = some s ∧
    s.writes.length = 6 ∧ (∀ w ∈ s.writes, w.Exclusive) ∧
    Along Work.run (fun s w => ∀ s', w.run s = some s' → ∀ b, Frozen s' b → s'.kv b = s.kv b)
      (start smallPages fun _ _ => 0) continued :=
  have halong : Along Work.run Barred (start smallPages fun _ _ => 0) continued := by decide
  ⟨_, rfl, by decide, run_immutable halong rfl⟩

/-- The serial decode writes to a published page, and then to the null bundle. -/
theorem run_serial_exposed : ∃ s, run Work.run (start smallPages fun _ _ => 0)
      [.prefillBatched [0] [[1]], .pool (.publishCommittedBlocks 0 1 [⟨7, 1⟩] 1 false), .decodeSerial 0 2,
        .decodeSerial 0 3] = some s ∧
    s.writes = [⟨0, 1, 1, none, true⟩, ⟨0, 1, 1, some ⟨7, 1⟩, true⟩, ⟨0, 0, 0, none, false⟩] ∧
    ¬∀ w ∈ s.writes, w.Exclusive := by
  refine ⟨_, rfl, by decide, fun h => ?_⟩
  have hnull := (h ⟨0, 0, 0, none, false⟩ (by decide)).nonnull
  exact hnull rfl

end Works

end SlotPool
