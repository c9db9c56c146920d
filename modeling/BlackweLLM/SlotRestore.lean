import BlackweLLM.SlotPrepare
import Mathlib.Data.List.Induction

/-!
# Cached pages in a slot

`_restore_cached_page_prefix`: when the pages of a prefix can be had, what a
slot holds afterwards, and that a miss leaves everything as it was.
-/

namespace SlotPool

open List Function BundlePool RaisingState

variable {β : Type} {s s' : Slots β} {slot kvLen : Nat} {sources ids full : List Nat} {p p' : Pool Nat}

section Distinct

theorem distinct_concat (ids : List Nat) (id : Nat) :
    distinct (ids ++ [id]) = if id ∈ distinct ids then distinct ids else distinct ids ++ [id] := by
  rw [distinct, foldl_append]
  rfl

@[simp] theorem mem_distinct {id : Nat} : id ∈ distinct ids ↔ id ∈ ids := by
  induction ids using reverseRecOn with
  | nil => simp [distinct]
  | append_singleton ids last ih =>
    rw [distinct_concat]
    split_ifs with hlast
    · rw [ih, mem_append, mem_singleton]
      refine ⟨.inl, ?_⟩
      rintro (hid | rfl)
      · exact hid
      · rwa [← ih]
    · simp [ih]

theorem nodup_distinct (ids : List Nat) : (distinct ids).Nodup := by
  induction ids using reverseRecOn with
  | nil => exact nodup_nil
  | append_singleton ids last ih =>
    rw [distinct_concat]
    split_ifs with hlast
    · exact ih
    · simpa [nodup_append] using ⟨ih, fun id hid heq => hlast (by simpa [heq] using hid)⟩

theorem distinct_eq_self (h : ids.Nodup) : distinct ids = ids := by
  induction ids using reverseRecOn with
  | nil => rfl
  | append_singleton ids last ih =>
    have hids := (nodup_append.mp h).1
    have hlast : last ∉ ids := fun hmem => disjoint_of_nodup_append h hmem (by simp)
    rw [distinct_concat, if_neg (by simpa using hlast), ih hids]

end Distinct

section Acquire

/-- A restore of a prefix finds and keeps its pages. -/
def Hits (s : Slots β) (slot kvLen : Nat) (sources : List Nat) : Prop :=
  restorable s slot kvLen sources ∧ Revivable s.arena (distinct sources) slot ∧
  (kvLen % s.geometry.pageSize ≠ 0 → TailRoom s.arena slot (distinct sources))

instance (s : Slots β) (slot kvLen : Nat) (sources : List Nat) : Decidable (Hits s slot kvLen sources) :=
  inferInstanceAs (Decidable (_ ∧ _ ∧ (_ → _)))

/-- The references and the private page of a restore. -/
structure Acquired (p : Pool Nat) (slot : Nat) (ids : List Nat) (pages : Nat) (fresh : Option Nat) (p' : Pool Nat) :
    Prop where
  config : p'.config = p.config
  spare : ∀ t ∈ fresh, Usable p t ∧ p.refCnt t = 0 ∧ t ∉ ids
  refCnt : ∀ b, p'.refCnt b = if b ∈ fresh then 1 else p.refCnt b + ids.count b
  blockHash : ∀ b, p'.blockHash b = if b ∈ fresh then none else p.blockHash b
  freeLen : p'.freeLen + revivals p ids + fresh.toList.length = p.freeLen
  spent : Spent p.reservations slot pages p'.reservations

section

variable {tail : Bool} (hvalid : Valid s.arena) (hnull : s.arena.config.reserved = 1)
include hvalid hnull

theorem allocateTail_ends :
    Ends (fun fresh s' => ∃ p, s' = { s with arena := p } ∧ Valid p ∧ (tail = true → Room s.arena 1 slot) ∧
        (if tail then ∃ t, fresh = some t ∧ Fresh s.arena slot t p else fresh = none ∧ p = s.arena))
      (fun s' => s' = s ∧ tail = true ∧ ¬Room s.arena 1 slot) (allocateTail slot tail s) := by
  cases tail with
  | false => exact ⟨s.arena, rfl, hvalid, by simp, rfl, rfl⟩
  | true =>
    apply ends_bind (P := fun ids s' => ∃ p t, ids = [t] ∧ s' = { s with arena := p } ∧ Room s.arena 1 slot ∧
      Fresh s.arena slot t p ∧ Valid p)
    · apply ends_onArena
      apply (allocate_one_ends hvalid hnull).mono
      · rintro ids p ⟨hroom, t, rfl, hfresh, hp⟩
        exact ⟨p, t, rfl, rfl, hroom, hfresh, hp⟩
      · rintro p ⟨rfl, hroom⟩
        exact ⟨rfl, rfl, hroom⟩
    · rintro _ _ ⟨p, t, rfl, rfl, hroom, hfresh, hp⟩
      exact ⟨p, rfl, hp, fun _ => hroom, t, rfl, hfresh⟩

theorem acquireSources_ends {full : Nat}
    (hids : ∀ id ∈ sources, Usable s.arena id ∧ (s.arena.refCnt id = 0 → (s.arena.blockHash id).isSome))
    (hreserved : reservedFor s.arena slot = 0 ∨ full + (if tail then 1 else 0) ≤ reservedFor s.arena slot) :
    Ends (fun r s' => ∃ p, s' = { s with arena := p } ∧ Valid p ∧
        ((r = none ∧ Unmoved s.arena p ∧ ¬(Revivable s.arena (distinct sources) slot ∧
            (tail = true → TailRoom s.arena slot (distinct sources)))) ∨
          ∃ fresh, r = some fresh ∧ fresh.isSome = tail ∧ Revivable s.arena (distinct sources) slot ∧
            (tail = true → TailRoom s.arena slot (distinct sources)) ∧
            Acquired s.arena slot (distinct sources) (full + if tail then 1 else 0) fresh p))
      (fun _ => False) (acquireSources slot sources tail full s) := by
  have husable : ∀ id ∈ distinct sources, Usable s.arena id := fun id hid => (hids id (mem_distinct.mp hid)).1
  have hcontent : ∀ id ∈ distinct sources, s.arena.refCnt id = 0 → (s.arena.blockHash id).isSome :=
    fun id hid => (hids id (mem_distinct.mp hid)).2
  -- All sources are referenced, or none.
  have hrevived : Ends (fun _ s' => ∃ p, s' = { s with arena := p } ∧ Revivable s.arena (distinct sources) slot ∧
      Increfed s.arena (distinct sources) p ∧ Valid p) (fun s' => s' = s ∧ ¬Revivable s.arena (distinct sources) slot)
      (onArena (incref (distinct sources) slot) s) := by
    apply ends_onArena
    apply (incref_ends hvalid hnull husable hcontent).mono
    · exact fun _ p hp => ⟨p, rfl, hp⟩
    · rintro p ⟨rfl, hrefused⟩
      exact ⟨rfl, hrefused⟩
  apply ends_bind (ends_attempt hrevived)
  rintro r s₁ (⟨⟨⟩, rfl, p₁, rfl, hrevivable, hincref, hp₁⟩ | ⟨e, rfl, rfl, hrefused⟩)
  swap
  · exact ⟨_, rfl, hvalid, .inl ⟨rfl, Unmoved.refl _, fun hall => hrefused hall.1⟩⟩
  have hnull₁ : p₁.config.reserved = 1 := by rw [hincref.config, hnull]
  have htail : Room p₁ 1 slot ↔ TailRoom s.arena slot (distinct sources) :=
    room_iff_tailRoom hvalid hp₁ hincref (nodup_distinct sources) husable
  -- The private tail.
  apply ends_bind
  · exact ends_attempt (allocateTail_ends hp₁ hnull₁)
  rintro r s₂ (⟨fresh, rfl, p₂, rfl, hp₂, hroom, hfresh⟩ | ⟨e, rfl, rfl, htrue, hrefused⟩)
  swap
  · -- The references are given back.
    apply ends_bind (P := fun _ s' => ∃ p, s' = { s with arena := p } ∧ Valid p ∧ Unmoved s.arena p)
    · have hcount : ∀ b, (distinct sources).count b ≤ p₁.refCnt b := by
        intro b
        rw [hincref.refCnt]
        exact Nat.le_add_left _ _
      have husable₁ : ∀ id ∈ distinct sources, Usable p₁ id := fun id hid => (hincref.usable id).mpr (husable id hid)
      obtain ⟨p', hrun, hdecref, hp'⟩ := decref_of hp₁ hnull₁ husable₁ hcount
      rw [attempt_of_ok (onArena_of_ok hrun)]
      exact ⟨p', rfl, hp', hincref.undone hvalid hdecref hp'⟩
    · rintro _ _ ⟨p', rfl, hp', hunmoved⟩
      exact ⟨p', rfl, hp', .inl ⟨rfl, hunmoved, fun hall => hrefused (htail.mpr (hall.2 htrue))⟩⟩
  -- The reservation covers the full pages.
  have hspent₂ : Spent s.arena.reservations slot (if tail then 1 else 0) p₂.reservations := by
    rw [← hincref.reservations]
    split_ifs at hfresh with htrue
    · obtain ⟨t, -, hfresh⟩ := hfresh
      simpa [htrue] using hfresh.spent
    · rw [hfresh.2]
      simpa [htrue] using Spent.refl _ _
  have hconfig₂ : p₂.config = s.arena.config := by
    rw [← hincref.config]
    split_ifs at hfresh with htrue
    · obtain ⟨t, -, hfresh⟩ := hfresh
      exact hfresh.config
    · rw [hfresh.2]
  have hconsume : Ends (fun _ s' => ∃ promises, s' = { s with arena := { p₂ with reservations := promises } } ∧
      Valid { p₂ with reservations := promises } ∧ Spent p₂.reservations slot full promises) (fun _ => False)
      (onArena (consumeReservation slot full) { s with arena := p₂ }) := by
    apply ends_onArena
    apply (consumeReservation_ends hp₂).mono
    · rintro ⟨⟩ _ ⟨hp, promises, rfl, hspent⟩
      exact ⟨promises, rfl, hp, hspent⟩
    · rintro _ ⟨-, hsome, hless⟩
      have hself : reservedFor p₂ slot = reservedFor s.arena slot - (if tail then 1 else 0) := hspent₂.self
      omega
  apply ends_bind
  · exact ends_attempt hconsume
  rintro r s₃ (⟨⟨⟩, rfl, promises, rfl, hp₃, hspent₃⟩ | ⟨e, rfl, hfalse⟩)
  swap
  · exact hfalse.elim
  refine ⟨_, rfl, hp₃, .inr ⟨fresh, rfl, ?_, hrevivable, fun htrue => htail.mp (hroom htrue), ?_⟩⟩
  · split_ifs at hfresh with htrue
    · obtain ⟨t, rfl, -⟩ := hfresh
      simp [htrue]
    · simp [hfresh.1, htrue]
  · have hlen := hincref.freeLen hvalid hp₁ (nodup_distinct sources) husable
    have hspent : Spent s.arena.reservations slot (full + if tail then 1 else 0) promises := by
      rw [add_comm]
      exact hspent₂.trans hspent₃
    split_ifs at hfresh with htrue
    · obtain ⟨t, rfl, hfresh⟩ := hfresh
      have hspare := hfresh.spare
      rw [hincref.refCnt, Nat.add_eq_zero_iff, count_eq_zero] at hspare
      refine ⟨hconfig₂, ?_, fun b => ?_, fun b => ?_, ?_, hspent⟩
      · rintro _ ⟨⟩
        exact ⟨(hincref.usable t).mp hfresh.usable, hspare⟩
      · rw [hfresh.refCnt, hincref.refCnt]
        simp [eq_comm]
      · rw [hfresh.blockHash, hincref.blockHash]
        simp [eq_comm]
      · have hfree : p₂.freeLen + 1 = p₁.freeLen := hfresh.freeLen
        simp only [Option.toList_some, length_singleton, revivals]
        omega
    · obtain ⟨rfl, rfl⟩ := hfresh
      refine ⟨hconfig₂, by simp, fun b => ?_, fun b => ?_, ?_, hspent⟩
      · simpa using hincref.refCnt b
      · simp [hincref.blockHash]
      · simpa [revivals] using hlen

end

end Acquire

section Install

theorem Shows.congr {row bundles bundles' : List Nat} (h : Shows row bundles) (hmem : ∀ b, b ∈ bundles ↔ b ∈ bundles') :
    Shows row bundles' := by
  intro b hb
  rw [h b hb]
  simp only [hmem]

/-- `_slot_bundles[slot].update(...)`. -/
def ownAll (slot : Nat) (ids : List Nat) (s : Slots β) : Slots β := ids.foldl (fun s bundle => own slot bundle s) s

theorem ownAll_frame (ids : List Nat) (s : Slots β) : ownAll slot ids s =
    { s with bundles := (ownAll slot ids s).bundles } := by
  induction ids generalizing s with
  | nil => rfl
  | cons id ids ih => exact ih (own slot id s)

theorem ownAll_arena (ids : List Nat) (s : Slots β) (p : Pool Nat) :
    ownAll slot ids { s with arena := p } = { s with arena := p, bundles := (ownAll slot ids s).bundles } := by
  induction ids generalizing s with
  | nil => rfl
  | cons id ids ih => exact ih (own slot id s)

theorem ownAll_others {o : Nat} (ids : List Nat) (s : Slots β) (ho : o ≠ slot) :
    (ownAll slot ids s).bundles o = s.bundles o := by
  induction ids generalizing s with
  | nil => rfl
  | cons id ids ih => exact (ih (own slot id s)).trans (own_bundles_of_ne s ho)

theorem mem_ownAll {b : Nat} (ids : List Nat) (s : Slots β) :
    b ∈ (ownAll slot ids s).bundles slot ↔ b ∈ ids ∨ b ∈ s.bundles slot := by
  induction ids generalizing s with
  | nil => simp [ownAll]
  | cons id ids ih =>
    have hrest := ih (own slot id s)
    rw [own_bundles_self, mem_insert_iff] at hrest
    rw [mem_cons, or_assoc, or_left_comm, ← hrest]
    rfl

theorem nodup_ownAll {o : Nat} (ids : List Nat) (s : Slots β) (h : ∀ o, (s.bundles o).Nodup) :
    ((ownAll slot ids s).bundles o).Nodup := by
  induction ids generalizing s with
  | nil => exact h o
  | cons id ids ih =>
    apply ih
    intro o
    by_cases ho : o = slot
    · subst ho
      simpa using (h o).insert
    · simpa [ho] using h o

theorem holders_ownAll (hslot : slot < s.geometry.numRows) (hnodup : ids.Nodup) (hnew : ∀ id ∈ ids, id ∉ s.bundles slot)
    (b : Nat) : holders (ownAll slot ids s) b = holders s b + ids.count b := by
  induction ids generalizing s with
  | nil => rfl
  | cons id ids ih =>
    obtain ⟨hid, hids⟩ := nodup_cons.mp hnodup
    have hrest : holders (ownAll slot ids (own slot id s)) b = holders (own slot id s) b + ids.count b := by
      apply ih (s := own slot id s) hslot hids
      intro other hother
      rw [own_bundles_self, mem_insert_iff, not_or]
      exact ⟨fun heq => hid (heq ▸ hother), hnew other (mem_cons_of_mem _ hother)⟩
    rw [holders_own hslot (hnew id mem_cons_self)] at hrest
    rw [count_cons]
    refine hrest.trans ?_
    by_cases hb : b = id
    · simp [hb]
      omega
    · simp [hb, Ne.symm hb]

/-- The pages that a restore takes over as they are. -/
def fullSources (s : Slots β) (kvLen : Nat) (sources : List Nat) : List Nat :=
  if kvLen % s.geometry.pageSize ≠ 0 then sources.dropLast else sources

/-- A restore finds an empty part of the row, and distinct pages that the slot does not have. -/
structure Installable (s : Slots β) (slot kvLen : Nat) (sources : List Nat) : Prop where
  row : slot < s.geometry.numRows
  distinct : sources.Nodup
  empty : ∀ b ∈ (s.host slot).take (s.geometry.pages kvLen), b = 0
  new : ∀ b ∈ fullSources s kvLen sources, b ∉ s.host slot

instance (s : Slots β) (slot kvLen : Nat) (sources : List Nat) : Decidable (Installable s slot kvLen sources) :=
  decidable_of_iff (slot < s.geometry.numRows ∧ sources.Nodup ∧
      (∀ b ∈ (s.host slot).take (s.geometry.pages kvLen), b = 0) ∧ ∀ b ∈ fullSources s kvLen sources, b ∉ s.host slot)
    ⟨fun h => ⟨h.1, h.2.1, h.2.2.1, h.2.2.2⟩, fun h => ⟨h.row, h.distinct, h.empty, h.new⟩⟩

structure Restored (s : Slots β) (slot kvLen : Nat) (sources restored : List Nat) (fresh : Option Nat) (s' : Slots β) :
    Prop where
  frame : s' = { s with arena := s'.arena, bundles := s'.bundles, host := s'.host, device := s'.device, kv := s'.kv }
  restored_eq : restored = fullSources s kvLen sources ++ fresh.toList
  length : restored.length = s.geometry.pages kvLen
  host : s'.host = update s.host slot (restored ++ (s.host slot).drop (s.geometry.pages kvLen))
  writable : ∀ t ∈ fresh, Writable s' t
  kv : ∀ b, s'.kv b = if b ∈ fresh then s.kv (sources.getLastD 0) else s.kv b
  freeLen : s'.arena.freeLen + revivals s.arena (fullSources s kvLen sources) + fresh.toList.length = s.arena.freeLen
  spent : Spent s.arena.reservations slot (s.geometry.pages kvLen) s'.arena.reservations

theorem fullSources_of_tail (htail : kvLen % s.geometry.pageSize ≠ 0) (hsome : sources ≠ []) :
    fullSources s kvLen sources ++ [sources.getLastD 0] = sources := by
  rw [fullSources, if_pos htail, getLastD_eq_getLast?, getLast?_eq_some_getLast hsome, Option.getD_some,
    dropLast_append_getLast hsome]

section

variable {fresh : Option Nat} {pages : Nat} (h : Acquired p slot full pages fresh p')
include h

/-- What a restore refers to, page by page. -/
theorem Acquired.refCnt_eq (b : Nat) : p'.refCnt b = p.refCnt b + (full ++ fresh.toList).count b := by
  rw [h.refCnt, count_append]
  cases fresh with
  | none => simp
  | some t =>
    obtain ⟨-, hspare, hnew⟩ := h.spare t rfl
    by_cases ht : t = b
    · subst ht
      simp [hspare, count_eq_zero.mpr hnew]
    · simp [ht]

theorem Acquired.nodup (hnodup : full.Nodup) : (full ++ fresh.toList).Nodup := by
  cases fresh with
  | none => simpa using hnodup
  | some t =>
    obtain ⟨-, -, hnew⟩ := h.spare t rfl
    simpa [nodup_append] using ⟨hnodup, fun b hb heq => hnew (heq ▸ hb)⟩

end

/-- The pages at the front of an empty row become the slot's. -/
theorem install (h : Mapped s) (hslot : slot < s.geometry.numRows) {restored : List Nat} {fresh : Option Nat}
    {pages : Nat} (hacquired : Acquired s.arena slot full pages fresh p) (hp : Valid p)
    (hrestored : restored = full ++ fresh.toList) (hnodup : full.Nodup) (hnew : ∀ b ∈ full, b ∉ s.bundles slot)
    (hlength : restored.length ≤ s.geometry.pagesPerSlot) (hempty : ∀ b ∈ (s.host slot).take restored.length, b = 0)
    (kv : Nat → Nat → β) :
    let row := restored ++ (s.host slot).drop restored.length
    let s₁ := { s with arena := p, kv := kv, bundles := (ownAll slot restored s).bundles }
    setPageTableRow slot row s₁ =
      .ok ⟨⟩ { s₁ with host := update s.host slot row, device := update s.host slot row } ∧
    Mapped { s₁ with host := update s.host slot row, device := update s.host slot row } := by
  intro row s₁
  have hnodup' : restored.Nodup := hrestored ▸ hacquired.nodup hnodup
  have hnew' : ∀ b ∈ restored, b ∉ s.bundles slot := by
    intro b hb
    rw [hrestored, mem_append, Option.mem_toList] at hb
    rcases hb with hb | hb
    · exact hnew b hb
    · exact h.not_mem hslot (hacquired.spare b hb).2.1
  have howned : Owned s₁ := by
    refine ⟨hp, hacquired.config.trans h.config, fun o => nodup_ownAll _ _ h.nodup, fun b => ?_⟩
    have hsame : holders s₁ b = holders (ownAll slot restored s) b := by
      rw [holders, holders, ownAll_frame]
    rw [hsame, holders_ownAll hslot hnodup' hnew', ← h.refCnt, hrestored]
    exact hacquired.refCnt_eq b
  have hshows : Shows row (s₁.bundles slot) := by
    apply ((h.shows slot).install hempty hnodup' hnew').congr
    intro b
    rw [mem_ownAll, mem_union_iff]
  have hwidth : row.length = s.geometry.pagesPerSlot := by
    rw [length_append, length_drop, h.width]
    omega
  exact h.remapped howned rfl (fun o ho => ownAll_others _ _ ho) (fun o ho => hacquired.spent.other o ho) hslot hwidth
    hshows

/-- The reference to the page that was copied goes. -/
theorem Acquired.released {source fresh pages : Nat} (hvalid : Valid p') (hnull : p.config.reserved = 1)
    (h : Acquired p slot (full ++ [source]) pages (some fresh) p') (hsource : Usable p source)
    (hout : source ∉ full) :
    ∃ p₁, decref [source] p' = .ok ⟨⟩ p₁ ∧ Valid p₁ ∧ Acquired p slot full pages (some fresh) p₁ := by
  obtain ⟨hfresh, hspare, hnew⟩ := h.spare fresh rfl
  rw [mem_append, mem_singleton, not_or] at hnew
  have hrefs : ∀ b, p'.refCnt b =
      if fresh = b then 1 else p.refCnt b + (full.count b + if source = b then 1 else 0) := by
    intro b
    have href := h.refCnt b
    rw [count_append, count_singleton] at href
    simpa only [Option.mem_some_iff, beq_iff_eq] using href
  have hlast : p'.refCnt source = p.refCnt source + 1 := by
    rw [hrefs, if_neg hnew.2, if_pos rfl, count_eq_zero.mpr hout]
  have hlive : 0 < p'.refCnt source := hlast ▸ Nat.succ_pos _
  have husable : Usable p' source := by rwa [Usable, h.config]
  obtain ⟨p₁, hrun, hdecref, hp₁, hlen⟩ := decref_one_of hvalid (by rw [h.config, hnull]) husable hlive
  refine ⟨p₁, hrun, hp₁, hdecref.config.trans h.config, ?_, fun b => ?_, fun b => ?_, ?_, ?_⟩
  · rintro _ ⟨⟩
    exact ⟨hfresh, hspare, hnew.1⟩
  · have hdown := hdecref.refCnt b
    have hup := hrefs b
    rw [count_singleton] at hdown
    simp only [Option.mem_some_iff, beq_iff_eq] at hdown ⊢
    by_cases hbf : fresh = b
    · have hne : ¬source = b := fun heq => hnew.2 (hbf.trans heq.symm)
      rw [if_pos hbf] at hup ⊢
      rw [if_neg hne] at hdown
      exact hdown.trans hup
    · rw [if_neg hbf] at hup ⊢
      omega
  · rw [hdecref.blockHash]
    exact h.blockHash b
  · have hfree := h.freeLen
    have hrevived : revivals p (full ++ [source]) = revivals p full + if p.refCnt source = 0 then 1 else 0 := by
      simp [revivals, countP_append, countP_singleton]
    rw [hlast] at hlen
    rw [hrevived] at hfree
    split_ifs at hlen hfree <;> omega
  · rw [hdecref.reservations]
    exact h.spent

theorem pages_pos {g : Geometry} {n : Nat} (h : 0 < n) : 0 < g.pages n :=
  Nat.div_pos (by have hpos := g.pageSize_pos; omega) g.pageSize_pos

theorem Mapped.unmoved (h : Mapped s) (hp : Valid p) (hunmoved : Unmoved s.arena p) : Mapped { s with arena := p } where
  valid := hp
  config := hunmoved.config.trans h.config
  __ := h
  refCnt := fun b => (hunmoved.refCnt b).trans (h.refCnt b)
  promised := by
    intro o ho
    rw [reservedFor, hunmoved.reservations]
    exact h.promised o ho

theorem set_append_drop {row : List Nat} {fresh : Nat} (hlt : full.length < row.length) :
    (full ++ row.drop full.length).set full.length fresh = full ++ [fresh] ++ row.drop (full.length + 1) := by
  rw [set_append_right _ _ (Nat.le_refl _), Nat.sub_self, drop_eq_getElem_cons hlt, set_cons_zero,
    append_assoc]
  rfl

/-- A restore misses and leaves everything as it was, or the slot has the pages of the prefix. -/
theorem restoreCachedPagePrefix_ends (h : Mapped s)
    (hinstall : Hits s slot kvLen sources → Installable s slot kvLen sources) :
    Ends (fun r s' => Mapped s' ∧ ((¬Hits s slot kvLen sources ∧ r = (0, []) ∧
          ∃ p, s' = { s with arena := p } ∧ Unmoved s.arena p) ∨
        (Hits s slot kvLen sources ∧ ∃ restored fresh, r = (kvLen, restored) ∧
          Restored s slot kvLen sources restored fresh s')))
      (fun _ => False) (restoreCachedPagePrefix slot kvLen sources s) := by
  simp only [restoreCachedPagePrefix, bind_of_ok (get_apply s)]
  by_cases hrestorable : restorable s slot kvLen sources
  swap
  · rw [if_pos hrestorable]
    exact ⟨h, .inl ⟨fun hits => hrestorable hits.1, rfl, s.arena, rfl, Unmoved.refl _⟩⟩
  rw [if_neg (not_not.mpr hrestorable)]
  obtain ⟨⟨hpos, hcapacity, hlength⟩, hsources, hreserved⟩ := id hrestorable
  have hsome : sources ≠ [] := by
    rintro rfl
    have hpages := pages_pos (g := s.geometry) hpos
    exact ne_of_gt hpages hlength.symm
  have hfull : (fullSources s kvLen sources).length +
      (if decide (kvLen % s.geometry.pageSize ≠ 0) then 1 else 0) = s.geometry.pages kvLen := by
    have hlen := length_pos_iff.mpr hsome
    by_cases htail : kvLen % s.geometry.pageSize = 0 <;> simp [fullSources, htail, ← hlength]
    omega
  have hids : ∀ id ∈ sources, Usable s.arena id ∧ (s.arena.refCnt id = 0 → (s.arena.blockHash id).isSome) := by
    intro id hid
    obtain ⟨hlow, hhigh, hcontent⟩ := hsources id hid
    refine ⟨⟨hlow, hhigh⟩, fun hzero => ?_⟩
    rw [Option.isSome_iff_ne_none]
    exact fun hnone => hcontent ⟨hzero, hnone⟩
  have hcovered : reservedFor s.arena slot = 0 ∨ (fullSources s kvLen sources).length +
      (if decide (kvLen % s.geometry.pageSize ≠ 0) then 1 else 0) ≤ reservedFor s.arena slot := by
    rw [hfull]
    omega
  apply ends_bind (acquireSources_ends h.valid h.nullOnly hids hcovered)
  rintro _ _ ⟨p, rfl, hp, ⟨rfl, hunmoved, hmiss⟩ | ⟨fresh, rfl, hfresh, hrevivable, htailRoom, hacquired⟩⟩
  · refine ⟨h.unmoved hp hunmoved, .inl ⟨fun hits => hmiss ⟨hits.2.1, fun htail => hits.2.2 ?_⟩, rfl, p, rfl, hunmoved⟩⟩
    simpa using htail
  have hits : Hits s slot kvLen sources := ⟨hrestorable, hrevivable, fun htail => htailRoom (by simpa using htail)⟩
  have hinstallable := hinstall hits
  rw [distinct_eq_self hinstallable.distinct, hfull] at hacquired
  have hle := pages_le hcapacity
  have hnew : ∀ b ∈ fullSources s kvLen sources, b ∉ s.bundles slot := by
    intro b hb hmem
    have hnull := h.nonnull (h.usable (h.live hinstallable.row hmem))
    exact hinstallable.new b hb (((h.shows slot).mem_iff hnull).mpr hmem)
  cases fresh with
  | none =>
    have htail : ¬kvLen % s.geometry.pageSize ≠ 0 := by simpa using hfresh
    have hall : fullSources s kvLen sources = sources := if_neg htail
    rw [hall] at hnew
    have hempty : ∀ b ∈ (s.host slot).take sources.length, b = 0 := hlength ▸ hinstallable.empty
    obtain ⟨hset, hmapped⟩ := install h hinstallable.row hacquired hp (append_nil sources).symm
      hinstallable.distinct hnew (hlength ▸ hle) hempty s.kv
    have hown : ownAll slot sources { s with arena := p } =
        { s with arena := p, bundles := (ownAll slot sources s).bundles } := ownAll_arena _ _ _
    have hrow : slot < ({ s with arena := p } : Slots β).geometry.numRows := hinstallable.row
    simp only [bind_of_ok (pageRow_of hrow), if_neg htail, bind_of_ok (modify_apply _ _)]
    change Ends _ _ ((setPageTableRow slot (sources ++ (s.host slot).drop sources.length) >>= fun _ =>
      pure (kvLen, sources)) (ownAll slot sources { s with arena := p }))
    rw [hown, bind_of_ok hset]
    refine ⟨hmapped, .inr ⟨hits, sources, none, rfl, rfl, ?_, hlength, ?_, by simp, by simp, ?_, hacquired.spent⟩⟩
    · simp [hall]
    · simp only [hlength]
    · rw [hall]
      exact hacquired.freeLen
  | some t =>
    have htail : kvLen % s.geometry.pageSize ≠ 0 := by simpa using hfresh
    have hall : fullSources s kvLen sources = sources.dropLast := if_pos htail
    have hsplit := fullSources_of_tail (s := s) htail hsome
    have hlen : sources.dropLast.length + 1 = s.geometry.pages kvLen := by simpa [hall, htail] using hfull
    rw [hall] at hnew hsplit
    have hmem : sources.getLastD 0 ∈ sources := by rw [← hsplit]; simp
    have hnonnull := h.nonnull (hids _ hmem).1
    have hdistinct : (sources.dropLast ++ [sources.getLastD 0]).Nodup := hsplit.symm ▸ hinstallable.distinct
    have hout : sources.getLastD 0 ∉ sources.dropLast :=
      fun hin => disjoint_of_nodup_append hdistinct hin (by simp)
    -- The tail's page is copied, and its reference goes.
    obtain ⟨p₁, hrun, hp₁, hreleased⟩ := (hsplit.symm ▸ hacquired : Acquired s.arena slot
      (sources.dropLast ++ [sources.getLastD 0]) _ _ p).released hp h.nullOnly (hids _ hmem).1 hout
    have hempty : ∀ b ∈ (s.host slot).take (sources.dropLast ++ [t]).length, b = 0 := by
      rw [length_append, length_singleton, hlen]
      exact hinstallable.empty
    obtain ⟨hset, hmapped⟩ := install h hinstallable.row hreleased hp₁ rfl (nodup_append.mp hdistinct).1 hnew
      (by rw [Option.toList_some, length_append, length_singleton, hlen]; exact hle) hempty
      (update s.kv t (s.kv (sources.getLastD 0)))
    simp only [Option.toList_some] at hset hmapped
    have hown : own slot t (ownAll slot sources.dropLast { s with arena := p }) =
        { s with arena := p, bundles := (ownAll slot (sources.dropLast ++ [t]) s).bundles } := by
      rw [← ownAll_arena, ownAll, ownAll, foldl_append]
      rfl
    have hclone : cloneCowPages [(s.geometry.pages kvLen - 1, sources.getLastD 0, t)]
        (own slot t (ownAll slot sources.dropLast { s with arena := p })) =
        { s with
          arena := p, kv := update s.kv t (s.kv (sources.getLastD 0))
          bundles := (ownAll slot (sources.dropLast ++ [t]) s).bundles } := by
      rw [hown]
      simp only [cloneCowPages, foldl_cons, foldl_nil, if_neg hnonnull]
    have hrow : slot < ({ s with arena := p } : Slots β).geometry.numRows := hinstallable.row
    have hlast : s.geometry.pages kvLen - 1 = sources.dropLast.length := by omega
    have hset' : (sources.dropLast ++ (s.host slot).drop sources.dropLast.length).set (s.geometry.pages kvLen - 1) t =
        sources.dropLast ++ [t] ++ (s.host slot).drop (sources.dropLast ++ [t]).length := by
      rw [hlast, set_append_drop (by rw [h.width]; omega), length_append, length_singleton]
    simp only [bind_of_ok (pageRow_of hrow), if_pos htail, bind_of_ok (modify_apply _ _)]
    change Ends _ _ ((onArena (decref [sources.getLastD 0]) >>= fun _ =>
      setPageTableRow slot ((sources.dropLast ++ (s.host slot).drop sources.dropLast.length).set
        (s.geometry.pages kvLen - 1) t) >>= fun _ => pure (kvLen, sources.dropLast ++ [t]))
      (cloneCowPages [(s.geometry.pages kvLen - 1, sources.getLastD 0, t)]
        (own slot t (ownAll slot sources.dropLast { s with arena := p }))))
    rw [hclone, bind_of_ok (onArena_of_ok hrun), hset', bind_of_ok hset]
    refine ⟨hmapped, .inr ⟨hits, sources.dropLast ++ [t], some t, rfl, rfl, ?_, ?_, ?_, ?_, fun b => ?_, ?_,
      hreleased.spent⟩⟩
    · simp [hall]
    · simpa using hlen
    · simp only [length_append, length_singleton, hlen]
    · rintro _ ⟨⟩
      obtain ⟨husable, -, -⟩ := hreleased.spare t rfl
      refine ⟨h.nonnull husable, ?_, ?_⟩
      · simpa using hreleased.refCnt t
      · simpa using hreleased.blockHash t
    · by_cases hb : b = t
      · simp [hb]
      · simp [hb, Ne.symm hb]
    · rw [hall]
      exact hreleased.freeLen

end Install

section Callers

/-- The pages that a restore from the arena asks for. -/
def arenaSources (s : Slots β) (kvLen : Nat) (keys : List BlockKey) : List Nat :=
  s.geometry.pageSources kvLen (keys.zip (lookupLongestPrefix s.arena keys none).bundleIds)

/-- Both outcomes of a restore that asks for `sources`. -/
def Outcome (s : Slots β) (slot kvLen : Nat) (sources : List Nat) (r : Nat × List Nat) (s' : Slots β) : Prop :=
  (r = (0, []) ∧ ∃ p, s' = { s with arena := p } ∧ Unmoved s.arena p) ∨
  (Hits s slot kvLen sources ∧ ∃ restored fresh, r = (kvLen, restored) ∧
    Restored s slot kvLen sources restored fresh s')

theorem Outcome.refl (s : Slots β) (slot kvLen : Nat) (sources : List Nat) : Outcome s slot kvLen sources (0, []) s :=
  .inl ⟨rfl, s.arena, rfl, Unmoved.refl _⟩

theorem restorePrefixFromArena_ends {keys : List BlockKey} (h : Mapped s)
    (hinstall : Hits s slot kvLen (arenaSources s kvLen keys) → Installable s slot kvLen (arenaSources s kvLen keys)) :
    Ends (fun r s' => Mapped s' ∧ Outcome s slot kvLen (arenaSources s kvLen keys) r s')
      (fun s' => s' = s ∧ s.geometry.numSlots ≤ slot) (restorePrefixFromArena slot kvLen keys s) := by
  rw [restorePrefixFromArena, bind_of_ok (get_apply s)]
  apply ends_raiseIf_bind
  · exact fun hout => ⟨rfl, hout⟩
  intro _
  have hstay : Mapped s ∧ Outcome s slot kvLen (arenaSources s kvLen keys) (0, []) s := ⟨h, Outcome.refl ..⟩
  by_cases hlookup : (lookupLongestPrefix s.arena keys none).hit = false ∨
      (lookupLongestPrefix s.arena keys none).bundleIds = []
  · simp only [if_pos hlookup]
    exact hstay
  by_cases hnull : 0 ∈ arenaSources s kvLen keys
  · rw [arenaSources] at hnull
    simp only [if_neg hlookup, if_pos hnull]
    exact hstay
  · rw [arenaSources] at hnull
    simp only [if_neg hlookup, if_neg hnull]
    apply (restoreCachedPagePrefix_ends h hinstall).mono
    · rintro r s' ⟨hmapped, ⟨-, hmiss⟩ | hhit⟩
      · exact ⟨hmapped, .inl hmiss⟩
      · exact ⟨hmapped, .inr hhit⟩
    · exact fun _ => False.elim

theorem restorePrefixFromCachedBundles_ends (h : Mapped s)
    (hinstall : Hits s slot kvLen ids → Installable s slot kvLen ids) :
    Ends (fun r s' => Mapped s' ∧ Outcome s slot kvLen ids r s') (fun _ => False)
      (restorePrefixFromCachedBundles slot kvLen ids s) := by
  rw [restorePrefixFromCachedBundles, bind_of_ok (get_apply s)]
  have hstay : Mapped s ∧ Outcome s slot kvLen ids (0, []) s := ⟨h, Outcome.refl ..⟩
  split_ifs with hlength hnull
  · exact hstay
  · exact hstay
  · apply (restoreCachedPagePrefix_ends h hinstall).mono
    · rintro r s' ⟨hmapped, ⟨-, hmiss⟩ | hhit⟩
      · exact ⟨hmapped, .inl hmiss⟩
      · exact ⟨hmapped, .inr hhit⟩
    · exact fun _ => False.elim

end Callers

end SlotPool
