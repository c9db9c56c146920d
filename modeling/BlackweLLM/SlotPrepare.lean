import BlackweLLM.SlotInvariant

/-!
# Pages of one's own

`prepare_kv_writes`: what one page of its loop does, what the loop keeps, and
when it runs to its end. A loop that is refused a bundle after it has already
replaced a page leaves the row behind the sets.
-/

namespace SlotPool

open List Function BundlePool RaisingState

variable {β : Type} {s s' s₀ : Slots β} {slot page start length : Nat} {done : List Nat}
  {acc acc' : List Nat × List (Nat × Nat × Nat)}

/-- What happens to one logical page. -/
inductive Detached (slot page : Nat) (acc : List Nat × List (Nat × Nat × Nat)) (s : Slots β) :
    List Nat × List (Nat × Nat × Nat) → Slots β → Prop
  | kept (hsource : acc.1.getD page 0 ≠ 0) (hwritable : ¬mustCopy s.arena (acc.1.getD page 0)) :
    Detached slot page acc s acc s
  | fresh {target : Nat} {p : Pool Nat} (hnull : acc.1.getD page 0 = 0) (hroom : Room s.arena 1 slot)
    (hfresh : Fresh s.arena slot target p) (hvalid : Valid p) :
    Detached slot page acc s (acc.1.set page target, acc.2 ++ [(page, acc.1.getD page 0, target)])
      (own slot target { s with arena := p })
  | copied {target : Nat} {p : Pool Nat} (hsource : acc.1.getD page 0 ≠ 0)
    (hshared : mustCopy s.arena (acc.1.getD page 0)) (hroom : Room s.arena 1 slot)
    (hexchanged : Exchanged s.arena slot (acc.1.getD page 0) target p) (hvalid : Valid p) :
    Detached slot page acc s (acc.1.set page target, acc.2 ++ [(page, acc.1.getD page 0, target)])
      (own slot target (disown slot (acc.1.getD page 0) { s with arena := p }))

def Refused (s : Slots β) (slot source : Nat) : Prop :=
  (source = 0 ∧ ¬Room s.arena 1 slot) ∨
  (source ≠ 0 ∧ mustCopy s.arena source ∧ ¬(Usable s.arena source ∧ 0 < s.arena.refCnt source ∧ Room s.arena 1 slot))

theorem not_private_of_mustCopy {p : Pool Nat} {source : Nat} (h : mustCopy p source) :
    ¬(p.refCnt source = 1 ∧ p.blockHash source = none) := by
  rintro ⟨hone, hnone⟩
  rcases h with hshared | hsome
  · exact ne_of_gt hshared hone
  · rw [hnone] at hsome
    cases hsome

theorem detach_ends (hvalid : Valid s.arena) (hnull : s.arena.config.reserved = 1)
    (acc : List Nat × List (Nat × Nat × Nat))
    (page : Nat) : Ends (Detached slot page acc s) (fun s' => s' = s ∧ Refused s slot (acc.1.getD page 0))
      (detach slot acc page s) := by
  simp only [detach, bind_of_ok (get_apply s)]
  by_cases hsource : acc.1.getD page 0 = 0
  · rw [if_pos hsource]
    apply ends_bind (P := fun ids s₁ => ∃ target p, ids = [target] ∧ s₁ = { s with arena := p } ∧
      Room s.arena 1 slot ∧ Fresh s.arena slot target p ∧ Valid p)
    · apply ends_onArena
      apply (allocate_one_ends hvalid hnull).mono
      · rintro ids p ⟨hroom, target, rfl, hfresh, hp⟩
        exact ⟨target, p, rfl, rfl, hroom, hfresh, hp⟩
      · rintro p ⟨rfl, hroom⟩
        exact ⟨rfl, .inl ⟨hsource, hroom⟩⟩
    · rintro _ _ ⟨target, p, rfl, rfl, hroom, hfresh, hp⟩
      exact Detached.fresh hsource hroom hfresh hp
  · rw [if_neg hsource]
    by_cases hshared : mustCopy s.arena (acc.1.getD page 0)
    · rw [if_pos hshared]
      apply ends_bind (P := fun target s₁ => ∃ p, s₁ = { s with arena := p } ∧ Room s.arena 1 slot ∧
        Usable s.arena (acc.1.getD page 0) ∧ 0 < s.arena.refCnt (acc.1.getD page 0) ∧
        Fresh s.arena slot target p ∧ Valid p)
      · apply ends_onArena
        apply (ensureWritable_ends hvalid hnull (not_private_of_mustCopy hshared)).mono
        · rintro target p ⟨⟨husable, hlive, hroom⟩, hfresh, hp⟩
          exact ⟨p, rfl, hroom, husable, hlive, hfresh, hp⟩
        · rintro p ⟨rfl, hrefused⟩
          exact ⟨rfl, .inr ⟨hsource, hshared, hrefused⟩⟩
      · rintro target _ ⟨p, rfl, hroom, husable, hlive, hfresh, hp⟩
        have hne : acc.1.getD page 0 ≠ target := fun heq => ne_of_gt hlive (heq ▸ hfresh.spare)
        have husable' : Usable p (acc.1.getD page 0) := by rwa [Usable, hfresh.config]
        have hlive' : 0 < p.refCnt (acc.1.getD page 0) := by rwa [hfresh.refCnt, if_neg hne]
        obtain ⟨p', hrun, hdecref, hp', hlen⟩ := decref_one_of hp (by rw [hfresh.config, hnull]) husable' hlive'
        rw [bind_of_ok (onArena_of_ok hrun)]
        exact Detached.copied hsource hshared hroom (hfresh.exchanged hlive hdecref hlen) hp'
    · rw [if_neg hshared]
      exact Detached.kept hsource hshared

section Loop

def needs (s : Slots β) (slot page : Nat) : Prop :=
  (s.host slot).getD page 0 = 0 ∨ mustCopy s.arena ((s.host slot).getD page 0)

instance (s : Slots β) (slot page : Nat) : Decidable (needs s slot page) := inferInstanceAs (Decidable (_ ∨ _))

/-- A page whose bundle only the slot references, so that the exchange frees it. -/
def returns (s : Slots β) (slot page : Nat) : Prop := s.arena.refCnt ((s.host slot).getD page 0) = 1

instance (s : Slots β) (slot page : Nat) : Decidable (returns s slot page) := inferInstanceAs (Decidable (_ = _))

/-- A bundle that only one slot references and nobody can find. -/
structure Writable (s : Slots β) (b : Nat) : Prop where
  nonnull : b ≠ 0
  alone : s.arena.refCnt b = 1
  unpublished : s.arena.blockHash b = none

/-- What the loop has reached from `s₀` behind the pages `done`. -/
structure Detaching (s₀ : Slots β) (slot : Nat) (done : List Nat) (acc : List Nat × List (Nat × Nat × Nat))
    (s : Slots β) : Prop where
  frame : s = { s₀ with arena := s.arena, bundles := s.bundles }
  owned : Owned s
  others : ∀ o, o ≠ slot → s.bundles o = s₀.bundles o
  shows : Shows acc.1 (s.bundles slot)
  width : acc.1.length = (s₀.host slot).length
  later : ∀ page, page ∉ done → acc.1.getD page 0 = (s₀.host slot).getD page 0
  ready : ∀ page ∈ done, Writable s (acc.1.getD page 0)
  status : ∀ page, page ∉ done → (s₀.host slot).getD page 0 ≠ 0 →
    s.arena.refCnt ((s₀.host slot).getD page 0) = s₀.arena.refCnt ((s₀.host slot).getD page 0) ∧
      s.arena.blockHash ((s₀.host slot).getD page 0) = s₀.arena.blockHash ((s₀.host slot).getD page 0)
  replaced : acc.2.map (·.1) = done.filter fun page => decide (needs s₀ slot page)
  target : ∀ r ∈ acc.2, acc.1.getD r.1 0 = r.2.2
  freeLen : s.arena.freeLen + acc.2.length = s₀.arena.freeLen +
    (done.filter fun page => decide (needs s₀ slot page)).countP fun page => decide (returns s₀ slot page)
  spent : Spent s₀.arena.reservations slot acc.2.length s.arena.reservations
  started : acc.2 = [] → s = s₀ ∧ acc.1 = s₀.host slot
  steady : ∀ b, Writable s₀ b → Writable s b ∧ ∀ page, (s₀.host slot).getD page 0 = b → acc.1.getD page 0 = b
  first : acc.2 ≠ [] → Room s₀.arena 1 slot

theorem Detaching.refl (h : Mapped s) (slot : Nat) : Detaching s slot [] (s.host slot, []) s where
  frame := rfl
  owned := h.toOwned
  others := fun _ _ => rfl
  shows := h.shows slot
  width := rfl
  later := fun _ _ => rfl
  ready := by simp
  status := fun _ _ _ => ⟨rfl, rfl⟩
  replaced := rfl
  target := by simp
  freeLen := rfl
  spent := Spent.refl _ _
  started := fun _ => ⟨rfl, rfl⟩
  steady := fun _ hb => ⟨hb, fun _ => id⟩
  first := fun hsome => absurd rfl hsome

theorem mustCopy_congr {p p' : Pool Nat} {b : Nat} (href : p'.refCnt b = p.refCnt b)
    (hhash : p'.blockHash b = p.blockHash b) : mustCopy p' b ↔ mustCopy p b := by
  rw [mustCopy, mustCopy, href, hhash]

/-- A page is replaced in the loop where the row before the loop says so. -/
theorem Detaching.needs_iff (h : Detaching s₀ slot done acc s) (hpage : page ∉ done) :
    acc.1.getD page 0 = 0 ∨ mustCopy s.arena (acc.1.getD page 0) ↔ needs s₀ slot page := by
  rw [needs, h.later page hpage]
  by_cases hzero : (s₀.host slot).getD page 0 = 0
  · simp only [hzero, true_or]
  · obtain ⟨href, hhash⟩ := h.status page hpage hzero
    rw [mustCopy_congr href hhash]

/-- The slot has `target` in place of `source`, which may be the null bundle. -/
structure Replaced (s : Slots β) (slot source target : Nat) (s' : Slots β) : Prop where
  frame : s' = { s with arena := s'.arena, bundles := s'.bundles }
  owned : Owned s'
  others : ∀ o, o ≠ slot → s'.bundles o = s.bundles o
  spare : s.arena.refCnt target = 0
  writable : Writable s' target
  status : ∀ b, b ≠ source → b ≠ target →
    s'.arena.refCnt b = s.arena.refCnt b ∧ s'.arena.blockHash b = s.arena.blockHash b
  freeLen : s'.arena.freeLen + 1 = s.arena.freeLen + if s.arena.refCnt source = 1 then 1 else 0
  spent : Spent s.arena.reservations slot 1 s'.arena.reservations
  shows : ∀ row page, Shows row (s.bundles slot) → page < row.length → row.getD page 0 = source →
    Shows (row.set page target) (s'.bundles slot)

theorem Owned.null_spare (h : Owned s) : s.arena.refCnt 0 = 0 := by
  by_contra hlive
  have hlow := (h.usable (Nat.pos_of_ne_zero hlive)).1
  rw [h.nullOnly] at hlow
  exact Nat.not_succ_le_zero 0 hlow

theorem Owned.nonnull (h : Owned s) {b : Nat} (husable : Usable s.arena b) : b ≠ 0 := by
  have hlow := husable.1
  rw [h.nullOnly] at hlow
  exact ne_of_gt hlow

theorem Replaced.of_fresh (h : Owned s) (hslot : slot < s.geometry.numRows) {target : Nat} {p : Pool Nat}
    (hfresh : Fresh s.arena slot target p) (hp : Valid p) :
    Replaced s slot 0 target (own slot target { s with arena := p }) where
  frame := rfl
  owned := h.fresh hslot hfresh hp
  others := fun o ho => by simp [ho]
  spare := hfresh.spare
  writable := ⟨h.nonnull hfresh.usable, by simp [own, hfresh.refCnt], by simp [own, hfresh.blockHash]⟩
  status := fun b _ hb => by simp [own, hfresh.refCnt, hfresh.blockHash, hb]
  freeLen := by
    rw [h.null_spare]
    exact hfresh.freeLen
  spent := hfresh.spent
  shows := by
    intro row page hshows hpage hnull
    rw [own_bundles_self]
    exact hshows.set_null hpage hnull (h.not_mem hslot hfresh.spare)

theorem Replaced.of_copied (h : Owned s) (hslot : slot < s.geometry.numRows) {source target : Nat} {p : Pool Nat}
    (hsource : source ≠ 0) (hmem : source ∈ s.bundles slot) (hexchanged : Exchanged s.arena slot source target p)
    (hp : Valid p) :
    Replaced s slot source target (own slot target (disown slot source { s with arena := p })) where
  frame := rfl
  owned := h.copied hslot hmem hexchanged hp
  others := fun o ho => by simp [ho]
  __ := hexchanged
  writable := by
    have hne : target ≠ source := fun heq => ne_of_gt hexchanged.live (heq ▸ hexchanged.spare)
    have hcount := hexchanged.refCnt target
    rw [if_neg hne, if_pos rfl, add_zero] at hcount
    exact ⟨h.nonnull hexchanged.usable, hcount, by simp [own, disown, hexchanged.blockHash]⟩
  status := by
    intro b hsrc htgt
    have hcount := hexchanged.refCnt b
    rw [if_neg hsrc, if_neg htgt, add_zero] at hcount
    exact ⟨hcount, by simp [own, disown, hexchanged.blockHash, htgt]⟩
  shows := by
    intro row page hshows hpage hentry
    rw [own_bundles_self, disown_bundles_self]
    exact hshows.set_copy (h.nodup slot) hpage hentry hsource (h.not_mem hslot hexchanged.spare)

theorem Shows.getD_mem {row bundles : List Nat} (h : Shows row bundles) (hentry : row.getD page 0 ≠ 0) :
    row.getD page 0 ∈ bundles := by
  have hlt : page < row.length := by
    by_contra hout
    exact hentry (getD_eq_default _ _ (not_lt.mp hout))
  apply (h.mem_iff hentry).mp
  rw [getD_eq_getElem _ _ hlt]
  exact getElem_mem hlt

/-- One page of the loop is left alone or replaced. -/
theorem Detaching.cases (h : Detaching s₀ slot done acc s) (hslot : slot < s₀.geometry.numRows)
    (hstep : Detached slot page acc s acc' s') :
    (acc.1.getD page 0 ≠ 0 ∧ ¬mustCopy s.arena (acc.1.getD page 0) ∧ acc' = acc ∧ s' = s) ∨
    ((acc.1.getD page 0 = 0 ∨ mustCopy s.arena (acc.1.getD page 0)) ∧ Room s.arena 1 slot ∧
      ∃ target, acc' = (acc.1.set page target, acc.2 ++ [(page, acc.1.getD page 0, target)]) ∧
        Replaced s slot (acc.1.getD page 0) target s') := by
  have hrow : slot < s.geometry.numRows := by rwa [h.frame]
  cases hstep with
  | kept hsource hwritable => exact .inl ⟨hsource, hwritable, rfl, rfl⟩
  | @fresh target p hnull hroom hfresh hp =>
    refine .inr ⟨.inl hnull, hroom, target, rfl, ?_⟩
    rw [hnull]
    exact Replaced.of_fresh h.owned hrow hfresh hp
  | @copied target p hsource hshared hroom hexchanged hp =>
    exact .inr ⟨.inr hshared, hroom, target, rfl,
      Replaced.of_copied h.owned hrow hsource (h.shows.getD_mem hsource) hexchanged hp⟩

theorem getD_set_self {row : List Nat} {target : Nat} (hpage : page < row.length) :
    (row.set page target).getD page 0 = target := by
  simp [getD_eq_getElem?_getD, hpage]

theorem getD_set_of_ne {row : List Nat} {other target : Nat} (hne : other ≠ page) :
    (row.set page target).getD other 0 = row.getD other 0 := by
  simp [getD_eq_getElem?_getD, getElem?_set_ne (Ne.symm hne)]

theorem Detaching.keep (h : Detaching s₀ slot done acc s) (hslot : slot < s₀.geometry.numRows) (hpage : page ∉ done)
    (hsource : acc.1.getD page 0 ≠ 0) (hwritable : ¬mustCopy s.arena (acc.1.getD page 0)) :
    Detaching s₀ slot (done ++ [page]) acc s := by
  have hrow : slot < s.geometry.numRows := by rwa [h.frame]
  have hlive := h.owned.live hrow (h.shows.getD_mem hsource)
  have hno : ¬needs s₀ slot page := by
    rw [← h.needs_iff hpage, not_or]
    exact ⟨hsource, hwritable⟩
  rw [mustCopy, not_or, not_lt, Bool.not_eq_true, Option.isSome_eq_false_iff, Option.isNone_iff_eq_none] at hwritable
  refine { h with
    later := fun other hother => h.later other fun hmem => hother (mem_append_left _ hmem)
    status := fun other hother => h.status other fun hmem => hother (mem_append_left _ hmem)
    ready := ?_, replaced := ?_, freeLen := ?_ }
  · intro other hother
    rcases mem_append.mp hother with hother | hother
    · exact h.ready other hother
    · rw [mem_singleton.mp hother]
      exact ⟨hsource, le_antisymm hwritable.1 hlive, hwritable.2⟩
  · simpa [filter_append, hno] using h.replaced
  · simpa [filter_append, hno] using h.freeLen

theorem Detaching.replace (h₀ : Owned s₀) (h : Detaching s₀ slot done acc s) (hslot : slot < s₀.geometry.numRows)
    (hpage : page ∉ done) (hlt : page < acc.1.length)
    (hneeds : acc.1.getD page 0 = 0 ∨ mustCopy s.arena (acc.1.getD page 0)) (hroom : Room s.arena 1 slot)
    {target : Nat}
    (hreplaced : Replaced s slot (acc.1.getD page 0) target s') :
    Detaching s₀ slot (done ++ [page]) (acc.1.set page target, acc.2 ++ [(page, acc.1.getD page 0, target)]) s' := by
  have hrow : slot < s.geometry.numRows := by rwa [h.frame]
  have hyes : needs s₀ slot page := (h.needs_iff hpage).mp hneeds
  -- An entry on another page is neither given up nor taken.
  have hother : ∀ other, other ≠ page → acc.1.getD other 0 ≠ 0 →
      s'.arena.refCnt (acc.1.getD other 0) = s.arena.refCnt (acc.1.getD other 0) ∧
        s'.arena.blockHash (acc.1.getD other 0) = s.arena.blockHash (acc.1.getD other 0) := by
    intro other hne hentry
    apply hreplaced.status
    · exact fun heq => hne (h.shows.inj hentry heq)
    · intro heq
      have hlive := h.owned.live hrow (h.shows.getD_mem hentry)
      rw [heq, hreplaced.spare] at hlive
      exact lt_irrefl 0 hlive
  have hreturns : (s.arena.refCnt (acc.1.getD page 0) = 1) ↔ returns s₀ slot page := by
    rw [returns, h.later page hpage]
    by_cases hzero : (s₀.host slot).getD page 0 = 0
    · rw [hzero, h.owned.null_spare, h₀.null_spare]
    · rw [(h.status page hpage hzero).1]
  constructor
  · rw [hreplaced.frame, h.frame]
  · exact hreplaced.owned
  · intro o ho
    rw [hreplaced.others o ho, h.others o ho]
  · exact hreplaced.shows _ _ h.shows hlt rfl
  · simpa using h.width
  · intro other hmem
    simp only [mem_append, mem_singleton, not_or] at hmem
    rw [getD_set_of_ne hmem.2]
    exact h.later other hmem.1
  · intro other hmem
    rcases mem_append.mp hmem with hmem | hmem
    · have hne : other ≠ page := fun heq => hpage (heq ▸ hmem)
      have hready := h.ready other hmem
      obtain ⟨href, hhash⟩ := hother other hne hready.nonnull
      rw [getD_set_of_ne hne]
      exact ⟨hready.nonnull, href.trans hready.alone, hhash.trans hready.unpublished⟩
    · rw [mem_singleton.mp hmem, getD_set_self hlt]
      exact hreplaced.writable
  · intro other hmem hentry
    simp only [mem_append, mem_singleton, not_or] at hmem
    obtain ⟨href₀, hhash₀⟩ := h.status other hmem.1 hentry
    rw [← h.later other hmem.1] at hentry href₀ hhash₀ ⊢
    obtain ⟨href, hhash⟩ := hother other hmem.2 hentry
    exact ⟨href.trans href₀, hhash.trans hhash₀⟩
  · simp [filter_append, hyes, h.replaced]
  · intro r hr
    rcases mem_append.mp hr with hr | hr
    · have hne : r.1 ≠ page := by
        intro heq
        have hin : r.1 ∈ acc.2.map (·.1) := mem_map_of_mem hr
        rw [h.replaced] at hin
        exact hpage (heq ▸ (mem_filter.mp hin).1)
      rw [getD_set_of_ne hne]
      exact h.target r hr
    · rw [mem_singleton.mp hr]
      exact getD_set_self hlt
  · have hfree := hreplaced.freeLen
    have hbefore := h.freeLen
    rw [filter_append, countP_append]
    simp only [length_append, length_singleton, hyes, decide_true, filter_singleton, cond_true,
      countP_singleton, decide_eq_true_eq]
    simp only [hreturns] at hfree
    omega
  · rw [length_append]
    exact h.spent.trans hreplaced.spent
  · simp
  · intro b hb
    obtain ⟨hwritable, hentries⟩ := h.steady b hb
    have hsource : b ≠ acc.1.getD page 0 := by
      rintro rfl
      rcases hneeds with hnull | hshared
      · exact hwritable.nonnull hnull
      · exact not_private_of_mustCopy hshared ⟨hwritable.alone, hwritable.unpublished⟩
    have htarget : b ≠ target := by
      rintro rfl
      have halone := hwritable.alone
      rw [hreplaced.spare] at halone
      cases halone
    obtain ⟨href, hhash⟩ := hreplaced.status b hsource htarget
    refine ⟨⟨hwritable.nonnull, href.trans hwritable.alone, hhash.trans hwritable.unpublished⟩, fun other hentry => ?_⟩
    have hne : other ≠ page := by
      rintro rfl
      exact hsource (hentries other hentry).symm
    rw [getD_set_of_ne hne]
    exact hentries other hentry
  · intro _
    by_cases hnone : acc.2 = []
    · rwa [← (h.started hnone).1]
    · exact h.first hnone

end Loop

section Capacity

def replacedPages (s : Slots β) (slot : Nat) (pages : List Nat) : List Nat :=
  pages.filter fun page => decide (needs s slot page)

/-- The bundles that come back while the first `k` pages are replaced. -/
def returned (s : Slots β) (slot : Nat) (pages : List Nat) (k : Nat) : Nat :=
  ((replacedPages s slot pages).take k).countP fun page => decide (returns s slot page)

/-- There is a bundle for one more page when `k` are replaced: a free one, and behind the slot's own
reservation one that is neither promised to others nor kept back. -/
def Affordable (s : Slots β) (slot : Nat) (pages : List Nat) (k : Nat) : Prop :=
  k + 1 ≤ s.arena.freeLen + returned s slot pages k ∧
  (reservedFor s.arena slot ≤ k →
    k + 1 + (requestReserved s.arena - reservedFor s.arena slot) + s.arena.config.watermark ≤
      s.arena.freeLen + returned s slot pages k)

instance (s : Slots β) (slot : Nat) (pages : List Nat) (k : Nat) : Decidable (Affordable s slot pages k) :=
  inferInstanceAs (Decidable (_ ∧ (_ → _)))

theorem Detaching.room_iff (h₀ : Owned s₀) {pages rest : List Nat} (hpages : pages = done ++ rest)
    (h : Detaching s₀ slot done acc s) : Room s.arena 1 slot ↔ Affordable s₀ slot pages acc.2.length := by
  have hlen : acc.2.length = (replacedPages s₀ slot done).length := by
    rw [replacedPages, ← h.replaced, length_map]
  have htake : (replacedPages s₀ slot pages).take acc.2.length = replacedPages s₀ slot done := by
    rw [hlen, hpages]
    simp only [replacedPages, filter_append]
    exact take_left
  have hback : returned s₀ slot pages acc.2.length =
      (replacedPages s₀ slot done).countP fun page => decide (returns s₀ slot page) := by
    rw [returned, htake]
  have hfree := h.freeLen
  have hself : reservedFor s.arena slot = reservedFor s₀.arena slot - acc.2.length := h.spent.self
  have htotal : requestReserved s.arena + min acc.2.length (reservedFor s₀.arena slot) = requestReserved s₀.arena :=
    h.spent.total
  have hle : reservedFor s₀.arena slot ≤ requestReserved s₀.arena := Ledger.amount_le_total _ _
  have hgeometry : s.geometry = s₀.geometry := by rw [h.frame]
  have hwatermark : s.arena.config.watermark = s₀.arena.config.watermark := by
    rw [h.owned.config, h₀.config, hgeometry]
  rw [Affordable, Room, unreservedFree, hback, hwatermark, hself]
  simp only [replacedPages] at hfree ⊢
  omega

theorem affordable_zero (h : Mapped s) (slot : Nat) (pages : List Nat) :
    Affordable s slot pages 0 ↔ Room s.arena 1 slot :=
  ((Detaching.refl h slot).room_iff h.toOwned (nil_append pages).symm).symm

/-- The loop ends behind all pages, or at one for which there is no bundle. -/
theorem loop_ends (h : Mapped s₀) (hslot : slot < s₀.geometry.numRows) {pages : List Nat} (hnodup : pages.Nodup)
    (hlt : ∀ page ∈ pages, page < s₀.geometry.pagesPerSlot) :
    Ends (Detaching s₀ slot pages)
      (fun s' => ∃ done acc page rest, pages = done ++ page :: rest ∧ Detaching s₀ slot done acc s' ∧
        needs s₀ slot page ∧ ¬Affordable s₀ slot pages acc.2.length)
      ((pages.foldlM (detach slot) (s₀.host slot, [])) s₀) := by
  refine ends_foldlM (I := fun done acc s => Detaching s₀ slot done acc s) ?_ (Detaching.refl h slot)
  intro done page rest acc s hpages hdone
  have hpage : page ∉ done := by
    rw [hpages] at hnodup
    exact fun hmem => disjoint_of_nodup_append hnodup hmem (by simp)
  have hgeometry : s.geometry = s₀.geometry := by rw [hdone.frame]
  have hwidth : page < acc.1.length := by
    rw [hdone.width, h.width]
    exact hlt page (by simp [hpages])
  apply (detach_ends hdone.owned.valid hdone.owned.nullOnly acc page).mono
  · intro acc' s' hstep
    rcases hdone.cases hslot hstep with ⟨hsource, hwritable, rfl, rfl⟩ | ⟨hneeds, hroom, target, rfl, hreplaced⟩
    · exact hdone.keep hslot hpage hsource hwritable
    · exact hdone.replace h.toOwned hslot hpage hwidth hneeds hroom hreplaced
  · rintro s' ⟨heq, hrefused⟩
    rw [heq]
    have hrow : slot < s.geometry.numRows := by rwa [hgeometry]
    have hneeds : needs s₀ slot page := by
      rw [← hdone.needs_iff hpage]
      rcases hrefused with ⟨hnull, -⟩ | ⟨-, hshared, -⟩
      · exact .inl hnull
      · exact .inr hshared
    refine ⟨done, acc, page, rest, hpages, hdone, hneeds, ?_⟩
    rw [← hdone.room_iff h.toOwned hpages]
    rcases hrefused with ⟨-, hroom⟩ | ⟨hsource, -, hall⟩
    · exact hroom
    · have hlive := hdone.owned.live hrow (hdone.shows.getD_mem hsource)
      exact fun hroom => hall ⟨hdone.owned.usable hlive, hlive, hroom⟩

end Capacity

section Prepare

/-- The pages are the slot's own; nothing else has changed but what the arena does for it. -/
structure Prepared (s : Slots β) (slot : Nat) (pages : List Nat) (s' : Slots β) : Prop where
  frame : s' = { s with arena := s'.arena, bundles := s'.bundles, host := s'.host, device := s'.device, kv := s'.kv }
  others : ∀ o, o ≠ slot → s'.host o = s.host o
  ready : ∀ page ∈ pages, Writable s' ((s'.host slot).getD page 0)
  kept : ∀ page, page ∉ pages → (s'.host slot).getD page 0 = (s.host slot).getD page 0
  kv : ∀ b, ¬Writable s' b → s'.kv b = s.kv b
  freeLen : s'.arena.freeLen + (replacedPages s slot pages).length =
    s.arena.freeLen + returned s slot pages (replacedPages s slot pages).length
  spent : Spent s.arena.reservations slot (replacedPages s slot pages).length s'.arena.reservations
  first : 0 < (replacedPages s slot pages).length → Affordable s slot pages 0
  steady : ∀ b, Writable s b → Writable s' b ∧ ∀ page, (s.host slot).getD page 0 = b → (s'.host slot).getD page 0 = b

/-- The loop is not refused a bundle, unless at once. -/
def Covered (s : Slots β) (slot : Nat) (pages : List Nat) : Prop :=
  ¬Affordable s slot pages 0 ∨ ∀ k < (replacedPages s slot pages).length, Affordable s slot pages k

instance (s : Slots β) (slot : Nat) (pages : List Nat) : Decidable (Covered s slot pages) :=
  inferInstanceAs (Decidable (_ ∨ _))

theorem Detaching.length_eq (h : Detaching s₀ slot done acc s) :
    acc.2.length = (replacedPages s₀ slot done).length := by
  rw [replacedPages, ← h.replaced, length_map]

/-- Bytes are cloned into pages of the slot's own only. -/
theorem Detaching.kv_clone (h : Detaching s₀ slot done acc s) {b : Nat} (hb : ¬Writable s b) :
    (cloneCowPages acc.2 s).kv b = s.kv b := by
  have hfold : ∀ (rs : List (Nat × Nat × Nat)) (kv : Nat → Nat → β), (∀ r ∈ rs, r ∈ acc.2) →
      rs.foldl (fun kv r => if r.2.1 = 0 then kv else update kv r.2.2 (kv r.2.1)) kv b = kv b := by
    intro rs
    induction rs with
    | nil => exact fun _ _ => rfl
    | cons r rs ih =>
      intro kv hrs
      have hr : r ∈ acc.2 := hrs r (by simp)
      have hdone : r.1 ∈ done := by
        have hin : r.1 ∈ acc.2.map (·.1) := mem_map_of_mem hr
        rw [h.replaced] at hin
        exact (mem_filter.mp hin).1
      have hne : b ≠ r.2.2 := by
        rintro rfl
        rw [← h.target r hr] at hb
        exact hb (h.ready r.1 hdone)
      rw [foldl_cons, ih _ fun r' hr' => hrs r' (by simp [hr'])]
      split_ifs
      · rfl
      · rw [update_of_ne hne]
  exact hfold acc.2 s.kv fun _ => id

theorem Owned.drained (h : Owned s) (kv : Nat → Nat → β) :
    Owned { s with kv := kv, arena := { s.arena with pendingCow := ∅ } } where
  valid := by
    obtain ⟨cold, hot, hwf⟩ := h.valid
    exact ⟨cold, hot, hwf.cow ∅⟩
  __ := h

/-- What the pages behind the loop are worth. -/
theorem Detaching.finish (h₀ : Mapped s₀) (hslot : slot < s₀.geometry.numRows) (h : Detaching s₀ slot done acc s) :
    Ends (fun _ s' => Mapped s' ∧ Prepared s₀ slot done s') (fun _ => False)
      ((if acc.2 = [] then pure ()
        else do
          modify (cloneCowPages acc.2)
          onArena drainPendingCow
          setPageTableRow slot acc.1 : SlotM β Unit) s) := by
  have hgeometry : s.geometry = s₀.geometry := by rw [h.frame]
  have hrow : slot < s.geometry.numRows := by rwa [hgeometry]
  have hhost : s.host = s₀.host := by rw [h.frame]
  have hfree : s.arena.freeLen + (replacedPages s₀ slot done).length =
      s₀.arena.freeLen + returned s₀ slot done (replacedPages s₀ slot done).length := by
    rw [returned, take_length, ← h.length_eq]
    exact h.freeLen
  have hspent : Spent s₀.arena.reservations slot (replacedPages s₀ slot done).length s.arena.reservations := by
    rw [← h.length_eq]
    exact h.spent
  have hfirst : 0 < (replacedPages s₀ slot done).length → Affordable s₀ slot done 0 := by
    rw [← h.length_eq, affordable_zero h₀, length_pos_iff]
    exact h.first
  by_cases hnone : acc.2 = []
  · rw [if_pos hnone]
    obtain ⟨rfl, hacc⟩ := h.started hnone
    exact ⟨h₀, rfl, fun _ _ => rfl, fun page hpage => hacc ▸ h.ready page hpage, fun _ _ => rfl, fun _ _ => rfl,
      hfree, hspent, hfirst, fun _ hb => ⟨hb, fun _ => id⟩⟩
  · rw [if_neg hnone, bind_of_ok (modify_apply _ s)]
    have hdrain : onArena drainPendingCow (cloneCowPages acc.2 s) =
        .ok ⟨⟩ { s with kv := (cloneCowPages acc.2 s).kv, arena := { s.arena with pendingCow := ∅ } } := rfl
    have howned := h.owned.drained (cloneCowPages acc.2 s).kv
    have hwidth : acc.1.length = s₀.geometry.pagesPerSlot := by rw [h.width, h₀.width]
    obtain ⟨hset, hmapped⟩ := h₀.remapped howned (by rw [h.frame]) h.others (fun o ho => h.spent.other o ho) hslot
      hwidth h.shows
    rw [bind_of_ok hdrain, hset]
    refine ⟨hmapped, ?_⟩
    · refine ⟨?_, fun o ho => ?_, fun page hpage => ?_, fun page hpage => ?_, fun b hb => ?_, hfree, hspent, hfirst,
        fun b hb => ?_⟩
      · rw [h.frame]
      · simp [ho]
      · simp only [update_self]
        exact ⟨(h.ready page hpage).nonnull, (h.ready page hpage).alone, (h.ready page hpage).unpublished⟩
      · simp only [update_self]
        exact h.later page hpage
      · have hkv : (cloneCowPages acc.2 s).kv b = s.kv b :=
          h.kv_clone fun hwritable => hb ⟨hwritable.nonnull, hwritable.alone, hwritable.unpublished⟩
        simp only [hkv]
        rw [h.frame]
      · obtain ⟨hwritable, hentries⟩ := h.steady b hb
        simp only [update_self]
        exact ⟨⟨hwritable.nonnull, hwritable.alone, hwritable.unpublished⟩, hentries⟩

theorem touched_nodup (g : Geometry) (start length : Nat) : (g.touched start length).Nodup := nodup_range'

theorem mem_touched {g : Geometry} (hlength : 0 < length) : page ∈ g.touched start length ↔
    ∃ position, start ≤ position ∧ position < start + length ∧ position / g.pageSize = page := by
  have hle : start / g.pageSize ≤ (start + length - 1) / g.pageSize := Nat.div_le_div_right (by omega)
  rw [Geometry.touched, mem_range'_1]
  constructor
  · rintro ⟨hlow, hhigh⟩
    refine ⟨max start (page * g.pageSize), le_max_left _ _, ?_, ?_⟩
    · have hlast : page ≤ (start + length - 1) / g.pageSize := by omega
      have hmul := (Nat.le_div_iff_mul_le g.pageSize_pos).mp hlast
      omega
    · have hstart : start < (page + 1) * g.pageSize := (Nat.div_lt_iff_lt_mul g.pageSize_pos).mp (by omega)
      apply Nat.div_eq_of_lt_le (le_max_right _ _)
      rw [Nat.max_lt]
      exact ⟨hstart, (Nat.mul_lt_mul_right g.pageSize_pos).mpr (Nat.lt_succ_self page)⟩
  · rintro ⟨position, hlow, hhigh, rfl⟩
    have hfrom := Nat.div_le_div_right (c := g.pageSize) hlow
    have hto : position / g.pageSize ≤ (start + length - 1) / g.pageSize := Nat.div_le_div_right (by omega)
    omega

theorem touched_lt {g : Geometry} (hlength : 0 < length) (hcapacity : start + length ≤ g.maxSeqLen)
    (hpage : page ∈ g.touched start length) : page < g.pagesPerSlot := by
  obtain ⟨position, -, hhigh, rfl⟩ := (mem_touched hlength).mp hpage
  exact (Nat.div_lt_iff_lt_mul g.pageSize_pos).mpr (lt_of_lt_of_le hhigh hcapacity)

/-- The pages of a pending write become the slot's own, or nothing happens. -/
theorem prepareKvWrites_ends (h : Mapped s)
    (hcovered : slot < s.geometry.numRows → start + length ≤ s.geometry.maxSeqLen → 0 < length →
      Covered s slot (s.geometry.touched start length)) :
    Ends (fun _ s' => Mapped s' ∧ (length = 0 ∧ s' = s ∨
        0 < length ∧ slot < s.geometry.numRows ∧ start + length ≤ s.geometry.maxSeqLen ∧
          Prepared s slot (s.geometry.touched start length) s'))
      (fun s' => s' = s ∧ (s.geometry.maxSeqLen < start + length ∨ 0 < length ∧ (s.geometry.numRows ≤ slot ∨
        0 < (replacedPages s slot (s.geometry.touched start length)).length ∧
          ¬Affordable s slot (s.geometry.touched start length) 0)))
      (prepareKvWrites slot start length s) := by
  simp only [prepareKvWrites, bind_of_ok (get_apply s)]
  by_cases hcapacity : s.geometry.maxSeqLen < start + length
  · rw [bind_of_error (raiseIf_of hcapacity s)]
    exact ⟨rfl, .inl hcapacity⟩
  rw [bind_of_ok (raiseIf_of_not hcapacity s)]
  by_cases hlength : length = 0
  · rw [if_pos hlength]
    exact ⟨h, .inl ⟨hlength, rfl⟩⟩
  rw [if_neg hlength]
  have hpos := Nat.pos_of_ne_zero hlength
  have hfits := Nat.not_lt.mp hcapacity
  by_cases hslot : slot < s.geometry.numRows
  · rw [bind_of_ok (pageRow_of hslot)]
    have hloop := loop_ends h hslot (touched_nodup s.geometry start length) fun page => touched_lt hpos hfits
    have hfirst : Ends (Detaching s slot (s.geometry.touched start length))
        (fun s' => s' = s ∧ 0 < (replacedPages s slot (s.geometry.touched start length)).length ∧
          ¬Affordable s slot (s.geometry.touched start length) 0)
        (((s.geometry.touched start length).foldlM (detach slot) (s.host slot, [])) s) := by
      apply hloop.mono fun _ _ => id
      rintro s' ⟨done, acc, page, rest, hpages, hdone, hneeds, hrefused⟩
      have hmore : acc.2.length < (replacedPages s slot (s.geometry.touched start length)).length := by
        rw [hdone.length_eq, hpages, replacedPages, replacedPages, filter_append, length_append,
          filter_cons_of_pos (by simpa using hneeds), length_cons]
        omega
      rcases hcovered hslot hfits hpos with hzero | hall
      · by_cases hnone : acc.2 = []
        · exact ⟨(hdone.started hnone).1, Nat.lt_of_le_of_lt (Nat.zero_le _) hmore, hzero⟩
        · exact absurd ((affordable_zero h slot _).mpr (hdone.first hnone)) hzero
      · exact absurd (hall _ hmore) hrefused
    apply ends_bind (hfirst.weaken fun s' hs' => ⟨hs'.1, .inr ⟨hpos, .inr hs'.2⟩⟩)
    intro acc s₁ hdone
    exact (hdone.finish h hslot).mono (fun _ s' hs' => ⟨hs'.1, .inr ⟨hpos, hslot, hfits, hs'.2⟩⟩) fun _ => False.elim
  · rw [bind_of_error (pageRow_of_outside hslot)]
    exact ⟨rfl, .inr ⟨hpos, .inl (not_lt.mp hslot)⟩⟩

end Prepare

end SlotPool
