import BlackweLLM.FixedArena
import BlackweLLM.Ledger

/-!
# Aliases in the fixed arena

The reference count of a page is the number of rows that show it, so a page
that no row shows can be overwritten and a page of another row is displaced
before a write. A detach replaces entries of one row by pages that nobody
shows and changes nothing that any row reads.
-/

namespace FixedArena

open List Function RaisingState

variable {β : Type} {s s' : Arena β} {slot page : Nat}

def holders (s : Arena β) (page : Nat) : Nat :=
  (range s.geometry.numRows).countP fun row => decide (page ∈ s.host row)

structure Counted (s : Arena β) : Prop where
  width : ∀ row, (s.host row).length = s.geometry.pagesPerSlot
  nodup : ∀ row, (s.host row).Nodup
  refCnt : ∀ page, s.refCnt page = holders s page
  unheld : ∀ page ∈ s.free, s.refCnt page = 0
  freeNodup : s.free.Nodup
  scratch : s.host s.geometry.scratchRow = s.geometry.initialRow s.geometry.scratchRow

/-- The same where the scratch row may have moved too. -/
structure Tallied (s : Arena β) : Prop where
  width : ∀ row, (s.host row).length = s.geometry.pagesPerSlot
  nodup : ∀ row, (s.host row).Nodup
  refCnt : ∀ page, s.refCnt page = holders s page
  unheld : ∀ page ∈ s.free, s.refCnt page = 0
  freeNodup : s.free.Nodup

theorem Counted.tallied (h : Counted s) : Tallied s := ⟨h.width, h.nodup, h.refCnt, h.unheld, h.freeNodup⟩

section Counting

theorem holders_pos (hslot : slot < s.geometry.numRows) (hmem : page ∈ s.host slot) : 0 < holders s page := by
  rw [holders, countP_pos_iff]
  exact ⟨slot, mem_range.mpr hslot, by simpa using hmem⟩

/-- A page of two rows. -/
theorem one_lt_holders {row : Nat} (hne : row ≠ slot) (hrow : row < s.geometry.numRows)
    (hslot : slot < s.geometry.numRows)
    (hmemRow : page ∈ s.host row) (hmem : page ∈ s.host slot) : 1 < holders s page := by
  let other : Nat → Bool := fun row => decide (page ∈ s.host row) && decide (row ≠ slot)
  have hother : 0 < (range s.geometry.numRows).countP other := by
    rw [countP_pos_iff]
    exact ⟨row, mem_range.mpr hrow, by simp [other, hmemRow, hne]⟩
  have hupdate := Ledger.countP_range_update (p := fun row => decide (page ∈ s.host row)) (q := other) hslot
    (by
      intro i hi
      simp [other, hi])
  have hself : other slot = false := by simp [other]
  rw [hself, decide_eq_true hmem, Bool.toNat_true, Bool.toNat_false, add_zero] at hupdate
  rw [holders]
  omega

theorem holders_update (hslot : slot < s.geometry.numRows) (pages : List Nat) (page : Nat) :
    holders { s with host := update s.host slot pages } page + (decide (page ∈ s.host slot)).toNat =
      holders s page + (decide (page ∈ pages)).toNat := by
  have hupdate := Ledger.countP_range_update (p := fun row => decide (page ∈ s.host row))
    (q := fun row => decide (page ∈ update s.host slot pages row)) hslot
    (by
      intro i hi
      rw [update_of_ne hi])
  rwa [update_self] at hupdate

/-- At first every page is in the one row that it belongs to. -/
theorem counted_start (g : Geometry) (kv : Nat → Nat → β) : Counted (start g kv) := by
  have hrow : ∀ row page, page ∈ g.initialRow row ↔ row * g.pagesPerSlot ≤ page ∧
      page < row * g.pagesPerSlot + g.pagesPerSlot :=
    fun row page => mem_range'_1
  constructor
  · exact fun row => length_range'
  · exact fun row => nodup_range'
  · intro page
    change (if page < g.totalPages then 1 else 0) =
      (range g.numRows).countP fun row => decide (page ∈ g.initialRow row)
    by_cases hpos : g.pagesPerSlot = 0
    · rw [countP_eq_zero.mpr, if_neg (by simp [Geometry.totalPages, hpos])]
      intro row _
      simp [Geometry.initialRow, hpos]
    have hpos := Nat.pos_of_ne_zero hpos
    have hown : ∀ row, page ∈ g.initialRow row ↔ row = page / g.pagesPerSlot := by
      intro row
      rw [hrow, ← Nat.succ_mul, ← Nat.le_div_iff_mul_le hpos, ← Nat.div_lt_iff_lt_mul hpos]
      omega
    have hcount : (range g.numRows).countP (fun row => decide (page ∈ g.initialRow row)) =
        (range g.numRows).count (page / g.pagesPerSlot) := by
      apply countP_congr
      intro row _
      simp [hown]
    rw [hcount, count_range, Geometry.totalPages]
    simp only [Nat.div_lt_iff_lt_mul hpos]
  · exact fun page hpage => absurd hpage not_mem_nil
  · exact nodup_nil
  · rfl

end Counting

section Releases

variable {pages : List Nat}

theorem foldl_release (hnodup : pages.Nodup) (s : Arena β) :
    (∀ page, (pages.foldl release s).refCnt page = s.refCnt page - (decide (page ∈ pages)).toNat) ∧
      (∀ page ∈ (pages.foldl release s).free, page ∈ s.free ∨ page ∈ pages ∧ s.refCnt page - 1 = 0) ∧
      (s.free.Nodup → (pages.foldl release s).free.Nodup) ∧
      pages.foldl release s =
        { s with refCnt := (pages.foldl release s).refCnt, free := (pages.foldl release s).free } := by
  induction pages generalizing s with
  | nil => simp
  | cons first pages ih =>
    obtain ⟨hfirst, hnodup⟩ := nodup_cons.mp hnodup
    obtain ⟨hcount, hfree, hfreeNodup, hframe⟩ := ih hnodup (release s first)
    have hother : ∀ page ∈ pages, (release s first).refCnt page = s.refCnt page := by
      intro page hpage
      have hne : page ≠ first := by
        rintro rfl
        exact hfirst hpage
      exact update_of_ne hne _ _
    rw [foldl_cons]
    constructor
    · intro page
      rw [hcount page]
      by_cases hpage : page = first
      · subst hpage
        simp [release, hfirst]
      · simp [release, hpage]
    constructor
    · intro page hpage
      cases hfree page hpage with
      | inl hmem =>
        simp only [release] at hmem
        split at hmem
        next hzero =>
          cases mem_insert_iff.mp hmem with
          | inl heq => exact .inr ⟨heq ▸ mem_cons_self, heq ▸ hzero⟩
          | inr hmem => exact .inl hmem
        next => exact .inl hmem
      | inr hlate =>
        rw [hother page hlate.1] at hlate
        exact .inr ⟨mem_cons_of_mem _ hlate.1, hlate.2⟩
    constructor
    · intro hs
      apply hfreeNodup
      simp only [release]
      split
      · exact hs.insert
      · exact hs
    · rw [hframe]
      rfl

theorem foldl_retain (hnodup : pages.Nodup) (s : Arena β) :
    (∀ page, (pages.foldl retain s).refCnt page = s.refCnt page + (decide (page ∈ pages)).toNat) ∧
      (s.free.Nodup → (pages.foldl retain s).free.Nodup ∧
        ∀ page ∈ (pages.foldl retain s).free, page ∈ s.free ∧ page ∉ pages) ∧
      pages.foldl retain s =
        { s with refCnt := (pages.foldl retain s).refCnt, free := (pages.foldl retain s).free } := by
  induction pages generalizing s with
  | nil => simp
  | cons first pages ih =>
    obtain ⟨hfirst, hnodup⟩ := nodup_cons.mp hnodup
    obtain ⟨hcount, hfree, hframe⟩ := ih hnodup (retain s first)
    rw [foldl_cons]
    constructor
    · intro page
      rw [hcount page]
      by_cases hpage : page = first
      · subst hpage
        simp [retain, hfirst]
      · simp [retain, hpage]
    constructor
    · intro hs
      obtain ⟨hfreeNodup, hmem⟩ := hfree (hs.erase first)
      refine ⟨hfreeNodup, fun page hpage => ?_⟩
      obtain ⟨hkept, hnot⟩ := hmem page hpage
      obtain ⟨hne, hkept⟩ := hs.mem_erase_iff.mp hkept
      exact ⟨hkept, by simp [hne, hnot]⟩
    · rw [hframe]
      rfl

/-- Only the row, the counts and the free pages change. -/
theorem remap_frame (hold : (s.host slot).Nodup) (hnodup : pages.Nodup) :
    remap slot pages s =
      { s with
        host := update s.host slot pages
        refCnt := (pages.foldl retain ((s.host slot).foldl release s)).refCnt
        free := (pages.foldl retain ((s.host slot).foldl release s)).free } := by
  rw [remap, (foldl_retain hnodup ((s.host slot).foldl release s)).2.2, (foldl_release hold s).2.2.2]

/-- A row can be replaced by any other without repetitions. -/
theorem Tallied.remap (h : Tallied s) (hrow : slot < s.geometry.numRows)
    (hlength : pages.length = s.geometry.pagesPerSlot) (hnodup : pages.Nodup) : Tallied (remap slot pages s) := by
  obtain ⟨hcountOld, hfreeOld, hnodupOld, -⟩ := foldl_release (h.nodup slot) s
  obtain ⟨hcountNew, hfreeNew, -⟩ := foldl_retain hnodup ((s.host slot).foldl release s)
  obtain ⟨hfreeNodup, hfreeNew⟩ := hfreeNew (hnodupOld h.freeNodup)
  have hframe := remap_frame (h.nodup slot) hnodup
  have hcount : ∀ page, (FixedArena.remap slot pages s).refCnt page = holders (FixedArena.remap slot pages s) page := by
    intro page
    have hupdate := holders_update hrow pages page
    have hheld : page ∈ s.host slot → 0 < holders s page := holders_pos hrow
    rw [hframe]
    change (pages.foldl retain ((s.host slot).foldl release s)).refCnt page =
      holders { s with host := update s.host slot pages } page
    rw [hcountNew, hcountOld, h.refCnt]
    by_cases hold : page ∈ s.host slot
    · have := hheld hold
      simp only [hold, decide_true, Bool.toNat_true] at hupdate ⊢
      omega
    · simp only [hold, decide_false, Bool.toNat_false] at hupdate ⊢
      omega
  constructor
  · intro row
    rw [hframe]
    by_cases hr : row = slot
    · subst hr
      simpa using hlength
    · simpa [hr] using h.width row
  · intro row
    rw [hframe]
    by_cases hr : row = slot
    · subst hr
      simpa using hnodup
    · simpa [hr] using h.nodup row
  · exact hcount
  · intro page hpage
    rw [hframe] at hpage ⊢
    obtain ⟨hkept, hnot⟩ := hfreeNew page hpage
    change (pages.foldl retain ((s.host slot).foldl release s)).refCnt page = 0
    rw [hcountNew, hcountOld]
    cases hfreeOld page hkept with
    | inl hfree => simp [hnot, h.unheld page hfree]
    | inr hgone => simp [hnot, hgone.1, hgone.2]
  · rw [hframe]
    exact hfreeNodup

/-- The row of a slot leaves the scratch row alone. -/
theorem Counted.remap (h : Counted s) (hslot : slot < s.geometry.numSlots)
    (hlength : pages.length = s.geometry.pagesPerSlot) (hnodup : pages.Nodup) : Counted (remap slot pages s) := by
  obtain ⟨hwidth, hnodup', hrefCnt, hunheld, hfreeNodup⟩ := h.tallied.remap (Nat.lt_succ_of_lt hslot) hlength hnodup
  refine ⟨hwidth, hnodup', hrefCnt, hunheld, hfreeNodup, ?_⟩
  have hne : s.geometry.scratchRow ≠ slot := (ne_of_lt hslot).symm
  rw [remap_frame (h.nodup slot) hnodup]
  change update s.host slot pages s.geometry.scratchRow = _
  rw [update_of_ne hne]
  exact h.scratch

/-- One row shows other pages. -/
structure Remapped (s : Arena β) (slot : Nat) (pages : List Nat) (s' : Arena β) : Prop where
  counted : Counted s'
  geometry : s'.geometry = s.geometry
  host : s'.host = update s.host slot pages
  kvLen : s'.kvLen = s.kvLen
  kv : s'.kv = s.kv

theorem setPageTableRow_ends (h : Counted s) (hslot : slot < s.geometry.numSlots) (pages : List Nat) :
    Ends (fun _ => Remapped s slot pages) (fun s' => s' = s) (setPageTableRow slot pages s) := by
  rw [setPageTableRow, bind_of_ok (get_apply s)]
  apply ends_raiseIf_bind
  · exact fun _ => rfl
  intro _
  apply ends_raiseIf_bind
  · exact fun _ => rfl
  intro hlength
  apply ends_raiseIf_bind
  · exact fun _ => rfl
  intro _
  apply ends_raiseIf_bind
  · exact fun _ => rfl
  intro hnodup
  have hframe := remap_frame (h.nodup slot) (not_not.mp hnodup)
  rw [modify_apply, ends_ok]
  exact ⟨h.remap hslot (not_not.mp hlength) (not_not.mp hnodup), by rw [hframe], by rw [hframe], by rw [hframe],
    by rw [hframe]⟩

end Releases

section Detach

variable {pages : List Nat} {wanted : Nat → Bool} {e : ArenaError}

/-- What the loop has done behind some of its pages. -/
structure Detaching (s : Arena β) (slot : Nat) (wanted : Nat → Bool) (done : List Nat)
    (acc : List Nat × List (Nat × Nat)) (s₁ : Arena β) : Prop where
  frame : s₁ = { s with free := s₁.free }
  freeNodup : s₁.free.Nodup
  free : ∀ page ∈ s₁.free, page ∈ s.free
  length : acc.1.length = (s.host slot).length
  targets : (acc.2.map Prod.snd).Nodup
  fresh : ∀ r ∈ acc.2, r.2 ∈ s.free ∧ r.2 ∉ s₁.free
  sources : ∀ r ∈ acc.2, 0 < s.refCnt r.1
  entry : ∀ i, acc.1.getD i 0 = (s.host slot).getD i 0 ∨ ((s.host slot).getD i 0, acc.1.getD i 0) ∈ acc.2
  unshared : ∀ i ∈ done, wanted ((s.host slot).getD i 0) = false ∨ s.refCnt ((s.host slot).getD i 0) ≤ 1 ∨
    ((s.host slot).getD i 0, acc.1.getD i 0) ∈ acc.2

/-- What a call that raises leaves: the rows, and the bytes of the pages that they show. -/
structure Unmoved (s s' : Arena β) : Prop where
  counted : Counted s'
  geometry : s'.geometry = s.geometry
  host : s'.host = s.host
  kvLen : s'.kvLen = s.kvLen
  kv : ∀ page, 0 < s.refCnt page → s'.kv page = s.kv page

/-- What a detach leaves: pages that nobody showed in the place of some entries of one row. -/
structure Detached (s : Arena β) (slot : Nat) (pages : List Nat) (wanted : Nat → Bool) (s' : Arena β) : Prop where
  counted : Counted s'
  geometry : s'.geometry = s.geometry
  kvLen : s'.kvLen = s.kvLen
  other : ∀ row, row ≠ slot → s'.host row = s.host row
  entry : ∀ i, (s'.host slot).getD i 0 = (s.host slot).getD i 0 ∨ (s'.host slot).getD i 0 ∈ s.free
  unshared : ∀ i ∈ pages, wanted ((s.host slot).getD i 0) = false ∨ s.refCnt ((s.host slot).getD i 0) ≤ 1 ∨
    (s'.host slot).getD i 0 ∈ s.free
  kv : ∀ row, row < s.geometry.numRows → ∀ i, i < s.geometry.pagesPerSlot →
    s'.kv ((s'.host row).getD i 0) = s.kv ((s.host row).getD i 0)

section

variable (h : Counted s)
include h

theorem Counted.shrink {free : List Nat} (hnodup : free.Nodup) (hfree : ∀ page ∈ free, page ∈ s.free)
    (kv : Nat → Nat → β) : Counted { s with free := free, kv := kv } :=
  ⟨h.width, h.nodup, h.refCnt, fun page hpage => h.unheld page (hfree page hpage), hnodup, h.scratch⟩

theorem Counted.entry_mem {i : Nat} (hi : i < s.geometry.pagesPerSlot) (row : Nat) :
    (s.host row).getD i 0 ∈ s.host row := by
  have hlength : i < (s.host row).length := by rwa [h.width row]
  rw [getD_eq_getElem?_getD, getElem?_eq_getElem hlength]
  exact getElem_mem hlength

theorem Counted.entry_held {row i : Nat} (hrow : row < s.geometry.numRows)
    (hi : i < s.geometry.pagesPerSlot) : 0 < s.refCnt ((s.host row).getD i 0) := by
  rw [h.refCnt]
  exact holders_pos hrow (h.entry_mem hi row)

theorem Unmoved.refl : Unmoved s s := ⟨h, rfl, rfl, rfl, fun _ _ => rfl⟩

theorem Detaching.unmoved {done : List Nat} {acc : List Nat × List (Nat × Nat)}
    (hd : Detaching s slot wanted done acc s') : Unmoved s s' := by
  have hcounted := h.shrink hd.freeNodup hd.free s.kv
  rw [hd.frame]
  exact ⟨hcounted, rfl, rfl, rfl, fun _ _ => rfl⟩

end

theorem detachOne_ends (h : ∀ page ∈ s.free, s.refCnt page = 0) {done : List Nat} {acc : List Nat × List (Nat × Nat)}
    {s₁ : Arena β} (hd : Detaching s slot wanted done acc s₁) (hpage : page < (s.host slot).length) :
    Ends (Detaching s slot wanted (done ++ [page])) (fun s' => s' = s₁) (detachOne wanted e acc page s₁) := by
  have hrefCnt : s₁.refCnt = s.refCnt := by rw [hd.frame]
  rw [detachOne, bind_of_ok (get_apply s₁), hrefCnt]
  by_cases hskip : wanted (acc.1.getD page 0) = false ∨ s.refCnt (acc.1.getD page 0) ≤ 1
  · rw [if_pos hskip]
    refine ⟨hd.frame, hd.freeNodup, hd.free, hd.length, hd.targets, hd.fresh, hd.sources, hd.entry, ?_⟩
    intro i hi
    cases mem_append.mp hi with
    | inl hdone => exact hd.unshared i hdone
    | inr hlast =>
      obtain rfl := mem_singleton.mp hlast
      cases hd.entry i with
      | inl hsame => exact (hsame ▸ hskip).imp_right .inl
      | inr hreplaced => exact .inr (.inr hreplaced)
  rw [if_neg hskip]
  obtain ⟨hwanted, hshared⟩ := not_or.mp hskip
  -- A page that a replacement has put there is shown by nobody, so this one is the row's own entry.
  have hsource : acc.1.getD page 0 = (s.host slot).getD page 0 := by
    cases hd.entry page with
    | inl hsame => exact hsame
    | inr hreplaced =>
      have hunheld : s.refCnt (acc.1.getD page 0) = 0 := h _ (hd.fresh _ hreplaced).1
      omega
  cases hmin : s₁.free.min? with
  | none => exact rfl
  | some target =>
    have htarget : target ∈ s₁.free := min?_mem hmin
    have hnotTarget : target ∉ acc.2.map Prod.snd := by
      intro hmem
      obtain ⟨r, hr, rfl⟩ := mem_map.mp hmem
      exact (hd.fresh r hr).2 htarget
    have hset : ∀ i, (acc.1.set page target).getD i 0 = if i = page then target else acc.1.getD i 0 := by
      intro i
      by_cases hi : i = page
      · subst hi
        simp [getD_eq_getElem?_getD, hd.length, hpage]
      · simp [getD_eq_getElem?_getD, Ne.symm hi, hi]
    have hlast : ((s.host slot).getD page 0, target) ∈ acc.2 ++ [(acc.1.getD page 0, target)] := by
      rw [← hsource]
      exact mem_append_right _ mem_cons_self
    dsimp only
    rw [bind_of_ok (set_apply _ s₁)]
    constructor
    · rw [hd.frame]
    · exact hd.freeNodup.erase target
    · exact fun other hother => hd.free other (mem_of_mem_erase hother)
    · simpa using hd.length
    · rw [map_append]
      exact nodup_append.mpr ⟨hd.targets, nodup_singleton _, by
        rintro other hother _ hlast rfl
        obtain rfl := mem_singleton.mp hlast
        exact hnotTarget hother⟩
    · intro r hr
      cases mem_append.mp hr with
      | inl hr => exact ⟨(hd.fresh r hr).1, fun hmem => (hd.fresh r hr).2 (mem_of_mem_erase hmem)⟩
      | inr hr =>
        obtain rfl := mem_singleton.mp hr
        exact ⟨hd.free target htarget, hd.freeNodup.not_mem_erase⟩
    · intro r hr
      cases mem_append.mp hr with
      | inl hr => exact hd.sources r hr
      | inr hr =>
        obtain rfl := mem_singleton.mp hr
        exact Nat.lt_of_lt_of_le Nat.one_pos (Nat.le_of_lt (Nat.lt_of_not_le hshared))
    · intro i
      rw [hset]
      by_cases hi : i = page
      · rw [if_pos hi, hi]
        exact .inr hlast
      · rw [if_neg hi]
        exact (hd.entry i).imp_right fun hmem => mem_append_left _ hmem
    · intro i hi
      rw [hset]
      by_cases hip : i = page
      · rw [if_pos hip, hip]
        exact .inr (.inr hlast)
      rw [if_neg hip]
      cases mem_append.mp hi with
      | inl hdone => exact (hd.unshared i hdone).imp_right fun h => h.imp_right fun hmem => mem_append_left _ hmem
      | inr hlast => exact absurd (mem_singleton.mp hlast) hip

/-- The copies of pages that are not written in between. -/
theorem foldl_clone {γ : Type} {replacements : List (Nat × Nat)} (hnodup : (replacements.map Prod.snd).Nodup)
    (hsources : ∀ r ∈ replacements, r.1 ∉ replacements.map Prod.snd) (kv : Nat → γ) :
    (∀ page, page ∉ replacements.map Prod.snd →
      replacements.foldl (fun kv r => update kv r.2 (kv r.1)) kv page = kv page) ∧
      ∀ r ∈ replacements, replacements.foldl (fun kv r => update kv r.2 (kv r.1)) kv r.2 = kv r.1 := by
  induction replacements generalizing kv with
  | nil => simp
  | cons first rest ih =>
    rw [map_cons, nodup_cons] at hnodup
    obtain ⟨hother, hcopied⟩ := ih hnodup.2
      (fun r hr hmem => hsources r (mem_cons_of_mem _ hr) (mem_cons_of_mem _ hmem))
      (update kv first.2 (kv first.1))
    constructor
    · intro page hpage
      rw [map_cons, mem_cons, not_or] at hpage
      rw [foldl_cons, hother page hpage.2, update_of_ne hpage.1]
    · intro r hr
      rw [foldl_cons]
      cases mem_cons.mp hr with
      | inl hfirst =>
        subst hfirst
        rw [hother r.2 hnodup.1, update_self]
      | inr hrest =>
        have hne : r.1 ≠ first.2 := by
          intro heq
          exact hsources r hr (heq ▸ mem_cons_self)
        rw [hcopied r hrest, update_of_ne hne]

theorem detach_ends (h : Counted s) (hslot : slot < s.geometry.numSlots)
    (hpages : ∀ i ∈ pages, i < s.geometry.pagesPerSlot) :
    Ends (fun _ => Detached s slot pages wanted) (Unmoved s) (detach slot pages wanted e s) := by
  have hrow : slot < s.geometry.numRows := Nat.lt_succ_of_lt hslot
  rw [detach, pageRow, bind_assoc, bind_of_ok (get_apply s)]
  rw [bind_assoc, bind_of_ok (raiseIf_of_not (not_le.mpr hrow) s), pure_bind]
  apply ends_bind (P := Detaching s slot wanted pages)
  · apply ends_foldlM (I := fun done => Detaching s slot wanted done)
    · intro done i rest acc s₁ hsplit hdone
      have hi : i ∈ pages := hsplit ▸ mem_append_right _ mem_cons_self
      apply (detachOne_ends h.unheld hdone (by simpa [h.width slot] using hpages i hi)).mono fun _ _ => id
      rintro _ rfl
      exact hdone.unmoved h
    · exact ⟨rfl, h.freeNodup, fun _ hpage => hpage, rfl, nodup_nil, by simp, by simp, fun _ => .inl rfl, by simp⟩
  rintro ⟨row, replacements⟩ s₁ hd
  have hentry : ∀ i, row.getD i 0 = (s.host slot).getD i 0 ∨ row.getD i 0 ∈ s.free := fun i =>
    (hd.entry i).imp_right fun hmem => (hd.fresh _ hmem).1
  have hunshared : ∀ i ∈ pages, wanted ((s.host slot).getD i 0) = false ∨ s.refCnt ((s.host slot).getD i 0) ≤ 1 ∨
      row.getD i 0 ∈ s.free := fun i hi =>
    (hd.unshared i hi).imp_right fun h => h.imp_right fun hmem => (hd.fresh _ hmem).1
  by_cases hnone : replacements = []
  · subst hnone
    have hrowEntry : ∀ i, row.getD i 0 = (s.host slot).getD i 0 := fun i => (hd.entry i).resolve_right not_mem_nil
    have hunmoved := hd.unmoved h
    refine ⟨hunmoved.counted, hunmoved.geometry, hunmoved.kvLen, fun row _ => by rw [hunmoved.host], fun i => ?_,
      fun i hi => ?_, fun row hrow i hi => ?_⟩
    · exact .inl (by rw [hunmoved.host])
    · exact (hd.unshared i hi).imp_right fun h => h.imp_right fun hmem => absurd hmem not_mem_nil
    · rw [hunmoved.host]
      exact hunmoved.kv _ (h.entry_held hrow hi)
  have hheld : ∀ p, 0 < s.refCnt p → p ∉ replacements.map Prod.snd := by
    intro p hp hmem
    obtain ⟨r, hr, rfl⟩ := mem_map.mp hmem
    have := h.unheld _ (hd.fresh r hr).1
    omega
  have hkv : s₁.kv = s.kv := by rw [hd.frame]
  obtain ⟨hother, hcopied⟩ := foldl_clone hd.targets (fun r hr => hheld _ (hd.sources r hr)) s₁.kv
  rw [hkv] at hother hcopied
  have hframe : clonePages replacements s₁ = { s with free := s₁.free, kv := (clonePages replacements s₁).kv } := by
    rw [clonePages, hd.frame]
  have hclone : ∀ p, (clonePages replacements s₁).kv p =
      replacements.foldl (fun kv r => update kv r.2 (kv r.1)) s.kv p := by
    intro p
    rw [clonePages, hkv]
  have hunmoved : Unmoved s (clonePages replacements s₁) := by
    have hcounted := h.shrink hd.freeNodup hd.free (clonePages replacements s₁).kv
    rw [← hframe] at hcounted
    refine ⟨hcounted, by rw [hframe], by rw [hframe], by rw [hframe], fun p hp => ?_⟩
    rw [hclone, hother p (hheld p hp)]
  dsimp only
  rw [if_neg hnone, bind_of_ok (modify_apply _ s₁)]
  apply ends_bind ((setPageTableRow_ends hunmoved.counted (by rwa [hunmoved.geometry]) row).weaken
    fun s₂ hs₂ => hs₂ ▸ hunmoved)
  intro _ s₂ hremap
  have hhost : s₂.host = update s.host slot row := by rw [hremap.host, hunmoved.host]
  constructor
  · exact hremap.counted
  · exact hremap.geometry.trans hunmoved.geometry
  · exact hremap.kvLen.trans hunmoved.kvLen
  · intro other hne
    rw [hhost, update_of_ne hne]
  · intro i
    rw [hhost, update_self]
    exact hentry i
  · intro i hi
    rw [hhost, update_self]
    exact hunshared i hi
  · intro other hother' i hi
    rw [hhost, hremap.kv, hclone]
    by_cases hslot' : other = slot
    · subst hslot'
      rw [update_self]
      cases hd.entry i with
      | inl hsame =>
        rw [show row.getD i 0 = (s.host other).getD i 0 from hsame]
        exact hother _ (hheld _ (h.entry_held hother' hi))
      | inr hreplaced => exact hcopied _ hreplaced
    · rw [update_of_ne hslot']
      exact hother _ (hheld _ (h.entry_held hother' hi))

/-- Where nothing is shared, nothing is replaced. -/
theorem detach_of_unshared (hslot : slot < s.geometry.numRows)
    (hunshared : ∀ i ∈ pages, s.refCnt ((s.host slot).getD i 0) ≤ 1) :
    detach slot pages wanted e s = .ok false s := by
  have hloop : pages.foldlM (detachOne wanted e) (s.host slot, []) s = .ok (s.host slot, []) s := by
    induction pages with
    | nil => rfl
    | cons i pages ih =>
      have hfirst : detachOne wanted e (s.host slot, []) i s = .ok (s.host slot, []) s := by
        rw [detachOne, bind_of_ok (get_apply s)]
        dsimp only
        rw [if_pos (.inr (hunshared i mem_cons_self))]
        rfl
      rw [foldlM_cons, bind_of_ok hfirst]
      exact ih fun j hj => hunshared j (mem_cons_of_mem _ hj)
  rw [detach, pageRow, bind_assoc, bind_of_ok (get_apply s), bind_assoc,
    bind_of_ok (raiseIf_of_not (not_le.mpr hslot) s), pure_bind, bind_of_ok hloop]
  rfl

end Detach

section Pages

variable {g : Geometry} {i n start length position : Nat}

theorem Geometry.lt_pages_iff : i < g.pages n ↔ i * g.pageSize < n := by
  have hpos := g.pageSize_pos
  rw [Geometry.pages, ← Nat.succ_le_iff, Nat.le_div_iff_mul_le hpos, Nat.succ_mul]
  omega

theorem Geometry.pages_le (h : n ≤ g.maxSeqLen) : g.pages n ≤ g.pagesPerSlot := by
  by_contra hlt
  have hlast := Geometry.lt_pages_iff.mp (not_le.mp hlt)
  rw [Geometry.maxSeqLen] at h
  omega

theorem Geometry.page_lt (h : position < g.maxSeqLen) : position / g.pageSize < g.pagesPerSlot :=
  Nat.div_lt_of_lt_mul (by rwa [mul_comm, ← Geometry.maxSeqLen])

theorem Geometry.touched_lt (hlength : length ≠ 0) (h : start + length ≤ g.maxSeqLen)
    (hi : i ∈ g.touched start length) :
    i < g.pagesPerSlot := by
  obtain ⟨hlow, hhigh⟩ := mem_range'_1.mp hi
  have hlast : (start + length - 1) / g.pageSize < g.pagesPerSlot := Geometry.page_lt (by omega)
  omega

/-- The pages of a write that starts at a position, and those in front of it. -/
theorem Geometry.page_cases (hi : i < g.pages (start + length)) :
    i < g.pages start ∨ i ∈ g.touched start length := by
  have hpos := g.pageSize_pos
  have hin := Geometry.lt_pages_iff.mp hi
  by_cases hbefore : i < start / g.pageSize
  · left
    rw [Geometry.lt_pages_iff]
    have := (Nat.le_div_iff_mul_le hpos).mp (Nat.succ_le_of_lt hbefore)
    rw [Nat.succ_mul] at this
    omega
  · right
    have hhigh : i ≤ (start + length - 1) / g.pageSize := (Nat.le_div_iff_mul_le hpos).mpr (by omega)
    exact mem_range'_1.mpr ⟨not_lt.mp hbefore, by omega⟩

end Pages

section Prepare

variable {start length position row : Nat} {pages : List Nat} {wanted : Nat → Bool}

theorem Detached.refl (h : Counted s) (slot : Nat) (wanted : Nat → Bool) : Detached s slot [] wanted s :=
  ⟨h, rfl, rfl, fun _ _ => rfl, fun _ => .inl rfl, by simp, fun _ _ _ _ => rfl⟩

theorem prepareKvWrites_ends (h : Counted s) (hslot : slot < s.geometry.numSlots) (start length : Nat) :
    Ends (fun _ s' => start + length ≤ s.geometry.maxSeqLen ∧
        Detached s slot (if length = 0 then [] else s.geometry.touched start length) (fun _ => true) s')
      (Unmoved s) (prepareKvWrites slot start length s) := by
  rw [prepareKvWrites, bind_of_ok (get_apply s)]
  apply ends_raiseIf_bind
  · exact fun _ => Unmoved.refl h
  intro hbound
  by_cases hlength : length = 0
  · rw [if_pos hlength, if_pos hlength]
    exact ⟨not_lt.mp hbound, Detached.refl h slot _⟩
  rw [if_neg hlength, if_neg hlength]
  apply ends_bind (detach_ends h hslot fun i hi => Geometry.touched_lt hlength (not_lt.mp hbound) hi)
  intro _ s₁ hdetached
  exact ⟨not_lt.mp hbound, hdetached⟩

theorem detachScratchAliases_ends (h : Counted s) (slot kvLen : Nat) (offsets : List Nat) :
    Ends (fun _ s' => ∃ pages wanted, slot < s.geometry.numSlots ∧ Detached s slot pages wanted s') (Unmoved s)
      (detachScratchAliases slot kvLen offsets s) := by
  rw [detachScratchAliases, bind_of_ok (get_apply s)]
  apply ends_raiseIf_bind
  · exact fun _ => Unmoved.refl h
  intro hslot
  apply ends_raiseIf_bind
  · exact fun _ => Unmoved.refl h
  intro hlen
  apply ends_raiseIf_bind
  · exact fun _ => Unmoved.refl h
  intro _
  have hpages := Geometry.pages_le (not_lt.mp (not_or.mp hlen).2)
  apply (detach_ends h (not_le.mp hslot) ?_).mono
  · intro _ s₁ hdetached
    exact ⟨_, _, not_le.mp hslot, hdetached⟩
  · exact fun _ => id
  · intro i hi
    have := mem_range.mp hi
    split at this <;> omega

/-- A detach changes nothing that any row reads. -/
theorem Detached.reads (hd : Detached s slot pages wanted s') (hrow : row < s.geometry.numRows)
    (hposition : position < s.geometry.maxSeqLen) : reads s' row position = reads s row position := by
  rw [FixedArena.reads, FixedArena.reads, hd.geometry, hd.kv row hrow _ (Geometry.page_lt hposition)]

theorem Unmoved.reads (h : Counted s) (hu : Unmoved s s') (hrow : row < s.geometry.numRows)
    (hposition : position < s.geometry.maxSeqLen) : reads s' row position = reads s row position := by
  rw [FixedArena.reads, FixedArena.reads, hu.geometry, hu.host,
    hu.kv _ (h.entry_held hrow (Geometry.page_lt hposition))]

end Prepare

section Scratch

variable {offset i : Nat} {pages : List Nat} {wanted : Nat → Bool}

theorem Counted.scratchPage_mem (h : Counted s) (hoffset : offset < s.geometry.pagesPerSlot) :
    s.geometry.scratchPage offset ∈ s.host s.geometry.scratchRow := by
  rw [h.scratch]
  exact mem_range'_1.mpr ⟨Nat.le_add_right _ _, Nat.add_lt_add_left hoffset _⟩

/-- A detach never brings a scratch page in. -/
theorem Counted.scratchPage_not_free (h : Counted s) (hoffset : offset < s.geometry.pagesPerSlot) :
    s.geometry.scratchPage offset ∉ s.free := by
  intro hfree
  have hheld := holders_pos (Nat.lt_succ_self _) (h.scratchPage_mem hoffset)
  rw [← h.refCnt, h.unheld _ hfree] at hheld
  exact lt_irrefl 0 hheld

/-- A slot's row with a scratch page shares it with the scratch row. -/
theorem Counted.scratchPage_shared (h : Counted s) (hslot : slot < s.geometry.numSlots)
    (hoffset : offset < s.geometry.pagesPerSlot) (hmem : s.geometry.scratchPage offset ∈ s.host slot) :
    1 < s.refCnt (s.geometry.scratchPage offset) := by
  rw [h.refCnt]
  exact one_lt_holders (ne_of_gt hslot) (Nat.lt_succ_self _) (Nat.lt_succ_of_lt hslot) (h.scratchPage_mem hoffset) hmem

theorem Detached.not_scratch (h : Counted s) (hd : Detached s slot pages wanted s')
    (hoffset : offset < s.geometry.pagesPerSlot) (hi : (s.host slot).getD i 0 ≠ s.geometry.scratchPage offset) :
    (s'.host slot).getD i 0 ≠ s.geometry.scratchPage offset := by
  intro heq
  cases hd.entry i with
  | inl hsame => exact hi (hsame ▸ heq)
  | inr hfree => exact h.scratchPage_not_free hoffset (heq ▸ hfree)

end Scratch

end FixedArena
