import Mathlib.Data.List.GetD
import Mathlib.Data.List.Induction
import BlackweLLM.ArenaAliases

/-!
# The balance of the fixed arena

There are as many pages as entries in the page table. A page that rows share is therefore
paid for by pages that no row shows, and a detach, which takes one free page for each
shared entry of one row, always finds them.
-/

namespace FixedArena

open List Function RaisingState

variable {β : Type} {s s' s₁ : Arena β} {slot page : Nat}

/-- The rows stay inside the pool, and the free pages are those without a reference. -/
structure Balanced (s : Arena β) : Prop extends Tallied s where
  inRange : ∀ row < s.geometry.numRows, ∀ page ∈ s.host row, page < s.geometry.totalPages
  free_iff : ∀ page, page ∈ s.free ↔ page < s.geometry.totalPages ∧ s.refCnt page = 0

section Totals

theorem sum_refCnt (h : Balanced s) :
    ((range s.geometry.totalPages).map s.refCnt).sum =
      ((range s.geometry.numRows).map fun row => (s.host row).length).sum := by
  have hnodup : ∀ row ∈ (range s.geometry.numRows).map s.host, row.Nodup := by
    intro row hrow
    obtain ⟨slot, -, rfl⟩ := mem_map.mp hrow
    exact h.nodup slot
  have hlt : ∀ row ∈ (range s.geometry.numRows).map s.host, ∀ page ∈ row, page < s.geometry.totalPages := by
    intro row hrow
    obtain ⟨slot, hslot, rfl⟩ := mem_map.mp hrow
    exact h.inRange slot (mem_range.mp hslot)
  have hrows := Ledger.sum_countP_mem s.geometry.totalPages hnodup hlt
  rw [map_map] at hrows
  refine Eq.trans ?_ hrows
  congr 1
  apply map_congr_left
  intro page _
  rw [h.refCnt, holders, countP_map]
  rfl

/-- As many entries as pages. -/
theorem sum_refCnt_eq (h : Balanced s) : ((range s.geometry.totalPages).map s.refCnt).sum = s.geometry.totalPages := by
  rw [sum_refCnt h]
  simp [h.width, Geometry.totalPages]

theorem length_free (h : Balanced s) :
    s.free.length = ((range s.geometry.totalPages).map fun page => s.refCnt page - 1).sum := by
  have hperm : s.free.Perm ((range s.geometry.totalPages).filter fun page => decide (s.refCnt page = 0)) := by
    rw [perm_ext_iff_of_nodup h.freeNodup (nodup_range.filter _)]
    intro page
    rw [h.free_iff, mem_filter, mem_range, decide_eq_true_eq]
  have hsum := Ledger.sum_add_zeros (range s.geometry.totalPages) s.refCnt
  rw [sum_refCnt_eq h, length_range, countP_eq_length_filter, ← hperm.length_eq] at hsum
  omega

/-- Distinct shared pages are not more than the free ones. -/
theorem shared_le_free (h : Balanced s) {pages : List Nat} (hnodup : pages.Nodup)
    (hshared : ∀ page ∈ pages, page < s.geometry.totalPages ∧ 1 < s.refCnt page) : pages.length ≤ s.free.length := by
  have hsub : pages ⊆ (range s.geometry.totalPages).filter fun page => decide (1 < s.refCnt page) := by
    intro page hpage
    obtain ⟨hlt, hone⟩ := hshared page hpage
    exact mem_filter.mpr ⟨mem_range.mpr hlt, decide_eq_true hone⟩
  calc pages.length ≤ _ := (subperm_of_subset hnodup hsub).length_le
    _ = _ := (countP_eq_length_filter).symm
    _ ≤ _ := Ledger.shared_le_excess _ _
    _ = s.free.length := (length_free h).symm

theorem balanced_start (g : Geometry) (kv : Nat → Nat → β) : Balanced (start g kv) := by
  refine ⟨(counted_start g kv).tallied, ?_, ?_⟩
  · intro row hrow page hpage
    obtain ⟨-, hlt⟩ := mem_range'_1.mp hpage
    calc page < row * g.pagesPerSlot + g.pagesPerSlot := hlt
      _ = (row + 1) * g.pagesPerSlot := (Nat.succ_mul row g.pagesPerSlot).symm
      _ ≤ g.totalPages := Nat.mul_le_mul_right _ hrow
  · intro page
    simp only [start, not_mem_nil, false_iff, not_and]
    intro hlt
    rw [if_pos hlt]
    exact Nat.one_ne_zero

end Totals

section Remaps

variable {pages : List Nat}

theorem mem_foldl_release (hnodup : pages.Nodup) (s : Arena β)
    (h : page ∈ s.free ∨ page ∈ pages ∧ s.refCnt page ≤ 1) : page ∈ (pages.foldl release s).free := by
  induction pages generalizing s with
  | nil => exact h.resolve_right fun hno => not_mem_nil hno.1
  | cons first pages ih =>
    obtain ⟨hfirst, hnodup⟩ := nodup_cons.mp hnodup
    rw [foldl_cons]
    apply ih hnodup
    have hkept : page ∈ s.free → page ∈ (release s first).free := by
      intro hmem
      rw [release]
      dsimp only
      split
      · exact mem_insert_of_mem hmem
      · exact hmem
    cases h with
    | inl hmem => exact .inl (hkept hmem)
    | inr hlast =>
      obtain ⟨hmem, hone⟩ := hlast
      cases mem_cons.mp hmem with
      | inl heq =>
        subst heq
        refine .inl ?_
        rw [release]
        dsimp only
        rw [if_pos (by omega)]
        exact mem_insert_self
      | inr hrest =>
        have hne : page ≠ first := fun heq => hfirst (heq ▸ hrest)
        refine .inr ⟨hrest, ?_⟩
        rw [release]
        dsimp only
        rwa [update_of_ne hne]

theorem mem_foldl_retain (s : Arena β) (hmem : page ∈ s.free) (hout : page ∉ pages) :
    page ∈ (pages.foldl retain s).free := by
  induction pages generalizing s with
  | nil => exact hmem
  | cons first pages ih =>
    rw [mem_cons, not_or] at hout
    exact ih (retain s first) ((mem_erase_of_ne hout.1).mpr hmem) hout.2

theorem remap_geometry (hold : (s.host slot).Nodup) (hnodup : pages.Nodup) :
    (remap slot pages s).geometry = s.geometry := by
  rw [remap_frame hold hnodup]

/-- A row can be replaced where each page without a reference is free or taken by the new row. -/
theorem remap_balanced (h : Tallied s)
    (hrange : ∀ row < s.geometry.numRows, ∀ page ∈ s.host row, page < s.geometry.totalPages)
    (hfree : ∀ page ∈ s.free, page < s.geometry.totalPages)
    (hleft : ∀ page < s.geometry.totalPages, s.refCnt page = 0 → page ∈ s.free ∨ page ∈ pages)
    (hslot : slot < s.geometry.numRows) (hlength : pages.length = s.geometry.pagesPerSlot) (hnodup : pages.Nodup)
    (hpages : ∀ page ∈ pages, page < s.geometry.totalPages) : Balanced (remap slot pages s) := by
  have htallied := h.remap hslot hlength hnodup
  have hframe := remap_frame (h.nodup slot) hnodup
  obtain ⟨hcountOld, hfreeOld, hnodupOld, -⟩ := foldl_release (h.nodup slot) s
  obtain ⟨hcountNew, hfreeNew, -⟩ := foldl_retain hnodup ((s.host slot).foldl release s)
  have hgeometry := remap_geometry (h.nodup slot) hnodup
  have hhost : (remap slot pages s).host = update s.host slot pages := by rw [hframe]
  have hfree' : (remap slot pages s).free = (pages.foldl retain ((s.host slot).foldl release s)).free := by rw [hframe]
  have hcount (page : Nat) : (remap slot pages s).refCnt page =
      s.refCnt page - (decide (page ∈ s.host slot)).toNat + (decide (page ∈ pages)).toNat := by
    rw [hframe]
    change (pages.foldl retain ((s.host slot).foldl release s)).refCnt page = _
    rw [hcountNew, hcountOld]
  refine ⟨htallied, ?_, ?_⟩
  · intro row hrow page hpage
    rw [hgeometry] at hrow ⊢
    rw [hhost, update_apply] at hpage
    split_ifs at hpage with hr
    · exact hpages page hpage
    · exact hrange row hrow page hpage
  · intro page
    rw [hgeometry]
    constructor
    · intro hmem
      refine ⟨?_, htallied.unheld page hmem⟩
      rw [hfree'] at hmem
      obtain ⟨hkept, -⟩ := (hfreeNew (hnodupOld h.freeNodup)).2 page hmem
      cases hfreeOld page hkept with
      | inl hold => exact hfree page hold
      | inr hgone => exact hrange slot hslot page hgone.1
    · rintro ⟨hlt, hzero⟩
      rw [hcount] at hzero
      have hout : page ∉ pages := by
        intro hmem
        rw [decide_eq_true hmem, Bool.toNat_true] at hzero
        omega
      rw [hfree']
      apply mem_foldl_retain _ _ hout
      apply mem_foldl_release (h.nodup slot)
      by_cases hold : page ∈ s.host slot
      · rw [decide_eq_true hold, Bool.toNat_true] at hzero
        exact .inr ⟨hold, by omega⟩
      · rw [decide_eq_false hold, Bool.toNat_false] at hzero
        exact .inl ((hleft page hlt (by omega)).resolve_right hout)

/-- The balance is kept, and an error is not one of an exhausted pool. -/
def Keeps {α : Type} (s : Arena β) : EStateM.Result ArenaError (Arena β) α → Prop
  | .ok _ s' => Balanced s' ∧ s'.geometry = s.geometry
  | .error e s' => Balanced s' ∧ s'.geometry = s.geometry ∧ e ≠ .exhausted ∧ e ≠ .detachExhausted

theorem Keeps.raiseIf_bind {α : Type} {c : Prop} [Decidable c] {e : ArenaError} {g : PUnit → ArenaM β α}
    (h : Balanced s) (herr : e ≠ .exhausted ∧ e ≠ .detachExhausted) (hpass : ¬c → Keeps s (g ⟨⟩ s)) :
    Keeps s ((raiseIf c e >>= g) s) := by
  by_cases hc : c
  · rw [bind_of_error (raiseIf_of hc s)]
    exact ⟨h, rfl, herr⟩
  · rw [bind_of_ok (raiseIf_of_not hc s)]
    exact hpass hc

theorem Keeps.balanced {α : Type} {r : EStateM.Result ArenaError (Arena β) α} (h : Keeps s r) :
    Balanced (endState r) := by
  cases r with
  | ok a s' => exact h.1
  | error e s' => exact h.1

theorem setPageTableRow_keeps (h : Balanced s) (slot : Nat) (pages : List Nat) :
    Keeps s (setPageTableRow slot pages s) := by
  rw [setPageTableRow, bind_of_ok (get_apply s)]
  apply Keeps.raiseIf_bind h (by simp)
  intro hrow
  apply Keeps.raiseIf_bind h (by simp)
  intro hlength
  apply Keeps.raiseIf_bind h (by simp)
  intro hin
  apply Keeps.raiseIf_bind h (by simp)
  intro hnodup
  have hframe := remap_frame (h.nodup slot) (not_not.mp hnodup)
  rw [modify_apply]
  refine ⟨?_, by rw [hframe]⟩
  apply remap_balanced h.toTallied h.inRange (fun page hpage => ((h.free_iff page).mp hpage).1)
  · exact fun page hlt hzero => .inl ((h.free_iff page).mpr ⟨hlt, hzero⟩)
  · exact not_le.mp hrow
  · exact not_not.mp hlength
  · exact not_not.mp hnodup
  · exact fun page hpage => not_le.mp fun hle => hin ⟨page, hpage, hle⟩

end Remaps

section Detaches

variable {pages : List Nat} {wanted : Nat → Bool} {e : ArenaError}
variable {acc : List Nat × List (Nat × Nat)}

/-- The loop with its accounts: each replacement took one free page for an entry of the row that is shared. -/
structure Roomy (s : Arena β) (slot : Nat) (wanted : Nat → Bool) (done : List Nat)
    (acc : List Nat × List (Nat × Nat)) (s₁ : Arena β) : Prop extends Detaching s slot wanted done acc s₁ where
  count : s₁.free.length + acc.2.length = s.free.length
  left : ∀ page ∈ s.free, page ∈ s₁.free ∨ page ∈ acc.2.map Prod.snd
  same : ∀ i, i ∉ done → acc.1.getD i 0 = (s.host slot).getD i 0
  placed : ∀ r ∈ acc.2, ∃ i ∈ done, i < (s.host slot).length ∧ (s.host slot).getD i 0 = r.1 ∧ acc.1.getD i 0 = r.2
  distinct : (acc.2.map Prod.fst).Nodup
  shared : ∀ r ∈ acc.2, 1 < s.refCnt r.1
  rowNodup : acc.1.Nodup
  row : ∀ page ∈ acc.1, page ∈ s.host slot ∨ page ∈ s.free ∧ page ∉ s₁.free

theorem getD_mem_row {row : List Nat} {i : Nat} (hi : i < row.length) : row.getD i 0 ∈ row := by
  rw [getD_eq_getElem _ _ hi]
  exact getElem_mem hi

theorem getD_inj_row {row : List Nat} (hnodup : row.Nodup) {i j : Nat} (hi : i < row.length) (hj : j < row.length)
    (heq : row.getD i 0 = row.getD j 0) : i = j := by
  rw [getD_eq_getElem _ _ hi, getD_eq_getElem _ _ hj] at heq
  exact hnodup.getElem_inj_iff.mp heq

section

variable (h : Balanced s) (hslot : slot < s.geometry.numRows) {done : List Nat}
  (hroom : Roomy s slot wanted done acc s₁)
include h hslot hroom

/-- A free page is left for the next shared entry. -/
theorem Roomy.free_ne_nil {i : Nat} (hi : i ∉ done)
    (hlt : i < (s.host slot).length) (hshared : 1 < s.refCnt ((s.host slot).getD i 0)) : s₁.free ≠ [] := by
  have hmem : ∀ {j : Nat}, j < (s.host slot).length → (s.host slot).getD j 0 < s.geometry.totalPages :=
    fun hj => h.inRange slot hslot _ (getD_mem_row hj)
  have hnew : (s.host slot).getD i 0 ∉ acc.2.map Prod.fst := by
    intro hold
    obtain ⟨r, hr, heq⟩ := mem_map.mp hold
    obtain ⟨j, hj, hlen, hsource, -⟩ := hroom.placed r hr
    cases getD_inj_row (h.nodup slot) hlen hlt (hsource.trans heq)
    exact hi hj
  have hall : ∀ page ∈ (s.host slot).getD i 0 :: acc.2.map Prod.fst,
      page < s.geometry.totalPages ∧ 1 < s.refCnt page := by
    intro page hpage
    cases mem_cons.mp hpage with
    | inl heq =>
      subst heq
      exact ⟨hmem hlt, hshared⟩
    | inr hold =>
      obtain ⟨r, hr, rfl⟩ := mem_map.mp hold
      obtain ⟨j, -, hlen, hsource, -⟩ := hroom.placed r hr
      exact ⟨hsource ▸ hmem hlen, hroom.shared r hr⟩
  have hle := shared_le_free h (nodup_cons.mpr ⟨hnew, hroom.distinct⟩) hall
  rintro hnil
  have hcount := hroom.count
  rw [hnil, length_nil, zero_add] at hcount
  rw [length_cons, length_map] at hle
  omega

theorem detachOne_roomy {i : Nat} (hi : i ∉ done) (hlt : i < (s.host slot).length) :
    Ends (Roomy s slot wanted (done ++ [i])) (fun _ => False) (detachOne wanted e acc i s₁) := by
  have hdetaching := detachOne_ends (e := e) h.unheld hroom.toDetaching hlt
  have hrefCnt : s₁.refCnt = s.refCnt := by rw [hroom.frame]
  have hsource := hroom.same i hi
  have hlater (j : Nat) : j ∉ done ++ [i] → j ∉ done ∧ j ≠ i := by
    intro hj
    rw [mem_append, not_or, mem_singleton] at hj
    exact hj
  rw [detachOne, bind_of_ok (get_apply s₁), hrefCnt] at hdetaching ⊢
  by_cases hskip : wanted (acc.1.getD i 0) = false ∨ s.refCnt (acc.1.getD i 0) ≤ 1
  · rw [if_pos hskip] at hdetaching ⊢
    refine ⟨hdetaching, hroom.count, hroom.left, fun j hj => hroom.same j (hlater j hj).1, ?_, hroom.distinct,
      hroom.shared, hroom.rowNodup, hroom.row⟩
    intro r hr
    obtain ⟨j, hj, hplaced⟩ := hroom.placed r hr
    exact ⟨j, mem_append_left _ hj, hplaced⟩
  rw [if_neg hskip] at hdetaching ⊢
  obtain ⟨-, hshared⟩ := not_or.mp hskip
  rw [hsource] at hshared
  cases hmin : s₁.free.min? with
  | none => exact absurd (min?_eq_none_iff.mp hmin) (hroom.free_ne_nil h hslot hi hlt (not_le.mp hshared))
  | some target =>
    rw [hmin] at hdetaching
    dsimp only at hdetaching ⊢
    rw [bind_of_ok (set_apply _ s₁)] at hdetaching ⊢
    have htarget : target ∈ s₁.free := min?_mem hmin
    have hset (j : Nat) : (acc.1.set i target).getD j 0 = if j = i then target else acc.1.getD j 0 := by
      by_cases hj : j = i
      · subst hj
        simp [getD_eq_getElem?_getD, hroom.length, hlt]
      · simp [getD_eq_getElem?_getD, Ne.symm hj, hj]
    have hunheld := h.unheld target (hroom.free target htarget)
    have hout : target ∉ acc.1 := by
      intro hmem
      cases hroom.row target hmem with
      | inl hold =>
        have hheld := holders_pos hslot hold
        rw [← h.refCnt] at hheld
        omega
      | inr hgone => exact hgone.2 htarget
    have hnew : acc.1.getD i 0 ∉ acc.2.map Prod.fst := by
      intro hmem
      obtain ⟨r, hr, heq⟩ := mem_map.mp hmem
      obtain ⟨j, hj, hlen, hsame, -⟩ := hroom.placed r hr
      cases getD_inj_row (h.nodup slot) hlen hlt (hsame.trans (heq.trans hsource))
      exact hi hj
    constructor
    · exact hdetaching
    · have hcount := hroom.count
      have hpos := length_pos_of_mem htarget
      rw [length_erase_of_mem htarget, length_append, length_singleton]
      omega
    · intro page hpage
      rw [map_append]
      cases hroom.left page hpage with
      | inl hmem =>
        by_cases heq : page = target
        · exact .inr (mem_append_right _ (by simp [heq]))
        · exact .inl ((mem_erase_of_ne heq).mpr hmem)
      | inr hmem => exact .inr (mem_append_left _ hmem)
    · intro j hj
      rw [hset, if_neg (hlater j hj).2]
      exact hroom.same j (hlater j hj).1
    · intro r hr
      cases mem_append.mp hr with
      | inl hold =>
        obtain ⟨j, hj, hlen, hsame, htaken⟩ := hroom.placed r hold
        have hne : j ≠ i := fun heq => hi (heq ▸ hj)
        exact ⟨j, mem_append_left _ hj, hlen, hsame, by rw [hset, if_neg hne, htaken]⟩
      | inr hlast =>
        obtain rfl := mem_singleton.mp hlast
        exact ⟨i, mem_append_right _ (mem_singleton_self i), hlt, hsource.symm, by rw [hset, if_pos rfl]⟩
    · rw [map_append]
      exact hroom.distinct.append (nodup_singleton _) (by simpa using hnew)
    · intro r hr
      cases mem_append.mp hr with
      | inl hold => exact hroom.shared r hold
      | inr hlast =>
        obtain rfl := mem_singleton.mp hlast
        exact hsource ▸ not_le.mp hshared
    · exact hroom.rowNodup.set hout
    · intro page hpage
      cases mem_or_eq_of_mem_set hpage with
      | inl hold => exact (hroom.row page hold).imp_right fun hgone =>
          ⟨hgone.1, fun hmem => hgone.2 (mem_of_mem_erase hmem)⟩
      | inr hlast =>
        subst hlast
        exact .inr ⟨hroom.free page htarget, hroom.freeNodup.not_mem_erase⟩

/-- The row with its replacements in place. -/
theorem Roomy.remap_balanced (kv : Nat → Nat → β) :
    Balanced (remap slot acc.1 { s with free := s₁.free, kv := kv }) := by
  have hin : ∀ page ∈ acc.1, page < s.geometry.totalPages := by
    intro page hpage
    cases hroom.row page hpage with
    | inl hold => exact h.inRange slot hslot page hold
    | inr hfree => exact ((h.free_iff page).mp hfree.1).1
  apply FixedArena.remap_balanced (s := { s with free := s₁.free, kv := kv })
  · exact ⟨h.width, h.nodup, h.refCnt, fun page hpage => h.unheld page (hroom.free page hpage), hroom.freeNodup⟩
  · exact h.inRange
  · exact fun page hpage => ((h.free_iff page).mp (hroom.free page hpage)).1
  · intro page hlt hzero
    cases hroom.left page ((h.free_iff page).mpr ⟨hlt, hzero⟩) with
    | inl hfree => exact .inl hfree
    | inr htaken =>
      obtain ⟨r, hr, rfl⟩ := mem_map.mp htaken
      obtain ⟨i, -, hi, -, hplaced⟩ := hroom.placed r hr
      rw [← hplaced]
      exact .inr (getD_mem_row (hroom.length ▸ hi))
  · exact hslot
  · exact hroom.length.trans (h.width slot)
  · exact hroom.rowNodup
  · exact hin

end

theorem detach_keeps (h : Balanced s) (hnodup : pages.Nodup) (hpages : ∀ i ∈ pages, i < s.geometry.pagesPerSlot)
    (slot : Nat) (wanted : Nat → Bool) (e : ArenaError) : Keeps s (detach slot pages wanted e s) := by
  rw [detach, pageRow, bind_assoc, bind_of_ok (get_apply s), bind_assoc]
  apply Keeps.raiseIf_bind h (by simp)
  intro hrow
  have hslot : slot < s.geometry.numRows := not_le.mp hrow
  rw [pure_bind]
  have hloop : Ends (Roomy s slot wanted pages) (fun _ => False)
      (pages.foldlM (detachOne wanted e) (s.host slot, []) s) := by
    apply ends_foldlM (I := fun done => Roomy s slot wanted done)
    · intro done i rest acc s₁ hsplit hroom
      have hi : i ∉ done := by
        rw [hsplit, nodup_append] at hnodup
        exact fun hmem => hnodup.2.2 i hmem i mem_cons_self rfl
      have hmem : i ∈ pages := hsplit ▸ mem_append_right _ mem_cons_self
      exact detachOne_roomy h hslot hroom hi (by simpa [h.width slot] using hpages i hmem)
    · exact ⟨⟨rfl, h.freeNodup, fun _ => id, rfl, nodup_nil, by simp, by simp, fun _ => .inl rfl, by simp⟩,
        rfl, fun _ => .inl, fun _ _ => rfl, by simp, nodup_nil, by simp, h.nodup slot, fun _ => .inl⟩
  obtain ⟨⟨row, replacements⟩, s₁, hrun, hroom⟩ := hloop.returns
  rw [bind_of_ok hrun]
  dsimp only
  by_cases hnone : replacements = []
  · subst hnone
    rw [if_pos rfl]
    have hfree (page : Nat) : page ∈ s₁.free ↔ page ∈ s.free :=
      ⟨hroom.free page, fun hmem => (hroom.left page hmem).resolve_right (by simp)⟩
    have hframe := hroom.frame
    refine ⟨?_, by rw [hframe]⟩
    rw [hframe]
    refine ⟨⟨h.width, h.nodup, h.refCnt, fun page hpage => h.unheld page (hroom.free page hpage), hroom.freeNodup⟩,
      h.inRange, fun page => (hfree page).trans (h.free_iff page)⟩
  rw [if_neg hnone, bind_of_ok (modify_apply _ s₁)]
  -- The row is in order, so that its replacement does not raise.
  have hframe : clonePages replacements s₁ = { s with free := s₁.free, kv := (clonePages replacements s₁).kv } := by
    rw [clonePages, hroom.frame]
  have hbalanced := hroom.remap_balanced h hslot (clonePages replacements s₁).kv
  have hin : ¬∃ page ∈ row, s.geometry.totalPages ≤ page := by
    rintro ⟨page, hpage, hle⟩
    cases hroom.row page hpage with
    | inl hold => exact absurd (h.inRange slot hslot page hold) (not_lt.mpr hle)
    | inr hfree => exact absurd ((h.free_iff page).mp hfree.1).1 (not_lt.mpr hle)
  have hset : setPageTableRow slot row (clonePages replacements s₁) =
      .ok ⟨⟩ (remap slot row { s with free := s₁.free, kv := (clonePages replacements s₁).kv }) := by
    rw [← hframe, setPageTableRow, bind_of_ok (get_apply _)]
    rw [bind_of_ok (raiseIf_of_not (by rw [hframe]; exact hrow) _),
      bind_of_ok (raiseIf_of_not (by rw [hframe]; exact not_not.mpr (hroom.length.trans (h.width slot))) _),
      bind_of_ok (raiseIf_of_not (by rw [hframe]; exact hin) _),
      bind_of_ok (raiseIf_of_not (not_not.mpr hroom.rowNodup) _), modify_apply]
  rw [bind_of_ok hset]
  exact ⟨hbalanced, remap_geometry (h.nodup slot) hroom.rowNodup⟩

end Detaches

section Runs

/-- The calls that touch the page table, and the lengths that forwards and rewinds set in between. -/
inductive Op where
  | sharePrefixKv (source target kvLen : Nat)
  /-- Without pages the scratch row's own ones are taken. -/
  | shareScratchPrefix (target kvLen : Nat) (pages : Option (List Nat))
  | prepareKvWrites (slot start length : Nat)
  | detachScratchAliases (slot kvLen : Nat) (offsets : List Nat)
  | setPageTableRow (slot : Nat) (pages : List Nat)
  | resetSlot (slot : Nat)
  | setLength (slot kvLen : Nat)

def call : Op → ArenaM β Unit
  | .sharePrefixKv source target kvLen => sharePrefixKv source target kvLen
  | .shareScratchPrefix target kvLen pages => do
    let s ← get
    shareScratchPrefix target kvLen (pages.getD ((s.host s.geometry.scratchRow).take (s.geometry.pages kvLen)))
  | .prepareKvWrites slot start length => prepareKvWrites slot start length
  | .detachScratchAliases slot kvLen offsets => do
    let _ ← detachScratchAliases slot kvLen offsets
    pure ()
  | .setPageTableRow slot pages => setPageTableRow slot pages
  | .resetSlot slot => modify (resetSlot slot)
  | .setLength slot kvLen => modify fun s => { s with kvLen := update s.kvLen slot kvLen }

def runCalls (g : Geometry) (kv : Nat → Nat → β) (ops : List Op) : Arena β :=
  ops.foldl (fun s op => endState (call op s)) (start g kv)

theorem Balanced.lengths (h : Balanced s) (kvLen seen : Nat → Nat) : Balanced { s with kvLen := kvLen, seen := seen } :=
  ⟨⟨h.width, h.nodup, h.refCnt, h.unheld, h.freeNodup⟩, h.inRange, h.free_iff⟩

theorem prepareKvWrites_keeps (h : Balanced s) (slot first length : Nat) :
    Keeps s (prepareKvWrites slot first length s) := by
  rw [prepareKvWrites, bind_of_ok (get_apply s)]
  apply Keeps.raiseIf_bind h (by simp)
  intro hbound
  by_cases hlength : length = 0
  · rw [if_pos hlength]
    exact ⟨h, rfl⟩
  rw [if_neg hlength]
  have hdetach := detach_keeps h nodup_range'
    (fun i hi => Geometry.touched_lt hlength (not_lt.mp hbound) hi) slot (fun _ => true) .exhausted
  change Keeps s (detach slot (s.geometry.touched first length) (fun _ => true) .exhausted s) at hdetach
  cases hrun : detach slot (s.geometry.touched first length) (fun _ => true) .exhausted s with
  | ok b s' =>
    rw [hrun] at hdetach
    rw [bind_of_ok hrun]
    exact hdetach
  | error e s' =>
    rw [hrun] at hdetach
    rw [bind_of_error hrun]
    exact hdetach

theorem detachScratchAliases_keeps (h : Balanced s) (slot kvLen : Nat) (offsets : List Nat) :
    Keeps s (detachScratchAliases slot kvLen offsets s) := by
  rw [detachScratchAliases, bind_of_ok (get_apply s)]
  apply Keeps.raiseIf_bind h (by simp)
  intro _
  apply Keeps.raiseIf_bind h (by simp)
  intro hlen
  apply Keeps.raiseIf_bind h (by simp)
  intro _
  have hpages := Geometry.pages_le (not_lt.mp (not_or.mp hlen).2)
  apply detach_keeps h nodup_range
  intro i hi
  have hrange := mem_range.mp hi
  split at hrange <;> omega

theorem call_keeps (h : Balanced s) (op : Op) : Keeps s (call op s) := by
  cases op with
  | sharePrefixKv source target kvLen =>
    rw [call, sharePrefixKv, bind_of_ok (get_apply s)]
    apply Keeps.raiseIf_bind h (by simp)
    intro _
    apply Keeps.raiseIf_bind h (by simp)
    intro _
    split_ifs
    · exact ⟨h, rfl⟩
    · exact Keeps.raiseIf_bind h (by simp) fun _ => setPageTableRow_keeps h target _
  | shareScratchPrefix target kvLen pages =>
    rw [call, bind_of_ok (get_apply s), shareScratchPrefix, checkScratchPages, bind_assoc, bind_of_ok (get_apply s)]
    simp only [bind_assoc]
    apply Keeps.raiseIf_bind h (by simp)
    intro _
    apply Keeps.raiseIf_bind h (by simp)
    intro _
    apply Keeps.raiseIf_bind h (by simp)
    intro _
    apply Keeps.raiseIf_bind h (by simp)
    intro _
    rw [bind_of_ok (get_apply s)]
    exact setPageTableRow_keeps h target _
  | prepareKvWrites slot first length => exact prepareKvWrites_keeps h slot first length
  | detachScratchAliases slot kvLen offsets =>
    have hdetach := detachScratchAliases_keeps h slot kvLen offsets
    rw [call]
    cases hrun : detachScratchAliases slot kvLen offsets s with
    | ok b s' =>
      rw [hrun] at hdetach
      rw [bind_of_ok hrun]
      exact hdetach
    | error e s' =>
      rw [hrun] at hdetach
      rw [bind_of_error hrun]
      exact hdetach
  | setPageTableRow slot pages => exact setPageTableRow_keeps h slot pages
  | resetSlot slot => exact ⟨h.lengths _ _, rfl⟩
  | setLength slot kvLen => exact ⟨h.lengths _ _, rfl⟩

theorem runCalls_balanced (g : Geometry) (kv : Nat → Nat → β) (ops : List Op) : Balanced (runCalls g kv ops) := by
  induction ops using reverseRecOn with
  | nil => exact balanced_start g kv
  | append_singleton ops op ih =>
    rw [runCalls, foldl_append]
    exact (call_keeps ih op).balanced

/-- After any calls the references add up to the entries of the page table, the free pages are those without
one, no call runs out of pages, and each row shows distinct pages. -/
theorem fixedArena_balanced (g : Geometry) (kv : Nat → Nat → β) (ops : List Op) :
    let s := runCalls g kv ops
    ((range s.geometry.totalPages).map s.refCnt).sum =
      ((range s.geometry.numRows).map fun row => (s.host row).length).sum ∧
    (∀ page, page ∈ s.free ↔ page < s.geometry.totalPages ∧ s.refCnt page = 0) ∧ s.free.Nodup ∧
    s.free.length = ((range s.geometry.totalPages).map fun page => s.refCnt page - 1).sum ∧
    (∀ op, raised (call op s) ≠ some .exhausted ∧ raised (call op s) ≠ some .detachExhausted) ∧
    ∀ row < s.geometry.numRows, (s.host row).length = s.geometry.pagesPerSlot ∧ (s.host row).Nodup ∧
      ∀ page ∈ s.host row, page < s.geometry.totalPages := by
  intro s
  have h : Balanced s := runCalls_balanced g kv ops
  refine ⟨sum_refCnt h, h.free_iff, h.freeNodup, length_free h, ?_, ?_⟩
  · intro op
    have hcall := call_keeps h op
    cases hrun : call op s with
    | ok u s' => exact ⟨by simp [raised], by simp [raised]⟩
    | error e s' =>
      rw [hrun] at hcall
      obtain ⟨-, -, hfirst, hsecond⟩ := hcall
      exact ⟨by simpa [raised] using hfirst, by simpa [raised] using hsecond⟩
  · exact fun row hrow => ⟨h.width row, h.nodup row, h.inRange row hrow⟩

end Runs

end FixedArena
