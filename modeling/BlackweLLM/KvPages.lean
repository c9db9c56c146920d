import BlackweLLM.ArenaAliases
import BlackweLLM.SlotWrites

/-!
# The pages that a pending write may use

What `prepare_kv_writes` promises to code that only asks for physical rows, for
both arenas of `Qwen36SlotPool`: the pages of the write become private to the
row, and private pages stay where they are. A page that is private to one row
is on no other page of that row and in no other row.
-/

namespace FixedArena

open RaisingState

variable {β : Type} {s s' : Arena β} {slot : Nat} {pages : List Nat}

/-- An entry that no second row shows. -/
def Alone (s : Arena β) (row page : Nat) : Prop := s.refCnt ((s.host row).getD page 0) ≤ 1

/-- What a detach of any row leaves, the scratch row among them. -/
structure Moved (s : Arena β) (slot : Nat) (pages : List Nat) (s' : Arena β) : Prop where
  tallied : Tallied s'
  geometry : s'.geometry = s.geometry
  ready : ∀ page ∈ pages, Alone s' slot page
  steady : ∀ row page, Alone s row page →
    Alone s' row page ∧ (s'.host row).getD page 0 = (s.host row).getD page 0

theorem Moved.refl (h : Tallied s) (slot : Nat) : Moved s slot [] s :=
  ⟨h, rfl, by simp, fun _ _ halone => ⟨halone, rfl⟩⟩

theorem setPageTableRow_tallied (h : Tallied s) (row : List Nat) :
    Ends (fun _ s' => slot < s.geometry.numRows ∧ Tallied s' ∧ s'.geometry = s.geometry ∧
      s'.host = Function.update s.host slot row) (fun _ => True) (setPageTableRow slot row s) := by
  rw [setPageTableRow, bind_of_ok (get_apply s)]
  apply ends_raiseIf_bind
  · exact fun _ => trivial
  intro hrow
  apply ends_raiseIf_bind
  · exact fun _ => trivial
  intro hlength
  apply ends_raiseIf_bind
  · exact fun _ => trivial
  intro _
  apply ends_raiseIf_bind
  · exact fun _ => trivial
  intro hnodup
  have hframe := remap_frame (h.nodup slot) (not_not.mp hnodup)
  rw [modify_apply, ends_ok]
  exact ⟨not_le.mp hrow, h.remap (not_le.mp hrow) (not_not.mp hlength) (not_not.mp hnodup), by rw [hframe],
    by rw [hframe]⟩

/-- A page that one row shows at most is shown by one row at most behind a row that takes only free pages in. -/
theorem Tallied.refCnt_le_one (h : Tallied s) (h' : Tallied s') (hslot : slot < s.geometry.numRows) {row : List Nat}
    (hgeometry : s'.geometry = s.geometry) (hhost : s'.host = Function.update s.host slot row)
    (hrow : ∀ page ∈ row, page ∈ s.host slot ∨ page ∈ s.free) {page : Nat} (hone : s.refCnt page ≤ 1) :
    s'.refCnt page ≤ 1 := by
  have hupdate := holders_update hslot row page
  have hholders : holders s' page = holders { s with host := Function.update s.host slot row } page := by
    rw [holders, holders, hgeometry, hhost]
  rw [h'.refCnt, hholders]
  rw [h.refCnt] at hone
  by_cases hmem : page ∈ row
  · cases hrow page hmem with
    | inl hold =>
      simp only [hmem, hold, decide_true, Bool.toNat_true] at hupdate
      omega
    | inr hfree =>
      have hzero := h.unheld page hfree
      rw [h.refCnt] at hzero
      simp only [hmem, decide_true, Bool.toNat_true] at hupdate
      omega
  · simp only [hmem, decide_false, Bool.toNat_false] at hupdate
    omega

theorem detachOne_sources (wanted : Nat → Bool) (e : ArenaError) {acc : List Nat × List (Nat × Nat)} (page : Nat)
    (h : ∀ r ∈ acc.2, 1 < s.refCnt r.1) :
    Ends (fun acc' s' => s'.refCnt = s.refCnt ∧ ∀ r ∈ acc'.2, 1 < s.refCnt r.1) (fun _ => True)
      (detachOne wanted e acc page s) := by
  rw [detachOne, bind_of_ok (get_apply s)]
  by_cases hskip : wanted (acc.1.getD page 0) = false ∨ s.refCnt (acc.1.getD page 0) ≤ 1
  · rw [if_pos hskip]
    exact ⟨rfl, h⟩
  rw [if_neg hskip]
  cases hmin : s.free.min? with
  | none => trivial
  | some target =>
    dsimp only
    rw [bind_of_ok (set_apply _ s)]
    refine ⟨rfl, fun r hr => ?_⟩
    cases List.mem_append.mp hr with
    | inl hr => exact h r hr
    | inr hr =>
      obtain rfl := List.mem_singleton.mp hr
      exact Nat.lt_of_not_le (not_or.mp hskip).2

theorem detach_moved (h : Tallied s) (hpages : ∀ page ∈ pages, page < s.geometry.pagesPerSlot) (e : ArenaError) :
    Ends (fun _ s' => slot < s.geometry.numRows ∧ Moved s slot pages s') (fun _ => True)
      (detach slot pages (fun _ => true) e s) := by
  rw [detach, pageRow, bind_assoc, bind_of_ok (get_apply s), bind_assoc]
  apply ends_raiseIf_bind
  · exact fun _ => trivial
  intro hrow
  have hslot : slot < s.geometry.numRows := not_le.mp hrow
  rw [pure_bind]
  apply ends_bind (P := fun acc s₁ => Detaching s slot (fun _ => true) pages acc s₁ ∧
    s₁.refCnt = s.refCnt ∧ ∀ r ∈ acc.2, 1 < s.refCnt r.1)
  · apply ends_foldlM (I := fun done acc s₁ => Detaching s slot (fun _ => true) done acc s₁ ∧
      s₁.refCnt = s.refCnt ∧ ∀ r ∈ acc.2, 1 < s.refCnt r.1)
    · rintro done page rest acc s₁ hsplit ⟨hdone, hrefCnt, hsources⟩
      have hpage : page ∈ pages := hsplit ▸ List.mem_append_right _ List.mem_cons_self
      have hstep := detachOne_ends (e := e) h.unheld hdone (by simpa [h.width slot] using hpages page hpage)
      have hall : ∀ r ∈ acc.2, 1 < s₁.refCnt r.1 := hrefCnt ▸ hsources
      have hshared := detachOne_sources (fun _ => true) e page hall
      apply (hstep.and hshared).mono
      · rintro acc' s₂ ⟨hd, hcount, hall'⟩
        exact ⟨hd, hcount.trans hrefCnt, hrefCnt ▸ hall'⟩
      · exact fun _ _ => trivial
    · exact ⟨⟨rfl, h.freeNodup, fun _ hpage => hpage, rfl, List.nodup_nil, by simp, by simp, fun _ => .inl rfl,
        by simp⟩, rfl, by simp⟩
  rintro ⟨row, replacements⟩ s₁ ⟨hd, hrefCnt, hsources⟩
  dsimp only at hsources
  have hshrunk : Tallied s₁ := by
    rw [hd.frame]
    exact ⟨h.width, h.nodup, h.refCnt, fun page hpage => h.unheld page (hd.free page hpage), hd.freeNodup⟩
  -- An entry that is alone is not replaced.
  have hkeep : ∀ page, Alone s slot page → row.getD page 0 = (s.host slot).getD page 0 := by
    intro page halone
    cases hd.entry page with
    | inl hsame => exact hsame
    | inr hreplaced => exact absurd halone (not_le.mpr (hsources _ hreplaced))
  by_cases hnone : replacements = []
  · subst hnone
    dsimp only
    rw [if_pos rfl]
    have hhost : s₁.host = s.host := by rw [hd.frame]
    refine ⟨hslot, hshrunk, by rw [hd.frame], fun page hpage => ?_, fun row page halone => ?_⟩
    · rw [Alone, hhost, hrefCnt]
      exact ((hd.unshared page hpage).resolve_left (by simp)).resolve_right List.not_mem_nil
    · rw [Alone, hhost, hrefCnt]
      exact ⟨halone, rfl⟩
  dsimp only
  rw [if_neg hnone, bind_of_ok (modify_apply _ s₁)]
  have hclone : Tallied (clonePages replacements s₁) :=
    ⟨hshrunk.width, hshrunk.nodup, hshrunk.refCnt, hshrunk.unheld, hshrunk.freeNodup⟩
  have hgeometry : (clonePages replacements s₁).geometry = s.geometry := by rw [clonePages, hd.frame]
  have hhost : (clonePages replacements s₁).host = s.host := by rw [clonePages, hd.frame]
  apply ends_bind (setPageTableRow_tallied hclone row)
  rintro _ s₂ ⟨-, htallied, hgeometry₂, hhost₂⟩
  rw [hgeometry] at hgeometry₂
  rw [hhost] at hhost₂
  have hmem : ∀ page ∈ row, page ∈ s.host slot ∨ page ∈ s.free := by
    intro target htarget
    obtain ⟨i, hi, rfl⟩ := List.mem_iff_getElem.mp htarget
    have hold : i < (s.host slot).length := hd.length ▸ hi
    have hentry := hd.entry i
    rw [List.getD_eq_getElem _ _ hi, List.getD_eq_getElem _ _ hold] at hentry
    cases hentry with
    | inl hsame => exact .inl (hsame ▸ List.getElem_mem hold)
    | inr hreplaced => exact .inr (hd.fresh _ hreplaced).1
  have hone : ∀ page, s.refCnt page ≤ 1 → s₂.refCnt page ≤ 1 := fun _ =>
    h.refCnt_le_one htallied hslot hgeometry₂ hhost₂ hmem
  refine ⟨hslot, htallied, hgeometry₂, fun page hpage => ?_, fun other page halone => ?_⟩
  · rw [Alone, hhost₂, Function.update_self]
    apply hone
    rcases (hd.unshared page hpage).resolve_left (by simp) with hle | hreplaced
    · rwa [hkeep page hle]
    · rw [h.unheld _ (hd.fresh _ hreplaced).1]
      exact Nat.zero_le 1
  · by_cases hother : other = slot
    · subst hother
      rw [Alone, hhost₂, Function.update_self, hkeep page halone]
      exact ⟨hone _ halone, rfl⟩
    · rw [Alone, hhost₂, Function.update_of_ne hother]
      exact ⟨hone _ halone, rfl⟩

theorem prepareKvWrites_moved (h : Tallied s) (first length : Nat) :
    Ends (fun _ s' => first + length ≤ s.geometry.maxSeqLen ∧ (0 < length → slot < s.geometry.numRows) ∧
        Moved s slot (if length = 0 then [] else s.geometry.touched first length) s')
      (fun _ => True) (prepareKvWrites slot first length s) := by
  rw [prepareKvWrites, bind_of_ok (get_apply s)]
  apply ends_raiseIf_bind
  · exact fun _ => trivial
  intro hbound
  by_cases hlength : length = 0
  · rw [if_pos hlength, if_pos hlength]
    exact ⟨not_lt.mp hbound, fun hpos => absurd hlength (ne_of_gt hpos), Moved.refl h slot⟩
  rw [if_neg hlength, if_neg hlength]
  apply ends_bind (detach_moved h (fun page hpage => Geometry.touched_lt hlength (not_lt.mp hbound) hpage) _)
  rintro _ s₁ ⟨hslot, hmoved⟩
  exact ⟨not_lt.mp hbound, fun _ => hslot, hmoved⟩

/-- Two entries that are alone and the same are one entry. -/
theorem Tallied.alone_inj (h : Tallied s) {row row' page page' : Nat} (hrow : row < s.geometry.numRows)
    (hrow' : row' < s.geometry.numRows) (hpage : page < s.geometry.pagesPerSlot)
    (hpage' : page' < s.geometry.pagesPerSlot)
    (halone : Alone s row page) (heq : (s.host row).getD page 0 = (s.host row').getD page' 0) :
    row = row' ∧ page = page' := by
  have hlength : ∀ {r p : Nat}, p < s.geometry.pagesPerSlot → p < (s.host r).length := fun hp => by rwa [h.width]
  have hmem : ∀ {r p : Nat}, p < s.geometry.pagesPerSlot → (s.host r).getD p 0 ∈ s.host r := by
    intro r p hp
    rw [List.getD_eq_getElem _ _ (hlength hp)]
    exact List.getElem_mem _
  have hsame : row = row' := by
    by_contra hne
    have htwo := one_lt_holders hne hrow hrow' (hmem hpage) (heq ▸ hmem hpage')
    rw [← h.refCnt] at htwo
    exact not_le.mpr htwo halone
  subst hsame
  rw [List.getD_eq_getElem _ _ (hlength hpage), List.getD_eq_getElem _ _ (hlength hpage')] at heq
  exact ⟨rfl, (h.nodup row).getElem_inj_iff.mp heq⟩

end FixedArena

namespace SlotPool

open RaisingState

variable {β : Type} {s s' : Slots β} {slot first length : Nat}

theorem prepareKvWrites_prepared (h : Mapped s) :
    Ends (fun _ s' => first + length ≤ s.geometry.maxSeqLen ∧ Mapped s' ∧ (length = 0 ∧ s' = s ∨
        0 < length ∧ slot < s.geometry.numRows ∧ Prepared s slot (s.geometry.touched first length) s'))
      (fun _ => True) (prepareKvWrites slot first length s) := by
  simp only [prepareKvWrites, bind_of_ok (get_apply s)]
  by_cases hcapacity : s.geometry.maxSeqLen < first + length
  · rw [bind_of_error (raiseIf_of hcapacity s)]
    trivial
  rw [bind_of_ok (raiseIf_of_not hcapacity s)]
  have hfits := not_lt.mp hcapacity
  by_cases hlength : length = 0
  · rw [if_pos hlength]
    exact ⟨hfits, h, .inl ⟨hlength, rfl⟩⟩
  rw [if_neg hlength]
  have hpos := Nat.pos_of_ne_zero hlength
  by_cases hslot : slot < s.geometry.numRows
  · rw [bind_of_ok (pageRow_of hslot)]
    have hloop := loop_ends h hslot (touched_nodup s.geometry first length) fun page => touched_lt hpos hfits
    apply ends_bind (hloop.weaken fun _ _ => trivial)
    intro acc s₁ hdone
    exact (hdone.finish h hslot).mono (fun _ s' hs' => ⟨hfits, hs'.1, .inr ⟨hpos, hslot, hs'.2⟩⟩)
      fun _ => False.elim
  · rw [bind_of_error (pageRow_of_outside hslot)]
    trivial

theorem one_lt_holders {row row' b : Nat} (hne : row ≠ row') (hrow : row < s.geometry.numRows)
    (hrow' : row' < s.geometry.numRows) (hmem : b ∈ s.bundles row) (hmem' : b ∈ s.bundles row') : 1 < holders s b := by
  let other : Nat → Bool := fun r => decide (b ∈ s.bundles r) && decide (r ≠ row')
  have hother : 0 < (List.range s.geometry.numRows).countP other := by
    rw [List.countP_pos_iff]
    exact ⟨row, List.mem_range.mpr hrow, by simp [other, hmem, hne]⟩
  have hupdate := Ledger.countP_range_update (p := fun r => decide (b ∈ s.bundles r)) (q := other) hrow'
    (by
      intro i hi
      simp [other, hi])
  have hself : other row' = false := by simp [other]
  rw [hself, decide_eq_true hmem', Bool.toNat_true, Bool.toNat_false, add_zero] at hupdate
  rw [holders]
  omega

/-- A writable bundle stands on one page of one row. -/
theorem Mapped.writable_inj (h : Mapped s) {row row' page page' : Nat} (hrow : row < s.geometry.numRows)
    (hrow' : row' < s.geometry.numRows) (hwritable : Writable s ((s.host row).getD page 0))
    (heq : (s.host row).getD page 0 = (s.host row').getD page' 0) : row = row' ∧ page = page' := by
  have hsame : row = row' := by
    by_contra hne
    have hmem := (h.shows row).getD_mem hwritable.nonnull
    have hnonnull : (s.host row').getD page' 0 ≠ 0 := heq ▸ hwritable.nonnull
    have hmem' := (h.shows row').getD_mem hnonnull
    have htwo := one_lt_holders hne hrow hrow' hmem (heq ▸ hmem')
    rw [← h.refCnt, hwritable.alone] at htwo
    exact lt_irrefl 1 htwo
  subst hsame
  exact ⟨rfl, (h.shows row).inj hwritable.nonnull heq⟩

end SlotPool

open RaisingState

/-- A paged pool as the code that fills graph inputs sees it. `Private` says that a logical page of a row is
nobody else's; the laws are those of `prepare_kv_writes`. -/
structure KvPool (σ ε : Type) where
  numSlots : Nat
  pageSize : Nat
  maxSeqLen : Nat
  pageSize_pos : 0 < pageSize
  host : σ → Nat → List Nat
  prepareKvWrites : Nat → Nat → Nat → EStateM ε σ Unit
  Sound : σ → Prop
  Private : σ → Nat → Nat → Prop
  prepare_ends : ∀ {s : σ} (slot first length : Nat), Sound s →
    Ends (fun _ s' => Sound s' ∧ first + length ≤ maxSeqLen ∧ (0 < length → slot ≤ numSlots) ∧
        (∀ position, first ≤ position → position < first + length → Private s' slot (position / pageSize)) ∧
        ∀ row page, Private s row page → Private s' row page ∧ (host s' row).getD page 0 = (host s row).getD page 0)
      (fun _ => True) (prepareKvWrites slot first length s)
  private_inj : ∀ {s : σ} {row row' page page' : Nat}, Sound s → Private s row page → Private s row' page' →
    (host s row).getD page 0 = (host s row').getD page' 0 → row = row' ∧ page = page'

namespace KvPool

variable {β σ ε : Type}

def scratchRow (P : KvPool σ ε) : Nat := P.numSlots

/-- The row of `write_index` for a position inside the capacity. -/
def kvRow (P : KvPool σ ε) (s : σ) (slot kvLen : Nat) : Nat :=
  (P.host s slot).getD (kvLen / P.pageSize) 0 * P.pageSize + kvLen % P.pageSize

/-- Positions on private pages have rows of their own. -/
theorem kvRow_inj (P : KvPool σ ε) {s : σ} (hs : P.Sound s) {slot slot' position position' : Nat}
    (h : P.Private s slot (position / P.pageSize)) (h' : P.Private s slot' (position' / P.pageSize))
    (heq : P.kvRow s slot position = P.kvRow s slot' position') : slot = slot' ∧ position = position' := by
  rw [kvRow, kvRow, mul_comm, mul_comm _ P.pageSize] at heq
  have hdiv := congrArg (· / P.pageSize) heq
  have hmod := congrArg (· % P.pageSize) heq
  simp only [Nat.mul_add_div P.pageSize_pos, Nat.div_eq_of_lt (Nat.mod_lt _ P.pageSize_pos), add_zero] at hdiv
  simp only [Nat.mul_add_mod, Nat.mod_mod] at hmod
  obtain ⟨hslot, hpage⟩ := P.private_inj hs h h' hdiv
  refine ⟨hslot, ?_⟩
  rw [← Nat.div_add_mod position P.pageSize, ← Nat.div_add_mod position' P.pageSize, hpage, hmod]

/-- The row of a position whose page keeps its entry. -/
theorem kvRow_congr (P : KvPool σ ε) {s s' : σ} {slot position : Nat}
    (h : (P.host s' slot).getD (position / P.pageSize) 0 = (P.host s slot).getD (position / P.pageSize) 0) :
    P.kvRow s' slot position = P.kvRow s slot position := by
  rw [kvRow, kvRow, h]

def fixed (g : FixedArena.Geometry) : KvPool (FixedArena.Arena β) FixedArena.ArenaError where
  numSlots := g.numSlots
  pageSize := g.pageSize
  maxSeqLen := g.maxSeqLen
  pageSize_pos := g.pageSize_pos
  host := fun s => s.host
  prepareKvWrites := FixedArena.prepareKvWrites
  Sound := fun s => FixedArena.Tallied s ∧ s.geometry = g
  Private := fun s row page => row < g.numRows ∧ page < g.pagesPerSlot ∧ FixedArena.Alone s row page
  prepare_ends := by
    rintro s slot first length ⟨h, rfl⟩
    apply (FixedArena.prepareKvWrites_moved h first length).mono
    · rintro _ s' ⟨hfits, hslot, hmoved⟩
      refine ⟨⟨hmoved.tallied, hmoved.geometry⟩, hfits, fun hpos => Nat.le_of_lt_succ (hslot hpos), ?_, ?_⟩
      · intro position hlow hhigh
        have hpos : 0 < length := by omega
        have hpage : position / s.geometry.pageSize ∈ s.geometry.touched first length := by
          have hfrom := Nat.div_le_div_right (c := s.geometry.pageSize) hlow
          have hto : position / s.geometry.pageSize ≤ (first + length - 1) / s.geometry.pageSize :=
            Nat.div_le_div_right (by omega)
          exact List.mem_range'_1.mpr ⟨hfrom, by omega⟩
        refine ⟨hslot hpos, FixedArena.Geometry.touched_lt (ne_of_gt hpos) hfits hpage, ?_⟩
        apply hmoved.ready
        rwa [if_neg (ne_of_gt hpos)]
      · rintro row page ⟨hrow, hpage, halone⟩
        obtain ⟨halone', hentry⟩ := hmoved.steady row page halone
        exact ⟨⟨hrow, hpage, halone'⟩, hentry⟩
    · exact fun _ => id
  private_inj := by
    rintro s row row' page page' ⟨h, rfl⟩ ⟨hrow, hpage, halone⟩ ⟨hrow', hpage', -⟩ heq
    exact h.alone_inj hrow hrow' hpage hpage' halone heq

def dynamic (g : SlotPool.Geometry) : KvPool (SlotPool.Slots β) SlotPool.SlotError where
  numSlots := g.numSlots
  pageSize := g.pageSize
  maxSeqLen := g.maxSeqLen
  pageSize_pos := g.pageSize_pos
  host := fun s => s.host
  prepareKvWrites := SlotPool.prepareKvWrites
  Sound := fun s => SlotPool.Mapped s ∧ s.geometry = g
  Private := fun s row page => row < g.numRows ∧ SlotPool.Writable s ((s.host row).getD page 0)
  prepare_ends := by
    rintro s slot first length ⟨h, rfl⟩
    apply (SlotPool.prepareKvWrites_prepared h).mono
    · rintro _ s' ⟨hfits, hmapped, ⟨hzero, rfl⟩ | ⟨hpos, hslot, hprepared⟩⟩
      · refine ⟨⟨hmapped, rfl⟩, hfits, fun hpos => absurd hzero (ne_of_gt hpos), ?_, fun _ _ h => ⟨h, rfl⟩⟩
        intro position hlow hhigh
        omega
      · have hgeometry : s'.geometry = s.geometry := by rw [hprepared.frame]
        refine ⟨⟨hmapped, hgeometry⟩, hfits, fun _ => Nat.le_of_lt_succ hslot, ?_, ?_⟩
        · intro position hlow hhigh
          refine ⟨hslot, hprepared.ready _ ?_⟩
          exact (SlotPool.mem_touched hpos).mpr ⟨position, hlow, hhigh, rfl⟩
        · rintro row page ⟨hrow, hwritable⟩
          obtain ⟨hwritable', hentries⟩ := hprepared.steady _ hwritable
          have hentry : (s'.host row).getD page 0 = (s.host row).getD page 0 := by
            by_cases hsame : row = slot
            · subst hsame
              exact hentries page rfl
            · rw [hprepared.others row hsame]
          exact ⟨⟨hrow, hentry ▸ hwritable'⟩, hentry⟩
    · exact fun _ => id
  private_inj := by
    rintro s row row' page page' ⟨h, rfl⟩ ⟨hrow, hwritable⟩ ⟨hrow', -⟩ heq
    exact h.writable_inj hrow hrow' hwritable heq

/-- The ranges of a round: slot, first position and length, one after the other. -/
def prepareAll (P : KvPool σ ε) : List (Nat × Nat × Nat) → EStateM ε σ Unit
  | [] => pure ()
  | r :: ranges => P.prepareKvWrites r.1 r.2.1 r.2.2 >>= fun _ => P.prepareAll ranges

def Pending (ranges : List (Nat × Nat × Nat)) (slot position : Nat) : Prop :=
  ∃ r ∈ ranges, r.1 = slot ∧ r.2.1 ≤ position ∧ position < r.2.1 + r.2.2

theorem prepareAll_ends (P : KvPool σ ε) {s : σ} (h : P.Sound s) (ranges : List (Nat × Nat × Nat)) :
    Ends (fun _ s' => P.Sound s' ∧
        (∀ slot position, Pending ranges slot position → P.Private s' slot (position / P.pageSize)) ∧
        ∀ row page, P.Private s row page → P.Private s' row page ∧
          (P.host s' row).getD page 0 = (P.host s row).getD page 0)
      (fun _ => True) (P.prepareAll ranges s) := by
  induction ranges generalizing s with
  | nil => exact ⟨h, by simp [Pending], fun _ _ hprivate => ⟨hprivate, rfl⟩⟩
  | cons r ranges ih =>
    refine ends_bind (P.prepare_ends r.1 r.2.1 r.2.2 h) fun _ s₁ hfirst => ?_
    obtain ⟨hsound, -, -, hready, hsteady⟩ := hfirst
    refine (ih hsound).mono (fun _ s' hrest => ?_) fun _ => id
    obtain ⟨hsound', hready', hsteady'⟩ := hrest
    refine ⟨hsound', ?_, fun row page hprivate => ?_⟩
    · rintro slot position ⟨r', hr', rfl, hlow, hhigh⟩
      rcases List.mem_cons.mp hr' with rfl | hr'
      · exact (hsteady' _ _ (hready position hlow hhigh)).1
      · exact hready' _ _ ⟨r', hr', rfl, hlow, hhigh⟩
    · obtain ⟨hprivate₁, hentry₁⟩ := hsteady row page hprivate
      obtain ⟨hprivate', hentry'⟩ := hsteady' row page hprivate₁
      exact ⟨hprivate', hentry'.trans hentry₁⟩

/-- On either arena: once the ranges of a round are prepared, no two of their positions share a row,
and no position that was private before has moved to another. -/
theorem pending_rows_distinct (P : KvPool σ ε) {s s' : σ} (h : P.Sound s) {ranges : List (Nat × Nat × Nat)}
    (hrun : P.prepareAll ranges s = .ok () s') :
    (∀ slot slot' position position', Pending ranges slot position → Pending ranges slot' position' →
      P.kvRow s' slot position = P.kvRow s' slot' position' → slot = slot' ∧ position = position') ∧
    ∀ slot position, P.Private s slot (position / P.pageSize) → P.kvRow s' slot position = P.kvRow s slot position := by
  obtain ⟨hsound, hready, hsteady⟩ := (P.prepareAll_ends h ranges).ok_of hrun
  refine ⟨fun slot slot' position position' hpending hpending' heq => ?_, fun slot position hprivate => ?_⟩
  · exact P.kvRow_inj hsound (hready slot position hpending) (hready slot' position' hpending') heq
  · exact P.kvRow_congr (hsteady slot _ hprivate).2

theorem pending_rows_distinct_smallPages :
    ∃ s', (dynamic SlotPool.smallPages).prepareAll [(0, 0, 3), (1, 1, 2)]
        (SlotPool.start SlotPool.smallPages fun _ _ => ()) = .ok () s' ∧
      (dynamic SlotPool.smallPages).kvRow s' 0 1 ≠ (dynamic SlotPool.smallPages).kvRow s' 1 1 := by
  have hok : raised ((dynamic SlotPool.smallPages).prepareAll [(0, 0, 3), (1, 1, 2)]
      (SlotPool.start SlotPool.smallPages fun _ _ => ())) = none := by decide +kernel
  cases hrun : (dynamic SlotPool.smallPages).prepareAll [(0, 0, 3), (1, 1, 2)]
      (SlotPool.start SlotPool.smallPages fun _ _ => ()) with
  | error e s' => rw [hrun] at hok; cases hok
  | ok a s' =>
    refine ⟨s', rfl, fun heq => ?_⟩
    have hrows := (pending_rows_distinct (dynamic SlotPool.smallPages) ⟨SlotPool.start_mapped, rfl⟩ hrun).1
    exact absurd (hrows 0 1 1 1 ⟨(0, 0, 3), by simp⟩ ⟨(1, 1, 2), by simp⟩ heq).1 (by decide)

end KvPool
