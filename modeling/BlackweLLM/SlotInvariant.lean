import BlackweLLM.PoolExchange
import BlackweLLM.SlotPool
import Mathlib.Data.List.GetD

/-!
# Who holds which page

A bundle is referenced once by every slot that has it in its set, and the set
is what the slot's row of the page table shows. The parts of one call of the
slot pool are followed through on these two facts.
-/

namespace SlotPool

open List Function BundlePool RaisingState

variable {β : Type} {s s' : Slots β} {slot b source target : Nat}

def holders (s : Slots β) (b : Nat) : Nat := (range s.geometry.numRows).countP fun slot => decide (b ∈ s.bundles slot)

/-- The references are those of the slots' sets. -/
structure Owned (s : Slots β) : Prop where
  valid : Valid s.arena
  config : s.arena.config = s.geometry.arena
  nodup : ∀ slot, (s.bundles slot).Nodup
  refCnt : ∀ b, s.arena.refCnt b = holders s b

/-- A row shows a set: each bundle of it once, and no other. -/
def Shows (row bundles : List Nat) : Prop := ∀ b, b ≠ 0 → row.count b = if b ∈ bundles then 1 else 0

/-- The rows show the sets, and the device has the same rows. -/
structure Mapped (s : Slots β) : Prop extends Owned s where
  shows : ∀ slot, Shows (s.host slot) (s.bundles slot)
  width : ∀ slot, (s.host slot).length = s.geometry.pagesPerSlot
  device : s.device = s.host
  promised : ∀ slot, s.geometry.numRows ≤ slot → reservedFor s.arena slot = 0
  outside : ∀ slot, s.geometry.numRows ≤ slot → s.bundles slot = []

section Arena

variable {α : Type} {x : PoolM Nat α} {a : α} {p : Pool Nat} {Q : α → Slots β → Prop} {E : Slots β → Prop}

theorem onArena_of_ok (h : x s.arena = .ok a p) : onArena x s = .ok a { s with arena := p } := zoom_of_ok h

theorem ends_onArena (h : Ends (fun a p => Q a { s with arena := p }) (fun p => E { s with arena := p }) (x s.arena)) :
    Ends Q E (onArena x s) := ends_zoom h

end Arena

section Counting

section

variable (hslot : slot < s.geometry.numRows)
include hslot

theorem holders_own (hnew : target ∉ s.bundles slot) (b : Nat) :
    holders (own slot target s) b = holders s b + if b = target then 1 else 0 := by
  by_cases hb : b = target
  · subst hb
    rw [if_pos rfl]
    apply Ledger.countP_range_succ_of_ne hslot
    · simpa using hnew
    · simp [own]
    · intro i hi
      simp [own, hi]
  · rw [if_neg hb, add_zero]
    apply countP_congr
    intro i _
    by_cases hi : i = slot
    · subst hi
      simp [own, hb]
    · simp [own, hi]

theorem holders_disown (hnodup : (s.bundles slot).Nodup) (hmem : source ∈ s.bundles slot) (b : Nat) :
    holders (disown slot source s) b + (if b = source then 1 else 0) = holders s b := by
  by_cases hb : b = source
  · subst hb
    rw [if_pos rfl]
    symm
    apply Ledger.countP_range_succ_of_ne hslot
    · simp [disown, hnodup.not_mem_erase]
    · simpa using hmem
    · intro i hi
      simp [disown, hi]
  · rw [if_neg hb, add_zero]
    apply countP_congr
    intro i _
    by_cases hi : i = slot
    · subst hi
      simp [disown, mem_erase_of_ne hb]
    · simp [disown, hi]

theorem holders_pos (hmem : b ∈ s.bundles slot) : 0 < holders s b := by
  rw [holders, countP_pos_iff]
  exact ⟨slot, mem_range.mpr hslot, by simpa using hmem⟩

end

theorem Owned.nullOnly (h : Owned s) : s.arena.config.reserved = 1 := by rw [h.config, s.geometry.nullOnly]

theorem Owned.usable (h : Owned s) (hlive : 0 < s.arena.refCnt b) : Usable s.arena b := by
  obtain ⟨cold, hot, hwf⟩ := h.valid
  by_contra hnot
  rw [(hwf.reserved b hnot).1] at hlive
  exact lt_irrefl 0 hlive

theorem Owned.live (h : Owned s) (hslot : slot < s.geometry.numRows) (hmem : b ∈ s.bundles slot) :
    0 < s.arena.refCnt b := by
  rw [h.refCnt]
  exact holders_pos hslot hmem

theorem Owned.not_mem (h : Owned s) (hslot : slot < s.geometry.numRows) (hspare : s.arena.refCnt b = 0) :
    b ∉ s.bundles slot := fun hmem => ne_of_gt (h.live hslot hmem) hspare

end Counting

section Steps

variable {p : Pool Nat}

@[simp] theorem own_bundles_self (s : Slots β) : (own slot target s).bundles slot = (s.bundles slot).insert target := by
  simp [own]

@[simp] theorem own_bundles_of_ne {o : Nat} (s : Slots β) (ho : o ≠ slot) :
    (own slot target s).bundles o = s.bundles o := by
  simp [own, ho]

@[simp] theorem disown_bundles_self (s : Slots β) :
    (disown slot source s).bundles slot = (s.bundles slot).erase source := by
  simp [disown]

@[simp] theorem disown_bundles_of_ne {o : Nat} (s : Slots β) (ho : o ≠ slot) :
    (disown slot source s).bundles o = s.bundles o := by
  simp [disown, ho]

/-- A slot takes a bundle from the queue. -/
theorem Owned.fresh (h : Owned s) (hslot : slot < s.geometry.numRows) (hfresh : Fresh s.arena slot target p)
    (hp : Valid p) : Owned (own slot target { s with arena := p }) where
  valid := hp
  config := hfresh.config.trans h.config
  nodup := by
    intro o
    by_cases ho : o = slot
    · subst ho
      simpa using (h.nodup o).insert
    · simpa [ho] using h.nodup o
  refCnt := by
    intro b
    have hnew : target ∉ s.bundles slot := h.not_mem hslot hfresh.spare
    have hheld := holders_own (s := { s with arena := p }) hslot hnew b
    have hbefore : holders { s with arena := p } b = s.arena.refCnt b := (h.refCnt b).symm
    rw [hheld, hbefore]
    simp only [own, hfresh.refCnt]
    split_ifs with hb
    · rw [hb, hfresh.spare]
    · rfl

/-- A slot exchanges one of its bundles. -/
theorem Owned.copied (h : Owned s) (hslot : slot < s.geometry.numRows) (hmem : source ∈ s.bundles slot)
    (hexchanged : Exchanged s.arena slot source target p) (hp : Valid p) :
    Owned (own slot target (disown slot source { s with arena := p })) where
  valid := hp
  config := hexchanged.config.trans h.config
  nodup := by
    intro o
    by_cases ho : o = slot
    · subst ho
      simpa using ((h.nodup o).erase source).insert
    · simpa [ho] using h.nodup o
  refCnt := by
    intro b
    have hspare : target ∉ s.bundles slot := h.not_mem hslot hexchanged.spare
    have hnew : target ∉ (disown slot source { s with arena := p }).bundles slot := by
      rw [disown_bundles_self]
      exact fun hin => hspare (mem_of_mem_erase hin)
    have hheld := holders_own (s := disown slot source { s with arena := p }) hslot hnew b
    have hleft := holders_disown (s := { s with arena := p }) hslot (h.nodup slot) hmem b
    have hbefore : holders { s with arena := p } b = s.arena.refCnt b := (h.refCnt b).symm
    have hcount := hexchanged.refCnt b
    rw [hbefore] at hleft
    rw [hheld]
    simp only [own, disown] at hleft ⊢
    by_cases hb : b = target
    · subst hb
      have hne : b ≠ source := fun heq => hspare (heq ▸ hmem)
      rw [if_neg hne, hexchanged.spare] at hleft
      rw [if_neg hne, if_pos rfl] at hcount
      rw [if_pos rfl]
      omega
    · rw [if_neg hb] at hcount ⊢
      omega

end Steps

section Rows

variable {row bundles : List Nat} {page : Nat}

theorem Shows.mem_iff (h : Shows row bundles) (hb : b ≠ 0) : b ∈ row ↔ b ∈ bundles := by
  rw [← count_pos_iff, h b hb]
  by_cases hmem : b ∈ bundles <;> simp [hmem]

theorem Shows.distinct (h : Shows row bundles) : (row.filter (· ≠ 0)).Nodup := by
  rw [nodup_iff_count_le_one]
  intro b
  by_cases hb : b = 0
  · subst hb
    rw [count_eq_zero.mpr (by simp)]
    exact Nat.zero_le 1
  · have hcount := h b hb
    have hle : (row.filter (· ≠ 0)).count b ≤ row.count b := Sublist.count_le _ filter_sublist
    split_ifs at hcount <;> omega

/-- No bundle stands on two pages. -/
theorem Shows.inj {i j : Nat} (h : Shows row bundles) (hi : row.getD i 0 ≠ 0) (heq : row.getD i 0 = row.getD j 0) :
    i = j := by
  have hilt : i < row.length := by
    by_contra hout
    exact hi (getD_eq_default _ _ (not_lt.mp hout))
  have hjlt : j < row.length := by
    by_contra hout
    exact hi (heq.trans (getD_eq_default _ _ (not_lt.mp hout)))
  have hcount := h _ hi
  rw [getD_eq_getElem _ _ hilt] at hi heq hcount
  rw [getD_eq_getElem _ _ hjlt] at heq
  by_contra hne
  have hmem : row[i] ∈ row.set j 0 := by
    rw [mem_iff_getElem?]
    exact ⟨i, by rw [getElem?_set_ne (Ne.symm hne), getElem?_eq_getElem hilt]⟩
  have hpos := count_pos_iff.mpr hmem
  have hset : (row.set j 0).count row[i] = row.count row[i] - 1 := by
    rw [count_set hjlt, ← heq]
    simp [Ne.symm hi]
  rw [hset, hcount] at hpos
  split_ifs at hpos <;> omega

theorem shows_replicate (n : Nat) : Shows (replicate n 0) [] := by
  intro b hb
  rw [count_eq_zero.mpr fun hmem => hb (eq_of_mem_replicate hmem)]
  simp

theorem Shows.set_null (h : Shows row bundles) (hpage : page < row.length) (hnull : row.getD page 0 = 0)
    (hnew : target ∉ bundles) : Shows (row.set page target) (bundles.insert target) := by
  intro b hb
  rw [getD_eq_getElem _ _ hpage] at hnull
  have hcount := h b hb
  rw [count_set hpage, hnull, hcount]
  by_cases hbt : target = b
  · subst hbt
    simp [hnew, Ne.symm hb]
  · simp [hbt, Ne.symm hbt, Ne.symm hb]

theorem Shows.set_copy (h : Shows row bundles) (hnodup : bundles.Nodup) (hpage : page < row.length)
    (hsource : row.getD page 0 = source) (hnull : source ≠ 0) (hnew : target ∉ bundles) :
    Shows (row.set page target) ((bundles.erase source).insert target) := by
  intro b hb
  rw [getD_eq_getElem _ _ hpage] at hsource
  have hmem : source ∈ row := hsource ▸ getElem_mem hpage
  have hheld : source ∈ bundles := (h.mem_iff hnull).mp hmem
  have hne : target ≠ source := fun heq => hnew (heq ▸ hheld)
  have hcount := h b hb
  rw [count_set hpage, hsource, hcount]
  by_cases hbt : b = target
  · subst hbt
    simp [hnew, Ne.symm hne]
  · by_cases hbs : b = source
    · subst hbs
      simp [hheld, hbt, Ne.symm hbt, hnodup.not_mem_erase]
    · simp [hbt, Ne.symm hbt, Ne.symm hbs, mem_erase_of_ne hbs]

/-- A row whose first entries are null takes over as many bundles. -/
theorem Shows.install {full : List Nat} (h : Shows row bundles) (hnull : ∀ b ∈ row.take full.length, b = 0)
    (hnodup : full.Nodup) (hnew : ∀ b ∈ full, b ∉ bundles) :
    Shows (full ++ row.drop full.length) (full ∪ bundles) := by
  intro b hb
  have hcount := h b hb
  have htake : (row.take full.length).count b = 0 := count_eq_zero.mpr fun hmem => hb (hnull b hmem)
  have hsplit : row.count b = (row.drop full.length).count b := by
    conv_lhs => rw [← take_append_drop full.length row, count_append, htake, zero_add]
  rw [count_append, ← hsplit, hcount, hnodup.count]
  by_cases hfull : b ∈ full
  · simp [hfull, hnew b hfull]
  · simp [hfull]

end Rows

section Table

variable {row : List Nat}

theorem pageRow_of (hslot : slot < s.geometry.numRows) : pageRow slot s = .ok (s.host slot) s := by
  have hin : ¬s.geometry.numRows ≤ slot := not_le.mpr hslot
  simp only [pageRow, bind_of_ok (get_apply s), bind_of_ok (raiseIf_of_not hin s), pure_apply]

theorem pageRow_of_outside (hslot : ¬slot < s.geometry.numRows) : pageRow slot s = .error (.noRow slot) s := by
  have hout : s.geometry.numRows ≤ slot := not_lt.mp hslot
  simp only [pageRow, bind_of_ok (get_apply s), bind_of_error (raiseIf_of hout s)]

theorem Shows.in_range (h : Owned s) (hslot : slot < s.geometry.numRows) (hshows : Shows row (s.bundles slot))
    (hmem : b ∈ row) : b < s.geometry.arena.numBundles := by
  by_cases hb : b = 0
  · rw [hb]
    exact Nat.lt_of_le_of_lt (Nat.zero_le _) s.geometry.arena.reserved_lt
  · have husable := h.usable (h.live hslot ((hshows.mem_iff hb).mp hmem))
    rw [← h.config]
    exact husable.2

/-- A row that shows its slot's set is accepted. -/
theorem setPageTableRow_of (h : Owned s) (hslot : slot < s.geometry.numRows)
    (hwidth : row.length = s.geometry.pagesPerSlot)
    (hshows : Shows row (s.bundles slot)) : setPageTableRow slot row s =
      .ok ⟨⟩ { s with host := update s.host slot row, device := update s.device slot row } := by
  have hin : ¬s.geometry.numRows ≤ slot := not_le.mpr hslot
  have hrange : ¬∃ page ∈ row, s.geometry.arena.numBundles ≤ page := by
    rintro ⟨page, hpage, hout⟩
    exact not_le.mpr (hshows.in_range h hslot hpage) hout
  simp only [setPageTableRow, bind_of_ok (get_apply s), bind_of_ok (raiseIf_of_not hin s),
    bind_of_ok (raiseIf_of_not (not_not.mpr hwidth) s), bind_of_ok (raiseIf_of_not hrange s),
    bind_of_ok (raiseIf_of_not (not_not.mpr hshows.distinct) s), set_apply]

/-- One slot's set has changed; with its new row every row shows its set again. -/
theorem Mapped.remapped (h : Mapped s) (h' : Owned s')
    (hframe : s' = { s with arena := s'.arena, bundles := s'.bundles, kv := s'.kv })
    (hothers : ∀ o, o ≠ slot → s'.bundles o = s.bundles o)
    (hpromised : ∀ o, o ≠ slot → reservedFor s'.arena o = reservedFor s.arena o) (hslot : slot < s.geometry.numRows)
    (hwidth : row.length = s.geometry.pagesPerSlot) (hshows : Shows row (s'.bundles slot)) :
    setPageTableRow slot row s' =
      .ok ⟨⟩ { s' with host := update s.host slot row, device := update s.host slot row } ∧
    Mapped { s' with host := update s.host slot row, device := update s.host slot row } := by
  have hgeometry : s'.geometry = s.geometry := by rw [hframe]
  have hhost : s'.host = s.host := by rw [hframe]
  have hdevice : s'.device = s.host := by rw [hframe]; exact h.device
  have hne : ∀ o, s.geometry.numRows ≤ o → o ≠ slot := fun o ho heq => not_le.mpr hslot (heq ▸ ho)
  constructor
  · rw [setPageTableRow_of h' (hgeometry ▸ hslot) (hgeometry ▸ hwidth) hshows, hhost, hdevice]
  · constructor
    · exact ⟨h'.valid, h'.config, h'.nodup, h'.refCnt⟩
    · intro o
      by_cases ho : o = slot
      · subst ho
        simpa using hshows
      · simpa [ho, hothers o ho] using h.shows o
    · intro o
      by_cases ho : o = slot
      · subst ho
        simpa [hgeometry] using hwidth
      · simpa [ho, hgeometry] using h.width o
    · rfl
    · intro o ho
      rw [hgeometry] at ho
      exact (hpromised o (hne o ho)).trans (h.promised o ho)
    · intro o ho
      rw [hgeometry] at ho
      exact (hothers o (hne o ho)).trans (h.outside o ho)

theorem pages_le {g : Geometry} {n : Nat} (h : n ≤ g.maxSeqLen) : g.pages n ≤ g.pagesPerSlot := by
  have hpos := g.pageSize_pos
  rw [Geometry.pages, Nat.div_le_iff_le_mul_add_pred hpos]
  rw [Geometry.maxSeqLen, mul_comm] at h
  omega

end Table

end SlotPool
