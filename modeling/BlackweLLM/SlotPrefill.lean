import BlackweLLM.SlotReservation
import BlackweLLM.SlotWrites

/-!
# Prefills inside a grant

A slot whose pages from a position on are empty or its own can be prefilled
from there as far as its grant goes: no page needs a copy, and a batch of such
slots is prepared and committed as a whole.
-/

namespace SlotPool

open List Function BundlePool RaisingState

variable {β : Type} {s s' : Slots β} {t : Granted β} {slot first length page₀ q past : Nat} {entries : List β}

section Clear

/-- From a page on, the row of a slot has no page that a write copies. -/
def Clear (s : Slots β) (slot page₀ : Nat) : Prop :=
  ∀ page, page₀ ≤ page → (s.host slot).getD page 0 = 0 ∨ Writable s ((s.host slot).getD page 0)

theorem Clear.of_null (h : ∀ page, page₀ ≤ page → (s.host slot).getD page 0 = 0) : Clear s slot page₀ :=
  fun page hpage => .inl (h page hpage)

theorem Clear.of_parts (h : Clear s slot page₀) (harena : s'.arena = s.arena) (hhost : s'.host = s.host) :
    Clear s' slot page₀ := by
  intro page hpage
  rw [hhost, Writable.congr harena]
  exact h page hpage

/-- Writes of any slot keep what is clear. -/
theorem Prepared.clear {o : Nat} {pages : List Nat} (h : Prepared s slot pages s') (hclear : Clear s o page₀) :
    Clear s' o page₀ := by
  intro page hpage
  by_cases hready : o = slot ∧ page ∈ pages
  · right
    rw [hready.1]
    exact h.ready page hready.2
  have hsame : (s'.host o).getD page 0 = (s.host o).getD page 0 := by
    by_cases ho : o = slot
    · subst ho
      exact h.kept page fun hmem => hready ⟨rfl, hmem⟩
    · rw [h.others o ho]
  rw [hsame]
  exact (hclear page hpage).imp id fun hwritable => (h.steady _ hwritable).1

/-- Nothing that a write inside the clear part touches is copied. -/
theorem Clear.not_mustCopy (h : Clear s slot page₀) (hlength : 0 < length)
    (hfirst : page₀ ≤ first / s.geometry.pageSize)
    {page : Nat} (hpage : page ∈ s.geometry.touched first length) (hentry : (s.host slot).getD page 0 ≠ 0) :
    ¬mustCopy s.arena ((s.host slot).getD page 0) := by
  obtain ⟨position, hle, -, rfl⟩ := (mem_touched hlength).mp hpage
  have hfrom := hfirst.trans (Nat.div_le_div_right hle)
  have hwritable := (h _ hfrom).resolve_left hentry
  exact fun hcopy => not_private_of_mustCopy hcopy ⟨hwritable.alone, hwritable.unpublished⟩

end Clear

section Prepare

/-- The guarantee is about geometry, arena and rows only. -/
theorem Guaranteed.of_parts (h : Guaranteed t) (hgeometry : s'.geometry = t.slots.geometry)
    (harena : s'.arena = t.slots.arena) (hhost : s'.host = t.slots.host) (hdevice : s'.device = t.slots.host)
    (hbundles : s'.bundles = t.slots.bundles) : Guaranteed ⟨s', t.granted⟩ where
  mapped := h.mapped.of_parts hgeometry harena hhost hdevice hbundles
  live := by
    rw [hgeometry]
    exact h.live
  inside := by
    rw [hgeometry]
    exact h.inside
  funded := by
    rw [harena]
    exact h.funded
  backed := by
    intro o
    rw [Granted.due, Granted.pages, hgeometry, harena, missing_congr (congrFun hhost o)]
    exact h.backed o

/-- A write inside the grant and the clear part succeeds. -/
theorem Guaranteed.prepares_clear (h : Guaranteed t) (hslot : slot < t.slots.geometry.numRows) (hlength : 0 < length)
    (hgrant : first + length ≤ t.granted slot) (hclear : Clear t.slots slot page₀)
    (hfirst : page₀ ≤ first / t.slots.geometry.pageSize) :
    ∃ s', prepareKvWrites slot first length t.slots = .ok ⟨⟩ s' ∧ Guaranteed ⟨s', t.granted⟩ ∧
      Prepared t.slots slot (t.slots.geometry.touched first length) s' := by
  have hsecured := h.secured hlength hgrant fun page hpage => hclear.not_mustCopy hlength hfirst hpage
  obtain ⟨s', hrun⟩ := h.prepares hslot (hgrant.trans (h.inside slot)) hsecured
  have hguaranteed := h.prepare fun _ _ _ => .inr (.inr hsecured)
  obtain ⟨-, ⟨hzero, -⟩ | ⟨-, -, -, hprepared⟩⟩ :=
    (prepareKvWrites_ends h.mapped fun _ _ _ => hsecured.covered h).ok_of hrun
  · exact absurd hzero (ne_of_gt hlength)
  · rw [hrun] at hguaranteed
    exact ⟨s', hrun, hguaranteed, hprepared⟩

end Prepare

section Forward

theorem foldl_writeEntry_frame (slot : Nat) (table : List Nat) (l : List (β × Nat)) (s : Slots β) :
    ∃ kv writes, l.foldl (fun s entry => writeEntry slot table (first + entry.2) entry.1 s) s =
      { s with kv := kv, writes := writes } := by
  induction l generalizing s with
  | nil => exact ⟨s.kv, s.writes, rfl⟩
  | cons entry l ih =>
    obtain ⟨kv, writes, hrest⟩ := ih (writeEntry slot table (first + entry.2) entry.1 s)
    exact ⟨kv, writes, hrest⟩

theorem writeKv_frame (slot : Nat) (table : List Nat) (first : Nat) (entries : List β) (s : Slots β) :
    ∃ kv writes, writeKv slot table first entries s = { s with kv := kv, writes := writes } :=
  foldl_writeEntry_frame slot table entries.zipIdx s

theorem foldl_writeKv_frame (past : Nat) (rows : List (Nat × List β)) (s : Slots β) :
    ∃ kv writes, rows.foldl (fun s row => writeKv row.1 (s.host row.1) past row.2 s) s =
      { s with kv := kv, writes := writes } := by
  induction rows generalizing s with
  | nil => exact ⟨s.kv, s.writes, rfl⟩
  | cons row rows ih =>
    obtain ⟨kv, writes, hfirst⟩ := writeKv_frame row.1 (s.host row.1) past row.2 s
    obtain ⟨kv', writes', hrest⟩ := ih { s with kv := kv, writes := writes }
    exact ⟨kv', writes', by rw [foldl_cons, hfirst, hrest]⟩

/-- A forward with room in the cache moves one slot's counters. -/
theorem forward_of (hslot : slot < s.geometry.numRows) (hfits : s.seen slot + entries.length ≤ s.geometry.maxSeqLen) :
    ∃ kv writes, forward slot entries s =
      .ok ⟨⟩ (advance slot entries.length { s with kv := kv, writes := writes }) := by
  obtain ⟨kv, writes, hwrite⟩ := writeKv_frame slot (s.device slot) (s.seen slot) entries s
  refine ⟨kv, writes, ?_⟩
  rw [forward, bind_of_ok (pageRow_of hslot), bind_of_ok (get_apply s),
    bind_of_ok (raiseIf_of_not (not_lt.mpr hfits) s), bind_of_ok (modify_apply _ s), modify_apply, hwrite]

structure Carried (s s' : Slots β) : Prop where
  geometry : s'.geometry = s.geometry
  column : s'.column = s.column
  clear : ∀ o page₀, Clear s o page₀ → Clear s' o page₀

/-- A serial chunk moves the state along, and not the committed length. -/
theorem Guaranteed.prefillSerial_of (h : Guaranteed t) (hslot : slot < t.slots.geometry.numRows)
    (hlength : 0 < entries.length)
    (hgrant : t.slots.seen slot + entries.length ≤ t.granted slot) (hclear : Clear t.slots slot page₀)
    (hfirst : page₀ ≤ t.slots.seen slot / t.slots.geometry.pageSize) :
    ∃ s', prefillSerial slot (t.slots.seen slot) entries t.slots = .ok ⟨⟩ s' ∧ Guaranteed ⟨s', t.granted⟩ ∧
      Carried t.slots s' ∧ s'.kvLen = t.slots.kvLen ∧
      s'.seen = update t.slots.seen slot (t.slots.seen slot + entries.length) ∧
      s'.hasPrevious = update t.slots.hasPrevious slot true := by
  obtain ⟨s₁, hprepare, hguaranteed, hprepared⟩ := h.prepares_clear hslot hlength hgrant hclear hfirst
  have hgeometry : s₁.geometry = t.slots.geometry := by rw [hprepared.frame]
  have hseen : s₁.seen = t.slots.seen := by rw [hprepared.frame]
  have hprevious : s₁.hasPrevious = t.slots.hasPrevious := by rw [hprepared.frame]
  have hfits : s₁.seen slot + entries.length ≤ s₁.geometry.maxSeqLen := by
    rw [hseen]
    exact hgrant.trans (hguaranteed.inside slot)
  obtain ⟨bytes, writes, hforward⟩ := forward_of (hgeometry ▸ hslot) hfits
  refine ⟨advance slot entries.length { s₁ with kv := bytes, writes := writes }, ?_, ?_, ⟨hgeometry, ?_, ?_⟩, ?_, ?_, ?_⟩
  · rw [prefillSerial, bind_of_ok hprepare, hforward]
  · exact hguaranteed.of_parts rfl rfl rfl hguaranteed.mapped.device rfl
  · change s₁.column = _
    rw [hprepared.frame]
  · exact fun o page₀ hfront => (hprepared.clear hfront).of_parts rfl rfl
  · change s₁.kvLen = _
    rw [hprepared.frame]
  · change update s₁.seen slot (s₁.seen slot + entries.length) = _
    rw [hseen]
  · change update s₁.hasPrevious slot true = _
    rw [hprevious]

end Forward

section Batch

variable {slots : List Nat} {rows : List (List β)}

/-- What `build_prefill_batch` asks of the slots before it looks at their states. -/
structure Batchable (s : Slots β) (slots : List Nat) (rows : List (List β)) (past q : Nat) : Prop where
  nonempty : slots ≠ []
  lengths : slots.length = rows.length
  distinct : slots.Nodup
  uniform : ∀ row ∈ rows, row.length = q
  positive : 0 < q
  valid : ∀ slot ∈ slots, slot < s.geometry.numSlots
  kvLen : ∀ slot ∈ slots, s.kvLen slot = past
  fits : past + q ≤ s.geometry.maxSeqLen

theorem headD_mem {l : List Nat} (h : l ≠ []) : l.headD 0 ∈ l := by
  cases l with
  | nil => exact absurd rfl h
  | cons a l => exact mem_cons_self

section

variable (h : Batchable s slots rows past q)
include h

theorem Batchable.rows_ne_nil : rows ≠ [] := by
  rintro rfl
  exact h.nonempty (length_eq_zero_iff.mp h.lengths)

theorem Batchable.headD_length : (rows.headD []).length = q := by
  have hrows := h.rows_ne_nil
  cases rows with
  | nil => exact absurd rfl hrows
  | cons row rows => exact h.uniform row mem_cons_self

theorem Batchable.headD_kvLen : s.kvLen (slots.headD 0) = past :=
  h.kvLen _ (headD_mem h.nonempty)

end

/-- Only the states of the slots are still in question. -/
theorem checkPrefillBatch_eq (h : Batchable s slots rows past q) : checkPrefillBatch slots rows s = (do
    forM slots fun slot => do
      raiseIf (s.seen slot ≠ past) (.batchStateLength slot (s.seen slot) past)
      raiseIf (s.column slot ≠ 0) .batchRows
    raiseIf (∃ slot ∈ slots, s.hasPrevious slot ≠ s.hasPrevious (slots.headD 0)) .batchRegimes
    pure past : SlotM β Nat) s := by
  have hslots : ¬(slots = [] ∨ slots.length ≠ rows.length ∨ ¬slots.Nodup) := by
    simp [h.nonempty, h.lengths, h.distinct]
  have hlengths : ¬((rows.headD []).length = 0 ∨ ∃ row ∈ rows, row.length ≠ (rows.headD []).length) := by
    rw [h.headD_length]
    rintro (hzero | ⟨row, hrow, hne⟩)
    · exact ne_of_gt h.positive hzero
    · exact hne (h.uniform row hrow)
  have hvalid : ¬∃ slot ∈ slots, s.geometry.numSlots ≤ slot := by
    rintro ⟨slot, hslot, hle⟩
    exact not_lt.mpr hle (h.valid slot hslot)
  have hprior : ¬∃ slot ∈ slots, s.kvLen slot ≠ s.kvLen (slots.headD 0) := by
    rintro ⟨slot, hslot, hne⟩
    rw [h.kvLen slot hslot, h.headD_kvLen] at hne
    exact hne rfl
  have hfits : ¬s.geometry.maxSeqLen < s.kvLen (slots.headD 0) + (rows.headD []).length := by
    rw [h.headD_kvLen, h.headD_length]
    exact not_lt.mpr h.fits
  rw [checkPrefillBatch, bind_of_ok (get_apply s), bind_of_ok (raiseIf_of_not hslots s),
    bind_of_ok (raiseIf_of_not hlengths s), bind_of_ok (raiseIf_of_not hvalid s),
    bind_of_ok (raiseIf_of_not hprior s), bind_of_ok (raiseIf_of_not hfits s), h.headD_kvLen]

/-- Fresh live states in one regime pass. -/
theorem checkPrefillBatch_of (h : Batchable s slots rows past q) (hseen : ∀ slot ∈ slots, s.seen slot = past)
    (hcolumn : ∀ slot ∈ slots, s.column slot = 0) {regime : Bool}
    (hregime : ∀ slot ∈ slots, s.hasPrevious slot = regime) : checkPrefillBatch slots rows s = .ok past s := by
  have hloop : ∃ s', (forM slots fun slot => do
      raiseIf (s.seen slot ≠ past) (.batchStateLength slot (s.seen slot) past)
      raiseIf (s.column slot ≠ 0) .batchRows : SlotM β Unit) s = .ok ⟨⟩ s' ∧ s' = s := by
    apply forM_succeeds (I := fun _ s' => s' = s)
    · rintro done slot rest s' hslots rfl
      have hslot : slot ∈ slots := by simp [hslots]
      refine ⟨s', ?_, rfl⟩
      rw [bind_of_ok (raiseIf_of_not (not_not.mpr (hseen slot hslot)) s'),
        raiseIf_of_not (not_not.mpr (hcolumn slot hslot)) s']
    · rfl
  obtain ⟨s', hrun, rfl⟩ := hloop
  have hregimes : ¬∃ slot ∈ slots, s'.hasPrevious slot ≠ s'.hasPrevious (slots.headD 0) := by
    rintro ⟨slot, hslot, hne⟩
    rw [hregime slot hslot, hregime _ (headD_mem h.nonempty)] at hne
    exact hne rfl
  rw [checkPrefillBatch_eq h, bind_of_ok hrun, bind_of_ok (raiseIf_of_not hregimes s'), pure_apply]

/-- A state that is ahead of the committed length is an error, and not a `ValueError`. -/
theorem buildPrefillBatch_ahead (h : Batchable s slots rows past q) (hseen : ∀ slot ∈ slots, s.seen slot ≠ past) :
    ∃ slot seen, buildPrefillBatch slots rows s = .error (.batchStateLength slot seen past) s := by
  have hnonempty := h.nonempty
  rw [buildPrefillBatch]
  have hcheck := checkPrefillBatch_eq h
  cases slots with
  | nil => exact absurd rfl hnonempty
  | cons slot slots =>
    refine ⟨slot, s.seen slot, bind_of_error ?_⟩
    rw [hcheck]
    apply bind_of_error
    rw [forM_cons]
    apply bind_of_error
    exact bind_of_error (raiseIf_of (hseen slot mem_cons_self) s)

theorem prepares_of (h : Guaranteed t) (hlength : 0 < length) (hslots : ∀ slot ∈ slots,
      slot < t.slots.geometry.numRows ∧ first + length ≤ t.granted slot ∧ Clear t.slots slot 0) :
    ∃ s', (forM slots fun slot => prepareKvWrites slot first length) t.slots = .ok ⟨⟩ s' ∧
      Guaranteed ⟨s', t.granted⟩ ∧
      s' = { t.slots with
        arena := s'.arena, bundles := s'.bundles, host := s'.host, device := s'.device, kv := s'.kv } ∧
      ∀ o page₀, Clear t.slots o page₀ → Clear s' o page₀ := by
  apply forM_succeeds (I := fun _ s' => Guaranteed ⟨s', t.granted⟩ ∧
    s' = { t.slots with arena := s'.arena, bundles := s'.bundles, host := s'.host, device := s'.device, kv := s'.kv } ∧
    ∀ o page₀, Clear t.slots o page₀ → Clear s' o page₀)
  · rintro done slot rest s₁ hsplit ⟨hguaranteed, hframe, hclear⟩
    obtain ⟨hslot, hgrant, hfront⟩ := hslots slot (by simp [hsplit])
    have hgeometry : s₁.geometry = t.slots.geometry := by rw [hframe]
    obtain ⟨s₂, hrun, hguaranteed₂, hprepared⟩ := hguaranteed.prepares_clear (hgeometry ▸ hslot) hlength hgrant
      (hclear _ _ hfront) (Nat.zero_le _)
    refine ⟨s₂, hrun, hguaranteed₂, ?_, fun o page₀ hfront => hprepared.clear (hclear o page₀ hfront)⟩
    rw [hprepared.frame, hframe]
  · exact ⟨h, rfl, fun _ _ => id⟩

/-- The counters of the slots of a batch move on together. -/
theorem foldl_commitPrefillOne {l : List (Nat × List β)} (hdistinct : (l.map (·.1)).Nodup)
    (hlengths : ∀ row ∈ l, row.2.length = q) (s : Slots β) (o : Nat) :
    (l.foldl (fun s row => commitPrefillOne row.2.length row.1 s) s).kvLen o =
        (if o ∈ l.map (·.1) then s.kvLen o + q else s.kvLen o) ∧
      (l.foldl (fun s row => commitPrefillOne row.2.length row.1 s) s).seen o =
        (if o ∈ l.map (·.1) then s.kvLen o + q else s.seen o) ∧
      (l.foldl (fun s row => commitPrefillOne row.2.length row.1 s) s).hasPrevious o =
        (if o ∈ l.map (·.1) then true else s.hasPrevious o) := by
  induction l generalizing s with
  | nil => simp
  | cons row l ih =>
    rw [map_cons, nodup_cons] at hdistinct
    have hrest := ih hdistinct.2 (fun row hrow => hlengths row (mem_cons_of_mem _ hrow))
      (commitPrefillOne row.2.length row.1 s)
    have hq := hlengths row mem_cons_self
    rw [foldl_cons, hrest.1, hrest.2.1, hrest.2.2, hq, map_cons]
    by_cases ho : o = row.1
    · subst ho
      simp only [commitPrefillOne, hdistinct.1, mem_cons_self, if_true, if_false, update_self, and_self]
    · simp only [commitPrefillOne, mem_cons, ho, false_or, update_of_ne ho, and_self]

/-- A batched chunk of slots that are all ready for it. -/
theorem Guaranteed.prefillBatched_of (h : Guaranteed t) (hbatch : Batchable t.slots slots rows past q)
    (hgrant : ∀ slot ∈ slots, past + q ≤ t.granted slot) (hclear : ∀ slot ∈ slots, Clear t.slots slot 0)
    (hseen : ∀ slot ∈ slots, t.slots.seen slot = past) (hcolumn : ∀ slot ∈ slots, t.slots.column slot = 0)
    {regime : Bool} (hregime : ∀ slot ∈ slots, t.slots.hasPrevious slot = regime) :
    ∃ s₁, buildPrefillBatch slots rows t.slots = .ok past s₁ ∧
      Guaranteed ⟨forwardBatch slots rows past s₁, t.granted⟩ ∧ Carried t.slots (forwardBatch slots rows past s₁) ∧
      ∀ o, (forwardBatch slots rows past s₁).kvLen o = (if o ∈ slots then past + q else t.slots.kvLen o) ∧
        (forwardBatch slots rows past s₁).seen o = (if o ∈ slots then past + q else t.slots.seen o) ∧
        (forwardBatch slots rows past s₁).hasPrevious o = (if o ∈ slots then true else t.slots.hasPrevious o) := by
  have hready : ∀ slot ∈ slots, slot < t.slots.geometry.numRows ∧ past + q ≤ t.granted slot ∧ Clear t.slots slot 0 :=
    fun slot hslot => ⟨Nat.lt_succ_of_lt (hbatch.valid slot hslot), hgrant slot hslot, hclear slot hslot⟩
  obtain ⟨s₁, hprepares, hguaranteed, hframe, hkept⟩ := prepares_of h hbatch.positive hready
  have hbuild : buildPrefillBatch slots rows t.slots = .ok past s₁ := by
    rw [buildPrefillBatch, bind_of_ok (checkPrefillBatch_of hbatch hseen hcolumn hregime), hbatch.headD_length,
      bind_of_ok hprepares, pure_apply]
  obtain ⟨bytes, writes, hwrite⟩ := foldl_writeKv_frame past (slots.zip rows) s₁
  have hslots : (slots.zip rows).map (·.1) = slots := map_fst_zip hbatch.lengths.le
  have hdistinct : ((slots.zip rows).map (·.1)).Nodup := hslots.symm ▸ hbatch.distinct
  have hlengths : ∀ row ∈ slots.zip rows, row.2.length = q :=
    fun row hrow => hbatch.uniform row.2 (of_mem_zip hrow).2
  have hforward : forwardBatch slots rows past s₁ =
      (slots.zip rows).foldl (fun s row => commitPrefillOne row.2.length row.1 s) { s₁ with kv := bytes, writes := writes } := by
    rw [forwardBatch, hwrite]
  have hcounters := foldl_commitPrefillOne hdistinct hlengths { s₁ with kv := bytes, writes := writes }
  have hrest := commitPrefill_counters (slots.zip rows) { s₁ with kv := bytes, writes := writes }
  refine ⟨s₁, hbuild, ?_⟩
  rw [hforward]
  refine ⟨?_, ⟨?_, ?_, fun o page₀ hfront => ?_⟩, fun o => ?_⟩
  · rw [hrest]
    exact hguaranteed.of_parts rfl rfl rfl hguaranteed.mapped.device rfl
  · rw [hrest, hframe]
  · rw [hrest, hframe]
  · rw [hrest]
    exact (hkept o page₀ hfront).of_parts rfl rfl
  · obtain ⟨hkvLen, hstate, hprevious⟩ := hcounters o
    rw [hslots] at hkvLen hstate hprevious
    have hkv : s₁.kvLen = t.slots.kvLen := by rw [hframe]
    have hlen : o ∈ slots → s₁.kvLen o = past := fun ho => (congrFun hkv o).trans (hbatch.kvLen o ho)
    rw [hkvLen, hstate, hprevious]
    by_cases ho : o ∈ slots
    · simp only [if_pos ho, hlen ho, and_self]
    · simp only [if_neg ho]
      rw [hframe]
      exact ⟨rfl, rfl, rfl⟩

end Batch

end SlotPool
