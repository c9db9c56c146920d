import BlackweLLM.FlashNextAdmission

/-!
# Flash-Next checkpoints over runs

A checkpoint keeps the small recurrent state by copy and its K/V rows in place.
An admission that goes on from a shallower boundary writes over the rows of the
deeper ones and drops none of them, so a checkpoint holds what is its own as long
as every prompt that goes on from a hit goes through the checkpoints behind it.
-/

namespace FlashNext

open List

open RaisingState (raiseIf Ends ends_bind ends_get_bind ends_set_bind ends_raiseIf_bind)

variable {V : Type} {C : Config V} {a : Admission C} {s : Slot C} {e : Entry C}

section Start

theorem restoredLayers_rows {M : Model V} {q : ℕ} {cs : List (LayerState V)} {states : List (V × V)}
    (hcs : cs.length = M.layers.length) (hstates : states.length = M.layers.length) :
    RowsAt M true q
      (zipWith (fun c (state : V × V) => ((state.1, { c.2 with gdn := state.2 }) : LayerState V)) cs states) cs := by
  unfold RowsAt
  generalize M.layers = Ls at hcs hstates ⊢
  induction Ls generalizing cs states with
  | nil =>
    cases length_eq_zero_iff.mp hcs
    exact trivial
  | cons L Ls ih =>
    cases cs with
    | nil => cases hcs
    | cons c cs =>
      cases states with
      | nil => cases hstates
      | cons state states =>
        exact ⟨fun _ _ => ⟨rfl, rfl, fun _ => rfl, fun _ => rfl⟩, ih (Nat.succ.inj hcs) (Nat.succ.inj hstates)⟩

/-- The draft head's row at a target-only checkpoint's end is forced with the token that the prompt goes on
with. -/
def BoundaryContinues (s : Slot C) (a : Admission C) (e : Entry C) : Prop :=
  match e.mtpTeacherHidden with
  | none => False
  | some hidden => s.mtp.rows (e.kvLen - 1) =
      C.draftRow ((range (e.kvLen - 1)).map s.mtp.rows) hidden.2 (embedAt C a.rows e.kvLen)

instance [DecidableEq V] (s : Slot C) (a : Admission C) (e : Entry C) : Decidable (BoundaryContinues s a e) := by
  unfold BoundaryContinues
  split <;> infer_instance

/-- The prompt of an admission that goes on from a checkpoint goes through every checkpoint behind it. -/
structure GoesThrough (s : Slot C) (a : Admission C) (e : Entry C) : Prop where
  authentic : ∀ e' ∈ s.history, e.kvLen ≤ e'.kvLen → Authentic a e'
  boundary : C.enableMtp → ¬e.mtpReady → e.kvLen < a.promptIds.length → BoundaryContinues s a e
  remembers : Remembers a e.kvLen

theorem restored_drafts (hmtp : C.enableMtp) (hown : EntryOwn e) (hheld : EntryHeld s e)
    (hgoes : GoesThrough s a e) (hrows : e.given = a.vision.isSome ∧ e.rows <+: a.rows) :
    DraftsTo C a.vision.isSome a.rows (e.kvLen - if Rewinds a.promptIds e then 1 else 0) s.mtp.rows := by
  obtain ⟨hgiven, hpre⟩ := hrows
  have hdrafts := hheld.drafts hmtp
  have hpos := hown.pos
  have hlen := hpre.length_le
  rw [Entry.rows_length, Admission.rows_length] at hlen
  rw [hgiven] at hdrafts
  have hbelow : ∀ i, i + 1 < e.kvLen → s.mtp.rows i = coldDraft C a.vision.isSome a.rows i := by
    intro i hi
    rw [hdrafts.below i (by rwa [Entry.rows_length]), coldDraft_front hpre (by rwa [Entry.rows_length])]
  constructor
  · intro i hi hnext
    rw [Admission.rows_length] at hnext
    by_cases hlast : i + 1 < e.kvLen
    · exact hbelow i hlast
    · have hnot : ¬Rewinds a.promptIds e := fun h => by rw [if_pos h] at hi; omega
      have hlt : e.kvLen < a.promptIds.length := by omega
      have hready : ¬e.mtpReady := fun h => hnot ⟨h, .inl hlt⟩
      have hboundary := hgoes.boundary hmtp hready hlt
      obtain rfl : i = e.kvLen - 1 := by omega
      have hrange : (range (e.kvLen - 1)).map s.mtp.rows =
          (range (e.kvLen - 1)).map (coldDraft C a.vision.isSome a.rows) := by
        refine map_congr_left fun i hi => hbelow i ?_
        rw [mem_range] at hi
        omega
      rw [BoundaryContinues, hown.teacher hmtp] at hboundary
      dsimp only at hboundary
      rw [hboundary, hrange, coldDraft_row (by rw [Admission.rows_length]; omega), hgiven,
        hiddenAt_front hpre (by rw [Entry.rows_length]; omega), Nat.sub_add_cancel hpos]
  · intro hle
    rw [Admission.rows_length] at hle
    have heq : e.rows = a.rows := hpre.eq_of_length (by rw [Entry.rows_length, Admission.rows_length]; omega)
    rw [← heq]
    exact hdrafts.last

/-- A hit starts the admission at the checkpoint. -/
theorem restored_admitting (hkept : Kept s) (hentries : EntriesSynced s)
    (hhit : hitEntry a.promptIds a.cacheKey s = some e) (hgoes : GoesThrough s a e) :
    Admitting a e.kvLen (e.kvLen - if Rewinds a.promptIds e then 1 else 0) e.kvLen
      (restorePrefixSnapshot a.promptIds e (resetRuntime true { s with pending := none })) := by
  obtain ⟨hmem, n, hsel⟩ := hitEntry_spec hhit
  have hsynced : EntrySynced e := hentries e hmem
  obtain ⟨hown, -⟩ := hkept.entries e hmem
  have hrows := (hgoes.authentic e hmem le_rfl).rows hown
  have htake : a.rows.take e.kvLen = e.rows := by
    rw [← Entry.rows_length e]
    exact (prefix_iff_eq_take.mp hrows.2).symm
  let cleared : Slot C := resetRuntime true { s with pending := none }
  have hcleared : ∀ e' ∈ s.history, EntryHeld cleared e' := by
    intro e' he'
    obtain ⟨hown', hheld'⟩ := hkept.entries e' he'
    have hheld'' : EntryHeld ({ s with pending := none } : Slot C) e' := ⟨hheld'.pools, hheld'.drafts⟩
    exact resetRuntime_held (s := { s with pending := none }) hkept.layers he' hown'.pos hheld''
  have hlayers : cleared.session.layers.length = C.model.layers.length := by
    change (s.session.layers.map _).length = _
    rw [length_map, hkept.layers]
  have hstates : e.states.length = C.model.layers.length := by
    rw [hown.states, length_map, cold_length]
  have hmtprows : (restorePrefixSnapshot a.promptIds e cleared).mtp.rows = cleared.mtp.rows :=
    restorePrefixSnapshot_rows a.promptIds e hsynced cleared
  have hclearedrows : cleared.mtp.rows = s.mtp.rows := by
    have hne : s.history.isEmpty = false := isEmpty_eq_false_iff.mpr (ne_nil_of_mem hmem)
    simp only [cleared, resetRuntime, hne, Bool.not_false, Bool.and_true, Bool.not_true]
    split <;> rfl
  constructor
  · constructor
    · rw [htake, Entry.rows_length]
      rfl
    · change e.window.1 = _
      rw [hown.window, htake, Entry.rows, inputs_tokens]
    · rw [htake, Entry.rows_length, ← hrows.1]
      change Cascade.Layered _ _ (zipWith _ cleared.session.layers e.states) _
      rw [hown.states]
      refine restoredLayers_warm hlayers (cold_length _ _ _) fun q hq => (hcleared e hmem).pools q ?_
      rwa [Entry.rows_length]
  · intro hmtp
    rw [hmtprows, hclearedrows]
    exact restored_drafts hmtp hown (hkept.entries e hmem).2 hgoes hrows
  · exact restorePrefixSnapshot_synced a.promptIds hsynced cleared
  · intro e' he'
    obtain ⟨hown', -⟩ := hkept.entries e' he'
    refine ⟨hown', (hcleared e' he').of_rows hown'.pos (fun q _ => ?_) fun i _ => by rw [hmtprows]⟩
    exact restoredLayers_rows hlayers hstates
  · intro e' he'
    by_cases hlt : e'.kvLen < e.kvLen
    · exact .inl hlt
    · exact .inr ((hgoes.authentic e' he' (not_lt.mp hlt)).rows (hkept.entries e' he').1)

/-- A miss starts it from nothing, without a checkpoint. -/
theorem cold_admitting (a : Admission C) (hlayers : s.session.layers.length = C.model.layers.length)
    (hne : a.promptIds ≠ []) :
    Admitting a 0 0 0 (resetRuntime false { s with history := [], pending := none }) := by
  have hpos : 0 < a.rows.length := by
    rw [Admission.rows_length]
    exact length_pos_of_ne_nil hne
  have hwarm : Cascade.Layered (LayerWarm C.model a.vision.isSome 0) C.model.layers
      (resetRuntime false { s with history := [], pending := none }).session.layers (coldLayers C.model) := by
    change Cascade.Layered _ _ (s.session.layers.map _) _
    unfold coldLayers
    generalize C.model.layers = Ls at hlayers ⊢
    generalize s.session.layers = cs at hlayers ⊢
    induction Ls generalizing cs with
    | nil =>
      cases length_eq_zero_iff.mp hlayers
      exact trivial
    | cons L Ls ih =>
      cases cs with
      | nil => cases hlayers
      | cons c cs => exact ⟨⟨rfl, rfl, fun q hq => absurd hq (Nat.not_lt_zero q)⟩, ih cs (Nat.succ.inj hlayers)⟩
  constructor
  · exact ⟨rfl, by simp [resetRuntime, zeroState, rtake], hwarm⟩
  · exact fun _ => ⟨fun i hi => absurd hi (Nat.not_lt_zero i), fun hle => by omega⟩
  · exact resetRuntime_cold _
  · intro e he
    cases he
  · intro e he
    cases he

theorem Resumes.cold (a : Admission C) : Resumes a none 0 0 :=
  ⟨SuffixStart.cold a, Nat.zero_le 1, fun _ => by simp [Admission.teacherRow, Admission.resync, coldHidden, FlashNext.cold, prefillRows]⟩

/-- The boundary row of a checkpoint, as a cold prefill gives it. -/
theorem boundary_row {given : Bool} {W : List (Input V)} {n : ℕ} (hpos : 0 < n) (hn : n ≤ W.length) :
    (coldHidden C.model given (W.take n)).drop (n - 1) = [(n - 1, hiddenAt C given (W.take n) (n - 1))] := by
  have hlen : (W.take n).length = n := by
    rw [length_take]
    omega
  have hlt : n - 1 < (coldHidden C.model given (W.take n)).length := by
    rw [coldHidden_length]
    omega
  rw [drop_eq_getElem_cons hlt, drop_of_length_le (by rw [coldHidden_length]; omega), hiddenAt,
    getD_eq_getElem _ _ (by rwa [length_map])]
  simp [coldHidden]

theorem Resumes.hit (hkept : Kept s) (hentries : EntriesSynced s) (hhit : hitEntry a.promptIds a.cacheKey s = some e)
    (hgoes : GoesThrough s a e) (hlt : e.kvLen < a.promptIds.length) :
    Resumes a (some e) e.kvLen (e.kvLen - if Rewinds a.promptIds e then 1 else 0) := by
  obtain ⟨hmem, n, hsel⟩ := hitEntry_spec hhit
  have hsynced : EntrySynced e := hentries e hmem
  obtain ⟨hown, -⟩ := hkept.entries e hmem
  have hrows := (hgoes.authentic e hmem le_rfl).rows hown
  refine ⟨SuffixStart.hit hsynced hsel hlt, by split <;> omega, fun hmtp => ?_⟩
  have hlen : e.kvLen ≤ a.rows.length := by
    rw [Admission.rows_length]
    exact hlt.le
  obtain ⟨hready, hplain⟩ := teacherRow_eq hsynced hsel
  by_cases hr : e.mtpReady
  · have htake : a.rows.take e.kvLen = e.rows := by
      rw [← Entry.rows_length e]
      exact (prefix_iff_eq_take.mp hrows.2).symm
    rw [if_pos ⟨hr, .inl hlt⟩, boundary_row hown.pos hlen, htake, ← hrows.1]
    have hresync : a.resync (some e) := ⟨hmtp, hr, hsel.decodeMode hr, by rw [hown.teacher hmtp]; rfl⟩
    rw [Admission.teacherRow, if_pos hresync, Option.bind_some, hown.teacher hmtp]
    rfl
  · rw [if_neg (fun h => hr h.1), hplain (fun h => hr h.2), Nat.sub_zero, drop_of_length_le]
    rw [coldHidden_length, length_take]
    omega

end Start

section Calls

/-- What an admission, a round or a decode step leaves. -/
structure KeptAt (n : ℕ) (s : Slot C) : Prop where
  kept : Kept s
  pos : s.session.pos = n
  below : ∀ e ∈ s.history, e.kvLen ≤ n

theorem Admitting.keptAt {hit : ℕ} (h : Admitting a hit a.promptIds.length a.promptIds.length s)
    (hhit : hit ≤ a.promptIds.length) : KeptAt a.promptIds.length s := by
  refine ⟨h.kept, h.synced.pos, fun e he => ?_⟩
  rcases h.fits e he with hlt | ⟨-, hpre⟩
  · omega
  · have hle := hpre.length_le
    rwa [Entry.rows_length, Admission.rows_length] at hle

/-- A proposal writes from the draft head's length on. -/
theorem syncAndPropose_above (next : List V) (hidden : List (ℕ × V)) (proposal : Proposal C) {p : ℕ}
    (hp : p ≤ s.mtp.syncLen) :
    Ends (fun _ s' => ∃ mtp : MtpSession V, s' = { s with mtp := mtp } ∧ ∀ i < p, mtp.rows i = s.mtp.rows i)
      (fun s' => ∃ mtp : MtpSession V, s' = { s with mtp := mtp } ∧ ∀ i < p, mtp.rows i = s.mtp.rows i)
      (syncAndPropose next hidden proposal s) := by
  refine ends_bind ((syncRealSuffix_ends next hidden s).mono (fun _ _ h => h) ?_) ?_
  · rintro s' rfl
    exact ⟨s'.mtp, rfl, fun _ _ => rfl⟩
  · rintro _ _ ⟨-, rfl⟩
    refine (continueDraft_ends proposal _).mono ?_ ?_
    · rintro drafts s' ⟨-, rfl⟩
      refine ⟨_, rfl, fun i hi => ?_⟩
      have hbelow : forceRows C.draftRow s.mtp.rows s.mtp.syncLen ((hidden.map Prod.snd).zip next) i = s.mtp.rows i :=
        forceRows_below (by omega)
      refine Eq.trans (LagunaRing.scatter_of_notMem _ _ fun hmem => ?_) hbelow
      simp only [mem_map, mem_mapIdx] at hmem
      obtain ⟨_, ⟨j, hj, rfl⟩, heq⟩ := hmem
      simp only at heq
      omega
    · rintro s' rfl
      exact ⟨_, rfl, fun i hi => forceRows_below (by omega)⟩

theorem Kept.of_mtp {mtp : MtpSession V} {p : ℕ} (h : Kept s) (hbelow : ∀ e ∈ s.history, e.kvLen ≤ p)
    (hrows : ∀ i < p, mtp.rows i = s.mtp.rows i) : Kept { s with mtp := mtp } := by
  refine ⟨h.layers, fun e he => ?_⟩
  obtain ⟨hown, hheld⟩ := h.entries e he
  have hle := hbelow e he
  exact ⟨hown, hheld.of_rows hown.pos (fun q _ => Cascade.Layered.refl (fun _ _ _ _ => RowHolds.refl _ _) h.layers)
    fun i hi => hrows i (by omega)⟩

theorem KeptAt.of_slotTokens {n : ℕ} (h : KeptAt n s) (ids : List ℕ) : KeptAt n { s with slotTokens := ids } :=
  ⟨⟨h.kept.layers, fun e he => ⟨(h.kept.entries e he).1, (h.kept.entries e he).2.pools, (h.kept.entries e he).2.drafts⟩⟩,
    h.pos, h.below⟩

/-- A full hit writes at most the boundary row's next token and what lies behind the prompt. -/
theorem fullHit_kept (hsynced : EntrySynced e) (hown : EntryOwn e) (hlen : e.kvLen = a.promptIds.length)
    (hmode : e.mtpReady → e.decodeMode = a.decodeMode) (hrows : e.given = a.vision.isSome ∧ e.rows <+: a.rows)
    (h : Admitting a e.kvLen (e.kvLen - if Rewinds a.promptIds e then 1 else 0) e.kvLen s) :
    Ends (fun _ => KeptAt a.promptIds.length) Kept (fullHit a e s) := by
  have hpos := hown.pos
  have hkeptAt : KeptAt a.promptIds.length s := by
    refine ⟨h.kept, h.synced.pos.trans hlen, fun e' he' => ?_⟩
    rcases h.fits e' he' with hlt | ⟨-, hpre⟩
    · omega
    · have hle := hpre.length_le
      rwa [Entry.rows_length, Admission.rows_length] at hle
  unfold fullHit
  by_cases hmtp : C.enableMtp
  · have hboundary := hsynced.1 hmtp
    by_cases hsampled : a.sampled ∧ C.enableMtp ∧ e.mtpReady ∧ e.decodeMode = .sampled
    · have hrewinds : Rewinds a.promptIds e := ⟨hsampled.2.2.1, .inr hsampled.2.2.2⟩
      rw [if_pos hrewinds, hlen] at h
      have heq : e.rows = a.rows := hrows.2.eq_of_length (by rw [Entry.rows_length, Admission.rows_length, hlen])
      have hfeeds : Feeds a (a.promptIds.length - 1) a.promptIds.length [C.model.embed a.anchor]
          [(e.kvLen - 1, hiddenAt C e.given e.rows (e.kvLen - 1))] := by
        refine ⟨?_, fun j _ hnext => ?_⟩
        · rw [boundary_row (by omega) (by rw [Admission.rows_length]), ← Admission.rows_length, take_length, heq,
            hrows.1, hlen, Admission.rows_length]
        · rw [Admission.rows_length] at hnext
          omega
      rw [if_pos hsampled, hown.teacher hmtp]
      dsimp only
      rw [← hlen] at h
      have hcall := Admitting.syncAndPropose (hlen ▸ h) hmtp (by omega) (by omega) hfeeds a.proposal
      exact ends_bind hcall fun drafts s' h' => (h'.keptAt le_rfl).of_slotTokens a.promptIds
    · have hrewinds : ¬Rewinds a.promptIds e := by
        rintro ⟨hready, hlt | hsampled'⟩
        · omega
        · refine hsampled ⟨?_, hmtp, hready, hsampled'⟩
          rw [hmode hready, Admission.decodeMode] at hsampled'
          by_contra hnot
          rw [if_neg hnot] at hsampled'
          cases hsampled'
      rw [if_neg hrewinds, Nat.sub_zero] at h
      have hsyncLen := h.synced.syncLen hmtp
      rw [if_neg hsampled, if_pos ⟨⟨hmtp, .inl hboundary.ready⟩, hboundary.ready⟩, hown.teacher hmtp]
      dsimp only
      have habove := syncAndPropose_above [C.model.embed a.anchor]
        [(e.kvLen - 1, hiddenAt C e.given e.rows (e.kvLen - 1))] a.proposal (hlen.ge.trans hsyncLen.ge)
      refine ends_bind (habove.mono (fun _ _ h => h) ?_) ?_
      · rintro s' ⟨mtp, rfl, hrows'⟩
        exact hkeptAt.kept.of_mtp hkeptAt.below hrows'
      · rintro drafts s' ⟨mtp, rfl, hrows'⟩
        have hnow : KeptAt a.promptIds.length { s with mtp := mtp } :=
          ⟨hkeptAt.kept.of_mtp hkeptAt.below hrows', hkeptAt.pos, hkeptAt.below⟩
        exact hnow.of_slotTokens a.promptIds
  · rw [if_neg (fun h => hmtp h.2.1), if_neg (fun h => hmtp h.1.1)]
    exact hkeptAt.of_slotTokens a.promptIds

/-- The admissions under which the checkpoints keep their rows. -/
def Extends (s : Slot C) (a : Admission C) : Prop :=
  a.promptIds.length ≤ C.model.indexRows ∧
    ∀ e, hitEntry a.promptIds a.cacheKey s = some e → GoesThrough s a e

theorem prefillSlot_kept (hkept : Kept s) (hentries : EntriesSynced s) (hextends : Extends s a) :
    Ends (fun _ => KeptAt a.promptIds.length) Kept (prefillSlot a s) := by
  obtain ⟨hfits, hgoes⟩ := hextends
  refine prefillSlot_ends hkept (fun hne _ => ?_) (fun e hhit hfull => ?_) fun e hhit hlt _ => ?_
  · have hcall := prefillSuffix_admitting (Resumes.cold a) (cold_admitting a hkept.layers hne) hfits (Nat.zero_le _)
      fun _ hne' => absurd rfl hne'
    exact hcall.mono (fun _ _ h => h.keptAt (Nat.zero_le _)) fun _ h => h
  · obtain ⟨hmem, n, hsel⟩ := hitEntry_spec hhit
    obtain ⟨hown, -⟩ := hkept.entries e hmem
    have hrows := ((hgoes e hhit).authentic e hmem le_rfl).rows hown
    exact fullHit_kept (hentries e hmem) hown hfull hsel.decodeMode hrows
      (restored_admitting hkept hentries hhit (hgoes e hhit))
  · have hcall := prefillSuffix_admitting (Resumes.hit hkept hentries hhit (hgoes e hhit) hlt)
      (restored_admitting hkept hentries hhit (hgoes e hhit)) hfits hlt.le (hgoes e hhit).remembers
    exact hcall.mono (fun _ _ h => h.keptAt hlt.le) fun _ h => h

theorem Kept.of_session {session : Session C.model} (h : Kept s) (hlen : session.layers.length = C.model.layers.length)
    (hrows : ∀ e ∈ s.history, ∀ q < e.kvLen, RowsAt C.model true q session.layers s.session.layers) :
    Kept { s with session := session } := by
  refine ⟨hlen, fun e he => ?_⟩
  obtain ⟨hown, hheld⟩ := h.entries e he
  exact ⟨hown, hheld.of_rows hown.pos (hrows e he) fun _ _ => rfl⟩

/-- A round writes from the target's position on. -/
theorem round_kept {r : Round C} {anchor : ℕ} {drafts : List ℕ} (h : KeptAt s.session.pos s)
    (hfits : s.session.pos + C.model.qoLen ≤ C.model.indexRows) :
    Ends (fun _ s' => s'.history = s.history ∧ KeptAt s'.session.pos s') (fun s' => s'.history = s.history ∧ Kept s')
      (round r anchor drafts s) := by
  unfold round
  apply ends_get_bind
  refine ends_raiseIf_bind (fun _ => ⟨rfl, h.kept⟩) fun _ => ends_raiseIf_bind (fun _ => ⟨rfl, h.kept⟩) fun hsync =>
    ends_raiseIf_bind (fun _ => ⟨rfl, h.kept⟩) fun _ => ?_
  cases hverify : verifyBody r.useSequentialQsa s.session (anchor :: drafts) with
  | none => exact ⟨rfl, h.kept⟩
  | some verified =>
    obtain ⟨session, v, hidden, logits⟩ := verified
    have hverified : ∀ q < s.session.pos, RowsAt C.model true q session.layers s.session.layers := fun q hq =>
      verifyBody_frame hverify h.kept.layers hq hfits
    obtain ⟨-, hsession, -⟩ := verifyBody_eq_some hverify
    have hlayers : session.layers.length = C.model.layers.length := by
      rw [hsession]
      exact (verifyLayers_length _ _).trans h.kept.layers
    have hfirst : Kept { s with session := session } := h.kept.of_session hlayers fun e he q hq =>
      hverified q (hq.trans_le (h.below e he))
    dsimp only
    apply ends_set_bind
    cases hcommit : commit session v (r.accepted + 1) with
    | none => exact ⟨rfl, hfirst⟩
    | some committed =>
      have hcommitted : ∀ q < s.session.pos, RowsAt C.model true q committed.layers s.session.layers := fun q hq =>
        commit_frame hverify hcommit h.kept.layers hq hfits
      obtain ⟨-, -, hcommit'⟩ := commit_eq_some hcommit
      have hpos : s.session.pos ≤ committed.pos := by
        rw [hcommit', hsession]
        exact Nat.le_add_right _ _
      have hcommittedLayers : committed.layers.length = C.model.layers.length := by
        rw [hcommit']
        exact (commitLayers_length _ _ _ _ _).trans hlayers
      have hnow : Kept { s with session := committed } := h.kept.of_session hcommittedLayers fun e he q hq =>
        hcommitted q (hq.trans_le (h.below e he))
      have habove := syncAndPropose_above (s := { s with session := committed })
        ((drafts.take r.accepted ++ [r.bonus]).map C.model.embed)
        ((hidden.take (r.accepted + 1)).mapIdx fun i row => (s.session.pos + i, row)) r.proposal (not_not.mp hsync).ge
      dsimp only
      apply ends_set_bind
      refine ends_bind (habove.mono (fun _ _ h => h) ?_) ?_
      · rintro s' ⟨mtp, rfl, hrows⟩
        exact ⟨rfl, hnow.of_mtp h.below hrows⟩
      · rintro next s' ⟨mtp, rfl, hrows⟩
        have hlast : KeptAt committed.pos { s with session := committed, mtp := mtp } :=
          ⟨hnow.of_mtp h.below hrows, rfl, fun e he => (h.below e he).trans hpos⟩
        exact ⟨rfl, hlast.of_slotTokens _⟩

theorem decodeStep_kept {token : ℕ} (h : KeptAt s.session.pos s) (hfits : s.session.pos < C.model.indexRows) :
    KeptAt (s.session.pos + 1) { s with session := (decodeStep s.session token).1 } := by
  have hlen : (decodeStep s.session token).1.layers.length = C.model.layers.length := by
    have hthrough : Cascade.Layered (fun _ _ _ => True) C.model.layers (decodeStep s.session token).1.layers
        s.session.layers :=
      Cascade.through_frame (P := fun _ : Row V × V => True) (fun _ _ _ _ => ⟨trivial, trivial⟩) h.kept.layers trivial
    exact hthrough.length.1
  refine ⟨h.kept.of_session hlen fun e he q hq => ?_, rfl, fun e he => (h.below e he).trans (Nat.le_succ _)⟩
  exact decodeStep_frame token h.kept.layers (hq.trans_le (h.below e he)) hfits

theorem resetSlot_kept (h : Kept s) : Kept (resetSlot s) := by
  refine ⟨?_, fun e he => ?_⟩
  · change (s.session.layers.map _).length = _
    rw [length_map, h.layers]
  · obtain ⟨hown, hheld⟩ := h.entries e he
    refine ⟨hown, ?_⟩
    have hreset : EntryHeld (resetRuntime true s) e := resetRuntime_held h.layers he hown.pos hheld
    unfold resetSlot
    rw [hown.cached]
    exact ⟨hreset.pools, hreset.drafts⟩

section Decidable

variable [DecidableEq V]

instance (s : Slot C) (a : Admission C) (e : Entry C) : Decidable (GoesThrough s a e) :=
  decidable_of_iff ((∀ e' ∈ s.history, e.kvLen ≤ e'.kvLen → Authentic a e') ∧
      (C.enableMtp → ¬e.mtpReady → e.kvLen < a.promptIds.length → BoundaryContinues s a e) ∧ Remembers a e.kvLen)
    ⟨fun h => ⟨h.1, h.2.1, h.2.2⟩, fun h => ⟨h.authentic, h.boundary, h.remembers⟩⟩

instance (s : Slot C) (a : Admission C) : Decidable (Extends s a) :=
  have : Decidable (∀ e, hitEntry a.promptIds a.cacheKey s = some e → GoesThrough s a e) :=
    match h : hitEntry a.promptIds a.cacheKey s with
    | none => isTrue fun _ he => by cases he
    | some e => decidable_of_iff (GoesThrough s a e) (by simp)
  decidable_of_iff (_ ∧ _) Iff.rfl

end Decidable

end Calls

section Runs

/-- The checkpoints hold their rows, and a request stands behind all of them. -/
structure Retained (s : Slot C) : Prop where
  kept : Kept s
  synced : EntriesSynced s
  below : ∀ anchor drafts, s.request = some (anchor, drafts) → ∀ e ∈ s.history, e.kvLen ≤ s.session.pos

/-- Admissions that extend what they go on from, and no position behind the raw index rows. -/
def Preserves (s : Slot C) : Action C → Prop
  | .prefill a => Extends s a
  | .round _ => s.session.pos + C.model.qoLen ≤ C.model.indexRows
  | .decode _ => s.session.pos < C.model.indexRows
  | .reset | .reconcile _ _ => True

instance [DecidableEq V] (s : Slot C) (act : Action C) : Decidable (Preserves s act) :=
  match act with
  | .prefill a => inferInstanceAs (Decidable (Extends s a))
  | .round _ => inferInstanceAs (Decidable (s.session.pos + C.model.qoLen ≤ C.model.indexRows))
  | .decode _ => inferInstanceAs (Decidable (s.session.pos < C.model.indexRows))
  | .reset | .reconcile _ _ => isTrue trivial

theorem Kept.of_request (h : Kept s) (request : Option (ℕ × List ℕ)) : Kept { s with request := request } :=
  ⟨h.layers, fun e he => ⟨(h.entries e he).1, (h.entries e he).2.pools, (h.entries e he).2.drafts⟩⟩

theorem Retained.of_idle {s' : Slot C} (hkept : Kept s') (hsynced : EntriesSynced s') (hidle : s'.request = none) :
    Retained s' :=
  ⟨hkept, hsynced, fun anchor drafts hrequest => by rw [hidle] at hrequest; cases hrequest⟩

theorem Retained.step {act : Action C} {s' : Slot C} (h : Retained s) (hpreserves : Preserves s act)
    (hstep : FlashNext.step s act = some s') : Retained s' := by
  cases step_cases hstep with
  | @prefilled a drafts s₁ hcall =>
    have hkept := (prefillSlot_kept h.kept h.synced hpreserves).ok_of hcall
    have hsynced := (prefillSlot_entries (a := a) h.synced).ok_of hcall
    refine ⟨hkept.kept.of_request _, hsynced, fun _ _ _ e he => ?_⟩
    have hbelow := hkept.below e he
    rwa [← hkept.pos] at hbelow
  | @prefillFailed a message s₁ hcall =>
    have hkept := (prefillSlot_kept h.kept h.synced hpreserves).error_of hcall
    have hsynced := (prefillSlot_entries (a := a) h.synced).error_of hcall
    exact .of_idle (hkept.of_request none) hsynced rfl
  | @rounded r anchor drafts next s₁ hrequest hne hcall =>
    have hkeptAt : KeptAt s.session.pos s := ⟨h.kept, rfl, h.below anchor drafts hrequest⟩
    obtain ⟨hhistory, hkept⟩ := (round_kept hkeptAt hpreserves).ok_of hcall
    exact ⟨hkept.kept.of_request _, fun e he => h.synced e (hhistory ▸ he), fun _ _ _ e he => hkept.below e he⟩
  | @roundFailed r anchor drafts message s₁ hrequest hne hcall =>
    have hkeptAt : KeptAt s.session.pos s := ⟨h.kept, rfl, h.below anchor drafts hrequest⟩
    obtain ⟨hhistory, hkept⟩ := (round_kept hkeptAt hpreserves).error_of hcall
    exact .of_idle (hkept.of_request none) (fun e he => h.synced e (hhistory ▸ he)) rfl
  | @decoded next anchor hrequest =>
    have hkeptAt : KeptAt s.session.pos s := ⟨h.kept, rfl, h.below anchor [] hrequest⟩
    have hdone : KeptAt (s.session.pos + 1) { s with session := (decodeStep s.session anchor).1 } :=
      decodeStep_kept hkeptAt hpreserves
    exact ⟨((hdone.of_slotTokens (s.slotTokens ++ [anchor])).kept).of_request _, h.synced,
      fun _ _ _ e he => hdone.below e he⟩
  | cleared => exact .of_idle (resetSlot_kept h.kept) h.synced rfl
  | reconciled hrequest pending =>
    exact .of_idle ⟨h.kept.layers, fun e he => ⟨(h.kept.entries e he).1, (h.kept.entries e he).2.pools,
      (h.kept.entries e he).2.drafts⟩⟩ h.synced hrequest

theorem freshSlot_retained (C : Config V) : Retained (freshSlot C) := by
  refine .of_idle ⟨?_, fun e he => by cases he⟩ (fun e he => by cases he) rfl
  simp [freshSlot, zeroState]

/-- A checkpoint's rows lie in the slot as a cold prefill of its own tokens and images leaves them. -/
structure Holds (s : Slot C) (e : Entry C) : Prop where
  pools : PoolsHold C.model e.given e.rows s.session.layers
  drafts : e.mtpReady → DraftsHold C e.given e.rows s.mtp.rows

/-- In a run whose admissions go through the checkpoints behind their hits, every checkpoint holds its rows. -/
theorem checkpoints_hold {as : List (Action C)} (halong : StepRun.Along step Preserves (freshSlot C) as)
    (hrun : StepRun.run step (freshSlot C) as = some s) : ∀ e ∈ s.history, Holds s e := by
  have hretained : Retained s := StepRun.invariant_of_steps
    (fun s act s' hretained hpreserves hstep => hretained.step hpreserves hstep) (freshSlot_retained C) halong hrun
  intro e he
  obtain ⟨-, hheld⟩ := hretained.kept.entries e he
  refine ⟨hheld.pools, fun hready => hheld.drafts ?_⟩
  by_contra hoff
  have hnone := (hretained.synced e he).2 (by simpa using hoff)
  rw [hready] at hnone
  cases hnone

end Runs

section Small

def fullRowsConfig : Config ℕ :=
  { smallConfig with model := { smallModel with indexRing := false } }

def fullRowsAdmission (promptIds : List ℕ) : Admission fullRowsConfig :=
  ⟨promptIds, false, false, 5, 2, none, none, ⟨[3], [], smallProposal.length_drafts, smallProposal.length_tail⟩⟩

/-- A prompt, and a longer one that goes through its checkpoints. -/
def extendedPrompt : List (Action fullRowsConfig) :=
  [.prefill (fullRowsAdmission [1, 2, 3, 4, 6]), .reset, .prefill (fullRowsAdmission [1, 2, 3, 4, 6, 7, 8])]

theorem extendedPrompt_checkpoints_hold : ∃ s : Slot fullRowsConfig,
    StepRun.run step (freshSlot fullRowsConfig) extendedPrompt = some s ∧
      ∀ e ∈ s.history, Holds s e := by
  have halong : StepRun.Along step Preserves (freshSlot fullRowsConfig) extendedPrompt := by decide +kernel
  exact ⟨_, rfl, checkpoints_hold halong rfl⟩

/-- A prompt, and one that leaves it behind its first checkpoint. -/
def branchedPrompt : List (Action fullRowsConfig) :=
  [.prefill (fullRowsAdmission [1, 2, 3, 4, 5, 6]), .reset, .prefill (fullRowsAdmission [1, 2, 3, 9]), .reset]

/-- The first prompt's last checkpoint is still selected, over the raw row of the second one's token. -/
theorem branched_checkpoint_stale : ∃ (s : Slot fullRowsConfig) (e : Entry fullRowsConfig),
    StepRun.run step (freshSlot fullRowsConfig) branchedPrompt = some s ∧
    hitEntry [1, 2, 3, 4, 5, 6] ⟨.greedy, none⟩ s = some e ∧ e.kvLen = 6 ∧
    s.session.layers.map (fun c => c.2.idxKPool 3) = [12, 0] ∧
    (cold fullRowsConfig.model e.given e.rows).1.map (fun c => c.2.idxKPool 3) = [7, 0] ∧ ¬Holds s e := by
  refine ⟨_, _, rfl, rfl, rfl, rfl, rfl, fun hholds => ?_⟩
  have hrow := (hholds.pools 3 (by decide)).1 _ rfl
  have hkey : (12 : ℕ) = 7 := hrow.idxK
  cases hkey

end Small

end FlashNext
