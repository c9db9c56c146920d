import BlackweLLM.FlashNextCommit
import BlackweLLM.FlashNextSync

/-!
# Flash-Next rounds never diverge

The draft head's length along a slot's runs. A full hit whose boundary row is
forced a second time, with no rewind before it, leaves the draft head one row
ahead of the target; without such hits the two advance together.
-/

namespace FlashNext

open List

open RaisingState (raiseIf raiseIf_bind_eq_error bind_eq_error bind_of_ok get_apply set_apply Ends ends_bind
  ends_get_bind ends_set_bind ends_raiseIf_bind ends_forM ends_ok ends_error)

variable {V : Type} {C : Config V} {a : Admission C} {entry : Option (Entry C)} {s : Slot C}

@[simp] theorem Admission.rows_length (a : Admission C) : a.rows.length = a.promptIds.length := by
  unfold Admission.rows inputs
  cases a.vision <;> simp

theorem range_map_append {f : ℕ → ℕ} {n x : ℕ} {done rest : List ℕ} (h : (range n).map f = done ++ x :: rest) :
    x = f done.length ∧ done.length < n := by
  have hget : ((range n).map f)[done.length]? = some x := by
    rw [h, getElem?_append_right le_rfl, Nat.sub_self]
    rfl
  rw [getElem?_map, Option.map_eq_some_iff] at hget
  obtain ⟨y, hy, hx⟩ := hget
  obtain ⟨hlt, heq⟩ := List.getElem?_eq_some_iff.mp hy
  rw [length_range] at hlt
  rw [getElem_range] at heq
  exact ⟨by rw [← hx, heq], hlt⟩

theorem prefillSuffix_synced {hit m : ℕ} (h : SuffixStart a entry hit m) (hhit : hit < a.promptIds.length)
    (hs : SyncedTo m hit s) (hentries : EntriesSynced s) :
    Ends (fun drafts s' => EntriesSynced s' ∧ (drafts ≠ [] → C.enableMtp) ∧
        SyncedTo a.promptIds.length a.promptIds.length s')
      EntriesSynced (prefillSuffix a entry hit s) := by
  have hsuffix : (a.rows.drop hit).length = a.promptIds.length - hit := by
    rw [length_drop, Admission.rows_length]
  have hlen : hit + (a.rows.drop hit).length = a.promptIds.length := by omega
  unfold prefillSuffix
  refine ends_raiseIf_bind (fun _ => hentries) fun _ => ?_
  by_cases hchunked : 0 < a.chunkSize ∧ a.chunkSize < (a.rows.drop hit).length
  · rw [if_pos hchunked]
    have hcount := Nat.div_mul_le_self ((a.rows.drop hit).length - 1) a.chunkSize
    refine ends_bind (ends_forM (I := fun done s => EntriesSynced s ∧
      SyncedTo (syncedBefore hit m (done.length * a.chunkSize)) (hit + done.length * a.chunkSize) s) ?_ ?_) ?_
    · intro done x rest s' hl ⟨hentries', hs'⟩
      obtain ⟨rfl, hlt⟩ := range_map_append hl
      have hnext : (done.length + 1) * a.chunkSize ≤ ((a.rows.drop hit).length - 1) / a.chunkSize * a.chunkSize :=
        Nat.mul_le_mul_right _ hlt
      rw [Nat.succ_mul] at hnext
      have hchunk := prefillChunk_synced h hlen (by omega) hs' hentries'
      refine hchunk.mono (fun _ s'' ⟨hentries'', hs''⟩ => ⟨hentries'', ?_⟩) fun _ herr => herr
      have hpositive : (done ++ [done.length * a.chunkSize]).length * a.chunkSize =
          done.length * a.chunkSize + a.chunkSize := by
        rw [length_append, length_singleton, Nat.succ_mul]
      rw [hpositive, syncedBefore, if_neg (by omega)]
      exact hs''
    · refine ⟨hentries, ?_⟩
      rw [length_nil, zero_mul]
      exact hs
    · intro _ s' ⟨hentries', hs'⟩
      rw [length_map, length_range] at hs'
      exact prefillLast_synced h hlen hs' hentries'
  · rw [if_neg hchunked]
    exact prefillLast_synced h hlen hs hentries

/-- With the draft head, a full hit is a sampled one on an entry with a proposal of its own: the boundary
row is taken back before it is forced. -/
def Resampled (s : Slot C) (a : Admission C) : Prop :=
  C.enableMtp → ∀ e, hitEntry a.promptIds a.cacheKey s = some e → e.kvLen = a.promptIds.length → a.sampled ∧ e.mtpReady

instance (s : Slot C) (a : Admission C) : Decidable (Resampled s a) :=
  match h : hitEntry a.promptIds a.cacheKey s with
  | none => isTrue fun _ e he => by rw [h] at he; cases he
  | some e => decidable_of_iff (C.enableMtp → e.kvLen = a.promptIds.length → a.sampled ∧ e.mtpReady) (by
      simp [Resampled, h])

def ForcesOnce (s : Slot C) : Action C → Prop
  | .prefill a => Resampled s a
  | _ => True

instance (s : Slot C) (act : Action C) : Decidable (ForcesOnce s act) :=
  match act with
  | .prefill a => inferInstanceAs (Decidable (Resampled s a))
  | .round _ | .decode _ | .reset | .reconcile _ _ => isTrue trivial

theorem fullHit_synced {e : Entry C} (he : EntrySynced e) (hpos : 0 < e.kvLen) (hlen : e.kvLen = a.promptIds.length)
    (hresampled : C.enableMtp → a.sampled ∧ e.mtpReady) (hmode : e.mtpReady → e.decodeMode = a.decodeMode)
    (hs : SyncedTo (e.kvLen - if Rewinds a.promptIds e then 1 else 0) e.kvLen s) (hentries : EntriesSynced s) :
    Ends (fun drafts s' => EntriesSynced s' ∧ (drafts ≠ [] → C.enableMtp ∧
        SyncedTo a.promptIds.length a.promptIds.length s'))
      EntriesSynced (fullHit a e s) := by
  have hkeep : ∀ s' : Slot C, s'.history = s.history → EntriesSynced s' := fun s' heq e he => hentries e (heq ▸ he)
  unfold fullHit
  by_cases hmtp : C.enableMtp
  · obtain ⟨hsampled, hready⟩ := hresampled hmtp
    have hdecode : e.decodeMode = .sampled := by
      rw [hmode hready, Admission.decodeMode, if_pos hsampled]
    have hrewinds : Rewinds a.promptIds e := ⟨hready, .inr hdecode⟩
    rw [if_pos hrewinds] at hs
    obtain ⟨row, hrow⟩ := (he.1 hmtp).teacher
    have hone : [((e.kvLen - 1, row) : ℕ × V)].map Prod.fst = range' (e.kvLen - 1) (e.kvLen - (e.kvLen - 1)) := by
      rw [Nat.sub_sub_self hpos]
      rfl
    rw [if_pos ⟨hsampled, hmtp, hready, hdecode⟩, hrow]
    refine ends_bind ((syncAndPropose_synced _ _ a.proposal hs hmtp hone (Nat.sub_le _ _)).mono (fun _ _ h => h) hkeep) ?_
    rintro drafts s' ⟨-, hhistory, hs'⟩
    rw [hlen] at hs'
    exact ⟨hkeep _ hhistory, fun _ => ⟨hmtp, hs'.pos, hs'.syncLen, hs'.synced⟩⟩
  · have hready : e.mtpReady = false := he.2 (by simpa using hmtp)
    rw [if_neg (fun h => hmtp h.2.1), if_neg (fun h => hmtp h.1.1)]
    refine ends_bind (P := fun drafts s' => drafts = [] ∧ s' = s) ⟨?_, rfl⟩ ?_
    · rw [Admission.cachedDrafts, if_neg (fun h => by simp [hready] at h)]
    · rintro drafts s' ⟨rfl, rfl⟩
      exact ⟨hentries, fun hne => absurd rfl hne⟩

/-- The rule for an admission: it raises before it starts, it starts cold, or it goes on from its hit. -/
theorem prefillSlot_ends {P : List ℕ → Slot C → Prop} {E : Slot C → Prop} (hraise : E s)
    (hcold : a.promptIds ≠ [] → a.promptIds.length ≤ C.model.maxSeq →
      Ends P E (prefillSuffix a none 0 (resetRuntime false { s with history := [], pending := none })))
    (hfull : ∀ e, hitEntry a.promptIds a.cacheKey s = some e → e.kvLen = a.promptIds.length →
      Ends P E (fullHit a e (restorePrefixSnapshot a.promptIds e (resetRuntime true { s with pending := none }))))
    (hpartly : ∀ e, hitEntry a.promptIds a.cacheKey s = some e → e.kvLen < a.promptIds.length →
      a.promptIds.length ≤ C.model.maxSeq →
      Ends P E (prefillSuffix a (some e) e.kvLen
        (restorePrefixSnapshot a.promptIds e (resetRuntime true { s with pending := none })))) :
    Ends P E (prefillSlot a s) := by
  unfold prefillSlot
  refine ends_raiseIf_bind (fun _ => hraise) fun hne => ends_raiseIf_bind (fun _ => hraise) fun hmax => ?_
  apply ends_get_bind
  dsimp only
  split
  case isTrue => exact hcold hne (not_lt.mp hmax)
  case isFalse =>
    unfold preparePrefillPrefix
    cases hhit : hitEntry a.promptIds a.cacheKey s with
    | none => exact hcold hne (not_lt.mp hmax)
    | some e =>
      obtain ⟨-, n, hsel⟩ := hitEntry_spec hhit
      change Ends _ _ ((if e.kvLen = a.promptIds.length then fullHit a e else prefillSuffix a (some e) e.kvLen)
        (restorePrefixSnapshot a.promptIds e (resetRuntime true { s with pending := none })))
      split
      case isTrue heq => exact hfull e hhit heq
      case isFalse hne => exact hpartly e hhit (lt_of_le_of_ne hsel.kvLen_le hne) (not_lt.mp hmax)

theorem SuffixStart.cold (a : Admission C) : SuffixStart a none 0 0 :=
  ⟨useMtp_iff (fun e he => by cases he), le_rfl, fun _ => by simp [Admission.teacherRow, Admission.resync]⟩

theorem SuffixStart.hit {e : Entry C} {exactKvLen : Option ℕ} (he : EntrySynced e)
    (hsel : Selectable C a.promptIds a.cacheKey exactKvLen e) (hlt : e.kvLen < a.promptIds.length) :
    SuffixStart a (some e) e.kvLen (e.kvLen - if Rewinds a.promptIds e then 1 else 0) := by
  obtain ⟨hready, hplain⟩ := teacherRow_eq he hsel
  refine ⟨useMtp_iff (fun e' he' => by obtain rfl := Option.some.inj he'; exact he), Nat.sub_le _ _, fun hmtp => ?_⟩
  by_cases hr : e.mtpReady
  · obtain ⟨row, hrow⟩ := hready ⟨hmtp, hr⟩
    have hpos := hsel.kvLen_pos
    rw [if_pos ⟨hr, .inl hlt⟩, hrow, Nat.sub_sub_self hpos]
    rfl
  · rw [if_neg (fun h => hr h.1), hplain (fun h => hr h.2), Nat.sub_zero, Nat.sub_self]
    rfl

theorem fullHit_history (e : Entry C) (s : Slot C) :
    Ends (fun _ s' => s'.history = s.history) (fun s' => s'.history = s.history) (fullHit a e s) := by
  have hpropose : ∀ (next : List V) (hidden : List (ℕ × V)),
      Ends (fun _ s' => s'.history = s.history) (fun s' => s'.history = s.history)
        (syncAndPropose next hidden a.proposal s) := by
    intro next hidden
    refine (syncAndPropose_ends next hidden a.proposal s).mono ?_ ?_
    · rintro drafts s' ⟨-, -, rfl⟩
      rfl
    · rintro s' ⟨mtp, rfl⟩
      rfl
  unfold fullHit
  split
  · cases e.mtpTeacherHidden with
    | none => exact rfl
    | some hidden => exact ends_bind (hpropose _ _) fun _ _ h => h
  · split
    · cases e.mtpTeacherHidden with
      | none => exact rfl
      | some hidden => exact ends_bind (hpropose _ _) fun _ _ h => h
    · exact rfl

theorem coldSuffix_synced (hne : a.promptIds ≠ []) (s : Slot C) :
    Ends (fun drafts s' => EntriesSynced s' ∧ (drafts ≠ [] → C.enableMtp) ∧
        SyncedTo a.promptIds.length a.promptIds.length s')
      EntriesSynced (prefillSuffix a none 0 (resetRuntime false { s with history := [], pending := none })) := by
  have hnone : EntriesSynced (resetRuntime false { s with history := [], pending := none }) := fun e he => by cases he
  exact prefillSuffix_synced (SuffixStart.cold a) (length_pos_of_ne_nil hne) (resetRuntime_cold _) hnone

theorem hitSuffix_synced {e : Entry C} (hentries : EntriesSynced s) (hhit : hitEntry a.promptIds a.cacheKey s = some e)
    (hlt : e.kvLen < a.promptIds.length) :
    Ends (fun drafts s' => EntriesSynced s' ∧ (drafts ≠ [] → C.enableMtp) ∧
        SyncedTo a.promptIds.length a.promptIds.length s')
      EntriesSynced (prefillSuffix a (some e) e.kvLen
        (restorePrefixSnapshot a.promptIds e (resetRuntime true { s with pending := none }))) := by
  obtain ⟨hmem, n, hsel⟩ := hitEntry_spec hhit
  have he : EntrySynced e := hentries e hmem
  have hkept : EntriesSynced (restorePrefixSnapshot a.promptIds e (resetRuntime true { s with pending := none })) :=
    hentries
  exact prefillSuffix_synced (SuffixStart.hit he hsel hlt) hlt (restorePrefixSnapshot_synced a.promptIds he _) hkept

/-- Every admission keeps the entries synchronised. -/
theorem prefillSlot_entries (hentries : EntriesSynced s) :
    Ends (fun _ s' => EntriesSynced s') EntriesSynced (prefillSlot a s) := by
  refine prefillSlot_ends hentries (fun hne _ => ?_) (fun e hhit _ => ?_) fun e hhit hlt _ => ?_
  · exact (coldSuffix_synced hne s).mono (fun _ _ h => h.1) fun _ h => h
  · exact (fullHit_history e _).mono (fun _ s' heq e he => hentries e (heq ▸ he)) fun s' heq e he => hentries e (heq ▸ he)
  · exact (hitSuffix_synced hentries hhit hlt).mono (fun _ _ h => h.1) fun _ h => h

/-- Every admission but a full hit that forces its boundary row again. -/
theorem prefillSlot_synced (hentries : EntriesSynced s) (hresampled : Resampled s a) :
    Ends (fun drafts s' => EntriesSynced s' ∧ (drafts ≠ [] → C.enableMtp ∧
        SyncedTo a.promptIds.length a.promptIds.length s'))
      EntriesSynced (prefillSlot a s) := by
  refine prefillSlot_ends hentries (fun hne _ => ?_) (fun e hhit hfull => ?_) fun e hhit hlt _ => ?_
  · exact (coldSuffix_synced hne s).mono (fun _ _ h => ⟨h.1, fun hd => ⟨h.2.1 hd, h.2.2⟩⟩) fun _ h => h
  · obtain ⟨hmem, n, hsel⟩ := hitEntry_spec hhit
    have he : EntrySynced e := hentries e hmem
    have hkept : EntriesSynced (restorePrefixSnapshot a.promptIds e (resetRuntime true { s with pending := none })) :=
      hentries
    exact fullHit_synced he hsel.kvLen_pos hfull (fun hmtp => hresampled hmtp e hhit hfull) hsel.decodeMode
      (restorePrefixSnapshot_synced a.promptIds he _) hkept
  · exact (hitSuffix_synced hentries hhit hlt).mono (fun _ _ h => ⟨h.1, fun hd => ⟨h.2.1 hd, h.2.2⟩⟩) fun _ h => h

/-- A round forces the rows that the target keeps. -/
theorem round_synced {r : Round C} {anchor : ℕ} {drafts : List ℕ} (hmtp : C.enableMtp)
    (hs : SyncedTo s.session.pos s.session.pos s) (hentries : EntriesSynced s) :
    Ends (fun _ s' => EntriesSynced s' ∧ SyncedTo s'.session.pos s'.session.pos s') EntriesSynced
      (round r anchor drafts s) := by
  unfold round
  apply ends_get_bind
  refine ends_raiseIf_bind (fun _ => hentries) fun hdrafts => ends_raiseIf_bind (fun _ => hentries) fun _ =>
    ends_raiseIf_bind (fun _ => hentries) fun haccepted => ?_
  cases hverify : verifyBody r.useSequentialQsa s.session (anchor :: drafts) with
  | none => exact hentries
  | some verified =>
    obtain ⟨session, v, hidden, logits⟩ := verified
    obtain ⟨-, hsession, -⟩ := verifyBody_eq_some hverify
    dsimp only
    cases hcommit : commit session v (r.accepted + 1) with
    | none => exact hentries
    | some committed =>
      obtain ⟨-, -, hcommitted⟩ := commit_eq_some hcommit
      have hpos : committed.pos = s.session.pos + (r.accepted + 1) := by rw [hcommitted, hsession]
      have hcount : ((drafts.take r.accepted ++ [r.bonus]).map C.model.embed).length = r.accepted + 1 := by
        rw [length_map, length_append, length_take, length_singleton]
        omega
      have hnow : SyncedTo s.session.pos committed.pos { s with session := committed } := ⟨rfl, hs.syncLen, hs.synced⟩
      apply ends_set_bind
      apply ends_set_bind
      refine ends_bind ((syncAndPropose_ends ((drafts.take r.accepted ++ [r.bonus]).map C.model.embed)
        ((hidden.take (r.accepted + 1)).mapIdx fun i row => (s.session.pos + i, row)) r.proposal
        { s with session := committed }).mono (fun _ _ h => h) ?_) ?_
      · rintro s' ⟨mtp, rfl⟩
        exact hentries
      · rintro next s' ⟨-, hlen, rfl⟩
        have hkept : (hidden.take (r.accepted + 1)).length = r.accepted + 1 := by
          rwa [hcount, length_mapIdx] at hlen
        have hhidden : ((hidden.take (r.accepted + 1)).mapIdx fun i row => (s.session.pos + i, row)).map Prod.fst =
            range' s.session.pos (committed.pos - s.session.pos) := by
          have hrows : committed.pos - s.session.pos = (hidden.take (r.accepted + 1)).length := by omega
          rw [hrows]
          refine ext_getElem (by simp) fun i hi hi' => ?_
          simp
        obtain ⟨hsync, hsynced⟩ := hnow.forced hmtp hlen hhidden (by omega)
        exact ⟨hentries, rfl, fun _ => hsync, fun _ => hsynced⟩

theorem Together.of_idle {s' : Slot C} (hentries : EntriesSynced s') (hidle : s'.request = none) : Together s' :=
  ⟨hentries, fun anchor drafts hdrafts => by rw [hidle] at hdrafts; cases hdrafts⟩

theorem Together.step {act : Action C} {s' : Slot C} (h : Together s) (hforces : ForcesOnce s act)
    (hstep : FlashNext.step s act = some s') : Together s' := by
  cases step_cases hstep with
  | @prefilled a drafts s₁ hcall =>
    have hends := prefillSlot_synced h.entries hforces
    rw [hcall] at hends
    refine ⟨hends.1, fun anchor drafts' hrequest hne => ?_⟩
    obtain ⟨rfl, rfl⟩ := Prod.mk.inj (Option.some.inj hrequest)
    obtain ⟨hmtp, hs₁⟩ := hends.2 hne
    have hpos := hs₁.pos
    rw [← hpos] at hs₁
    exact ⟨hmtp, rfl, hs₁.syncLen, hs₁.synced⟩
  | @prefillFailed a e s₁ hcall =>
    have hends := prefillSlot_synced h.entries hforces
    rw [hcall] at hends
    exact .of_idle hends rfl
  | @rounded r anchor drafts next s₁ hrequest hne hcall =>
    obtain ⟨hmtp, hs⟩ := h.drafts anchor drafts hrequest hne
    have hends := @round_synced V C s r anchor drafts hmtp hs h.entries
    rw [hcall] at hends
    exact ⟨hends.1, fun _ _ _ _ => ⟨hmtp, rfl, hends.2.syncLen, hends.2.synced⟩⟩
  | @roundFailed r anchor drafts e s₁ hrequest hne hcall =>
    obtain ⟨hmtp, hs⟩ := h.drafts anchor drafts hrequest hne
    have hends := @round_synced V C s r anchor drafts hmtp hs h.entries
    rw [hcall] at hends
    exact .of_idle hends rfl
  | decoded hrequest =>
    refine ⟨h.entries, fun anchor drafts hnext hne => ?_⟩
    obtain ⟨-, rfl⟩ := Prod.mk.inj (Option.some.inj hnext)
    exact absurd rfl hne
  | cleared => exact .of_idle h.entries rfl
  | reconciled hrequest pending => exact .of_idle h.entries hrequest

theorem freshSlot_together (C : Config V) : Together (freshSlot C) :=
  .of_idle (fun e he => by cases he) rfl

theorem syncRealSuffix_ne_diverged {next : List V} {hidden : List (ℕ × V)} {t : Slot C} :
    syncRealSuffix next hidden s ≠ .error "target and MTP real prefixes diverged" t := by
  intro herr
  simp [syncRealSuffix, bind_eq_error] at herr

theorem syncAndPropose_ne_diverged {next : List V} {hidden : List (ℕ × V)} {proposal : Proposal C} {t : Slot C} :
    syncAndPropose next hidden proposal s ≠ .error "target and MTP real prefixes diverged" t := by
  intro herr
  rcases bind_eq_error.mp herr with hsync | ⟨-, s₁, -, hcontinue⟩
  · exact syncRealSuffix_ne_diverged hsync
  · simp [continueDraft, bind_eq_error, -bind_pure_comp] at hcontinue

theorem round_ne_diverged {r : Round C} {anchor : ℕ} {drafts : List ℕ} {t : Slot C}
    (hsync : s.mtp.syncLen = s.session.pos) :
    round r anchor drafts s ≠ .error "target and MTP real prefixes diverged" t := by
  intro herr
  unfold round at herr
  rw [bind_of_ok (get_apply s), raiseIf_bind_eq_error, raiseIf_bind_eq_error, raiseIf_bind_eq_error] at herr
  obtain ⟨-, h, -⟩ | ⟨-, ⟨hne, -⟩ | ⟨-, ⟨-, h, -⟩ | ⟨-, herr⟩⟩⟩ := herr
  · simp at h
  · exact hne hsync
  · simp at h
  · cases hverify : verifyBody r.useSequentialQsa s.session (anchor :: drafts) with
    | none => simp [hverify] at herr
    | some verified =>
      obtain ⟨session, v, hidden, logits⟩ := verified
      rw [hverify] at herr
      dsimp only at herr
      rw [bind_of_ok (set_apply _ _)] at herr
      cases hcommit : commit session v (r.accepted + 1) with
      | none => simp [hcommit] at herr
      | some committed =>
        rw [hcommit] at herr
        dsimp only at herr
        rw [bind_of_ok (set_apply _ _), bind_eq_error] at herr
        rcases herr with hsync' | ⟨_, _, -, hend⟩
        · exact syncAndPropose_ne_diverged hsync'
        · cases hend

/-- In a run without such admissions, every draft is verified with the draft head fed once with each target
row, up to the target's position. -/
theorem draft_head_follows_target {as : List (Action C)} (halong : StepRun.Along step ForcesOnce (freshSlot C) as)
    (hrun : StepRun.run step (freshSlot C) as = some s) :
    ∀ anchor drafts, s.request = some (anchor, drafts) → drafts ≠ [] →
      s.mtp.syncLen = s.session.pos ∧ s.mtp.synced = range s.session.pos ∧
      ∀ r t, round r anchor drafts s ≠ .error "target and MTP real prefixes diverged" t := by
  have htogether : Together s := StepRun.invariant_of_steps
    (fun s act s' htogether hforces hstep => htogether.step hforces hstep) (freshSlot_together C) halong hrun
  intro anchor drafts hrequest hne
  obtain ⟨hmtp, hs⟩ := htogether.drafts anchor drafts hrequest hne
  exact ⟨hs.syncLen hmtp, hs.synced hmtp, fun r t => round_ne_diverged (hs.syncLen hmtp)⟩

section Small

def smallConfig : Config ℕ where
  model := smallModel
  draftRow below hidden next := below.sum + hidden + next
  enableMtp := true
  argmax x := x
  enablePrefixCache := true
  checkpointsPerSlot := none
  checkpointInterval := some 2
  pleAheadPrefetch := false
  imageTokenId := 99
  imageRows _ := 1
  imageEmbed _ _ := 0
  mropePosition _ _ := (0, 0, 0)

def smallProposal : Proposal smallConfig := ⟨[3], [], rfl, rfl⟩

def smallAdmission (promptIds : List ℕ) (sampled : Bool) : Admission smallConfig :=
  ⟨promptIds, sampled, false, 5, 2, none, none, smallProposal⟩

def promptTwice (sampled : Bool) : List (Action smallConfig) :=
  [.prefill (smallAdmission [1, 2] sampled), .reset, .prefill (smallAdmission [1, 2] sampled)]

theorem sampled_hit_follows_target : ∃ s : Slot smallConfig,
    StepRun.run step (freshSlot smallConfig) (promptTwice true) = some s ∧ s.request = some (5, [3]) ∧
    s.mtp.syncLen = s.session.pos ∧ s.mtp.synced = range s.session.pos ∧
    ∀ r t, round r 5 [3] s ≠ .error "target and MTP real prefixes diverged" t := by
  have halong : StepRun.Along step ForcesOnce (freshSlot smallConfig) (promptTwice true) := by decide
  exact ⟨_, rfl, rfl, draft_head_follows_target halong rfl 5 [3] rfl (by decide)⟩

/-- A greedy prompt that is admitted twice: the second admission's drafts are refused. -/
theorem greedy_hit_diverges : ∃ s t : Slot smallConfig,
    StepRun.run step (freshSlot smallConfig) (promptTwice false) = some s ∧ s.request = some (5, [3]) ∧
    s.mtp.syncLen = 3 ∧ s.session.pos = 2 ∧ s.mtp.synced = [0, 1, 1] ∧
    round ⟨false, 0, 7, smallProposal⟩ 5 [3] s = .error "target and MTP real prefixes diverged" t :=
  ⟨_, _, rfl, rfl, rfl, rfl, rfl, rfl⟩

end Small

end FlashNext
