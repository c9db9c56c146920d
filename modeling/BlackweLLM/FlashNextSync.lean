import BlackweLLM.FlashNextPrefill

/-!
# Flash-Next target and draft head

How far the draft head's prefix is synchronised against the target's position,
over every run of admissions, rounds, decodes and resets of a slot.
-/

namespace FlashNext

open List

open RaisingState (raiseIf Ends ends_bind ends_get_bind ends_raiseIf_bind ends_ok ends_error pure_apply throw_apply)

variable {V : Type} {C : Config V}

section Calls

variable {s : Slot C}

/-- A sync forces one row for each token, from the synchronised length on. -/
theorem syncRealSuffix_ends (next : List V) (hidden : List (ℕ × V)) (s : Slot C) :
    Ends (fun _ s' => hidden.length = next.length ∧ s' = { s with
        mtp := ⟨s.mtp.syncLen + next.length, s.mtp.syncLen + next.length,
          forceRows C.draftRow s.mtp.rows s.mtp.syncLen ((hidden.map Prod.snd).zip next),
          s.mtp.synced ++ hidden.map Prod.fst⟩ })
      (fun s' => s' = s) (syncRealSuffix next hidden s) := by
  unfold syncRealSuffix
  apply ends_get_bind
  refine ends_raiseIf_bind (fun _ => rfl) fun _ => ends_raiseIf_bind (fun _ => rfl) fun hlen =>
    ends_raiseIf_bind (fun _ => rfl) fun _ => ?_
  exact ⟨not_not.mp hlen, rfl⟩

theorem continueDraft_ends (proposal : Proposal C) (s : Slot C) :
    Ends (fun drafts s' => drafts = proposal.drafts ∧ s' = { s with
        mtp := { s.mtp with
          pos := s.mtp.pos + (C.model.k - 1)
          rows := LagunaRing.scatter s.mtp.rows (proposal.tail.mapIdx fun i row => (s.mtp.pos + i, row)) } })
      (fun s' => s' = s) (continueDraft proposal s) := by
  unfold continueDraft
  apply ends_get_bind
  refine ends_raiseIf_bind (fun _ => rfl) fun _ => ?_
  exact ⟨rfl, rfl⟩

/-- The draft head after a sync and a proposal. -/
def proposedMtp (next : List V) (hidden : List (ℕ × V)) (proposal : Proposal C) (m : MtpSession V) : MtpSession V where
  syncLen := m.syncLen + next.length
  pos := m.syncLen + next.length + (C.model.k - 1)
  rows := LagunaRing.scatter (forceRows C.draftRow m.rows m.syncLen ((hidden.map Prod.snd).zip next))
    (proposal.tail.mapIdx fun i row => (m.syncLen + next.length + i, row))
  synced := m.synced ++ hidden.map Prod.fst

/-- A proposal leaves the draft head only changed, and its K drafts. -/
theorem syncAndPropose_ends (next : List V) (hidden : List (ℕ × V)) (proposal : Proposal C) (s : Slot C) :
    Ends (fun drafts s' => drafts = proposal.drafts ∧ hidden.length = next.length ∧
        s' = { s with mtp := proposedMtp next hidden proposal s.mtp })
      (fun s' => ∃ mtp, s' = { s with mtp := mtp }) (syncAndPropose next hidden proposal s) := by
  unfold syncAndPropose
  refine ends_bind ((syncRealSuffix_ends next hidden s).mono (fun _ _ h => h) fun s' h => ⟨s.mtp, h⟩) ?_
  rintro _ _ ⟨hlen, rfl⟩
  exact (continueDraft_ends proposal _).mono (fun drafts s' h => ⟨h.1, hlen, h.2⟩) fun s' h => ⟨_, h⟩

/-- A prefill gives the hidden rows of its positions. -/
theorem prefillSession_hidden {M : Model V} (given : Bool) (ropeNext : Option ℕ) (history : List ℕ)
    (chunk : List (Input V)) (s : Session M) :
    (prefillSession given ropeNext history chunk s).2.2.map Prod.fst = range' s.pos chunk.length := by
  refine ext_getElem (by simp [prefillSession]) fun i hi hi' => ?_
  simp [prefillSession]

theorem targetPrefill_ends (a : Admission C) (suffix : List (Input V)) (chunked : Bool) (start stop : ℕ) (s : Slot C) :
    Ends (fun out s' => (suffix.take stop).drop start ≠ [] ∧
        out.2.map Prod.fst = range' s.session.pos ((suffix.take stop).drop start).length ∧
        ∃ session : Session C.model, session.pos = s.session.pos + ((suffix.take stop).drop start).length ∧
          s' = { s with session := session })
      (fun s' => s' = s) (targetPrefill a suffix chunked start stop s) := by
  unfold targetPrefill
  apply ends_get_bind
  refine ends_raiseIf_bind (fun _ => rfl) fun hne => ends_raiseIf_bind (fun _ => rfl) fun _ => ?_
  exact ⟨hne, prefillSession_hidden _ _ _ _ _, _, rfl, rfl⟩

theorem mem_trimHistory {limit : ℕ} {history : List (Entry C)} {e : Entry C} (h : e ∈ trimHistory limit history) :
    e ∈ history := by
  unfold trimHistory at h
  split at h
  · exact h
  · rcases mem_append.mp h with hfirst | htail
    · exact mem_of_mem_take hfirst
    · exact mem_of_mem_drop htail

theorem mem_capture {c : Capture V} {e : Entry C} (h : e ∈ (capturePrefixSnapshot c s).history) :
    e ∈ s.history ∨ (C.enablePrefixCache ∧ c.tokenIds ≠ [] ∧ e = snapshotEntry s c) := by
  unfold capturePrefixSnapshot at h
  split at h
  case isTrue => exact .inl h
  case isFalse hcaptures =>
    obtain ⟨hcached, htokens⟩ := not_or.mp hcaptures
    rcases mem_append.mp (mem_trimHistory h) with hold | hnew
    · exact .inl (mem_of_mem_filter hold)
    · exact .inr ⟨not_not.mp hcached, htokens, mem_singleton.mp hnew⟩

theorem capture_frame (c : Capture V) (s : Slot C) :
    (capturePrefixSnapshot c s).session = s.session ∧ (capturePrefixSnapshot c s).mtp = s.mtp := by
  unfold capturePrefixSnapshot
  split <;> exact ⟨rfl, rfl⟩

theorem foldl_deepest {l : List (Entry C)} {init : Option (Entry C)} {b : Entry C}
    (h : l.foldl (fun best e => match best with
      | none => some e
      | some b => if b.kvLen < e.kvLen then some e else some b) init = some b) : b ∈ l ∨ init = some b := by
  induction l generalizing init with
  | nil => exact .inr h
  | cons x l ih =>
    rcases ih h with hmem | hinit
    · exact .inl (mem_cons_of_mem x hmem)
    · cases init with
      | none =>
        obtain rfl := Option.some.inj hinit
        exact .inl mem_cons_self
      | some b' =>
        dsimp only at hinit
        split at hinit
        · obtain rfl := Option.some.inj hinit
          exact .inl mem_cons_self
        · exact .inr hinit

/-- What is selected is in the history and passes the tests. -/
theorem selectPrefixEntry_spec {history : List (Entry C)} {ids : List ℕ} {key : CacheKey} {exactKvLen : Option ℕ}
    {e : Entry C} (h : selectPrefixEntry C history ids key exactKvLen = some e) :
    e ∈ history ∧ Selectable C ids key exactKvLen e := by
  unfold selectPrefixEntry at h
  split at h
  · cases h
  · rcases foldl_deepest h with hmem | hnone
    · obtain ⟨hmem, hsel⟩ := mem_filter.mp hmem
      exact ⟨hmem, of_decide_eq_true hsel⟩
    · cases hnone

/-- What a step can do. -/
inductive Stepped (s : Slot C) : Action C → Slot C → Prop
  | prefilled {a : Admission C} {drafts : List ℕ} {s' : Slot C} (hcall : prefillSlot a s = .ok drafts s') :
      Stepped s (.prefill a) { s' with request := some (a.anchor, drafts) }
  | prefillFailed {a : Admission C} {e : String} {s' : Slot C} (hcall : prefillSlot a s = .error e s') :
      Stepped s (.prefill a) { s' with request := none }
  | rounded {r : Round C} {anchor : ℕ} {drafts next : List ℕ} {s' : Slot C} (hrequest : s.request = some (anchor, drafts))
      (hne : drafts ≠ []) (hcall : round r anchor drafts s = .ok next s') :
      Stepped s (.round r) { s' with request := some (r.bonus, next) }
  | roundFailed {r : Round C} {anchor : ℕ} {drafts : List ℕ} {e : String} {s' : Slot C}
      (hrequest : s.request = some (anchor, drafts)) (hne : drafts ≠ []) (hcall : round r anchor drafts s = .error e s') :
      Stepped s (.round r) { s' with request := none }
  | decoded {next anchor : ℕ} (hrequest : s.request = some (anchor, [])) :
      Stepped s (.decode next) { s with
        session := (decodeStep s.session anchor).1
        slotTokens := s.slotTokens ++ [anchor]
        request := some (next, []) }
  | cleared : Stepped s .reset (resetSlot s)
  | reconciled {ids : List ℕ} {key : CacheKey} (hrequest : s.request = none) (pending : Option (ℕ × List ℕ × CacheKey)) :
      Stepped s (.reconcile ids key) { s with pending := pending }

theorem step_cases {act : Action C} {s' : Slot C} (h : step s act = some s') : Stepped s act s' := by
  cases act with
  | prefill a =>
    dsimp only [step] at h
    cases hcall : prefillSlot a s with
    | ok drafts s₁ =>
      rw [hcall] at h
      obtain rfl := Option.some.inj h
      exact .prefilled hcall
    | error e s₁ =>
      rw [hcall] at h
      obtain rfl := Option.some.inj h
      exact .prefillFailed hcall
  | round r =>
    dsimp only [step] at h
    split at h
    case h_1 anchor draft drafts hrequest =>
      cases hcall : round r anchor (draft :: drafts) s with
      | ok next s₁ =>
        rw [hcall] at h
        obtain rfl := Option.some.inj h
        exact .rounded hrequest (cons_ne_nil _ _) hcall
      | error e s₁ =>
        rw [hcall] at h
        obtain rfl := Option.some.inj h
        exact .roundFailed hrequest (cons_ne_nil _ _) hcall
    case h_2 => cases h
  | decode next =>
    dsimp only [step] at h
    split at h
    case h_1 anchor hrequest =>
      obtain rfl := Option.some.inj h
      exact .decoded hrequest
    case h_2 => cases h
  | reset =>
    obtain rfl := Option.some.inj h
    exact .cleared
  | reconcile ids key =>
    dsimp only [step] at h
    split at h
    case h_1 hrequest =>
      split at h
      · obtain rfl := Option.some.inj h
        exact .reconciled hrequest s.pending
      · obtain rfl := Option.some.inj h
        exact .reconciled hrequest _
    case h_2 => cases h

end Calls

section Invariant

variable {ids : List ℕ} {key : CacheKey} {exactKvLen : Option ℕ} {e : Entry C}

/-- What an entry says of the draft head: its prefix is synchronised to the entry's own end. -/
structure Boundary (e : Entry C) : Prop where
  ready : e.mtpPrefixReady
  syncLen : e.mtpSyncLen = e.kvLen
  synced : e.mtpSynced = range e.kvLen
  teacher : ∃ row, e.mtpTeacherHidden = some (e.kvLen - 1, row)

def EntrySynced (e : Entry C) : Prop := (C.enableMtp → Boundary e) ∧ (C.enableMtp = false → e.mtpReady = false)

/-- The target stands at `n`, the draft head was fed with the target rows below `m`. -/
structure SyncedTo (m n : ℕ) (s : Slot C) : Prop where
  pos : s.session.pos = n
  syncLen : C.enableMtp → s.mtp.syncLen = m
  synced : C.enableMtp → s.mtp.synced = range m

def EntriesSynced (s : Slot C) : Prop := ∀ e ∈ s.history, EntrySynced e

/-- Drafts are left only where the draft head stands at the target's position. -/
structure Together (s : Slot C) : Prop where
  entries : EntriesSynced s
  drafts : ∀ anchor drafts, s.request = some (anchor, drafts) → drafts ≠ [] →
    C.enableMtp ∧ SyncedTo s.session.pos s.session.pos s
theorem useMtp_iff {entry : Option (Entry C)} (h : ∀ e, entry = some e → EntrySynced e) :
    Admission.useMtp entry ↔ C.enableMtp := by
  unfold Admission.useMtp
  cases entry with
  | none => exact ⟨And.left, fun hmtp => ⟨hmtp, trivial⟩⟩
  | some e => exact ⟨And.left, fun hmtp => ⟨hmtp, .inl ((h e rfl).1 hmtp).ready⟩⟩

section

variable (h : Selectable C ids key exactKvLen e)
include h

/-- A cached proposal serves its own mode only. -/
theorem Selectable.decodeMode (hready : e.mtpReady) : e.decodeMode = key.mode := by
  by_contra hne
  exact (h.2.2.1 (fun heq => hne heq.symm)).1 hready

theorem Selectable.kvLen_le : e.kvLen ≤ ids.length := by
  have htokens := congrArg List.length h.2.2.2.2.2.2
  rw [length_take] at htokens
  unfold Entry.kvLen at *
  omega

theorem Selectable.kvLen_pos : 0 < e.kvLen := length_pos_of_ne_nil h.1

end

/-- The rows that the first sync of a suffix takes beside the suffix's own. -/
theorem teacherRow_eq {a : Admission C} (he : EntrySynced e)
    (hsel : Selectable C a.promptIds a.cacheKey exactKvLen e) :
    (C.enableMtp ∧ e.mtpReady → ∃ row, a.teacherRow (some e) = [(e.kvLen - 1, row)]) ∧
      (¬(C.enableMtp ∧ e.mtpReady) → a.teacherRow (some e) = []) := by
  have hmode := hsel.decodeMode
  constructor
  · intro ⟨hmtp, hready⟩
    obtain ⟨row, hrow⟩ := (he.1 hmtp).teacher
    have hresync : a.resync (some e) := ⟨hmtp, hready, hmode hready, by rw [hrow]; rfl⟩
    refine ⟨row, ?_⟩
    rw [Admission.teacherRow, if_pos hresync, Option.bind_some, hrow]
    rfl
  · intro hnot
    have hresync : ¬a.resync (some e) := fun h => hnot ⟨h.1, h.2.1⟩
    rw [Admission.teacherRow, if_neg hresync]

theorem resetRuntime_cold (s : Slot C) : SyncedTo 0 0 (resetRuntime false s) := by
  refine ⟨rfl, fun hmtp => ?_, fun hmtp => ?_⟩
  · simp [resetRuntime, hmtp, resetMtpState]
  · simp [resetRuntime, hmtp, resetMtpState]

theorem hitEntry_spec {s : Slot C} (h : hitEntry ids key s = some e) :
    e ∈ s.history ∧ ∃ n, Selectable C ids key n e := by
  unfold hitEntry at h
  split at h
  · cases h
  · exact ⟨(selectPrefixEntry_spec h).1, _, (selectPrefixEntry_spec h).2⟩

/-- The draft head is rewound by the row of a cached proposal. -/
def Rewinds (ids : List ℕ) (e : Entry C) : Prop :=
  e.mtpReady ∧ (e.kvLen < ids.length ∨ e.decodeMode = .sampled)

instance (ids : List ℕ) (e : Entry C) : Decidable (Rewinds ids e) := inferInstanceAs (Decidable (_ ∧ _))

/-- A hit starts at the entry's end, with its cached proposal taken back. -/
theorem restorePrefixSnapshot_synced (ids : List ℕ) (he : EntrySynced e) (s : Slot C) :
    SyncedTo (e.kvLen - if Rewinds ids e then 1 else 0) e.kvLen (restorePrefixSnapshot ids e s) := by
  have hrewind : (e.mtpReady && (decide (e.kvLen < ids.length) || decide (e.decodeMode = .sampled))) =
      decide (Rewinds ids e) := by
    rw [Bool.eq_iff_iff, decide_eq_true_iff]
    simp [Rewinds]
  refine ⟨rfl, fun hmtp => ?_, fun hmtp => ?_⟩
  · have hboundary := he.1 hmtp
    simp only [restorePrefixSnapshot, hmtp, hboundary.ready, not_true_eq_false, Bool.true_or, if_true, if_false, hrewind]
    by_cases h : Rewinds ids e <;> simp [h, hboundary.syncLen]
  · have hboundary := he.1 hmtp
    have hlast : (range e.kvLen).dropLast = range (e.kvLen - 1) := by
      rw [dropLast_eq_take, length_range, take_range, min_eq_left (Nat.sub_le _ _)]
    simp only [restorePrefixSnapshot, hmtp, hboundary.ready, not_true_eq_false, Bool.true_or, if_true, if_false, hrewind]
    by_cases h : Rewinds ids e <;> simp [h, hboundary.synced, hlast]

end Invariant

section Admission

variable {a : Admission C} {entry : Option (Entry C)} {s : Slot C}
variable {m n start hit : ℕ} {hidden : List (ℕ × V)}

theorem range_append_range' (hm : m ≤ n) : range m ++ range' m (n - m) = range n := by
  have happend := range'_append_1 (s := 0) (m := m) (n := n - m)
  rwa [zero_add, Nat.add_sub_cancel' hm, ← range_eq_range', ← range_eq_range'] at happend

/-- Forcing the target rows from `m` up to the target's position closes the gap. -/
theorem SyncedTo.forced {next : List V} (hs : SyncedTo m n s) (hmtp : C.enableMtp)
    (hlen : hidden.length = next.length) (hhidden : hidden.map Prod.fst = range' m (n - m)) (hm : m ≤ n) :
    s.mtp.syncLen + next.length = n ∧ s.mtp.synced ++ hidden.map Prod.fst = range n := by
  have hcount : next.length = n - m := by
    rw [← hlen, ← length_map (f := Prod.fst), hhidden, length_range']
  constructor
  · rw [hs.syncLen hmtp, hcount]
    omega
  · rw [hs.synced hmtp, hhidden, range_append_range' hm]

theorem syncAndPropose_synced (next : List V) (hidden : List (ℕ × V)) (proposal : Proposal C)
    (hs : SyncedTo m n s) (hmtp : C.enableMtp) (hhidden : hidden.map Prod.fst = range' m (n - m)) (hm : m ≤ n) :
    Ends (fun drafts s' => drafts = proposal.drafts ∧ s'.history = s.history ∧ SyncedTo n n s')
      (fun s' => s'.history = s.history) (syncAndPropose next hidden proposal s) := by
  refine (syncAndPropose_ends next hidden proposal s).mono ?_ ?_
  · rintro drafts s' ⟨hdrafts, hlen, rfl⟩
    obtain ⟨hsync, hsynced⟩ := hs.forced hmtp hlen hhidden hm
    exact ⟨hdrafts, rfl, hs.pos, fun _ => hsync, fun _ => hsynced⟩
  · rintro s' ⟨mtp, rfl⟩
    rfl

/-- The same for the sync of a chunk, which proposes nothing. -/
theorem syncRealSuffix_synced (next : List V) (hidden : List (ℕ × V)) (hs : SyncedTo m n s) (hmtp : C.enableMtp)
    (hhidden : hidden.map Prod.fst = range' m (n - m)) (hm : m ≤ n) :
    Ends (fun _ s' => s'.history = s.history ∧ SyncedTo n n s') (fun s' => s'.history = s.history)
      (syncRealSuffix next hidden s) := by
  refine (syncRealSuffix_ends next hidden s).mono ?_ ?_
  · rintro _ s' ⟨hlen, rfl⟩
    obtain ⟨hsync, hsynced⟩ := hs.forced hmtp hlen hhidden hm
    exact ⟨rfl, hs.pos, fun _ => hsync, fun _ => hsynced⟩
  · rintro s' rfl
    rfl

/-- The target runs ahead of the draft head by one chunk. -/
theorem targetPrefill_synced (suffix : List (Input V)) (chunked : Bool) {stop : ℕ}
    (hstop : stop ≤ suffix.length) (hs : SyncedTo m n s) :
    Ends (fun out s' => start < stop ∧ out.2.map Prod.fst = range' n (stop - start) ∧ s'.history = s.history ∧
        SyncedTo m (n + (stop - start)) s')
      (fun s' => s'.history = s.history) (targetPrefill a suffix chunked start stop s) := by
  refine (targetPrefill_ends a suffix chunked start stop s).mono ?_ ?_
  · rintro out s' ⟨hne, hout, session, hpos, rfl⟩
    have hlen : ((suffix.take stop).drop start).length = stop - start := by
      rw [length_drop, length_take, min_eq_left hstop]
    rw [hlen, hs.pos] at hout hpos
    refine ⟨?_, hout, rfl, hpos, hs.syncLen, hs.synced⟩
    have hpositive := length_pos_of_ne_nil hne
    omega
  · rintro s' rfl
    rfl

/-- A captured entry is synchronised to its end where the slot is. -/
theorem snapshotEntry_synced {c : Capture V} (hs : SyncedTo n n s) (hlen : c.tokenIds.length = n)
    (hready : C.enableMtp → c.mtpPrefixReady) (hteacher : C.enableMtp → ∃ row, c.mtpTeacherHidden = some (n - 1, row)) :
    EntrySynced (snapshotEntry s c) := by
  constructor
  · intro hmtp
    have hretain : (C.enableMtp && (c.mtpReady || c.mtpPrefixReady)) = true := by simp [hmtp, hready hmtp]
    constructor
    · simp [snapshotEntry, hmtp, hready hmtp]
    · simp only [snapshotEntry, hretain, if_true, Entry.kvLen, hs.syncLen hmtp, hlen]
    · simp only [snapshotEntry, hretain, if_true, Entry.kvLen, hs.synced hmtp, hlen]
    · obtain ⟨row, hrow⟩ := hteacher hmtp
      exact ⟨row, by simp only [snapshotEntry, Entry.kvLen, hlen, hrow]⟩
  · intro hmtp
    simp [snapshotEntry, hmtp]

theorem entriesSynced_capture {c : Capture V} (hentries : EntriesSynced s) (hnew : EntrySynced (snapshotEntry s c)) :
    EntriesSynced (capturePrefixSnapshot c s) := by
  intro e he
  rcases mem_capture he with hold | ⟨-, -, rfl⟩
  · exact hentries e hold
  · exact hnew

theorem SyncedTo.capture {c : Capture V} (hs : SyncedTo m n s) : SyncedTo m n (capturePrefixSnapshot c s) := by
  obtain ⟨hsession, hmtp⟩ := capture_frame c s
  exact ⟨by rw [hsession, hs.pos], fun h => by rw [hmtp, hs.syncLen h], fun h => by rw [hmtp, hs.synced h]⟩

theorem getLast?_hidden (h : hidden.map Prod.fst = range' m n) (hpos : 0 < n) :
    ∃ row, hidden.getLast? = some (m + n - 1, row) := by
  have hlast : hidden.getLast?.map Prod.fst = some (m + n - 1) := by
    rw [← getLast?_map, h, getLast?_range', if_neg (by omega)]
  cases hidden' : hidden.getLast? with
  | none => simp [hidden'] at hlast
  | some last =>
    rw [hidden', Option.map_some, Option.some.injEq] at hlast
    exact ⟨last.2, by rw [← hlast]⟩

/-- Where a suffix starts: the target at `hit`, the draft head at `m`, and the rows between from the entry. -/
structure SuffixStart (a : Admission C) (entry : Option (Entry C)) (hit m : ℕ) : Prop where
  mtp : Admission.useMtp entry ↔ C.enableMtp
  le : m ≤ hit
  teacher : C.enableMtp → (a.teacherRow entry).map Prod.fst = range' m (hit - m)

def syncedBefore (hit m start : ℕ) : ℕ := if start = 0 then m else hit + start

theorem SuffixStart.teacherAt (h : SuffixStart a entry hit m)
    (hmtp : C.enableMtp) (hhidden : hidden.map Prod.fst = range' (hit + start) n) :
    (a.teacherAt entry start ++ hidden).map Prod.fst =
      range' (syncedBefore hit m start) (hit + start + n - syncedBefore hit m start) := by
  have hle := h.le
  unfold Admission.teacherAt syncedBefore
  rw [map_append, hhidden]
  by_cases hstart : start = 0
  · have happend := range'_append_1 (s := m) (m := hit - m) (n := n)
    rw [if_pos hstart, if_pos hstart, h.teacher hmtp, hstart, add_zero, ← Nat.add_sub_cancel' hle,
      Nat.add_sub_cancel_left, happend]
    congr 1
    omega
  · rw [if_neg hstart, if_neg hstart, map_nil, nil_append, Nat.add_sub_cancel_left]

section

variable {suffix : List (Input V)} (h : SuffixStart a entry hit m) (hlen : hit + suffix.length = a.promptIds.length)
include h hlen

theorem prefillChunk_synced (hstop : start + a.chunkSize ≤ suffix.length)
    (hs : SyncedTo (syncedBefore hit m start) (hit + start) s) (hentries : EntriesSynced s) :
    Ends (fun _ s' => EntriesSynced s' ∧ SyncedTo (hit + (start + a.chunkSize)) (hit + (start + a.chunkSize)) s')
      EntriesSynced (prefillChunk a entry hit suffix start s) := by
  have hkeep : ∀ s' : Slot C, s'.history = s.history → EntriesSynced s' := fun s' heq e he => hentries e (heq ▸ he)
  have hle := h.le
  have hbefore : syncedBefore hit m start ≤ hit + start := by
    unfold syncedBefore
    split <;> omega
  unfold prefillChunk
  refine ends_bind ((targetPrefill_synced suffix true hstop hs).mono (fun _ _ h => h) hkeep) ?_
  rintro ⟨logits, hidden⟩ s₁ ⟨hlt, hhidden, hhistory, hs₁⟩
  rw [Nat.add_sub_cancel_left, add_assoc] at hs₁
  rw [Nat.add_sub_cancel_left] at hhidden
  dsimp only
  split
  case isTrue huse =>
    have hmtp := h.mtp.mp huse
    have hteacher := h.teacherAt hmtp hhidden
    rw [add_assoc] at hteacher
    refine ends_bind ((syncRealSuffix_synced _ _ hs₁ hmtp hteacher (by omega)).mono (fun _ _ h => h)
      fun s' heq => hkeep s' (heq.trans hhistory)) ?_
    rintro _ s₂ ⟨hhistory₂, hs₂⟩
    have hentries₂ := hkeep s₂ (hhistory₂.trans hhistory)
    change EntriesSynced (captureChunk a hit start logits hidden s₂) ∧ _
    unfold captureChunk
    dsimp only
    split
    · refine ⟨entriesSynced_capture hentries₂ (snapshotEntry_synced hs₂ ?_ (fun _ => rfl) fun _ => ?_), hs₂.capture⟩
      · rw [length_take]
        omega
      · obtain ⟨row, hrow⟩ := getLast?_hidden hhidden (by omega)
        exact ⟨row, by rw [hrow, add_assoc]⟩
    · exact ⟨hentries₂, hs₂⟩
  case isFalse huse =>
    have hoff : ¬C.enableMtp := fun hmtp => huse (h.mtp.mpr hmtp)
    exact ⟨hkeep s₁ hhistory, hs₁.pos, fun hmtp => absurd hmtp hoff, fun hmtp => absurd hmtp hoff⟩

theorem prefillLast_synced {chunked : Bool} (hs : SyncedTo (syncedBefore hit m start) (hit + start) s)
    (hentries : EntriesSynced s) :
    Ends (fun drafts s' => EntriesSynced s' ∧ (drafts ≠ [] → C.enableMtp) ∧
        SyncedTo a.promptIds.length a.promptIds.length s')
      EntriesSynced (prefillLast a entry hit suffix chunked start s) := by
  have hkeep : ∀ s' : Slot C, s'.history = s.history → EntriesSynced s' := fun s' heq e he => hentries e (heq ▸ he)
  have hle := h.le
  have hbefore : syncedBefore hit m start ≤ hit + start := by
    unfold syncedBefore
    split <;> omega
  unfold prefillLast
  refine ends_bind ((targetPrefill_synced suffix chunked le_rfl hs).mono (fun _ _ h => h) hkeep) ?_
  rintro ⟨logits, hidden⟩ s₁ ⟨hlt, hhidden, hhistory, hs₁⟩
  have hend : hit + start + (suffix.length - start) = a.promptIds.length := by omega
  rw [hend] at hs₁
  have hlast : ∃ row, hidden.getLast? = some (a.promptIds.length - 1, row) := by
    have hrow := getLast?_hidden hhidden (by omega)
    rwa [hend] at hrow
  have hcapture : ∀ (drafts : List ℕ) (s₂ : Slot C), s₂.history = s.history →
      SyncedTo a.promptIds.length a.promptIds.length s₂ →
      EntriesSynced (captureEnd a entry hit logits hidden drafts { s₂ with slotTokens := a.promptIds }) ∧
        SyncedTo a.promptIds.length a.promptIds.length
          (captureEnd a entry hit logits hidden drafts { s₂ with slotTokens := a.promptIds }) := by
    intro drafts s₂ hhistory₂ hs₂
    have hs₃ : SyncedTo a.promptIds.length a.promptIds.length { s₂ with slotTokens := a.promptIds } :=
      ⟨hs₂.pos, hs₂.syncLen, hs₂.synced⟩
    unfold captureEnd
    split
    · refine ⟨entriesSynced_capture (hkeep _ hhistory₂) (snapshotEntry_synced hs₃ rfl (fun hmtp => ?_) fun hmtp => ?_),
        hs₃.capture⟩
      · exact decide_eq_true (h.mtp.mpr hmtp)
      · obtain ⟨row, hrow⟩ := hlast
        exact ⟨row, by rw [if_pos (h.mtp.mpr hmtp), hrow]⟩
    · exact ⟨hkeep _ hhistory₂, hs₃⟩
  dsimp only
  split
  case isTrue huse =>
    have hmtp := h.mtp.mp huse
    have hteacher := h.teacherAt hmtp hhidden
    rw [hend] at hteacher
    refine ends_bind ((syncAndPropose_synced _ _ a.proposal hs₁ hmtp hteacher (by omega)).mono (fun _ _ h => h)
      fun s' heq => hkeep s' (heq.trans hhistory)) ?_
    rintro drafts s₂ ⟨-, hhistory₂, hs₂⟩
    obtain ⟨hnew, hsynced⟩ := hcapture drafts s₂ (hhistory₂.trans hhistory) hs₂
    exact ⟨hnew, fun _ => hmtp, hsynced⟩
  case isFalse huse =>
    have hoff : ¬C.enableMtp := fun hmtp => huse (h.mtp.mpr hmtp)
    have hs₂ : SyncedTo a.promptIds.length a.promptIds.length s₁ :=
      ⟨hs₁.pos, fun hmtp => absurd hmtp hoff, fun hmtp => absurd hmtp hoff⟩
    obtain ⟨hnew, hsynced⟩ := hcapture [] s₁ hhistory hs₂
    exact ⟨hnew, fun hne => absurd rfl hne, hsynced⟩

end

end Admission

end FlashNext
