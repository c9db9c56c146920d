import BlackweLLM.FlashNextEntries

/-!
# A Flash-Next admission on its way

The slot between two calls of an admission: the target went through the first
rows of the prompt as a cold prefill does, the draft head was fed with the rows
below its length, and the checkpoints of the history hold what is theirs.
-/

namespace FlashNext

open List

open RaisingState (raiseIf Ends ends_bind ends_get_bind ends_raiseIf_bind ends_forM)

variable {V : Type} {C : Config V} {a : Admission C} {s : Slot C} {hit m n : ℕ}

/-- Every checkpoint holds its rows. -/
structure Kept (s : Slot C) : Prop where
  layers : s.session.layers.length = C.model.layers.length
  entries : ∀ e ∈ s.history, EntryOwn e ∧ EntryHeld s e

/-- The target went through the rows below `n`, the draft head through those below `m`. Checkpoints from the
hit on are prefixes of the prompt. -/
structure Admitting (a : Admission C) (hit m n : ℕ) (s : Slot C) : Prop where
  warm : Warm C.model a.vision.isSome (a.rows.take n) s.session
  drafts : C.enableMtp → DraftsTo C a.vision.isSome a.rows m s.mtp.rows
  synced : SyncedTo m n s
  entries : ∀ e ∈ s.history, EntryOwn e ∧ EntryHeld s e
  fits : ∀ e ∈ s.history, e.kvLen < hit ∨ (e.given = a.vision.isSome ∧ e.rows <+: a.rows)

theorem Admitting.kept (h : Admitting a hit m n s) : Kept s := ⟨h.warm.layers.length.1, h.entries⟩

theorem Admitting.of_eq {s' : Slot C} (h : Admitting a hit m n s) (hsession : s'.session = s.session)
    (hmtp : s'.mtp = s.mtp) (hhistory : s'.history = s.history) : Admitting a hit m n s' := by
  have hheld : ∀ e, EntryHeld s e → EntryHeld s' e := fun e he =>
    ⟨by rw [hsession]; exact he.pools, fun h => by rw [hmtp]; exact he.drafts h⟩
  constructor
  · rw [hsession]
    exact h.warm
  · rw [hmtp]
    exact h.drafts
  · exact ⟨by rw [hsession, h.synced.pos], fun h' => by rw [hmtp, h.synced.syncLen h'], fun h' => by rw [hmtp, h.synced.synced h']⟩
  · rw [hhistory]
    exact fun e he => ⟨(h.entries e he).1, hheld e (h.entries e he).2⟩
  · rw [hhistory]
    exact h.fits

section Prefill

/-- What `target.prefill` does when it does not raise. -/
theorem targetPrefill_runs (a : Admission C) (suffix : List (Input V)) (chunked : Bool) (start stop : ℕ) (s : Slot C) :
    Ends (fun out s' => (suffix.take stop).drop start ≠ [] ∧ ∃ history ropeNext,
        (history = s.session.window.1 ∨ (chunked ∧ C.pleAheadPrefetch ∧ start ≠ 0 ∧
          history = ((suffix.take start).drop (start - C.model.ngramSize)).map Input.token)) ∧
        out.2 = (prefillSession a.vision.isSome ropeNext history ((suffix.take stop).drop start) s.session).2.2 ∧
        s' = { s with
          session := (prefillSession a.vision.isSome ropeNext history ((suffix.take stop).drop start) s.session).1 })
      (fun s' => s' = s) (targetPrefill a suffix chunked start stop s) := by
  unfold targetPrefill
  apply ends_get_bind
  refine ends_raiseIf_bind (fun _ => rfl) fun hne => ends_raiseIf_bind (fun _ => rfl) fun _ => ?_
  refine ⟨hne, _, _, ?_, rfl, rfl⟩
  split
  case isTrue hahead => exact .inr ⟨hahead.1, hahead.2.1, hahead.2.2, rfl⟩
  case isFalse => exact .inl rfl

theorem follows_window {M : Model V} {X : List (Input V)} {session : Session M} {given : Bool}
    (h : Warm M given X session) : Follows M session.window.1 (X.map Input.token) := by
  intro later _
  rw [h.window, ngram_append_rtake]

theorem follows_suffix {M : Model V} {history front : List ℕ} (hsuffix : history <:+ front)
    (hlen : M.ngramSize ≤ history.length + 1) : Follows M history front := by
  intro later hne
  obtain ⟨before, rfl⟩ := hsuffix
  refine map_congr_left fun n hn => ?_
  have hin := mem_range.mp hn
  rw [append_assoc, shift_append hne (.inl (by omega))]

/-- The PLE gather of a chunk knows enough of the tokens before it. -/
def Remembers (a : Admission C) (hit : ℕ) : Prop :=
  C.pleAheadPrefetch → hit ≠ 0 → a.chunkSize ≠ 0 → C.model.ngramSize ≤ a.chunkSize + 1

instance (a : Admission C) (hit : ℕ) : Decidable (Remembers a hit) := inferInstanceAs (Decidable (_ → _))

theorem take_add_drop (W : List (Input V)) {start stop : ℕ} (hle : start ≤ stop) :
    W.take (hit + start) ++ ((W.drop hit).take stop).drop start = W.take (hit + stop) := by
  rw [drop_take, drop_drop, ← take_add]
  congr 1
  omega

theorem follows_ahead {W : List (Input V)} {start : ℕ} (hstart : hit + start ≤ W.length)
    (hlen : hit = 0 ∨ C.model.ngramSize ≤ start + 1) :
    Follows C.model ((((W.drop hit).take start).drop (start - C.model.ngramSize)).map Input.token)
      ((W.take (hit + start)).map Input.token) := by
  by_cases hshort : C.model.ngramSize ≤ start + 1
  · refine follows_suffix ?_ ?_
    · rw [take_add, map_append]
      exact ((drop_suffix _ _).map Input.token).trans (suffix_append _ _)
    · rw [length_map, length_drop, length_take, length_drop]
      omega
  · obtain rfl : hit = 0 := by omega
    have hzero : start - C.model.ngramSize = 0 := by omega
    rw [hzero, drop_zero, drop_zero, zero_add]
    exact fun _ _ => rfl

theorem targetPrefill_admitting {chunked : Bool} {start stop : ℕ} (h : Admitting a hit m (hit + start) s)
    (hfits : a.promptIds.length ≤ C.model.indexRows) (hstop : hit + stop ≤ a.promptIds.length)
    (hahead : chunked → C.pleAheadPrefetch → start ≠ 0 → hit = 0 ∨ C.model.ngramSize ≤ start + 1) :
    Ends (fun out s' => start < stop ∧
        out.2 = (coldHidden C.model a.vision.isSome (a.rows.take (hit + stop))).drop (hit + start) ∧
        s'.mtp = s.mtp ∧ Admitting a hit m (hit + stop) s')
      Kept (targetPrefill a (a.rows.drop hit) chunked start stop s) := by
  refine (targetPrefill_runs a (a.rows.drop hit) chunked start stop s).mono ?_ ?_
  · rintro out s' ⟨hne, history, ropeNext, hhistory, hout, rfl⟩
    have hlt : start < stop := by
      by_contra hle
      refine hne (drop_of_length_le ?_)
      rw [length_take]
      omega
    have hlen : (a.rows.take (hit + start)).length = hit + start := by
      rw [length_take, Admission.rows_length]
      omega
    have hfollows : Follows C.model history ((a.rows.take (hit + start)).map Input.token) := by
      rcases hhistory with rfl | ⟨hchunked, hple, hstart, rfl⟩
      · exact follows_window h.warm
      · exact follows_ahead (by rw [Admission.rows_length]; omega) (hahead hchunked hple hstart)
    have hrows : a.rows.take (hit + start) ++ ((a.rows.drop hit).take stop).drop start = a.rows.take (hit + stop) :=
      take_add_drop a.rows hlt.le
    have hpre : a.rows.take (hit + start) ++ ((a.rows.drop hit).take stop).drop start <+: a.rows := by
      rw [hrows]
      exact take_prefix _ _
    have hcapacity : a.rows.length ≤ C.model.indexRows := by rwa [Admission.rows_length]
    obtain ⟨hwarm, hhidden⟩ := h.warm.prefill hfollows (hpre.length_le.trans hcapacity) ropeNext
    rw [hrows] at hwarm hhidden
    rw [hlen] at hhidden
    refine ⟨hlt, hout.trans hhidden, rfl, hwarm, h.drafts, ⟨?_, h.synced.syncLen, h.synced.synced⟩, ?_, h.fits⟩
    · rw [hwarm.pos, length_take, Admission.rows_length, min_eq_left hstop]
    · intro e he
      obtain ⟨hown, hheld⟩ := h.entries e he
      refine ⟨hown, hheld.pools.prefill h.warm hfollows ropeNext hpre hcapacity ?_, hheld.drafts⟩
      rw [Entry.rows_length, hlen]
      exact (h.fits e he).imp (fun hlt => by omega) id
  · rintro s' rfl
    exact h.kept

end Prefill

section Sync

variable {next : List V} {hidden : List (ℕ × V)} {e : Entry C}

theorem drop_coldHidden_positions {given : Bool} {W : List (Input V)} (hn : n ≤ W.length) :
    ((coldHidden C.model given (W.take n)).drop m).map Prod.fst = range' m (n - m) := by
  have hlen : (W.take n).length = n := by
    rw [length_take]
    omega
  refine ext_getElem (by simp [hlen]) fun i hi hi' => ?_
  simp [coldHidden]

/-- The rows of the prompt that close the draft head's gap. -/
structure Feeds (a : Admission C) (m n : ℕ) (next : List V) (hidden : List (ℕ × V)) : Prop where
  hidden : hidden = (coldHidden C.model a.vision.isSome (a.rows.take n)).drop m
  next : ∀ j, m + j < n → m + j + 1 < a.rows.length → next[j]? = some (embedAt C a.rows (m + j + 1))

theorem Admitting.sync (h : Admitting a hit m n s) (hmtp : C.enableMtp) (hm : m < n) (hn : n ≤ a.promptIds.length)
    (hhit : hit ≤ m + 1) (hfeeds : Feeds a m n next hidden) :
    Ends (fun _ s' => Admitting a hit n n s' ∧ s'.mtp.pos = n) Kept (syncRealSuffix next hidden s) := by
  refine (syncRealSuffix_ends next hidden s).mono ?_ ?_
  · rintro _ s' ⟨hlen, rfl⟩
    have hW : n ≤ a.rows.length := by rwa [Admission.rows_length]
    have hsyncLen := h.synced.syncLen hmtp
    have hcount : hidden.length = n - m := by
      rw [hfeeds.hidden, length_drop, coldHidden_length, length_take]
      omega
    have hfed := fedWith_of hW hfeeds.hidden hfeeds.next
    have hfedlen : ((hidden.map Prod.snd).zip next).length = n - m := by
      rw [length_zip, length_map]
      omega
    have hend : m + ((hidden.map Prod.snd).zip next).length = n := by omega
    have hpositions : hidden.map Prod.fst = range' m (n - m) := by
      rw [hfeeds.hidden]
      exact drop_coldHidden_positions hW
    obtain ⟨hsync, hsynced⟩ := h.synced.forced hmtp hlen hpositions hm.le
    have hdrafts := h.drafts hmtp
    refine ⟨⟨h.warm, fun _ => ?_, ⟨h.synced.pos, fun _ => hsync, fun _ => hsynced⟩, fun e he => ?_, h.fits⟩, hsync⟩
    · have hforced := hdrafts.forced (by omega) hfed
      rw [hend] at hforced
      rw [hsyncLen]
      exact hforced
    · obtain ⟨hown, hheld⟩ := h.entries e he
      refine ⟨hown, hheld.pools, fun hmtp => ?_⟩
      rw [hsyncLen]
      refine (hheld.drafts hmtp).forced (by rw [Entry.rows_length]; exact hown.pos) hfed (hdrafts.base (by omega)) ?_
      rw [Entry.rows_length]
      exact (h.fits e he).imp (fun hlt => by omega) id
  · rintro s' rfl
    exact h.kept

/-- The proposal's own rows lie behind the prompt. -/
theorem Admitting.propose (h : Admitting a hit a.promptIds.length a.promptIds.length s)
    (hhit : hit ≤ a.promptIds.length)
    (hpos : s.mtp.pos = a.promptIds.length) (hne : a.promptIds ≠ []) (proposal : Proposal C) :
    Ends (fun _ s' => Admitting a hit a.promptIds.length a.promptIds.length s') Kept (continueDraft proposal s) := by
  refine (continueDraft_ends proposal s).mono ?_ ?_
  · rintro drafts s' ⟨-, rfl⟩
    refine ⟨h.warm, fun hmtp => ?_, ⟨h.synced.pos, h.synced.syncLen, h.synced.synced⟩, fun e he => ?_, h.fits⟩
    · refine (h.drafts hmtp).scatter ?_ ?_
      · rw [Admission.rows_length]
        exact length_pos_of_ne_nil hne
      · rw [Admission.rows_length, hpos]
    · obtain ⟨hown, hheld⟩ := h.entries e he
      refine ⟨hown, hheld.pools, fun hmtp => (hheld.drafts hmtp).scatter ?_ ?_⟩
      · rw [Entry.rows_length]
        exact hown.pos
      · rw [Entry.rows_length, hpos]
        rcases h.fits e he with hlt | ⟨-, hpre⟩
        · omega
        · have hle := hpre.length_le
          rwa [Entry.rows_length, Admission.rows_length] at hle
  · rintro s' rfl
    exact h.kept

theorem Admitting.syncAndPropose (h : Admitting a hit m a.promptIds.length s) (hmtp : C.enableMtp)
    (hm : m < a.promptIds.length) (hhit : hit ≤ m + 1) (hfeeds : Feeds a m a.promptIds.length next hidden)
    (proposal : Proposal C) :
    Ends (fun _ s' => Admitting a hit a.promptIds.length a.promptIds.length s') Kept
      (FlashNext.syncAndPropose next hidden proposal s) := by
  refine ends_bind (h.sync hmtp hm le_rfl hhit hfeeds) fun _ s₁ ⟨hnow, hpos⟩ => ?_
  exact hnow.propose (by omega) hpos (ne_nil_of_length_pos (by omega)) proposal

end Sync

section Capture

/-- A checkpoint that is taken on the way holds its rows. -/
theorem Admitting.capture {c : Capture V} (h : Admitting a hit n n s) (hpos : 0 < n) (hn : n ≤ a.promptIds.length)
    (hcacheable : a.cacheable) (hencodes : a.encodes) (htokens : c.tokenIds = a.promptIds.take n)
    (hkey : c.visionCacheKey = a.visionCacheKey)
    (hteacher : C.enableMtp → c.mtpTeacherHidden =
      some (n - 1, hiddenAt C a.vision.isSome (a.rows.take n) (n - 1))) :
    Admitting a hit n n (capturePrefixSnapshot c s) := by
  obtain ⟨hsession, hmtp⟩ := capture_frame c s
  have hW : n ≤ a.rows.length := by rwa [Admission.rows_length]
  have hlen : (a.rows.take n).length = n := by
    rw [length_take]
    omega
  obtain ⟨hgiven, hrows⟩ : (snapshotEntry s c).given = a.vision.isSome ∧ (snapshotEntry s c).rows = a.rows.take n :=
    capture_rows hcacheable htokens hkey
  have hkv : (snapshotEntry s c).kvLen = n := by rw [← Entry.rows_length, hrows, hlen]
  have hheld : EntryHeld s (snapshotEntry s c) := by
    constructor
    · rw [hgiven, hrows]
      exact h.warm.pools
    · intro hon
      rw [hgiven, hrows]
      exact (h.drafts hon).hold ( take_prefix _ _) (by omega) (by omega)
  have hsame : ∀ e, EntryHeld s e → EntryHeld (capturePrefixSnapshot c s) e := fun e he =>
    ⟨by rw [hsession]; exact he.pools, fun h => by rw [hmtp]; exact he.drafts h⟩
  constructor
  · rw [hsession]
    exact h.warm
  · rw [hmtp]
    exact h.drafts
  · exact h.synced.capture
  · intro e he
    rcases mem_capture he with hold | ⟨hcached, -, rfl⟩
    · exact ⟨(h.entries e hold).1, hsame e (h.entries e hold).2⟩
    · refine ⟨⟨hcached, by omega, fun keys hkeys => ?_, ?_, ?_, fun hon => ?_⟩, hsame _ hheld⟩
      · change (c.tokenIds.count C.imageTokenId) ≤ _
        rw [htokens]
        exact capture_images hcacheable hencodes (hkey.symm.trans hkeys)
      · rw [hgiven, hrows]
        exact h.warm.layers.map_eq fun L c c' hwarm => by rw [hwarm.ple, hwarm.gdn]
      · change s.session.window.1 = c.tokenIds.rtake _
        rw [h.warm.window, htokens, ← inputs_tokens (C := C) (a.promptIds.take n) a.vision, ← inputs_take]
        rfl
      · rw [hgiven, hrows, hkv]
        exact hteacher hon
  · intro e he
    rcases mem_capture he with hold | ⟨-, -, rfl⟩
    · exact h.fits e hold
    · rw [hgiven, hrows]
      exact .inr ⟨rfl, take_prefix _ _⟩

end Capture

section Chunks

variable {entry : Option (Entry C)} {start : ℕ}

/-- An admission goes on from `hit`, with the target rows that the draft head lacks below it. -/
structure Resumes (a : Admission C) (entry : Option (Entry C)) (hit m : ℕ) : Prop where
  start : SuffixStart a entry hit m
  behind : hit ≤ m + 1
  teacher : C.enableMtp →
    a.teacherRow entry = (coldHidden C.model a.vision.isSome (a.rows.take hit)).drop m

/-- Without the draft head its length does not matter. -/
theorem Admitting.of_off (h : Admitting a hit m n s) (hoff : ¬C.enableMtp) : Admitting a hit n n s :=
  ⟨h.warm, fun hon => absurd hon hoff, ⟨h.synced.pos, fun hon => absurd hon hoff, fun hon => absurd hon hoff⟩,
    h.entries, h.fits⟩

theorem Resumes.le (h : Resumes a entry hit m) : syncedBefore hit m start ≤ hit + start ∧
    hit ≤ syncedBefore hit m start + 1 := by
  have hle := h.start.le
  have hbehind := h.behind
  unfold syncedBefore
  split <;> omega

/-- The teacher row stands before the hidden rows of the first chunk. -/
theorem Resumes.hidden (h : Resumes a entry hit m) (hmtp : C.enableMtp) (hlt : start < n)
    (hn : hit + n ≤ a.promptIds.length) :
    a.teacherAt entry start ++ (coldHidden C.model a.vision.isSome (a.rows.take (hit + n))).drop (hit + start) =
        (coldHidden C.model a.vision.isSome (a.rows.take (hit + n))).drop (syncedBefore hit m start) ∧
      syncedBefore hit m start + (a.teacherAt entry start).length = hit + start := by
  have hle := h.start.le
  unfold Admission.teacherAt syncedBefore
  by_cases hstart : start = 0
  · subst hstart
    rw [if_pos rfl, if_pos rfl, h.teacher hmtp, add_zero]
    refine ⟨drop_coldHidden hle (Nat.le_add_right hit n) (by rwa [Admission.rows_length]), ?_⟩
    rw [length_drop, coldHidden_length, length_take, Admission.rows_length]
    omega
  · rw [if_neg hstart, if_neg hstart]
    exact ⟨rfl, rfl⟩

theorem suffix_embed {k : ℕ} (hk : hit + k < a.promptIds.length) :
    ((a.rows.drop hit).map Input.embed)[k]? = some (embedAt C a.rows (hit + k)) := by
  have hlt : hit + k < (a.rows.map Input.embed).length := by rwa [length_map, Admission.rows_length]
  rw [map_drop, getElem?_drop, getElem?_eq_getElem hlt, embedAt, getD_eq_getElem _ _ hlt]

theorem getLast?_coldHidden {given : Bool} {W : List (Input V)} (hlt : m < n) (hn : n ≤ W.length) :
    ((coldHidden C.model given (W.take n)).drop m).getLast? = some (n - 1, hiddenAt C given (W.take n) (n - 1)) := by
  have hlen : (W.take n).length = n := by
    rw [length_take]
    omega
  rw [getLast?_drop, coldHidden_length, hlen, if_neg (by omega), getLast?_eq_getElem?, coldHidden_length, hlen,
    getElem?_eq_getElem (by rw [coldHidden_length, hlen]; omega), hiddenAt,
    getD_eq_getElem _ _ (by rw [length_map, coldHidden_length, hlen]; omega)]
  simp [coldHidden]

theorem prefillChunk_admitting (hresumes : Resumes a entry hit m)
    (h : Admitting a hit (syncedBefore hit m start) (hit + start) s) (hfits : a.promptIds.length ≤ C.model.indexRows)
    (hencodes : a.encodes) (hstop : hit + (start + a.chunkSize) < a.promptIds.length)
    (hahead : C.pleAheadPrefetch → start ≠ 0 → hit = 0 ∨ C.model.ngramSize ≤ start + 1) :
    Ends (fun _ s' => Admitting a hit (hit + (start + a.chunkSize)) (hit + (start + a.chunkSize)) s') Kept
      (prefillChunk a entry hit (a.rows.drop hit) start s) := by
  obtain ⟨hle, hbehind⟩ : syncedBefore hit m start ≤ hit + start ∧ hit ≤ syncedBefore hit m start + 1 := hresumes.le
  unfold prefillChunk
  refine ends_bind (targetPrefill_admitting h hfits hstop.le fun _ => hahead) ?_
  rintro ⟨logits, hidden⟩ s₁ ⟨hlt, hout, -, h₁⟩
  dsimp only at hout ⊢
  split
  case isTrue huse =>
    have hmtp := hresumes.start.mtp.mp huse
    obtain ⟨hhidden, hteacher⟩ := hresumes.hidden hmtp hlt hstop.le
    have hfeeds : Feeds a (syncedBefore hit m start) (hit + (start + a.chunkSize))
        ((((a.rows.drop hit).map Input.embed).take (start + a.chunkSize + 1)).drop
          (start + 1 - (a.teacherAt entry start).length)) (a.teacherAt entry start ++ hidden) := by
      refine ⟨by rw [hout, hhidden], fun j hj _ => ?_⟩
      rw [getElem?_drop, getElem?_take_of_lt (by omega), suffix_embed (by omega)]
      congr 2
      omega
    refine ends_bind (h₁.sync hmtp (by omega) hstop.le hbehind hfeeds) ?_
    rintro _ s₂ ⟨h₂, -⟩
    change Admitting a hit (hit + (start + a.chunkSize)) (hit + (start + a.chunkSize))
      (captureChunk a hit start logits hidden s₂)
    unfold captureChunk
    dsimp only
    split
    case isTrue hcross =>
      refine h₂.capture (by omega) hstop.le hcross.2.2 hencodes rfl rfl fun _ => ?_
      rw [hout]
      exact getLast?_coldHidden (by omega) (by rw [Admission.rows_length]; omega)
    case isFalse => exact h₂
  case isFalse huse => exact h₁.of_off fun hmtp => huse (hresumes.start.mtp.mpr hmtp)

theorem prefillLast_admitting {chunked : Bool} (hresumes : Resumes a entry hit m)
    (h : Admitting a hit (syncedBefore hit m start) (hit + start) s) (hfits : a.promptIds.length ≤ C.model.indexRows)
    (hencodes : a.encodes) (hhit : hit ≤ a.promptIds.length)
    (hahead : chunked → C.pleAheadPrefetch → start ≠ 0 → hit = 0 ∨ C.model.ngramSize ≤ start + 1) :
    Ends (fun _ s' => Admitting a hit a.promptIds.length a.promptIds.length s') Kept
      (prefillLast a entry hit (a.rows.drop hit) chunked start s) := by
  obtain ⟨hle, hbehind⟩ : syncedBefore hit m start ≤ hit + start ∧ hit ≤ syncedBefore hit m start + 1 := hresumes.le
  have hend : hit + (a.rows.drop hit).length = a.promptIds.length := by
    rw [length_drop, Admission.rows_length]
    omega
  unfold prefillLast
  refine ends_bind (targetPrefill_admitting h hfits hend.le hahead) ?_
  rintro ⟨logits, hidden⟩ s₁ ⟨hlt, hout, -, h₁⟩
  have hlast : hidden.getLast? = some (a.promptIds.length - 1,
      hiddenAt C a.vision.isSome (a.rows.take a.promptIds.length) (a.promptIds.length - 1)) := by
    dsimp only at hout
    rw [hout, ← hend]
    exact getLast?_coldHidden (by omega) (by rw [hend, Admission.rows_length])
  have hcapture : ∀ (drafts : List ℕ) (s₂ : Slot C), Admitting a hit a.promptIds.length a.promptIds.length s₂ →
      Admitting a hit a.promptIds.length a.promptIds.length
        (captureEnd a entry hit logits hidden drafts { s₂ with slotTokens := a.promptIds }) := by
    intro drafts s₂ h₂
    have h₃ : Admitting a hit a.promptIds.length a.promptIds.length { s₂ with slotTokens := a.promptIds } :=
      h₂.of_eq rfl rfl rfl
    unfold captureEnd
    split
    case isTrue hcacheable =>
      refine h₃.capture (by omega) le_rfl hcacheable hencodes take_length.symm rfl fun hmtp => ?_
      exact (if_pos (hresumes.start.mtp.mpr hmtp)).trans hlast
    case isFalse => exact h₃
  dsimp only at hout ⊢
  rw [hend] at h₁
  split
  case isTrue huse =>
    have hmtp := hresumes.start.mtp.mp huse
    obtain ⟨hhidden, hteacher⟩ := hresumes.hidden hmtp hlt hend.le
    rw [hend] at hhidden hout
    have hfeeds : Feeds a (syncedBefore hit m start) a.promptIds.length
        (((a.rows.drop hit).map Input.embed).drop (start + 1 - (a.teacherAt entry start).length) ++ [C.model.embed a.anchor])
        (a.teacherAt entry start ++ hidden) := by
      refine ⟨by rw [hout, hhidden], fun j hj hnext => ?_⟩
      rw [Admission.rows_length] at hnext
      rw [getElem?_append_left (by rw [length_drop, length_map]; omega), getElem?_drop,
        suffix_embed (by omega)]
      congr 2
      omega
    refine ends_bind (h₁.syncAndPropose hmtp (by omega) hbehind hfeeds a.proposal) ?_
    exact fun drafts s₂ h₂ => hcapture drafts s₂ h₂
  case isFalse huse => exact hcapture [] s₁ (h₁.of_off fun hmtp => huse (hresumes.start.mtp.mpr hmtp))

theorem prefillSuffix_admitting (hresumes : Resumes a entry hit m) (h : Admitting a hit m hit s)
    (hfits : a.promptIds.length ≤ C.model.indexRows) (hhit : hit ≤ a.promptIds.length) (hremembers : Remembers a hit) :
    Ends (fun _ s' => Admitting a hit a.promptIds.length a.promptIds.length s') Kept (prefillSuffix a entry hit s) := by
  have hsuffix : (a.rows.drop hit).length = a.promptIds.length - hit := by
    rw [length_drop, Admission.rows_length]
  unfold prefillSuffix
  refine ends_raiseIf_bind (fun _ => h.kept) fun hencodes => ?_
  have hencodes := not_not.mp hencodes
  by_cases hchunked : 0 < a.chunkSize ∧ a.chunkSize < (a.rows.drop hit).length
  · rw [if_pos hchunked]
    have hcount := Nat.div_mul_le_self ((a.rows.drop hit).length - 1) a.chunkSize
    have hahead : ∀ k, C.pleAheadPrefetch → k * a.chunkSize ≠ 0 → hit = 0 ∨ C.model.ngramSize ≤ k * a.chunkSize + 1 := by
      intro k hple hk
      by_cases hzero : hit = 0
      · exact .inl hzero
      · have hchunk : 1 * a.chunkSize ≤ k * a.chunkSize :=
          Nat.mul_le_mul_right _ (Nat.pos_of_ne_zero fun heq => hk (by rw [heq, Nat.zero_mul]))
        have hgram := hremembers hple hzero hchunked.1.ne'
        exact .inr (by omega)
    refine ends_bind (ends_forM (I := fun done s =>
      Admitting a hit (syncedBefore hit m (done.length * a.chunkSize)) (hit + done.length * a.chunkSize) s) ?_ ?_) ?_
    · intro done x rest s' hl hs'
      obtain ⟨rfl, hlt⟩ := range_map_append hl
      have hnext : (done.length + 1) * a.chunkSize ≤ ((a.rows.drop hit).length - 1) / a.chunkSize * a.chunkSize :=
        Nat.mul_le_mul_right _ hlt
      rw [Nat.succ_mul] at hnext
      have hchunk := prefillChunk_admitting hresumes hs' hfits hencodes (by omega) (hahead done.length)
      refine hchunk.mono (fun _ s'' hs'' => ?_) fun _ herr => herr
      have hpositive : (done ++ [done.length * a.chunkSize]).length * a.chunkSize =
          done.length * a.chunkSize + a.chunkSize := by
        rw [length_append, length_singleton, Nat.succ_mul]
      rw [hpositive, syncedBefore, if_neg (by omega)]
      exact hs''
    · rw [length_nil, zero_mul]
      exact h
    · intro _ s' hs'
      rw [length_map, length_range] at hs'
      exact prefillLast_admitting hresumes hs' hfits hencodes hhit fun _ => hahead _
  · rw [if_neg hchunked]
    exact prefillLast_admitting hresumes h hfits hencodes hhit fun _ _ hne => absurd rfl hne

end Chunks

end FlashNext
