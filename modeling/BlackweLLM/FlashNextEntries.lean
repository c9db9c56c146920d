import BlackweLLM.FlashNextDraftRows
import BlackweLLM.FlashNextSyncRuns
import BlackweLLM.FlashNextWrites

/-!
# Flash-Next checkpoints and their rows

What a retained checkpoint says of the slot that it lies in: the rows that its
own tokens and images give, and the pools, states and draft rows that a cold
prefill of these rows leaves.
-/

namespace FlashNext

open List

open RaisingState (Ends)

variable {V : Type} {C : Config V}

section Images

variable {imageRows : String → ℕ}

/-- Image tokens within the rows of the first images begin no other image. -/
theorem begunImages_append {n : ℕ} {images : List String} (h : n ≤ (images.map imageRows).sum) (rest : List String) :
    begunImages imageRows n (images ++ rest) = begunImages imageRows n images := by
  induction images generalizing n with
  | nil =>
    obtain rfl : n = 0 := Nat.le_zero.mp h
    cases rest <;> rfl
  | cons image images ih =>
    cases n with
    | zero => rfl
    | succ n =>
      rw [map_cons, sum_cons] at h
      rw [cons_append, begunImages, begunImages, ih (by omega)]

@[simp] theorem inputs_length (ids : List ℕ) (vision : Option VisionInputs) :
    (inputs C ids vision).length = ids.length := by
  cases vision <;> simp [inputs]

theorem inputs_tokens (ids : List ℕ) (vision : Option VisionInputs) :
    (inputs C ids vision).map Input.token = ids := by
  cases vision with
  | none => simp [inputs, Function.comp_def]
  | some vision => exact ext_getElem (by simp) fun i hi hi' => by simp [inputs]

/-- A row depends on the tokens up to its own. -/
theorem inputs_take (ids : List ℕ) (vision : Option VisionInputs) (n : ℕ) :
    (inputs C ids vision).take n = inputs C (ids.take n) vision := by
  cases vision with
  | none => simp [inputs, map_take]
  | some vision =>
    refine ext_getElem (by simp) fun i hi hi' => ?_
    have hlt : i + 1 ≤ n := by
      rw [length_take] at hi
      omega
    simp only [inputs, getElem_take, getElem_mapIdx, take_take, min_eq_left hlt]

/-- A row depends on the images whose tokens the prefix has. -/
theorem inputs_images {ids : List ℕ} {vision vision' : VisionInputs} (hpre : vision.images <+: vision'.images)
    (hcount : ids.count C.imageTokenId ≤ (vision.images.map C.imageRows).sum) :
    inputs C ids (some vision) = inputs C ids (some vision') := by
  obtain ⟨rest, hrest⟩ := hpre
  refine ext_getElem (by simp) fun i hi hi' => ?_
  have hfront : (ids.take (i + 1)).count C.imageTokenId ≤ (vision.images.map C.imageRows).sum :=
    ((take_sublist (i + 1) ids).count_le C.imageTokenId).trans hcount
  simp only [inputs, getElem_mapIdx, ← hrest, begunImages_append hfront]

end Images

section Entries

variable {a : Admission C} {e : Entry C} {s : Slot C}

def visionOf (key : Option (List String)) : Option VisionInputs :=
  key.map fun keys => ⟨keys, some keys, fun _ h => (Option.some.inj h).symm⟩

def Entry.rows (e : Entry C) : List (Input V) := inputs C e.tokenIds (visionOf e.visionCacheKey)

/-- The entry's prompt had MRoPE positions. -/
def Entry.given (e : Entry C) : Bool := e.visionCacheKey.isSome

@[simp] theorem Entry.rows_length (e : Entry C) : e.rows.length = e.kvLen := inputs_length _ _

/-- What an entry holds of its own, and its prefix's image tokens. -/
structure EntryOwn (e : Entry C) : Prop where
  cached : C.enablePrefixCache
  pos : 0 < e.kvLen
  images : ∀ keys, e.visionCacheKey = some keys → e.tokenIds.count C.imageTokenId ≤ (keys.map C.imageRows).sum
  states : e.states = (cold C.model e.given e.rows).1.map fun c => (c.1, c.2.gdn)
  window : e.window.1 = e.tokenIds.rtake C.model.ngramSize
  teacher : C.enableMtp →
    e.mtpTeacherHidden = some (e.kvLen - 1, hiddenAt C e.given e.rows (e.kvLen - 1))

/-- The slot's rows below an entry's end are those of the entry. -/
structure EntryHeld (s : Slot C) (e : Entry C) : Prop where
  pools : PoolsHold C.model e.given e.rows s.session.layers
  drafts : C.enableMtp → DraftsHold C e.given e.rows s.mtp.rows

/-- The prompt goes through the entry's tokens and images. -/
def Authentic (a : Admission C) (e : Entry C) : Prop :=
  a.promptIds.take e.kvLen = e.tokenIds ∧ visionCacheMatches a.visionCacheKey e.visionCacheKey

instance (a : Admission C) (e : Entry C) : Decidable (Authentic a e) := inferInstanceAs (Decidable (_ ∧ _))

/-- A vision key that is not the uncacheable one lists the images. -/
theorem visionKey_eq {vision : VisionInputs} {keys : List String} (hvision : a.vision = some vision)
    (hkey : a.visionCacheKey = some keys) (hne : keys ≠ [uncacheableVisionPrefixKey]) : keys = vision.images := by
  unfold Admission.visionCacheKey prefixCacheKeyForVisionInputs at hkey
  rw [hvision] at hkey
  dsimp only at hkey
  cases himages : vision.imageCacheKeys with
  | none =>
    rw [himages] at hkey
    exact absurd (Option.some.inj hkey).symm hne
  | some keys' =>
    rw [himages] at hkey
    dsimp only at hkey
    split at hkey
    · exact absurd (Option.some.inj hkey).symm hne
    · rw [← Option.some.inj hkey]
      exact vision.keys_eq keys' himages

theorem visionKey_isSome (a : Admission C) : a.visionCacheKey.isSome = a.vision.isSome := by
  unfold Admission.visionCacheKey prefixCacheKeyForVisionInputs
  cases a.vision with
  | none => rfl
  | some vision =>
    dsimp only
    split
    · rfl
    · split <;> rfl

/-- The rows of an entry that a prompt goes through are rows of the prompt. -/
theorem Authentic.rows (h : Authentic a e) (hown : EntryOwn e) : e.given = a.vision.isSome ∧ e.rows <+: a.rows := by
  obtain ⟨htokens, hmatch⟩ := h
  have hsome := visionKey_isSome a
  have hpre : inputs C e.tokenIds a.vision <+: a.rows := by
    rw [← htokens, ← inputs_take]
    exact take_prefix _ _
  cases hkey : a.visionCacheKey with
  | none =>
    rw [hkey] at hmatch hsome
    have hcached : e.visionCacheKey = none := hmatch
    have hvision : a.vision = none := Option.not_isSome_iff_eq_none.mp (by rw [← hsome]; simp)
    rw [Entry.given, hcached, hvision]
    refine ⟨rfl, ?_⟩
    rw [Entry.rows, hcached, visionOf, Option.map_none, ← hvision]
    exact hpre
  | some keys =>
    rw [hkey] at hmatch hsome
    obtain ⟨vision, hvision⟩ := Option.isSome_iff_exists.mp hsome.symm
    cases hcached : e.visionCacheKey with
    | none =>
      rw [hcached] at hmatch
      exact hmatch.2.elim
    | some cached =>
      rw [hcached] at hmatch
      obtain ⟨hne, -, hkeys⟩ := hmatch
      rw [visionKey_eq hvision hkey hne] at hkeys
      refine ⟨by rw [Entry.given, hcached, hvision]; rfl, ?_⟩
      rw [hvision] at hpre
      rw [Entry.rows, hcached]
      have hsame : inputs C e.tokenIds (visionOf (some cached)) = inputs C e.tokenIds (some vision) :=
        inputs_images hkeys (hown.images cached hcached)
      rw [hsame]
      exact hpre

/-- The cuts of a prompt's rows are the rows of an entry that is captured there. -/
theorem capture_rows {n : ℕ} (hcacheable : a.cacheable) (htokens : e.tokenIds = a.promptIds.take n)
    (hkey : e.visionCacheKey = a.visionCacheKey) : e.given = a.vision.isSome ∧ e.rows = a.rows.take n := by
  refine ⟨by rw [Entry.given, hkey, visionKey_isSome], ?_⟩
  rw [Entry.rows, htokens, hkey, Admission.rows, inputs_take]
  have hsome := visionKey_isSome a
  cases hvision : a.vision with
  | none =>
    rw [hvision] at hsome
    have hnone : a.visionCacheKey = none := Option.not_isSome_iff_eq_none.mp (by rw [hsome]; simp)
    rw [hnone, visionOf, Option.map_none]
  | some vision =>
    rw [hvision] at hsome
    obtain ⟨keys, hkeys⟩ := Option.isSome_iff_exists.mp hsome
    have hne : keys ≠ [uncacheableVisionPrefixKey] := fun heq => hcacheable (by rw [hkeys, heq])
    rw [hkeys, visionKey_eq hvision hkeys hne]
    rfl

theorem capture_images (hcacheable : a.cacheable) (hencodes : a.encodes) {n : ℕ} {keys : List String}
    (hkey : a.visionCacheKey = some keys) :
    (a.promptIds.take n).count C.imageTokenId ≤ (keys.map C.imageRows).sum := by
  have hsome := visionKey_isSome a
  rw [hkey] at hsome
  obtain ⟨vision, hvision⟩ := Option.isSome_iff_exists.mp hsome.symm
  have hne : keys ≠ [uncacheableVisionPrefixKey] := fun heq => hcacheable (by rw [hkey, heq])
  rw [visionKey_eq hvision hkey hne, ← hencodes vision hvision]
  exact (take_sublist n a.promptIds).count_le C.imageTokenId

end Entries

section Restore

variable {s : Slot C} {e : Entry C}

/-- The pools of a slot with the recurrent states of a cold prefill. -/
theorem restoredLayers_warm {M : Model V} {given : Bool} {n : ℕ} {cs ds : List (LayerState V)}
    (hcs : cs.length = M.layers.length) (hds : ds.length = M.layers.length) (h : ∀ q < n, RowsAt M given q cs ds) :
    Cascade.Layered (LayerWarm M given n) M.layers
      (zipWith (fun c (state : V × V) => ((state.1, { c.2 with gdn := state.2 }) : LayerState V)) cs
        (ds.map fun c => (c.1, c.2.gdn))) ds := by
  unfold RowsAt at h
  generalize M.layers = Ls at hcs hds h ⊢
  induction Ls generalizing cs ds with
  | nil =>
    cases length_eq_zero_iff.mp hcs
    cases length_eq_zero_iff.mp hds
    exact trivial
  | cons L Ls ih =>
    cases cs with
    | nil => cases hcs
    | cons c cs =>
      cases ds with
      | nil => cases hds
      | cons d ds =>
        refine ⟨⟨rfl, rfl, fun q hq Q hQ => ?_⟩, ih (Nat.succ.inj hcs) (Nat.succ.inj hds) fun q hq => (h q hq).2⟩
        obtain ⟨hkv, hidxK, hidxRope, hpooled⟩ := (h q hq).1 Q hQ
        exact ⟨hkv, hidxK, hidxRope, hpooled⟩

theorem zeroState_rows (s : Session C.model) (hlen : s.layers.length = C.model.layers.length) (q : ℕ) :
    RowsAt C.model true q (zeroState false s).layers s.layers :=
  Cascade.Layered.map (fun _ _ _ _ => ⟨rfl, rfl, fun _ => rfl, fun _ => rfl⟩) hlen

/-- What an entry needs of the slot is its pools and the draft head's rows. -/
theorem EntryHeld.of_rows {s' : Slot C} (h : EntryHeld s e) (hpos : 0 < e.kvLen)
    (hrows : ∀ q < e.kvLen, RowsAt C.model true q s'.session.layers s.session.layers)
    (hdrafts : ∀ i < e.kvLen, s'.mtp.rows i = s.mtp.rows i) : EntryHeld s' e := by
  constructor
  · intro q hq
    rw [Entry.rows_length] at hq
    exact (hrows q hq).of_true.trans (h.pools q (by rwa [Entry.rows_length]))
  · exact fun hmtp => (h.drafts hmtp).congr (by rwa [Entry.rows_length]) fun i hi => hdrafts i (by rwa [← Entry.rows_length])

/-- A reset that preserves the prefix keeps the rows. -/
theorem resetRuntime_held (hlen : s.session.layers.length = C.model.layers.length) (hmem : e ∈ s.history)
    (hpos : 0 < e.kvLen) (h : EntryHeld s e) : EntryHeld (resetRuntime true s) e := by
  have hne : s.history.isEmpty = false := isEmpty_eq_false_iff.mpr (ne_nil_of_mem hmem)
  refine h.of_rows hpos (fun q _ => ?_) fun i _ => ?_
  · simp only [resetRuntime, hne, Bool.not_false, Bool.and_true, Bool.not_true]
    exact zeroState_rows s.session hlen q
  · simp only [resetRuntime, hne, Bool.not_false, Bool.and_true, Bool.not_true]
    split <;> rfl

theorem restorePrefixSnapshot_rows (ids : List ℕ) (e : Entry C) (hsynced : EntrySynced e) (s : Slot C) :
    (restorePrefixSnapshot ids e s).mtp.rows = s.mtp.rows := by
  unfold restorePrefixSnapshot
  dsimp only
  split
  · rfl
  case isFalse hmtp =>
    have hready := (hsynced.1 (not_not.mp hmtp)).ready
    rw [if_pos (by simp [hready])]
    split <;> rfl

end Restore

end FlashNext
