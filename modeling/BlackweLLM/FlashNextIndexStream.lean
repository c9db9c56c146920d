import BlackweLLM.FlashNextIndexRuns
import BlackweLLM.StepRun

/-!
# Streams through the index cache

A slot's calls as `prefill_session`, `decode_body` and the verify graph make them: a
prompt chunk, a decode row, a verify block with its commit.
-/

namespace FlashNext

open List

variable {V : Type}

/-- A session's index cache, with the raw cache of the size that `qsa_index_cache_rows` gives. -/
structure IndexSetup extends Indexer where
  ring : Bool
  maxSeq : ℕ
  fixedRows : ℕ
  rows_pos : 0 < fixedRows
  capacity_eq : qsaIndexCacheRows ring maxSeq compressRatio fixedRows = .ok capacity

/-- The session, with the stream that it was given: the position is the stream's length. -/
structure IndexSession (V : Type) where
  cache : IndexCache V
  ropeNext : Option Rope
  stream : List (IndexToken V)

inductive IndexPiece (V : Type) where
  /-- A chunk, for a multimodal prompt with its coordinates and `rope_next_position`. -/
  | prefill (keys : List V) (rope : Option (Positions × Option ℕ))
  | decode (key : V)
  /-- A verify block and the commit of its accepted rows. -/
  | verify (sequentialQsa : Bool) (keys : List V) (accepted : ℕ)

/-- `int(rope.max().item())`. -/
def ropeMax (coords : List Rope) : ℕ := (coords.map fun rope => max rope.1 (max rope.2.1 rope.2.2)).foldl max 0

namespace IndexSession

variable (s : IndexSession V)

def pos : ℕ := s.stream.length

/-- The coordinate of the token `i` places behind the session's position. -/
def coordAfter (i : ℕ) : Rope := (s.ropeNext.map (ropeAdd · i)).getD (axes (s.pos + i))

def rowTokens (mrope : Bool) (keys : List V) : List (IndexToken V) :=
  keys.mapIdx fun i key => ⟨key, if mrope then s.coordAfter i else axes (s.pos + i), mrope⟩

end IndexSession

namespace IndexSetup

variable (B : IndexSetup)
variable {S : List (IndexToken V)}

/-- The index updates of a verify block: all rows at once, or one after the other. -/
def verifyUpdates (c : IndexCache V) (sequentialQsa : Bool) (pos : ℕ) (keys : List V) : Except String (IndexCache V) :=
  let given (positions : List ℕ) := if B.mrope then some (Positions.scalar positions) else none
  if sequentialQsa then
    (keys.zip (range' pos keys.length)).foldlM (fun c (key, position) =>
      B.updateIndexCacheFixed c [key] [position] B.mrope (given [position])) c
  else
    let positions := range' pos keys.length
    B.updateIndexCacheFixed c keys positions B.mrope (given positions)

def step [Zero V] (s : IndexSession V) : IndexPiece V → Except String (IndexSession V)
  | .prefill keys rope =>
    if keys = [] then throw "Flash-Next prefill expects non-empty input_ids [T], got (0,)"
    else if s.pos + keys.length > B.maxSeq then
      throw s!"Flash-Next prefill end {s.pos + keys.length} exceeds allocated graph capacity"
    else
      match rope with
      | none => do
        let cache ← B.updateIndexCacheEager s.cache keys s.pos false none
        return { s with
          cache := cache
          stream := s.stream ++ keys.mapIdx fun i key => ⟨key, axes (s.pos + i), false⟩ }
      | some (positions, ropeNextPosition) => do
        let coords ← normalizeRopePositions positions keys.length
        let cache ← B.updateIndexCacheEager s.cache keys s.pos B.mrope (some (axisMajor keys.length coords))
        return {
          cache := cache
          ropeNext := some (axes (ropeNextPosition.getD (ropeMax ((range keys.length).map coords) + 1)))
          stream := s.stream ++ keys.mapIdx fun i key => ⟨key, coords i, true⟩ }
  | .decode key => do
    let given := if B.mrope then some (axisMajor 1 fun _ => s.coordAfter 0) else none
    let cache ← B.updateIndexCacheFixed s.cache [key] [s.pos] B.mrope given
    return {
      cache := cache
      ropeNext := s.ropeNext.map (ropeAdd · 1)
      stream := s.stream ++ s.rowTokens B.mrope [key] }
  | .verify sequentialQsa keys accepted =>
    if keys.length ≠ B.fixedRows then
      throw s!"verify requires anchor + {B.fixedRows - 1} drafts ({B.fixedRows} rows), got {keys.length}"
    else if s.pos + keys.length > B.maxSeq then
      throw (s!"verify exceeds target cache capacity: past_len={s.pos}, rows={keys.length}, " ++
        s!"capacity={B.maxSeq}")
    else if ¬(1 ≤ accepted ∧ accepted ≤ keys.length) then
      throw (s!"accepted_count must include the anchor and be in [1,{keys.length}], " ++ s!"got {accepted}")
    else do
      let cache ← B.verifyUpdates s.cache sequentialQsa s.pos keys
      let cache ← B.rollbackSpeculativeQsa cache s.pos keys.length (s.pos + accepted)
      return { s with
        cache := cache
        stream := s.stream ++ (s.rowTokens B.mrope keys).take accepted }

def runPieces [Zero V] : IndexSession V → List (IndexPiece V) → Option (IndexSession V) :=
  StepRun.run fun s p => (B.step s p).toOption

/-- The group that the next row goes on with was begun by a caller that recorded its coordinate. -/
def Begun (s : IndexSession V) : Prop := ∀ t, s.stream[B.openBase s.pos]? = some t → t.recorded

/-- The calls that the cache's coordinates allow. -/
def Allowed (multimodal : Bool) (s : IndexSession V) : IndexPiece V → Prop
  | .prefill keys rope => rope.isSome = multimodal ∧ ∀ given ∈ rope, ∀ coords,
      normalizeRopePositions given.1 keys.length = .ok coords →
        let first := B.groupCoords (s.stream ++ keys.mapIdx fun i key => ⟨key, coords i, true⟩)
          (s.pos / B.compressRatio) ((s.pos + keys.length) / B.compressRatio)
        first.length = 3 → Symmetric first
  | .decode _ => B.mrope → B.Begun s
  | .verify sequentialQsa keys accepted => B.mrope → s.ropeNext = none ∧ B.Begun s ∧
      (sequentialQsa = false → keys.length = 3 → B.openBase s.pos = B.openBase (s.pos + 2)) ∧
      (accepted < keys.length → (B.completeGroups s.pos keys.length (s.pos + accepted)).length ≠ 3)

variable {B : IndexSetup}

/-- A verify block fits behind the open group. -/
theorem verify_ring {pos : ℕ} (hmax : pos + B.fixedRows ≤ B.maxSeq) :
    pos + B.fixedRows ≤ B.openBase pos + B.capacity := by
  have hopen := B.lt_openBase_add pos
  have hcap := B.capacity_eq
  unfold qsaIndexCacheRows at hcap
  split at hcap
  case isTrue =>
    have := Except.ok.inj hcap
    omega
  case isFalse =>
    split at hcap
    case isTrue => cases hcap
    case isFalse =>
      have := Except.ok.inj hcap
      omega

def Plain (S : List (IndexToken V)) : Prop := ∀ p t, S[p]? = some t → t.coord = axes p

theorem Plain.coordAt (h : Plain S) {p : ℕ} (hp : p < S.length) :
    coordAt S p = axes p := by
  rw [FlashNext.coordAt, getElem?_eq_getElem hp]
  exact h p _ (getElem?_eq_getElem hp)

theorem Plain.append {chunk : List (IndexToken V)} (h : Plain S)
    (hchunk : ∀ i t, chunk[i]? = some t → t.coord = axes (S.length + i)) : Plain (S ++ chunk) := by
  intro p t hget
  obtain ⟨-, hnew, hold⟩ := Indexer.getElem?_append_cases hget
  by_cases hp : p < S.length
  · exact h p t (hold hp)
  · have hcoord := hchunk _ t (hnew (Nat.le_of_not_lt hp))
    rwa [Nat.add_sub_cancel' (Nat.le_of_not_lt hp)] at hcoord

theorem Plain.groups (h : Plain S) (g : ℕ) (hg : (g + 1) * B.compressRatio ≤ S.length) :
    FlashNext.coordAt S (g * B.compressRatio) = axes (g * B.compressRatio) := by
  have hpos := B.ratio_pos
  rw [Nat.succ_mul] at hg
  exact h.coordAt (by omega)

/-- What the calls keep. -/
structure StreamInv (B : IndexSetup) (multimodal : Bool) (s : IndexSession V) : Prop where
  holds : B.Holds (B.openBase s.pos) s.stream s.cache
  plain : s.ropeNext = none → Plain s.stream
  text : multimodal = false ∨ B.mrope = false → s.ropeNext = none
  recorded : multimodal → B.mrope → ∀ t ∈ s.stream, t.recorded

theorem map_key_mapIdx (keys : List V) (coord : ℕ → Rope) (recorded : Bool) :
    (keys.mapIdx fun i key => (⟨key, coord i, recorded⟩ : IndexToken V)).map IndexToken.key = keys :=
  ext_getElem (by simp) fun i _ _ => by simp

theorem rowTokens_keys (s : IndexSession V) (mrope : Bool) (keys : List V) :
    (s.rowTokens mrope keys).map IndexToken.key = keys := map_key_mapIdx _ _ _

@[simp] theorem rowTokens_length (s : IndexSession V) (mrope : Bool) (keys : List V) :
    (s.rowTokens mrope keys).length = keys.length := by
  simp [IndexSession.rowTokens]

theorem rowTokens_recorded (s : IndexSession V) (mrope : Bool) (keys : List V) :
    ∀ t ∈ s.rowTokens mrope keys, t.recorded = mrope := by
  intro t ht
  obtain ⟨i, hi, rfl⟩ := mem_mapIdx.mp ht
  rfl

theorem rowTokens_plain {s : IndexSession V} (h : s.ropeNext = none) (mrope : Bool) (keys : List V) (i : ℕ)
    (t : IndexToken V) (hget : (s.rowTokens mrope keys)[i]? = some t) : t.coord = axes (s.stream.length + i) := by
  simp only [IndexSession.rowTokens, getElem?_mapIdx, Option.map_eq_some_iff] at hget
  obtain ⟨key, -, rfl⟩ := hget
  simp [IndexSession.coordAfter, h, IndexSession.pos]

variable {multimodal : Bool} {s s' : IndexSession V}

theorem bind_eq_ok {α β : Type} {x : Except String α} {f : α → Except String β} {b : β} (h : x >>= f = .ok b) :
    ∃ a, x = .ok a ∧ f a = .ok b := by
  cases x with
  | error e => cases h
  | ok a => exact ⟨a, rfl, h⟩

theorem mapM_axisMajor (n : ℕ) (coords : ℕ → Rope) :
    ((some (axisMajor n coords)).mapM fun positions => normalizeRopePositions positions n) = .ok (some coords) := by
  rw [Option.mapM_some, normalize_axisMajor]
  rfl

def plainTokens (pos : ℕ) (recorded : Bool) (keys : List V) : List (IndexToken V) :=
  keys.mapIdx fun i key => ⟨key, axes (pos + i), recorded⟩

theorem rowTokens_eq {s : IndexSession V} (hnone : s.ropeNext = none) (mrope : Bool) (keys : List V) :
    s.rowTokens mrope keys = plainTokens s.pos mrope keys := by
  simp [IndexSession.rowTokens, plainTokens, IndexSession.coordAfter, hnone]

@[simp] theorem plainTokens_length (pos : ℕ) (recorded : Bool) (keys : List V) :
    (plainTokens pos recorded keys).length = keys.length := length_mapIdx

theorem plainTokens_recorded (pos : ℕ) (recorded : Bool) (keys : List V) :
    ∀ t ∈ plainTokens pos recorded keys, t.recorded = recorded := by
  intro t ht
  obtain ⟨i, hi, rfl⟩ := mem_mapIdx.mp ht
  rfl

theorem plainTokens_cons (pos : ℕ) (recorded : Bool) (key : V) (keys : List V) :
    plainTokens pos recorded (key :: keys) = plainTokens pos recorded [key] ++ plainTokens (pos + 1) recorded keys := by
  simp [plainTokens, mapIdx_cons, add_right_comm, add_assoc]

theorem plainTokens_take (pos : ℕ) (recorded : Bool) (keys : List V) (n : ℕ) :
    (plainTokens pos recorded keys).take n = plainTokens pos recorded (keys.take n) :=
  ext_getElem (by simp [plainTokens]) fun i _ _ => by simp [plainTokens]

theorem Plain.tokens (h : Plain S) (recorded : Bool) (keys : List V) :
    Plain (S ++ plainTokens S.length recorded keys) := by
  refine h.append fun i t hget => ?_
  simp only [plainTokens, getElem?_mapIdx, Option.map_eq_some_iff] at hget
  obtain ⟨key, -, rfl⟩ := hget
  rfl

section

variable [Zero V] (h : StreamInv B multimodal s)
include h

theorem prefill_text_inv {keys : List V}
    (hallowed : B.Allowed multimodal s (.prefill keys none)) (hstep : B.step s (.prefill keys none) = .ok s') :
    StreamInv B multimodal s' := by
  have htext : multimodal = false := hallowed.1.symm
  have hnone := h.text (.inl htext)
  rw [step] at hstep
  split at hstep
  case isTrue => cases hstep
  split at hstep
  case isTrue => cases hstep
  obtain ⟨cache, hcache, hs'⟩ := bind_eq_ok hstep
  obtain rfl := Except.ok.inj hs'
  have hplain := (h.plain hnone).tokens false keys
  refine ⟨?_, fun _ => hplain, fun _ => hnone, fun hm => by rw [htext] at hm; cases hm⟩
  refine h.holds.eager (by rw [map_key_mapIdx]; exact hcache) fun ropeRows hrows => ?_
  obtain rfl : none = ropeRows := Except.ok.inj hrows
  refine ⟨Indexer.eagerPooled_text h.holds fun g hg => hplain.groups g hg, fun t ht => ?_⟩
  obtain ⟨i, hi, rfl⟩ := mem_mapIdx.mp ht
  rfl

theorem prefill_rope_inv {keys : List V} {given : Positions × Option ℕ}
    (hallowed : B.Allowed multimodal s (.prefill keys (some given)))
    (hstep : B.step s (.prefill keys (some given)) = .ok s') : StreamInv B multimodal s' := by
  obtain ⟨hkind, hthree⟩ := hallowed
  have hmulti : multimodal = true := hkind.symm
  rw [step] at hstep
  split at hstep
  case isTrue => cases hstep
  split at hstep
  case isTrue => cases hstep
  obtain ⟨coords, hcoords, hstep⟩ := bind_eq_ok hstep
  obtain ⟨cache, hcache, hs'⟩ := bind_eq_ok hstep
  obtain rfl := Except.ok.inj hs'
  have hm : B.mrope := (Indexer.eager_inv hcache).2.1
  have hnew : (range keys.length).map coords =
      (keys.mapIdx fun i key => (⟨key, coords i, true⟩ : IndexToken V)).map IndexToken.coord :=
    ext_getElem (by simp) fun i _ _ => by simp
  refine ⟨?_, nofun, fun htext => ?_, fun _ _ t ht => ?_⟩
  · refine h.holds.eager (by rw [map_key_mapIdx]; exact hcache) fun ropeRows hrows => ?_
    rw [length_mapIdx, mapM_axisMajor] at hrows
    obtain rfl := Except.ok.inj hrows
    rw [← length_mapIdx (l := keys) (f := fun i key => (⟨key, coords i, true⟩ : IndexToken V))] at hnew
    refine ⟨Indexer.eagerPooled_rope h.holds hm
      (fun p t _ hget => h.recorded hmulti hm t (mem_of_getElem? hget)) hnew ?_, hnew⟩
    rw [length_mapIdx]
    exact hthree given rfl coords hcoords
  · rcases htext with htext | htext
    · rw [hmulti] at htext; cases htext
    · rw [hm] at htext; cases htext
  · rcases mem_append.mp ht with hold | hin
    · exact h.recorded hmulti hm t hold
    · obtain ⟨i, hi, rfl⟩ := mem_mapIdx.mp hin
      rfl

theorem decode_inv {key : V} (hallowed : B.Allowed multimodal s (.decode key))
    (hstep : B.step s (.decode key) = .ok s') : StreamInv B multimodal s' := by
  rw [step] at hstep
  obtain ⟨cache, hcache, hs'⟩ := bind_eq_ok hstep
  obtain rfl := Except.ok.inj hs'
  have hcap := (Indexer.fixed_inv hcache).2.1
  have hopen := B.openBase_le s.pos
  have hplain (hnone : s.ropeNext = none) : Plain (s.stream ++ s.rowTokens B.mrope [key]) :=
    (h.plain hnone).append (rowTokens_plain hnone B.mrope [key])
  have hnone_of (htext : multimodal = false ∨ B.mrope = false) : s.ropeNext.map (ropeAdd · 1) = none := by
    rw [h.text htext]
    rfl
  refine ⟨?_, fun hnone => hplain (Option.map_eq_none_iff.mp hnone), hnone_of, fun hmulti hm t ht => ?_⟩
  · have hkeep := B.lt_openBase_add s.pos
    have hblock : B.Holds (B.openBase s.pos) (s.stream ++ s.rowTokens B.mrope [key]) cache := by
      refine h.holds.fixed le_rfl (by rw [rowTokens_length]; simp only [length_singleton] at hcap ⊢; change s.pos + 1 ≤ _; omega)
        (by rw [rowTokens_keys]; exact hcache) ?_ hallowed
        (fun hm t ht => (rowTokens_recorded s B.mrope [key] t ht).trans hm)
        (fun hm => (hplain (h.text (.inr hm))).groups) fun _ hlen => by rw [rowTokens_length] at hlen; cases hlen
      intro coords hcoords
      rw [rowTokens_length] at hcoords
      split at hcoords
      case isTrue hm =>
        rw [length_singleton, mapM_axisMajor] at hcoords
        obtain rfl := Option.some.inj (Except.ok.inj hcoords)
        simp [IndexSession.rowTokens, hm]
      case isFalse => cases Except.ok.inj hcoords
    exact hblock.mono (Indexer.openBase_mono (by simp [IndexSession.pos]))
  · rcases mem_append.mp ht with hold | hin
    · exact h.recorded hmulti hm t hold
    · exact (rowTokens_recorded s B.mrope [key] t hin).trans hm

end

theorem symmetric_axes {coords : List Rope} (position : ℕ) (h : ∀ t < 3, coords.getD t (axes 0) = axes position) :
    Symmetric coords := by
  have haxis (axis : ℕ) : (axes position).axis axis = position := by
    match axis with
    | 0 => rfl
    | 1 => rfl
    | _ + 2 => rfl
  intro t ht axis haxislt
  rw [h t ht, h axis haxislt, haxis, haxis]

section

variable {c c' : IndexCache V} {keys : List V} {base : ℕ} (h : B.Holds base S c) (hopen : base ≤ B.openBase S.length)
  (hring : S.length + keys.length ≤ base + B.capacity) (hplain : Plain S)
  (hbegun : B.mrope → ∀ t, S[B.openBase S.length]? = some t → t.recorded)
include h hopen hring hplain hbegun

theorem fixed_plain (hthree : B.mrope → keys.length = 3 → B.openBase S.length = B.openBase (S.length + 2))
    (hrun : B.updateIndexCacheFixed c keys (range' S.length keys.length) B.mrope
      (if B.mrope then some (.scalar (range' S.length keys.length)) else none) = .ok c') :
    B.Holds base (S ++ plainTokens S.length B.mrope keys) c' := by
  have hall := hplain.tokens B.mrope keys
  refine h.fixed hopen (by rwa [plainTokens_length]) (by rw [plainTokens, map_key_mapIdx, length_mapIdx]; exact hrun)
    ?_ hbegun (fun hm t ht => (plainTokens_recorded _ _ _ t ht).trans hm) (fun _ => hall.groups) ?_
  · intro coords hcoords
    rw [plainTokens_length] at hcoords
    split at hcoords
    case isTrue hm =>
      have hscalar : ((some (Positions.scalar (range' S.length keys.length))).mapM fun given =>
          normalizeRopePositions given keys.length) =
            .ok (some fun t => axes ((range' S.length keys.length).getD t 0)) := by
        rw [Option.mapM_some, normalizeRopePositions, if_neg (by simp)]
        rfl
      obtain rfl := Option.some.inj (Except.ok.inj (hscalar.symm.trans hcoords))
      refine ext_getElem (by simp) fun i hi _ => ?_
      have hin : i < keys.length := by simpa using hi
      simp [plainTokens, hin]
    case isFalse => cases Except.ok.inj hcoords
  · intro hm hlen
    rw [plainTokens_length] at hlen
    refine symmetric_axes (B.openBase S.length) fun t ht => ?_
    have hbase : B.openBase (S.length + t) = B.openBase S.length := by
      refine le_antisymm ?_ (Indexer.openBase_mono (Nat.le_add_right _ _))
      rw [hthree hm hlen]
      exact Indexer.openBase_mono (by omega)
    have hin : B.openBase (S.length + t) < (S ++ plainTokens S.length B.mrope keys).length := by
      rw [length_append, plainTokens_length]
      exact (B.openBase_le _).trans_lt (by omega)
    rw [getD_eq_getElem?_getD, getElem?_map, getElem?_range' (by rw [plainTokens_length, hlen]; exact ht),
      one_mul, Option.map_some, Option.getD_some, hall.coordAt hin, hbase]

theorem sequential_plain (hrun : (keys.zip (range' S.length keys.length)).foldlM (fun c (key, position) =>
      B.updateIndexCacheFixed c [key] [position] B.mrope (if B.mrope then some (.scalar [position]) else none)) c =
        .ok c') :
    B.Holds base (S ++ plainTokens S.length B.mrope keys) c' := by
  induction keys generalizing S c with
  | nil =>
    obtain rfl := Except.ok.inj hrun
    simpa [plainTokens] using h
  | cons key keys ih =>
    rw [length_cons] at hring
    rw [length_cons, range'_succ, zip_cons_cons, foldlM_cons] at hrun
    obtain ⟨c₁, hfirst, hrest⟩ := bind_eq_ok hrun
    have hone := fixed_plain h hopen (by rw [length_singleton]; omega) hplain hbegun (fun _ hlen => by simp at hlen) hfirst
    have hlen : (S ++ plainTokens S.length B.mrope [key]).length = S.length + 1 := by simp
    rw [plainTokens_cons, ← append_assoc, ← hlen]
    refine ih hone (hopen.trans (Indexer.openBase_mono (by omega))) (by omega) (hplain.tokens B.mrope [key]) ?_
      (by rw [hlen]; exact hrest)
    intro hm t hget
    exact Indexer.group_start_recorded (hbegun hm) (fun t ht => (plainTokens_recorded _ _ _ t ht).trans hm)
      (Indexer.openBase_mono (by omega)) hget

end

theorem verify_inv [Zero V] (h : StreamInv B multimodal s) {sequentialQsa : Bool} {keys : List V} {accepted : ℕ}
    (hallowed : B.Allowed multimodal s (.verify sequentialQsa keys accepted))
    (hstep : B.step s (.verify sequentialQsa keys accepted) = .ok s') : StreamInv B multimodal s' := by
  rw [step] at hstep
  split at hstep
  case isTrue => cases hstep
  case isFalse hrows =>
  split at hstep
  case isTrue => cases hstep
  case isFalse hmax =>
  split at hstep
  case isTrue => cases hstep
  case isFalse haccepted =>
  obtain ⟨cache, hupdates, hstep⟩ := bind_eq_ok hstep
  obtain ⟨after, hrollback, hs'⟩ := bind_eq_ok hstep
  obtain rfl := Except.ok.inj hs'
  have hnone : s.ropeNext = none := by
    cases hm : B.mrope with
    | false => exact h.text (.inr hm)
    | true => exact (hallowed hm).1
  have hring : s.pos + keys.length ≤ B.openBase s.pos + B.capacity := by
    rw [not_not.mp hrows] at hmax ⊢
    exact verify_ring (not_lt.mp hmax)
  have hplain := h.plain hnone
  have hblock : B.Holds (B.openBase s.pos) (s.stream ++ plainTokens s.pos B.mrope keys) cache := by
    cases sequentialQsa with
    | false =>
      exact fixed_plain h.holds le_rfl hring hplain (fun hm => (hallowed hm).2.1) (fun hm => (hallowed hm).2.2.1 rfl)
        hupdates
    | true => exact sequential_plain h.holds le_rfl hring hplain (fun hm => (hallowed hm).2.1) hupdates
  have hshort : Plain (s.stream ++ (plainTokens s.pos B.mrope keys).take accepted) := by
    rw [plainTokens_take]
    exact hplain.tokens B.mrope _
  have hle : accepted ≤ keys.length := (not_not.mp haccepted).2
  rw [rowTokens_eq hnone]
  refine ⟨?_, fun _ => hshort, fun _ => hnone, fun hmulti hm t ht => ?_⟩
  · refine hblock.rollback (by rw [plainTokens_length]; exact hrollback) (by rwa [plainTokens_length])
      (fun hm => (hallowed hm).2.1) (fun hm t ht => (plainTokens_recorded _ _ _ t ht).trans hm) (fun _ g hg => ?_) ?_
    · refine hshort.groups g (hg.trans ?_)
      rw [length_append, length_take, plainTokens_length, min_eq_left hle]
    · intro hm hlt hthree
      rw [plainTokens_length] at hlt hthree
      exact absurd hthree ((hallowed hm).2.2.2 hlt)
  · rcases mem_append.mp ht with hold | hin
    · exact h.recorded hmulti hm t hold
    · exact (plainTokens_recorded _ _ _ t (mem_of_mem_take hin)).trans hm

theorem step_inv [Zero V] {p : IndexPiece V} (h : StreamInv B multimodal s) (hallowed : B.Allowed multimodal s p)
    (hstep : B.step s p = .ok s') : StreamInv B multimodal s' := by
  cases p with
  | prefill keys rope =>
    cases rope with
    | none => exact prefill_text_inv h hallowed hstep
    | some given => exact prefill_rope_inv h hallowed hstep
  | decode key => exact decode_inv h hallowed hstep
  | verify sequentialQsa keys accepted => exact verify_inv h hallowed hstep

/-- A slot's session at the start of a request, with whatever its earlier requests left in the cache. -/
def freshSession (c : IndexCache V) : IndexSession V := ⟨c, none, []⟩

theorem fresh_inv (c : IndexCache V) : StreamInv B multimodal (freshSession c) where
  holds := by
    refine ⟨fun g hg => ?_, nofun, nofun⟩
    have hpos := Nat.mul_pos (Nat.succ_pos g) B.ratio_pos
    exact absurd hg (Nat.not_le_of_lt hpos)
  plain _ := nofun
  text _ := rfl
  recorded _ _ := nofun

/-- However a stream is cut, the pooled keys of its complete groups are those of the whole stream, and the ring holds the
open group. -/
theorem cut_pooled_exact [Zero V] (B : IndexSetup) (multimodal : Bool) (c : IndexCache V) {ps : List (IndexPiece V)}
    {s : IndexSession V}
    (halong : StepRun.Along (fun s p => (B.step s p).toOption) (B.Allowed multimodal) (freshSession c) ps)
    (hrun : B.runPieces (freshSession c) ps = some s) : B.Holds (B.openBase s.pos) s.stream s.cache := by
  have hinv : StreamInv B multimodal s := by
    refine StepRun.invariant_of_steps (fun s p s' h hallowed hstep => ?_) (fresh_inv c) halong hrun
    cases hresult : B.step s p with
    | error e => rw [hresult] at hstep; cases hstep
    | ok next =>
      rw [hresult] at hstep
      obtain rfl := Option.some.inj hstep
      exact step_inv h hallowed hresult
  exact hinv.holds

instance {α : Type} {P : α → Prop} [∀ a, Decidable (P a)] : (x : Except String α) → Decidable (∀ a, x = .ok a → P a)
  | .error _ => isTrue nofun
  | .ok a => decidable_of_iff (P a) (by simp)

instance (s : IndexSession V) : Decidable (B.Begun s) :=
  inferInstanceAs (Decidable (∀ t, s.stream[B.openBase s.pos]? = some t → t.recorded = true))

instance (s : IndexSession V) : (p : IndexPiece V) → Decidable (B.Allowed multimodal s p)
  | .prefill _ _ => inferInstanceAs (Decidable (_ ∧ _))
  | .decode _ => inferInstanceAs (Decidable (B.mrope → B.Begun s))
  | .verify _ _ _ => inferInstanceAs (Decidable (_ → _ ∧ _))

theorem four_pos : 0 < 4 := by decide

theorem three_pos : 0 < 3 := by decide

def smallRing : IndexSetup where
  compressRatio := 4
  headDim := 1
  capacity := 8
  mrope := true
  ratio_pos := four_pos
  ring := true
  maxSeq := 64
  fixedRows := 3
  rows_pos := three_pos
  capacity_eq := rfl

/-- A cache with the keys and the coordinates of an earlier request. -/
def usedCache : IndexCache ℕ := ⟨fun _ => 99, fun _ => axes 99, fun _ => none⟩

/-- A prompt with an image, in two chunks, and three decode rows that complete its last group. -/
def imagePrompt : List (IndexPiece ℕ) :=
  [.prefill [1, 2, 3] (some (axisMajor 3 fun t => (0, t, t + 1), none)),
    .prefill [4, 5] (some (axisMajor 2 fun t => (1, t, 7), some 8)), .decode 6, .decode 7, .decode 8]

/-- A text prompt, and a verify block of which two rows are kept. -/
def textRound : List (IndexPiece ℕ) := [.prefill [1, 2, 3, 4] none, .decode 5, .verify true [6, 7, 8] 2, .decode 9]

theorem imagePrompt_exact : (∃ s, smallRing.runPieces (freshSession usedCache) imagePrompt = some s ∧
    s.cache.pooled 1 = some ⟨[5, 6, 7, 8], (1, 1, 7)⟩ ∧
      smallRing.Holds (smallRing.openBase s.pos) s.stream s.cache) ∧
    ∃ s, smallRing.runPieces (freshSession usedCache) textRound = some s ∧
      s.cache.pooled 1 = some ⟨[5, 6, 7, 9], axes 4⟩ ∧ smallRing.Holds (smallRing.openBase s.pos) s.stream s.cache := by
  have himage := Option.some_get (x := smallRing.runPieces (freshSession usedCache) imagePrompt) (by decide +kernel)
  have htext := Option.some_get (x := smallRing.runPieces (freshSession usedCache) textRound) (by decide +kernel)
  exact ⟨⟨_, himage.symm, by decide +kernel, cut_pooled_exact smallRing true usedCache (by decide +kernel) himage.symm⟩,
    _, htext.symm, by decide +kernel, cut_pooled_exact smallRing false usedCache (by decide +kernel) htext.symm⟩

/-- A text prompt that ends inside a group: the decode rows complete the group at the coordinate that an earlier request
left. -/
theorem text_prompt_stale : ∃ s, smallRing.runPieces (freshSession usedCache)
    [.prefill [1, 2, 3, 4, 5] none, .decode 6, .decode 7, .decode 8] = some s ∧
      s.cache.pooled 1 = some ⟨[5, 6, 7, 8], axes 99⟩ ∧ smallRing.groupKey s.stream 1 = ⟨[5, 6, 7, 8], axes 4⟩ ∧
        ¬smallRing.Holds (smallRing.openBase s.pos) s.stream s.cache :=
  ⟨_, rfl, by decide +kernel, by decide +kernel, fun h => absurd (h.pooled 1 (by decide)) (by decide +kernel)⟩

end IndexSetup

end FlashNext
