import BlackweLLM.FlashNextIndexRuns

/-!
# Coordinates and their tokens

A prompt hands its coordinates over in one of four layouts; they are cut with the prompt
and read again by every consumer. Groups and rows hand theirs over row by row.
-/

namespace FlashNext

open List

/-- How a prompt hands its coordinates over: `[3, T]`, `[T, 3]`, `[T]` or `[1, T]`. -/
inductive Layout where
  | axisMajor
  | rowMajor
  | scalar
  | row
  deriving DecidableEq

namespace Layout

def positions (coords : List Rope) : Layout → Positions
  | .axisMajor => FlashNext.axisMajor coords.length (coords.getD · (axes 0))
  | .rowMajor => FlashNext.rowMajor coords
  | .scalar => .scalar (coords.map Prod.fst)
  | .row => .matrix ⟨1, coords.length, fun _ t => (coords.getD t (axes 0)).1⟩

/-- The coordinates that a layout can say; `[3, 3]` is axis-major. -/
def Accepts (coords : List Rope) : Layout → Prop
  | .axisMajor => True
  | .rowMajor => coords.length ≠ 3
  | .scalar | .row => ∀ rope ∈ coords, rope = axes rope.1

/-- The slices of a prompt that are read in another layout than they were handed over in. -/
def Misread (coords : List Rope) (start stop : ℕ) : Layout → Prop
  | .axisMajor | .scalar => False
  | .rowMajor => stop - start = 3 ∧ ¬Symmetric ((coords.take stop).drop start)
  | .row => coords.length = 3 ∧ ¬(start = 0 ∧ (stop = 3 ∨ stop = 1 ∧ ∀ rope ∈ coords, rope = coords.getD 0 (axes 0)))

instance (coords : List Rope) : (layout : Layout) → Decidable (layout.Accepts coords)
  | .axisMajor => isTrue trivial
  | .rowMajor => inferInstanceAs (Decidable (coords.length ≠ 3))
  | .scalar | .row => inferInstanceAs (Decidable (∀ rope ∈ coords, rope = axes rope.1))

instance (coords : List Rope) (start stop : ℕ) : (layout : Layout) → Decidable (layout.Misread coords start stop)
  | .axisMajor | .scalar => isFalse not_false
  | .rowMajor => inferInstanceAs (Decidable (_ ∧ ¬Symmetric _))
  | .row => inferInstanceAs (Decidable (_ ∧ ¬(_ ∧ _)))

end Layout

/-- `_prefill_rope_positions` of `prefill_session`, and what `_apply_partial_rope` makes of it. -/
def sessionCoords (positions : Positions) (tokenCount : ℕ) : Except String (ℕ → Rope) := do
  let rope ← normalizeRopePositions positions tokenCount
  normalizeRopePositions (axisMajor tokenCount rope) tokenCount

/-- A chunk of `FlashNextGraphEngine.prefill`. -/
def chunkCoords (positions : Positions) (tokenCount start chunkSize : ℕ) : Except String (ℕ → Rope) :=
  sessionCoords (prefillRopeSlice positions start (start + chunkSize)) (min (start + chunkSize) tokenCount - start)

/-- A chunk of `prefill_session_layer_major`. -/
def layerMajorCoords (positions : Positions) (tokenCount offset attentionChunkSize : ℕ) :
    Except String (ℕ → Rope) := do
  let rope ← normalizeRopePositions positions tokenCount
  let chunkEnd := min (offset + attentionChunkSize) tokenCount
  normalizeRopePositions (prefillRopeSlice (axisMajor tokenCount rope) offset chunkEnd) (chunkEnd - offset)

/-- The tokens from `start` on get the coordinates that they were assigned. -/
def Reach (coords : List Rope) (start count : ℕ) (result : Except String (ℕ → Rope)) : Prop :=
  ∃ given, result = .ok given ∧ ∀ t < count, given t = coords.getD (start + t) (axes 0)

theorem sessionCoords_eq (positions : Positions) (n : ℕ) :
    sessionCoords positions n = normalizeRopePositions positions n := by
  unfold sessionCoords
  cases h : normalizeRopePositions positions n with
  | error e => rfl
  | ok rope => exact normalize_axisMajor n rope

variable {coords : List Rope} {start stop : ℕ}

theorem reach_ok (given : ℕ → Rope) (n : ℕ) :
    Reach coords start n (.ok given) ↔ ∀ t < n, given t = coords.getD (start + t) (axes 0) := by
  simp [Reach]

theorem not_reach_error (e : String) (n : ℕ) : ¬Reach coords start n (.error e) := by
  simp [Reach]

theorem Rope.axis_eta (rope : Rope) : (rope.axis 0, rope.axis 1, rope.axis 2) = rope := rfl

section Matrix

variable {m : Matrix} {n : ℕ}

theorem normalize_axes (hrows : m.rows = 3) (hcols : m.cols = n) :
    normalizeRopePositions (.matrix m) n = .ok fun t => (m.entry 0 t, m.entry 1 t, m.entry 2 t) :=
  if_pos ⟨hrows, hcols⟩

theorem normalize_tokens (hrows : m.rows = n) (hcols : m.cols = 3) (hthree : n ≠ 3) :
    normalizeRopePositions (.matrix m) n = .ok fun t => (m.entry t 0, m.entry t 1, m.entry t 2) :=
  (if_neg fun h => hthree (hrows.symm.trans h.1)).trans (if_pos ⟨hrows, hcols⟩)

theorem normalize_row (hrows : m.rows = 1) (hcols : m.cols = n) :
    normalizeRopePositions (.matrix m) n = .ok fun t => axes (m.entry 0 t) :=
  (if_neg fun h => by omega).trans ((if_neg fun h => by omega).trans (if_pos ⟨hrows, hcols⟩))

theorem normalize_refuses (hrows : m.rows ≠ 3) (htokens : m.rows ≠ n) (hone : m.rows = 1 → m.cols ≠ n) :
    ∃ e, normalizeRopePositions (.matrix m) n = .error e :=
  ⟨_, (if_neg fun h => hrows h.1).trans ((if_neg fun h => htokens h.1).trans (if_neg fun h => hone h.1 h.2))⟩

end Matrix

theorem slice_axisMajor (given : ℕ → Rope) {T : ℕ} (hlt : start < T) :
    normalizeRopePositions (prefillRopeSlice (axisMajor T given) start stop) (min stop T - start) =
      .ok fun t => given (start + t) := by
  have hstart : min start T = start := min_eq_left hlt.le
  rw [axisMajor, prefillRopeSlice, if_neg fun h => h.2 rfl, if_pos (.inr rfl),
    normalize_axes rfl (by simp only [Matrix.colSlice, hstart])]
  simp only [Matrix.colSlice, hstart, Rope.axis_eta]

/-- A slice of a row-major matrix of another length than three. -/
theorem slice_rowMajor (hthree : coords.length ≠ 3) (hlt : start < coords.length) :
    Reach coords start (min stop coords.length - start) (normalizeRopePositions
      (prefillRopeSlice (rowMajor coords) start stop) (min stop coords.length - start)) ↔
        ¬Layout.Misread coords start (min stop coords.length) .rowMajor := by
  have hstart : min start coords.length = start := min_eq_left hlt.le
  have hrows : (Matrix.rowSlice ⟨coords.length, 3, fun t axis => (coords.getD t (axes 0)).axis axis⟩ start stop).rows =
      min stop coords.length - start := by simp only [Matrix.rowSlice, hstart]
  rw [rowMajor, prefillRopeSlice, if_pos ⟨rfl, hthree⟩, Layout.Misread]
  by_cases hcount : min stop coords.length - start = 3
  · have hget (t : ℕ) (ht : t < 3) : ((coords.take (min stop coords.length)).drop start).getD t (axes 0) =
        coords.getD (start + t) (axes 0) := by
      simp only [getD_eq_getElem?_getD, getElem?_drop]
      rw [getElem?_take_of_lt (by omega)]
    rw [normalize_axes (hrows.trans hcount) hcount.symm, reach_ok, ← transposed_eq_iff, hcount]
    simp only [true_and, not_not, Matrix.rowSlice, hstart]
    refine forall₂_congr fun t ht => ?_
    rw [hget t ht, transposed, hget 0 (by decide), hget 1 (by decide), hget 2 (by decide)]
  · rw [normalize_tokens hrows rfl hcount, reach_ok]
    simp only [hcount, false_and, not_false_iff, iff_true, Matrix.rowSlice, hstart, Rope.axis_eta]
    intro t _
    trivial

theorem Layout.scalar_getD (h : ∀ rope ∈ coords, rope = axes rope.1) (t : ℕ) :
    axes (coords.getD t (axes 0)).1 = coords.getD t (axes 0) := by
  by_cases ht : t < coords.length
  · rw [getD_eq_getElem?_getD, getElem?_eq_getElem ht]
    exact (h _ (getElem_mem ht)).symm
  · rw [getD_eq_getElem?_getD, getElem?_eq_none (not_lt.mp ht)]
    rfl

theorem slice_scalar (h : ∀ rope ∈ coords, rope = axes rope.1) :
    Reach coords start (min stop coords.length - start) (normalizeRopePositions
      (prefillRopeSlice (.scalar (coords.map Prod.fst)) start stop) (min stop coords.length - start)) := by
  rw [prefillRopeSlice, normalizeRopePositions, if_neg (by simp), reach_ok]
  intro t ht
  rw [← Layout.scalar_getD h]
  simp only [getD_eq_getElem?_getD, getElem?_drop]
  rw [getElem?_take_of_lt (by omega), getElem?_map, getElem?_eq_getElem (by omega)]
  rfl

/-- A row of three scalars, cut by rows: its first chunk of one token takes them for three axes. -/
theorem slice_three (a b c : ℕ) (hlt : start < 3) (hstop : start < stop) :
    Reach [axes a, axes b, axes c] start (min stop 3 - start) (normalizeRopePositions
      (.matrix (Matrix.rowSlice ⟨1, 3, fun _ t => ([axes a, axes b, axes c].getD t (axes 0)).1⟩ start stop))
        (min stop 3 - start)) ↔ start = 0 ∧ (min stop 3 = 3 ∨ min stop 3 = 1 ∧ b = a ∧ c = a) := by
  by_cases hfirst : start = 0
  · subst hfirst
    have hrows : (Matrix.rowSlice ⟨1, 3, fun _ t => ([axes a, axes b, axes c].getD t (axes 0)).1⟩ 0 stop).rows = 1 := by
      simp only [Matrix.rowSlice]
      omega
    rw [Nat.sub_zero]
    by_cases hall : min stop 3 = 3
    · rw [hall, normalize_row (n := 3) hrows rfl, reach_ok]
      simp only [true_and, true_or, iff_true]
      intro t ht
      match t with
      | 0 => rfl
      | 1 => rfl
      | 2 => rfl
    · by_cases hone : min stop 3 = 1
      · rw [hone, normalize_tokens hrows rfl (by decide), reach_ok]
        simp [Matrix.rowSlice, axes]
      · obtain ⟨e, he⟩ := normalize_refuses (m := Matrix.rowSlice ⟨1, 3, fun _ t =>
          ([axes a, axes b, axes c].getD t (axes 0)).1⟩ 0 stop) (n := min stop 3) (by rw [hrows]; decide)
          (by rw [hrows]; omega) fun _ => by simp only [Matrix.rowSlice]; omega
        rw [he]
        simp [not_reach_error, hall, hone]
  · obtain ⟨e, he⟩ := normalize_refuses (m := Matrix.rowSlice ⟨1, 3, fun _ t =>
      ([axes a, axes b, axes c].getD t (axes 0)).1⟩ start stop) (n := min stop 3 - start)
      (by simp only [Matrix.rowSlice]; omega) (by simp only [Matrix.rowSlice]; omega) fun _ => by
        simp only [Matrix.rowSlice]; omega
    rw [he]
    simp [not_reach_error, hfirst]

theorem slice_row (h : ∀ rope ∈ coords, rope = axes rope.1) (hlt : start < coords.length) (hstop : start < stop) :
    Reach coords start (min stop coords.length - start) (normalizeRopePositions
      (prefillRopeSlice (Layout.positions coords .row) start stop) (min stop coords.length - start)) ↔
        ¬Layout.Misread coords start (min stop coords.length) .row := by
  have hstart : min start coords.length = start := min_eq_left hlt.le
  by_cases hthree : coords.length = 3
  · obtain ⟨a, b, c, rfl⟩ := length_eq_three.mp hthree
    obtain ⟨ha, hb, hc⟩ : a = axes a.1 ∧ b = axes b.1 ∧ c = axes c.1 := ⟨h a (by simp), h b (by simp), h c (by simp)⟩
    rw [ha, hb, hc]
    refine (slice_three a.1 b.1 c.1 hlt hstop).trans ?_
    simp only [Layout.Misread, length_cons, length_nil, Nat.reduceAdd, true_and, not_not]
    simp [axes]
  · rw [Layout.positions, prefillRopeSlice, if_neg fun hshape => hthree hshape.1, if_pos (.inl rfl),
      normalize_row rfl (by simp only [Matrix.colSlice, hstart]), reach_ok]
    simp only [Matrix.colSlice, hstart, Layout.Misread, hthree, false_and, not_false_iff, iff_true]
    exact fun t _ => Layout.scalar_getD h _

section

variable (layout : Layout) (coords : List Rope) (haccepts : layout.Accepts coords)
include haccepts

theorem chunkCoords_iff {start chunkSize : ℕ} (hlt : start < coords.length) (hsize : 0 < chunkSize) :
    Reach coords start (min (start + chunkSize) coords.length - start)
      (chunkCoords (layout.positions coords) coords.length start chunkSize) ↔
        ¬layout.Misread coords start (min (start + chunkSize) coords.length) := by
  rw [chunkCoords, sessionCoords_eq]
  cases layout with
  | axisMajor =>
    rw [Layout.positions, slice_axisMajor _ hlt, reach_ok]
    exact iff_of_true (fun _ _ => rfl) not_false
  | rowMajor => exact slice_rowMajor haccepts hlt
  | scalar => exact iff_of_true (slice_scalar haccepts) not_false
  | row => exact slice_row haccepts hlt (by omega)

theorem normalize_layout :
    Reach coords 0 coords.length (normalizeRopePositions (layout.positions coords) coords.length) := by
  cases layout with
  | axisMajor =>
    rw [Layout.positions, normalize_axisMajor, reach_ok]
    exact fun t _ => by rw [zero_add]
  | rowMajor =>
    rw [Layout.positions, normalize_rowMajor, if_neg haccepts, reach_ok]
    exact fun t _ => by rw [zero_add]
  | scalar =>
    have hslice : Reach coords 0 (min coords.length coords.length - 0) (normalizeRopePositions
        (prefillRopeSlice (.scalar (coords.map Prod.fst)) 0 coords.length) (min coords.length coords.length - 0)) :=
      slice_scalar haccepts
    rw [prefillRopeSlice, drop_zero, take_of_length_le (by rw [length_map])] at hslice
    rwa [Nat.min_self, Nat.sub_zero] at hslice
  | row =>
    rw [Layout.positions, normalize_row rfl rfl, reach_ok]
    exact fun t _ => by rw [zero_add, Layout.scalar_getD haccepts]

theorem layerMajorCoords_reach {offset size : ℕ} (hlt : offset < coords.length) :
    Reach coords offset (min (offset + size) coords.length - offset)
      (layerMajorCoords (layout.positions coords) coords.length offset size) := by
  obtain ⟨given, hgiven, hall⟩ := normalize_layout layout coords haccepts
  have hcut : normalizeRopePositions (prefillRopeSlice (axisMajor coords.length given) offset
      (min (offset + size) coords.length)) (min (min (offset + size) coords.length) coords.length - offset) = _ :=
    slice_axisMajor given hlt
  rw [min_eq_left (min_le_right _ _)] at hcut
  rw [layerMajorCoords, hgiven]
  refine ⟨_, hcut, fun t ht => ?_⟩
  rw [hall _ (by omega), zero_add]

end

namespace Indexer

variable {V : Type} {I : Indexer}

/-- The keys that `pool_keys` takes from the dictionaries come with a row for each token. -/
theorem poolKeys_rowMajor_iff (k : List V) {coords : List Rope} (hlen : coords.length = k.length) :
    coordinates (I.poolKeys k (some (rowMajor coords))) =
        .ok ((range (k.length / I.compressRatio)).map fun g => coords.getD (g * I.compressRatio) (axes 0)) ↔
      (k.length = 3 → ∀ g < 3 / I.compressRatio,
        transposed coords (g * I.compressRatio) = coords.getD (g * I.compressRatio) (axes 0)) := by
  have hpos := I.ratio_pos
  have hgroups : (groupsOf I.compressRatio (k.take (k.length / I.compressRatio * I.compressRatio))).length =
      k.length / I.compressRatio := by
    rw [groupsOf, length_map, length_range, length_take, min_eq_left (Nat.div_mul_le_self _ _),
      Nat.mul_div_cancel _ hpos]
  rw [poolKeys]
  by_cases hnone : k.length / I.compressRatio * I.compressRatio = 0
  · have hzero : k.length / I.compressRatio = 0 := by
      rcases Nat.mul_eq_zero.mp hnone with h | h
      · exact h
      · omega
    rw [if_pos hnone, hzero]
    refine iff_of_true rfl fun hthree => ?_
    rw [hthree] at hzero
    rw [hzero]
    exact fun g hg => absurd hg (Nat.not_lt_zero g)
  · have hrope := normalize_rowMajor coords
    rw [hlen] at hrope
    simp only [if_neg hnone, hrope]
    change coordinates (poolKeyGroupsAtPositions _ _) = _ ↔ _
    rw [coordinates_axisMajor, hgroups, Except.ok.injEq, map_inj_left]
    simp only [mem_range]
    by_cases hthree : k.length = 3
    · simp [hthree]
    · simp [hthree]

variable (raw : ℕ → V) (rope : ℕ → Rope) (groups : List ℕ)

theorem groupsPooled_scalar (hm : ¬I.mrope) :
    coordinates (I.groupsPooled raw rope groups) = .ok (groups.map fun g => axes (g * I.compressRatio)) := by
  dsimp only [groupsPooled]
  rw [if_neg hm, coordinates_scalar (by simp), map_map]
  rfl

/-- The groups that a fixed update or a rollback pools, with the ring's coordinates of their first tokens. -/
theorem groupsPooled_rope_iff (hm : I.mrope) {coord : ℕ → Rope}
    (hrope : ∀ g ∈ groups, rope (g * I.compressRatio % I.capacity) = coord g) :
    coordinates (I.groupsPooled raw rope groups) = .ok (groups.map coord) ↔
      (groups.length = 3 → Symmetric (groups.map coord)) := by
  rw [groupsPooled_rowMajor hm hrope, coordinates_rowMajor_iff (by simp), length_map]

end Indexer

open Indexer in
/-- The coordinates that the layers apply are the assigned ones; for the chunks of `prefill` and the calls that
hand rows over exactly where no three rows are taken for three axes. -/
theorem coordinates_exact_iff {V : Type} :
    (∀ (layout : Layout) (coords : List Rope), layout.Accepts coords →
      Reach coords 0 coords.length (sessionCoords (layout.positions coords) coords.length) ∧
      ∀ start size, start < coords.length → 0 < size →
        Reach coords start (min (start + size) coords.length - start)
          (layerMajorCoords (layout.positions coords) coords.length start size) ∧
        (Reach coords start (min (start + size) coords.length - start)
          (chunkCoords (layout.positions coords) coords.length start size) ↔
            ¬layout.Misread coords start (min (start + size) coords.length))) ∧
    (∀ (I : Indexer) (S chunk : List (IndexToken V)) (c : IndexCache V), I.Holds (I.openBase S.length) S c →
      let groups := I.groupCoords (S ++ chunk) (S.length / I.compressRatio) ((S.length + chunk.length) / I.compressRatio)
      I.mrope → (∀ p t, I.openBase S.length ≤ p → S[p]? = some t → t.recorded) →
        ∀ coords, (range chunk.length).map coords = chunk.map IndexToken.coord →
          (coordinates (I.eagerPooled c (chunk.map IndexToken.key) S.length (some coords)) = .ok groups ↔
            (groups.length = 3 → Symmetric groups))) ∧
    (∀ (I : Indexer) (raw : ℕ → V) (rope : ℕ → Rope) (positions groups : List ℕ),
      I.fixedPooled raw rope positions I.mrope = I.groupsPooled raw rope (positions.map (· / I.compressRatio)) ∧
      (¬I.mrope → coordinates (I.groupsPooled raw rope groups) = .ok (groups.map fun g => axes (g * I.compressRatio))) ∧
      (I.mrope → ∀ coord : ℕ → Rope, (∀ g ∈ groups, rope (g * I.compressRatio % I.capacity) = coord g) →
        (coordinates (I.groupsPooled raw rope groups) = .ok (groups.map coord) ↔
          (groups.length = 3 → Symmetric (groups.map coord))))) ∧
    ∀ (I : Indexer) (k : List V) (coords : List Rope), coords.length = k.length →
      (coordinates (I.poolKeys k (some (rowMajor coords))) =
          .ok ((range (k.length / I.compressRatio)).map fun g => coords.getD (g * I.compressRatio) (axes 0)) ↔
        (k.length = 3 → ∀ g < 3 / I.compressRatio,
          transposed coords (g * I.compressRatio) = coords.getD (g * I.compressRatio) (axes 0))) := by
  refine ⟨fun layout coords haccepts => ⟨?_, fun start size hlt hsize => ?_⟩, ?_, fun I raw rope positions groups => ?_,
    fun I k coords => poolKeys_rowMajor_iff k⟩
  · rw [sessionCoords_eq]
    exact normalize_layout layout coords haccepts
  · exact ⟨layerMajorCoords_reach layout coords haccepts hlt, chunkCoords_iff layout coords haccepts hlt hsize⟩
  · intro I S chunk c h groups hm hrecorded coords hcoords
    rw [eagerPooled_rowMajor h hm hrecorded hcoords]
    exact coordinates_rowMajor_iff (by simp [groupCoords, groupRows])
  · exact ⟨fixedPooled_eq raw rope positions, groupsPooled_scalar raw rope groups,
      fun hm coord => groupsPooled_rope_iff raw rope groups hm⟩

def fullCache : Indexer := ⟨4, 1, 64, true, by decide⟩

/-- A row-major prompt of four tokens, in a chunk of three and one of one: the second chunk keeps its coordinates. -/
theorem coordinates_exact_rows : Reach [(0, 1, 2), (3, 4, 5), (6, 7, 8), (9, 10, 11)] 3 1
    (chunkCoords (Layout.positions [(0, 1, 2), (3, 4, 5), (6, 7, 8), (9, 10, 11)] .rowMajor) 4 3 3) :=
  (((coordinates_exact_iff (V := ℕ)).1 .rowMajor [(0, 1, 2), (3, 4, 5), (6, 7, 8), (9, 10, 11)] (by decide)).2 3 3
    (by decide) (by decide)).2.mpr (by decide)

/-- The first chunk does not, nor do the three groups that a chunk of twelve tokens completes. -/
theorem three_rows_transposed :
    ¬Reach [(0, 1, 2), (3, 4, 5), (6, 7, 8), (9, 10, 11)] 0 3
      (chunkCoords (Layout.positions [(0, 1, 2), (3, 4, 5), (6, 7, 8), (9, 10, 11)] .rowMajor) 4 0 3) ∧
    coordinates (fullCache.eagerPooled ⟨fun _ => 0, fun _ => axes 0, fun _ => none⟩ (replicate 12 0) 0 (some axes)) =
      .ok [(0, 4, 8), (0, 4, 8), (0, 4, 8)] :=
  ⟨fun h => absurd ((chunkCoords_iff .rowMajor _ (by decide) (by decide) (by decide)).mp h) (by decide), rfl⟩

end FlashNext
