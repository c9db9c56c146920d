import BlackweLLM.FlashNextRope
import BlackweLLM.LagunaRing

/-!
# The QSA index cache

The two updaters of `qsa.py` and the rollback of `spec.py`. A raw index key stays in
a ring until its group is complete; the pooled key of a group is rotated at the
coordinate of its first token.
-/

namespace FlashNext

open List

open LagunaRing (scatter)

variable {V : Type}

/-- The raw cache of one QSA layer. -/
structure Indexer where
  compressRatio : ℕ
  headDim : ℕ
  capacity : ℕ
  mrope : Bool
  ratio_pos : 0 < compressRatio

/-- `qsa_index_cache_rows`; `ring` is `QSR_FLASHNEXT_QSA_INDEX_RING`. -/
def qsaIndexCacheRows (ring : Bool) (maxSeq compressRatio fixedRows : ℕ) : Except String ℕ :=
  if ring = false then .ok maxSeq
  else if maxSeq = 0 ∨ compressRatio = 0 ∨ fixedRows = 0 then
    .error (s!"QSA index ring dimensions must be positive: max_seq={maxSeq}, ratio={compressRatio}, " ++
      s!"fixed_rows={fixedRows}")
  else .ok (min maxSeq (max (2 * compressRatio) (compressRatio + fixedRows)))

/-- A pooled key: the mean of its raw keys, normalised and then rotated at the coordinate. -/
structure PooledKey (V : Type) where
  keys : List V
  coordinate : Rope
  deriving DecidableEq, Repr

/-- The tensors of one layer. A pooled row that was never pooled, or was cleared, is `none`. -/
structure IndexCache (V : Type) where
  raw : ℕ → V
  rope : ℕ → Rope
  pooled : ℕ → Option (PooledKey V)

/-- `view(-1, size, ..)`. -/
def groupsOf {α : Type} (size : ℕ) (xs : List α) : List (List α) :=
  (range (xs.length / size)).map fun g => (xs.drop (g * size)).take size

def poolKeyGroupsAtPositions (groups : List (List V)) (positions : Positions) : Except String (List (PooledKey V)) :=
  if positions.numel ≠ groups.length ∧ positions.numel ≠ 3 * groups.length then
    .error s!"QSA group positions must match group rows, got {positions.shape}"
  else (normalizeRopePositions positions groups.length).map fun coords =>
    groups.mapIdx fun g keys => ⟨keys, coords g⟩

def coordinates (result : Except String (List (PooledKey V))) : Except String (List Rope) :=
  result.map (map PooledKey.coordinate)

namespace Indexer

variable (I : Indexer)

/-- `pool_key_groups`: the groups from `groupStart` on, at their plain positions. -/
def poolKeyGroups (groups : List (List V)) (groupStart : ℕ) : Except String (List (PooledKey V)) :=
  poolKeyGroupsAtPositions groups
    (.scalar ((range groups.length).map fun g => (groupStart + g) * I.compressRatio))

/-- `pool_keys`: the complete groups of all keys. -/
def poolKeys (k : List V) (groupPositions : Option Positions) : Except String (List (PooledKey V)) :=
  let s := k.length / I.compressRatio * I.compressRatio
  if s = 0 then .ok []
  else
    let groups := groupsOf I.compressRatio (k.take s)
    match groupPositions with
    | none => I.poolKeyGroups groups 0
    | some given => do
      let rope ← normalizeRopePositions given k.length
      poolKeyGroupsAtPositions groups (axisMajor groups.length fun g => rope (g * I.compressRatio))

def cells (start stop : ℕ) : List ℕ := (range' start (stop - start)).map (· % I.capacity)

/-- What `update_index_cache_eager` pools: the groups that the new keys complete. -/
def eagerPooled (c : IndexCache V) (keys : List V) (start : ℕ) (ropeRows : Option (ℕ → Rope)) :
    Except String (List (PooledKey V)) :=
  let stop := start + keys.length
  let groupBase := start / I.compressRatio * I.compressRatio
  let completeEnd := stop / I.compressRatio * I.compressRatio
  if completeEnd > groupBase then
    let front := I.cells groupBase start
    let newCount := completeEnd - start
    let groupRows := groupsOf I.compressRatio (front.map c.raw ++ keys.take newCount)
    match ropeRows with
    | none => I.poolKeyGroups groupRows (groupBase / I.compressRatio)
    | some coords =>
      let rope := front.map c.rope ++ (range newCount).map coords
      poolKeyGroupsAtPositions groupRows
        (rowMajor ((groupsOf I.compressRatio rope).map fun group => group.headD (axes 0)))
  else .ok []

/-- The rope rows behind the writes of the given tokens, where coordinates are handed over. -/
def writeRope (rope : ℕ → Rope) (cells : List ℕ) (ropeRows : Option (ℕ → Rope)) (tokens : List ℕ) : ℕ → Rope :=
  match ropeRows with
  | none => rope
  | some coords => scatter rope (cells.zip (tokens.map coords))

/-- `update_index_cache_eager`; `ropeCache` says whether the caller hands the rope cache over. -/
def updateIndexCacheEager (c : IndexCache V) (keys : List V) (start : ℕ) (ropeCache : Bool)
    (ropePositions : Option Positions) : Except String (IndexCache V) := do
  if I.capacity < I.compressRatio then
    throw (s!"QSA raw index ring must hold at least one compression group, got capacity={I.capacity}, " ++
      s!"ratio={I.compressRatio}")
  if ropeCache ≠ ropePositions.isSome then
    throw "QSA rope_cache and rope_positions must be provided together"
  let ropeRows ← ropePositions.mapM fun positions => normalizeRopePositions positions keys.length
  let pooled ← I.eagerPooled c keys start ropeRows
  let stop := start + keys.length
  let keep := min keys.length I.capacity
  let positions := I.cells (stop - keep) stop
  let tailStart := keys.length - keep
  return {
    raw := scatter c.raw (positions.zip (keys.drop tailStart))
    rope := writeRope c.rope positions ropeRows (range' tailStart keep)
    pooled := scatter c.pooled (pooled.mapIdx fun g key => (start / I.compressRatio + g, some key)) }

/-- What `update_index_cache_fixed` pools: the group of every row, complete or not. -/
def fixedPooled (raw : ℕ → V) (rope : ℕ → Rope) (positions : List ℕ) (ropeCache : Bool) :
    Except String (List (PooledKey V)) :=
  let groupPositions := positions.map fun p => p / I.compressRatio * I.compressRatio
  let tokenPositions := groupPositions.map fun p => (range I.compressRatio).map fun offset => (p + offset) % I.capacity
  let groupRows := tokenPositions.map fun group => group.map raw
  if ropeCache then poolKeyGroupsAtPositions groupRows (rowMajor (tokenPositions.map fun group => rope (group.headD 0)))
  else poolKeyGroupsAtPositions groupRows (.scalar groupPositions)

def updateIndexCacheFixed (c : IndexCache V) (keys : List V) (positions : List ℕ) (ropeCache : Bool)
    (ropePositions : Option Positions) : Except String (IndexCache V) := do
  if keys.length ≠ positions.length then
    throw (s!"QSA fixed index keys must match positions and head_dim, got keys=({keys.length}, {I.headDim}), " ++
      s!"positions=({positions.length},)")
  if I.capacity < I.compressRatio + positions.length then
    throw (s!"QSA raw index ring is too small for a fixed update: capacity={I.capacity}, " ++
      s!"ratio={I.compressRatio}, rows={positions.length}")
  if ropeCache ≠ ropePositions.isSome then
    throw "QSA rope_cache and rope_positions must be provided together"
  let ropeRows ← ropePositions.mapM fun given => normalizeRopePositions given keys.length
  let slots := positions.map (· % I.capacity)
  let raw := scatter c.raw (slots.zip keys)
  let rope := writeRope c.rope slots ropeRows (range keys.length)
  let pooled ← I.fixedPooled raw rope positions ropeCache
  return {
    raw := raw
    rope := rope
    pooled := scatter c.pooled ((positions.zip pooled).map fun (p, key) => (p / I.compressRatio, some key)) }

/-- What `_rollback_speculative_qsa` pools again: the given groups. -/
def groupsPooled (raw : ℕ → V) (rope : ℕ → Rope) (groups : List ℕ) : Except String (List (PooledKey V)) :=
  let tokenPositions := groups.map fun g =>
    (range I.compressRatio).map fun offset => (g * I.compressRatio + offset) % I.capacity
  let groupRows := tokenPositions.map fun group => group.map raw
  if I.mrope then poolKeyGroupsAtPositions groupRows (rowMajor (tokenPositions.map fun group => rope (group.headD 0)))
  else poolKeyGroupsAtPositions groupRows (.scalar (groups.map (· * I.compressRatio)))

def rollbackSpeculativeQsa [Zero V] (c : IndexCache V) (pastLen rows committedEnd : ℕ) :
    Except String (IndexCache V) := do
  let verifyEnd := pastLen + rows
  if ¬(pastLen ≤ committedEnd ∧ committedEnd ≤ verifyEnd) then
    throw (s!"QSA rollback range is invalid: past_len={pastLen}, committed_end={committedEnd}, " ++
      s!"verify_end={verifyEnd}")
  if committedEnd = verifyEnd then return c
  let rejected := I.cells committedEnd verifyEnd
  let raw := scatter c.raw (rejected.map fun cell => (cell, 0))
  let rope := if I.mrope then scatter c.rope (rejected.map fun cell => (cell, axes 0)) else c.rope
  let firstGroup := pastLen / I.compressRatio
  let lastGroup := (verifyEnd + I.compressRatio - 1) / I.compressRatio
  let groups := range' firstGroup (lastGroup - firstGroup)
  let complete := groups.filter fun g => g * I.compressRatio + I.compressRatio ≤ committedEnd
  let incomplete := groups.filter fun g => ¬g * I.compressRatio + I.compressRatio ≤ committedEnd
  let pooled ← if complete = [] then pure [] else I.groupsPooled raw rope complete
  return {
    raw := raw
    rope := rope
    pooled := scatter (scatter c.pooled (complete.zip (pooled.map some))) (incomplete.map fun g => (g, none)) }

end Indexer

section Groups

variable {α : Type}
variable {groups : List (List V)} {coords : List Rope}

/-- Whole groups of a list, cut out of it. -/
theorem groupsOf_window {r : ℕ} (hr : 0 < r) {xs : List α} {a b : ℕ} (hb : b * r ≤ xs.length) :
    groupsOf r ((xs.take (b * r)).drop (a * r)) =
      (range (b - a)).map fun g => (xs.drop ((a + g) * r)).take r := by
  have hlen : ((xs.take (b * r)).drop (a * r)).length / r = b - a := by
    rw [length_drop, length_take, min_eq_left hb, ← Nat.sub_mul, Nat.mul_div_cancel _ hr]
  rw [groupsOf, hlen]
  apply map_congr_left
  intro g hg
  have hlt := mem_range.mp hg
  have hin : (a + g) * r + r ≤ b * r := by
    rw [← Nat.succ_mul]
    exact Nat.mul_le_mul_right r (by omega)
  rw [drop_drop, ← add_mul, drop_take, take_take, min_eq_left (by omega)]

theorem poolKeyGroups_scalar {entries : List ℕ} (h : entries.length = groups.length) :
    poolKeyGroupsAtPositions groups (.scalar entries) =
      .ok (groups.mapIdx fun g keys => ⟨keys, axes (entries.getD g 0)⟩) := by
  rw [poolKeyGroupsAtPositions, if_neg fun hne => hne.1 h, normalizeRopePositions, if_neg (not_not.mpr h)]
  rfl

theorem poolKeyGroups_rowMajor (h : coords.length = groups.length) :
    poolKeyGroupsAtPositions groups (rowMajor coords) =
      .ok (groups.mapIdx fun g keys =>
        ⟨keys, (if coords.length = 3 then transposed coords else fun t => coords.getD t (axes 0)) g⟩) := by
  have hnumel : (rowMajor coords).numel = 3 * groups.length := by
    rw [← h, mul_comm]
    rfl
  rw [poolKeyGroupsAtPositions, if_neg fun hne => hne.2 hnumel, ← h, normalize_rowMajor]
  rfl

/-- The coordinates of a call are its own unless it pools three groups whose matrix is not symmetric. -/
theorem poolKeyGroups_own (h : coords.length = groups.length)
    (hthree : coords.length = 3 → Symmetric coords) :
    poolKeyGroupsAtPositions groups (rowMajor coords) =
      .ok (groups.mapIdx fun g keys => ⟨keys, coords.getD g (axes 0)⟩) := by
  rw [poolKeyGroups_rowMajor h]
  refine congrArg Except.ok (mapIdx_eq_mapIdx_iff.mpr fun g hg => ?_)
  split
  case isTrue heq => rw [(transposed_eq_iff coords).mpr (hthree heq) g (by omega)]
  case isFalse => rfl

theorem map_mapIdx_coordinate (groups : List (List V)) (f : ℕ → Rope) :
    (groups.mapIdx fun g keys => (⟨keys, f g⟩ : PooledKey V)).map PooledKey.coordinate =
      (range groups.length).map f :=
  ext_getElem (by simp) fun i _ _ => by simp

theorem map_range_eq_iff {f : ℕ → Rope} :
    (range coords.length).map f = coords ↔ ∀ t < coords.length, f t = coords.getD t (axes 0) := by
  constructor
  · intro h t ht
    have hget : (coords[t]?).getD (axes 0) = ((range coords.length).map f)[t]?.getD (axes 0) := by rw [h]
    rw [getD_eq_getElem?_getD, hget, getElem?_map, getElem?_range ht]
    rfl
  · intro h
    refine ext_getElem (by simp) fun t ht _ => ?_
    have hin : t < coords.length := by simpa using ht
    rw [getElem_map, getElem_range, h t hin, getD_eq_getElem?_getD, getElem?_eq_getElem hin,
      Option.getD_some]

/-- Groups whose coordinates come row by row are rotated at them unless there are three and their matrix is not
symmetric. -/
theorem coordinates_rowMajor_iff (h : coords.length = groups.length) :
    coordinates (poolKeyGroupsAtPositions groups (rowMajor coords)) = .ok coords ↔
      (coords.length = 3 → Symmetric coords) := by
  rw [poolKeyGroups_rowMajor h, coordinates, Except.map, map_mapIdx_coordinate, ← h, Except.ok.injEq, map_range_eq_iff]
  by_cases hthree : coords.length = 3
  · rw [if_pos hthree, hthree, transposed_eq_iff]
    simp
  · simp [hthree]

theorem coordinates_axisMajor (groups : List (List V)) (f : ℕ → Rope) :
    coordinates (poolKeyGroupsAtPositions groups (axisMajor groups.length f)) = .ok ((range groups.length).map f) := by
  rw [poolKeyGroupsAtPositions, if_neg fun hne => hne.2 rfl, normalize_axisMajor, coordinates]
  exact congrArg Except.ok (map_mapIdx_coordinate groups f)

theorem coordinates_scalar {entries : List ℕ} (h : entries.length = groups.length) :
    coordinates (poolKeyGroupsAtPositions groups (.scalar entries)) = .ok (entries.map axes) := by
  rw [poolKeyGroups_scalar h, coordinates, Except.map, map_mapIdx_coordinate, ← h]
  refine congrArg Except.ok (ext_getElem (by simp) fun i _ hi => ?_)
  rw [length_map] at hi
  simp [getElem?_eq_getElem hi]

end Groups

end FlashNext
