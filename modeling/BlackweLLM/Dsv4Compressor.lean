import Mathlib.Data.List.Basic
import Mathlib.Tactic.Ring

/-!
# The compressor of a DSV4 layer

`Dsv4Compressor` of `runtime/model/dsv4_model.py`: one entry for every `ratio` tokens,
pooled from the rows of its group and, with overlap, of the group before. The bulk
branch, the stepping branch and the masked graph step keep the open group in the same
rows, so that a stream may be cut anywhere.
-/

namespace Dsv4Compressor

open List Function

/-- A row of `kv_state` and of `score_state`. -/
structure Cell (K : Type) where
  kv : List K
  score : List K

/-- The projections are taken token by token, the pooling and the finishing of an entry as functions. -/
structure Compressor (Tok K E : Type) where
  ratio : Nat
  ratio_pos : 0 < ratio
  overlap : Bool
  headDim : Nat
  /-- `bounded_cache`: one row, of stride zero, in place of one for each entry. -/
  bounded : Bool
  negInf : K
  wkv : Tok → List K
  wgate : Tok → List K
  ape : Nat → List K
  pool : List (Cell K) → List K
  finish : List K → Nat → E

structure State (K E : Type) where
  rows : Nat → Cell K
  /-- `kv_cache`: `max_seq_len // ratio` rows, or one when bounded; callers keep below `max_seq_len`. -/
  cache : Nat → E

/-- `state[start : start + n] = cells`. -/
def writeRows {K : Type} (rows : Nat → Cell K) (start : Nat) (cells : List (Cell K)) : Nat → Cell K :=
  fun i => if i < start then rows i else cells[i - start]?.getD (rows i)

namespace Compressor

variable {Tok K E : Type} [Zero K] [Add K] (c : Compressor Tok K E)

def coeff : Nat := if c.overlap then 2 else 1

/-- Where the open group is kept. -/
def offset : Nat := if c.overlap then c.ratio else 0

/-- The row of `kv_cache` for the entry of a position. -/
def cacheRow (pos : Nat) : Nat := if c.bounded then 0 else pos / c.ratio

def resetRow : Cell K := ⟨replicate (c.coeff * c.headDim) 0, replicate (c.coeff * c.headDim) c.negInf⟩

def resetSlot (s : State K E) : State K E := { s with rows := fun _ => c.resetRow }

/-- The projected row of a token, with the score offset of its place in the group. -/
def cell (x : Tok) (place : Nat) : Cell K := ⟨c.wkv x, zipWith (· + ·) (c.wgate x) (c.ape place)⟩

/-- `[..., :head_dim]`. -/
def lowHalf (r : Cell K) : Cell K := ⟨r.kv.take c.headDim, r.score.take c.headDim⟩

/-- `[..., head_dim:]`. -/
def highHalf (r : Cell K) : Cell K := ⟨r.kv.drop c.headDim, r.score.drop c.headDim⟩

def window (rows : Nat → Cell K) : List (Cell K) :=
  if c.overlap then
    (range c.ratio).map (fun i => c.lowHalf (rows i)) ++
      (range c.ratio).map fun i => c.highHalf (rows (c.ratio + i))
  else (range c.ratio).map rows

/-- `overlap_transform` of the groups: the low halves of the group before, the high halves of its own. -/
def overlapTransform (groups : List (List (Cell K))) : List (List (Cell K)) :=
  groups.mapIdx fun j group =>
    (if j = 0 then replicate c.ratio ⟨replicate c.headDim 0, replicate c.headDim c.negInf⟩
      else (groups.getD (j - 1) []).map c.lowHalf) ++ group.map c.highHalf

def frames (positionCount pos : Nat) : List Nat :=
  if pos = 0 then (range ((positionCount + c.ratio - 1) / c.ratio)).map (· * c.ratio) else [pos + 1 - c.ratio]

def finalize (pooled : List (List K)) (positionCount pos : Nat) : List E :=
  zipWith c.finish pooled (c.frames positionCount pos)

/-- One token of the stepping branches: the entries it emits, and the state. -/
def stepToken (x : Tok) (pos : Nat) (s : State K E) : List E × State K E :=
  let rows := update s.rows (c.offset + pos % c.ratio) (c.cell x (pos % c.ratio))
  if (pos + 1) % c.ratio = 0 then
    let emitted := c.finalize [c.pool (c.window rows)] 0 pos
    (emitted,
      { rows := if c.overlap then fun i => if i < c.ratio then rows (c.ratio + i) else rows i else rows
        cache := emitted.foldl (fun cache entry => update cache (c.cacheRow pos) entry) s.cache })
  else ([], { s with rows := rows })

def stepTokens : List Tok → Nat → State K E → List E × State K E
  | [], _, s => ([], s)
  | x :: xs, pos, s =>
    let first := c.stepToken x pos s
    let rest := stepTokens xs (pos + 1) first.2
    (first.1 ++ rest.1, rest.2)

def groupCells (xs : List Tok) : List (Cell K) := xs.mapIdx fun i x => c.cell x i

/-- The bulk branch, for a first chunk of at least `ratio` tokens. -/
def bulk (xs : List Tok) (s : State K E) : List E × State K E :=
  let remainder := xs.length % c.ratio
  let cutoff := xs.length - remainder
  let rows := if c.overlap = true ∧ c.ratio ≤ cutoff then
      writeRows s.rows 0 (c.groupCells ((xs.take cutoff).drop (cutoff - c.ratio)))
    else s.rows
  let rows := if 0 < remainder then writeRows rows c.offset (c.groupCells (xs.drop cutoff)) else rows
  let groups := (range (cutoff / c.ratio)).map fun j =>
    c.groupCells (((xs.take cutoff).drop (j * c.ratio)).take c.ratio)
  let windows := if c.overlap then c.overlapTransform groups else groups
  let emitted := c.finalize (windows.map c.pool) cutoff 0
  (emitted,
    { rows := rows
      cache := if c.bounded then emitted.getLast?.elim s.cache (update s.cache 0)
        else fun j => emitted[j]?.getD (s.cache j) })

def forward (xs : List Tok) (startPos : Nat) (s : State K E) : List E × State K E :=
  if startPos = 0 ∧ xs.length < c.ratio then c.stepTokens xs startPos s
  else if startPos = 0 then c.bulk xs s
  else c.stepTokens xs startPos s

/-- `forward_graph`: pooling, migration and cache row are computed on every step, and masked. -/
def forwardGraph (x : Tok) (pos : Nat) (s : State K E) : E × State K E :=
  let shouldCompress := (pos + 1) % c.ratio = 0
  let rows := update s.rows (c.offset + pos % c.ratio) (c.cell x (pos % c.ratio))
  let entry := c.finish (c.pool (c.window rows)) (pos + 1 - c.ratio)
  let migrated := if c.overlap then
      fun i => if i < c.ratio then (if shouldCompress then rows (c.ratio + i) else rows i) else rows i
    else rows
  let merged := if shouldCompress then entry else s.cache (c.cacheRow pos)
  (merged, { rows := migrated, cache := update s.cache (c.cacheRow pos) merged })

/-- A call on the next tokens of the stream. -/
inductive Call where
  | forward (seqlen : Nat)
  | graph

def Call.tokens : Call → Nat
  | .forward seqlen => seqlen
  | .graph => 1

/-- What a call emits; the graph returns the cache row where there is no new entry. -/
def call (x : Nat → Tok) (pos : Nat) (s : State K E) : Call → List E × State K E
  | .forward seqlen => c.forward ((range seqlen).map fun i => x (pos + i)) pos s
  | .graph =>
    let out := c.forwardGraph (x pos) pos s
    (if (pos + 1) % c.ratio = 0 then [out.1] else [], out.2)

/-- The calls on a stream one after the other: what each emits, and the state. -/
def run (x : Nat → Tok) : List Call → Nat → State K E → List (List E) × State K E
  | [], _, s => ([], s)
  | k :: calls, pos, s =>
    let first := c.call x pos s k
    let rest := run x calls (pos + k.tokens) first.2
    (first.1 :: rest.1, rest.2)

def own (x : Nat → Tok) (j : Nat) : List (Cell K) := (range c.ratio).map fun i => c.cell (x (j * c.ratio + i)) i

/-- The row that group `j` carries over: of the group before, or of a reset slot. -/
def carried (x : Nat → Tok) (j i : Nat) : Cell K :=
  if j = 0 then c.resetRow else c.cell (x ((j - 1) * c.ratio + i)) i

/-- The rows that entry `j` pools. -/
def entryWindow (x : Nat → Tok) (j : Nat) : List (Cell K) :=
  if c.overlap then
    (range c.ratio).map (fun i => c.lowHalf (c.carried x j i)) ++ (c.own x j).map c.highHalf
  else c.own x j

/-- Entry `j` of a stream, at the frame of its first token. -/
def entry (x : Nat → Tok) (j : Nat) : E := c.finish (c.pool (c.entryWindow x j)) (j * c.ratio)

def entries (x : Nat → Tok) (start stop : Nat) : List E :=
  ((range (stop / c.ratio)).drop (start / c.ratio)).map (c.entry x)

/-- A row that a later step pools before it writes it. -/
def Reads (n i : Nat) : Prop :=
  (c.overlap = true ∧ i < c.ratio) ∨ (c.offset ≤ i ∧ i < c.offset + n % c.ratio)

/-- What a state says of the first `n` tokens in the rows that a later step reads. -/
structure Follows (x : Nat → Tok) (n : Nat) (s : State K E) : Prop where
  carried : c.overlap = true → ∀ i < c.ratio, s.rows i = c.carried x (n / c.ratio) i
  opened : ∀ i < n % c.ratio, s.rows (c.offset + i) = c.cell (x (n / c.ratio * c.ratio + i)) i
  cacheAll : c.bounded = false → ∀ j < n / c.ratio, s.cache j = c.entry x j
  cacheLast : c.bounded = true → ∀ j, j + 1 = n / c.ratio → s.cache 0 = c.entry x j

end Compressor

section Steps

variable {Tok K E : Type} [Zero K] [Add K] {c : Compressor Tok K E} {x : Nat → Tok} {n : Nat} {s : State K E}

theorem succ_of_boundary {r n : Nat} (hr : 0 < r) (h : (n + 1) % r = 0) :
    (n + 1) / r = n / r + 1 ∧ n % r + 1 = r ∧ n + 1 - r = n / r * r := by
  have hdiv := Nat.div_add_mod n r
  have hlt := Nat.mod_lt n hr
  have hmod : n % r + 1 = r := by
    by_contra hne
    rw [Nat.add_mod, Nat.mod_eq_of_lt (show 1 < r by omega), Nat.mod_eq_of_lt (by omega)] at h
    omega
  have hnext : n + 1 = r * (n / r + 1) := by
    rw [Nat.mul_succ]
    omega
  refine ⟨?_, hmod, ?_⟩
  · conv_lhs => rw [hnext]
    exact Nat.mul_div_cancel_left _ hr
  · rw [Nat.mul_comm (n / r) r]
    omega

theorem succ_of_inner {r n : Nat} (hr : 0 < r) (h : ¬(n + 1) % r = 0) :
    (n + 1) / r = n / r ∧ (n + 1) % r = n % r + 1 := by
  have hdiv := Nat.div_add_mod n r
  have hlt := Nat.mod_lt n hr
  have hmod : n % r + 1 < r := by
    by_contra hge
    have hnext : n + 1 = r * (n / r + 1) := by
      rw [Nat.mul_succ]
      omega
    exact h (by rw [hnext]; exact Nat.mul_mod_right r _)
  have hnext : n + 1 = n % r + 1 + r * (n / r) := by omega
  constructor
  · conv_lhs => rw [hnext]
    rw [Nat.add_mul_div_left _ _ hr, Nat.div_eq_of_lt hmod, Nat.zero_add]
  · conv_lhs => rw [hnext]
    rw [Nat.add_mul_mod_self_left, Nat.mod_eq_of_lt hmod]

def stepRows (c : Compressor Tok K E) (x : Nat → Tok) (n : Nat) (s : State K E) : Nat → Cell K :=
  update s.rows (c.offset + n % c.ratio) (c.cell (x n) (n % c.ratio))

section

variable (h : c.Follows x n s)
include h

theorem stepRows_carried (hover : c.overlap = true) :
    ∀ i < c.ratio, stepRows c x n s i = c.carried x (n / c.ratio) i := by
  intro i hi
  have hoffset : c.offset = c.ratio := if_pos hover
  rw [stepRows, update_of_ne (by omega)]
  exact h.carried hover i hi

theorem stepRows_opened :
    ∀ i < n % c.ratio + 1, stepRows c x n s (c.offset + i) = c.cell (x (n / c.ratio * c.ratio + i)) i := by
  intro i hi
  unfold stepRows
  by_cases hlast : i = n % c.ratio
  · rw [hlast, update_self, Nat.div_add_mod']
  · rw [update_of_ne (by omega)]
    exact h.opened i (by omega)

section

variable (hboundary : (n + 1) % c.ratio = 0)
include hboundary

/-- At a boundary the rows of the step are those of the entry. -/
theorem window_stepRows : c.window (stepRows c x n s) = c.entryWindow x (n / c.ratio) := by
  obtain ⟨-, hfull, -⟩ := succ_of_boundary c.ratio_pos hboundary
  have hopened := stepRows_opened h
  rw [hfull] at hopened
  unfold Compressor.window Compressor.entryWindow Compressor.own
  by_cases hover : c.overlap = true
  · have hoffset : c.offset = c.ratio := if_pos hover
    rw [hoffset] at hopened
    rw [if_pos hover, if_pos hover, map_map]
    congr 1
    · exact map_congr_left fun i hi => by rw [stepRows_carried h hover i (mem_range.mp hi)]
    · exact map_congr_left fun i hi => congrArg c.highHalf (hopened i (mem_range.mp hi))
  · have hoffset : c.offset = 0 := if_neg hover
    rw [hoffset] at hopened
    rw [if_neg hover, if_neg hover]
    exact map_congr_left fun i hi => by rw [← hopened i (mem_range.mp hi), Nat.zero_add]

/-- The rows after a boundary: the closed group is carried over. -/
theorem carried_succ (hover : c.overlap = true) :
    ∀ i < c.ratio, stepRows c x n s (c.ratio + i) = c.carried x ((n + 1) / c.ratio) i := by
  intro i hi
  obtain ⟨hdiv, hfull, -⟩ := succ_of_boundary c.ratio_pos hboundary
  have hoffset : c.offset = c.ratio := if_pos hover
  have hopened := stepRows_opened h i (by omega)
  rw [hoffset] at hopened
  rw [hopened, Compressor.carried, hdiv, if_neg (Nat.succ_ne_zero _), Nat.add_sub_cancel]

/-- The cache with the entry of a boundary in its row. -/
theorem cache_succ {rows : Nat → Cell K}
    (hcarried : c.overlap = true → ∀ i < c.ratio, rows i = c.carried x ((n + 1) / c.ratio) i) :
    c.Follows x (n + 1) ⟨rows, update s.cache (c.cacheRow n) (c.entry x (n / c.ratio))⟩ := by
  obtain ⟨hdiv, -, -⟩ := succ_of_boundary c.ratio_pos hboundary
  constructor
  · exact hcarried
  · rw [hboundary]
    exact fun i hi => absurd hi (Nat.not_lt_zero i)
  · intro hbounded j hj
    have hrow : c.cacheRow n = n / c.ratio := by
      rw [Compressor.cacheRow, if_neg (by rw [hbounded]; decide)]
    rw [hdiv] at hj
    dsimp only
    rw [hrow]
    by_cases hlast : j = n / c.ratio
    · rw [hlast, update_self]
    · rw [update_of_ne hlast]
      exact h.cacheAll hbounded j (by omega)
  · intro hbounded j hj
    have hrow : c.cacheRow n = 0 := if_pos hbounded
    rw [hdiv, Nat.add_right_cancel_iff] at hj
    dsimp only
    rw [hrow, update_self, hj]

end

/-- Inside a group nothing but the open row changes. -/
theorem follows_inner (hinner : ¬(n + 1) % c.ratio = 0) :
    c.Follows x (n + 1) ⟨stepRows c x n s, s.cache⟩ := by
  obtain ⟨hdiv, hmod⟩ := succ_of_inner c.ratio_pos hinner
  constructor
  · rw [hdiv]
    exact stepRows_carried h
  · rw [hdiv, hmod]
    exact stepRows_opened h
  · rw [hdiv]
    exact h.cacheAll
  · rw [hdiv]
    exact h.cacheLast

end

theorem entries_succ (c : Compressor Tok K E) (x : Nat → Tok) (n : Nat) :
    c.entries x n (n + 1) = if (n + 1) % c.ratio = 0 then [c.entry x (n / c.ratio)] else [] := by
  unfold Compressor.entries
  by_cases hboundary : (n + 1) % c.ratio = 0
  · rw [if_pos hboundary, (succ_of_boundary c.ratio_pos hboundary).1, range_succ, drop_append_of_le_length
      (by simp), drop_eq_nil_of_le (by simp)]
    rfl
  · rw [if_neg hboundary, (succ_of_inner c.ratio_pos hboundary).1, drop_eq_nil_of_le (by simp), map_nil]

theorem entries_append (c : Compressor Tok K E) (x : Nat → Tok) {a b d : Nat} (hab : a ≤ b) (hbd : b ≤ d) :
    c.entries x a b ++ c.entries x b d = c.entries x a d := by
  have hlow := Nat.div_le_div_right (c := c.ratio) hab
  have hhigh := Nat.div_le_div_right (c := c.ratio) hbd
  have hrange : range (b / c.ratio) = (range (d / c.ratio)).take (b / c.ratio) := by
    rw [take_range, Nat.min_eq_left hhigh]
  have hsplit := take_append_drop (b / c.ratio) (range (d / c.ratio))
  unfold Compressor.entries
  rw [← map_append, hrange, ← drop_append_of_le_length (by simp; omega), hsplit]

/-- A step of the stepping branches past the first token, or inside the first group. -/
theorem stepToken_follows (h : c.Follows x n s) (hfirst : n = 0 → 1 < c.ratio) :
    (c.stepToken (x n) n s).1 = c.entries x n (n + 1) ∧ c.Follows x (n + 1) (c.stepToken (x n) n s).2 := by
  rw [entries_succ]
  unfold Compressor.stepToken
  by_cases hboundary : (n + 1) % c.ratio = 0
  · have hpos : n ≠ 0 := by
      rintro rfl
      have hratio := hfirst rfl
      rw [Nat.zero_add, Nat.mod_eq_of_lt hratio] at hboundary
      cases hboundary
    have hentry : c.finalize [c.pool (c.window (stepRows c x n s))] 0 n = [c.entry x (n / c.ratio)] := by
      rw [Compressor.finalize, Compressor.frames, if_neg hpos, window_stepRows h hboundary,
        (succ_of_boundary c.ratio_pos hboundary).2.2]
      rfl
    simp only [if_pos hboundary]
    change c.finalize [c.pool (c.window (stepRows c x n s))] 0 n = _ ∧ c.Follows x (n + 1) ⟨_, foldl _ _
      (c.finalize [c.pool (c.window (stepRows c x n s))] 0 n)⟩
    rw [hentry]
    refine ⟨rfl, cache_succ h hboundary fun hover i hi => ?_⟩
    rw [if_pos hover, if_pos hi]
    exact carried_succ h hboundary hover i hi
  · simp only [if_neg hboundary]
    exact ⟨trivial, follows_inner h hboundary⟩

/-- The masked step of the graph does what the stepping branch does. -/
theorem forwardGraph_follows (h : c.Follows x n s) :
    (c.call x n s .graph).1 = c.entries x n (n + 1) ∧ c.Follows x (n + 1) (c.call x n s .graph).2 := by
  rw [entries_succ]
  simp only [Compressor.call, Compressor.forwardGraph]
  by_cases hboundary : (n + 1) % c.ratio = 0
  · have hentry : c.finish (c.pool (c.window (stepRows c x n s))) (n + 1 - c.ratio) = c.entry x (n / c.ratio) := by
      rw [window_stepRows h hboundary, (succ_of_boundary c.ratio_pos hboundary).2.2]
      rfl
    simp only [if_pos hboundary]
    change [c.finish (c.pool (c.window (stepRows c x n s))) (n + 1 - c.ratio)] = _ ∧ c.Follows x (n + 1)
      ⟨_, update s.cache (c.cacheRow n) (c.finish (c.pool (c.window (stepRows c x n s))) (n + 1 - c.ratio))⟩
    rw [hentry]
    refine ⟨rfl, cache_succ h hboundary fun hover i hi => ?_⟩
    rw [if_pos hover, if_pos hi]
    exact carried_succ h hboundary hover i hi
  · simp only [if_neg hboundary, update_eq_self]
    have hrows : (if c.overlap = true then fun i => if i < c.ratio then stepRows c x n s i else stepRows c x n s i
        else stepRows c x n s) = stepRows c x n s := by
      split
      · funext i
        exact ite_self _
      · rfl
    refine ⟨trivial, ?_⟩
    change c.Follows x (n + 1) ⟨if c.overlap = true then fun i => if i < c.ratio then stepRows c x n s i
        else stepRows c x n s i else stepRows c x n s, s.cache⟩
    rw [hrows]
    exact follows_inner h hboundary

theorem stepTokens_follows (len : Nat) (h : c.Follows x n s) (hfirst : n = 0 → len < c.ratio) :
    (c.stepTokens ((range len).map fun i => x (n + i)) n s).1 = c.entries x n (n + len) ∧
      c.Follows x (n + len) (c.stepTokens ((range len).map fun i => x (n + i)) n s).2 := by
  induction len generalizing n s with
  | zero =>
    refine ⟨?_, h⟩
    simp [Compressor.stepTokens, Compressor.entries]
  | succ len ih =>
    have htokens : (range (len + 1)).map (fun i => x (n + i)) =
        x n :: (range len).map fun i => x (n + 1 + i) := by
      rw [range_succ_eq_map, map_cons, map_map]
      refine congrArg (x n :: ·) (map_congr_left fun i _ => ?_)
      simp only [comp_apply, Nat.succ_eq_add_one]
      rw [Nat.add_right_comm, Nat.add_assoc]
    obtain ⟨hemitted, hnext⟩ := stepToken_follows h fun hn => by have := hfirst hn; omega
    obtain ⟨hrest, hend⟩ := ih hnext fun hn => by omega
    rw [htokens, Compressor.stepTokens]
    have hlen : n + 1 + len = n + (len + 1) := by omega
    rw [hlen] at hrest hend
    refine ⟨?_, hend⟩
    rw [hemitted, hrest]
    exact entries_append c x (Nat.le_succ n) (by omega)

end Steps

section Bulk

variable {Tok K E : Type} [Zero K] [Add K] {c : Compressor Tok K E} {x : Nat → Tok} {s : State K E}

omit [Zero K] in
theorem groupCells_drop (c : Compressor Tok K E) (x : Nat → Tok) (m a : Nat) :
    c.groupCells (((range m).map x).drop a) = (range (m - a)).map fun i => c.cell (x (a + i)) i := by
  refine ext_getElem (by simp [Compressor.groupCells]) fun i hi hi' => ?_
  simp [Compressor.groupCells]

omit [Zero K] in
theorem groupCells_slice (c : Compressor Tok K E) (x : Nat → Tok) {m a b : Nat} (h : a + b ≤ m) :
    c.groupCells ((((range m).map x).drop a).take b) = (range b).map fun i => c.cell (x (a + i)) i := by
  refine ext_getElem ?_ fun i hi hi' => ?_
  · simp only [Compressor.groupCells, length_mapIdx, length_take, length_drop, length_map,
      length_range]
    omega
  · simp [Compressor.groupCells]

omit [Zero K] [Add K] in
theorem writeRows_range (rows : Nat → Cell K) (start n : Nat) (f : Nat → Cell K) (i : Nat) :
    writeRows rows start ((range n).map f) i = if start ≤ i ∧ i < start + n then f (i - start) else rows i := by
  unfold writeRows
  by_cases hlow : i < start
  · rw [if_pos hlow, if_neg (by omega)]
  · rw [if_neg hlow]
    by_cases hhigh : i < start + n
    · rw [if_pos (by omega), getElem?_map, getElem?_range (by omega)]
      rfl
    · rw [if_neg (by omega), getElem?_eq_none (by simp; omega)]
      rfl

omit [Add K] in
theorem lowHalf_resetRow (c : Compressor Tok K E) (hover : c.overlap = true) :
    c.lowHalf c.resetRow = ⟨replicate c.headDim 0, replicate c.headDim c.negInf⟩ := by
  have hcoeff : c.coeff = 2 := if_pos hover
  have hmin : min c.headDim (2 * c.headDim) = c.headDim := by omega
  simp only [Compressor.lowHalf, Compressor.resetRow, hcoeff, take_replicate, hmin]

/-- The bulk windows are those of the entries: the first is padded as a reset slot would be. -/
theorem overlapTransform_own (c : Compressor Tok K E) (x : Nat → Tok) (hover : c.overlap = true) (count : Nat) :
    c.overlapTransform ((range count).map (c.own x)) = (range count).map (c.entryWindow x) := by
  refine ext_getElem (by simp [Compressor.overlapTransform]) fun j hj hj' => ?_
  rw [length_map, length_range] at hj'
  simp only [Compressor.overlapTransform, getElem_mapIdx, getElem_map, getElem_range]
  rw [Compressor.entryWindow, if_pos hover]
  congr 1
  by_cases hzero : j = 0
  · rw [if_pos hzero]
    refine ext_getElem (by simp) fun i hi hi' => ?_
    simp only [getElem_replicate, getElem_map, Compressor.carried, if_pos hzero, lowHalf_resetRow c hover]
  · rw [if_neg hzero, getD_eq_getElem?_getD, getElem?_map, getElem?_range (by omega), Option.map_some,
      Option.getD_some, Compressor.own, map_map]
    exact map_congr_left fun i _ => by rw [Compressor.carried, if_neg hzero]; rfl

theorem cutoff_eq (n r : Nat) : n - n % r = n / r * r := by
  have hdiv := Nat.div_add_mod' n r
  omega

theorem bulk_emitted (c : Compressor Tok K E) (x : Nat → Tok) (len : Nat) (s : State K E) :
    (c.bulk ((range len).map x) s).1 = (range (len / c.ratio)).map (c.entry x) := by
  have hle : len / c.ratio * c.ratio ≤ len := Nat.div_mul_le_self _ _
  have hcount : len / c.ratio * c.ratio / c.ratio = len / c.ratio := Nat.mul_div_cancel _ c.ratio_pos
  have hframes : (len / c.ratio * c.ratio + c.ratio - 1) / c.ratio = len / c.ratio := by
    have hpos := c.ratio_pos
    rw [Nat.add_sub_assoc hpos, Nat.mul_comm (len / c.ratio), Nat.mul_add_div hpos,
      Nat.div_eq_of_lt (Nat.sub_lt hpos Nat.one_pos), Nat.add_zero]
  have hgroups : (range (len / c.ratio)).map (fun j => c.groupCells
      ((((range (len / c.ratio * c.ratio)).map x).drop (j * c.ratio)).take c.ratio)) =
        (range (len / c.ratio)).map (c.own x) := by
    refine map_congr_left fun j hj => ?_
    rw [mem_range] at hj
    have hroom := Nat.mul_le_mul_right c.ratio (Nat.succ_le_of_lt hj)
    rw [Nat.succ_mul] at hroom
    exact groupCells_slice c x hroom
  have hwindows : (if c.overlap = true then c.overlapTransform ((range (len / c.ratio)).map (c.own x))
      else (range (len / c.ratio)).map (c.own x)) = (range (len / c.ratio)).map (c.entryWindow x) := by
    by_cases hover : c.overlap = true
    · rw [if_pos hover, overlapTransform_own c x hover]
    · rw [if_neg hover]
      exact map_congr_left fun j _ => by rw [Compressor.entryWindow, if_neg hover]
  unfold Compressor.bulk
  dsimp only
  rw [length_map, length_range, cutoff_eq, hcount, ← map_take, take_range, Nat.min_eq_left hle,
    hgroups, hwindows, Compressor.finalize, Compressor.frames, if_pos rfl, hframes]
  refine ext_getElem (by simp) fun j hj hj' => ?_
  simp [Compressor.entry]

theorem bulk_follows {len : Nat} (hlen : c.ratio ≤ len) (s : State K E) :
    c.Follows x len (c.bulk ((range len).map x) s).2 := by
  have hcount : 0 < len / c.ratio := Nat.div_pos hlen c.ratio_pos
  have hle : len / c.ratio * c.ratio ≤ len := Nat.div_mul_le_self _ _
  have hratio : c.ratio ≤ len / c.ratio * c.ratio := Nat.le_mul_of_pos_left _ hcount
  have hdiv := Nat.div_add_mod' len c.ratio
  have hemitted := bulk_emitted c x len s
  have hrows : (c.bulk ((range len).map x) s).2.rows =
      if 0 < len % c.ratio then writeRows
        (if c.overlap = true then writeRows s.rows 0 ((range c.ratio).map fun i =>
          c.cell (x (len / c.ratio * c.ratio - c.ratio + i)) i) else s.rows) c.offset
        ((range (len % c.ratio)).map fun i => c.cell (x (len / c.ratio * c.ratio + i)) i)
      else (if c.overlap = true then writeRows s.rows 0 ((range c.ratio).map fun i =>
          c.cell (x (len / c.ratio * c.ratio - c.ratio + i)) i) else s.rows) := by
    have hkept : len / c.ratio * c.ratio - (len / c.ratio * c.ratio - c.ratio) = c.ratio := by omega
    have htail : len - len / c.ratio * c.ratio = len % c.ratio := by omega
    simp only [Compressor.bulk, length_map, length_range, cutoff_eq, ← map_take, take_range,
      Nat.min_eq_left hle, groupCells_drop, hkept, htail, hratio, and_true]
  constructor
  · intro hover i hi
    have hoffset : c.offset = c.ratio := if_pos hover
    have hcarried : c.carried x (len / c.ratio) i = c.cell (x (len / c.ratio * c.ratio - c.ratio + i)) i := by
      rw [Compressor.carried, if_neg (Nat.ne_of_gt hcount), Nat.sub_mul, Nat.one_mul]
    have hlow : writeRows s.rows 0 ((range c.ratio).map fun i =>
        c.cell (x (len / c.ratio * c.ratio - c.ratio + i)) i) i =
          c.cell (x (len / c.ratio * c.ratio - c.ratio + i)) i := by
      rw [writeRows_range, if_pos (by omega), Nat.sub_zero]
    rw [hrows, hcarried, if_pos hover]
    split
    · rw [writeRows_range, if_neg (by omega), hlow]
    · exact hlow
  · intro i hi
    rw [hrows, if_pos (by omega), writeRows_range, if_pos (by omega), Nat.add_sub_cancel_left]
  · intro hbounded j hj
    have hcache : (c.bulk ((range len).map x) s).2.cache =
        fun j => (c.bulk ((range len).map x) s).1[j]?.getD (s.cache j) := by
      simp only [Compressor.bulk, hbounded]
      rfl
    rw [hcache, hemitted]
    simp [hj]
  · intro hbounded j hj
    have hcache : (c.bulk ((range len).map x) s).2.cache =
        (c.bulk ((range len).map x) s).1.getLast?.elim s.cache (update s.cache 0) := by
      simp only [Compressor.bulk, hbounded]
      rfl
    rw [hcache, hemitted, ← hj, range_succ, map_append, map_singleton, getLast?_concat]
    exact update_self (0 : Nat) (c.entry x j) s.cache

end Bulk

section Runs

variable {Tok K E : Type} [Zero K] [Add K] {c : Compressor Tok K E} {x : Nat → Tok} {s : State K E}

theorem follows_resetSlot (c : Compressor Tok K E) (x : Nat → Tok) (s : State K E) :
    c.Follows x 0 (c.resetSlot s) := by
  constructor
  · intro _ i _
    rw [Nat.zero_div]
    rfl
  · intro i hi
    rw [Nat.zero_mod] at hi
    exact absurd hi (Nat.not_lt_zero i)
  · intro _ j hj
    rw [Nat.zero_div] at hj
    exact absurd hj (Nat.not_lt_zero j)
  · intro _ j hj
    rw [Nat.zero_div] at hj
    exact absurd hj (Nat.succ_ne_zero j)

theorem forward_follows {n : Nat} (h : c.Follows x n s) (len : Nat) :
    (c.call x n s (.forward len)).1 = c.entries x n (n + len) ∧
      c.Follows x (n + len) (c.call x n s (.forward len)).2 := by
  simp only [Compressor.call, Compressor.forward, length_map, length_range]
  by_cases hcold : n = 0 ∧ len < c.ratio
  · rw [if_pos hcold]
    exact stepTokens_follows len h fun _ => hcold.2
  · rw [if_neg hcold]
    by_cases hbulk : n = 0
    · rw [if_pos hbulk]
      subst hbulk
      simp only [Nat.zero_add]
      refine ⟨?_, bulk_follows (by omega) s⟩
      rw [bulk_emitted, Compressor.entries, Nat.zero_div, drop_zero]
    · rw [if_neg hbulk]
      exact stepTokens_follows len h fun hzero => absurd hzero hbulk

theorem call_follows {n : Nat} (h : c.Follows x n s) (k : Compressor.Call) :
    (c.call x n s k).1 = c.entries x n (n + k.tokens) ∧ c.Follows x (n + k.tokens) (c.call x n s k).2 := by
  cases k with
  | forward len => exact forward_follows h len
  | graph => exact forwardGraph_follows h

def tokens (calls : List Compressor.Call) : Nat := (calls.map Compressor.Call.tokens).sum

theorem tokens_cons (k : Compressor.Call) (calls : List Compressor.Call) :
    tokens (k :: calls) = k.tokens + tokens calls := sum_cons

section

variable {n : Nat} (h : c.Follows x n s) (calls : List Compressor.Call)
include h

theorem run_follows : (c.run x calls n s).1.flatten = c.entries x n (n + tokens calls) ∧
      c.Follows x (n + tokens calls) (c.run x calls n s).2 := by
  induction calls generalizing n s with
  | nil =>
    refine ⟨?_, h⟩
    simp [Compressor.run, Compressor.entries, tokens]
  | cons k calls ih =>
    obtain ⟨hemitted, hnext⟩ := call_follows h k
    obtain ⟨hrest, hend⟩ := ih hnext
    rw [Nat.add_assoc, ← tokens_cons] at hrest hend
    refine ⟨?_, hend⟩
    rw [Compressor.run, flatten_cons, hemitted, hrest]
    exact entries_append c x (Nat.le_add_right _ _) (by rw [tokens_cons]; omega)

theorem run_emitted (k : Nat) (hk : k < calls.length) : (c.run x calls n s).1[k]? =
      some (c.entries x (n + tokens (calls.take k)) (n + tokens (calls.take (k + 1)))) := by
  induction calls generalizing n s k with
  | nil => exact absurd hk (Nat.not_lt_zero k)
  | cons first calls ih =>
    obtain ⟨hemitted, hnext⟩ := call_follows h first
    cases k with
    | zero =>
      rw [Compressor.run, getElem?_cons_zero, hemitted]
      simp [tokens]
    | succ k =>
      have hrest := ih hnext k (Nat.lt_of_succ_lt_succ hk)
      rw [Compressor.run, getElem?_cons_succ, hrest, take_succ_cons, take_succ_cons, tokens_cons,
        tokens_cons, Nat.add_assoc, Nat.add_assoc]

end

theorem tokens_replicate (n : Nat) : tokens (replicate n (.forward 1)) = n := by
  simp [tokens, Compressor.Call.tokens]

/-- One token at a time: entry `j` is emitted once, at the last token of its group. -/
theorem run_stepwise (h : c.Follows x 0 s) (n : Nat) :
    (c.run x (replicate n (.forward 1)) 0 s).1 =
      (range n).map fun t => if (t + 1) % c.ratio = 0 then [c.entry x (t / c.ratio)] else [] := by
  refine ext_getElem? fun k => ?_
  by_cases hk : k < n
  · rw [run_emitted h _ k (by rwa [length_replicate]), take_replicate, take_replicate,
      Nat.min_eq_left (by omega), Nat.min_eq_left (by omega), tokens_replicate, tokens_replicate, Nat.zero_add,
      Nat.zero_add, entries_succ, getElem?_map, getElem?_range hk, Option.map_some]
  · have hlength : ∀ (calls : List Compressor.Call) (m : Nat) (s : State K E),
        (c.run x calls m s).1.length = calls.length := by
      intro calls
      induction calls with
      | nil => exact fun _ _ => rfl
      | cons call calls ih => exact fun m s => congrArg Nat.succ (ih _ _)
    rw [getElem?_eq_none (by rw [hlength, length_replicate]; omega),
      getElem?_eq_none (by rw [length_map, length_range]; omega)]

/-- Two states that follow the same tokens agree in every row that is still read. -/
theorem rows_eq {n : Nat} {s' : State K E} (h : c.Follows x n s) (h' : c.Follows x n s') {i : Nat}
    (hi : c.Reads n i) : s.rows i = s'.rows i := by
  obtain ⟨hover, hlow⟩ | ⟨hlow, hhigh⟩ := hi
  · rw [h.carried hover i hlow, h'.carried hover i hlow]
  · have hplace : i = c.offset + (i - c.offset) := by omega
    rw [hplace, h.opened _ (by omega), h'.opened _ (by omega)]

/-- However a stream is cut into calls, the entries, their frames, the rows that are still read and the cached entries
are those of one token at a time, and every call emits the entries of the groups that end in it. -/
theorem run_eq_stepwise (c : Compressor Tok K E) (x : Nat → Tok) (calls : List Compressor.Call) (s : State K E) :
    let out := c.run x calls 0 (c.resetSlot s)
    let single := c.run x (replicate (tokens calls) (.forward 1)) 0 (c.resetSlot s)
    (out.1.flatten = single.1.flatten ∧ out.1.flatten = (range (tokens calls / c.ratio)).map (c.entry x)) ∧
      (∀ k < calls.length, out.1[k]? =
        some (c.entries x (tokens (calls.take k)) (tokens (calls.take (k + 1))))) ∧
      (single.1 = (range (tokens calls)).map fun t =>
        if (t + 1) % c.ratio = 0 then [c.entry x (t / c.ratio)] else []) ∧
      (∀ i, c.Reads (tokens calls) i → out.2.rows i = single.2.rows i) ∧
      (c.bounded = false → ∀ j < tokens calls / c.ratio, out.2.cache j = single.2.cache j) ∧
      (c.bounded = true → 0 < tokens calls / c.ratio → out.2.cache 0 = single.2.cache 0) := by
  have hstart := follows_resetSlot c x s
  obtain ⟨hflat, hout⟩ := run_follows hstart calls
  obtain ⟨hflat', hsingle⟩ := run_follows hstart (replicate (tokens calls) (.forward 1))
  rw [tokens_replicate] at hflat' hsingle
  rw [Nat.zero_add] at hflat hout hflat' hsingle
  have hentries : c.entries x 0 (tokens calls) = (range (tokens calls / c.ratio)).map (c.entry x) := by
    rw [Compressor.entries, Nat.zero_div, drop_zero]
  refine ⟨⟨hflat.trans hflat'.symm, hflat.trans hentries⟩, fun k hk => ?_, run_stepwise hstart _,
    fun i hi => rows_eq hout hsingle hi, fun hbounded j hj => ?_, fun hbounded hpos => ?_⟩
  · have hcall := run_emitted hstart calls k hk
    rwa [Nat.zero_add, Nat.zero_add] at hcall
  · rw [hout.cacheAll hbounded j hj, hsingle.cacheAll hbounded j hj]
  · have hlast : tokens calls / c.ratio - 1 + 1 = tokens calls / c.ratio := by omega
    rw [hout.cacheLast hbounded _ hlast, hsingle.cacheLast hbounded _ hlast]

end Runs

end Dsv4Compressor
