import BlackweLLM.SlidingWindow
import Mathlib.Tactic.Ring

/-!
# The convolution of the PLE layer

A depthwise causal convolution with dilation. The layer keeps the last columns it
read, and a prompt chunk, a decode step and a verify block each go on from them.
-/

namespace FlashNext.PleConv

open List SlidingWindow

inductive PleError where
  | valueError (message : String)
  | inputTooShort (columns span : ℕ)
  | shapeMismatch (source target : ℕ)
  deriving DecidableEq, Repr

structure PleLayer (R : Type) where
  channels : ℕ
  convKernel : ℕ
  convDilation : ℕ
  convWeight : Fin channels → ℕ → R
  silu : R → R
  kernel_pos : 0 < convKernel
  dilation_pos : 0 < convDilation

namespace PleLayer

section Source

variable {R : Type} [Zero R] [Add R] [Mul R]

def stateLen (L : PleLayer R) : ℕ := (L.convKernel - 1) * L.convDilation

abbrev Column (L : PleLayer R) := Fin L.channels → R

def zeroColumn (L : PleLayer R) : L.Column := fun _ => 0

/-- `torch`'s copy into a tensor of a fixed width: a single column is spread. -/
def copyColumns {α : Type} (width : ℕ) (source : List α) : Except PleError {xs : List α // xs.length = width} :=
  if h : source.length = width then .ok ⟨source, h⟩
  else
    match source with
    | [column] => .ok ⟨replicate width column, length_replicate⟩
    | _ => .error (.shapeMismatch source.length width)

/-- The last columns the layer read, the oldest first. -/
abbrev ConvState (L : PleLayer R) := {xs : List L.Column // xs.length = L.stateLen}

def zeroState (L : PleLayer R) : L.ConvState := ⟨replicate L.stateLen L.zeroColumn, length_replicate⟩

def mix (L : PleLayer R) (window : List L.Column) : L.Column := fun c =>
  L.silu ((range L.convKernel).foldl
    (fun acc k => acc + L.convWeight c k * window.getD (k * L.convDilation) L.zeroColumn c) 0)

def conv1d (L : PleLayer R) (input : List L.Column) : Except PleError (List L.Column) :=
  if input.length < L.convDilation * (L.convKernel - 1) + 1 then
    .error (.inputTooShort input.length (L.convDilation * (L.convKernel - 1) + 1))
  else .ok (slide L.stateLen L.mix input)

/-- The slice `[-n:]`, which is everything for `n = 0`. -/
def lastColumns {α : Type} (n : ℕ) (xs : List α) : List α := if n = 0 then xs else xs.rtake n

def prefillConvWithState (L : PleLayer R) (normedFlat : List L.Column) (state : L.ConvState) :
    Except PleError (List L.Column × L.ConvState) :=
  let seqLen := normedFlat.length
  if seqLen = 0 then
    .error (.valueError s!"PLE stateful prefill expects non-empty [T,C], got (0, {L.channels})")
  else if seqLen ≤ L.stateLen then do
    let convInput := state.1 ++ normedFlat
    let output ← L.conv1d convInput
    let state ← copyColumns L.stateLen (lastColumns L.stateLen convInput)
    return (output, state)
  else do
    let padding := replicate L.stateLen L.zeroColumn
    let output ← L.conv1d (padding ++ normedFlat ++ padding)
    let front ← L.conv1d (state.1 ++ normedFlat.take L.stateLen)
    let front ← copyColumns L.stateLen front
    let state ← copyColumns L.stateLen (lastColumns L.stateLen normedFlat)
    return (front.1 ++ (output.take seqLen).drop L.stateLen, state)

/-- One new column for each row of the batch, each with its own state. -/
def decodeConvInplace (L : PleLayer R) (batch : List (L.Column × L.ConvState)) :
    Except PleError (List (List L.Column × L.ConvState)) :=
  batch.mapM fun (column, state) => do
    let output ← L.conv1d (state.1 ++ [column])
    let state ← copyColumns L.stateLen (state.1.drop 1 ++ [column])
    return (output, state)

/-- The outputs of a verify block and the state after each of its rows; the live state stays. -/
def specConv (L : PleLayer R) (normedFlat : List L.Column) (state : L.ConvState) (stateRows : Option ℕ) :
    Except PleError (List L.Column × List L.ConvState) :=
  let rows := normedFlat.length
  let destinations := stateRows.getD rows
  if destinations ≠ rows then
    .error (.valueError s!"PLE spec state rows must match verify rows: {destinations} != {rows}")
  else do
    let convInput := state.1 ++ normedFlat
    let outputs ← L.conv1d convInput
    let snapshots ← (range destinations).mapM fun row =>
      copyColumns L.stateLen ((convInput.drop (row + 1)).take L.stateLen)
    return (outputs, snapshots)

/-- The part of `commit` that moves the live state. -/
def commit (L : PleLayer R) (qoLen acceptedCount : ℕ) (pleRows : List L.ConvState) (state : L.ConvState) :
    Except PleError L.ConvState :=
  if 1 ≤ acceptedCount ∧ acceptedCount ≤ qoLen then .ok (pleRows.getD (acceptedCount - 1) state)
  else .error (.valueError
    s!"accepted_count must include the anchor and be in [1,{qoLen}], got {acceptedCount}")

/-- One way to go on with a sequence. -/
inductive Piece (L : PleLayer R) where
  | prefill (rows : List L.Column)
  | decode (row : L.Column)
  | verify (rows : List L.Column) (accepted : ℕ)

def Piece.committed {L : PleLayer R} : L.Piece → List L.Column
  | .prefill rows => rows
  | .decode row => [row]
  | .verify rows accepted => rows.take accepted

/-- A piece has a column, and a verify block commits columns of its own. -/
def Piece.Ok {L : PleLayer R} : L.Piece → Prop
  | .prefill rows => rows ≠ []
  | .decode _ => True
  | .verify rows accepted => rows ≠ [] ∧ accepted ≤ rows.length

/-- The outputs kept of a piece and the live state after it. A block whose first row is rejected is never committed. -/
def runPiece (L : PleLayer R) (state : L.ConvState) : L.Piece → Except PleError (List L.Column × L.ConvState)
  | .prefill rows => L.prefillConvWithState rows state
  | .decode row => do
    let results ← L.decodeConvInplace [(row, state)]
    return results.headD ([], state)
  | .verify rows accepted => do
    let (outputs, pleRows) ← L.specConv rows state none
    let state ← if accepted = 0 then pure state else L.commit rows.length accepted pleRows state
    return (outputs.take accepted, state)

def runPieces (L : PleLayer R) (state : L.ConvState) : List L.Piece → Except PleError (List L.Column × L.ConvState)
  | [] => return ([], state)
  | p :: ps => do
    let (outputs, state) ← L.runPiece state p
    let (later, state) ← L.runPieces state ps
    return (outputs ++ later, state)

/-- The column so many steps before another, zero before the first. -/
def past (L : PleLayer R) (xs : List L.Column) (t back : ℕ) : L.Column :=
  if back ≤ t then xs.getD (t - back) L.zeroColumn else L.zeroColumn

/-- One causal dilated convolution over a whole sequence. -/
def causalConv (L : PleLayer R) (xs : List L.Column) : List L.Column :=
  (range xs.length).map fun t c =>
    L.silu ((range L.convKernel).foldl
      (fun acc k => acc + L.convWeight c k * L.past xs t ((L.convKernel - 1 - k) * L.convDilation) c) 0)

/-- The last columns of a sequence that zeros precede. -/
def causalState (L : PleLayer R) (xs : List L.Column) : List L.Column :=
  (range L.stateLen).map fun j => L.past xs (xs.length + j) L.stateLen

end Source

variable {R : Type} {L : PleLayer R}

theorem mapM_ok {α β ε : Type} {f : α → Except ε β} {g : α → β} {xs : List α} (h : ∀ x ∈ xs, f x = .ok (g x)) :
    xs.mapM f = .ok (xs.map g) := by
  induction xs with
  | nil => rfl
  | cons x xs ih =>
    rw [mapM_cons, h x mem_cons_self, ih fun y hy => h y (mem_cons_of_mem _ hy)]
    rfl

theorem copyColumns_eq {α : Type} {width : ℕ} {source : List α} (h : source.length = width) :
    copyColumns width source = .ok ⟨source, h⟩ := dif_pos h

def advance (L : PleLayer R) (state : L.ConvState) (rows : List L.Column) : L.ConvState :=
  ⟨(state.1 ++ rows).rtake L.stateLen, by rw [rtake, length_drop, length_append, state.2]; omega⟩

theorem advance_append (state : L.ConvState) (a b : List L.Column) :
    L.advance state (a ++ b) = L.advance (L.advance state a) b :=
  Subtype.ext (by simp only [advance, rtake_append_rtake, append_assoc])

theorem advance_nil (state : L.ConvState) : L.advance state [] = state :=
  Subtype.ext (by simp [advance, rtake, state.2])

theorem copyColumns_advance {state : L.ConvState} {rows source : List L.Column}
    (h : (L.advance state rows).1 = source) : copyColumns L.stateLen source = .ok (L.advance state rows) := by
  rw [copyColumns_eq (h ▸ (L.advance state rows).2)]
  exact congrArg _ (Subtype.ext h.symm)

theorem lastColumns_advance (hwide : 0 < L.stateLen) (state : L.ConvState) (rows : List L.Column) :
    copyColumns L.stateLen (lastColumns L.stateLen (state.1 ++ rows)) = .ok (L.advance state rows) := by
  rw [lastColumns, if_neg (by omega)]
  exact copyColumns_eq _

variable {rows : List L.Column}

/-- A chunk at least as long as the state leaves nothing of what was there. -/
theorem advance_of_le (state : L.ConvState) (h : L.stateLen ≤ rows.length) :
    (L.advance state rows).1 = rows.rtake L.stateLen := by
  change (state.1 ++ rows).drop ((state.1 ++ rows).length - L.stateLen) = rows.drop (rows.length - L.stateLen)
  rw [length_append, state.2, drop_append, state.2, drop_of_length_le (by rw [state.2]; omega),
    nil_append]
  congr 1
  omega

theorem commit_eq {state : L.ConvState} {accepted : ℕ} (hpos : 0 < accepted) (hle : accepted ≤ rows.length) :
    L.commit rows.length accepted
      ((range rows.length).map fun row => L.advance state (rows.take (row + 1))) state =
        .ok (L.advance state (rows.take accepted)) := by
  have hrow : accepted - 1 < rows.length := by omega
  rw [commit, if_pos ⟨hpos, hle⟩, getD_eq_getElem?_getD, getElem?_map, getElem?_range hrow,
    Option.map_some, Option.getD_some, Nat.sub_add_cancel hpos]

variable [Zero R]

/-- A tap of the window behind the padded sequence is a column of the past. -/
theorem past_eq (xs : List L.Column) {t k : ℕ} (hk : k < L.convKernel) :
    ((((L.zeroState.1 ++ xs).drop t).take (L.stateLen + 1)).getD (k * L.convDilation) L.zeroColumn) =
      L.past xs t ((L.convKernel - 1 - k) * L.convDilation) := by
  have hback : (L.convKernel - 1 - k) * L.convDilation + k * L.convDilation = L.stateLen := by
    rw [← Nat.add_mul, Nat.sub_add_cancel (by omega), stateLen]
  rw [getD_eq_getElem?_getD, getElem?_take_of_lt (by omega), getElem?_drop, past]
  by_cases hpast : (L.convKernel - 1 - k) * L.convDilation ≤ t
  · have hindex : t + k * L.convDilation - L.zeroState.1.length = t - (L.convKernel - 1 - k) * L.convDilation := by
      rw [L.zeroState.2]
      omega
    rw [if_pos hpast, getElem?_append_right (by rw [L.zeroState.2]; omega), hindex,
      getD_eq_getElem?_getD]
  · rw [if_neg hpast, getElem?_append_left (by rw [L.zeroState.2]; omega)]
    change ((replicate L.stateLen L.zeroColumn)[_]?).getD _ = _
    rw [getElem?_replicate, if_pos (by omega), Option.getD_some]

theorem advance_zeroState (xs : List L.Column) : (L.advance L.zeroState xs).1 = L.causalState xs := by
  have hlen : (L.zeroState.1 ++ xs).length - L.stateLen = xs.length := by
    rw [length_append, L.zeroState.2, Nat.add_sub_cancel_left]
  apply ext_getElem?
  intro j
  change ((L.zeroState.1 ++ xs).drop ((L.zeroState.1 ++ xs).length - L.stateLen))[j]? = _
  rw [hlen, getElem?_drop, causalState, getElem?_map]
  by_cases hj : j < L.stateLen
  · rw [getElem?_range hj, Option.map_some, past]
    split
    case isTrue hpast =>
      have hindex : xs.length + j - L.stateLen < xs.length := by omega
      rw [getElem?_append_right (by rw [L.zeroState.2]; omega), L.zeroState.2, getD_eq_getElem?_getD,
        getElem?_eq_getElem hindex, Option.getD_some]
    case isFalse hpast =>
      rw [getElem?_append_left (by rw [L.zeroState.2]; omega)]
      change (replicate L.stateLen L.zeroColumn)[_]? = _
      rw [getElem?_replicate, if_pos (by omega)]
  · rw [getElem?_eq_none (by rw [length_append, L.zeroState.2]; omega),
      getElem?_eq_none (by rw [length_range]; omega), Option.map_none]

variable [Add R] [Mul R]

theorem conv1d_eq {input : List L.Column} (h : L.stateLen < input.length) :
    L.conv1d input = .ok (slide L.stateLen L.mix input) := by
  have hspan : L.convDilation * (L.convKernel - 1) = L.stateLen := Nat.mul_comm _ _
  rw [conv1d, hspan, if_neg (by omega)]

def outputs (L : PleLayer R) (state : L.ConvState) (rows : List L.Column) : List L.Column :=
  slide L.stateLen L.mix (state.1 ++ rows)

theorem outputs_append (state : L.ConvState) (a b : List L.Column) :
    L.outputs state (a ++ b) = L.outputs state a ++ L.outputs (L.advance state a) b := by
  rw [outputs, ← append_assoc]
  exact slide_append (by rw [length_append, state.2]; omega) b

theorem outputs_nil (state : L.ConvState) : L.outputs state [] = [] :=
  slide_eq_nil (by simp [state.2])

/-- The rows of a front of a block are convolved as if nothing followed. -/
theorem outputs_take (state : L.ConvState) (rows : List L.Column) (m : ℕ) :
    (L.outputs state rows).take m = L.outputs state (rows.take m) := by
  have hcut : (state.1 ++ rows).take (m + L.stateLen) = state.1 ++ rows.take m := by
    rw [take_append, state.2, Nat.add_sub_cancel, take_of_length_le (by rw [state.2]; omega)]
  rw [outputs, slide_take, hcut, outputs]

/-- Behind the length of the state the outputs do not read it. -/
theorem outputs_drop (state : L.ConvState) (rows : List L.Column) :
    (L.outputs state rows).drop L.stateLen = slide L.stateLen L.mix rows := by
  rw [outputs, slide_drop, drop_left' state.2]

/-- A long chunk is convolved behind zeros, and its front again behind the state. -/
theorem prefillConvWithState_eq (hwide : 0 < L.stateLen) (state : L.ConvState) (hrows : rows ≠ []) :
    L.prefillConvWithState rows state = .ok (L.outputs state rows, L.advance state rows) := by
  have hpos := length_pos_iff.mpr hrows
  dsimp only [prefillConvWithState]
  rw [if_neg (by omega)]
  by_cases hshort : rows.length ≤ L.stateLen
  · rw [if_pos hshort, conv1d_eq (by rw [length_append, state.2]; omega), lastColumns_advance hwide]
    rfl
  · have hbody : (slide L.stateLen L.mix (L.zeroState.1 ++ rows ++ L.zeroState.1)).take rows.length =
        L.outputs L.zeroState rows := by
      have h := outputs_take L.zeroState (rows ++ L.zeroState.1) rows.length
      rwa [take_left, outputs, ← append_assoc] at h
    have hfront : (L.outputs state (rows.take L.stateLen)).length = L.stateLen := by
      simp only [outputs, slide_length, length_append, state.2, length_take]
      omega
    have hjoin : L.outputs state (rows.take L.stateLen) ++ (L.outputs L.zeroState rows).drop L.stateLen =
        L.outputs state rows := by
      rw [outputs_drop, ← outputs_drop state, ← outputs_take, take_append_drop]
    have hlast : copyColumns L.stateLen (lastColumns L.stateLen rows) = .ok (L.advance state rows) := by
      rw [lastColumns, if_neg (by omega)]
      exact copyColumns_advance (advance_of_le state (by omega))
    rw [if_neg hshort, conv1d_eq (by simp; omega),
      conv1d_eq (by rw [length_append, state.2, length_take]; omega), hlast]
    change (do
      let front ← copyColumns L.stateLen (L.outputs state (rows.take L.stateLen))
      return (front.1 ++ ((slide L.stateLen L.mix (L.zeroState.1 ++ rows ++ L.zeroState.1)).take
        rows.length).drop L.stateLen, L.advance state rows)) = _
    rw [copyColumns_eq hfront, hbody]
    change Except.ok (_ ++ _, _) = _
    rw [hjoin]

theorem decodeConvInplace_eq (hwide : 0 < L.stateLen) (batch : List (L.Column × L.ConvState)) :
    L.decodeConvInplace batch = .ok (batch.map fun (row, state) => (L.outputs state [row], L.advance state [row])) := by
  apply mapM_ok
  intro (row, state) _
  have hcut : (L.advance state [row]).1 = state.1.drop 1 ++ [row] := by
    change (state.1 ++ [row]).drop ((state.1 ++ [row]).length - L.stateLen) = _
    rw [length_append, state.2, Nat.add_sub_cancel_left, length_singleton,
      drop_append_of_le_length (by rw [state.2]; omega)]
  dsimp only
  rw [conv1d_eq (by simp [state.2]), copyColumns_advance hcut]
  rfl

/-- The snapshot behind a row is the state after the rows up to it. -/
theorem specConv_eq (state : L.ConvState) (hrows : rows ≠ []) :
    L.specConv rows state none = .ok (L.outputs state rows,
      (range rows.length).map fun row => L.advance state (rows.take (row + 1))) := by
  have hpos := length_pos_iff.mpr hrows
  have hsnapshots : ((range rows.length).mapM fun row =>
      copyColumns L.stateLen (((state.1 ++ rows).drop (row + 1)).take L.stateLen)) =
      .ok ((range rows.length).map fun row => L.advance state (rows.take (row + 1))) := by
    apply mapM_ok
    intro row hrow
    have hlen : (rows.take (row + 1)).length = row + 1 := by
      rw [length_take, min_eq_left (mem_range.mp hrow)]
    apply copyColumns_advance
    have hcut : (state.1 ++ rows).take (L.stateLen + (row + 1)) = state.1 ++ rows.take (row + 1) := by
      rw [take_append, state.2, Nat.add_sub_cancel_left, take_of_length_le (by rw [state.2]; omega)]
    change (state.1 ++ rows.take (row + 1)).drop ((state.1 ++ rows.take (row + 1)).length - L.stateLen) = _
    rw [length_append, state.2, hlen, Nat.add_sub_cancel_left, ← hcut, drop_take, Nat.add_sub_cancel]
  dsimp only [specConv]
  rw [if_neg (by simp), conv1d_eq (by rw [length_append, state.2]; omega)]
  change (do
    let snapshots ← (range rows.length).mapM fun row =>
      copyColumns L.stateLen (((state.1 ++ rows).drop (row + 1)).take L.stateLen)
    return (L.outputs state rows, snapshots)) = _
  rw [hsnapshots]
  rfl

theorem runPiece_eq (hwide : 0 < L.stateLen) (state : L.ConvState) {p : L.Piece} (hp : p.Ok) :
    L.runPiece state p = .ok (L.outputs state p.committed, L.advance state p.committed) := by
  cases p with
  | prefill rows => exact prefillConvWithState_eq hwide state hp
  | decode row =>
    rw [runPiece, decodeConvInplace_eq hwide]
    rfl
  | verify rows accepted =>
    obtain ⟨hrows, haccepted⟩ := hp
    dsimp only [runPiece, Piece.committed]
    rw [specConv_eq state hrows, ← outputs_take]
    by_cases hnone : accepted = 0
    · subst hnone
      rw [take_zero]
      exact congrArg (fun s => Except.ok ([], s)) (advance_nil state).symm
    · simp only [if_neg hnone]
      change (L.commit rows.length accepted _ state >>= fun after => Except.ok (_, after)) = _
      rw [commit_eq (Nat.pos_of_ne_zero hnone) haccepted]
      rfl

/-- A run from any state gives what the state gives on all committed columns at once. -/
theorem runPieces_eq (hwide : 0 < L.stateLen) (state : L.ConvState) {ps : List L.Piece} (hps : ∀ p ∈ ps, p.Ok) :
    L.runPieces state ps =
      .ok (L.outputs state (ps.flatMap Piece.committed), L.advance state (ps.flatMap Piece.committed)) := by
  induction ps generalizing state with
  | nil => rw [flatMap_nil, outputs_nil, advance_nil, runPieces]; rfl
  | cons p ps ih =>
    rw [runPieces, runPiece_eq hwide state (hps p mem_cons_self), flatMap_cons, outputs_append,
      advance_append]
    change (do
      let (later, state) ← L.runPieces (L.advance state p.committed) ps
      return (L.outputs _ p.committed ++ later, state)) = _
    rw [ih _ fun q hq => hps q (mem_cons_of_mem _ hq)]
    rfl

theorem outputs_zeroState (xs : List L.Column) : L.outputs L.zeroState xs = L.causalConv xs := by
  have hlen : (L.zeroState.1 ++ xs).length - L.stateLen = xs.length := by
    rw [length_append, L.zeroState.2, Nat.add_sub_cancel_left]
  rw [outputs, slide, hlen, causalConv]
  apply map_congr_left
  intro t _
  funext c
  refine congrArg L.silu (foldl_ext _ _ _ fun acc k hk => ?_)
  rw [past_eq xs (mem_range.mp hk)]

/-- However a sequence is cut into pieces, its columns are convolved as one sequence. -/
theorem cut_conv_exact (L : PleLayer R) (hkernel : 2 ≤ L.convKernel) (ps : List L.Piece) (hps : ∀ p ∈ ps, p.Ok) :
    ∃ state, L.runPieces L.zeroState ps = .ok (L.causalConv (ps.flatMap Piece.committed), state) ∧
      state.1 = L.causalState (ps.flatMap Piece.committed) := by
  have hwide : 0 < L.stateLen := Nat.mul_pos (by omega) L.dilation_pos
  exact ⟨_, by rw [runPieces_eq hwide _ hps, outputs_zeroState], advance_zeroState _⟩

theorem four_pos : 0 < 4 := by decide

theorem three_pos : 0 < 3 := by decide

def built : PleLayer ℤ where
  channels := 2
  convKernel := 4
  convDilation := 3
  convWeight c k := c + k + 1
  silu x := x
  kernel_pos := four_pos
  dilation_pos := three_pos

/-- A chunk, a step and a block with a rejected row. -/
def mixedPieces : List built.Piece :=
  [.prefill [fun _ => 1, fun _ => 2], .decode fun _ => 3, .verify [fun _ => 4, fun _ => 5] 1]

theorem cut_conv_exact_built :
    ∃ state, built.runPieces built.zeroState mixedPieces =
      .ok (built.causalConv (mixedPieces.flatMap Piece.committed), state) ∧
        state.1 = built.causalState (mixedPieces.flatMap Piece.committed) :=
  cut_conv_exact built (by decide) mixedPieces (by
    intro p hp
    simp only [mixedPieces, mem_cons, not_mem_nil, or_false] at hp
    obtain rfl | rfl | rfl := hp
    · exact cons_ne_nil _ _
    · trivial
    · exact ⟨cons_ne_nil _ _, by decide⟩)

def pointwise : PleLayer ℤ := { built with convKernel := 1, kernel_pos := Nat.one_pos }

/-- A layer without history cannot convolve the front of a chunk again, and no layer takes an empty chunk. -/
theorem prefill_refused :
    pointwise.runPieces pointwise.zeroState [.prefill [fun _ => 1]] = .error (.inputTooShort 0 1) ∧
      built.runPieces built.zeroState [.prefill []] =
        .error (.valueError "PLE stateful prefill expects non-empty [T,C], got (0, 2)") :=
  ⟨rfl, rfl⟩

end PleLayer

end FlashNext.PleConv
