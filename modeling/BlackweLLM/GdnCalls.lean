import BlackweLLM.GdnPaths

/-!
# What every call on the layer does

Each call advances the machine over its tokens with the reading of its path.
-/

namespace GdnLayer

open List SlidingWindow

theorem zipWith_map_self {α β γ : Type} (f : α → β → γ) (g : α → β) (rows : List α) :
    zipWith f rows (rows.map g) = rows.map fun row => f row (g row) := by
  induction rows with
  | nil => rfl
  | cons row rows ih => rw [map_cons, zipWith_cons_cons, ih, map_cons]

theorem zipWith_map_map {α β β' γ : Type} (f : β → β' → γ) (g : α → β) (g' : α → β') (rows : List α) :
    zipWith f (rows.map g) (rows.map g') = rows.map fun row => f (g row) (g' row) := by
  rw [zipWith_map_left, zipWith_map_self]

variable {α : Type}

/-- Rows of one width are cut apart again at the multiples of it. -/
theorem drop_flatten {rows : List (List α)} {width : ℕ} (hrows : ∀ row ∈ rows, row.length = width)
    {i : ℕ} {row : List α} (hi : rows[i]? = some row) : (rows.flatten.drop (i * width)).take width = row := by
  induction rows generalizing i with
  | nil => cases hi
  | cons first rows ih =>
    have hfirst := hrows first mem_cons_self
    rw [flatten_cons]
    cases i with
    | zero =>
      obtain rfl : first = row := Option.some.inj hi
      rw [Nat.zero_mul, drop_zero, take_left' hfirst]
    | succ i =>
      rw [Nat.succ_mul, Nat.add_comm, ← drop_drop, drop_left' hfirst]
      exact ih (fun r hr => hrows r (mem_cons_of_mem _ hr)) hi

theorem map_middle {α β : Type} (f : α → β) (before after : List α) (row : α) :
    ((before ++ row :: after).map f)[before.length]? = some (f row) := by
  rw [getElem?_map, getElem?_append_right (Nat.le_refl _), Nat.sub_self]
  rfl

namespace Weights

variable {C : GdnConfig} {R S X Y : Type} [Zero R] [Add R] [Mul R] [InvolutiveNeg R] (W : Weights C R S X Y)

section Readings

/-- A single token of `forward`, whose kernel finds the heads itself. -/
def tokenReading : Reading R := ⟨true, false, false, W.decayScale⟩

def chunkReading (rt : Runtime) : Reading R :=
  ⟨!(rt.vllmPrefillPrep && rt.isCuda), rt.vllmPrefillPrep && rt.isCuda, true, W.decayScale⟩

def flashinferReading (rt : Runtime) : Reading R := ⟨false, rt.vllmPrefillPrep && rt.isCuda, false, W.decayScale⟩

def prefillReading (rt : Runtime) (useFlashinfer : Bool) : Reading R :=
  if useFlashinfer then W.flashinferReading rt else W.chunkReading rt

def decodeReading (useFlashinferDecode : Bool) : Reading R :=
  ⟨true, false, true, if useFlashinferDecode then W.flashinferDecodeScale else W.decayScale⟩

def specReading (rt : Runtime) (store : SpecStore) (fp32 batchLargeProjections : Bool) : Reading R :=
  ⟨true, false, !fp32, W.specScale rt store fp32 batchLargeProjections⟩

end Readings

def stateAfter (ρ : Reading R) (start : List (List R) × List S) (xs : List X) : GdnLayerState R S :=
  let after := (Cascade.run (W.tokenStep ρ) start xs).1
  ⟨after.1, after.2, true⟩

def outputsAfter (ρ : Reading R) (start : List (List R) × List S) (xs : List X) : List Y :=
  (Cascade.run (W.tokenStep ρ) start xs).2

/-- The state a call may find. -/
structure Live (state : GdnLayerState R S) : Prop where
  window : state.convState.length = C.convKernelSize
  first : state.hasPreviousState = false → state = W.newState

variable {W} {rt : Runtime} {state : GdnLayerState R S} {xs : List X}

section

variable (ρ : Reading R) {window : List (List R)} (hw : window.length = C.convKernelSize) (start : List S) (xs : List X)
include hw

theorem stateAfter_eq : W.stateAfter ρ (window, start) xs = ⟨W.windowAfter window xs,
        (W.kernel ρ.normed start (zipWith (ρ.position W) xs (W.convolved window xs))).1, true⟩ := by
  rw [stateAfter, run_tokenStep ρ hw]

theorem outputsAfter_eq : W.outputsAfter ρ (window, start) xs = zipWith W.output xs
        (W.kernel ρ.normed start (zipWith (ρ.position W) xs (W.convolved window xs))).2 := by
  rw [outputsAfter, run_tokenStep ρ hw]

end

/-- What a chunk convolves, first or not. -/
theorem convExtend_eq (hlive : W.Live state) (hxs : xs ≠ []) :
    W.convExtend state.hasPreviousState state.convState (xs.map W.mixedQkv) =
      (W.convolved state.convState xs, W.windowAfter state.convState xs) := by
  cases hprev : state.hasPreviousState with
  | true => exact convExtend_next hlive.window hxs
  | false =>
    rw [hlive.first hprev]
    exact convExtend_first _

omit [Add R] [Mul R] in
theorem initialState_eq (hlive : W.Live state) :
    (if state.hasPreviousState then state.recurrentState else W.zeroRecurrent) = state.recurrentState := by
  cases hprev : state.hasPreviousState with
  | true => rfl
  | false =>
    rw [hlive.first hprev]
    rfl

theorem forward_eq (hlive : W.Live state) (hxs : xs ≠ []) :
    W.forward rt xs state =
      let ρ := if state.hasPreviousState && xs.length == 1 then W.tokenReading else W.chunkReading rt
      (W.outputsAfter ρ (state.convState, state.recurrentState) xs,
        W.stateAfter ρ (state.convState, state.recurrentState) xs) := by
  dsimp only
  rw [outputsAfter_eq _ hlive.window, stateAfter_eq _ hlive.window, forward]
  split
  case isTrue =>
    dsimp only
    rw [convContinue_eq hlive.window hxs, lastColumns_window hlive.window]
    rfl
  case isFalse =>
    rw [convExtend_eq hlive hxs, initialState_eq hlive]
    simp only [expand_guard]
    rw [positions_eq]
    rfl

def prefillRow (hasPreviousState : Bool) (ρ : Reading R) {seqLen : ℕ} (row : Row R S X seqLen) (start : List S) :
    List Y × GdnLayerState R S :=
  let conv := W.convExtend hasPreviousState row.convState (row.hiddenStates.map W.mixedQkv)
  let core := W.kernel ρ.normed start (zipWith (ρ.position W) row.hiddenStates conv.1)
  (zipWith W.output row.hiddenStates core.2, ⟨conv.2, core.1, true⟩)

omit [Zero R] [Add R] [Mul R] in
/-- The flattened kernel reads every row for itself. -/
theorem flashinferPrefill_eq {seqLen : ℕ} (rows : List α) (query : α → List (Position R))
    (start : α → List S) (hlen : ∀ row ∈ rows, (query row).length = seqLen) :
    W.flashinferPrefill seqLen (rows.map query) (rows.map start) =
      rows.map fun row => W.kernel false (start row) (query row) := by
  apply ext_getElem?
  intro i
  rw [flashinferPrefill, getElem?_mapIdx, getElem?_map, getElem?_map]
  cases hi : rows[i]? with
  | none => rfl
  | some row =>
    have hcut : ((rows.map query).flatten.drop (i * seqLen)).take seqLen = query row := by
      apply drop_flatten
      · intro ps hps
        obtain ⟨r, hr, rfl⟩ := mem_map.mp hps
        exact hlen r hr
      · rw [getElem?_map, hi]
        rfl
    have hwidth : (i + 1) * seqLen - i * seqLen = seqLen := by rw [Nat.succ_mul, Nat.add_sub_cancel_left]
    rw [Option.map_some, Option.map_some, Option.map_some]
    simp only [hwidth, hcut]

/-- The positions of a row as a path hands them to its kernel. -/
def arrangeAll (C : GdnConfig) (W : Weights C R S X Y) (ρ : Reading R) (ps : List (Position R)) : List (Position R) :=
  let ps := if ρ.prepared then ps.map W.prefillL2norm else ps
  if ρ.expanded then ps.map (expandGdnQueryKeyHeads (C := C)) else ps

omit [Zero R] [Add R] [Mul R] in
theorem runPrefillCore_eq {useFlashinfer : Bool} (hbackend : flashinferGdnPrefillEnabled rt = .ok useFlashinfer)
    {seqLen : ℕ} (hasPreviousState : Bool) (rows : List α) (ps : α → List (Position R))
    (start : α → List S) (hlen : ∀ row ∈ rows, (ps row).length = seqLen) :
    W.runPrefillCore rt seqLen hasPreviousState (rows.map fun row => (ps row, start row)) =
      .ok (rows.map fun row =>
        W.kernel (W.prefillReading rt useFlashinfer).normed
          (if useFlashinfer || hasPreviousState then start row else W.zeroRecurrent)
          (arrangeAll C W (W.prefillReading rt useFlashinfer) (ps row))) := by
  rw [runPrefillCore, hbackend]
  cases useFlashinfer with
  | true =>
    have hquery : ∀ row ∈ rows, (if rt.vllmPrefillPrep && rt.isCuda then (ps row).map W.prefillL2norm
        else ps row).length = seqLen := by
      intro row hrow
      split
      · rw [length_map, hlen row hrow]
      · exact hlen row hrow
    change Except.ok (W.flashinferPrefill seqLen (List.map _ (rows.map _)) (List.map _ (rows.map _))) = _
    rw [map_map, map_map]
    exact congrArg Except.ok (flashinferPrefill_eq rows _ _ hquery)
  | false =>
    change Except.ok (zipWith _ (List.map _ (rows.map _)) (List.map _ (rows.map _))) = _
    rw [map_map, map_map, zipWith_map_map]
    simp only [expand_guard]
    rfl

theorem length_convExtend (hasPreviousState : Bool) (convState : List (List R)) {columns : List (List R)}
    (hcolumns : 0 < columns.length) :
    (W.convExtend hasPreviousState convState columns).1.length = columns.length := by
  have hcausal : ∀ ys : List (List R), (W.conv1dCausal ys).length = ys.length := by
    intro ys
    rw [conv1dCausal_eq, slide_length, length_append, length_replicate, Nat.add_sub_cancel_left]
  cases hasPreviousState with
  | true =>
    change (lastColumns columns.length (W.conv1dCausal (convState ++ columns))).length = _
    rw [lastColumns_eq_drop hcolumns, length_drop, hcausal, length_append]
    omega
  | false => exact hcausal columns

theorem prefillBatch_eq {useFlashinfer : Bool} (hbackend : flashinferGdnPrefillEnabled rt = .ok useFlashinfer)
    {seqLen : ℕ} (hseq : 0 < seqLen) (hasPreviousState : Bool) (rows : List (Row R S X seqLen)) :
    W.prefillBatch rt hasPreviousState rows = .ok (rows.map fun row =>
      W.prefillRow hasPreviousState (W.prefillReading rt useFlashinfer) row
        (if useFlashinfer || hasPreviousState then row.recurrentState else W.zeroRecurrent)) := by
  have hscale : (W.prefillReading rt useFlashinfer).scale = W.decayScale := by
    cases useFlashinfer <;> rfl
  have hlen : ∀ row ∈ rows, (zipWith (W.position W.decayScale) row.hiddenStates
      (W.convExtend hasPreviousState row.convState (row.hiddenStates.map W.mixedQkv)).1).length = seqLen := by
    intro row _
    have hmixed : (row.hiddenStates.map W.mixedQkv).length = seqLen := by rw [length_map, row.length_eq]
    rw [length_zipWith, length_convExtend _ _ (by rw [hmixed]; exact hseq), hmixed, row.length_eq, min_self]
  rw [prefillBatch]
  simp only [zipWith_map_self]
  rw [runPrefillCore_eq hbackend hasPreviousState rows _ _ hlen]
  change Except.ok _ = _
  rw [zip_map', zipWith_map_self]
  simp only [prefillRow, positions_eq, hscale]
  rfl

theorem prefillRow_eq (hlive : W.Live state) (hxs : xs ≠ []) (useFlashinfer : Bool) :
    W.prefillRow state.hasPreviousState (W.prefillReading rt useFlashinfer)
        (⟨xs, state.convState, state.recurrentState, rfl⟩ : Row R S X xs.length)
        (if useFlashinfer || state.hasPreviousState then state.recurrentState else W.zeroRecurrent) =
      (W.outputsAfter (W.prefillReading rt useFlashinfer) (state.convState, state.recurrentState) xs,
        W.stateAfter (W.prefillReading rt useFlashinfer) (state.convState, state.recurrentState) xs) := by
  have hstart : (if useFlashinfer || state.hasPreviousState then state.recurrentState else W.zeroRecurrent) =
      state.recurrentState := by
    cases useFlashinfer with
    | true => rfl
    | false => exact initialState_eq hlive
  rw [hstart, outputsAfter_eq _ hlive.window, stateAfter_eq _ hlive.window]
  dsimp only [prefillRow]
  rw [convExtend_eq hlive hxs]

theorem decodeBatch_eq {useFlashinferDecode : Bool}
    (hbackend : flashinferGdnDecodeEnabled C rt = .ok useFlashinferDecode)
    (hnegative : useFlashinferDecode = true → ∀ h < C.numVHeads, W.nonneg (W.aLog h) = false)
    (rows : List (Row R S X 1)) :
    W.decodeBatch rt rows = .ok (rows.map fun row =>
      let columns := W.convContinue row.convState (row.hiddenStates.map W.mixedQkv)
      let ρ := W.decodeReading useFlashinferDecode
      let core := W.kernel true row.recurrentState (zipWith (ρ.position W) row.hiddenStates columns)
      (zipWith W.output row.hiddenStates core.2,
        lastColumns row.convState.length (row.convState ++ row.hiddenStates.map W.mixedQkv), core.1)) := by
  have hguard : ¬ (useFlashinferDecode &&
      !(range C.numVHeads).all fun h => !W.nonneg (W.aLog h)) = true := by
    simp only [Bool.and_eq_true, Bool.not_eq_true', not_and, Bool.not_eq_false, all_eq_true, mem_range]
    intro huse h hh
    rw [hnegative huse h hh]
  rw [decodeBatch, hbackend]
  change (if _ then _ else _) = _
  rw [if_neg hguard]
  simp only [expand_guard, positions_eq]
  rfl

theorem decodeRow_eq (hlive : W.Live state) (useFlashinferDecode : Bool) (x : X) :
    (let columns := W.convContinue state.convState ([x].map W.mixedQkv)
      let ρ := W.decodeReading useFlashinferDecode
      let core := W.kernel true state.recurrentState (zipWith (ρ.position W) [x] columns)
      (⟨zipWith W.output [x] core.2, [],
        ⟨lastColumns state.convState.length (state.convState ++ [x].map W.mixedQkv), core.1, true⟩⟩ :
          CallResult R S Y)) =
      ⟨W.outputsAfter (W.decodeReading useFlashinferDecode) (state.convState, state.recurrentState) [x], [],
        W.stateAfter (W.decodeReading useFlashinferDecode) (state.convState, state.recurrentState) [x]⟩ := by
  rw [outputsAfter_eq _ hlive.window, stateAfter_eq _ hlive.window]
  dsimp only
  rw [convContinue_eq hlive.window (cons_ne_nil x []), lastColumns_window hlive.window]
  rfl

section Spec

variable {store : SpecStore} {fp32 batchLargeProjections : Bool} {seqLen : ℕ} {window : List (List R)}

theorem convolved_take (hw : window.length = C.convKernelSize) (xs : List X) (j : ℕ) :
    (W.convolved window xs).take j = W.convolved window (xs.take j) := by
  have hpos := C.convKernelSize_pos
  have hcut : ((window ++ xs.map W.mixedQkv).drop 1).take (j + (C.convKernelSize - 1)) =
      (window ++ (xs.take j).map W.mixedQkv).drop 1 := by
    rw [drop_append_of_le_length (by omega), drop_append_of_le_length (by omega), take_append,
      length_drop, hw, Nat.add_sub_cancel, take_of_length_le (by rw [length_drop]; omega),
      map_take]
  rw [convolved, slide_take, hcut, convolved]

omit [Zero R] [Add R] [Mul R] in
theorem windowAfter_take (hw : window.length = C.convKernelSize) {xs : List X} {j : ℕ} (hj : j ≤ xs.length) :
    ((window ++ xs.map W.mixedQkv).drop j).take window.length = W.windowAfter window (xs.take j) := by
  have hlen : (window ++ (xs.take j).map W.mixedQkv).length - C.convKernelSize = j := by
    rw [length_append, length_map, length_take, min_eq_left hj, hw, Nat.add_sub_cancel_left]
  have hcut : (window ++ xs.map W.mixedQkv).take (window.length + j) = window ++ (xs.take j).map W.mixedQkv := by
    rw [take_append, take_of_length_le (by omega), Nat.add_sub_cancel_left, map_take]
  rw [windowAfter, rtake, hlen, ← hcut, drop_take, Nat.add_sub_cancel]

/-- Column `j` of a verify block holds the state behind its first `j` tokens. -/
theorem snapshot_eq (ρ : Reading R) (hw : window.length = C.convKernelSize)
    (start : List S) {xs : List X} {j : ℕ} (hj : j ≤ xs.length) :
    (⟨((window ++ xs.map W.mixedQkv).drop j).take window.length,
      (start :: Cascade.scan (W.kernelStep ρ.normed) start
        (zipWith (ρ.position W) xs (W.convolved window xs))).getD j start, true⟩ : GdnLayerState R S) =
      W.stateAfter ρ (window, start) (xs.take j) := by
  rw [stateAfter_eq ρ hw, windowAfter_take hw hj, ← convolved_take hw, ← take_zipWith, kernel]
  cases j with
  | zero => rfl
  | succ j =>
    have hcolumns := length_convolved (W := W) hw xs
    have hpositions : j < (zipWith (ρ.position W) xs (W.convolved window xs)).length := by
      rw [length_zipWith, hcolumns]
      omega
    rw [getD_cons_succ, getD_eq_getElem?_getD, getElem?_eq_getElem (by rwa [Cascade.scan_length]),
      Option.getD_some, Cascade.scan_getElem _ _ _ hpositions]

variable (row : SpecRow R S X seqLen)

theorem specRow_eq (hw : row.convState.length = C.convKernelSize) (hseq : 0 < seqLen) :
    W.specRow rt store fp32 batchLargeProjections row =
      let ρ := W.specReading rt store fp32 batchLargeProjections
      let start := (row.convState, specSource rt store fp32 row)
      (W.outputsAfter ρ start row.hiddenStates,
        match store with
        | .snapshots => (range (seqLen + 1)).map fun j => W.stateAfter ρ start (row.hiddenStates.take j)
        | .rows => (range seqLen).map fun j => W.stateAfter ρ start (row.hiddenStates.take (j + 1))
        | .indexed => (range seqLen).map fun j => W.stateAfter ρ start (row.hiddenStates.take (j + 1))) := by
  have hxs : row.hiddenStates ≠ [] := length_pos_iff.mp (by rw [row.length_eq]; exact hseq)
  have hpositions : (if 1 < C.headRepeat && !fp32 then
        (zipWith (W.position (W.specScale rt store fp32 batchLargeProjections)) row.hiddenStates
          (W.convolved row.convState row.hiddenStates)).map (expandGdnQueryKeyHeads (C := C))
      else zipWith (W.position (W.specScale rt store fp32 batchLargeProjections)) row.hiddenStates
        (W.convolved row.convState row.hiddenStates)) =
      zipWith ((W.specReading rt store fp32 batchLargeProjections).position W) row.hiddenStates
        (W.convolved row.convState row.hiddenStates) := by
    rw [positions_eq]
    cases fp32 with
    | true => simp [specReading]
    | false =>
      simp only [Bool.not_false, Bool.and_true, decide_eq_true_eq, expand_guard]
      rfl
  have hin : ∀ j ≤ seqLen, j ≤ row.hiddenStates.length := fun j hj => by rw [row.length_eq]; exact hj
  have hall : ∀ j ∈ range (seqLen + 1), j ≤ row.hiddenStates.length := fun j hj =>
    hin j (Nat.le_of_lt_succ (mem_range.mp hj))
  have hlate : ∀ j ∈ range seqLen, j + 1 ≤ row.hiddenStates.length := fun j hj =>
    hin (j + 1) (mem_range.mp hj)
  dsimp only [specRow]
  rw [convContinue_eq hw hxs, hpositions, outputsAfter_eq _ hw]
  cases store with
  | snapshots =>
    exact Prod.ext rfl (map_congr_left fun j hj =>
      snapshot_eq (W.specReading rt .snapshots fp32 batchLargeProjections) hw _ (hall j hj))
  | rows =>
    exact Prod.ext rfl (map_congr_left fun j hj =>
      snapshot_eq (W.specReading rt .rows fp32 batchLargeProjections) hw _ (hlate j hj))
  | indexed =>
    exact Prod.ext rfl (map_congr_left fun j hj =>
      snapshot_eq (W.specReading rt .indexed fp32 batchLargeProjections) hw _ (hlate j hj))

end Spec

end Weights

section Calls

variable {C : GdnConfig} {R S X Y : Type} [Zero R] [Add R] [Mul R] [InvolutiveNeg R] (W : Weights C R S X Y)

/-- A switch as it was decided; a refusal ends the call. -/
def decided : Except GdnError Bool → Bool
  | .ok use => use
  | .error _ => false

def Piece.reading (rt : Runtime) (hasPreviousState : Bool) : Piece R S X → Weights.Reading R
  | .forward tokens => if hasPreviousState && tokens.length == 1 then W.tokenReading else W.chunkReading rt
  | .prefillBatch _ _ _ => W.prefillReading rt (decided (flashinferGdnPrefillEnabled rt))
  | .decodeBatch _ _ _ => W.decodeReading (decided (flashinferGdnDecodeEnabled C rt))
  | .spec _ _ store fp32 batchLargeProjections _ _ _ => W.specReading rt store fp32 batchLargeProjections

def Piece.start (rt : Runtime) (state : GdnLayerState R S) : Piece R S X → List S
  | .forward _ => state.recurrentState
  | .prefillBatch _ _ _ => state.recurrentState
  | .decodeBatch _ _ _ => state.recurrentState
  | .spec _ _ store fp32 _ recurrentRows _ _ =>
    if store = .indexed ∧ ¬ (!fp32 && (rt.isCuda && rt.dtype == .bfloat16)) = true then recurrentRows
    else state.recurrentState

/-- The positions whose columns a call stores. -/
def Piece.columns : Piece R S X → List ℕ
  | .forward _ => []
  | .prefillBatch _ _ _ => []
  | .decodeBatch _ _ _ => []
  | .spec tokens _ _ _ _ _ _ _ => range tokens.length

/-- What the checks of a call ask of it. -/
def Piece.Ready (rt : Runtime) (hasPreviousState : Bool) : Piece R S X → Prop
  | .forward tokens => tokens ≠ []
  | .prefillBatch tokens _ _ => tokens ≠ [] ∧ ∃ use, flashinferGdnPrefillEnabled rt = .ok use
  | .decodeBatch _ _ _ => hasPreviousState = true ∧ ∃ use, flashinferGdnDecodeEnabled C rt = .ok use ∧
      (use = true → ∀ h < C.numVHeads, W.nonneg (W.aLog h) = false)
  | .spec tokens accepted store fp32 _ _ before after =>
    hasPreviousState = true ∧ tokens ≠ [] ∧ accepted ≤ tokens.length ∧
      (store = .snapshots → before = [] ∧ after = [] ∧ fp32 = false) ∧
      (fp32 = true → rt.stateDtype = .float32 ∧ rt.dtype = .bfloat16)

variable {W} {rt : Runtime} {state : GdnLayerState R S}

open Weights

theorem specForward_eq {store : SpecStore} {fp32 : Bool} (batchLargeProjections : Bool) {seqLen : ℕ}
    (rows : List (SpecRow R S X seqLen)) (halone : store = .snapshots → rows.length = 1 ∧ fp32 = false)
    (htypes : fp32 = true → rt.stateDtype = .float32 ∧ rt.dtype = .bfloat16) :
    W.specForward rt store fp32 batchLargeProjections true rows =
      .ok (rows.map (W.specRow rt store fp32 batchLargeProjections)) := by
  have hone : ¬ (store = .snapshots ∧ rows.length ≠ 1) := fun h => h.2 (halone h.1).1
  rw [specForward, if_neg hone, if_neg (by decide)]
  cases fp32 with
  | false => rfl
  | true =>
    obtain ⟨hstate, hquery⟩ := htypes rfl
    have hstore : store ≠ .snapshots := fun h => absurd (halone h).2 (by decide)
    rw [hstate, hquery]
    cases store with
    | snapshots => exact absurd rfl hstore
    | rows => rfl
    | indexed => rfl

theorem isEmpty_of_ne {xs : List α} (h : xs ≠ []) : xs.isEmpty = false :=
  isEmpty_eq_false_iff.mpr h

theorem map_range_getD (f : ℕ → α) {n i : ℕ} (hi : i < n) (d : α) : ((range n).map f).getD i d = f i := by
  rw [getD_eq_getElem?_getD, getElem?_map, getElem?_range hi]
  rfl

def stored (store : SpecStore) (tokens : List X) (after : List X → GdnLayerState R S) : List (GdnLayerState R S) :=
  match store with
  | .snapshots => (range (tokens.length + 1)).map fun j => after (tokens.take j)
  | .rows => (range tokens.length).map fun j => after (tokens.take (j + 1))
  | .indexed => (range tokens.length).map fun j => after (tokens.take (j + 1))

variable {tokens : List X}

omit [Zero R] [Add R] [Mul R] [InvolutiveNeg R] in
theorem stored_column (store : SpecStore) (after : List X → GdnLayerState R S) {j : ℕ}
    (hj : j < tokens.length) (d : GdnLayerState R S) :
    (stored store tokens after).getD (store.column j) d = after (tokens.take (j + 1)) := by
  cases store with
  | snapshots => exact map_range_getD _ (Nat.succ_lt_succ hj) d
  | rows => exact map_range_getD _ hj d
  | indexed => exact map_range_getD _ hj d

theorem take_isEmpty (htokens : tokens ≠ []) (accepted : ℕ) :
    (tokens.take accepted).isEmpty = decide (accepted = 0) := by
  rw [Bool.eq_iff_iff, List.isEmpty_iff, take_eq_nil_iff, decide_eq_true_eq]
  exact or_iff_left htokens

section

omit [Zero R] [Add R] [Mul R] [InvolutiveNeg R]

theorem state_flagged {after : GdnLayerState R S} (h : after.hasPreviousState = true) :
    (⟨after.convState, after.recurrentState, true⟩ : GdnLayerState R S) = after := by
  cases after
  cases h
  rfl

/-- The commit of a verify block moves to the state behind the accepted tokens. -/
theorem spec_commit {store : SpecStore} {after : List X → GdnLayerState R S} {accepted : ℕ}
    (htokens : tokens ≠ []) (haccepted : accepted ≤ tokens.length)
    (hflag : ∀ xs, (after xs).hasPreviousState = true) (hnone : store = .snapshots → after [] = state) :
    commitBlock state store (stored store tokens after)
      ((range tokens.length).map fun j => after (tokens.take (j + 1))) accepted =
        Except.ok (if (tokens.take accepted).isEmpty then state else after (tokens.take accepted)) := by
  rw [take_isEmpty htokens, commitBlock]
  by_cases hsnap : store = .snapshots
  · have hin : accepted < tokens.length + 1 := Nat.lt_succ_of_le haccepted
    have hchosen : (stored store tokens after).getD accepted state = after (tokens.take accepted) := by
      rw [hsnap]
      exact map_range_getD _ hin state
    have hlen : (stored store tokens after).length = tokens.length + 1 := by
      rw [hsnap, stored, length_map, length_range]
    rw [if_pos hsnap, commitSpecSnapshot, hlen, if_pos hin, hchosen]
    by_cases hzero : accepted = 0
    · subst hzero
      rw [take_zero, hnone hsnap, ← hnone hsnap]
      simp only [decide_true, if_true, state_flagged (hflag [])]
    · simp only [decide_eq_true_eq, if_neg hzero, state_flagged (hflag (tokens.take accepted))]
  · rw [if_neg hsnap]
    by_cases hzero : accepted = 0
    · simp [hzero]
    · rw [if_neg hzero, map_range_getD _ (by omega), Nat.sub_add_cancel (Nat.pos_of_ne_zero hzero)]
      simp only [decide_eq_true_eq, if_neg hzero]

end

/-- One call advances the machine over its tokens. -/
theorem runPiece_eq (hlive : W.Live state) {p : Piece R S X} (hready : p.Ready W rt state.hasPreviousState) :
    runPiece W rt state p =
      let ρ := p.reading W rt state.hasPreviousState
      let start := (state.convState, p.start rt state)
      .ok ⟨W.outputsAfter ρ start p.tokens, p.columns.map fun j => W.stateAfter ρ start (p.tokens.take (j + 1)),
        if p.committed.isEmpty then state else W.stateAfter ρ start p.committed⟩ := by
  cases p with
  | forward tokens =>
    have hfull : (Piece.forward tokens : Piece R S X).committed.isEmpty = false := isEmpty_of_ne hready
    rw [runPiece, forward_eq hlive hready, hfull]
    rfl
  | prefillBatch tokens before after =>
    obtain ⟨htokens, use, huse⟩ := hready
    have hfull : (Piece.prefillBatch tokens before after).committed.isEmpty = false := isEmpty_of_ne htokens
    rw [runPiece, prefillBatch_eq huse (length_pos_iff.mpr htokens), hfull]
    change Except.ok _ = _
    rw [map_middle]
    dsimp only
    rw [prefillRow_eq hlive htokens]
    simp only [Piece.reading, huse, decided]
    rfl
  | decodeBatch token before after =>
    obtain ⟨hprev, use, huse, hnegative⟩ := hready
    rw [runPiece, decodeBatch_eq huse hnegative]
    change Except.ok _ = _
    rw [map_middle, hprev]
    refine congrArg Except.ok ((decodeRow_eq hlive use token).trans ?_)
    simp only [Piece.reading, huse, decided]
    rfl
  | spec tokens accepted store fp32 large recurrentRows before after =>
    obtain ⟨hprev, htokens, haccepted, halone, htypes⟩ := hready
    have hone : store = .snapshots → (before ++ (⟨tokens, state.convState,
        if store = .indexed then recurrentRows else state.recurrentState, state.recurrentState, rfl⟩ :
          SpecRow R S X tokens.length) :: after).length = 1 ∧ fp32 = false := by
      intro hsnap
      obtain ⟨rfl, rfl, hfp⟩ := halone hsnap
      exact ⟨rfl, hfp⟩
    have hstart : specSource rt store fp32 (⟨tokens, state.convState,
        if store = .indexed then recurrentRows else state.recurrentState, state.recurrentState, rfl⟩ :
          SpecRow R S X tokens.length) =
        (Piece.spec tokens accepted store fp32 large recurrentRows before after).start rt state := by
      dsimp only [specSource, Piece.start]
      cases !fp32 && (rt.isCuda && rt.dtype == .bfloat16) with
      | false => cases store <;> simp
      | true => cases store <;> simp
    have hrow : W.specRow rt store fp32 large (⟨tokens, state.convState,
        if store = .indexed then recurrentRows else state.recurrentState, state.recurrentState, rfl⟩ :
          SpecRow R S X tokens.length) =
        (W.outputsAfter (W.specReading rt store fp32 large) (state.convState,
            (Piece.spec tokens accepted store fp32 large recurrentRows before after).start rt state) tokens,
          stored store tokens (W.stateAfter (W.specReading rt store fp32 large) (state.convState,
            (Piece.spec tokens accepted store fp32 large recurrentRows before after).start rt state))) := by
      rw [← hstart]
      exact specRow_eq _ hlive.window (length_pos_iff.mpr htokens)
    rw [runPiece, hprev, specForward_eq large _ hone htypes]
    change Except.bind (Except.ok _) _ = _
    dsimp only [Except.bind]
    rw [getD_eq_getElem?_getD, map_middle, hrow]
    have hflag : ∀ xs, (W.stateAfter (W.specReading rt store fp32 large) (state.convState,
        (Piece.spec tokens accepted store fp32 large recurrentRows before after).start rt state)
        xs).hasPreviousState = true := fun _ => rfl
    have hnone : store = .snapshots → W.stateAfter (W.specReading rt store fp32 large) (state.convState,
        (Piece.spec tokens accepted store fp32 large recurrentRows before after).start rt state) [] = state := by
      rintro rfl
      exact state_flagged hprev
    have hcolumns : ((range tokens.length).map fun j => (stored store tokens (W.stateAfter
        (W.specReading rt store fp32 large) (state.convState,
          (Piece.spec tokens accepted store fp32 large recurrentRows before after).start rt state))).getD
        (store.column j) state) = (range tokens.length).map fun j => W.stateAfter
        (W.specReading rt store fp32 large) (state.convState,
          (Piece.spec tokens accepted store fp32 large recurrentRows before after).start rt state)
        (tokens.take (j + 1)) :=
      map_congr_left fun j hj => stored_column store _ (mem_range.mp hj) state
    rw [Option.getD_some]
    dsimp only
    rw [hcolumns, spec_commit htokens haccepted hflag hnone]
    rfl

end Calls

end GdnLayer
