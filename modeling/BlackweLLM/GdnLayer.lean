import BlackweLLM.Cascade
import BlackweLLM.SlidingWindow
import Mathlib.Tactic.Ring

/-!
# The gated delta layer

`Qwen36GatedDeltaNet`: a depthwise causal convolution in front of a recurrence
with one state for each value head. A sequence goes through the layer by
`forward`, `prefill_batch`, `decode_batch` and `spec_forward`, which each carry
the window of the convolution and the recurrent state on in their own way.
-/

namespace GdnLayer

open List SlidingWindow

inductive GdnError where
  | valueError (message : String)
  | typeError (message : String)
  | runtimeError (message : String)
  | assertionError
  deriving DecidableEq, Repr

structure GdnConfig where
  numVHeads : ℕ
  numKHeads : ℕ
  headKDim : ℕ
  headVDim : ℕ
  convKernelSize : ℕ
  ggufScalarFloat32 : Bool
  ggufDirectDecay : Bool
  numVHeads_pos : 0 < numVHeads
  headKDim_pos : 0 < headKDim
  convKernelSize_pos : 0 < convKernelSize
  heads_exact : numVHeads / numKHeads * numKHeads = numVHeads

namespace GdnConfig

variable (C : GdnConfig)

def headRepeat : ℕ := C.numVHeads / C.numKHeads

def keyDim : ℕ := C.headKDim * C.numKHeads

def valueDim : ℕ := C.headVDim * C.numVHeads

def convDim : ℕ := C.keyDim * 2 + C.valueDim

/-- `_expand_gdn_query_key_heads` on the heads of one position. -/
def expandHeads {α : Type} (heads : List α) : List α :=
  if C.headRepeat = 1 then heads
  else if C.ggufDirectDecay then (replicate C.headRepeat heads).flatten
  else heads.flatMap (replicate C.headRepeat)

end GdnConfig

inductive Dtype where
  | float32
  | float16
  | bfloat16
  deriving DecidableEq, Repr

def Dtype.text : Dtype → String
  | .float32 => "torch.float32"
  | .float16 => "torch.float16"
  | .bfloat16 => "torch.bfloat16"

/-- The device and the switches that choose a kernel. -/
structure Runtime where
  isCuda : Bool
  dtype : Dtype
  stateDtype : Dtype
  prefillBackend : String
  decodeBackend : String
  flashinferPrefillLoads : Bool
  flashinferDecodeLoads : Bool
  vllmPrefillPrep : Bool
  fusedGates : Bool

def flashinferGdnPrefillEnabled (rt : Runtime) : Except GdnError Bool :=
  if rt.prefillBackend ∉ ["auto", "flashinfer", "fla"] then
    .error (.valueError (s!"QSR_QWEN36_GDN_PREFILL_BACKEND must be auto, flashinfer, or fla; " ++
      s!"got '{rt.prefillBackend}'"))
  else if rt.prefillBackend = "fla" || !rt.isCuda then .ok false
  else if rt.dtype = .float32 then
    if rt.prefillBackend = "flashinfer" then
      .error (.runtimeError (s!"FlashInfer GDN prefill supports only fp16/bf16, but the query dtype is " ++
        s!"{rt.dtype.text}; set QSR_QWEN36_GDN_PREFILL_BACKEND=fla for F32 GGUF"))
    else .ok false
  else if rt.flashinferPrefillLoads then .ok true
  else if rt.prefillBackend = "flashinfer" then
    .error (.runtimeError "FlashInfer GDN prefill was requested but is unavailable")
  else .ok false

/-- An unknown value counts as `fla`. -/
def gdnDecodeBackend (rt : Runtime) : String :=
  if rt.decodeBackend ∈ ["fla", "flashinfer"] then rt.decodeBackend else "fla"

def flashinferGdnDecodeEnabled (C : GdnConfig) (rt : Runtime) : Except GdnError Bool :=
  if gdnDecodeBackend rt = "fla" then .ok false
  else if !rt.isCuda then .error (.runtimeError "FlashInfer GDN decode requires a CUDA device")
  else if !C.ggufDirectDecay || !C.ggufScalarFloat32 then
    .error (.runtimeError
      "FlashInfer GDN decode is currently wired only for GGUF F32 direct-decay models")
  else if rt.flashinferDecodeLoads then .ok true
  else .error (.runtimeError "FlashInfer GDN decode was requested but is unavailable")

/-- What a layer computes with: its weights, the scalar functions and the step of the recurrence. -/
structure Weights (C : GdnConfig) (R S X Y : Type) [Neg R] where
  projectQkvz : X → List R
  projectBa : X → List R
  convWeight : ℕ → ℕ → R
  dtBias : ℕ → R
  aLog : ℕ → R
  silu : R → R
  softplus : R → R
  sigmoid : R → R
  exp : R → R
  log : R → R
  nonneg : R → Bool
  exp_log : ∀ x, nonneg x = false → exp (log (-x)) = -x
  l2norm : List R → List R
  /-- One value head at one position, from the state, the query, the key, the value, the log decay and beta. -/
  step : S → List R → List R → List R → R → R → S × List R
  zero : S
  norm : List R → List R → List R
  outProj : List (List R) → Y

/-- `conv_state`, its oldest column first, and `recurrent_state`, one state for each value head. -/
structure GdnLayerState (R S : Type) where
  convState : List (List R)
  recurrentState : List S
  hasPreviousState : Bool
  deriving DecidableEq, Repr

/-- One row of a batch with as many tokens as the others. -/
structure Row (R S X : Type) (seqLen : ℕ) where
  hiddenStates : List X
  convState : List (List R)
  recurrentState : List S
  length_eq : hiddenStates.length = seqLen

structure Position (R : Type) where
  query : List (List R)
  key : List (List R)
  value : List (List R)
  g : ℕ → R
  beta : ℕ → R

/-- The slice `[-n:]`, which is everything for `n = 0`. -/
def lastColumns {α : Type} (n : ℕ) (xs : List α) : List α := if n = 0 then xs else xs.rtake n

/-- `reshape(.., n, d)` of the channels of one position. -/
def reshapeHeads {R : Type} (n d : ℕ) (channels : List R) : List (List R) :=
  (range n).map fun h => (channels.drop (h * d)).take d

namespace Weights

variable {C : GdnConfig} {R S X Y : Type} [Zero R] [Add R] [Mul R] [InvolutiveNeg R] (W : Weights C R S X Y)

section Projections

def mixedQkv (x : X) : List R := (W.projectQkvz x).take C.convDim

def z (x : X) : List (List R) := reshapeHeads C.numVHeads C.headVDim ((W.projectQkvz x).drop C.convDim)

def b (x : X) (h : ℕ) : R := ((W.projectBa x).take C.numVHeads).getD h 0

def a (x : X) (h : ℕ) : R := ((W.projectBa x).drop C.numVHeads).getD h 0

def decayScale (h : ℕ) : R := if C.ggufDirectDecay then W.aLog h else -W.exp (W.aLog h)

def g (scale : ℕ → R) (x : X) (h : ℕ) : R := scale h * W.softplus (W.a x h + W.dtBias h)

def beta (x : X) (h : ℕ) : R := W.sigmoid (W.b x h)

def output (x : X) (coreAttnOut : List (List R)) : Y := W.outProj (zipWith W.norm coreAttnOut (W.z x))

end Projections

section Convolution

def zeroColumn : List R := replicate C.convDim 0

/-- One output column of the depthwise convolution with its activation. -/
def tap (window : List (List R)) : List R :=
  (range C.convDim).map fun c => W.silu ((range C.convKernelSize).foldl
    (fun acc k => acc + W.convWeight c k * (window.getD k []).getD c 0) 0)

def conv1dWindow (padding : ℕ) (x : List (List R)) : List (List R) :=
  let zeros := replicate padding (zeroColumn (C := C))
  slide (C.convKernelSize - 1) W.tap (zeros ++ x ++ zeros)

def conv1dCausal (x : List (List R)) : List (List R) :=
  (W.conv1dWindow (C.convKernelSize - 1) x).take x.length

/-- `F.pad(x, (K - L, 0))`, which trims for a negative width. -/
def padLeft (x : List (List R)) : List (List R) :=
  if x.length ≤ C.convKernelSize then
    replicate (C.convKernelSize - x.length) (zeroColumn (C := C)) ++ x
  else x.drop (x.length - C.convKernelSize)

/-- The convolution of a chunk and the window behind it. -/
def convExtend (hasPreviousState : Bool) (convState mixedQkv : List (List R)) : List (List R) × List (List R) :=
  let seqLen := mixedQkv.length
  let mixedQkv := if hasPreviousState then convState ++ mixedQkv else mixedQkv
  let newConvState := padLeft (C := C) mixedQkv
  let mixedQkv := W.conv1dCausal mixedQkv
  (if hasPreviousState then lastColumns seqLen mixedQkv else mixedQkv, newConvState)

/-- The convolution behind a window, for a single token and for a verify block. -/
def convContinue (convState mixedQkv : List (List R)) : List (List R) :=
  lastColumns mixedQkv.length (W.conv1dWindow 0 (convState ++ mixedQkv))

end Convolution

section Kernels

/-- The heads of one convolved column with the gates of its token. -/
def position (scale : ℕ → R) (x : X) (column : List R) : Position R where
  query := reshapeHeads C.numKHeads C.headKDim (column.take C.keyDim)
  key := reshapeHeads C.numKHeads C.headKDim ((column.drop C.keyDim).take C.keyDim)
  value := reshapeHeads C.numVHeads C.headVDim (column.drop (C.keyDim * 2))
  g := W.g scale x
  beta := W.beta x

def expandGdnQueryKeyHeads (p : Position R) : Position R :=
  { p with query := C.expandHeads p.query, key := C.expandHeads p.key }

def prefillL2norm (p : Position R) : Position R :=
  { p with query := p.query.map W.l2norm, key := p.key.map W.l2norm }

/-- A kernel at one position. With fewer key heads than value heads it reads key head `h / (HV / H)`. -/
def kernelStep (useQkL2normInKernel : Bool) (state : List S) (p : Position R) : List S × List (List R) :=
  let groups := C.numVHeads / p.query.length
  let normed := fun head : List R => if useQkL2normInKernel then W.l2norm head else head
  let heads := (range C.numVHeads).map fun h =>
    W.step (state.getD h W.zero) (normed (p.query.getD (h / groups) [])) (normed (p.key.getD (h / groups) []))
      (p.value.getD h []) (p.g h) (p.beta h)
  (heads.map (·.1), heads.map (·.2))

/-- A kernel over a sequence: the state after it and the output of every position. -/
def kernel (useQkL2normInKernel : Bool) (state : List S) (ps : List (Position R)) : List S × List (List (List R)) :=
  Cascade.run (W.kernelStep useQkL2normInKernel) state ps

def zeroRecurrent : List S := replicate C.numVHeads W.zero

end Kernels

def newState : GdnLayerState R S where
  convState := replicate C.convKernelSize (zeroColumn (C := C))
  recurrentState := W.zeroRecurrent
  hasPreviousState := false

/-- One sequence through `forward`: the outputs and the state it leaves. -/
def forward (rt : Runtime) (hiddenStates : List X) (state : GdnLayerState R S) : List Y × GdnLayerState R S :=
  let seqLen := hiddenStates.length
  let mixedQkv := hiddenStates.map W.mixedQkv
  if state.hasPreviousState && seqLen == 1 then
    let catted := state.convState ++ mixedQkv
    let convState := lastColumns state.convState.length catted
    let mixedQkv := W.convContinue state.convState mixedQkv
    let positions := zipWith (W.position W.decayScale) hiddenStates mixedQkv
    let (lastState, coreAttnOut) := W.kernel true state.recurrentState positions
    (zipWith W.output hiddenStates coreAttnOut, ⟨convState, lastState, true⟩)
  else
    let (mixedQkv, convState) := W.convExtend state.hasPreviousState state.convState mixedQkv
    let positions := zipWith (W.position W.decayScale) hiddenStates mixedQkv
    let useVllmPrefillPrep := rt.vllmPrefillPrep && rt.isCuda
    let positions := if useVllmPrefillPrep then positions.map W.prefillL2norm else positions
    let initialState := if state.hasPreviousState then state.recurrentState else W.zeroRecurrent
    let positions := if 1 < C.headRepeat then positions.map (expandGdnQueryKeyHeads (C := C)) else positions
    let (lastState, coreAttnOut) := W.kernel (!useVllmPrefillPrep) initialState positions
    (zipWith W.output hiddenStates coreAttnOut, ⟨convState, lastState, true⟩)

/-- `FlashInferGDNPrefill.run`: the rows are laid end to end, and `cu_seqlens` cuts them apart again. -/
def flashinferPrefill (seqLen : ℕ) (query : List (List (Position R))) (recurrentState : List (List S)) :
    List (List S × List (List (List R))) :=
  let flat := query.flatten
  let cuSeqlens := fun i => i * seqLen
  recurrentState.mapIdx fun i state =>
    W.kernel false state ((flat.drop (cuSeqlens i)).take (cuSeqlens (i + 1) - cuSeqlens i))

/-- `_run_prefill_core` on the convolved rows of a batch. -/
def runPrefillCore (rt : Runtime) (seqLen : ℕ) (hasPreviousState : Bool)
    (rows : List (List (Position R) × List S)) : Except GdnError (List (List S × List (List (List R)))) := do
  let useFlashinfer ← flashinferGdnPrefillEnabled rt
  let useVllmPrefillPrep := rt.vllmPrefillPrep && rt.isCuda
  let query := rows.map fun row => if useVllmPrefillPrep then row.1.map W.prefillL2norm else row.1
  if useFlashinfer then
    -- Without a previous state the rows of the pool are read as they are: admission has zeroed them.
    return W.flashinferPrefill seqLen query (rows.map (·.2))
  else
    let initial := rows.map fun row => if hasPreviousState then row.2 else W.zeroRecurrent
    return zipWith (fun ps state => W.kernel (!useVllmPrefillPrep) state
      (if 1 < C.headRepeat then ps.map (expandGdnQueryKeyHeads (C := C)) else ps)) query initial

/-- `prefill_batch`, whose rows all have a previous state or all have none. -/
def prefillBatch (rt : Runtime) {seqLen : ℕ} (hasPreviousState : Bool) (rows : List (Row R S X seqLen)) :
    Except GdnError (List (List Y × GdnLayerState R S)) := do
  let convolved := rows.map fun row =>
    W.convExtend hasPreviousState row.convState (row.hiddenStates.map W.mixedQkv)
  let positions := zipWith (fun row conv => zipWith (W.position W.decayScale) row.hiddenStates conv.1)
    rows convolved
  let cores ← W.runPrefillCore rt seqLen hasPreviousState
    (zipWith (fun row ps => (ps, row.recurrentState)) rows positions)
  return zipWith (fun row (conv, core) =>
    (zipWith W.output row.hiddenStates core.2, ⟨conv.2, core.1, true⟩)) rows (convolved.zip cores)

/-- The decay that `FlashInferGDNDecode` hands over as `A_log` and its kernel undoes. -/
def flashinferDecodeScale (h : ℕ) : R := -W.exp (W.log (-W.aLog h))

def decodeBatch (rt : Runtime) (rows : List (Row R S X 1)) :
    Except GdnError (List (List Y × List (List R) × List S)) := do
  let useFlashinferDecode ← flashinferGdnDecodeEnabled C rt
  let negative := (range C.numVHeads).all fun h => !W.nonneg (W.aLog h)
  if useFlashinferDecode && !negative then
    .error (.valueError "FlashInfer GDN decode requires GGUF negative ssm_a values")
  else
    return rows.map fun row =>
      let mixedQkv := row.hiddenStates.map W.mixedQkv
      let catted := row.convState ++ mixedQkv
      let convState := lastColumns row.convState.length catted
      let mixedQkv := W.convContinue row.convState mixedQkv
      let scale := if useFlashinferDecode then W.flashinferDecodeScale else W.decayScale
      let positions := zipWith (W.position scale) row.hiddenStates mixedQkv
      let positions := if 1 < C.headRepeat then positions.map (expandGdnQueryKeyHeads (C := C)) else positions
      let (lastState, coreAttnOut) := W.kernel true row.recurrentState positions
      (zipWith W.output row.hiddenStates coreAttnOut, convState, lastState)

end Weights

/-- Where `spec_forward` leaves the state after each of its positions. -/
inductive SpecStore where
  /-- Clones, the anchor first. -/
  | snapshots
  /-- `spec_state_rows`. -/
  | rows
  /-- The rows `spec_destination_index` of the pools. -/
  | indexed
  deriving DecidableEq, Repr

/-- The entry of the stored states that belongs to a verify position. -/
def SpecStore.column (store : SpecStore) (j : ℕ) : ℕ :=
  match store with
  | .snapshots => j + 1
  | .rows => j
  | .indexed => j

/-- One request of a verify block. -/
structure SpecRow (R S X : Type) (seqLen : ℕ) where
  hiddenStates : List X
  convState : List (List R)
  recurrentState : List S
  sourceState : List S
  length_eq : hiddenStates.length = seqLen

namespace Weights

variable {C : GdnConfig} {R S X Y : Type} [Zero R] [Add R] [Mul R] [InvolutiveNeg R] (W : Weights C R S X Y)

/-- The decay inside the kernels that take `a_log` themselves. -/
def kernelScale (h : ℕ) : R := -W.exp (W.aLog h)

/-- The decay of a verify block: two of its kernels take `a_log` and no decay. -/
def specScale (rt : Runtime) (store : SpecStore) (fp32 batchLargeProjections : Bool) : ℕ → R :=
  let fuseIndexedGates := rt.fusedGates && !C.ggufDirectDecay && batchLargeProjections &&
    store == .indexed && (rt.isCuda && rt.dtype == .bfloat16)
  if fp32 || fuseIndexedGates then W.kernelScale else W.decayScale

/-- The recurrent rows that a verify block starts from: the indexed kernel reads the pool itself. -/
def specSource (rt : Runtime) (store : SpecStore) (fp32 : Bool) {seqLen : ℕ} (row : SpecRow R S X seqLen) : List S :=
  let useMultistep := rt.isCuda && rt.dtype == .bfloat16
  if !fp32 && useMultistep && store == .indexed then row.sourceState else row.recurrentState

def specRow (rt : Runtime) (store : SpecStore) (fp32 batchLargeProjections : Bool) {seqLen : ℕ}
    (row : SpecRow R S X seqLen) : List Y × List (GdnLayerState R S) :=
  let stateLen := row.convState.length
  let catted := row.convState ++ row.hiddenStates.map W.mixedQkv
  let mixedQkv := W.convContinue row.convState (row.hiddenStates.map W.mixedQkv)
  let positions := zipWith (W.position (W.specScale rt store fp32 batchLargeProjections)) row.hiddenStates mixedQkv
  let positions := if 1 < C.headRepeat && !fp32 then positions.map (expandGdnQueryKeyHeads (C := C)) else positions
  let initialState := specSource rt store fp32 row
  let coreAttnOut := (W.kernel true initialState positions).2
  let recurrentStates := initialState :: Cascade.scan (W.kernelStep true) initialState positions
  let snapshot := fun j => ⟨(catted.drop j).take stateLen, recurrentStates.getD j initialState, true⟩
  (zipWith W.output row.hiddenStates coreAttnOut,
    match store with
    | .snapshots => (range (seqLen + 1)).map snapshot
    | .rows => (range seqLen).map fun j => snapshot (j + 1)
    | .indexed => (range seqLen).map fun j => snapshot (j + 1))

/-- `spec_forward`, with `fp32` for `fp32_intermediate_states`. -/
def specForward (rt : Runtime) (store : SpecStore) (fp32 batchLargeProjections hasPreviousState : Bool)
    {seqLen : ℕ} (rows : List (SpecRow R S X seqLen)) :
    Except GdnError (List (List Y × List (GdnLayerState R S))) :=
  if store = .snapshots ∧ rows.length ≠ 1 then
    .error (.valueError "snapshot verify only supports one sequence; use fixed GDN rows for batches")
  else if !hasPreviousState then
    .error (.valueError ("spec_forward continues from a committed anchor (the token " ++
      "immediately before the draft), which by construction " ++
      "always has a previous state -- even the first verify round " ++
      "of a sequence follows a real prefill's chunked forward. A " ++
      "fresh, never-prefilled slot reaching this call is a caller " ++
      "bug, not a case this method degrades gracefully for."))
  else if fp32 && rt.stateDtype != .float32 then
    .error (.typeError "FP32 GDN verify requires a float32 committed state")
  else if fp32 && rt.dtype != .bfloat16 then
    .error (.typeError "Flash-Next GDN verify requires BF16 q/k/v")
  else if fp32 && store == .snapshots then .error .assertionError
  else .ok (rows.map (W.specRow rt store fp32 batchLargeProjections))

end Weights

def commitSpecSnapshot {R S : Type} (state : GdnLayerState R S) (snapshots : List (GdnLayerState R S))
    (acceptedCount : ℕ) : Except GdnError (GdnLayerState R S) :=
  if acceptedCount < snapshots.length then
    let chosen := snapshots.getD acceptedCount state
    .ok ⟨chosen.convState, chosen.recurrentState, true⟩
  else .error (.valueError (s!"accepted_count={acceptedCount} out of range for {snapshots.length} snapshots " ++
    s!"(0..{snapshots.length - 1})"))

/-- The commit of a verify block: a copy of the chosen snapshot, or the row of the last accepted position. -/
def commitBlock {R S : Type} (state : GdnLayerState R S) (store : SpecStore)
    (states columns : List (GdnLayerState R S)) (acceptedCount : ℕ) : Except GdnError (GdnLayerState R S) :=
  if store = .snapshots then commitSpecSnapshot state states acceptedCount
  else if acceptedCount = 0 then .ok state
  else .ok (columns.getD (acceptedCount - 1) state)

section Runs

/-- One call on a sequence, alone or in the middle of a batch. -/
inductive Piece (R S X : Type) where
  | forward (tokens : List X)
  | prefillBatch (tokens : List X) (before after : List (Row R S X tokens.length))
  | decodeBatch (token : X) (before after : List (Row R S X 1))
  /-- A verify block of which the first `accepted` positions are committed. With `indexed` the caller passes
  rows of the pool that are not the sequence's own for `state.recurrent_state`. -/
  | spec (tokens : List X) (accepted : ℕ) (store : SpecStore) (fp32 batchLargeProjections : Bool)
    (recurrentRows : List S) (before after : List (SpecRow R S X tokens.length))

variable {C : GdnConfig} {R S X Y : Type} [Zero R] [Add R] [Mul R] [InvolutiveNeg R] (W : Weights C R S X Y)

def Piece.tokens : Piece R S X → List X
  | .forward tokens => tokens
  | .prefillBatch tokens _ _ => tokens
  | .decodeBatch token _ _ => [token]
  | .spec tokens _ _ _ _ _ _ _ => tokens

/-- The tokens that a call adds to the stream. -/
def Piece.committed : Piece R S X → List X
  | .forward tokens => tokens
  | .prefillBatch tokens _ _ => tokens
  | .decodeBatch token _ _ => [token]
  | .spec tokens accepted _ _ _ _ _ _ => tokens.take accepted

/-- What a call gives: the outputs at its tokens, the verify columns and the state of the sequence. -/
structure CallResult (R S Y : Type) where
  outputs : List Y
  columns : List (GdnLayerState R S)
  state : GdnLayerState R S

def runPiece (rt : Runtime) (state : GdnLayerState R S) : Piece R S X → Except GdnError (CallResult R S Y)
  | .forward tokens =>
    let (outputs, after) := W.forward rt tokens state
    .ok ⟨outputs, [], after⟩
  | .prefillBatch tokens before after => do
    let rows := before ++ ⟨tokens, state.convState, state.recurrentState, rfl⟩ :: after
    let results ← W.prefillBatch rt state.hasPreviousState rows
    let (outputs, after) := results.getD before.length ([], state)
    return ⟨outputs, [], after⟩
  | .decodeBatch token before after => do
    let rows := before ++ ⟨[token], state.convState, state.recurrentState, rfl⟩ :: after
    let results ← W.decodeBatch rt rows
    let (outputs, convState, recurrentState) := results.getD before.length ([], state.convState, state.recurrentState)
    return ⟨outputs, [], ⟨convState, recurrentState, state.hasPreviousState⟩⟩
  | .spec tokens accepted store fp32 batchLargeProjections recurrentRows before after => do
    let recurrentState := if store = .indexed then recurrentRows else state.recurrentState
    let rows := before ++ ⟨tokens, state.convState, recurrentState, state.recurrentState, rfl⟩ :: after
    let results ← W.specForward rt store fp32 batchLargeProjections state.hasPreviousState rows
    let (outputs, states) := results.getD before.length ([], [])
    let columns := (range tokens.length).map fun j => states.getD (store.column j) state
    let committed ← commitBlock state store states columns accepted
    return ⟨outputs, columns, committed⟩

def runPieces (rt : Runtime) (state : GdnLayerState R S) : List (Piece R S X) → Except GdnError (GdnLayerState R S)
  | [] => .ok state
  | p :: ps => do
    let result ← runPiece W rt state p
    runPieces rt result.state ps

end Runs

end GdnLayer
