import BlackweLLM.ArrayFill
import BlackweLLM.OnlineSoftmax
import BlackweLLM.PageRing
import Mathlib.Analysis.SpecialFunctions.Pow.Real

/-!
# Paged attention in F32 and its fallbacks

`runtime/kernels/gguf_paged_attention.py` over exact arithmetic, and the three
`_dense_attention_*` methods of `Qwen36Attention` that choose between it and a
reduction in torch. The batched and the ragged callers give an output buffer
and then read that buffer.
-/

namespace F32Attention

open List Function OnlineSoftmax

section Shapes

def pageSize : Nat := 128

def blockK : Nat := 32

structure Geometry where
  numKvHeads : Nat
  gqa : Nat
  headDim : Nat
  numKvHeads_pos : 0 < numKvHeads
  gqa_pos : 0 < gqa
  headDim_pos : 0 < headDim

/-- `num_q_heads`; the launch refuses a number that `num_kv_heads` does not divide. -/
def Geometry.numQHeads (geo : Geometry) : Nat := geo.numKvHeads * geo.gqa

/-- `padded_gqa` -/
def Geometry.paddedGqa (geo : Geometry) : Nat := max 8 ((geo.gqa + 7) / 8 * 8)

/-- What does not change from call to call: `tl.exp2`, `1.0 / HEAD_DIM ** 0.5`, the heads, and whether
the device has room for the kernel's tiles and a `tl.dot` over them. -/
structure Config (K : Type) where
  exp2 : K → K
  scale : K
  geo : Geometry
  fitsDevice : Bool

/-- The query rows, the pools and the metadata of a call; a cache fits into its page table row. -/
structure Inputs (K : Type) where
  query : Nat → K
  kCache : Nat → K
  vCache : Nat → K
  batch : Nat
  rows : Nat
  pageCount : Nat
  pageTable : Nat → Nat → Nat
  cacheSeqlens : Nat → Nat
  positions : Nat → Int
  batch_pos : 0 < batch
  rows_pos : 0 < rows
  fits : ∀ request, cacheSeqlens request ≤ pageCount * pageSize

abbrev Buffer (K : Type) := Nat → Nat → K

/-- `FIXED_Q`, or `cu_seqlens_q` of a compact ragged call. -/
inductive Layout where
  | fixed (q : Nat)
  | ragged (cu : Nat → Nat)

/-- `tl.arange(0, n)` takes a power of two. -/
def arangeTakes (n : Nat) : Bool := 2 ^ n.log2 == n

/-- What Triton asks of the constants of a launch; only a ragged one has a range over the batch. -/
def Config.compiles {K : Type} (cfg : Config K) (layout : Layout) (batch : Nat) : Bool :=
  cfg.fitsDevice && arangeTakes cfg.geo.paddedGqa && arangeTakes cfg.geo.headDim &&
    match layout with
    | .fixed _ => true
    | .ragged _ => arangeTakes batch

end Shapes

section Kernel

variable {K : Type} [Field K] [LinearOrder K]

def Config.weight (cfg : Config K) (x : K) : K := cfg.exp2 (x * (14426950408889634 / 10000000000000000))

/-- `request` and `query_valid` of a query row. -/
def Layout.locate (layout : Layout) (batch queryRow : Nat) : Nat × Bool :=
  match layout with
  | .fixed q => (min (queryRow / q) (batch - 1), decide (queryRow / q < batch))
  | .ragged cu =>
    let request := (range batch).countP fun i => decide (cu (i + 1) ≤ queryRow)
    (min (min request (batch - 1)) (batch - 1), decide (queryRow < cu batch))

/-- `tl.dot(q, tl.trans(k)) * scale`; the query loads as zeros where it is masked. -/
def Config.score (cfg : Config K) (args : Inputs K) (valid : Bool) (queryRow head : Nat) (k : Nat → K) : K :=
  ((range cfg.geo.headDim).map fun d => (if valid then
    args.query (queryRow * cfg.geo.numQHeads * cfg.geo.headDim + head * cfg.geo.headDim + d) else 0) * k d).sum * cfg.scale

/-- One lane of a key block: `valid_rows`, the score and the value row. -/
structure KeyLane (K : Type) where
  valid : Bool
  score : K
  v : Nat → K

def blockLanes (cfg : Config K) (args : Inputs K) (request : Nat) (queryValid : Bool)
    (queryRow kvHead g keyStart : Nat) :
    List (KeyLane K) :=
  (range blockK).map fun row =>
    let logical := keyStart + row
    let valid := decide (logical < args.cacheSeqlens request ∧ (logical : Int) ≤ args.positions queryRow)
    let pageIndex := min (logical / pageSize) (args.pageCount - 1)
    let physicalPage := args.pageTable request pageIndex
    let cacheBase := (physicalPage * pageSize + logical % pageSize) * cfg.geo.numKvHeads * cfg.geo.headDim +
      kvHead * cfg.geo.headDim
    let k d := if valid then args.kCache (cacheBase + d) else 0
    let v d := if valid then args.vCache (cacheBase + d) else 0
    ⟨valid, cfg.score args queryValid queryRow (kvHead * cfg.geo.gqa + g) k, v⟩

abbrev Running (K : Type) := Tally K (Nat → K)

def step (w : K → K) (st : Running K) (lanes : List (KeyLane K)) : Running K :=
  let scores : List (WithBot K) := lanes.map fun lane => if lane.valid then (lane.score : WithBot K) else ⊥
  let newMax := max st.top (scores.foldr max ⊥)
  let safeMax := newMax.unbotD 0
  let rescale := if newMax = ⊥ then 0 else match st.top with
    | ⊥ => 0
    | (m : K) => w (m - safeMax)
  let probability (lane : KeyLane K) := if lane.valid then w (lane.score - safeMax) else 0
  { top := if newMax = ⊥ then st.top else newMax
    sum := st.sum * rescale + (lanes.map probability).sum
    acc := rescale • st.acc + (lanes.map fun lane => probability lane • lane.v).sum }

/-- What `_paged_f32_attention_kernel` stores for a query row and a query head of the group of `kvHead`. -/
def pagedRow (cfg : Config K) (args : Inputs K) (layout : Layout) (queryRow kvHead g : Nat) : Nat → K :=
  let (request, queryValid) := layout.locate args.batch queryRow
  let maxTokens := args.pageCount * pageSize
  let st := ((range (maxTokens / blockK)).map fun i => i * blockK).foldl
    (fun st keyStart => step cfg.weight st (blockLanes cfg args request queryValid queryRow kvHead g keyStart)) Tally.empty
  let denominator := max st.sum (1 / 10 ^ 20)
  if queryValid then denominator⁻¹ • st.acc else 0

def stores (cfg : Config K) (args : Inputs K) (layout : Layout) : List (Nat × (Nat → K)) :=
  (range args.rows).flatMap fun queryRow => (range cfg.geo.numKvHeads).flatMap fun kvHead =>
    (range cfg.geo.gqa).map fun g =>
      (queryRow * cfg.geo.numQHeads + (kvHead * cfg.geo.gqa + g), pagedRow cfg args layout queryRow kvHead g)

def launch (cfg : Config K) (args : Inputs K) (layout : Layout) (output : Buffer K) : Buffer K :=
  ArrayFill.stored output (stores cfg args layout)

def pagedF32Attention (cfg : Config K) (args : Inputs K) (layout : Layout) (output : Buffer K) :
    Except String (Buffer K) :=
  if cfg.compiles layout args.batch then .ok (launch cfg args layout output)
  else .error "arange's range must be a power of 2"

end Kernel

section Fallbacks

variable {K : Type} [Field K] [LinearOrder K]

/-- Where the tensors of a call are, and whether they are `torch.float32`. -/
structure Placement where
  isCuda : Bool
  queryF32 : Bool
  kF32 : Bool
  vF32 : Bool

def Placement.native (place : Placement) : Bool := place.isCuda && place.queryF32 && place.kF32 && place.vF32

def poolRow (cfg : Config K) (cache : Nat → K) (phys kvHead d : Nat) : K :=
  cache (phys * cfg.geo.numKvHeads * cfg.geo.headDim + kvHead * cfg.geo.headDim + d)

def Inputs.physRow (args : Inputs K) (request position : Nat) : Nat :=
  args.pageTable request (position / pageSize) * pageSize + position % pageSize

def pagedRows (args : Inputs K) (request : Nat) (length : Int) : Except String (List Nat) :=
  if length ≤ 0 then .error s!"dense attention requires a positive cache length, got {length}"
  else
    let pageCount := (length.toNat + pageSize - 1) / pageSize
    let pages := ((range args.pageCount).map (args.pageTable request)).take pageCount
    .ok ((pages.flatMap fun page => (range pageSize).map fun row => page * pageSize + row).take length.toNat)

/-- One query row and head of `_dense_attention_kernel`. A masked score is `torch.finfo.min`, whose weight underflows to
0 behind any other score and is 1 where all scores are masked. -/
def denseRow (cfg : Config K) (args : Inputs K) (physRows : List Nat) (position : Int) (queryRow head : Nat) :
    Nat → K :=
  let kvHead := head / (cfg.geo.numQHeads / cfg.geo.numKvHeads)
  let scores : List (WithBot K) := physRows.zipIdx.map fun key =>
    if (key.2 : Int) ≤ position then
      (cfg.score args true queryRow head (poolRow cfg args.kCache key.1 kvHead) : WithBot K)
    else ⊥
  let top := scores.foldr max ⊥
  let weights := scores.map fun s => if top = ⊥ then 1 else relative cfg.weight s top
  let probabilities := weights.map fun p => p / weights.sum
  (zipWith (fun p phys => p • poolRow cfg args.vCache phys kvHead) probabilities physRows).sum

abbrev HeadRows (K : Type) := Nat → Nat → K

/-- The metadata `_dense_attention_single` makes for a cache that was just appended to. -/
def Inputs.single (args : Inputs K) (pastLen totalLen : Nat) (hfits : totalLen ≤ args.pageCount * pageSize) :
    Inputs K :=
  { args with
    batch := 1
    cacheSeqlens := fun _ => totalLen
    positions := fun i => ((pastLen + i : Nat) : Int)
    batch_pos := Nat.one_pos
    fits := fun _ => hfits }

/-- `_dense_attention_single`: the tensor it returns, by query row. -/
def denseAttentionSingle (cfg : Config K) (place : Placement) (args : Inputs K) (pastLen totalLen : Nat)
    (hfits : totalLen ≤ args.pageCount * pageSize) : Except String (Nat → HeadRows K) :=
  let single := args.single pastLen totalLen hfits
  if place.native then do
    let out ← pagedF32Attention cfg single (.fixed args.rows) fun _ _ => 0
    return fun queryRow head => out (queryRow * cfg.geo.numQHeads + head)
  else do
    let physRows ← pagedRows single 0 totalLen
    return fun queryRow head => denseRow cfg single physRows (single.positions queryRow) queryRow head

/-- `_dense_attention_batched`: the tensor it returns and the caller's buffer behind it. -/
def denseAttentionBatched (cfg : Config K) (place : Placement) (args : Inputs K) (tokensPerRequest : Nat)
    (includeQueryTokens : Bool) (output : Buffer K) : Except String (List (HeadRows K) × Buffer K) :=
  if place.native then do
    let out ← pagedF32Attention cfg args (.fixed tokensPerRequest) output
    return ((range args.rows).map fun queryRow head => out (queryRow * cfg.geo.numQHeads + head), out)
  else if args.rows ≠ args.batch * tokensPerRequest then
    .error (s!"dense batched attention query rows do not match request geometry: " ++
      s!"rows={args.rows}, batch={args.batch}, q={tokensPerRequest}")
  else do
    let outputs ← (range args.batch).mapM fun request => do
      let baseLength := args.cacheSeqlens request
      let totalLength := if includeQueryTokens then baseLength + tokensPerRequest else baseLength
      let physRows ← pagedRows args request totalLength
      return (range tokensPerRequest).map fun i =>
        denseRow cfg args physRows (args.positions (request * tokensPerRequest + i)) (request * tokensPerRequest + i)
    return (outputs.flatten, output)

/-- `_dense_attention_ragged`: the tensor it returns and the caller's buffer behind it. -/
def denseAttentionRagged (cfg : Config K) (place : Placement) (args : Inputs K) (cu : Nat → Nat)
    (output : Buffer K) : Except String (List (HeadRows K) × Buffer K) :=
  if place.native then do
    let out ← pagedF32Attention cfg args (.ragged cu) output
    return ((range args.rows).map fun queryRow head => out (queryRow * cfg.geo.numQHeads + head), out)
  else do
    let outputs ← (range args.batch).mapM fun request => do
      let rows := range' (cu request) (cu (request + 1) - cu request)
      if cu request = cu (request + 1) then return []
      let totalLength := max (args.cacheSeqlens request : Int) ((rows.map args.positions).max?.getD 0 + 1)
      let physRows ← pagedRows args request totalLength
      return rows.map fun queryRow => denseRow cfg args physRows (args.positions queryRow) queryRow
    return (outputs.flatten, output)

def decodeBatch (cfg : Config K) (place : Placement) (args : Inputs K) (output : Buffer K) : Except String (Buffer K) :=
  (denseAttentionBatched cfg place args 1 false output).map Prod.snd

def prefillBatch (cfg : Config K) (place : Placement) (args : Inputs K) (seqLen : Nat) (output : Buffer K) :
    Except String (Buffer K) :=
  (denseAttentionBatched cfg place args seqLen false output).map Prod.snd

def verifyBatch (cfg : Config K) (place : Placement) (args : Inputs K) (seqLen : Nat) (output : Buffer K) :
    Except String (Buffer K) :=
  (denseAttentionBatched cfg place args seqLen true output).map Prod.snd

def verifyRaggedBatch (cfg : Config K) (place : Placement) (args : Inputs K) (cu : Nat → Nat) (output : Buffer K) :
    Except String (Buffer K) :=
  (denseAttentionRagged cfg place args cu output).map Prod.snd

end Fallbacks

section Exactness

variable {K : Type} [Field K] [LinearOrder K] {w : K → K} {cfg : Config K} {args : Inputs K}
  {request queryRow kvHead g keyStart head : Nat}
variable {cu : Nat → Nat}

def KeyLane.shown (lane : KeyLane K) : WithBot K × (Nat → K) :=
  (if lane.valid then (lane.score : WithBot K) else ⊥, lane.v)

/-- The guarded maximum makes no difference: without a score everything is zero. -/
theorem step_eq (st : Running K) (lanes : List (KeyLane K)) :
    step w st lanes = st.absorb w (lanes.map KeyLane.shown) := by
  have hpeak : (lanes.map fun lane => if lane.valid then (lane.score : WithBot K) else ⊥).foldr max ⊥ =
      lanePeak (lanes.map KeyLane.shown) := by
    rw [lanePeak, map_map]
    rfl
  have hmass : ∀ m, laneMass w m (lanes.map KeyLane.shown) = (lanes.map fun lane => relative w lane.shown.1 m).sum := by
    intro m
    rw [laneMass, map_map]
    rfl
  have hmoment : ∀ m, laneMoment w m (lanes.map KeyLane.shown) =
      (lanes.map fun lane => relative w lane.shown.1 m • lane.v).sum := by
    intro m
    rw [laneMoment, map_map]
    rfl
  have hprobability : ∀ lane ∈ lanes, (if lane.valid then
      w (lane.score - (max st.top (lanePeak (lanes.map KeyLane.shown))).unbotD 0) else 0) =
        relative w lane.shown.1 (max st.top (lanePeak (lanes.map KeyLane.shown))) := by
    intro lane hlane
    have hle : lane.shown.1 ≤ max st.top (lanePeak (lanes.map KeyLane.shown)) :=
      (le_lanePeak (mem_map_of_mem hlane)).trans (le_max_right _ _)
    cases hvalid : lane.valid with
    | false => simp [KeyLane.shown, hvalid]
    | true =>
      rw [KeyLane.shown, hvalid, if_pos rfl] at hle ⊢
      cases hmax : max st.top (lanePeak (lanes.map KeyLane.shown)) with
      | bot => exact absurd (le_bot_iff.mp (hmax ▸ hle)) WithBot.coe_ne_bot
      | coe m => rfl
  have hrescale : (if max st.top (lanePeak (lanes.map KeyLane.shown)) = ⊥ then 0 else match st.top with
      | ⊥ => 0
      | (m : K) => w (m - (max st.top (lanePeak (lanes.map KeyLane.shown))).unbotD 0)) =
        relative w st.top (max st.top (lanePeak (lanes.map KeyLane.shown))) := by
    cases hmax : max st.top (lanePeak (lanes.map KeyLane.shown)) with
    | bot => rw [if_pos rfl, relative_bot_right]
    | coe m =>
      rw [if_neg WithBot.coe_ne_bot]
      cases st.top <;> rfl
  have htop : (if max st.top (lanePeak (lanes.map KeyLane.shown)) = ⊥ then st.top
      else max st.top (lanePeak (lanes.map KeyLane.shown))) = max st.top (lanePeak (lanes.map KeyLane.shown)) := by
    split
    · next hbot => rw [(max_eq_bot.mp hbot).1, (max_eq_bot.mp hbot).2, max_self]
    · rfl
  simp only [step, Tally.absorb, Tally.moved, hpeak, hmass, hmoment]
  rw [htop, map_congr_left hprobability,
    map_congr_left fun lane hlane => congrArg (· • lane.v) (hprobability lane hlane)]
  congr 2
  · rw [hrescale]
  · rw [hrescale]

def entry (cfg : Config K) (args : Inputs K) (request queryRow head position : Nat) : K × (Nat → K) :=
  (cfg.score args true queryRow head (poolRow cfg args.kCache (args.physRow request position) (head / cfg.geo.gqa)),
    poolRow cfg args.vCache (args.physRow request position) (head / cfg.geo.gqa))

def Inputs.bound (args : Inputs K) (request queryRow : Nat) : Nat :=
  (min (args.cacheSeqlens request : Int) (args.positions queryRow + 1)).toNat

def rowAttention (cfg : Config K) (args : Inputs K) (request queryRow head : Nat) : Nat → K :=
  attention cfg.weight ((range (args.bound request queryRow)).map (entry cfg args request queryRow head))

omit [LinearOrder K] in
theorem seen_blockLanes (hg : g < cfg.geo.gqa) (keyStart : Nat) :
    seen ((blockLanes cfg args request true queryRow kvHead g keyStart).map KeyLane.shown) =
      (range' keyStart (min (args.bound request queryRow - keyStart) blockK)).map
        (entry cfg args request queryRow (kvHead * cfg.geo.gqa + g)) := by
  have hvalid : ∀ row, (keyStart + row < args.cacheSeqlens request ∧
      ((keyStart + row : Nat) : Int) ≤ args.positions queryRow) ↔ row < args.bound request queryRow - keyStart := by
    intro row
    rw [Inputs.bound]
    omega
  rw [blockLanes, map_map, range'_eq_map_range, map_map]
  apply seen_map_range blockK
  · intro row hrow
    have hcache : keyStart + row < args.pageCount * pageSize :=
      lt_of_lt_of_le ((hvalid row).mpr hrow).1 (args.fits request)
    have hpage : min ((keyStart + row) / pageSize) (args.pageCount - 1) = (keyStart + row) / pageSize := by
      have hlt := Nat.div_lt_of_lt_mul (Nat.mul_comm _ _ ▸ hcache)
      omega
    simp only [comp_apply, KeyLane.shown, decide_eq_true ((hvalid row).mpr hrow), if_true, hpage, entry,
      PageRing.mul_add_div hg]
    rfl
  · intro row hrow
    simp only [comp_apply, KeyLane.shown, decide_eq_false (mt (hvalid row).mp (Nat.not_lt.mpr hrow))]
    rfl

theorem foldl_of (args : Inputs K) (request queryRow kvHead : Nat) (hw : Exponential cfg.weight) (hg : g < cfg.geo.gqa)
    (i : Nat) :
    (((range i).map fun i => i * blockK).foldl
      (fun st keyStart => step cfg.weight st (blockLanes cfg args request true queryRow kvHead g keyStart))
      Tally.empty).Of cfg.weight
        ((range (min (args.bound request queryRow) (i * blockK))).map
          (entry cfg args request queryRow (kvHead * cfg.geo.gqa + g))) := by
  induction i with
  | zero =>
    rw [Nat.zero_mul, Nat.min_zero]
    exact Tally.Of.empty
  | succ i ih =>
    have hblock := ih.absorb hw ((blockLanes cfg args request true queryRow kvHead g (i * blockK)).map KeyLane.shown)
    rw [seen_blockLanes hg, ← map_append] at hblock
    rw [range_succ, map_append, foldl_append, map_singleton, foldl_cons, foldl_nil, step_eq]
    by_cases hin : i * blockK ≤ args.bound request queryRow
    · have hsum : i * blockK + min (args.bound request queryRow - i * blockK) blockK =
          min (args.bound request queryRow) ((i + 1) * blockK) := by
        rw [Nat.succ_mul]
        omega
      rwa [Nat.min_eq_right hin, range_append_block, hsum] at hblock
    · have hnone : min (args.bound request queryRow - i * blockK) blockK = 0 := by omega
      have hfull : min (args.bound request queryRow) ((i + 1) * blockK) =
          min (args.bound request queryRow) (i * blockK) := by
        rw [Nat.succ_mul]
        omega
      rwa [hnone, range'_zero, append_nil, ← hfull] at hblock

theorem pagedRow_eq [IsStrictOrderedRing K] {layout : Layout} (hw : Exponential cfg.weight) (hg : g < cfg.geo.gqa)
    (hlocate : layout.locate args.batch queryRow = (request, true)) :
    pagedRow cfg args layout queryRow kvHead g = rowAttention cfg args request queryRow (kvHead * cfg.geo.gqa + g) := by
  have hall : args.pageCount * pageSize / blockK * blockK = args.pageCount * pageSize := by
    rw [pageSize, blockK]
    omega
  have hbound : min (args.bound request queryRow) (args.pageCount * pageSize / blockK * blockK) =
      args.bound request queryRow := by
    have hfits := args.fits request
    rw [hall, Inputs.bound]
    omega
  have hof := foldl_of args request queryRow kvHead hw hg (args.pageCount * pageSize / blockK)
  rw [hbound] at hof
  have htiny : (1 / 10 ^ 20 : K) ≤ 1 := by
    rw [one_div]
    exact inv_le_one_of_one_le₀ (one_le_pow₀ (by norm_num))
  simp only [pagedRow, hlocate, if_true]
  rw [rowAttention]
  by_cases hrows : (range (args.bound request queryRow)).map
      (entry cfg args request queryRow (kvHead * cfg.geo.gqa + g)) = []
  · rw [hrows] at hof ⊢
    rw [hof.acc_nil hw, smul_zero, attention, moment_nil, smul_zero]
  · rw [max_eq_left (htiny.trans (hof.one_le_sum hw hrows)), hof.read hw]

theorem launch_row {layout : Layout} (output : Buffer K) (hrow : queryRow < args.rows)
    (hhead : head < cfg.geo.numQHeads) :
    launch cfg args layout output (queryRow * cfg.geo.numQHeads + head) =
      pagedRow cfg args layout queryRow (head / cfg.geo.gqa) (head % cfg.geo.gqa) := by
  have hkv : head / cfg.geo.gqa < cfg.geo.numKvHeads := (Nat.div_lt_iff_lt_mul cfg.geo.gqa_pos).mpr hhead
  have hg : head % cfg.geo.gqa < cfg.geo.gqa := Nat.mod_lt _ cfg.geo.gqa_pos
  have hq : head / cfg.geo.gqa * cfg.geo.gqa + head % cfg.geo.gqa = head := Nat.div_add_mod' head cfg.geo.gqa
  have hmem : ∀ s, s ∈ stores cfg args layout ↔ ∃ row < args.rows, ∃ kvHead < cfg.geo.numKvHeads, ∃ g < cfg.geo.gqa,
      (row * cfg.geo.numQHeads + (kvHead * cfg.geo.gqa + g), pagedRow cfg args layout row kvHead g) = s := by
    intro s
    simp only [stores, mem_flatMap, mem_map, mem_range]
  apply ArrayFill.stored_of_mem
  · exact (hmem _).mpr ⟨queryRow, hrow, _, hkv, _, hg, by rw [hq]⟩
  · intro s hs heq
    obtain ⟨row, -, kvHead, hkvHead, g, hgLane, rfl⟩ := (hmem s).mp hs
    have hlt : kvHead * cfg.geo.gqa + g < cfg.geo.numQHeads := by
      calc kvHead * cfg.geo.gqa + g < (kvHead + 1) * cfg.geo.gqa := by rw [Nat.succ_mul]; omega
        _ ≤ cfg.geo.numQHeads := Nat.mul_le_mul_right _ hkvHead
    obtain ⟨rfl, hlane⟩ := (PageRing.mul_add_inj hlt hhead).mp heq
    rw [← hq, PageRing.mul_add_inj hgLane hg] at hlane
    obtain ⟨rfl, rfl⟩ := hlane
    rfl

theorem locate_fixed {q batch row : Nat} (hrow : row < batch * q) :
    (Layout.fixed q).locate batch row = (row / q, true) := by
  have hlt : row / q < batch := Nat.div_lt_of_lt_mul (Nat.mul_comm _ _ ▸ hrow)
  rw [Layout.locate, Nat.min_eq_left (by omega), decide_eq_true hlt]

theorem locate_ragged {batch row : Nat} (hcu : Monotone cu) (hrequest : request < batch)
    (hstart : cu request ≤ row) (hend : row < cu (request + 1)) :
    (Layout.ragged cu).locate batch row = (request, true) := by
  have hcount : ∀ n, ((range n).countP fun i => decide (cu (i + 1) ≤ row)) = min request n := by
    intro n
    induction n with
    | zero => rw [Nat.min_zero]; rfl
    | succ n ih =>
      rw [range_succ, countP_append, ih, countP_singleton]
      by_cases hn : n < request
      · rw [decide_eq_true ((hcu hn).trans hstart), if_pos rfl]
        omega
      · have hlater : row < cu (n + 1) := lt_of_lt_of_le hend (hcu (by omega))
        rw [decide_eq_false (Nat.not_le.mpr hlater), if_neg Bool.false_ne_true]
        omega
  have hvalid : row < cu batch := lt_of_lt_of_le hend (hcu hrequest)
  simp only [Layout.locate, hcount, decide_eq_true hvalid]
  rw [Nat.min_eq_left (Nat.le_of_lt hrequest), Nat.min_eq_left (by omega), Nat.min_eq_left (by omega)]

variable [IsStrictOrderedRing K]

theorem launch_fixed {q : Nat} (hw : Exponential cfg.weight) (output : Buffer K)
    (hgeometry : args.rows = args.batch * q) (hrow : queryRow < args.rows) (hhead : head < cfg.geo.numQHeads) :
    launch cfg args (.fixed q) output (queryRow * cfg.geo.numQHeads + head) =
      rowAttention cfg args (queryRow / q) queryRow head := by
  rw [launch_row output hrow hhead,
    pagedRow_eq hw (Nat.mod_lt _ cfg.geo.gqa_pos) (locate_fixed (hgeometry ▸ hrow)), Nat.div_add_mod']

/-- Compact ragged verify: the rows of a request. -/
theorem launch_ragged (hw : Exponential cfg.weight) (output : Buffer K) (hcu : Monotone cu)
    (hrequest : request < args.batch) (hstart : cu request ≤ queryRow) (hend : queryRow < cu (request + 1))
    (hrow : queryRow < args.rows) (hhead : head < cfg.geo.numQHeads) :
    launch cfg args (.ragged cu) output (queryRow * cfg.geo.numQHeads + head) =
      rowAttention cfg args request queryRow head := by
  rw [launch_row output hrow hhead,
    pagedRow_eq hw (Nat.mod_lt _ cfg.geo.gqa_pos) (locate_ragged hcu hrequest hstart hend), Nat.div_add_mod']

omit [IsStrictOrderedRing K] in
/-- Compact ragged verify: the tail of the captured capacity. -/
theorem launch_tail (output : Buffer K) (htail : cu args.batch ≤ queryRow)
    (hrow : queryRow < args.rows) (hhead : head < cfg.geo.numQHeads) :
    launch cfg args (.ragged cu) output (queryRow * cfg.geo.numQHeads + head) = 0 := by
  rw [launch_row output hrow hhead]
  simp only [pagedRow, Layout.locate, decide_eq_false (Nat.not_lt.mpr htail), Bool.false_eq_true, if_false]

section

omit [Field K] [LinearOrder K] [IsStrictOrderedRing K]

theorem flatMap_pages (table : Nat → Nat) (n : Nat) :
    (((range n).map table).flatMap fun page => (range pageSize).map fun row => page * pageSize + row) =
      (range (n * pageSize)).map fun p => table (p / pageSize) * pageSize + p % pageSize := by
  induction n with
  | zero => rw [Nat.zero_mul]; rfl
  | succ n ih =>
    rw [range_succ, map_append, flatMap_append, ih, map_singleton, flatMap_singleton, Nat.succ_mul,
      ← range_append_block, map_append, range'_eq_map_range, map_map]
    congr 1
    apply map_congr_left
    intro row hrow
    have hlt := mem_range.mp hrow
    rw [comp_apply, PageRing.mul_add_div hlt, Nat.mul_add_mod_self_right, Nat.mod_eq_of_lt hlt]

theorem pagedRows_eq {length : Nat} (hpos : 0 < length) (hfits : length ≤ args.pageCount * pageSize) :
    pagedRows args request length = .ok ((range length).map (args.physRow request)) := by
  have hcover : length ≤ min ((length + pageSize - 1) / pageSize) args.pageCount * pageSize := by
    rw [pageSize] at hfits ⊢
    omega
  have hnonneg : ¬ (length : Int) ≤ 0 := by omega
  simp only [pagedRows, if_neg hnonneg, Int.toNat_natCast]
  rw [← map_take, take_range, flatMap_pages, ← map_take, take_range, Nat.min_eq_left hcover]
  rfl

end

theorem denseRow_eq {n p : Nat} (hw : Exponential cfg.weight) (hp : p < n) :
    denseRow cfg args ((range n).map (args.physRow request)) p queryRow head =
      attention cfg.weight ((range (p + 1)).map (entry cfg args request queryRow head)) := by
  let lane : Nat → WithBot K × (Nat → K) := fun i =>
    (if (i : Int) ≤ p then ((entry cfg args request queryRow head i).1 : WithBot K) else ⊥,
      (entry cfg args request queryRow head i).2)
  have hkv : cfg.geo.numQHeads / cfg.geo.numKvHeads = cfg.geo.gqa :=
    Nat.mul_div_cancel_left _ cfg.geo.numKvHeads_pos
  have hseen : seen ((range n).map lane) = (range (p + 1)).map (entry cfg args request queryRow head) := by
    have hmin : min (p + 1) n = p + 1 := Nat.min_eq_left hp
    rw [← hmin]
    apply seen_map_range n
    · intro i hi
      exact Prod.ext (if_pos (by omega)) rfl
    · intro i hi
      exact if_neg (by omega)
  have hscores : (((range n).map (args.physRow request)).zipIdx.map fun key =>
      if (key.2 : Int) ≤ p then
        (cfg.score args true queryRow head (poolRow cfg args.kCache key.1 (head / cfg.geo.gqa)) : WithBot K)
      else ⊥) = ((range n).map lane).map Prod.fst := by
    apply ext_getElem
    · simp
    · intro i hi hi'
      simp [lane, entry]
  have hof := (Tally.Of.empty (w := cfg.weight)).absorb hw ((range n).map lane)
  rw [nil_append, hseen] at hof
  have htop : lanePeak ((range n).map lane) ≠ ⊥ := by
    rw [lanePeak_eq, hseen, Ne, peak_eq_bot_iff, map_eq_nil_iff, range_eq_nil]
    exact Nat.succ_ne_zero p
  have hweights : (((range n).map lane).map Prod.fst).map (fun s =>
      if lanePeak ((range n).map lane) = ⊥ then 1 else relative cfg.weight s (lanePeak ((range n).map lane))) =
        ((range n).map lane).map fun l => relative cfg.weight l.1 (lanePeak ((range n).map lane)) := by
    rw [map_map]
    apply map_congr_left
    intro l _
    exact if_neg htop
  have hread := hof.read hw
  simp only [Tally.absorb, Tally.moved, Tally.empty, zero_mul, zero_add, smul_zero, bot_sup_eq] at hread
  have htopfold : (((range n).map lane).map Prod.fst).foldr max ⊥ = lanePeak ((range n).map lane) := rfl
  simp only [denseRow, hkv, hscores, htopfold]
  rw [hweights, ← hread, laneMass, laneMoment, smul_sum, map_map, map_map, map_map,
    map_map, zipWith_map, zipWith_self, map_map]
  apply congrArg List.sum
  apply map_congr_left
  intro i _
  simp only [comp_apply, smul_smul, div_eq_inv_mul]
  rfl

/-- The single call returns the rows unless it takes a kernel that does not compile. -/
theorem denseAttentionSingle_iff (place : Placement) {pastLen totalLen : Nat}
    (hw : Exponential cfg.weight) (hfits : totalLen ≤ args.pageCount * pageSize)
    (hrows : totalLen = pastLen + args.rows) :
    (∃ out, denseAttentionSingle cfg place args pastLen totalLen hfits = .ok out ∧
      ∀ queryRow < args.rows, ∀ head < cfg.geo.numQHeads,
        out queryRow head = rowAttention cfg (args.single pastLen totalLen hfits) 0 queryRow head) ↔
      (place.native → cfg.compiles (.fixed args.rows) 1) := by
  have hpos := args.rows_pos
  rw [denseAttentionSingle]
  by_cases hnative : place.native
  · rw [if_pos hnative]
    by_cases hcompiles : cfg.compiles (.fixed args.rows) 1
    · refine ⟨fun _ _ => hcompiles, fun _ => ⟨fun queryRow head => launch cfg (args.single pastLen totalLen hfits)
        (.fixed args.rows) (fun _ _ => 0) (queryRow * cfg.geo.numQHeads + head),
        by rw [pagedF32Attention]; exact congrArg (· >>= _) (if_pos hcompiles), fun queryRow hrow head hhead => ?_⟩⟩
      have hgeometry : (args.single pastLen totalLen hfits).rows =
          (args.single pastLen totalLen hfits).batch * args.rows :=
        (Nat.one_mul _).symm
      exact (launch_fixed hw _ hgeometry hrow hhead).trans (by rw [Nat.div_eq_of_lt hrow])
    · have hraise : pagedF32Attention cfg (args.single pastLen totalLen hfits) (.fixed args.rows) (fun _ _ => 0) =
          .error _ := if_neg hcompiles
      refine ⟨?_, fun h => absurd (h hnative) hcompiles⟩
      rintro ⟨out, hout, -⟩
      rw [hraise] at hout
      cases hout
  · have hgather : pagedRows (args.single pastLen totalLen hfits) 0 totalLen = _ := pagedRows_eq (by omega) hfits
    rw [if_neg hnative, hgather]
    refine ⟨fun _ h => absurd h hnative, fun _ => ⟨_, rfl, fun queryRow hrow head _ => ?_⟩⟩
    have hbound : (args.single pastLen totalLen hfits).bound 0 queryRow = pastLen + queryRow + 1 := by
      simp only [Inputs.bound, Inputs.single]
      omega
    rw [rowAttention, hbound]
    exact denseRow_eq hw (by omega)

/-- What a caller that reads its buffer asks for: whatever the buffer held, the head vectors of every query row. -/
def Leaves (cfg : Config K) (args : Inputs K) (call : Buffer K → Except String (Buffer K))
    (expected : Nat → Nat → Nat → K) : Prop :=
  ∀ output, ∃ out, call output = .ok out ∧ ∀ queryRow < args.rows, ∀ head < cfg.geo.numQHeads,
    out (queryRow * cfg.geo.numQHeads + head) = expected queryRow head

theorem not_leaves {call : Buffer K → Except String (Buffer K)} {expected : Nat → Nat → Nat → K}
    (hkeeps : ∀ output out, call output = .ok out → out = output) : ¬ Leaves cfg args call expected := by
  intro h
  have hheads : 0 < cfg.geo.numQHeads := Nat.mul_pos cfg.geo.numKvHeads_pos cfg.geo.gqa_pos
  obtain ⟨out, hout, hrows⟩ := h fun _ d => expected 0 0 d + 1
  have h0 := congrFun (hrows 0 args.rows_pos 0 hheads) 0
  rw [hkeeps _ _ hout] at h0
  exact absurd h0 (add_ne_left.mpr one_ne_zero)

omit [Field K] [LinearOrder K] [IsStrictOrderedRing K] in
theorem keeps_of_bind {α : Type} {x : Except String α} {f : α → List (HeadRows K)} {output out : Buffer K}
    (h : (x >>= fun outputs => pure (f outputs, output)).map Prod.snd = .ok out) : out = output := by
  cases x with
  | error e => exact absurd h (by simp [Except.map, bind, Except.bind])
  | ok outputs => exact (Except.ok.inj h).symm

/-- The native branch is taken, and its kernel compiles. -/
def Launches (cfg : Config K) (place : Placement) (layout : Layout) (batch : Nat) : Prop :=
  place.native ∧ cfg.compiles layout batch

omit [IsStrictOrderedRing K] in
/-- Without a launch a call raises or ends with the buffer it was given. -/
theorem keeps_of_not_launches {place : Placement} {layout : Layout} {f : Buffer K → List (HeadRows K)}
    {fallback : Except String (List (HeadRows K) × Buffer K)} {output out : Buffer K}
    (hlaunch : ¬ Launches cfg place layout args.batch) (hfallback : fallback.map Prod.snd = .ok out → out = output)
    (h : (if place.native then pagedF32Attention cfg args layout output >>= fun out => pure (f out, out)
      else fallback).map Prod.snd = .ok out) : out = output := by
  by_cases hnative : place.native
  · have hcompiles : ¬ cfg.compiles layout args.batch := fun hcompiles => hlaunch ⟨hnative, hcompiles⟩
    rw [if_pos hnative, pagedF32Attention, if_neg hcompiles] at h
    cases h
  · rw [if_neg hnative] at h
    exact hfallback h

omit [IsStrictOrderedRing K] in
theorem batched_keeps {place : Placement} {q : Nat} {includeQuery : Bool}
    (hlaunch : ¬ Launches cfg place (.fixed q) args.batch) (output out : Buffer K)
    (h : (denseAttentionBatched cfg place args q includeQuery output).map Prod.snd = .ok out) : out = output := by
  refine keeps_of_not_launches hlaunch (fun hfallback => ?_) h
  by_cases hgeometry : args.rows ≠ args.batch * q
  · rw [if_pos hgeometry] at hfallback
    cases hfallback
  · rw [if_neg hgeometry] at hfallback
    exact keeps_of_bind hfallback

omit [IsStrictOrderedRing K] in
theorem ragged_keeps {place : Placement} (hlaunch : ¬ Launches cfg place (.ragged cu) args.batch)
    (output out : Buffer K) (h : (denseAttentionRagged cfg place args cu output).map Prod.snd = .ok out) :
    out = output :=
  keeps_of_not_launches hlaunch keeps_of_bind h

/-- A uniform call gives its caller the rows when it launches the kernel, and only then. -/
theorem batched_leaves {q : Nat} {includeQuery : Bool} (hw : Exponential cfg.weight) (place : Placement)
    (hgeometry : args.rows = args.batch * q) :
    Leaves cfg args (fun output => (denseAttentionBatched cfg place args q includeQuery output).map Prod.snd)
        (fun queryRow => rowAttention cfg args (queryRow / q) queryRow) ↔ Launches cfg place (.fixed q) args.batch := by
  constructor
  · intro h
    by_contra hlaunch
    exact not_leaves (batched_keeps hlaunch) h
  · rintro ⟨hnative, hcompiles⟩ output
    refine ⟨launch cfg args (.fixed q) output, ?_, fun queryRow hrow head hhead => ?_⟩
    · dsimp only
      rw [denseAttentionBatched, if_pos hnative, pagedF32Attention, if_pos hcompiles]
      rfl
    · exact launch_fixed hw output hgeometry hrow hhead

omit [Field K] [LinearOrder K] [IsStrictOrderedRing K] in
theorem exists_request {row : Nat} (hzero : cu 0 = 0) {n : Nat} (hrow : row < cu n) :
    ∃ request < n, cu request ≤ row ∧ row < cu (request + 1) := by
  induction n with
  | zero => omega
  | succ n ih =>
    by_cases hbefore : row < cu n
    · obtain ⟨request, hrequest, hspan⟩ := ih hbefore
      exact ⟨request, Nat.lt_succ_of_lt hrequest, hspan⟩
    · exact ⟨n, Nat.lt_succ_self n, Nat.not_lt.mp hbefore, hrow⟩

/-- The rows of a compact ragged call: the tail of the capacity is zero. -/
def RaggedRows (cfg : Config K) (args : Inputs K) (cu : Nat → Nat) (expected : Nat → Nat → Nat → K) : Prop :=
  (∀ request < args.batch, ∀ queryRow, cu request ≤ queryRow → queryRow < cu (request + 1) →
      expected queryRow = rowAttention cfg args request queryRow) ∧
    ∀ queryRow, cu args.batch ≤ queryRow → expected queryRow = 0

/-- A ragged call gives its caller the rows when it launches the kernel, and only then. -/
theorem ragged_leaves {expected : Nat → Nat → Nat → K} (hw : Exponential cfg.weight) (place : Placement)
    (hcu : Monotone cu) (hzero : cu 0 = 0) (hexpected : RaggedRows cfg args cu expected) :
    Leaves cfg args (verifyRaggedBatch cfg place args cu) expected ↔ Launches cfg place (.ragged cu) args.batch := by
  constructor
  · intro h
    by_contra hlaunch
    exact not_leaves (ragged_keeps hlaunch) h
  · rintro ⟨hnative, hcompiles⟩ output
    refine ⟨launch cfg args (.ragged cu) output, ?_, fun queryRow hrow head hhead => ?_⟩
    · rw [verifyRaggedBatch, denseAttentionRagged, if_pos hnative, pagedF32Attention, if_pos hcompiles]
      rfl
    · by_cases htail : cu args.batch ≤ queryRow
      · rw [hexpected.2 queryRow htail, launch_tail output htail hrow hhead]
        rfl
      · obtain ⟨request, hrequest, hstart, hend⟩ := exists_request hzero (Nat.not_le.mp htail)
        rw [hexpected.1 request hrequest queryRow hstart hend,
          launch_ragged hw output hcu hrequest hstart hend hrow hhead]

/-- The callers of the three methods. -/
theorem leaves_iff_launches (cfg : Config K) (hw : Exponential cfg.exp2) (place : Placement) (args : Inputs K) :
    (args.rows = args.batch → (Leaves cfg args (decodeBatch cfg place args)
        (fun queryRow => rowAttention cfg args queryRow queryRow) ↔ Launches cfg place (.fixed 1) args.batch)) ∧
    (∀ seqLen, args.rows = args.batch * seqLen →
      (Leaves cfg args (prefillBatch cfg place args seqLen)
        (fun queryRow => rowAttention cfg args (queryRow / seqLen) queryRow) ↔
          Launches cfg place (.fixed seqLen) args.batch) ∧
      (Leaves cfg args (verifyBatch cfg place args seqLen)
        (fun queryRow => rowAttention cfg args (queryRow / seqLen) queryRow) ↔
          Launches cfg place (.fixed seqLen) args.batch)) ∧
    (∀ cu expected, Monotone cu → cu 0 = 0 → RaggedRows cfg args cu expected →
      (Leaves cfg args (verifyRaggedBatch cfg place args cu) expected ↔ Launches cfg place (.ragged cu) args.batch)) ∧
    ∀ pastLen totalLen (hfits : totalLen ≤ args.pageCount * pageSize), totalLen = pastLen + args.rows →
      ((∃ out, denseAttentionSingle cfg place args pastLen totalLen hfits = .ok out ∧
        ∀ queryRow < args.rows, ∀ head < cfg.geo.numQHeads,
          out queryRow head = rowAttention cfg (args.single pastLen totalLen hfits) 0 queryRow head) ↔
        (place.native → cfg.compiles (.fixed args.rows) 1)) := by
  have hweight : Exponential cfg.weight := hw.comp_mul _
  refine ⟨fun hrows => ?_, fun seqLen hrows => ⟨?_, ?_⟩, fun cu expected hcu hzero hexpected => ?_,
    fun pastLen totalLen hfits hrows => ?_⟩
  · have hdecode : Leaves cfg args (decodeBatch cfg place args)
        (fun queryRow => rowAttention cfg args (queryRow / 1) queryRow) ↔ Launches cfg place (.fixed 1) args.batch :=
      batched_leaves hweight place (hrows.trans (Nat.mul_one _).symm)
    simpa only [Nat.div_one] using hdecode
  · exact batched_leaves hweight place hrows
  · exact batched_leaves hweight place hrows
  · exact ragged_leaves hweight place hcu hzero hexpected
  · exact denseAttentionSingle_iff place hweight hfits hrows

local instance atLeastTwo_two : Nat.AtLeastTwo 2 := ⟨Nat.le_refl 2⟩

theorem kvHeads_pos : 0 < 4 := by decide

theorem group_pos : 0 < 6 := by decide

theorem headDim_pos : 0 < 256 := by decide

/-- Qwen3.8-27B. -/
noncomputable def qwenConfig : Config ℝ where
  exp2 x := 2 ^ x
  scale := 1 / 16
  geo := ⟨4, 6, 256, kvHeads_pos, group_pos, headDim_pos⟩
  fitsDevice := true

/-- Two requests, of 40 and of 200 cached rows, with four query rows. -/
noncomputable def twoRequests : Inputs ℝ where
  query i := i
  kCache i := i
  vCache i := i
  batch := 2
  rows := 4
  pageCount := 2
  pageTable request page := 2 * page + request
  cacheSeqlens request := if request = 0 then 40 else 200
  positions row := if row < 2 then 38 + row else 196 + row
  batch_pos := Nat.two_pos
  rows_pos := kvHeads_pos
  fits request := by split <;> decide

/-- A uniform verify; a ragged one with one row, two rows and a tail row; and the second request alone. -/
theorem leaves_iff_launches_two :
    let cu := fun i => if i = 0 then 0 else 2 * i - 1
    Leaves qwenConfig twoRequests (verifyBatch qwenConfig ⟨true, true, true, true⟩ twoRequests 2)
      (fun queryRow => rowAttention qwenConfig twoRequests (queryRow / 2) queryRow) ∧
    Leaves qwenConfig twoRequests (verifyRaggedBatch qwenConfig ⟨true, true, true, true⟩ twoRequests cu)
      (fun queryRow => if queryRow < 3 then rowAttention qwenConfig twoRequests ((queryRow + 1) / 2) queryRow
        else 0) ∧
    ∃ out, denseAttentionSingle qwenConfig ⟨false, true, true, true⟩ twoRequests 196 200 (by decide) = .ok out := by
  intro cu
  have hall := leaves_iff_launches qwenConfig ⟨Real.rpow_pos_of_pos two_pos, Real.rpow_add two_pos⟩
  have hcu : Monotone cu := by
    intro i j hij
    dsimp only [cu]
    split_ifs <;> omega
  obtain ⟨-, huniform, hragged, -⟩ := hall ⟨true, true, true, true⟩ twoRequests
  obtain ⟨-, -, -, hsingle⟩ := hall ⟨false, true, true, true⟩ twoRequests
  refine ⟨(huniform 2 rfl).2.mpr ⟨rfl, rfl⟩, (hragged cu _ hcu rfl ⟨fun request hrequest queryRow hstart hend => ?_,
    fun queryRow htail => if_neg (Nat.not_lt.mpr htail)⟩).mpr ⟨rfl, rfl⟩, ?_⟩
  · have hrow : queryRow < 3 ∧ (queryRow + 1) / 2 = request := by
      dsimp only [cu, twoRequests] at hstart hend hrequest
      split_ifs at hstart hend <;> omega
    have htest : queryRow < cu twoRequests.batch := hrow.1
    rw [if_pos htest, hrow.2]
  · obtain ⟨out, hout, -⟩ := (hsingle 196 200 (by decide) rfl).mpr fun h => absurd h (by decide)
    exact ⟨out, hout⟩

/-- On the CPU the rows are returned to a caller that reads its buffer instead; three ragged requests
do not compile. -/
theorem not_leaves_two :
    ¬ Leaves qwenConfig twoRequests (verifyBatch qwenConfig ⟨false, true, true, true⟩ twoRequests 2)
      (fun queryRow => rowAttention qwenConfig twoRequests (queryRow / 2) queryRow) ∧
    ∀ expected, ¬ Leaves qwenConfig { twoRequests with batch := 3, batch_pos := by decide }
      (verifyRaggedBatch qwenConfig ⟨true, true, true, true⟩
        { twoRequests with batch := 3, batch_pos := by decide } id) expected :=
  ⟨not_leaves (batched_keeps fun h => absurd h.1 (by decide)),
    fun _ => not_leaves (ragged_keeps fun h => absurd h.2 (by decide))⟩

end Exactness

end F32Attention
