import BlackweLLM.ArrayFill
import BlackweLLM.OnlineSoftmax
import BlackweLLM.PageRing
import Mathlib.Analysis.SpecialFunctions.Pow.Real
import Mathlib.Data.Nat.Bitwise

/-!
# Decode attention over NVFP4 key and value pools

`runtime/kernels/nvfp4_decode_attn.py` over exact arithmetic, and the way
`Qwen36Attention.decode_batch` and `verify_batch` call it. The first kernel cuts
the cache of a request into `n_split` segments and leaves a running maximum and
two sums for each; the second puts them together. `none` is NaN.
-/

namespace NvfpAttention

open OnlineSoftmax
open List (zipWith range mapM_cons range' map_map range_succ map_append mem_range map_cons length_map length_range)

/-! The numerals of the kernels. -/

local instance atLeastTwo_two : Nat.AtLeastTwo 2 := ⟨by decide⟩
local instance atLeastTwo_four : Nat.AtLeastTwo 4 := ⟨by decide⟩
local instance atLeastTwo_ten : Nat.AtLeastTwo 10 := ⟨by decide⟩
local instance atLeastTwo_sixteen : Nat.AtLeastTwo 16 := ⟨by decide⟩
local instance atLeastTwo_unit : Nat.AtLeastTwo 10000000000000000 := ⟨by decide⟩
local instance atLeastTwo_log : Nat.AtLeastTwo 14426950408889634 := ⟨by decide⟩

section Unpacking

variable {K : Type} [Field K]

def e4m3ByteToF32 (exp2 : K → K) (byte : UInt8) : K :=
  let sign := (byte.toNat >>> 7) &&& 0x1
  let exp4 := (byte.toNat >>> 3) &&& 0xF
  let mant := byte.toNat &&& 0x7
  let sub := (mant : K) / 512
  let norm := (8 + (mant : K)) * exp2 ((exp4 : K) - 10)
  let val := if exp4 = 0 then sub else norm
  if sign = 1 then -val else val

/-- The chain of `tl.where` over the magnitude of a code. -/
def magnitude : Nat → K
  | 1 => 1 / 2
  | 2 => 1
  | 3 => 3 / 2
  | 4 => 2
  | 5 => 3
  | 6 => 4
  | 7 => 6
  | _ => 0

def codeValue (nib : Nat) : K := magnitude (nib &&& 0x7) * (1 - 2 * ((nib >>> 3 &&& 0x1 : Nat) : K))

structure Pool where
  codes : Nat → UInt8
  scales : Nat → UInt8

/-- Column `i` of a half that `_unpack_kv_half` unpacks, for a lane under its mask. -/
def unpackKvHalf (exp2 : K → K) (pool : Pool) (H D phys head halfStart : Nat) (mask : Bool) (i : Nat) : K :=
  let kc : UInt8 := if mask then pool.codes (phys * (H * (D / 2)) + head * (D / 2) + (halfStart / 2 + i / 2)) else 0
  let nib := if i % 2 = 0 then kc.toNat &&& 0xF else (kc.toNat >>> 4) &&& 0xF
  let sf : UInt8 := if mask then pool.scales (phys * (H * (D / 16)) + head * (D / 16) + (halfStart + i) / 16) else 0
  codeValue nib * e4m3ByteToF32 exp2 sf

def unpackRow (exp2 : K → K) (pool : Pool) (H D phys head : Nat) (mask : Bool) (e : Nat) : K :=
  if e < D / 2 then unpackKvHalf exp2 pool H D phys head 0 mask e
  else unpackKvHalf exp2 pool H D phys head (D / 2) mask (e - D / 2)

/-- Element `e` of the row a pool holds for a head: two codes in a byte, one scale for 16 elements. -/
def storedRow (exp2 : K → K) (pool : Pool) (H D phys head e : Nat) : K :=
  let byte := (pool.codes (phys * (H * (D / 2)) + head * (D / 2) + e / 2)).toNat
  codeValue (if e % 2 = 0 then byte &&& 0xF else (byte >>> 4) &&& 0xF) *
    e4m3ByteToF32 exp2 (pool.scales (phys * (H * (D / 16)) + head * (D / 16) + e / 16))

theorem unpackRow_eq (exp2 : K → K) (pool : Pool) (H blocks phys head : Nat) :
    unpackRow exp2 pool H (16 * blocks) phys head true = storedRow exp2 pool H (16 * blocks) phys head := by
  funext e
  have hhalf : 16 * blocks / 2 = 2 * (4 * blocks) := by omega
  by_cases h : e < 16 * blocks / 2
  · rw [unpackRow, if_pos h, unpackKvHalf, Nat.zero_div, zero_add, zero_add]
    rfl
  · have hbyte : 16 * blocks / 2 / 2 + (e - 16 * blocks / 2) / 2 = e / 2 := by omega
    have hpar : (e - 16 * blocks / 2) % 2 = e % 2 := by omega
    have hscale : 16 * blocks / 2 + (e - 16 * blocks / 2) = e := by omega
    rw [unpackRow, if_neg h, unpackKvHalf, hbyte, hpar, hscale]
    rfl

end Unpacking

section Numbers

variable {K : Type} [Field K] [LinearOrder K]

/-- `exp2(a - b)` for numbers that may be `-∞`; `-∞ - -∞` is NaN. -/
def expDiff (w : K → K) (a : WithBot K) : WithBot K → Option K
  | ⊥ => none
  | (b : K) => some (relative w a b)

/-- `m_i`, `l_i` and `acc` of one query head. -/
structure Running (K : Type) where
  m : WithBot K
  l : Option K
  acc : Option (Nat → K)

def Running.initial : Running K := ⟨⊥, some 0, some 0⟩

/-- One round of the loop over key blocks. -/
def Running.step (w : K → K) (st : Running K) (lanes : List (WithBot K × (Nat → K))) : Running K :=
  let mNew := max st.m (lanePeak lanes)
  let alpha := expDiff w st.m mNew
  let p := lanes.mapM fun lane => expDiff w lane.1 mNew
  let pv := p.map fun p => (zipWith (fun p (lane : WithBot K × (Nat → K)) => p • lane.2) p lanes).sum
  { m := mNew
    l := do return (← st.l) * (← alpha) + (← p).sum
    acc := do return (← alpha) • (← st.acc) + (← pv) }

end Numbers

section Kernels

variable {K : Type} [Field K] [LinearOrder K]

structure Geometry where
  kvHeads : Nat
  gqa : Nat
  blocks : Nat
  kvHeads_pos : 0 < kvHeads
  gqa_pos : 0 < gqa
  blocks_pos : 0 < blocks

/-- `HEAD_DIM`, a multiple of the scale block. -/
def Geometry.headDim (geo : Geometry) : Nat := 16 * geo.blocks

def Geometry.qHeads (geo : Geometry) : Nat := geo.kvHeads * geo.gqa

structure Contents (K : Type) where
  q : Nat → K
  k : Pool
  v : Pool

structure Metadata where
  totalQ : Nat
  rowOffsets : Nat → Nat
  cacheSeqlens : Nat → Nat
  queryToRequest : Nat → Nat
  queryPositions : Nat → Int

/-- What does not change from call to call: `tl.exp2`, `1.0 / HEAD_DIM ** 0.5` and the sizes. -/
structure Config (K : Type) where
  exp2 : K → K
  scale : K
  geo : Geometry
  nSplit : Nat
  blockK : Nat
  nSplit_pos : 0 < nSplit
  blockK_pos : 0 < blockK

def Config.weight (cfg : Config K) (x : K) : K := cfg.exp2 (x * (14426950408889634 / 10000000000000000))

/-- `tl.dot(q, tl.trans(k)) * scale` for query head `head` of query row `row`. -/
def Config.score (cfg : Config K) (data : Contents K) (row head : Nat) (k : Nat → K) : K :=
  ((range cfg.geo.headDim).map fun d =>
    data.q (row * cfg.geo.qHeads * cfg.geo.headDim + head * cfg.geo.headDim + d) * k d).sum * cfg.scale

def blockLanes (cfg : Config K) (data : Contents K) (args : Metadata) (pidQ pidH g segEnd kStart : Nat) :
    List (WithBot K × (Nat → K)) :=
  let req := args.queryToRequest pidQ
  let n := min (kStart + cfg.blockK) segEnd - kStart
  (range cfg.blockK).map fun row =>
    let phys := args.rowOffsets req + kStart + row
    let k := unpackRow cfg.exp2 data.k cfg.geo.kvHeads cfg.geo.headDim phys pidH (decide (row < n))
    let v := unpackRow cfg.exp2 data.v cfg.geo.kvHeads cfg.geo.headDim phys pidH (decide (row < n))
    let causal := ((kStart + row : Nat) : Int) ≤ args.queryPositions pidQ
    let qk : WithBot K := if row < n ∧ causal then cfg.score data pidQ (pidH * cfg.geo.gqa + g) k else ⊥
    (qk, v)

def steps (start stop step : Nat) : List Nat :=
  (range ((stop - start + step - 1) / step)).map fun i => start + step * i

/-- `nvfp4_decode_partial_kernel` for one of the query heads of its group; nothing is stored for an empty segment. -/
def partialKernel (cfg : Config K) (data : Contents K) (args : Metadata) (pidS pidH pidQ g : Nat) :
    Option (Running K) :=
  let req := args.queryToRequest pidQ
  let cacheLen := args.cacheSeqlens req
  let segLen := cacheLen / cfg.nSplit
  let segStart := pidS * segLen
  let segEnd := min (segStart + segLen) cacheLen
  if segStart ≥ segEnd then none
  else some ((steps segStart segEnd cfg.blockK).foldl
    (fun st kStart => st.step cfg.weight (blockLanes cfg data args pidQ pidH g segEnd kStart)) Running.initial)

def partialAddress (cfg : Config K) (pidS pidH pidQ g : Nat) : Nat :=
  pidQ * (cfg.nSplit * cfg.geo.kvHeads * cfg.geo.gqa) + pidH * (cfg.nSplit * cfg.geo.gqa) + pidS * cfg.geo.gqa + g

/-- What the programs of the first kernel store, in some order. -/
def stores (cfg : Config K) (data : Contents K) (args : Metadata) : List (Nat × Running K) :=
  (range args.totalQ).flatMap fun pidQ => (range cfg.geo.kvHeads).flatMap fun pidH =>
    (range cfg.nSplit).flatMap fun pidS => (range cfg.geo.gqa).filterMap fun g =>
      (partialKernel cfg data args pidS pidH pidQ g).map fun st => (partialAddress cfg pidS pidH pidQ g, st)

def partials (cfg : Config K) (data : Contents K) (args : Metadata) : Nat → Running K :=
  ArrayFill.stored (fun _ => Running.initial) (stores cfg data args)

def combine (w : K → K) (loaded : List (Running K)) : Option (Nat → K) := do
  let mMax := (loaded.map Running.m).foldr max ⊥
  let scaled ← loaded.mapM fun st => do
    let scale ← expDiff w st.m mMax
    return ((← st.l) * scale, scale • (← st.acc))
  let lsum := (scaled.map Prod.fst).sum
  let accSum := (scaled.map Prod.snd).sum
  if lsum = 0 then none else some (lsum⁻¹ • accSum)

def mergeKernel (cfg : Config K) (out : Nat → Running K) (pid : Nat) : Option (Nat → K) :=
  let r := pid / cfg.geo.qHeads
  let qh := pid % cfg.geo.qHeads
  let kh := qh / cfg.geo.gqa
  let ql := qh % cfg.geo.gqa
  let nparts := cfg.nSplit * cfg.geo.kvHeads
  combine cfg.weight ((range cfg.nSplit).map fun s =>
    out (r * nparts * cfg.geo.gqa + kh * cfg.nSplit * cfg.geo.gqa + ql + s * cfg.geo.gqa))

/-- `nvfp4_decode_attention`: the output row of a query row and head. -/
def nvfp4DecodeAttention (cfg : Config K) (data : Contents K) (args : Metadata) (row head : Nat) : Option (Nat → K) :=
  mergeKernel cfg (partials cfg data args) (row * cfg.geo.qHeads + head)

end Kernels

section Calls

variable {K : Type} [Field K]

def entry (cfg : Config K) (data : Contents K) (row head kvHead phys : Nat) : K × (Nat → K) :=
  (cfg.score data row head (storedRow cfg.exp2 data.k cfg.geo.kvHeads cfg.geo.headDim phys kvHead),
    storedRow cfg.exp2 data.v cfg.geo.kvHeads cfg.geo.headDim phys kvHead)

/-- The requests of a step: the tokens in front of it, and the page table of the slot pool. -/
structure Requests where
  batch : Nat
  past : Nat → Nat
  pageTable : Nat → Nat → Nat
  pageSize : Nat

def Requests.physRow (reqs : Requests) (request position : Nat) : Nat :=
  reqs.pageTable request (position / reqs.pageSize) * reqs.pageSize + position % reqs.pageSize

/-- The call in `decode_batch`; the lengths include the token of the step. -/
def decodeBatch (reqs : Requests) : Metadata :=
  let cacheSeqlens request := reqs.past request + 1
  { totalQ := reqs.batch
    rowOffsets request := reqs.pageTable request 0 * reqs.pageSize
    cacheSeqlens
    queryToRequest row := row
    queryPositions row := (cacheSeqlens row : Int) - 1 }

/-- The call in `verify_batch`; the lengths include the `qoLen` tokens of the block. -/
def verifyBatch (reqs : Requests) (qoLen : Nat) : Metadata :=
  let cacheSeqlens request := reqs.past request + qoLen
  { totalQ := reqs.batch * qoLen
    rowOffsets request := reqs.pageTable request 0 * reqs.pageSize
    cacheSeqlens
    queryToRequest row := row / qoLen
    queryPositions row := (cacheSeqlens (row / qoLen) : Int) + (row % qoLen : Nat) }

def causalAttention (cfg : Config K) (data : Contents K) (reqs : Requests) (request position row head : Nat) :
    Nat → K :=
  attention cfg.weight ((range (position + 1)).map fun p =>
    entry cfg data row head (head / cfg.geo.gqa) (reqs.physRow request p))

end Calls

section Loops

variable {K : Type} [Field K] [LinearOrder K] {w : K → K} {t : Tally K (Nat → K)} {rows : List (K × (Nat → K))}

def ofTally (t : Tally K (Nat → K)) : Running K := ⟨t.top, some t.sum, some t.acc⟩

omit [LinearOrder K] in
theorem mapM_expDiff (m : K) (lanes : List (WithBot K × (Nat → K))) :
    (lanes.mapM fun lane => expDiff w lane.1 m) = some (lanes.map fun lane => relative w lane.1 m) := by
  induction lanes with
  | nil => rfl
  | cons lane lanes ih =>
    rw [mapM_cons, ih]
    rfl

theorem step_ofTally (lanes : List (WithBot K × (Nat → K))) (h : (t.absorb w lanes).top ≠ ⊥) :
    (ofTally t).step w lanes = ofTally (t.absorb w lanes) := by
  obtain ⟨m, hm⟩ := WithBot.ne_bot_iff_exists.mp h
  have hmax : max t.top (lanePeak lanes) = m := hm.symm
  have hzip : zipWith (fun p (lane : WithBot K × (Nat → K)) => p • lane.2)
      (lanes.map fun lane => relative w lane.1 m) lanes = lanes.map fun lane => relative w lane.1 m • lane.2 := by
    rw [List.zipWith_map_left, List.zipWith_self]
  simp only [Running.step, ofTally, Tally.absorb, Tally.moved, hmax, mapM_expDiff, Option.map_some, hzip, laneMass,
    laneMoment]
  rfl

variable {cfg : Config K} {data : Contents K} {args : Metadata} {pidS pidH pidQ g start len : Nat}

omit [LinearOrder K] in
theorem seen_blockLanes (kStart : Nat) (hcausal : ∀ p < start + len, (p : Int) ≤ args.queryPositions pidQ) :
    seen (blockLanes cfg data args pidQ pidH g (start + len) kStart) =
      (range' kStart (min cfg.blockK (start + len - kStart))).map fun p =>
        entry cfg data pidQ (pidH * cfg.geo.gqa + g) pidH (args.rowOffsets (args.queryToRequest pidQ) + p) := by
  have hn : min (min (kStart + cfg.blockK) (start + len) - kStart) cfg.blockK =
      min cfg.blockK (start + len - kStart) := by omega
  rw [List.range'_eq_map_range, map_map, ← hn]
  apply seen_map_range cfg.blockK
  · intro i hi
    have hshown : i < min (kStart + cfg.blockK) (start + len) - kStart ∧
        ((kStart + i : Nat) : Int) ≤ args.queryPositions pidQ := ⟨hi, hcausal _ (by omega)⟩
    dsimp only
    rw [if_pos hshown, decide_eq_true hi, Geometry.headDim, unpackRow_eq, unpackRow_eq, Function.comp_apply, add_assoc]
    rfl
  · intro i hi
    exact if_neg fun h => absurd h.1 (not_lt.mpr hi)

def tallyOf (cfg : Config K) (data : Contents K) (args : Metadata) (pidQ pidH g start len i : Nat) :
    Tally K (Nat → K) :=
  ((range i).map fun i => start + cfg.blockK * i).foldl
    (fun t kStart => t.absorb cfg.weight (blockLanes cfg data args pidQ pidH g (start + len) kStart)) Tally.empty

theorem tallyOf_succ (i : Nat) : tallyOf cfg data args pidQ pidH g start len (i + 1) =
    (tallyOf cfg data args pidQ pidH g start len i).absorb cfg.weight
      (blockLanes cfg data args pidQ pidH g (start + len) (start + cfg.blockK * i)) := by
  rw [tallyOf, range_succ, map_append, List.foldl_append]
  rfl

theorem tallyOf_of (hw : Exponential cfg.weight) (data : Contents K) (pidH g : Nat)
    (hcausal : ∀ p < start + len, (p : Int) ≤ args.queryPositions pidQ) (i : Nat) :
    (tallyOf cfg data args pidQ pidH g start len i).Of cfg.weight
      ((range' start (min (cfg.blockK * i) len)).map fun p =>
        entry cfg data pidQ (pidH * cfg.geo.gqa + g) pidH (args.rowOffsets (args.queryToRequest pidQ) + p)) := by
  induction i with
  | zero =>
    rw [mul_zero, Nat.zero_min]
    exact Tally.Of.empty
  | succ i ih =>
    have hblock := ih.absorb hw (blockLanes cfg data args pidQ pidH g (start + len) (start + cfg.blockK * i))
    rw [tallyOf_succ]
    rw [seen_blockLanes _ hcausal, ← map_append] at hblock
    by_cases hin : cfg.blockK * i ≤ len
    · have hsum : cfg.blockK * i + min cfg.blockK (start + len - (start + cfg.blockK * i)) =
          min (cfg.blockK * (i + 1)) len := by
        rw [Nat.mul_succ]
        omega
      rwa [min_eq_left hin, List.range'_append_1, hsum] at hblock
    · have hnone : min cfg.blockK (start + len - (start + cfg.blockK * i)) = 0 := by omega
      have hfull : min (cfg.blockK * (i + 1)) len = min (cfg.blockK * i) len := by
        rw [Nat.mul_succ]
        omega
      rwa [hnone, List.range'_zero, List.append_nil, ← hfull] at hblock

theorem foldl_ofTally (hw : Exponential cfg.weight) (hlen : 0 < len)
    (hcausal : ∀ p < start + len, (p : Int) ≤ args.queryPositions pidQ) (i : Nat) :
    ((range i).map fun i => start + cfg.blockK * i).foldl
        (fun st kStart => st.step cfg.weight (blockLanes cfg data args pidQ pidH g (start + len) kStart))
        Running.initial =
      ofTally (tallyOf cfg data args pidQ pidH g start len i) := by
  induction i with
  | zero => rfl
  | succ i ih =>
    have hsucc := (tallyOf_of hw data pidH g hcausal (i + 1)).top
    have hpos : 0 < min (cfg.blockK * (i + 1)) len := lt_min (Nat.mul_pos cfg.blockK_pos (Nat.succ_pos i)) hlen
    rw [tallyOf_succ] at hsucc
    rw [range_succ, map_append, List.foldl_append, ih, List.map_singleton, List.foldl_cons, List.foldl_nil,
      tallyOf_succ]
    apply step_ofTally
    rw [hsucc, Ne, peak_eq_bot_iff, List.map_eq_nil_iff, List.range'_eq_nil_iff]
    exact hpos.ne'

theorem segment_le {cacheLen n : Nat} (hS : pidS < n) : pidS * (cacheLen / n) + cacheLen / n ≤ cacheLen := by
  calc pidS * (cacheLen / n) + cacheLen / n = (pidS + 1) * (cacheLen / n) := by rw [Nat.succ_mul]
    _ ≤ n * (cacheLen / n) := Nat.mul_le_mul_right _ hS
    _ ≤ cacheLen := Nat.mul_div_le _ _

theorem partialKernel_eq (hw : Exponential cfg.weight) (hS : pidS < cfg.nSplit)
    (hlen : args.cacheSeqlens (args.queryToRequest pidQ) / cfg.nSplit = len)
    (hcausal : ∀ p < args.cacheSeqlens (args.queryToRequest pidQ), (p : Int) ≤ args.queryPositions pidQ) :
    partialKernel cfg data args pidS pidH pidQ g =
      if len = 0 then none
      else some (ofTally (tallyOf cfg data args pidQ pidH g (pidS * len) len ((len + cfg.blockK - 1) / cfg.blockK))) := by
  have hfit : pidS * len + len ≤ args.cacheSeqlens (args.queryToRequest pidQ) := hlen ▸ segment_le hS
  have hlanes : pidS * len + len - pidS * len = len := Nat.add_sub_cancel_left _ _
  simp only [partialKernel, hlen, min_eq_left hfit]
  by_cases h0 : len = 0
  · rw [if_pos h0, if_pos (by omega)]
  · rw [if_neg h0, if_neg (by omega), steps, hlanes,
      foldl_ofTally hw (pos_of_ne_zero h0) fun p hp => hcausal p (by omega)]

omit [Field K] [LinearOrder K] in
theorem partialAddress_inj {pidS' pidH' pidQ' g' : Nat} (hH : pidH < cfg.geo.kvHeads) (hS : pidS < cfg.nSplit)
    (hg : g < cfg.geo.gqa) (hH' : pidH' < cfg.geo.kvHeads) (hS' : pidS' < cfg.nSplit) (hg' : g' < cfg.geo.gqa)
    (h : partialAddress cfg pidS' pidH' pidQ' g' = partialAddress cfg pidS pidH pidQ g) :
    pidS' = pidS ∧ pidH' = pidH ∧ pidQ' = pidQ ∧ g' = g := by
  have hnest : ∀ q h s i : Nat, partialAddress cfg s h q i =
      ((q * cfg.geo.kvHeads + h) * cfg.nSplit + s) * cfg.geo.gqa + i := by
    intro q h s i
    rw [partialAddress]
    ring
  rw [hnest, hnest, PageRing.mul_add_inj hg' hg, PageRing.mul_add_inj hS' hS, PageRing.mul_add_inj hH' hH] at h
  exact ⟨h.1.2, h.1.1.2, h.1.1.1, h.2⟩

theorem partials_eq (hH : pidH < cfg.geo.kvHeads) (hS : pidS < cfg.nSplit) (hQ : pidQ < args.totalQ)
    (hg : g < cfg.geo.gqa) : partials cfg data args (partialAddress cfg pidS pidH pidQ g) =
      (partialKernel cfg data args pidS pidH pidQ g).getD Running.initial := by
  have hmem : ∀ s, s ∈ stores cfg data args ↔ ∃ pidQ < args.totalQ, ∃ pidH < cfg.geo.kvHeads, ∃ pidS < cfg.nSplit,
      ∃ g < cfg.geo.gqa, ∃ st, partialKernel cfg data args pidS pidH pidQ g = some st ∧
        (partialAddress cfg pidS pidH pidQ g, st) = s := by
    intro s
    simp only [stores, List.mem_flatMap, List.mem_filterMap, mem_range, Option.map_eq_some_iff]
  rw [partials]
  cases hk : partialKernel cfg data args pidS pidH pidQ g with
  | none =>
    apply ArrayFill.stored_of_ne
    intro s hs heq
    obtain ⟨q, -, h, hh, sp, hsp, i, hi, st, hst, rfl⟩ := (hmem s).mp hs
    obtain ⟨rfl, rfl, rfl, rfl⟩ := partialAddress_inj hH hS hg hh hsp hi heq
    exact absurd (hst.symm.trans hk) (Option.some_ne_none st)
  | some st =>
    apply ArrayFill.stored_of_mem
    · exact (hmem _).mpr ⟨pidQ, hQ, pidH, hH, pidS, hS, g, hg, st, hk, rfl⟩
    · intro s hs heq
      obtain ⟨q, -, h, hh, sp, hsp, i, hi, st', hst', rfl⟩ := (hmem s).mp hs
      obtain ⟨rfl, rfl, rfl, rfl⟩ := partialAddress_inj hH hS hg hh hsp hi heq
      exact Option.some_injective _ (hst'.symm.trans hk)

end Loops

section Merging

variable {K : Type} [Field K] [LinearOrder K] {w : K → K}

/-- No segment has a row: the scale of every segment is NaN. -/
theorem combine_initial {n : Nat} (hn : 0 < n) :
    combine w ((range n).map fun _ => (Running.initial : Running K)) = none := by
  have hmax : (((range n).map fun _ => (Running.initial : Running K)).map Running.m).foldr max ⊥ = ⊥ := by
    rw [map_map, Function.comp_def, List.map_const']
    induction (range n).length with
    | zero => rfl
    | succ n ih => rw [List.replicate_succ, List.foldr_cons, ih]; rfl
  obtain ⟨n, rfl⟩ := Nat.exists_eq_succ_of_ne_zero hn.ne'
  rw [combine, hmax, List.range_succ_eq_map, map_cons, mapM_cons]
  rfl

variable [IsStrictOrderedRing K]

theorem combine_ofTally (hw : Exponential w) {tallies : List (Tally K (Nat → K))} {parts : List (List (K × (Nat → K)))}
    (h : List.Forall₂ (Tally.Of w) tallies parts) (hne : parts.flatten ≠ []) :
    combine w (tallies.map ofTally) = some (attention w parts.flatten) := by
  have hmerge := merge_of hw h
  obtain ⟨m, hm⟩ := WithBot.ne_bot_iff_exists.mp (mt peak_eq_bot_iff.mp hne)
  have hmax : (tallies.map Tally.top).foldr max ⊥ = (m : WithBot K) := hmerge.top.trans hm.symm
  have hscaled : (tallies.map ofTally).mapM (fun st => do
      let scale ← expDiff w st.m m
      return ((← st.l) * scale, scale • (← st.acc))) =
      some (tallies.map fun t => ((t.moved w m).sum, (t.moved w m).acc)) := by
    clear hmax hmerge hm hne h
    induction tallies with
    | nil => rfl
    | cons t tallies ih =>
      rw [map_cons, mapM_cons, ih]
      rfl
  have hsum : ((tallies.map fun t => ((t.moved w m).sum, (t.moved w m).acc)).map Prod.fst).sum =
      (merge w tallies).sum := by
    rw [map_map, merge, hmax]
    rfl
  have hacc : ((tallies.map fun t => ((t.moved w m).sum, (t.moved w m).acc)).map Prod.snd).sum =
      (merge w tallies).acc := by
    rw [map_map, merge, hmax]
    rfl
  have hmaps : (tallies.map ofTally).map Running.m = tallies.map Tally.top := by
    rw [map_map]
    rfl
  have hpos : (merge w tallies).sum ≠ 0 := (lt_of_lt_of_le zero_lt_one (hmerge.one_le_sum hw hne)).ne'
  rw [combine, hmaps, hmax, hscaled]
  simp only [Option.bind_eq_bind, Option.bind_some]
  rw [hsum, hacc, if_neg hpos, hmerge.read hw]

theorem flatten_segments {α : Type} (f : Nat → α) (len n : Nat) :
    ((range n).map fun s => (range' (s * len) len).map f).flatten = (range (n * len)).map f := by
  induction n with
  | zero => simp
  | succ n ih =>
    rw [range_succ, map_append, List.flatten_append, ih, List.map_singleton, List.flatten_singleton,
      ← map_append, range_append_block, Nat.succ_mul]

/-- The rows that reach the output: whole segments only, read from the first page on. -/
theorem nvfp4DecodeAttention_eq {cfg : Config K} {data : Contents K} {args : Metadata} {row head : Nat}
    (hw : Exponential cfg.weight) (hrow : row < args.totalQ) (hhead : head < cfg.geo.qHeads)
    (hcausal : ∀ p < args.cacheSeqlens (args.queryToRequest row), (p : Int) ≤ args.queryPositions row) :
    nvfp4DecodeAttention cfg data args row head =
      if args.cacheSeqlens (args.queryToRequest row) / cfg.nSplit = 0 then none
      else some (attention cfg.weight
        ((range (cfg.nSplit * (args.cacheSeqlens (args.queryToRequest row) / cfg.nSplit))).map fun p =>
          entry cfg data row head (head / cfg.geo.gqa) (args.rowOffsets (args.queryToRequest row) + p))) := by
  have hkv : head / cfg.geo.gqa < cfg.geo.kvHeads :=
    (Nat.div_lt_iff_lt_mul cfg.geo.gqa_pos).mpr hhead
  have hlane : head % cfg.geo.gqa < cfg.geo.gqa := Nat.mod_lt _ cfg.geo.gqa_pos
  have hq : head / cfg.geo.gqa * cfg.geo.gqa + head % cfg.geo.gqa = head := Nat.div_add_mod' head cfg.geo.gqa
  have hmod : (row * cfg.geo.qHeads + head) % cfg.geo.qHeads = head := by
    rw [Nat.mul_add_mod_self_right, Nat.mod_eq_of_lt hhead]
  have hload : ∀ s, row * (cfg.nSplit * cfg.geo.kvHeads) * cfg.geo.gqa + head / cfg.geo.gqa * cfg.nSplit * cfg.geo.gqa +
      head % cfg.geo.gqa + s * cfg.geo.gqa = partialAddress cfg s (head / cfg.geo.gqa) row (head % cfg.geo.gqa) := by
    intro s
    rw [partialAddress]
    ring
  generalize hL : args.cacheSeqlens (args.queryToRequest row) / cfg.nSplit = len
  have hpart : ∀ s ∈ range cfg.nSplit, partials cfg data args
      (partialAddress cfg s (head / cfg.geo.gqa) row (head % cfg.geo.gqa)) = if len = 0 then Running.initial else
        ofTally (tallyOf cfg data args row (head / cfg.geo.gqa) (head % cfg.geo.gqa) (s * len) len
          ((len + cfg.blockK - 1) / cfg.blockK)) := by
    intro s hs
    rw [partials_eq hkv (mem_range.mp hs) hrow hlane,
      partialKernel_eq hw (mem_range.mp hs) hL hcausal]
    split <;> rfl
  simp only [nvfp4DecodeAttention, mergeKernel, hmod, PageRing.mul_add_div hhead, hload]
  rw [List.map_congr_left hpart]
  by_cases h0 : len = 0
  · simp only [if_pos h0]
    exact combine_initial cfg.nSplit_pos
  · simp only [if_neg h0]
    have hfull : min (cfg.blockK * ((len + cfg.blockK - 1) / cfg.blockK)) len = len := by
      have hdiv := Nat.div_add_mod (len + cfg.blockK - 1) cfg.blockK
      have hmod := Nat.mod_lt (len + cfg.blockK - 1) cfg.blockK_pos
      omega
    have hof : List.Forall₂ (Tally.Of cfg.weight)
        ((range cfg.nSplit).map fun s => tallyOf cfg data args row (head / cfg.geo.gqa) (head % cfg.geo.gqa)
          (s * len) len ((len + cfg.blockK - 1) / cfg.blockK))
        ((range cfg.nSplit).map fun s => (range' (s * len) len).map fun p =>
          entry cfg data row head (head / cfg.geo.gqa) (args.rowOffsets (args.queryToRequest row) + p)) := by
      rw [List.forall₂_map_left_iff, List.forall₂_map_right_iff, List.forall₂_same]
      intro s hs
      have hend : s * len + len ≤ args.cacheSeqlens (args.queryToRequest row) :=
        hL ▸ segment_le (mem_range.mp hs)
      have htally := tallyOf_of hw data (head / cfg.geo.gqa) (head % cfg.geo.gqa)
        (fun p hp => hcausal p (lt_of_lt_of_le hp hend)) ((len + cfg.blockK - 1) / cfg.blockK)
      rwa [hfull, hq] at htally
    have hne : ((range cfg.nSplit).map fun s => (range' (s * len) len).map fun p =>
        entry cfg data row head (head / cfg.geo.gqa) (args.rowOffsets (args.queryToRequest row) + p)).flatten ≠ [] := by
      rw [flatten_segments, Ne, List.map_eq_nil_iff, List.range_eq_nil]
      exact (Nat.mul_pos cfg.nSplit_pos (pos_of_ne_zero h0)).ne'
    have hcombine := combine_ofTally hw hof hne
    rwa [flatten_segments, map_map] at hcombine

end Merging

section Exactness

variable {K : Type} [Field K] [LinearOrder K]

/-- Every head of a query row gets softmax attention over its request's rows up to `position`, whatever the
pools hold. -/
def Exact (cfg : Config K) (args : Metadata) (reqs : Requests) (request position row : Nat) : Prop :=
  ∀ (data : Contents K) (head : Nat), head < cfg.geo.qHeads →
    nvfp4DecodeAttention cfg data args row head = some (causalAttention cfg data reqs request position row head)

/-- The whole segments of a cache of `cacheLen` rows end with `position`, and the request's rows up to it are those from
its first page on, in some order. -/
def Covered (nSplit : Nat) (reqs : Requests) (request cacheLen position : Nat) : Prop :=
  nSplit * (cacheLen / nSplit) = position + 1 ∧
    ((range (position + 1)).map fun p => reqs.pageTable request 0 * reqs.pageSize + p).Perm
      ((range (position + 1)).map (reqs.physRow request))

/-- Queries of zeros, and values that are zero outside one physical row. -/
def probe (cfg : Config K) (phys : Nat) : Contents K where
  q _ := 0
  k := ⟨fun _ => 0, fun _ => 0⟩
  v := ⟨fun _ => 0x22, fun i => if i / (cfg.geo.kvHeads * cfg.geo.blocks) = phys then 1 else 0⟩

variable {cfg : Config K} {x phys row : Nat}

omit [LinearOrder K] in
theorem entry_probe_score : (entry cfg (probe cfg x) row 0 0 phys).1 = 0 := by
  simp [entry, Config.score, probe]

omit [LinearOrder K] in
theorem entry_probe_value : (entry cfg (probe cfg x) row 0 0 phys).2 0 = if phys = x then 1 / 512 else 0 := by
  have hpos : 0 < cfg.geo.kvHeads * cfg.geo.blocks := Nat.mul_pos cfg.geo.kvHeads_pos cfg.geo.blocks_pos
  have hdiv : phys * (cfg.geo.kvHeads * (16 * cfg.geo.blocks / 16)) / (cfg.geo.kvHeads * cfg.geo.blocks) = phys := by
    rw [Nat.mul_div_cancel_left _ (by decide), Nat.mul_div_cancel _ hpos]
  simp only [entry, storedRow, probe, Geometry.headDim, zero_mul, add_zero, Nat.zero_div, hdiv]
  by_cases h : phys = x
  · rw [if_pos h, if_pos h]
    simp [codeValue, magnitude, e4m3ByteToF32]
  · rw [if_neg h, if_neg h]
    simp [codeValue, magnitude, e4m3ByteToF32]

theorem attention_probe (hw : Exponential cfg.weight) (physRows : List Nat) :
    attention cfg.weight (physRows.map (entry cfg (probe cfg x) row 0 0)) 0 =
      (physRows.length : K)⁻¹ * (physRows.count x * (1 / 512)) := by
  have hconst : ∀ r ∈ physRows.map (entry cfg (probe cfg x) row 0 0), r.1 = 0 := by
    intro r hr
    obtain ⟨phys, -, rfl⟩ := List.mem_map.mp hr
    exact entry_probe_score
  have hsum : ((physRows.map (entry cfg (probe cfg x) row 0 0)).map Prod.snd).sum 0 = physRows.count x * (1 / 512) := by
    induction physRows with
    | nil => simp
    | cons phys physRows ih =>
      have ih := ih fun r hr => hconst r (List.mem_cons_of_mem _ hr)
      rw [map_cons, map_cons, List.sum_cons, Pi.add_apply, ih, entry_probe_value, List.count_cons]
      by_cases h : phys = x
      · simp [h]
        ring
      · simp [h]
  rw [attention_of_const hw hconst, Pi.smul_apply, hsum, length_map, smul_eq_mul]

/-- Probing every row tells the lists apart, unless one is the other several times over. -/
theorem perm_of_probes [IsStrictOrderedRing K] {physRows physRows' : List Nat} (hnodup : physRows.Nodup)
    (hne : physRows' ≠ []) (hlen : physRows'.length < 2 * physRows.length)
    (h : ∀ x, (physRows.length : K)⁻¹ * (physRows.count x * (1 / 512)) =
      (physRows'.length : K)⁻¹ * (physRows'.count x * (1 / 512))) : physRows.Perm physRows' := by
  have hpos' : 0 < physRows'.length := List.length_pos_iff.mpr hne
  have hpos : 0 < physRows.length := by omega
  have hcount : ∀ x, physRows.count x * physRows'.length = physRows'.count x * physRows.length := by
    intro x
    have hx := h x
    have hK : (physRows.length : K) ≠ 0 := Nat.cast_ne_zero.mpr hpos.ne'
    have hK' : (physRows'.length : K) ≠ 0 := Nat.cast_ne_zero.mpr hpos'.ne'
    field_simp at hx
    rw [mul_comm (physRows'.count x)]
    exact_mod_cast hx
  have hsame : physRows'.length = physRows.length := by
    obtain ⟨x, hx⟩ := List.exists_mem_of_length_pos hpos
    have hone := hcount x
    rw [List.count_eq_one_of_mem hnodup hx, one_mul] at hone
    have htimes : physRows'.count x = 1 := by
      have hge : physRows'.count x ≠ 0 := by
        intro h0
        rw [h0, zero_mul] at hone
        omega
      have hlt : physRows'.count x < 2 := by
        by_contra hge2
        have := Nat.mul_le_mul_right physRows.length (not_lt.mp hge2)
        omega
      omega
    rw [hone, htimes, one_mul]
  rw [List.perm_iff_count]
  intro x
  have hx := hcount x
  rw [hsame] at hx
  exact Nat.eq_of_mul_eq_mul_right hpos hx

theorem exact_iff_covered [IsStrictOrderedRing K] {args : Metadata} {reqs : Requests} {request len position : Nat}
    (hw : Exponential cfg.exp2) (hrow : row < args.totalQ) (hreq : args.queryToRequest row = request)
    (hlen : args.cacheSeqlens request = len) (hoff : args.rowOffsets request = reqs.pageTable request 0 * reqs.pageSize)
    (hcausal : (len : Int) ≤ args.queryPositions row + 1) (hposition : position < len) :
    Exact cfg args reqs request position row ↔ Covered cfg.nSplit reqs request len position := by
  have hweight : Exponential cfg.weight := hw.comp_mul _
  have hout : ∀ (data : Contents K) (head : Nat), head < cfg.geo.qHeads →
      nvfp4DecodeAttention cfg data args row head = if len / cfg.nSplit = 0 then none
      else some (attention cfg.weight
        (((range (cfg.nSplit * (len / cfg.nSplit))).map fun p => reqs.pageTable request 0 * reqs.pageSize + p).map
          (entry cfg data row head (head / cfg.geo.gqa)))) := by
    intro data head hhead
    rw [nvfp4DecodeAttention_eq hweight hrow hhead (by rw [hreq, hlen]; omega), hreq, hlen, hoff, map_map]
    rfl
  have hread : ∀ (data : Contents K) (head : Nat), causalAttention cfg data reqs request position row head =
      attention cfg.weight (((range (position + 1)).map (reqs.physRow request)).map
        (entry cfg data row head (head / cfg.geo.gqa))) := by
    intro data head
    rw [map_map]
    rfl
  constructor
  · intro h
    have hhead : 0 < cfg.geo.qHeads := Nat.mul_pos cfg.geo.kvHeads_pos cfg.geo.gqa_pos
    have hrows : len / cfg.nSplit ≠ 0 := by
      intro h0
      have hnone := h (probe cfg 0) 0 hhead
      rw [hout _ _ hhead, if_pos h0] at hnone
      exact absurd hnone (Option.some_ne_none _).symm
    have hperm : ((range (cfg.nSplit * (len / cfg.nSplit))).map fun p =>
        reqs.pageTable request 0 * reqs.pageSize + p).Perm ((range (position + 1)).map (reqs.physRow request)) :=
      perm_of_probes (K := K) (List.nodup_range.map fun p q => Nat.add_left_cancel) (by simp) (by
        have hdiv := Nat.div_add_mod len cfg.nSplit
        have hmod := Nat.mod_lt len cfg.nSplit_pos
        have hge := Nat.le_mul_of_pos_right cfg.nSplit (pos_of_ne_zero hrows)
        simp only [length_map, length_range]
        omega) (by
        intro x
        have hx := h (probe cfg x) 0 hhead
        rw [hout _ _ hhead, if_neg hrows, hread, Nat.zero_div] at hx
        have hx0 := congrFun (Option.some_injective _ hx) 0
        rwa [attention_probe hweight, attention_probe hweight] at hx0)
    have heq : cfg.nSplit * (len / cfg.nSplit) = position + 1 := by
      have hlength := hperm.length_eq
      rwa [length_map, length_map, length_range, length_range] at hlength
    exact ⟨heq, heq ▸ hperm⟩
  · intro h data head hhead
    have hrows : len / cfg.nSplit ≠ 0 := by
      intro h0
      have heq := h.1
      rw [h0, mul_zero] at heq
      omega
    rw [hout data head hhead, if_neg hrows, hread, h.1, attention_perm (h.2.map _)]

/-- The two callers: a step of `decode_batch`, and row `j` of a block in `verify_batch`. -/
theorem attends_iff_covered [IsStrictOrderedRing K] (cfg : Config K) (hw : Exponential cfg.exp2) (reqs : Requests) :
    (∀ request < reqs.batch, Exact cfg (decodeBatch reqs) reqs request (reqs.past request) request ↔
        Covered cfg.nSplit reqs request (reqs.past request + 1) (reqs.past request)) ∧
      ∀ qoLen, ∀ request < reqs.batch, ∀ j < qoLen,
        (Exact cfg (verifyBatch reqs qoLen) reqs request (reqs.past request + j) (request * qoLen + j) ↔
          Covered cfg.nSplit reqs request (reqs.past request + qoLen) (reqs.past request + j)) := by
  constructor
  · intro request hrequest
    exact exact_iff_covered hw hrequest rfl rfl rfl (by simp [decodeBatch]) (Nat.lt_succ_self _)
  · intro qoLen request hrequest j hj
    have hdiv : (request * qoLen + j) / qoLen = request := PageRing.mul_add_div hj
    have hmod : (request * qoLen + j) % qoLen = j := by rw [Nat.mul_add_mod_self_right, Nat.mod_eq_of_lt hj]
    have hrow : request * qoLen + j < reqs.batch * qoLen := by
      calc request * qoLen + j < (request + 1) * qoLen := by rw [Nat.succ_mul]; omega
        _ ≤ reqs.batch * qoLen := Nat.mul_le_mul_right _ hrequest
    have hcausal : ((reqs.past request + qoLen : Nat) : Int) ≤
        (verifyBatch reqs qoLen).queryPositions (request * qoLen + j) + 1 := by
      simp only [verifyBatch, hdiv, hmod]
      omega
    exact exact_iff_covered hw hrow hdiv rfl rfl hcausal (Nat.add_lt_add_left hj _)

theorem kvHeads_pos : 0 < 4 := by decide

theorem group_pos : 0 < 6 := by decide

theorem headDim_pos : 0 < 16 := by decide

theorem split_pos : 0 < 32 := by decide

theorem block_pos : 0 < 64 := by decide

/-- Qwen3.8-27B with the defaults of `nvfp4_decode_attention`. -/
noncomputable def qwenConfig : Config ℝ where
  exp2 x := 2 ^ x
  scale := 1 / 16
  geo := ⟨4, 6, 16, kvHeads_pos, group_pos, headDim_pos⟩
  nSplit := 32
  blockK := 64
  nSplit_pos := split_pos
  blockK_pos := block_pos

theorem exponential_two : Exponential qwenConfig.exp2 where
  pos x := Real.rpow_pos_of_pos two_pos x
  add x y := Real.rpow_add two_pos x y

def fixedArena (past : Nat) : Requests := ⟨1, fun _ => past, fun _ page => page, 128⟩

theorem attends_iff_covered_fixedArena : Exact qwenConfig (decodeBatch (fixedArena 63)) (fixedArena 63) 0 63 0 :=
  ((attends_iff_covered qwenConfig exponential_two (fixedArena 63)).1 0 (by decide)).mpr
    ⟨by decide, List.Perm.of_eq (by decide)⟩

/-- A cache of one row divides by zero, one of 33 rows loses the newest, and row 0 of a verify block sees row 1. -/
theorem inexact_fixedArena : ¬ Exact qwenConfig (decodeBatch (fixedArena 0)) (fixedArena 0) 0 0 0 ∧
    ¬ Exact qwenConfig (decodeBatch (fixedArena 32)) (fixedArena 32) 0 32 0 ∧
      ¬ Exact qwenConfig (verifyBatch (fixedArena 30) 2) (fixedArena 30) 0 30 0 := by
  refine ⟨fun h => ?_, fun h => ?_, fun h => ?_⟩
  · have hcovered : Covered 32 (fixedArena 0) 0 1 0 :=
      (exact_iff_covered exponential_two (by decide) rfl rfl rfl (by decide) (by decide)).mp h
    exact absurd hcovered.1 (by decide)
  · have hcovered : Covered 32 (fixedArena 32) 0 33 32 :=
      (exact_iff_covered exponential_two (by decide) rfl rfl rfl (by decide) (by decide)).mp h
    exact absurd hcovered.1 (by decide)
  · have hcovered : Covered 32 (fixedArena 30) 0 32 30 :=
      (exact_iff_covered exponential_two (by decide) rfl rfl rfl (by decide) (by decide)).mp h
    exact absurd hcovered.1 (by decide)

end Exactness

end NvfpAttention
