import BlackweLLM.PackedLanes
import Mathlib.Tactic.Positivity
import Mathlib.Tactic.Ring

/-!
# QSA gather lists

`select_blocks` and the functions of `qsa.py` and `qsa_kernels.py` that expand its blocks
to the token positions that a query attends to.
-/

namespace FlashNext

open List Function PackedLanes

/-- `torch.topk(..).indices` of one row: the highest scores, the best one first. Ties are open. -/
structure TopK (α : Type) [LinearOrder α] where
  indices : List (WithBot α) → ℕ → List ℕ
  length_eq : ∀ xs k, k ≤ xs.length → (indices xs k).length = k
  nodup : ∀ xs k, (indices xs k).Nodup
  inside : ∀ xs k, ∀ i ∈ indices xs k, i < xs.length
  sorted : ∀ xs k, (indices xs k).Pairwise fun i j => xs.getD j ⊥ ≤ xs.getD i ⊥
  best : ∀ xs k, ∀ i ∈ indices xs k, ∀ j < xs.length, j ∉ indices xs k → xs.getD j ⊥ ≤ xs.getD i ⊥

/-- The native selector: an unordered set of blocks of the valid prefix, and `-1` behind it. -/
structure NativeTopK (α : Type) [LinearOrder α] where
  select : List (WithBot α) → ℕ → List ℤ
  length_eq : ∀ scores length, (select scores length).length = 512
  nodup : ∀ scores length, ((select scores length).take length).Nodup
  inside : ∀ scores length, ∀ b ∈ (select scores length).take length, 0 ≤ b ∧ b < length
  padding : ∀ scores length, ∀ b ∈ (select scores length).drop length, b = -1

structure BlockIndexer where
  compressRatio : ℕ
  blockTopk : ℕ
  ratio_pos : 0 < compressRatio

/-- A row of `tokens` and `valid`. -/
structure GatherRow where
  tokens : List ℤ
  valid : List Bool
  deriving DecidableEq, Repr

namespace BlockIndexer

variable (I : BlockIndexer)
variable {valid : ℕ → Bool} {lanes : List (ℤ × Bool)}

def qsaPad : ℕ := max (I.blockTopk * I.compressRatio + I.compressRatio - 1) 1

section Select

variable {α : Type} [LinearOrder α]

/-- `score_blocks`: the scores before the row's causal end. -/
def scoreBlocks (scores : List α) (rowBlockEnds : ℕ) : List (WithBot α) :=
  scores.mapIdx fun i (score : α) => if i < rowBlockEnds then (score : WithBot α) else ⊥

/-- `select_blocks` for one row; `native` is the loaded selector of a CUDA row, `rerank` is
`QSR_FLASHNEXT_QSA_TOPK_RERANK`. -/
def selectBlocks (topk : TopK α) (native : Option (NativeTopK α)) (rerank : Bool) (logits : List (WithBot α))
    (rowBlockEnds : Option ℕ) : List ℤ :=
  let k := min I.blockTopk logits.length
  let ends := rowBlockEnds.getD (logits.filter (· ≠ ⊥)).length
  let mask (selected : List ℤ) := selected.mapIdx fun rank block => if rank < min ends k then block else -1
  match if k = 512 ∧ I.blockTopk = 512 ∧ 512 ≤ logits.length then native else none with
  | none => mask ((topk.indices logits k).map Int.ofNat)
  | some native =>
    let candidates := native.select logits (min ends logits.length)
    if rerank then
      let candidateScores := candidates.map fun block =>
        if block < 0 then ⊥ else logits.getD (min block.toNat (logits.length - 1)) ⊥
      mask ((topk.indices candidateScores k).map fun i => candidates.getD i (-1))
    else candidates

end Select

/-- The tokens of each block, valid where the block is no padding lane. -/
def expandedLanes (blocks : List ℤ) : List (ℤ × Bool) :=
  blocks.flatMap fun block =>
    (range I.compressRatio).map fun offset : ℕ => (block * I.compressRatio + (offset : ℤ), decide (0 ≤ block))

def readRow (padTo : ℕ) (tokens : ℕ → ℤ) (valid : ℕ → Bool) : GatherRow :=
  ⟨(range padTo).map tokens, (range padTo).map valid⟩

def packDecodeRow (σ : Scatter) (padTo : ℕ) (expanded : List (ℤ × Bool)) (visibleTokens : ℕ) : GatherRow :=
  let destinations := expanded.mapIdx fun i lane =>
    min (if lane.2 then (expanded.take (i + 1)).countP Prod.snd - 1 else padTo - 1) (padTo - 1)
  let outTokens := σ.run (fun _ => 0) (destinations.zip (expanded.map fun lane => if lane.2 then lane.1 else 0))
  let outValid := σ.run (fun _ => false) (destinations.zip (expanded.map Prod.snd))
  let tailWidth := min (I.compressRatio - 1) (padTo - expanded.length)
  let tailStart := visibleTokens / I.compressRatio * I.compressRatio
  if tailWidth = 0 then readRow padTo outTokens outValid
  else
    let blockCount := expanded.countP Prod.snd
    let tailValid offset := decide (tailStart + offset < visibleTokens ∧ blockCount + offset < padTo)
    let safeDestination offset := min (if tailValid offset then blockCount + offset else padTo - 1) (padTo - 1)
    readRow padTo
      (σ.run outTokens ((range tailWidth).map fun offset =>
        (safeDestination offset, if tailValid offset then ((tailStart + offset : ℕ) : ℤ) else 0)))
      (σ.run outValid ((range tailWidth).map fun offset => (safeDestination offset, tailValid offset)))

def decodeRow (σ : Scatter) (padTo : ℕ) (blocks : List ℤ) (position : ℕ) : GatherRow :=
  let visibleTokens := position + 1
  let tokenTopk := min (I.blockTopk * I.compressRatio) padTo
  let expanded := ((I.expandedLanes blocks).take tokenTopk).map fun lane =>
    (lane.1, lane.2 && decide (0 ≤ lane.1) && decide (lane.1 < (visibleTokens : ℤ)))
  I.packDecodeRow σ padTo expanded visibleTokens

def batchDecodeGatherIndices (σ : Scatter) (blocks : List (List ℤ)) (positions : List ℕ) (padTo : ℕ) :
    Except String (List GatherRow) :=
  if positions.length ≠ blocks.length then .error "QSA decode blocks/positions must be [rows, topk] and [rows]"
  else if padTo = 0 then .error s!"QSA decode pad_to must be positive, got {padTo}"
  else .ok (zipWith (I.decodeRow σ padTo) blocks positions)

/-- `batch_decode_gather_indices_fixed`, with the shapes of its buffers. -/
def batchDecodeGatherIndicesFixed (σ : Scatter) (blocks : List (List ℤ)) (positions : List ℕ) (padTo : ℕ)
    (outTokens outValid : ℕ × ℕ) (tailTokens : Option (ℕ × ℕ)) : Except String (List GatherRow) :=
  if outTokens ≠ (blocks.length, padTo) then
    .error s!"QSA fixed gather token buffer must be [rows, pad_to], got ({outTokens.1}, {outTokens.2})"
  else if outValid ≠ outTokens then
    .error (s!"QSA fixed gather valid buffer must match token buffer, got ({outValid.1}, {outValid.2}) " ++
      s!"vs ({outTokens.1}, {outTokens.2})")
  else if positions.length ≠ blocks.length then
    .error s!"QSA fixed decode positions must have one value per row, got ({positions.length},)"
  else if padTo = 0 then .error s!"QSA decode pad_to must be positive, got {padTo}"
  else
    match tailTokens with
    | none => .ok (zipWith (I.decodeRow σ padTo) blocks positions)
    | some shape =>
      if shape ≠ (blocks.length, I.compressRatio - 1) then
        .error s!"QSA fixed gather tail buffer must be [rows, ratio - 1], got ({shape.1}, {shape.2})"
      else .ok (zipWith (I.decodeRow σ padTo) blocks positions)

/-- `batch_prefill_gather_indices` without the kernel, for one row, with its `selected_counts`. -/
def prefillRow (σ : Scatter) (padTo : ℕ) (blocks : List ℤ) (position : ℕ) : GatherRow × ℕ :=
  let visible := position + 1
  let completeGroups := visible / I.compressRatio
  let selectedTokens := min completeGroups blocks.length * I.compressRatio
  let expanded := (I.expandedLanes blocks).mapIdx fun column lane =>
    (lane.1, lane.2 && decide (column < selectedTokens) && (decide (0 ≤ lane.1) && decide (lane.1 < (visible : ℤ))))
  let copied := expanded.take (min (blocks.length * I.compressRatio) padTo)
  let tokens column := (copied[column]?.map fun lane => if lane.2 then lane.1 else 0).getD 0
  let valid column := (copied[column]?.map Prod.snd).getD false
  let tailStart := completeGroups * I.compressRatio
  let tailCount := visible - tailStart
  let tailValid offset := decide (offset < tailCount) && decide (selectedTokens + offset < padTo)
  let safeDestination offset := min (selectedTokens + offset) (padTo - 1)
  (readRow padTo
      (σ.run tokens ((range (I.compressRatio - 1)).map fun offset =>
        (safeDestination offset, if tailValid offset then ((tailStart + offset : ℕ) : ℤ) else 0)))
      (σ.run valid ((range (I.compressRatio - 1)).map fun offset => (safeDestination offset, tailValid offset))),
    min (selectedTokens + tailCount) padTo)

/-- `_qsa_prefill_gather_indices_kernel`, for one row. -/
def kernelRow (padTo : ℕ) (blockIndices : List ℤ) (position : ℕ) : GatherRow × ℕ :=
  let visible := position + 1
  let completeGroups := visible / I.compressRatio
  let selectedTokens := min completeGroups blockIndices.length * I.compressRatio
  let tailStart := completeGroups * I.compressRatio
  let tailCount := visible - tailStart
  let block column :=
    if column < selectedTokens ∧ column / I.compressRatio < blockIndices.length then
      blockIndices.getD (column / I.compressRatio) (-1)
    else -1
  let expanded column := block column * I.compressRatio + (column % I.compressRatio : ℕ)
  let expandedValid column := decide (column < selectedTokens ∧ 0 ≤ block column ∧ 0 ≤ expanded column ∧
    expanded column < visible)
  let tailOffset (column : ℕ) : ℤ := column - selectedTokens
  let tailValid (column : ℕ) := decide (0 ≤ tailOffset column ∧ tailOffset column < tailCount ∧
    tailOffset column < (I.compressRatio : ℤ) - 1 ∧ column < padTo)
  (readRow padTo
      (fun column => if expandedValid column then expanded column
        else if tailValid column then tailStart + tailOffset column else 0)
      (fun column => expandedValid column || tailValid column),
    min (selectedTokens + tailCount) padTo)

/-- `batch_prefill_gather_indices`; `supported` is `qsa_prefill_gather_indices_supported`. -/
def batchPrefillGatherIndices (σ : Scatter) (supported : Bool) (blocks : List (List ℤ)) (positions : List ℕ)
    (padTo : ℕ) : Except String (List (GatherRow × ℕ)) :=
  if supported then
    if positions.length ≠ blocks.length then .error "QSA blocks/positions must be [rows, topk] and [rows]"
    else .ok (zipWith (I.kernelRow padTo) blocks positions)
  else .ok (zipWith (I.prefillRow σ padTo) blocks positions)

/-- The tokens that a query attends to: those of the selected blocks, then the causal tail. -/
def gathered (blocks : List ℤ) (position : ℕ) : List ℤ :=
  (blocks.filter (0 ≤ ·)).flatMap (fun block =>
      (range I.compressRatio).map fun offset : ℕ => block * I.compressRatio + (offset : ℤ)) ++
    (range ((position + 1) % I.compressRatio)).map fun offset =>
      (((position + 1) / I.compressRatio * I.compressRatio + offset : ℕ) : ℤ)

def padded (padTo : ℕ) (tokens : List ℤ) : GatherRow :=
  ⟨tokens ++ replicate (padTo - tokens.length) 0,
    replicate tokens.length true ++ replicate (padTo - tokens.length) false⟩

variable {I : BlockIndexer} (σ : Scatter)

theorem readRow_eq {padTo : ℕ} {tokens : ℕ → ℤ} {xs : List ℤ} (hlen : xs.length ≤ padTo)
    (htokens : ∀ c < padTo, tokens c = xs[c]?.getD 0)
    (hvalid : ∀ c < padTo, valid c = (xs.map fun _ => true)[c]?.getD false) :
    readRow padTo tokens valid = padded padTo xs := by
  have htok : (range padTo).map tokens = xs ++ replicate (padTo - xs.length) 0 := by
    apply ext_getElem
    · simp
      omega
    · intro c hc _
      have hin : c < padTo := by simpa using hc
      rw [getElem_map, getElem_range, htokens c hin, getElem_append]
      split
      case isTrue h => rw [getElem?_eq_getElem h, Option.getD_some]
      case isFalse h => rw [getElem?_eq_none (not_lt.mp h), getElem_replicate]; rfl
  have hval : (range padTo).map valid =
      replicate xs.length true ++ replicate (padTo - xs.length) false := by
    apply ext_getElem
    · simp
      omega
    · intro c hc _
      have hin : c < padTo := by simpa using hc
      rw [getElem_map, getElem_range, hvalid c hin, getElem_append]
      split
      case isTrue h =>
        rw [length_replicate] at h
        rw [getElem?_eq_getElem (by rwa [length_map]), getElem_map, getElem_replicate]
        rfl
      case isFalse h =>
        rw [length_replicate] at h
        rw [getElem?_eq_none (by rw [length_map]; exact not_lt.mp h), getElem_replicate]
        rfl
  rw [readRow, padded, htok, hval]

/-- The causal tail of a row with so many visible tokens. -/
def tailOf (I : BlockIndexer) (visible : ℕ) : List ℤ :=
  (range (visible % I.compressRatio)).map fun offset =>
    ((visible / I.compressRatio * I.compressRatio + offset : ℕ) : ℤ)

theorem rank_succ {i : ℕ} {x : ℤ} (h : lanes[i]? = some (x, true)) :
    (lanes.take (i + 1)).countP Prod.snd - 1 = rank lanes i := by
  rw [take_add_one, h, rank]
  simp

theorem rank_le (lanes : List (ℤ × Bool)) (i : ℕ) : rank lanes i ≤ i :=
  countP_le_length.trans (length_take_le _ _)

theorem destinations_writes {β : Type} {padTo : ℕ} (hlen : lanes.length ≤ padTo)
    (f : ℤ → β) (fill : β) {values : List β}
    (hvalues : values = lanes.map fun lane => if lane.2 then f lane.1 else fill) :
    (lanes.mapIdx fun i lane =>
      min (if lane.2 then (lanes.take (i + 1)).countP Prod.snd - 1 else padTo - 1) (padTo - 1)).zip values =
        packWrites padTo f fill lanes := by
  apply ext_getElem
  · simp [packWrites, hvalues]
  · intro i hi _
    have hin : i < lanes.length := by
      rw [length_zip, length_mapIdx] at hi
      omega
    simp only [hvalues, getElem_zip, getElem_mapIdx, getElem_map, packWrites]
    split
    case isTrue hvalid =>
      have hget : lanes[i]? = some (lanes[i].1, true) := by rw [getElem?_eq_getElem hin, ← hvalid]
      have hrank := rank_le lanes i
      rw [rank_succ hget, min_eq_left (by omega)]
    case isFalse => rw [min_self]

section

variable {visible w : ℕ} {dest : ℕ → ℕ} (hw : visible % I.compressRatio ≤ w)
  (hvalid : ∀ o < w, valid o = true ↔ o < visible % I.compressRatio)
include hw hvalid

theorem run_tail {β : Type} {packed : List β} {fill : β} {g : ℕ → β}
    (hfront : ∀ o < visible % I.compressRatio, dest o = packed.length + o)
    (hback : ∀ o, visible % I.compressRatio ≤ o → o < w → packed.length + visible % I.compressRatio ≤ dest o)
    (cell : ℕ) :
    σ.run (fun c => packed[c]?.getD fill) ((range w).map fun o => (dest o, if valid o then g o else fill)) cell =
      (packed ++ (range (visible % I.compressRatio)).map g)[cell]?.getD fill := by
  rw [← run_append σ hw hfront hback]
  congr 1
  refine map_congr_left fun o ho => ?_
  have hiff := hvalid o (mem_range.mp ho)
  by_cases hlt : o < visible % I.compressRatio
  · rw [if_pos (hiff.mpr hlt), if_pos hlt]
  · rw [if_neg fun h => hlt (hiff.mp h), if_neg hlt]

theorem run_tail_flags {packed : List Bool}
    (hfront : ∀ o < visible % I.compressRatio, dest o = packed.length + o)
    (hback : ∀ o, visible % I.compressRatio ≤ o → o < w → packed.length + visible % I.compressRatio ≤ dest o)
    (cell : ℕ) :
    σ.run (fun c => packed[c]?.getD false) ((range w).map fun o => (dest o, valid o)) cell =
      (packed ++ (range (visible % I.compressRatio)).map fun _ => true)[cell]?.getD false := by
  have hsame (o : ℕ) : valid o = if valid o then true else false := by cases valid o <;> rfl
  rw [← run_tail (g := fun _ => true) σ hw hvalid hfront hback]
  congr 1
  exact map_congr_left fun o _ => by rw [← hsame]

end

/-- A packed decode row: the valid lanes, then the tail. -/
theorem packDecodeRow_eq {padTo visible : ℕ}
    (hwidth : lanes.length + (I.compressRatio - 1) ≤ padTo) :
    I.packDecodeRow σ padTo lanes visible = padded padTo (compact lanes ++ I.tailOf visible) := by
  have hlen : lanes.length ≤ padTo := by omega
  have hpos := I.ratio_pos
  have hmod := Nat.mod_lt visible hpos
  have hcount : (compact lanes).length ≤ lanes.length := by
    rw [length_compact]
    exact countP_le_length
  have htokens : σ.run (fun _ => 0) ((lanes.mapIdx fun i lane =>
      min (if lane.2 then (lanes.take (i + 1)).countP Prod.snd - 1 else padTo - 1) (padTo - 1)).zip
        (lanes.map fun lane => if lane.2 then lane.1 else 0)) = fun c => (compact lanes)[c]?.getD 0 := by
    funext c
    have hwrites := destinations_writes hlen id 0
      (rfl : (lanes.map fun lane => if lane.2 then lane.1 else 0) = _)
    rw [hwrites, run_packWrites σ id 0 hlen, Option.map_id]
    rfl
  have hvalid : σ.run (fun _ => false) ((lanes.mapIdx fun i lane =>
      min (if lane.2 then (lanes.take (i + 1)).countP Prod.snd - 1 else padTo - 1) (padTo - 1)).zip
        (lanes.map Prod.snd)) = fun c => ((compact lanes).map fun _ => true)[c]?.getD false := by
    funext c
    rw [destinations_writes hlen (fun _ => true) false (map_congr_left fun lane _ => by cases lane.2 <;> rfl),
      run_packWrites σ _ false hlen, getElem?_map]
  have hfit : (compact lanes ++ I.tailOf visible).length ≤ padTo := by
    rw [length_append, tailOf, length_map, length_range]
    omega
  have hstart : visible / I.compressRatio * I.compressRatio + visible % I.compressRatio = visible :=
    Nat.div_add_mod' visible _
  dsimp only [packDecodeRow]
  rw [htokens, hvalid]
  by_cases hone : min (I.compressRatio - 1) (padTo - lanes.length) = 0
  · have hnil : I.tailOf visible = [] := by
      rw [tailOf, show visible % I.compressRatio = 0 by omega]
      rfl
    rw [if_pos hone, hnil, append_nil]
    exact readRow_eq (by omega) (fun _ _ => rfl) fun _ _ => rfl
  · rw [if_neg hone, show min (I.compressRatio - 1) (padTo - lanes.length) = I.compressRatio - 1 by omega]
    have htail (o : ℕ) (ho : o < I.compressRatio - 1) :
        decide (visible / I.compressRatio * I.compressRatio + o < visible ∧ lanes.countP Prod.snd + o < padTo) = true ↔
          o < visible % I.compressRatio := by
      rw [decide_eq_true_eq, ← length_compact]
      omega
    have hfront (o : ℕ) (ho : o < visible % I.compressRatio) :
        min (if decide (visible / I.compressRatio * I.compressRatio + o < visible ∧
          lanes.countP Prod.snd + o < padTo) = true then lanes.countP Prod.snd + o else padTo - 1) (padTo - 1) =
            (compact lanes).length + o := by
      rw [if_pos ((htail o (by omega)).mpr ho), length_compact]
      rw [length_compact] at hcount
      omega
    have hback (o : ℕ) (hle : visible % I.compressRatio ≤ o) (ho : o < I.compressRatio - 1) :
        (compact lanes).length + visible % I.compressRatio ≤ min (if decide (visible / I.compressRatio *
          I.compressRatio + o < visible ∧ lanes.countP Prod.snd + o < padTo) = true then
            lanes.countP Prod.snd + o else padTo - 1) (padTo - 1) := by
      rw [if_neg fun h => absurd ((htail o ho).mp h) (by omega)]
      omega
    refine readRow_eq hfit (fun c _ => run_tail σ (by omega) htail hfront hback c) fun c _ => ?_
    have hmap : (compact lanes ++ I.tailOf visible).map (fun _ => true) = (compact lanes).map (fun _ => true) ++
        (range (visible % I.compressRatio)).map fun _ => true := by
      rw [map_append, tailOf, map_map]
      rfl
    rw [hmap]
    exact run_tail_flags σ (by omega) htail (by simpa using hfront) (by simpa using hback) c

variable {blocks : List ℤ} {position padTo : ℕ}

def blockTokens (I : BlockIndexer) (blocks : List ℤ) : List ℤ :=
  (blocks.filter (0 ≤ ·)).flatMap fun block =>
    (range I.compressRatio).map fun offset : ℕ => block * I.compressRatio + (offset : ℤ)

theorem gathered_eq : I.gathered blocks position = I.blockTokens blocks ++ I.tailOf (position + 1) := rfl

theorem compact_expandedLanes : compact (I.expandedLanes blocks) = I.blockTokens blocks := by
  induction blocks with
  | nil => rfl
  | cons block blocks ih =>
    have hcons : I.expandedLanes (block :: blocks) = ((range I.compressRatio).map fun offset : ℕ =>
        (block * I.compressRatio + (offset : ℤ), decide (0 ≤ block))) ++ I.expandedLanes blocks := rfl
    rw [hcons, compact_append, ih]
    by_cases h : 0 ≤ block
    · simp [blockTokens, compact, h, filter_map, comp_def]
    · simp [blockTokens, compact, h, filter_map, comp_def]

theorem mem_expandedLanes {lane : ℤ × Bool} (h : lane ∈ I.expandedLanes blocks) :
    ∃ block ∈ blocks, ∃ offset < I.compressRatio, lane =
      (block * I.compressRatio + (offset : ℤ), decide (0 ≤ block)) := by
  obtain ⟨block, hblock, hlane⟩ := mem_flatMap.mp h
  obtain ⟨offset, hoffset, rfl⟩ := mem_map.mp hlane
  exact ⟨block, hblock, offset, mem_range.mp hoffset, rfl⟩

theorem length_expandedLanes : (I.expandedLanes blocks).length = blocks.length * I.compressRatio :=
  length_groups _ _ _

theorem token_visible {block : ℤ} {visible offset : ℕ} (h : block < (visible / I.compressRatio : ℕ))
    (hoffset : offset < I.compressRatio) : block * I.compressRatio + (offset : ℤ) < visible := by
  have hmul : (block + 1) * (I.compressRatio : ℤ) ≤ ((visible / I.compressRatio : ℕ) : ℤ) * I.compressRatio :=
    mul_le_mul_of_nonneg_right (by omega) (by omega)
  have hle : ((visible / I.compressRatio : ℕ) : ℤ) * I.compressRatio ≤ visible := by
    exact_mod_cast Nat.div_mul_le_self visible I.compressRatio
  have hdist : (block + 1) * (I.compressRatio : ℤ) = block * I.compressRatio + I.compressRatio := by ring
  omega

/-- The visibility mask leaves the lanes of complete groups as they are. -/
theorem visible_mask {lane : ℤ × Bool}
    (h : ∀ block ∈ blocks, 0 ≤ block → block < ((position + 1) / I.compressRatio : ℕ))
    (hlane : lane ∈ I.expandedLanes blocks) :
    (lane.2 && decide (0 ≤ lane.1) && decide (lane.1 < ((position + 1 : ℕ) : ℤ))) = lane.2 := by
  obtain ⟨block, hblock, offset, hoffset, rfl⟩ := mem_expandedLanes hlane
  by_cases hvalid : 0 ≤ block
  · have hlow : 0 ≤ block * (I.compressRatio : ℤ) + offset := by positivity
    have hhigh := token_visible (h block hblock hvalid) hoffset
    simp only [hvalid, hlow, hhigh, decide_true, Bool.and_self]
  · simp [hvalid]

/-- A decode row: the selected groups may be padded anywhere. -/
theorem decodeRow_eq (hcomplete : ∀ block ∈ blocks, 0 ≤ block → block < ((position + 1) / I.compressRatio : ℕ))
    (hcount : blocks.length ≤ I.blockTopk) (hpad : blocks.length * I.compressRatio + (I.compressRatio - 1) ≤ padTo) :
    I.decodeRow σ padTo blocks position = padded padTo (I.gathered blocks position) := by
  have htake : (I.expandedLanes blocks).take (min (I.blockTopk * I.compressRatio) padTo) = I.expandedLanes blocks := by
    refine take_of_length_le ?_
    have hmul := Nat.mul_le_mul_right I.compressRatio hcount
    rw [length_expandedLanes]
    omega
  have hmask : ((I.expandedLanes blocks).map fun lane =>
      (lane.1, lane.2 && decide (0 ≤ lane.1) && decide (lane.1 < ((position + 1 : ℕ) : ℤ)))) = I.expandedLanes blocks := by
    conv_rhs => rw [← map_id (I.expandedLanes blocks)]
    exact map_congr_left fun lane hlane => by rw [visible_mask hcomplete hlane]; rfl
  dsimp only [decodeRow]
  rw [htake, hmask, packDecodeRow_eq σ (by rwa [length_expandedLanes]), compact_expandedLanes, gathered_eq]

/-- A row as `select_blocks` returns it for a query with so many complete groups. -/
structure Selection (complete : ℕ) (blocks : List ℤ) : Prop where
  nodup : (blocks.take complete).Nodup
  inside : ∀ block ∈ blocks.take complete, 0 ≤ block ∧ block < complete
  padding : ∀ block ∈ blocks.drop complete, block = -1

namespace Selection

variable {complete : ℕ}

section

variable (h : Selection complete blocks)
include h

theorem filter_eq : blocks.filter (0 ≤ ·) = blocks.take complete := by
  conv_lhs => rw [← take_append_drop complete blocks]
  have hall : (blocks.take complete).filter (0 ≤ ·) = blocks.take complete :=
    filter_eq_self.mpr fun block hblock => decide_eq_true (h.inside block hblock).1
  have hnone : (blocks.drop complete).filter (0 ≤ ·) = [] :=
    filter_eq_nil_iff.mpr fun block hblock => by rw [h.padding block hblock]; decide
  rw [filter_append, hall, hnone, append_nil]

theorem complete_of_valid : ∀ block ∈ blocks, 0 ≤ block → block < complete := by
  intro block hblock hvalid
  rw [← take_append_drop complete blocks] at hblock
  rcases mem_append.mp hblock with hin | hout
  · exact (h.inside block hin).2
  · rw [h.padding block hout] at hvalid
    cases hvalid

/-- The lane of a column. -/
theorem getElem?_blockTokens (column : ℕ) :
    (I.blockTokens blocks)[column]? = (blocks.take complete)[column / I.compressRatio]?.map fun block =>
      block * I.compressRatio + ((column % I.compressRatio : ℕ) : ℤ) := by
  rw [blockTokens, h.filter_eq]
  exact getElem?_groups I.ratio_pos _ _ _

theorem length_blockTokens :
    (I.blockTokens blocks).length = min complete blocks.length * I.compressRatio := by
  rw [blockTokens, h.filter_eq]
  exact (length_groups _ _ _).trans (by rw [length_take])

/-- The columns before the selected width are the valid lanes. -/
theorem getElem?_expandedLanes (column : ℕ) :
    (I.expandedLanes blocks)[column]? = blocks[column / I.compressRatio]?.map fun block =>
      (block * I.compressRatio + ((column % I.compressRatio : ℕ) : ℤ),
        decide (column < min complete blocks.length * I.compressRatio)) := by
  have hgroups := getElem?_groups I.ratio_pos (fun (block : ℤ) (offset : ℕ) =>
    (block * I.compressRatio + (offset : ℤ), decide (0 ≤ block))) blocks column
  rw [expandedLanes, hgroups]
  cases hget : blocks[column / I.compressRatio]? with
  | none => rfl
  | some block =>
    obtain ⟨hin, rfl⟩ := List.getElem?_eq_some_iff.mp hget
    have hcolumn : column < min complete blocks.length * I.compressRatio ↔ column / I.compressRatio < complete := by
      rw [← Nat.div_lt_iff_lt_mul I.ratio_pos]
      omega
    simp only [Option.map_some, hcolumn]
    congr 2
    by_cases hlt : column / I.compressRatio < complete
    · have hmem : blocks[column / I.compressRatio] ∈ blocks.take complete := by
        rw [mem_take_iff_getElem]
        exact ⟨_, by omega, rfl⟩
      simp [hlt, (h.inside _ hmem).1]
    · have hmem : blocks[column / I.compressRatio] ∈ blocks.drop complete := by
        rw [mem_drop_iff_getElem]
        exact ⟨column / I.compressRatio - complete, by omega, by congr 1; omega⟩
      simp [hlt, h.padding _ hmem]

/-- What the columns of the blocks hold, before the tail is written. -/
theorem getD_expandedLanes {β : Type} (f : ℤ → β) (fill : β) (column : ℕ) :
    ((I.expandedLanes blocks)[column]?.map fun lane => if lane.2 then f lane.1 else fill).getD fill =
      ((I.blockTokens blocks).map f)[column]?.getD fill := by
  rw [h.getElem?_expandedLanes, getElem?_map, h.getElem?_blockTokens]
  by_cases hlt : column / I.compressRatio < min complete blocks.length
  · have hcolumn : column < min complete blocks.length * I.compressRatio := (Nat.div_lt_iff_lt_mul I.ratio_pos).mp hlt
    rw [getElem?_take_of_lt (by omega), getElem?_eq_getElem (by omega)]
    simp [hcolumn]
  · have hcolumn : ¬column < min complete blocks.length * I.compressRatio := fun hin =>
      hlt ((Nat.div_lt_iff_lt_mul I.ratio_pos).mpr hin)
    rw [getElem?_eq_none (l := blocks.take complete) (by rw [length_take]; omega)]
    cases blocks[column / I.compressRatio]? with
    | none => rfl
    | some block => simp [hcolumn]

end

end Selection

theorem tailCount_eq (visible : ℕ) :
    visible - visible / I.compressRatio * I.compressRatio = visible % I.compressRatio := by
  rw [Nat.mod_eq_sub_div_mul]

theorem gathered_length (h : Selection ((position + 1) / I.compressRatio) blocks) :
    (I.gathered blocks position).length = min ((position + 1) / I.compressRatio) blocks.length * I.compressRatio +
      (position + 1) % I.compressRatio := by
  rw [gathered_eq, length_append, h.length_blockTokens, tailOf, length_map, length_range]

theorem map_gathered_true : (I.gathered blocks position).map (fun _ => true) =
    (I.blockTokens blocks).map (fun _ => true) ++ (range ((position + 1) % I.compressRatio)).map fun _ => true := by
  rw [gathered_eq, map_append, tailOf, map_map]
  rfl

section

variable (h : Selection ((position + 1) / I.compressRatio) blocks)
include h

/-- The masks of the prefill form leave the lanes of a selection as they are. -/
theorem prefill_mask : ((I.expandedLanes blocks).mapIdx fun column lane => (lane.1, lane.2 &&
      decide (column < min ((position + 1) / I.compressRatio) blocks.length * I.compressRatio) &&
        (decide (0 ≤ lane.1) && decide (lane.1 < ((position + 1 : ℕ) : ℤ))))) = I.expandedLanes blocks := by
  apply ext_getElem
  · simp
  · intro column _ hin
    have hmask := visible_mask h.complete_of_valid (getElem_mem hin)
    have hflag := h.getElem?_expandedLanes (I := I) column
    rw [getElem?_eq_getElem hin] at hflag
    obtain ⟨block, -, hlane⟩ := Option.map_eq_some_iff.mp hflag.symm
    rw [getElem_mapIdx]
    rw [← hlane] at hmask ⊢
    simp only [Bool.and_self, ← Bool.and_assoc] at hmask ⊢
    rw [hmask]

theorem prefillRow_eq (hpad : blocks.length * I.compressRatio + (I.compressRatio - 1) ≤ padTo) :
    I.prefillRow σ padTo blocks position =
      (padded padTo (I.gathered blocks position), (I.gathered blocks position).length) := by
  have hpos := I.ratio_pos
  have hmod := Nat.mod_lt (position + 1) hpos
  have hlen := h.length_blockTokens (I := I)
  have hselected : min ((position + 1) / I.compressRatio) blocks.length * I.compressRatio ≤
      blocks.length * I.compressRatio := Nat.mul_le_mul_right _ (min_le_right _ _)
  have hcopied : (I.expandedLanes blocks).take (min (blocks.length * I.compressRatio) padTo) = I.expandedLanes blocks :=
    take_of_length_le (by rw [length_expandedLanes]; omega)
  have htokens : (fun column : ℕ => ((I.expandedLanes blocks)[column]?.map fun lane : ℤ × Bool =>
      if lane.2 then lane.1 else 0).getD 0) = fun column => (I.blockTokens blocks)[column]?.getD 0 := by
    funext column
    have hcolumn := h.getD_expandedLanes (I := I) id 0 column
    rwa [map_id] at hcolumn
  have hvalid : (fun column : ℕ => ((I.expandedLanes blocks)[column]?.map Prod.snd).getD false) =
      fun column => ((I.blockTokens blocks).map fun _ => true)[column]?.getD false := by
    funext column
    rw [← h.getD_expandedLanes (I := I) (fun _ => true) false column]
    congr 2
    funext lane
    cases lane.2 <;> rfl
  have htail (o : ℕ) (ho : o < I.compressRatio - 1) :
      (decide (o < (position + 1) % I.compressRatio) && decide (min ((position + 1) / I.compressRatio) blocks.length *
        I.compressRatio + o < padTo)) = true ↔ o < (position + 1) % I.compressRatio := by
    rw [Bool.and_eq_true, decide_eq_true_eq, decide_eq_true_eq]
    omega
  have hfront (o : ℕ) (ho : o < (position + 1) % I.compressRatio) :
      min (min ((position + 1) / I.compressRatio) blocks.length * I.compressRatio + o) (padTo - 1) =
        (I.blockTokens blocks).length + o := by
    rw [hlen]
    omega
  have hback (o : ℕ) (hle : (position + 1) % I.compressRatio ≤ o) (ho : o < I.compressRatio - 1) :
      (I.blockTokens blocks).length + (position + 1) % I.compressRatio ≤
        min (min ((position + 1) / I.compressRatio) blocks.length * I.compressRatio + o) (padTo - 1) := by
    rw [hlen]
    omega
  have hfit : (I.gathered blocks position).length ≤ padTo := by
    rw [gathered_length h]
    omega
  dsimp only [prefillRow]
  rw [prefill_mask h, hcopied, htokens, hvalid, tailCount_eq]
  refine Prod.ext (readRow_eq hfit (fun c _ => run_tail σ (by omega) htail hfront hback c) fun c _ => ?_) ?_
  · rw [map_gathered_true]
    exact run_tail_flags σ (by omega) htail (by simpa using hfront) (by simpa using hback) c
  · rw [gathered_length h] at hfit ⊢
    exact min_eq_left hfit

/-- A column of the selected blocks. -/
theorem gathered_front {column : ℕ}
    (hlt : column < min ((position + 1) / I.compressRatio) blocks.length * I.compressRatio) :
    ∃ block, column / I.compressRatio < blocks.length ∧ blocks.getD (column / I.compressRatio) (-1) = block ∧
      0 ≤ block ∧ block * I.compressRatio + ((column % I.compressRatio : ℕ) : ℤ) < ((position + 1 : ℕ) : ℤ) ∧
        (I.gathered blocks position)[column]? =
          some (block * I.compressRatio + ((column % I.compressRatio : ℕ) : ℤ)) := by
  have hdiv := (Nat.div_lt_iff_lt_mul I.ratio_pos).mpr hlt
  have hin : column / I.compressRatio < blocks.length := by omega
  have hmem : blocks[column / I.compressRatio] ∈ blocks.take ((position + 1) / I.compressRatio) := by
    rw [mem_take_iff_getElem]
    exact ⟨_, by omega, rfl⟩
  obtain ⟨hvalid, hcomplete⟩ := h.inside _ hmem
  refine ⟨blocks[column / I.compressRatio], hin, ?_, hvalid, token_visible hcomplete (Nat.mod_lt _ I.ratio_pos), ?_⟩
  · rw [getD_eq_getElem?_getD, getElem?_eq_getElem hin]
    rfl
  · rw [gathered_eq, getElem?_append_left (by rwa [h.length_blockTokens]), h.getElem?_blockTokens,
      getElem?_take_of_lt (by omega), getElem?_eq_getElem hin]
    rfl

/-- A column behind the selected blocks. -/
theorem gathered_back {column : ℕ}
    (hle : min ((position + 1) / I.compressRatio) blocks.length * I.compressRatio ≤ column) :
    (I.gathered blocks position)[column]? =
      if column - min ((position + 1) / I.compressRatio) blocks.length * I.compressRatio <
          (position + 1) % I.compressRatio
      then some ((((position + 1) / I.compressRatio * I.compressRatio + (column -
        min ((position + 1) / I.compressRatio) blocks.length * I.compressRatio) : ℕ) : ℤ))
      else none := by
  rw [gathered_eq, getElem?_append_right (by rwa [h.length_blockTokens]), h.length_blockTokens, tailOf,
    getElem?_map]
  split
  case isTrue hlt => rw [getElem?_range hlt, Option.map_some]
  case isFalse hge => rw [getElem?_eq_none (by rw [length_range]; omega), Option.map_none]

theorem kernelRow_eq (hpad : blocks.length * I.compressRatio + (I.compressRatio - 1) ≤ padTo) :
    I.kernelRow padTo blocks position =
      (padded padTo (I.gathered blocks position), (I.gathered blocks position).length) := by
  have hmod := Nat.mod_lt (position + 1) I.ratio_pos
  have hselected : min ((position + 1) / I.compressRatio) blocks.length * I.compressRatio ≤
      blocks.length * I.compressRatio := Nat.mul_le_mul_right _ (min_le_right _ _)
  have hfit : (I.gathered blocks position).length ≤ padTo := by
    rw [gathered_length h]
    omega
  dsimp only [kernelRow]
  rw [tailCount_eq]
  refine Prod.ext (readRow_eq hfit (fun column hcolumn => ?_) fun column hcolumn => ?_) ?_
  · by_cases hlt : column < min ((position + 1) / I.compressRatio) blocks.length * I.compressRatio
    · obtain ⟨block, hin, hblock, hvalid, hvisible, hget⟩ := gathered_front h hlt
      have hlow : 0 ≤ block * (I.compressRatio : ℤ) + ((column % I.compressRatio : ℕ) : ℤ) := by positivity
      simp only [hlt, hin, and_self, if_true, hblock, hvalid, hlow, hvisible, decide_true, hget, Option.getD_some]
    · have hback := gathered_back h (not_lt.mp hlt)
      simp only [hlt, false_and, decide_false, Bool.false_eq_true, if_false, hback]
      rw [not_lt] at hlt
      generalize min ((position + 1) / I.compressRatio) blocks.length * I.compressRatio = width at hlt hfit hselected hback
      by_cases hoff : column - width < (position + 1) % I.compressRatio
      · rw [if_pos hoff, if_pos (decide_eq_true (by omega)), Option.getD_some, Nat.cast_add, Nat.cast_sub hlt]
      · rw [if_neg hoff, if_neg fun htail => hoff (by have := of_decide_eq_true htail; omega)]
        rfl
  · rw [getElem?_map]
    by_cases hlt : column < min ((position + 1) / I.compressRatio) blocks.length * I.compressRatio
    · obtain ⟨block, hin, hblock, hvalid, hvisible, hget⟩ := gathered_front h hlt
      have hlow : 0 ≤ block * (I.compressRatio : ℤ) + ((column % I.compressRatio : ℕ) : ℤ) := by positivity
      simp only [hlt, hin, and_self, if_true, hblock, hvalid, hlow, hvisible, decide_true, hget, Bool.true_or]
      rfl
    · have hback := gathered_back h (not_lt.mp hlt)
      simp only [hlt, false_and, decide_false, Bool.false_or, hback]
      rw [not_lt] at hlt
      generalize min ((position + 1) / I.compressRatio) blocks.length * I.compressRatio = width at hlt hfit hselected hback
      by_cases hoff : column - width < (position + 1) % I.compressRatio
      · rw [if_pos hoff]
        exact decide_eq_true (by omega)
      · rw [if_neg hoff]
        exact decide_eq_false (by omega)
  · rw [gathered_length h] at hfit ⊢
    exact min_eq_left hfit

end

end BlockIndexer

end FlashNext
