import BlackweLLM.LagunaChunks
import BlackweLLM.LagunaRing

/-!
# Laguna prefill

`prefill_with_aux` and `_prefill_with_prefix_hit` of `runtime/backends/laguna.py`
over a stack of full-attention and sliding-window layers. A layer is what it
stores of a position and what it makes of the rows it sees; the cache is one
slot's full-attention rows, the rings and the shared scratch arena.
-/

namespace LagunaPrefill

open Function LagunaChunks LagunaRing

inductive Attention where
  | full
  | sliding
  deriving DecidableEq, Repr

structure Layer (X K : Type) where
  attention : Attention
  store : Nat → X → K
  /-- The output at a position, from its input and the rows that its attention sees. -/
  output : Nat → X → List K → X

structure Model (Tok X K : Type) where
  embed : Nat → Tok → X
  layers : List (Layer X K)
  zero : K

structure Cache (K : Type) where
  full : Nat → Nat → K
  ring : Nat → Cells K
  scratch : Cells K

/-- The arguments of `_swa_scratch_context`. -/
structure ScratchContext where
  overlapAbsStart : Nat
  overlapCount : Nat
  scratchCopyStart : Nat
  ringCopyAbsStart : Nat
  copyCount : Nat
  deriving DecidableEq, Repr

variable {Tok X K : Type}

namespace Model

def attentions (m : Model Tok X K) : List Attention := m.layers.map Layer.attention

/-- `_swa_scratch is not None`. -/
def hasSwa (m : Model Tok X K) : Bool := m.attentions.any (· = .sliding)

end Model

section Forward

variable (g : Geometry) (slot : Nat)

/-- A full-attention layer: the rows of the chunk are written, then each query reads everything up to itself. -/
def runFull (start l : Nat) (layer : Layer X K) (xs : List X) (c : Cache K) : List X × Cache K :=
  let rows := scatter (c.full l) (xs.mapIdx fun i x => (start + i, layer.store (start + i) x))
  (xs.mapIdx fun i x => layer.output (start + i) x ((List.range' 0 (start + i + 1)).map rows),
    { c with full := update c.full l rows })

/-- A sliding-window layer between the hooks of `_swa_scratch_context`. -/
def runSliding (context : ScratchContext) (start swaKvLength l : Nat) (layer : Layer X K) (xs : List X) (c : Cache K) :
    List X × Cache K :=
  let before := copyRingToSharedScratch g slot
    (ringToScratchSlabs g context.overlapAbsStart context.overlapCount) (c.ring l) c.scratch
  let scratch := scatter before (xs.mapIdx fun i x => (g.scratchCell (swaKvLength + i), layer.store (start + i) x))
  let ring := copySharedScratchToRing g slot
    (scratchToRingSlabs g context.scratchCopyStart context.ringCopyAbsStart context.copyCount) scratch (c.ring l)
  (xs.mapIdx fun i x => layer.output (start + i) x
      ((List.range' (swaKvLength + i + 1 - g.window) (swaKvLength + i + 1 - (swaKvLength + i + 1 - g.window))).map
        fun position => scratch (g.scratchCell position)),
    { c with ring := update c.ring l ring, scratch := scratch })

def runLayer (context : ScratchContext) (start swaKvLength l : Nat) (layer : Layer X K) (xs : List X) (c : Cache K) :
    List X × Cache K :=
  match layer.attention with
  | .full => runFull start l layer xs c
  | .sliding => runSliding g slot context start swaKvLength l layer xs c

def runLayers (context : ScratchContext) (start swaKvLength : Nat) : Nat → List (Layer X K) → List X → Cache K →
    List X × Cache K
  | _, [], xs, c => (xs, c)
  | l, layer :: layers, xs, c =>
    let r := runLayer g slot context start swaKvLength l layer xs c
    runLayers context start swaKvLength (l + 1) layers r.1 r.2

/-- `_forward` and `_forward_with_aux` inside a scratch context: the hidden rows of the chunk. -/
def forward (m : Model Tok X K) (context : ScratchContext) (tokens : List Tok) (kvLength swaKvLength : Nat)
    (c : Cache K) : List X × Cache K :=
  runLayers g slot context kvLength swaKvLength 0 m.layers (tokens.mapIdx fun i t => m.embed (kvLength + i) t) c

end Forward

section Prefill

variable (g : Geometry) (chunkTokens slot : Nat) (m : Model Tok X K)

/-- `_swa_window`, zero when no layer has one. -/
def swaWindow : Nat := if m.hasSwa then g.window else 0

/-- One forward behind `absStart`, with the overlap read from the ring and the last window copied back. -/
def prefillChunk (tokens : List Tok) (absStart : Nat) (c : Cache K) : List X × Cache K :=
  let overlap := min (swaWindow g m) absStart
  let copyCount := min (swaWindow g m) (overlap + tokens.length)
  forward g slot m ⟨absStart - overlap, overlap, overlap + tokens.length - copyCount,
    absStart + tokens.length - copyCount, copyCount⟩ tokens absStart overlap c

/-- The loop over the chunks of `tokens`, which lie behind `base`; the hidden row of the last token comes with
the last chunk. -/
def prefillChunks (tokens : List Tok) (base : Nat) (ranges : List (Nat × Nat)) (r : Option X × Cache K) :
    Option X × Cache K :=
  ranges.foldl (fun r range =>
    let step := prefillChunk g slot m (tokens.extract range.1 range.2) (base + range.1) r.2
    (if range.2 = tokens.length then step.1.getLast? else r.1, step.2)) r

/-- The suffix path of both prefills: one forward, or chunks of it. -/
def prefillFrom (tokens : List Tok) (base : Nat) (c : Cache K) : Except RangeError (Option X × Cache K) :=
  if tokens.length ≤ chunkTokens then
    let step := prefillChunk g slot m tokens base c
    .ok (step.1.getLast?, step.2)
  else
    (prefillChunkRanges 0 tokens.length chunkTokens (swaWindow g m)).map
      fun ranges => prefillChunks g slot m tokens base ranges (none, c)

def prefillWithAux (promptIds : List Tok) (c : Cache K) : Except RangeError (Option X × Cache K) :=
  prefillFrom g chunkTokens slot m promptIds 0 c

/-- The slot's ring blocks of every sliding-window layer, zeroed. -/
def zeroRing (c : Cache K) : Cache K :=
  { c with ring := fun l cell =>
      if (m.layers[l]?.map Layer.attention) = some .sliding ∧
          g.ringBase slot ≤ cell.1 ∧ cell.1 < g.ringBase slot + g.ringBlocks then m.zero
      else c.ring l cell }

/-- The trailing window of the prefix, run again from an empty history. -/
def rebuildRing (promptIds : List Tok) (prefixHit : Nat) (c : Cache K) : Cache K :=
  let rebuildLen := min g.window prefixHit
  let rebuildStart := prefixHit - rebuildLen
  let copyCount := min g.window rebuildLen
  (forward g slot m ⟨0, 0, rebuildLen - copyCount, prefixHit - copyCount, copyCount⟩
    (promptIds.extract rebuildStart prefixHit) rebuildStart 0 c).2

def prefillWithPrefixHit (promptIds : List Tok) (prefixHit : Nat) (c : Cache K) :
    Except RangeError (Option X × Cache K) :=
  let c := if m.hasSwa then rebuildRing g slot m promptIds prefixHit (zeroRing g slot m c) else c
  prefillFrom g chunkTokens slot m (promptIds.drop prefixHit) prefixHit c

end Prefill

end LagunaPrefill
