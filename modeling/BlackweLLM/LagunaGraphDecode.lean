import BlackweLLM.LagunaRingForward
import BlackweLLM.RaisingState

/-!
# Graph decode metadata

The buffers that a captured decode graph of `runtime/backends/laguna_cuda_graph.py`
reads, for the layout of one full-attention and one sliding-window group, and
what a replay writes into them. The workspace of a group has one row.
-/

namespace LagunaGraphDecode

open List LagunaRing LagunaRingForward RaisingState

structure Config where
  geometry : Geometry
  blocksPerSlot : Nat
  numSlots : Nat
  maxPages : Nat
  batchSize : Nat
  fastpath : Bool
  fullFirst : Bool

structure Buffers where
  prevNBlocks : List Nat
  swaPrevNBlocks : List Nat
  fullTable : List Nat
  swaTable : List Nat
  fullSeqlen : Nat
  swaSeqlen : Nat
  slotMapping : List Nat
  swaSlotMapping : List Nat
  /-- The slot that the full-attention table was last written for, kept for the statements only. -/
  fullSource : Nat
  /-- The slot and the aligned start that the ring table was last written for, kept for the statements only. -/
  swaSource : Nat × Nat
  deriving DecidableEq, Repr

inductive FillError where
  | index
  | shape
  deriving DecidableEq, Repr

abbrev Fill := EStateM FillError Buffers

variable (cfg : Config)

def fullBase (slot : Nat) : Nat := physicalSlot slot * cfg.blocksPerSlot

def capacity : Nat := cfg.blocksPerSlot * cfg.geometry.blockSize

/-- The rows of a page table that belong to a slot, from its first block on. -/
def fullBlocks (slot blocks : Nat) : List Nat := (range blocks).map fun j => fullBase cfg slot + j

/-- The full-attention part of `_fill_decode_buffers`. -/
def decodeFull (slot pos : Nat) : Metadata :=
  ⟨fullBlocks cfg slot (blocksFor cfg.geometry (pos + 1)), pos + 1, 1,
    [(fullBase cfg slot + pos / cfg.geometry.blockSize) * cfg.geometry.blockSize + pos % cfg.geometry.blockSize]⟩

def ringBlockCount (pos : Nat) : Nat := blocksFor cfg.geometry (pos + 1 - alignedStart cfg.geometry pos)

section Tables

/-- Row `i` of the full-attention table, rewritten when its page count is not the cached one. -/
def updateFullTable (i slot kvLen : Nat) : Fill Unit := do
  let s ← get
  let n := blocksFor cfg.geometry (kvLen + 1)
  match s.prevNBlocks[i]? with
  | none => throw .index
  | some prev =>
    if n ≠ prev then
      modify fun s => { s with prevNBlocks := s.prevNBlocks.set i n }
      raiseIf (cfg.maxPages < n) .shape
      -- the row is 0 for every `i`
      modify fun s => { s with fullTable := fullBlocks cfg slot n ++ s.fullTable.drop n, fullSource := slot }
    else pure ⟨⟩

/-- Row `i` of the ring table. -/
def updateSwaTable (i slot kvLen : Nat) : Fill Unit := do
  let s ← get
  let n := ringBlockCount cfg kvLen
  match s.swaPrevNBlocks[i]? with
  | none => throw .index
  | some prev =>
    if n ≠ prev then
      modify fun s => { s with swaPrevNBlocks := s.swaPrevNBlocks.set i n }
      raiseIf (0 < i ∨ cfg.geometry.ringBlocks < n) .index
      modify fun s => { s with
        swaTable := ringBlocksFrom cfg.geometry slot (alignedStart cfg.geometry kvLen) n ++ s.swaTable.drop n
        swaSource := (slot, alignedStart cfg.geometry kvLen) }
    else pure ⟨⟩

end Tables

/-- The full-attention group of row `i`; `mapped` is the flat row that the path computes. -/
def fillFull (i slot kvLen mapped : Nat) : Fill Unit := do
  updateFullTable cfg i slot kvLen
  raiseIf (0 < i) .index
  modify fun s => { s with fullSeqlen := kvLen + 1 }
  raiseIf (cfg.batchSize ≤ i) .index
  modify fun s => { s with slotMapping := s.slotMapping.set i mapped }

/-- The sliding-window group of row `i`. -/
def fillSwa (i slot kvLen : Nat) : Fill Unit := do
  updateSwaTable cfg i slot kvLen
  raiseIf (0 < i) .index
  modify fun s => { s with swaSeqlen := kvLen + 1 - alignedStart cfg.geometry kvLen }
  raiseIf (cfg.batchSize ≤ i) .index
  modify fun s => { s with swaSlotMapping := s.swaSlotMapping.set i (ringRow cfg.geometry slot kvLen) }

/-- `write_laguna_b1_decode_metadata`. -/
def writeB1DecodeMetadata (slot kvLen : Nat) (s : Buffers) : Buffers :=
  let ringPosition := kvLen % cfg.geometry.ringSlots
  { s with
    slotMapping := s.slotMapping.set 0 (fullBase cfg slot * cfg.geometry.blockSize + kvLen)
    fullSeqlen := kvLen + 1
    swaSeqlen := kvLen + 1 - alignedStart cfg.geometry kvLen
    swaSlotMapping := s.swaSlotMapping.set 0
      ((cfg.geometry.ringBase slot + ringPosition / cfg.geometry.blockSize) * cfg.geometry.blockSize +
        ringPosition % cfg.geometry.blockSize) }

def fillBuffersB1 (slot kvLen : Nat) : Fill Unit :=
  if cfg.fastpath then do
    modify (writeB1DecodeMetadata cfg slot kvLen)
    updateFullTable cfg 0 slot kvLen
    updateSwaTable cfg 0 slot kvLen
  else
    let full := fillFull cfg 0 slot kvLen (fullBase cfg slot * cfg.geometry.blockSize + kvLen)
    let swa := fillSwa cfg 0 slot kvLen
    if cfg.fullFirst then do full; swa else do swa; full

/-- The generic batch path of `_fill_buffers`. -/
def fillBuffersBatch (rows : List (Nat × Nat)) : Fill Unit := do
  -- the writes to `_input_ids` and `_positions`
  raiseIf (cfg.batchSize < rows.length) .index
  let full := forM rows.zipIdx fun r => fillFull cfg r.2 r.1.1 r.1.2
    ((fullBase cfg r.1.1 + r.1.2 / cfg.geometry.blockSize) * cfg.geometry.blockSize + r.1.2 % cfg.geometry.blockSize)
  let swa := forM rows.zipIdx fun r => fillSwa cfg r.2 r.1.1 r.1.2
  if cfg.fullFirst then do full; swa else do swa; full

/-- `_fill_buffers` over the slots and KV lengths of a call. -/
def fillBuffers : List (Nat × Nat) → Fill Unit
  | [row] => fillBuffersB1 cfg row.1 row.2
  | rows => fillBuffersBatch cfg rows

def initial : Buffers where
  prevNBlocks := replicate cfg.batchSize 0
  swaPrevNBlocks := replicate cfg.batchSize 0
  fullTable := range cfg.maxPages
  swaTable := range cfg.geometry.ringBlocks
  fullSeqlen := cfg.maxPages * cfg.geometry.blockSize - 1
  swaSeqlen := cfg.geometry.ringBlocks * cfg.geometry.blockSize - 1
  slotMapping := replicate cfg.batchSize 0
  swaSlotMapping := replicate cfg.batchSize 0
  fullSource := 0
  swaSource := (0, 0)

def warmup : List (Nat × Nat) :=
  (range cfg.batchSize).map fun i => (cfg.numSlots - cfg.batchSize + i, capacity cfg - 1)

/-- `capture`: five fills with the warmup rows, and the captured write to `_input_ids[0]`. -/
def capture : Option Buffers :=
  match (forM (replicate 5 (warmup cfg)) (fillBuffers cfg)) (initial cfg) with
  | .ok _ s => if cfg.batchSize = 0 then none else some s
  | .error _ _ => none

/-- What the captured graph reads for its row. -/
def fullRead (s : Buffers) : Metadata :=
  ⟨s.fullTable.take (blocksFor cfg.geometry s.fullSeqlen), s.fullSeqlen, 1, s.slotMapping.take 1⟩

def swaRead (s : Buffers) : Metadata :=
  ⟨s.swaTable.take (blocksFor cfg.geometry s.swaSeqlen), s.swaSeqlen, 1, s.swaSlotMapping.take 1⟩

/-- A row of a call and the metadata that the graph ran it with. -/
structure Replayed where
  slot : Nat
  kvLen : Nat
  full : Metadata
  swa : Metadata
  deriving DecidableEq, Repr

structure State where
  buffers : Buffers
  replayed : List Replayed
  deriving DecidableEq, Repr

inductive Op where
  | replay (rows : List (Nat × Nat))
  | reset
  deriving DecidableEq, Repr

/-- A call that raises does not replay the graph. A position behind the slot has no row in the eager table either. -/
def next (s : State) : Op → Option State
  | .replay rows =>
    if rows.all fun row => row.2 < capacity cfg then
      match fillBuffers cfg rows s.buffers with
      | .ok _ b => some ⟨b, s.replayed ++ rows.map fun row => ⟨row.1, row.2, fullRead cfg b, swaRead cfg b⟩⟩
      | .error _ b => some { s with buffers := b }
    else none
  | .reset => some { s with buffers := { s.buffers with
      prevNBlocks := replicate cfg.batchSize 0
      swaPrevNBlocks := replicate cfg.batchSize 0 } }

/-- The graph ran the row with the metadata of the eager decode. -/
def Matches (r : Replayed) : Prop :=
  r.full = decodeFull cfg r.slot r.kvLen ∧ r.swa = decodeRing cfg.geometry r.slot r.kvLen

instance (r : Replayed) : Decidable (Matches cfg r) := inferInstanceAs (Decidable (_ ∧ _))

/-- Each table is either rewritten for the row or was last written for the same slot and the same turn of the ring. -/
def Current (b : Buffers) (slot kvLen : Nat) : Prop :=
  (b.prevNBlocks = [blocksFor cfg.geometry (kvLen + 1)] → b.fullSource = slot) ∧
    (b.swaPrevNBlocks = [ringBlockCount cfg kvLen] →
      b.swaSource.1 = slot ∧ b.swaSource.2 % cfg.geometry.ringSlots =
        alignedStart cfg.geometry kvLen % cfg.geometry.ringSlots)

instance (b : Buffers) (slot kvLen : Nat) : Decidable (Current cfg b slot kvLen) := inferInstanceAs (Decidable (_ ∧ _))

def CurrentOp (s : State) : Op → Prop
  | .replay [row] => Current cfg s.buffers row.1 row.2
  | _ => True

instance (s : State) : (op : Op) → Decidable (CurrentOp cfg s op)
  | .replay [row] => inferInstanceAs (Decidable (Current cfg s.buffers row.1 row.2))
  | .replay [] => isTrue trivial
  | .replay (_ :: _ :: _) => isTrue trivial
  | .reset => isTrue trivial

end LagunaGraphDecode
