import BlackweLLM.LagunaChunks
import BlackweLLM.LagunaRing

/-!
# Forwards over the ring

The sliding-window KV of one layer under `runtime/backends/laguna.py`: the metadata that
a decode, a verify and a prefill forward hand to the attention kernel, and its paged
write and read. The values that a forward writes are arbitrary.
-/

namespace LagunaRingForward

open List Function LagunaChunks LagunaRing

variable {K : Type} (g : Geometry)

/-- What a sliding-window layer is given for one request. -/
structure Metadata where
  blockTable : List Nat
  seqLen : Nat
  qoLen : Nat
  slotMapping : List Nat
  deriving DecidableEq, Repr

/-- `max(0, pos - window + 1)`. -/
def windowStart (pos : Nat) : Nat := pos + 1 - g.window

def alignedStart (pos : Nat) : Nat := windowStart g pos / g.blockSize * g.blockSize

def ringBlock (slot pos : Nat) : Nat := g.ringBase slot + pos % g.ringSlots / g.blockSize

def ringRow (slot pos : Nat) : Nat := ringBlock g slot pos * g.blockSize + pos % g.blockSize

def blocksFor (tokens : Nat) : Nat := (tokens + g.blockSize - 1) / g.blockSize

/-- The ring entries of a table from an aligned start. -/
def ringBlocksFrom (slot start blocks : Nat) : List Nat :=
  (range blocks).map fun j => ringBlock g slot (start + j * g.blockSize)

/-- The ring part of `_fill_decode_buffers`, as `_build_swa_attn_metadata` slices it for `decode_ring`. -/
def decodeRing (slot pos : Nat) : Metadata :=
  let alignedLen := pos + 1 - alignedStart g pos
  let nRing := blocksFor g alignedLen
  let row := ringBlocksFrom g slot (alignedStart g pos) nRing ++ replicate (g.ringBlocks - nRing) (g.ringBase slot)
  ⟨row.take (blocksFor g alignedLen), alignedLen, 1, [ringRow g slot pos]⟩

/-- `_build_swa_attn_metadata` for `verify_ring`: the window of the earliest query. -/
def verifyRing (slot kvLen qo : Nat) : Metadata :=
  let alignedLen := kvLen + qo - alignedStart g kvLen
  let nRing := min (blocksFor g alignedLen) g.ringBlocks
  ⟨ringBlocksFrom g slot (alignedStart g kvLen) nRing ++ replicate (g.ringBlocks - nRing) 0, alignedLen, qo,
    (range qo).map fun j => ringRow g slot (kvLen + j)⟩

/-- `_build_swa_attn_metadata` for `prefill_scratch`. -/
def prefillScratch (kvLen qo : Nat) : Metadata :=
  ⟨range (blocksFor g (kvLen + qo)), kvLen + qo, qo,
    (range qo).map fun j => (kvLen + j) / g.blockSize * g.blockSize + (kvLen + j) % g.blockSize⟩

/-- The kernel's KV write: a flat row is a block and an offset. -/
def writeRows (m : Metadata) (kvs : List K) (cells : Cells K) : Cells K :=
  scatter cells ((m.slotMapping.zip kvs).map fun row => (g.scratchCell row.1, row.2))

/-- The rows that query `j` reads with `window_left = window - 1`, each with its distance from it. -/
def queryRows (m : Metadata) (cells : Cells K) (j : Nat) : List (Nat × Option K) :=
  let last := m.seqLen - m.qoLen + j
  (range' (last - (g.window - 1)) (last + 1 - (last - (g.window - 1)))).map fun x =>
    (last - x, (m.blockTable[x / g.blockSize]?).map fun block => cells (block, x % g.blockSize))

/-- A query of a slot, what it found for each position and what was last written for the positions of the sequence. -/
structure QueryRead (K : Type) where
  query : Nat
  rows : List (Nat × Option K)
  latest : Nat → Option K

/-- The queries of a forward from `kvLen` on. -/
def queryReads (m : Metadata) (kvLen : Nat) (cells : Cells K) (latest : Nat → Option K) : List (QueryRead K) :=
  (range m.qoLen).map fun j =>
    ⟨kvLen + j, (queryRows g m cells j).map fun row => (kvLen + j - row.1, row.2), latest⟩

/-- A part of one block that an operation on a slot reads or writes. -/
structure Slice where
  slot : Nat
  block : Nat
  offset : Nat
  length : Nat
  deriving DecidableEq, Repr

structure State (K : Type) where
  ring : Cells K
  kvLen : Nat → Nat
  /-- What was last written for a position of the slot's current sequence, kept for the statements only. -/
  latest : Nat → Nat → Option K
  reads : List (QueryRead K)
  /-- Every part of the ring that was read or written so far, kept for the statements only. -/
  slices : List Slice

def writeLatest (start : Nat) (kvs : List K) (latest : Nat → Option K) : Nat → Option K := fun p =>
  if start ≤ p ∧ p < start + kvs.length then kvs[p - start]? else latest p

/-- The blocks that the table of a forward names and the rows of its slot mapping. -/
def ringSlices (slot : Nat) (m : Metadata) : List Slice :=
  (range m.seqLen).filterMap (fun x => (m.blockTable[x / g.blockSize]?).map fun block => ⟨slot, block, x % g.blockSize, 1⟩) ++
    m.slotMapping.map fun row => ⟨slot, row / g.blockSize, row % g.blockSize, 1⟩

def ringForward (slot : Nat) (m : Metadata) (kvs : List K) (s : State K) : State K :=
  let ring := writeRows g m kvs s.ring
  let latest := writeLatest (s.kvLen slot) kvs (s.latest slot)
  { s with
    ring := ring
    latest := update s.latest slot latest
    reads := s.reads ++ queryReads g m (s.kvLen slot) ring latest
    slices := s.slices ++ ringSlices g slot m }

def slabSlice (slot : Nat) (slab : Slab) : Slice :=
  ⟨slot, slab.ringPosition / g.blockSize + g.ringBase slot, slab.ringPosition % g.blockSize, slab.length⟩

/-- One prefill forward inside `_swa_scratch_context`; `stale` is what other layers left in the arena. -/
def prefillChunk (slot start : Nat) (kvs : List K) (stale : Cells K) (s : State K) : State K :=
  let overlap := min g.window start
  let total := overlap + kvs.length
  let copyCount := min g.window total
  let toScratch := ringToScratchSlabs g (start - overlap) overlap
  let toRing := scratchToRingSlabs g (total - copyCount) (start + kvs.length - copyCount) copyCount
  let m := prefillScratch g overlap kvs.length
  let scratch := writeRows g m kvs (copyRingToSharedScratch g slot toScratch s.ring stale)
  let latest := writeLatest start kvs (s.latest slot)
  { s with
    ring := copySharedScratchToRing g slot toRing scratch s.ring
    latest := update s.latest slot latest
    reads := s.reads ++ queryReads g m start scratch latest
    slices := s.slices ++ toScratch.map (slabSlice g slot) ++ toRing.map (slabSlice g slot) }

/-- The loop of `_prefill_with_swa_chunked`. -/
def prefillChunks (slot : Nat) (kvs : List K) (stale : Nat → Cells K) (ranges : List (Nat × Nat)) (s : State K) :
    State K :=
  ranges.foldl (fun s range => prefillChunk g slot range.1 (kvs.extract range.1 range.2) (stale range.1) s) s

def prefill (slot chunkTokens : Nat) (kvs : List K) (stale : Nat → Cells K) (s : State K) :
    Except RangeError (State K) :=
  let s := { s with latest := update s.latest slot fun _ => none }
  if kvs.length ≤ chunkTokens then
    let s := prefillChunk g slot 0 kvs (stale 0) s
    .ok { s with kvLen := update s.kvLen slot kvs.length }
  else
    match prefillChunkRanges 0 kvs.length chunkTokens g.window with
    | .error e => .error e
    | .ok ranges =>
      let s := prefillChunks g slot kvs stale ranges s
      .ok { s with kvLen := update s.kvLen slot kvs.length }

def decode (slot : Nat) (kv : K) (s : State K) : State K :=
  let s := ringForward g slot (decodeRing g slot (s.kvLen slot)) [kv] s
  { s with kvLen := update s.kvLen slot (s.kvLen slot + 1) }

/-- A verify round over `kvs`, of which `kept` tokens are accepted. -/
def verify (slot : Nat) (kvs : List K) (kept : Nat) (s : State K) : State K :=
  let s := ringForward g slot (verifyRing g slot (s.kvLen slot) kvs.length) kvs s
  { s with kvLen := update s.kvLen slot (s.kvLen slot + kept) }

inductive Op (K : Type) where
  | prefill (slot chunkTokens : Nat) (kvs : List K) (stale : Nat → Cells K)
  | decode (slot : Nat) (kv : K)
  | verify (slot : Nat) (kvs : List K) (kept : Nat)

def Op.slot : Op K → Nat
  | .prefill slot .. => slot
  | .decode slot _ => slot
  | .verify slot .. => slot

def next (s : State K) : Op K → Option (State K)
  | .prefill slot chunkTokens kvs stale => (prefill g slot chunkTokens kvs stale s).toOption
  | .decode slot kv => some (decode g slot kv s)
  | .verify slot kvs kept => if kvs.length ≤ swaQoMax ∧ kept ≤ kvs.length then some (verify g slot kvs kept s) else none

/-- No slot has a sequence yet; the tensor holds anything. -/
def initial (ring : Cells K) : State K := ⟨ring, fun _ => 0, fun _ _ => none, [], []⟩

/-- A query found, for each position of its window and in their order, what was last written for it. -/
def Faithful (r : QueryRead K) : Prop :=
  r.rows = (range' (windowStart g r.query) (r.query + 1 - windowStart g r.query)).map (fun p => (p, r.latest p)) ∧
    ∀ p, windowStart g r.query ≤ p → p ≤ r.query → (r.latest p).isSome

/-- The part lies in one block of the slot's own ring. -/
def Slice.Own (t : Slice) : Prop :=
  g.ringBase t.slot ≤ t.block ∧ t.block < g.ringBase t.slot + g.ringBlocks ∧ t.offset + t.length ≤ g.blockSize

/-- The slabs cover `count` positions on both sides, each position once and in order, and no slab crosses a block. -/
structure Partition (scratchStart absStart count : Nat) (slabs : List Slab) : Prop where
  covers : (slabs.flatMap fun slab => (range slab.length).map fun i => (slab.scratchPosition + i, slab.ringPosition + i)) =
    (range count).map fun j => (scratchStart + j, (absStart + j) % g.ringSlots)
  within : ∀ slab ∈ slabs, 0 < slab.length ∧ slab.scratchPosition % g.blockSize + slab.length ≤ g.blockSize ∧
    slab.ringPosition % g.blockSize + slab.length ≤ g.blockSize ∧ slab.ringPosition + slab.length ≤ g.ringSlots
  once : count ≤ g.ringSlots → ((range count).map fun j => (absStart + j) % g.ringSlots).Nodup

end LagunaRingForward
