import BlackweLLM.BundlePool
import Mathlib.Data.List.Sort

/-!
# The slot pool with the dynamic arena

`Qwen36SlotPool` of `runtime/model/qwen36_slots.py` in dynamic-arena mode, and
the forwards of `runtime/backends/qwen36.py` that write through it. Slot `s` is
the owner `slot-s` of the arena. A page of every KV family is one function from
offsets to entries, and the attention caches' `seq_len`, which moves with
`num_tokens_seen`, is not kept twice.
-/

namespace SlotPool

open List Function BundlePool RaisingState

variable {β : Type}

structure Geometry where
  numSlots : Nat
  pageSize : Nat
  pagesPerSlot : Nat
  arena : Config
  pageSize_pos : 0 < pageSize
  /-- The pool takes the arena's default and reserves the null bundle only. -/
  nullOnly : arena.reserved = 1

def Geometry.numRows (g : Geometry) : Nat := g.numSlots + 1

def Geometry.maxSeqLen (g : Geometry) : Nat := g.pagesPerSlot * g.pageSize

def Geometry.pages (g : Geometry) (n : Nat) : Nat := (n + g.pageSize - 1) / g.pageSize

/-- `(end - 1) // page_size` as an index of a row; Python reads `-1` from its end. -/
def Geometry.lastPage (g : Geometry) (stop : Nat) : Nat :=
  if stop = 0 then g.pagesPerSlot - 1 else (stop - 1) / g.pageSize

inductive SlotError where
  | arena (e : PoolError)
  | rowOutside (slot : Nat)
  | rowWidth (slot expected got : Nat)
  | rowRange
  | rowRepeats
  | notLive (slot : Nat)
  | writeOutside (start stop capacity : Nat)
  | prefixOutside
  | requestOutside (length capacity : Nat)
  | blockSize
  | missingBundle (slot stop : Nat)
  | batchSlots
  | batchLengths
  | batchInvalidSlot
  | batchPriorLengths
  | batchCapacity (reach capacity : Nat)
  | batchStateLength (slot seen past : Nat)
  | batchRows
  | batchRegimes
  | slotFull (slot capacity : Nat)
  | cacheOverflow (capacity reach : Nat)
  | noRow (slot : Nat)
  deriving DecidableEq, Repr

def SlotError.isValueError : SlotError → Bool
  | .arena (.keyCount _ _) => true
  | .arena _ => false
  | .missingBundle _ _ => false
  | .batchCapacity _ _ => false
  | .batchStateLength _ _ _ => false
  | .slotFull _ _ => false
  | .cacheOverflow _ _ => false
  | .noRow _ => false
  | _ => true

/-- One page that a forward writes, with the page's state at that moment. -/
structure KvWrite where
  slot : Nat
  page : Nat
  refCnt : Nat
  blockHash : Option BlockKey
  owned : Bool
  deriving DecidableEq, Repr

structure Slots (β : Type) where
  geometry : Geometry
  arena : Pool Nat
  host : Nat → List Nat
  device : Nat → List Nat
  bundles : Nat → List Nat
  kv : Nat → Nat → β
  kvLen : Nat → Nat
  seen : Nat → Nat
  hasPrevious : Nat → Bool
  column : Nat → Nat
  /-- The writes of the forwards, kept for the statements only. -/
  writes : List KvWrite

abbrev SlotM (β : Type) := EStateM SlotError (Slots β)

def start (g : Geometry) (kv : Nat → Nat → β) : Slots β where
  geometry := g
  arena := BundlePool.start g.arena
  host := fun _ => replicate g.pagesPerSlot 0
  device := fun _ => replicate g.pagesPerSlot 0
  bundles := fun _ => []
  kv := kv
  kvLen := fun _ => 0
  seen := fun _ => 0
  hasPrevious := fun _ => false
  column := fun _ => 0
  writes := []

def onArena {α : Type} (x : PoolM Nat α) : SlotM β α :=
  zoom (·.arena) (fun p s => { s with arena := p }) SlotError.arena x

section Table

/-- `list(self._page_table_host[slot])`. -/
def pageRow (slot : Nat) : SlotM β (List Nat) := do
  let s ← get
  raiseIf (s.geometry.numRows ≤ slot) (.noRow slot)
  pure (s.host slot)

def own (slot bundle : Nat) (s : Slots β) : Slots β :=
  { s with bundles := update s.bundles slot ((s.bundles slot).insert bundle) }

def disown (slot bundle : Nat) (s : Slots β) : Slots β :=
  { s with bundles := update s.bundles slot ((s.bundles slot).erase bundle) }

def setPageTableRow (slot : Nat) (pages : List Nat) : SlotM β Unit := do
  let s ← get
  raiseIf (s.geometry.numRows ≤ slot) (.rowOutside slot)
  raiseIf (pages.length ≠ s.geometry.pagesPerSlot) (.rowWidth slot s.geometry.pagesPerSlot pages.length)
  raiseIf (∃ page ∈ pages, s.geometry.arena.numBundles ≤ page) .rowRange
  raiseIf (¬(pages.filter (· ≠ 0)).Nodup) .rowRepeats
  set { s with host := update s.host slot pages, device := update s.device slot pages }

/-- `_clone_cow_pages`; a replacement is a logical page, its source and its target. -/
def cloneCowPages (replacements : List (Nat × Nat × Nat)) (s : Slots β) : Slots β :=
  { s with
    kv := replacements.foldl
      (fun kv r => if r.2.1 = 0 then kv else update kv r.2.2 (kv r.2.1)) s.kv }

end Table

section Writes

/-- A page that may not be written in place: shared, or published. -/
def mustCopy (p : Pool Nat) (page : Nat) : Prop := 1 < p.refCnt page ∨ (p.blockHash page).isSome

instance (p : Pool Nat) (page : Nat) : Decidable (mustCopy p page) := inferInstanceAs (Decidable (_ ∨ _))

/-- One logical page of the loop of `prepare_kv_writes`, over the row and the replacements so far. -/
def detach (slot : Nat) (acc : List Nat × List (Nat × Nat × Nat)) (page : Nat) :
    SlotM β (List Nat × List (Nat × Nat × Nat)) := do
  let s ← get
  let source := acc.1.getD page 0
  if source = 0 then
    let ids ← onArena (allocate 1 slot)
    let target := ids.headD 0
    modify (own slot target)
    pure (acc.1.set page target, acc.2 ++ [(page, source, target)])
  else if mustCopy s.arena source then
    let target ← onArena (ensureWritable source slot)
    onArena (decref [source])
    modify (disown slot source)
    modify (own slot target)
    pure (acc.1.set page target, acc.2 ++ [(page, source, target)])
  else pure acc

/-- The logical pages of the positions from `start` up to `start + length`. -/
def Geometry.touched (g : Geometry) (start length : Nat) : List Nat :=
  range' (start / g.pageSize) ((start + length - 1) / g.pageSize + 1 - start / g.pageSize)

def prepareKvWrites (slot start length : Nat) : SlotM β Unit := do
  let s ← get
  raiseIf (s.geometry.maxSeqLen < start + length) (.writeOutside start (start + length) s.geometry.maxSeqLen)
  if length = 0 then pure ()
  else
    let row ← pageRow slot
    let (row, replacements) ← (s.geometry.touched start length).foldlM (detach slot) (row, [])
    if replacements = [] then pure ()
    else
      modify (cloneCowPages replacements)
      onArena drainPendingCow
      setPageTableRow slot row

end Writes

section Publish

/-- The blocks of `publish_committed_blocks`, with their bundles. -/
def committedBlocks (slot kvLen blockSize : Nat) (includePartial : Bool) :
    List BlockKey → SlotM β (List (BlockKey × Nat))
  | [] => pure []
  | key :: keys => do
    if kvLen < key.numTokens then pure []
    else if key.numTokens % blockSize ≠ 0 ∧ ¬(includePartial ∧ key.numTokens = kvLen) then
      committedBlocks slot kvLen blockSize includePartial keys
    else
      let s ← get
      let bundle := (s.host slot).getD (s.geometry.lastPage key.numTokens) 0
      raiseIf (bundle = 0) (.missingBundle slot key.numTokens)
      let blocks ← committedBlocks slot kvLen blockSize includePartial keys
      pure ((key, bundle) :: blocks)

def publishCommittedBlocks (slot kvLen : Nat) (keys : List BlockKey) (blockSize : Nat) (includePartial : Bool) :
    SlotM β Nat := do
  let s ← get
  raiseIf (s.geometry.numSlots ≤ slot) (.notLive slot)
  raiseIf (s.geometry.maxSeqLen < kvLen) .prefixOutside
  raiseIf (blockSize = 0 ∨ s.geometry.pageSize % blockSize ≠ 0) .blockSize
  let blocks ← committedBlocks slot kvLen blockSize includePartial keys
  onArena (cacheFullBlocks (blocks.map (·.1)) (blocks.map (·.2)))
  pure blocks.length

end Publish

section Restore

/-- `list(dict.fromkeys(...))`. -/
def distinct (ids : List Nat) : List Nat := ids.foldl (fun seen id => if id ∈ seen then seen else seen ++ [id]) []

/-- The bundle of the last block of each page that ends within `kvLen`. -/
def Geometry.pageSources (g : Geometry) (kvLen : Nat) (blocks : List (BlockKey × Nat)) : List Nat :=
  (blocks.takeWhile fun block => decide (block.1.numTokens ≤ kvLen)).foldl
    (fun sources block =>
      if block.1.numTokens = 0 then sources else sources.set ((block.1.numTokens - 1) / g.pageSize) block.2)
    (replicate (g.pages kvLen) 0)

/-- The checks of `_restore_cached_page_prefix` before it touches the arena. -/
def restorable (s : Slots β) (slot kvLen : Nat) (sources : List Nat) : Prop :=
  (0 < kvLen ∧ kvLen ≤ s.geometry.maxSeqLen ∧ sources.length = s.geometry.pages kvLen) ∧
  (∀ bundle ∈ sources, s.arena.config.reserved ≤ bundle ∧ bundle < s.arena.config.numBundles ∧
    ¬(s.arena.refCnt bundle = 0 ∧ s.arena.blockHash bundle = none)) ∧
  ¬(reservedFor s.arena slot ≠ 0 ∧ reservedFor s.arena slot < s.geometry.pages kvLen)

instance (s : Slots β) (slot kvLen : Nat) (sources : List Nat) : Decidable (restorable s slot kvLen sources) :=
  inferInstanceAs (Decidable (_ ∧ _ ∧ _))

/-- The private page for a partial tail. -/
def allocateTail (slot : Nat) (tail : Bool) : SlotM β (Option Nat) :=
  if tail then do
    let ids ← onArena (allocate 1 slot)
    pure ids.head?
  else pure none

/-- The calls inside the `try`, each undone by hand when a later one raises; `none` is a miss. -/
def acquireSources (slot : Nat) (sources : List Nat) (tail : Bool) (full : Nat) : SlotM β (Option (Option Nat)) := do
  let revived ← attempt (onArena (incref (distinct sources) slot))
  match revived with
  | .error _ => pure none
  | .ok _ =>
    let fresh ← attempt (allocateTail slot tail)
    match fresh with
    | .error (_ : SlotError) =>
      let _ ← attempt (onArena (decref (distinct sources)))
      pure none
    | .ok fresh =>
      let consumed ← attempt (onArena (consumeReservation slot full))
      match consumed with
      | .error (_ : SlotError) =>
        let _ ← attempt (onArena (decref fresh.toList))
        let _ ← attempt (onArena (decref (distinct sources)))
        pure none
      | .ok _ => pure (some fresh)

def restoreCachedPagePrefix (slot kvLen : Nat) (sources : List Nat) : SlotM β (Nat × List Nat) := do
  let s ← get
  if ¬restorable s slot kvLen sources then pure (0, [])
  else
    let tail := kvLen % s.geometry.pageSize ≠ 0
    let full := if tail then sources.dropLast else sources
    let acquired ← acquireSources slot sources tail full.length
    match acquired with
    | none => pure (0, [])
    | some fresh =>
      let row ← pageRow slot
      let row := full ++ row.drop full.length
      modify fun s => full.foldl (fun s bundle => own slot bundle s) s
      match fresh with
      | none =>
        setPageTableRow slot row
        pure (kvLen, full)
      | some fresh =>
        let source := sources.getLastD 0
        modify (own slot fresh)
        modify (cloneCowPages [(s.geometry.pages kvLen - 1, source, fresh)])
        onArena (decref [source])
        setPageTableRow slot (row.set (s.geometry.pages kvLen - 1) fresh)
        pure (kvLen, full ++ [fresh])

def restorePrefixFromArena (slot kvLen : Nat) (keys : List BlockKey) : SlotM β (Nat × List Nat) := do
  let s ← get
  raiseIf (s.geometry.numSlots ≤ slot) (.notLive slot)
  let hit := lookupLongestPrefix s.arena keys none
  if hit.hit = false ∨ hit.bundleIds = [] then pure (0, [])
  else
    let sources := s.geometry.pageSources kvLen (keys.zip hit.bundleIds)
    if 0 ∈ sources then pure (0, []) else restoreCachedPagePrefix slot kvLen sources

def restorePrefixFromCachedBundles (slot kvLen : Nat) (bundleIds : List Nat) : SlotM β (Nat × List Nat) := do
  let s ← get
  if bundleIds.length ≠ s.geometry.pages kvLen then pure (0, [])
  else if 0 ∈ bundleIds then pure (0, [])
  else restoreCachedPagePrefix slot kvLen bundleIds

end Restore

section Lifecycle

def reserveKvCapacity (slot totalTokens : Nat) : SlotM β Bool := do
  let s ← get
  raiseIf (s.geometry.numSlots ≤ slot) (.notLive slot)
  raiseIf (s.geometry.maxSeqLen < totalTokens) (.requestOutside totalTokens s.geometry.maxSeqLen)
  onArena (reserve (s.geometry.pages totalTokens) slot)

def resetSlot (slot : Nat) : SlotM β Unit := do
  let _ ← pageRow slot
  modify fun s =>
    { s with
      kvLen := update s.kvLen slot 0, seen := update s.seen slot 0
      hasPrevious := update s.hasPrevious slot false }
  let _ ← onArena (releaseReservation slot)
  let s ← get
  if s.bundles slot = [] then pure ()
  else
    onArena (decref ((s.bundles slot).insertionSort (· ≤ ·)))
    modify fun s => { s with bundles := update s.bundles slot [] }
  let s ← get
  if (s.host slot).all (· = 0) then pure ()
  else setPageTableRow slot (replicate s.geometry.pagesPerSlot 0)

def resetAll : SlotM β Unit := do
  let s ← get
  forM (range s.geometry.numRows) resetSlot

def rewindSlot (slot kvLen : Nat) : SlotM β Unit := do
  let s ← get
  raiseIf (s.geometry.maxSeqLen < kvLen) .prefixOutside
  set { s with kvLen := update s.kvLen slot kvLen, seen := update s.seen slot kvLen }

end Lifecycle

section Forwards

/-- The KV entry of one position of a slot, through a page table. -/
def writeEntry (slot : Nat) (table : List Nat) (position : Nat) (entry : β) (s : Slots β) : Slots β :=
  let page := table.getD (position / s.geometry.pageSize) 0
  { s with
    kv := update s.kv page (update (s.kv page) (position % s.geometry.pageSize) entry)
    writes := s.writes ++ [⟨slot, page, s.arena.refCnt page, s.arena.blockHash page, decide (page ∈ s.bundles slot)⟩] }

def writeKv (slot : Nat) (table : List Nat) (start : Nat) (entries : List β) (s : Slots β) : Slots β :=
  entries.zipIdx.foldl (fun s entry => writeEntry slot table (start + entry.2) entry.1 s) s

/-- `num_tokens_seen` and `seq_len` behind a forward, and the recurrent state is live. -/
def advance (slot n : Nat) (s : Slots β) : Slots β :=
  { s with
    seen := update s.seen slot (s.seen slot + n)
    hasPrevious := update s.hasPrevious slot true }

/-- A forward of one slot, which appends to its attention cache. -/
def forward (slot : Nat) (entries : List β) : SlotM β Unit := do
  let _ ← pageRow slot
  let s ← get
  raiseIf (s.geometry.maxSeqLen < s.seen slot + entries.length)
    (.cacheOverflow s.geometry.maxSeqLen (s.seen slot + entries.length))
  modify (writeKv slot (s.device slot) (s.seen slot) entries)
  modify (advance slot entries.length)

def prefillSerial (slot start : Nat) (entries : List β) : SlotM β Unit := do
  prepareKvWrites slot start entries.length
  forward slot entries

/-- The checks of `build_prefill_batch`, which returns the common length. -/
def checkPrefillBatch (slots : List Nat) (rows : List (List β)) : SlotM β Nat := do
  let s ← get
  raiseIf (slots = [] ∨ slots.length ≠ rows.length ∨ ¬slots.Nodup) .batchSlots
  let q := (rows.headD []).length
  raiseIf (q = 0 ∨ ∃ row ∈ rows, row.length ≠ q) .batchLengths
  raiseIf (∃ slot ∈ slots, s.geometry.numSlots ≤ slot) .batchInvalidSlot
  let past := s.kvLen (slots.headD 0)
  raiseIf (∃ slot ∈ slots, s.kvLen slot ≠ past) .batchPriorLengths
  raiseIf (s.geometry.maxSeqLen < past + q) (.batchCapacity (past + q) s.geometry.maxSeqLen)
  forM slots fun slot => do
    raiseIf (s.seen slot ≠ past) (.batchStateLength slot (s.seen slot) past)
    raiseIf (s.column slot ≠ 0) .batchRows
  raiseIf (∃ slot ∈ slots, s.hasPrevious slot ≠ s.hasPrevious (slots.headD 0)) .batchRegimes
  pure past

/-- `build_prefill_batch`; the write rows come from the host table. -/
def buildPrefillBatch (slots : List Nat) (rows : List (List β)) : SlotM β Nat := do
  let past ← checkPrefillBatch slots rows
  forM slots fun slot => prepareKvWrites slot past (rows.headD []).length
  pure past

def commitPrefillOne (n slot : Nat) (s : Slots β) : Slots β :=
  { s with
    kvLen := update s.kvLen slot (s.kvLen slot + n), seen := update s.seen slot (s.kvLen slot + n)
    hasPrevious := update s.hasPrevious slot true }

/-- The forward of all slots behind a descriptor, and `commit_prefill_batch`. -/
def forwardBatch (slots : List Nat) (rows : List (List β)) (past : Nat) (s : Slots β) : Slots β :=
  let written := (slots.zip rows).foldl (fun s row => writeKv row.1 (s.host row.1) past row.2 s) s
  (slots.zip rows).foldl (fun s row => commitPrefillOne row.2.length row.1 s) written

def prefillBatched (slots : List Nat) (rows : List (List β)) : SlotM β Unit := do
  let past ← buildPrefillBatch slots rows
  modify (forwardBatch slots rows past)

/-- One slot of `build_decode_batch`: the position that its token will take, and the row of its `write_index`. -/
def stageDecode (slot : Nat) : SlotM β (Nat × List Nat) := do
  let _ ← pageRow slot
  let s ← get
  let past := s.kvLen slot
  raiseIf (s.geometry.maxSeqLen ≤ past) (.slotFull slot s.geometry.maxSeqLen)
  prepareKvWrites slot past 1
  let row ← pageRow slot
  modify fun s =>
    { s with
      kvLen := update s.kvLen slot (past + 1), seen := update s.seen slot (past + 1) }
  pure (past, row)

/-- `_decode_forward_batched`: all slots are staged before the forward writes. -/
def decodeBatched (tokens : List (Nat × β)) : SlotM β Unit := do
  let staged ← tokens.mapM fun token => stageDecode token.1
  modify fun s => (tokens.zip staged).foldl (fun s row => writeKv row.1.1 row.2.2 row.2.1 [row.1.2] s) s

/-- One slot of `_decode_forward_serial`, which goes straight to the forward. -/
def decodeSerialOne (token : Nat × β) : SlotM β Unit := do
  forward token.1 [token.2]
  modify fun s => { s with kvLen := update s.kvLen token.1 (s.kvLen token.1 + 1) }

end Forwards

end SlotPool
