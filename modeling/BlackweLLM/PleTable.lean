import BlackweLLM.OrderedDict
import BlackweLLM.RaisingState

/-!
# The n-gram table and its caches

`FlashNextPleTable` of `runtime/model/flashnext/ple.py`. A gather answers an id from
the protected prefix rows, from the ring of recent rows, or from the shard's file,
which is read by whole pages through io_uring or `pread` behind a page cache. The
compiled storage reader is given; `pread` returns the bytes of the file.
-/

namespace PleTable

open List Function RaisingState

def pageSize : Nat := 4096

abbrev PageKey := Nat × Nat

inductive Errno where
  | nosys
  | perm
  | opnotsupp
  | inval
  | nodev
  | nxio
  | other (code : Nat)
  deriving DecidableEq

def fallbackErrnos : List Errno := [.nosys, .perm, .opnotsupp, .inval, .nodev, .nxio]

inductive PleError where
  | indexError (text : String)
  | osError (errno : Option Errno) (text : String)
  | valueError (text : String)
  | runtimeError (text : String)
  | keyError
  | assertionError

def PleError.shouldFallback : PleError → Bool
  | .osError (some errno) _ => errno ∈ fallbackErrnos
  | _ => false

/-- A shard's file, and where its rows begin. -/
structure Shard (Byte : Type) where
  file : List Byte
  offset : Nat

/-- The shards of the checkpoint, all of one fixed-width row layout. -/
structure Table (Byte : Type) where
  shards : List (Shard Byte)
  shardRows : Nat
  rowBytes : Nat
  rowBytes_pos : 0 < rowBytes
  rowBytes_le : rowBytes ≤ pageSize
  covers : ∀ shard ∈ shards, shard.offset + shardRows * rowBytes ≤ shard.file.length

variable {Byte : Type}

/-- `read_pages` of a reader of the storage extension, on the direct descriptors of the shards. -/
abbrev Reader (Byte : Type) := List PageKey → Except PleError (List (List Byte))

structure Setup where
  cacheRows : Nat
  prefixRows : Nat
  cachePages : Nat
  ioAuto : Bool
  largeBatchPreadPages : Nat
  /-- `len(_uring_readers)` where the backend started, zero for `pread`. -/
  uringReaders : Nat
  uringMaxBatch : Nat
  uringMaxBatch_pos : 0 < uringMaxBatch
  resident : Bool
  ngramHeads : Nat
  headDim : Nat

structure State (Byte : Type) where
  prefixRows : OrderedDict Int (List Byte)
  cacheMap : Int → Option Nat
  cacheKeys : List (Option Int)
  cacheRows : List (Option (List Byte))
  cacheNext : Nat
  pageCache : OrderedDict PageKey (List Byte)
  uringReaders : Nat

/-- `ids`, `cache_hint`, and what the readers do during the gather. -/
structure Request (Byte : Type) where
  ids : List (List Int)
  cacheHint : Bool
  readers : Nat → Reader Byte

/-- `d[k]`. -/
def item {K V σ : Type} [DecidableEq K] (d : OrderedDict K V) (k : K) : EStateM PleError σ V :=
  match d.get? k with
  | some v => pure v
  | none => throw .keyError

namespace Table

variable (t : Table Byte)

def totalRows : Nat := t.shardRows * t.shards.length

def file (shard : Nat) : List Byte := (t.shards[shard]?.map Shard.file).getD []

def shardDataOffset (shard : Nat) : Nat := (t.shards[shard]?.map Shard.offset).getD 0

structure Location where
  shard : Nat
  offset : Nat

/-- `divmod(row_id, shard_rows)`, and the offset of the row in its file. -/
def location (rowId : Int) : Location :=
  ⟨rowId.toNat / t.shardRows,
    t.shardDataOffset (rowId.toNat / t.shardRows) + rowId.toNat % t.shardRows * t.rowBytes⟩

/-- The pages that a row touches: one or two. -/
def pageKeys (l : Location) : PageKey × Option PageKey :=
  let first := l.offset / pageSize * pageSize
  let last := (l.offset + t.rowBytes - 1) / pageSize * pageSize
  ((l.shard, first), if first = last then none else some (l.shard, last))

section Pages

def readPageRun (shard start stop : Nat) : Except PleError (List (PageKey × List Byte)) :=
  if stop ≤ start then .ok []
  else
    let chunk := ((t.file shard).drop start).take (stop - start)
    if chunk.isEmpty then
      .error (.osError none s!"empty PLE page run: shard={shard}, offset={start}, size={stop - start}")
    else
      (range ((stop - start + pageSize - 1) / pageSize)).mapM fun i =>
        let page := (chunk.drop (i * pageSize)).take pageSize
        if page.isEmpty then
          .error (.osError none s!"PLE page run ended early: shard={shard}, offset={start + i * pageSize}")
        else .ok ((shard, start + i * pageSize), page)

/-- The contiguous runs of sorted page offsets, after the run that is open. -/
def runs (runStart runStop : Nat) : List Nat → List (Nat × Nat)
  | [] => [(runStart, runStop)]
  | offset :: offsets =>
    if offset = runStop then runs runStart (runStop + pageSize) offsets
    else (runStart, runStop) :: runs offset (offset + pageSize) offsets

def readPageBatch (shard : Nat) (offsets : List Nat) : Except PleError (List (PageKey × List Byte)) :=
  match offsets.eraseDups.mergeSort with
  | [] => .ok []
  | first :: rest =>
    ((runs first (first + pageSize) rest).mapM fun run => t.readPageRun shard run.1 run.2).map flatten

/-- The offsets of each shard, in the order of the keys. -/
def shardBatches (keys : List PageKey) : OrderedDict Nat (List Nat) :=
  keys.foldl (fun d key => d.set key.1 ((d.get? key.1).getD [] ++ [key.2])) .empty

def loadPagesPread (keys : List PageKey) : Except PleError (OrderedDict PageKey (List Byte)) :=
  ((shardBatches keys).entries.mapM fun batch => t.readPageBatch batch.1 batch.2).map fun loaded =>
    OrderedDict.empty.update loaded.flatten

end Pages

end Table

section Uring

variable (d : Setup) (readers : Nat → Reader Byte)

/-- The keys of one call of a reader, with their pages. -/
def readBatch (reader : Reader Byte) (keys : List PageKey) : Except PleError (List (PageKey × List Byte)) :=
  reader keys >>= fun pages =>
    if pages.length < keys.length then .error (.valueError "zip() argument 2 is shorter than argument 1")
    else if keys.length < pages.length then .error (.valueError "zip() argument 2 is longer than argument 1")
    else .ok (keys.zip pages)

def batches (keys : List PageKey) : List (List PageKey) :=
  (range ((keys.length + d.uringMaxBatch - 1) / d.uringMaxBatch)).map fun i =>
    (keys.drop (i * d.uringMaxBatch)).take d.uringMaxBatch

def readPartition (reader : Reader Byte) (keys : List PageKey) : Except PleError (List (PageKey × List Byte)) :=
  ((batches d keys).mapM (readBatch reader)).map flatten

/-- `deduped[index :: count]`. -/
def interleaved (count index : Nat) (keys : List PageKey) : List PageKey :=
  (keys.zipIdx.filter fun e => e.2 % count = index).map Prod.fst

/-- `_load_pages_io_uring`: one partition for a single reader, else the keys interleaved. -/
def loadPagesIoUring (count : Nat) (keys : List PageKey) : Except PleError (OrderedDict PageKey (List Byte)) :=
  if count = 0 then .error (.runtimeError "io_uring reader is not initialized")
  else
    let deduped := keys.eraseDups
    let partitions := if count = 1 then [(0, deduped)]
      else (range count).map fun index => (index, interleaved count index deduped)
    (partitions.mapM fun p => readPartition d (readers p.1) p.2).map fun loaded =>
      OrderedDict.empty.update loaded.flatten

end Uring

/-- The page cache, the pages found in it and the keys that are not. -/
structure Lookup (Byte : Type) where
  cache : OrderedDict PageKey (List Byte)
  pages : OrderedDict PageKey (List Byte)
  misses : List PageKey

def lookupPage (l : Lookup Byte) (key : PageKey) : Lookup Byte :=
  match l.cache.get? key with
  | none => { l with misses := l.misses ++ [key] }
  | some page => { l with cache := l.cache.moveToEnd key, pages := l.pages.set key page }

def keyLe (a b : PageKey) : Bool := a.1 < b.1 ∨ (a.1 = b.1 ∧ a.2 ≤ b.2)

section Gather

variable (d : Setup) (t : Table Byte)

/-- The pages of the misses: io_uring where it is in use, and `pread` where it is not or gives way. -/
def loadMisses (readers : Nat → Reader Byte) (misses : List PageKey) :
    EStateM PleError (State Byte) (OrderedDict PageKey (List Byte)) := do
  let s ← get
  if s.uringReaders ≠ 0 ∧ ¬(d.ioAuto = true ∧ d.largeBatchPreadPages ≤ misses.length) then
    match loadPagesIoUring d readers s.uringReaders misses with
    | .ok loaded => return loaded
    | .error e =>
      if e.shouldFallback = true then
        set { s with uringReaders := 0 }
        ofExcept (t.loadPagesPread misses)
      else throw e
  else ofExcept (t.loadPagesPread misses)

def loadPages (readers : Nat → Reader Byte) (keys : List PageKey) :
    EStateM PleError (State Byte) (OrderedDict PageKey (List Byte)) := do
  let s ← get
  let found := keys.eraseDups.foldl lookupPage ⟨s.pageCache, .empty, []⟩
  set { s with pageCache := found.cache }
  if found.misses = [] then return found.pages
  else
    let loaded ← loadMisses d t readers (found.misses.mergeSort keyLe)
    modify fun s =>
      if d.cachePages = 0 then s
      else { s with pageCache := loaded.entries.foldl (fun c e => c.refresh d.cachePages e.1 e.2) s.pageCache }
    return found.pages.update loaded.entries

/-- The bytes of a row, cut from its pages. -/
def assemble (pages : OrderedDict PageKey (List Byte)) (rowId : Int) : EStateM PleError (State Byte) (List Byte) := do
  let l := t.location rowId
  let (firstKey, secondKey) := t.pageKeys l
  let first ← item pages firstKey
  let within := l.offset - firstKey.2
  match secondKey with
  | none =>
    raiseIf (first.length < within + t.rowBytes)
      (.osError none s!"PLE page does not cover row {rowId} at byte {l.offset}")
    return (first.drop within).take t.rowBytes
  | some secondKey =>
    let firstBytes := min t.rowBytes (first.length - within)
    raiseIf (firstBytes = 0) (.osError none s!"PLE page does not cover row {rowId} at byte {l.offset}")
    let remaining := t.rowBytes - firstBytes
    let second ← item pages secondKey
    raiseIf (second.length < remaining) (.osError none s!"incomplete PLE row {rowId}: {remaining} bytes remain")
    return (first.drop within).take firstBytes ++ second.take remaining

def readRows (readers : Nat → Reader Byte) (rowIds : List Int) :
    EStateM PleError (State Byte) (OrderedDict Int (List Byte)) := do
  forM rowIds fun rowId => raiseIf (rowId < 0 ∨ (t.totalRows : Int) ≤ rowId)
    (.indexError s!"PLE row {rowId} outside table with {t.totalRows} rows")
  let keys := rowIds.map fun rowId => t.pageKeys (t.location rowId)
  let pages ← loadPages d t readers (keys.flatMap fun key => key.1 :: key.2.toList)
  rowIds.foldlM (fun output rowId => do return output.set rowId (← assemble t pages rowId)) .empty

/-- The rows resolved so far, and the ids that are in no cache. -/
structure Resolved (Byte : Type) where
  rows : OrderedDict Int (List Byte)
  misses : List Int

/-- One id of a gather: the prefix rows first, then the ring. -/
def resolve (acc : Resolved Byte) (rid : Int) : EStateM PleError (State Byte) (Resolved Byte) := do
  let s ← get
  match s.prefixRows.get? rid with
  | some row =>
    set { s with prefixRows := s.prefixRows.moveToEnd rid }
    return { acc with rows := acc.rows.set rid row }
  | none =>
    if d.cacheRows = 0 then return { acc with misses := acc.misses ++ [rid] }
    else
      match s.cacheMap rid with
      | some slot =>
        match s.cacheRows[slot]?.join with
        | some row => return { acc with rows := acc.rows.set rid row }
        | none => throw .assertionError
      | none => return { acc with misses := acc.misses ++ [rid] }

def recycle (rid : Int) (row : List Byte) (s : State Byte) : State Byte :=
  let slot := s.cacheNext
  let map := match s.cacheKeys[slot]?.join with
    | some evicted => if s.cacheMap evicted = some slot then update s.cacheMap evicted none else s.cacheMap
    | none => s.cacheMap
  { s with
    cacheNext := (slot + 1) % d.cacheRows
    cacheRows := s.cacheRows.set slot (some row)
    cacheKeys := s.cacheKeys.set slot (some rid)
    cacheMap := update map rid (some slot) }

def residentRows : List (List Byte) :=
  t.shards.flatMap fun shard => (range t.shardRows).map fun row =>
    (shard.file.drop (shard.offset + row * t.rowBytes)).take t.rowBytes

/-- `_resident[id]`: a negative index counts from the end. -/
def residentRow (rid : Int) : Except PleError (List Byte) :=
  if rid < -t.totalRows ∨ t.totalRows ≤ rid then
    .error (.indexError s!"index {rid} is out of bounds for dimension 0 with size {t.totalRows}")
  else .ok ((residentRows t)[(if rid < 0 then rid + t.totalRows else rid).toNat]?.getD [])

def protectRows (r : Request Byte) (rowIds : List Int) (loaded : OrderedDict Int (List Byte)) :
    EStateM PleError (State Byte) Unit :=
  if r.cacheHint = true ∧ d.prefixRows ≠ 0 then
    forM rowIds fun rid => do
      let row ← item loaded rid
      modify fun s => { s with prefixRows := s.prefixRows.refresh d.prefixRows rid row }
  else pure ⟨⟩

def recycleRows (rowIds : List Int) (loaded : OrderedDict Int (List Byte)) : EStateM PleError (State Byte) Unit :=
  if d.cacheRows ≠ 0 then
    forM rowIds fun rid => do
      let row ← item loaded rid
      modify (recycle d rid row)
  else pure ⟨⟩

/-- The rows that no cache holds are read, and enter the caches. -/
def fetch (r : Request Byte) (acc : Resolved Byte) :
    EStateM PleError (State Byte) (OrderedDict Int (List Byte)) := do
  let uniqueMisses := acc.misses.eraseDups
  if uniqueMisses = [] then return acc.rows
  else
    let loaded ← readRows d t r.readers uniqueMisses
    protectRows d r uniqueMisses loaded
    recycleRows d uniqueMisses loaded
    return acc.rows.update loaded.entries

/-- `_gather_raw_unlocked`: the bytes of the rows, and the shape. -/
def gather (r : Request Byte) : EStateM PleError (State Byte) (List Byte × Nat × Nat × Nat) := do
  let flatIds := r.ids.flatten
  let shape := (r.ids.length, d.ngramHeads, d.headDim)
  if d.resident = true then
    let rows ← ofExcept (flatIds.mapM (residentRow t))
    return (rows.flatten, shape)
  else
    let acc ← flatIds.foldlM (resolve d) ⟨.empty, []⟩
    let rows ← fetch d t r acc
    let raw ← flatIds.foldlM (fun raw rid => do return raw ++ (← item rows rid)) []
    return (raw, shape)

def start : State Byte where
  prefixRows := .empty
  cacheMap _ := none
  cacheKeys := replicate d.cacheRows none
  cacheRows := replicate d.cacheRows none
  cacheNext := 0
  pageCache := .empty
  uringReaders := d.uringReaders

/-- The caches after a sequence of gathers, of which some may have raised. -/
def after (history : List (Request Byte)) : State Byte :=
  history.foldl (fun s r => endState (gather d t r s)) (start d)

end Gather

end PleTable
