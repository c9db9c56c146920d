import BlackweLLM.RaisingState
import Mathlib.Tactic.Ring

/-!
# The slot pool with the fixed arena

`Qwen36SlotPool` of `runtime/model/qwen36_slots.py` without the dynamic arena:
every row of the page table starts with pages of its own, prefixes are shared
by aliasing, and a write moves to a page that an alias has displaced. The
device table is set together with the host's and is not kept twice.
-/

namespace FixedArena

open Function RaisingState

variable {β : Type}

structure Geometry where
  numSlots : Nat
  pageSize : Nat
  pagesPerSlot : Nat
  pageSize_pos : 0 < pageSize

/-- The row of `scratch_row`, behind those of the slots. -/
def Geometry.scratchRow (g : Geometry) : Nat := g.numSlots

def Geometry.numRows (g : Geometry) : Nat := g.numSlots + 1

def Geometry.totalPages (g : Geometry) : Nat := g.numRows * g.pagesPerSlot

def Geometry.maxSeqLen (g : Geometry) : Nat := g.pagesPerSlot * g.pageSize

def Geometry.pages (g : Geometry) (n : Nat) : Nat := (n + g.pageSize - 1) / g.pageSize

def Geometry.scratchPage (g : Geometry) (offset : Nat) : Nat := g.scratchRow * g.pagesPerSlot + offset

def Geometry.initialRow (g : Geometry) (row : Nat) : List Nat := List.range' (row * g.pagesPerSlot) g.pagesPerSlot

inductive ArenaError where
  | rowOutside (slot : Nat)
  | rowWidth (slot expected got : Nat)
  | rowRange
  | rowRepeats
  | noRow (slot : Nat)
  | writeOutside (start stop capacity : Nat)
  | exhausted
  | detachExhausted
  | notLive (slot : Nat)
  | prefixOutside
  | scratchPages
  | scratchRange
  | rewindOutside (slot kvLen : Nat)
  | cacheOverflow (capacity reach : Nat)
  deriving DecidableEq, Repr

structure Arena (β : Type) where
  geometry : Geometry
  host : Nat → List Nat
  refCnt : Nat → Nat
  free : List Nat
  kv : Nat → Nat → β
  kvLen : Nat → Nat
  seen : Nat → Nat

abbrev ArenaM (β : Type) := EStateM ArenaError (Arena β)

def start (g : Geometry) (kv : Nat → Nat → β) : Arena β where
  geometry := g
  host := g.initialRow
  refCnt := fun page => if page < g.totalPages then 1 else 0
  free := []
  kv := kv
  kvLen := fun _ => 0
  seen := fun _ => 0

section Table

def release (s : Arena β) (page : Nat) : Arena β :=
  { s with
    refCnt := update s.refCnt page (s.refCnt page - 1)
    free := if s.refCnt page - 1 = 0 then s.free.insert page else s.free }

def retain (s : Arena β) (page : Nat) : Arena β :=
  { s with refCnt := update s.refCnt page (s.refCnt page + 1), free := s.free.erase page }

def remap (slot : Nat) (pages : List Nat) (s : Arena β) : Arena β :=
  let s' := pages.foldl retain ((s.host slot).foldl release s)
  { s' with host := update s.host slot pages }

def setPageTableRow (slot : Nat) (pages : List Nat) : ArenaM β Unit := do
  let s ← get
  raiseIf (s.geometry.numRows ≤ slot) (.rowOutside slot)
  raiseIf (pages.length ≠ s.geometry.pagesPerSlot) (.rowWidth slot s.geometry.pagesPerSlot pages.length)
  raiseIf (∃ page ∈ pages, s.geometry.totalPages ≤ page) .rowRange
  raiseIf (¬pages.Nodup) .rowRepeats
  modify (remap slot pages)

/-- `list(self._page_table_host[slot])`. -/
def pageRow (slot : Nat) : ArenaM β (List Nat) := do
  let s ← get
  raiseIf (s.geometry.numRows ≤ slot) (.noRow slot)
  pure (s.host slot)

end Table

section Detach

/-- One logical page of the loops of `prepare_kv_writes` and `detach_scratch_aliases`, over the row and the
replacements so far. -/
def detachOne (wanted : Nat → Bool) (e : ArenaError) (acc : List Nat × List (Nat × Nat)) (page : Nat) :
    ArenaM β (List Nat × List (Nat × Nat)) := do
  let s ← get
  let source := acc.1.getD page 0
  if wanted source = false ∨ s.refCnt source ≤ 1 then pure acc
  else
    match s.free.min? with
    | none => throw e
    | some target =>
      set { s with free := s.free.erase target }
      pure (acc.1.set page target, acc.2 ++ [(source, target)])

def clonePages (replacements : List (Nat × Nat)) (s : Arena β) : Arena β :=
  { s with kv := replacements.foldl (fun kv r => update kv r.2 (kv r.1)) s.kv }

/-- The loop and what follows it; `true` where a page was replaced. -/
def detach (slot : Nat) (pages : List Nat) (wanted : Nat → Bool) (e : ArenaError) : ArenaM β Bool := do
  let row ← pageRow slot
  let (row, replacements) ← pages.foldlM (detachOne wanted e) (row, [])
  if replacements = [] then pure false
  else
    modify (clonePages replacements)
    setPageTableRow slot row
    pure true

/-- The logical pages of the positions from `start` up to `start + length`. -/
def Geometry.touched (g : Geometry) (start length : Nat) : List Nat :=
  List.range' (start / g.pageSize) ((start + length - 1) / g.pageSize + 1 - start / g.pageSize)

def prepareKvWrites (slot start length : Nat) : ArenaM β Unit := do
  let s ← get
  raiseIf (s.geometry.maxSeqLen < start + length) (.writeOutside start (start + length) s.geometry.maxSeqLen)
  if length = 0 then pure ()
  else
    let _ ← detach slot (s.geometry.touched start length) (fun _ => true) .exhausted
    pure ()

/-- The committed pages of a slot, where it has any, and the scratch pages among them. -/
def detachScratchAliases (slot kvLen : Nat) (offsets : List Nat) : ArenaM β Bool := do
  let s ← get
  raiseIf (s.geometry.numSlots ≤ slot) (.notLive slot)
  raiseIf (kvLen = 0 ∨ s.geometry.maxSeqLen < kvLen) .prefixOutside
  raiseIf (∃ offset ∈ offsets, s.geometry.pagesPerSlot ≤ offset) .scratchRange
  let committed := s.geometry.pages (s.kvLen slot)
  let pages := if committed = 0 then s.geometry.pages kvLen else min (s.geometry.pages kvLen) committed
  detach slot (List.range pages) (fun page => decide (page ∈ offsets.map s.geometry.scratchPage)) .detachExhausted

end Detach

section Share

def sharePrefixKv (source target kvLen : Nat) : ArenaM β Unit := do
  let s ← get
  raiseIf (s.geometry.numSlots ≤ source) (.notLive source)
  raiseIf (s.geometry.numSlots ≤ target) (.notLive target)
  if source = target ∨ kvLen = 0 then pure ()
  else
    raiseIf (s.geometry.maxSeqLen < kvLen) .prefixOutside
    let shared := s.geometry.pages kvLen
    setPageTableRow target ((s.host source).take shared ++ (s.host target).drop shared)

/-- The checks that `copy_prefix_to_scratch` and `share_scratch_prefix` make of their pages. -/
def checkScratchPages (slot kvLen : Nat) (pages : List Nat) : ArenaM β Unit := do
  let s ← get
  raiseIf (s.geometry.numSlots ≤ slot) (.notLive slot)
  raiseIf (kvLen = 0 ∨ s.geometry.maxSeqLen < kvLen) .prefixOutside
  raiseIf (pages.length ≠ s.geometry.pages kvLen ∨ ¬pages.Nodup) .scratchPages
  raiseIf (∃ page ∈ pages, page < s.geometry.scratchPage 0 ∨ s.geometry.scratchPage s.geometry.pagesPerSlot ≤ page)
    .scratchRange

def copyPrefixToScratch (source kvLen : Nat) (pages : List Nat) : ArenaM β Unit := do
  checkScratchPages source kvLen pages
  modify fun s =>
    { s with kv := (pages.zip (s.host source)).foldl (fun kv copy => update kv copy.1 (s.kv copy.2)) s.kv }

def shareScratchPrefix (target kvLen : Nat) (pages : List Nat) : ArenaM β Unit := do
  checkScratchPages target kvLen pages
  let s ← get
  setPageTableRow target (pages ++ (s.host target).drop pages.length)

end Share

section Slots

/-- `reset_slot`, which leaves the row. -/
def resetSlot (slot : Nat) (s : Arena β) : Arena β :=
  { s with kvLen := update s.kvLen slot 0, seen := update s.seen slot 0 }

def rewindSlot (slot kvLen : Nat) : ArenaM β Unit := do
  let s ← get
  raiseIf (s.geometry.maxSeqLen < kvLen) (.rewindOutside slot kvLen)
  set { s with kvLen := update s.kvLen slot kvLen, seen := update s.seen slot kvLen }

def writeEntry (slot position : Nat) (entry : β) (s : Arena β) : Arena β :=
  let page := (s.host slot).getD (position / s.geometry.pageSize) 0
  { s with kv := update s.kv page (update (s.kv page) (position % s.geometry.pageSize) entry) }

def writeKv (slot start : Nat) (entries : List β) (s : Arena β) : Arena β :=
  entries.zipIdx.foldl (fun s entry => writeEntry slot (start + entry.2) entry.1 s) s

def reads (s : Arena β) (slot position : Nat) : β :=
  s.kv ((s.host slot).getD (position / s.geometry.pageSize) 0) (position % s.geometry.pageSize)

end Slots

end FixedArena
