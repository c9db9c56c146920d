import BlackweLLM.ArrayFill
import BlackweLLM.KvPages
import BlackweLLM.MtpAccept

/-!
# The inputs of the ragged verify graph

`Qwen36MTPRaggedVerifyCudaGraph._fill` and `greedy_accept_ragged`. The rows of a batch
stand compact at the front of every flat input, while the recurrence sees them on a grid
of `K + 1` columns. The page table of the attention drivers and the fused context inputs
are filled elsewhere.
-/

namespace RaggedVerify

open List Function ArrayFill RaisingState

variable {σ ε : Type}

/-- The draft of one slot: tokens on the host, or a device tensor of rank one or two. -/
inductive Draft where
  | host (tokens : List Nat)
  | flat (tokens : List Nat)
  | matrix (rows : List (List Nat))
  deriving DecidableEq, Repr

def Draft.onDevice : Draft → Bool
  | .host _ => false
  | .flat _ => true
  | .matrix _ => true

inductive FillError (ε : Type) where
  | batchSize (batch : Nat)
  | unequalLengths
  | verifyLens (lens : List Nat)
  | deviceShape (expected : Nat)
  | draftLength (got expected : Nat)
  | positionOutside (kvLen capacity : Nat)
  | column (col numSpec : Nat)
  | pool (e : ε)

def draftRow (expected : Nat) : Draft → Except (FillError ε) (List Nat)
  | .host tokens =>
    if tokens.length = expected then .ok tokens else .error (.draftLength tokens.length expected)
  | .flat tokens => if tokens.length = expected then .ok tokens else .error (.deviceShape expected)
  | .matrix [row] => if row.length = expected then .ok row else .error (.deviceShape expected)
  | .matrix _ => .error (.deviceShape expected)

/-- `spec_row` without reserved rows: column zero is the slot's ordinary row, the candidates lie behind all of
them. -/
def specRow (slot col totalPhysicalSlots numSpec : Nat) : Nat :=
  if col = 0 then slot else totalPhysicalSlots + slot * numSpec + (col - 1)

/-- What the graph takes from its engine: `k`, and the column of each slot's live recurrent state. -/
structure Engine where
  k : Nat
  specStateCol : Nat → Nat

def Engine.maxVerifyTokens (e : Engine) : Nat := e.k + 1

structure Request where
  slot : Nat
  anchor : Nat
  draft : Draft
  pastLen : Nat
  verifyLen : Nat
  deriving DecidableEq, Repr

structure Buffers where
  tokens : Nat → Nat
  positions : Nat → Nat
  writeIndex : Nat → Nat
  paddedToCompact : Nat → Nat
  compactToPadded : Nat → Nat
  sourceIndex : Nat → Nat
  destinationIndex : Nat → Nat → Nat
  cacheSeqlens : Nat → Nat
  verifyLens : List Nat
  cuSeqlensQ : List Nat

def Buffers.zeros (verifyLens : List Nat) : Buffers where
  tokens := fun _ => 0
  positions := fun _ => 0
  writeIndex := fun _ => 0
  paddedToCompact := fun _ => 0
  compactToPadded := fun _ => 0
  sourceIndex := fun _ => 0
  destinationIndex := fun _ _ => 0
  cacheSeqlens := fun _ => 0
  verifyLens := verifyLens
  cuSeqlensQ := []

abbrev FillM (σ ε : Type) := EStateM (FillError ε) σ

section Fill

variable (P : KvPool σ ε) (e : Engine)

def prepareKvWrites (slot start length : Nat) : FillM σ ε Unit :=
  zoom id (fun s _ => s) .pool (P.prepareKvWrites slot start length)

def writeIndex (slot kvLen : Nat) : FillM σ ε Nat := do
  let s ← get
  raiseIf (P.maxSeqLen ≤ kvLen) (.positionOutside kvLen P.maxSeqLen)
  pure (P.kvRow s slot kvLen)

def rowForSlot (slot col : Nat) : FillM σ ε Nat := do
  raiseIf (e.k < col) (.column col e.k)
  pure (specRow slot col (P.numSlots + 1) e.k)

/-- One column of one row: a compact entry, or a padded one that writes into the scratch slot. -/
def fillColumn (row compactOffset : Nat) (q : Request) (b : Buffers) (column : Nat) : FillM σ ε Buffers := do
  let paddedIndex := row * e.maxVerifyTokens + column
  if column < q.verifyLen then
    let compactIndex := compactOffset + column
    let written ← writeIndex P q.slot (q.pastLen + column)
    let destination ← rowForSlot P e q.slot column
    pure
      { b with
        tokens := update b.tokens compactIndex (if column = 0 then q.anchor else 0)
        positions := update b.positions compactIndex (q.pastLen + column)
        writeIndex := update b.writeIndex compactIndex written
        paddedToCompact := update b.paddedToCompact paddedIndex compactIndex
        compactToPadded := update b.compactToPadded compactIndex paddedIndex
        destinationIndex := update b.destinationIndex row
          (update (b.destinationIndex row) column destination) }
  else
    let written ← writeIndex P P.scratchRow column
    let destination ← rowForSlot P e P.scratchRow column
    pure
      { b with
        writeIndex := update b.writeIndex paddedIndex written
        destinationIndex := update b.destinationIndex row
          (update (b.destinationIndex row) column destination) }

/-- What the loop over the rows hands on: the buffers, `compact_offset` and `compact_starts`. -/
structure Progress where
  buffers : Buffers
  compactOffset : Nat
  compactStarts : List Nat

/-- The tokens of a draft behind its anchor. -/
def spliceDraft (start : Nat) (q : Request) (draft : List Nat) (b : Buffers) : Buffers :=
  { b with tokens := writeSlice b.tokens (start + 1) (draft.take (q.verifyLen - 1)) }

def fillRow (p : Progress) (entry : Request × Nat) : FillM σ ε Progress := do
  let (q, row) := entry
  prepareKvWrites P q.slot q.pastLen q.verifyLen
  let source ← rowForSlot P e q.slot (e.specStateCol q.slot)
  let b := { p.buffers with sourceIndex := update p.buffers.sourceIndex row source }
  let b ← (range e.maxVerifyTokens).foldlM (fillColumn P e row p.compactOffset q) b
  let draft ← ofExcept (draftRow e.k q.draft)
  let b := if q.draft.onDevice then b else spliceDraft p.compactOffset q draft b
  pure
    { buffers := { b with cacheSeqlens := update b.cacheSeqlens row (q.pastLen + q.verifyLen) }
      compactOffset := p.compactOffset + q.verifyLen
      compactStarts := p.compactStarts ++ [p.compactOffset] }

def fillTail (total : Nat) (b : Buffers) (tail : Nat) : FillM σ ε Buffers := do
  let written ← writeIndex P P.scratchRow (tail - total)
  pure { b with writeIndex := update b.writeIndex tail written }

/-- The copy of a device draft, when everything else is on the device. -/
def copyDraft (starts : List Nat) (b : Buffers) (entry : Request × Nat) : FillM σ ε Buffers :=
  if entry.1.draft.onDevice then do
    let draft ← ofExcept (draftRow e.k entry.1.draft)
    pure (spliceDraft (starts.getD entry.2 0) entry.1 draft b)
  else pure b

def zipRequests (slots anchors : List Nat) (drafts : List Draft) (pastLens verifyLens : List Nat) : List Request :=
  (((slots.zip anchors).zip drafts).zip (pastLens.zip verifyLens)).map fun entry =>
    ⟨entry.1.1.1, entry.1.1.2, entry.1.2, entry.2.1, entry.2.2⟩

def fill (slots anchors : List Nat) (drafts : List Draft) (pastLens verifyLens : List Nat) : FillM σ ε Buffers := do
  let batch := slots.length
  raiseIf (batch = 0 ∨ P.numSlots < batch) (.batchSize batch)
  raiseIf (¬(anchors.length = batch ∧ drafts.length = batch ∧ pastLens.length = batch ∧ verifyLens.length = batch))
    .unequalLengths
  raiseIf (∃ length ∈ verifyLens, ¬(1 ≤ length ∧ length ≤ e.maxVerifyTokens)) (.verifyLens verifyLens)
  let capacity := batch * e.maxVerifyTokens
  prepareKvWrites P P.scratchRow 0 capacity
  let entries := (zipRequests slots anchors drafts pastLens verifyLens).zipIdx
  let p ← entries.foldlM (fillRow P e) ⟨.zeros verifyLens, 0, []⟩
  let b ← (range' p.compactOffset (capacity - p.compactOffset)).foldlM (fillTail P p.compactOffset) p.buffers
  let b := { b with cuSeqlensQ := 0 :: (range batch).map fun row => (verifyLens.take (row + 1)).sum }
  entries.foldlM (copyDraft e p.compactStarts) b

end Fill

section Accept

/-- One request of `_accept_greedy_ragged_kernel`: the walk over `MAX_GAMMA` positions with masked loads. -/
def acceptedKernel (maxGamma start verifyLen : Nat) (candidates predicted : Nat → Nat) : Nat :=
  ((range maxGamma).foldl
    (fun (acc : Nat × Nat) position =>
      let gamma := verifyLen - 1
      let valid := decide (position < gamma)
      let prediction := if position ≤ gamma then predicted (start + position) else 0
      let candidate := if valid then candidates (start + position + 1) else 0
      let matches' := decide (prediction = candidate)
      (acc.1 + acc.2 * valid.toNat * matches'.toNat, acc.2 * if valid then matches'.toNat else 1))
    (0, 1)).1

/-- The output row of one request of the kernel. -/
def committedKernel (maxGamma start verifyLen : Nat) (candidates predicted : Nat → Nat) : List Nat :=
  let accepted := acceptedKernel maxGamma start verifyLen candidates predicted
  (range (maxGamma + 1)).map fun position =>
    let gamma := verifyLen - 1
    let prediction := if position ≤ gamma then predicted (start + position) else 0
    let candidate := if position < gamma then candidates (start + position + 1) else 0
    if position < accepted then candidate else if position = accepted then prediction else 0

/-- The `while` loop of the eager path. -/
def acceptedEager (start gamma : Nat) (candidates predicted : Nat → Nat) (accepted : Nat) : Nat :=
  if accepted < gamma ∧ predicted (start + accepted) = candidates (start + accepted + 1) then
    acceptedEager start gamma candidates predicted (accepted + 1)
  else accepted
termination_by gamma - accepted

def committedEager (maxGamma start verifyLen : Nat) (candidates predicted : Nat → Nat) : List Nat :=
  let accepted := acceptedEager start (verifyLen - 1) candidates predicted 0
  let row := (range accepted).foldl (fun row position => row.set position (candidates (start + position + 1)))
    (replicate (maxGamma + 1) 0)
  row.set accepted (predicted (start + accepted))

inductive AcceptError where
  | noRequest
  | verifyLens
  | indptrShape
  | indptrCapacity
  deriving DecidableEq, Repr

/-- `greedy_accept_ragged` over the argmax of the target; a capture checks no value. -/
def greedyAcceptRagged (kernel capturing : Bool) (capacity maxGamma : Nat) (candidates predicted : Nat → Nat)
    (verifyLens qIndptr : List Nat) : Except AcceptError (List (Nat × List Nat)) :=
  if verifyLens = [] then .error .noRequest
  else if capturing = false ∧ ∃ length ∈ verifyLens, length < 1 ∨ maxGamma + 1 < length then .error .verifyLens
  else if qIndptr.length ≠ verifyLens.length + 1 then .error .indptrShape
  else if capturing = false ∧ capacity < qIndptr.getLastD 0 then .error .indptrCapacity
  else .ok ((qIndptr.zip verifyLens).map fun (start, length) =>
    if kernel then
      (acceptedKernel maxGamma start length candidates predicted,
        committedKernel maxGamma start length candidates predicted)
    else
      (acceptedEager start (length - 1) candidates predicted 0,
        committedEager maxGamma start length candidates predicted))

end Accept

section Columns

variable {P : KvPool σ ε} {e : Engine} {s s' : σ} {q : Request} {b b' : Buffers} {row start : Nat}

def Draft.tokens : Draft → List Nat
  | .host tokens => tokens
  | .flat tokens => tokens
  | .matrix rows => rows.headD []

def Draft.Shaped (expected : Nat) : Draft → Prop
  | .host tokens => tokens.length = expected
  | .flat tokens => tokens.length = expected
  | .matrix rows => ∃ row, rows = [row] ∧ row.length = expected

theorem draftRow_of {draft : Draft} {k : Nat} (h : draft.Shaped k) :
    (draftRow k draft : Except (FillError ε) (List Nat)) = .ok draft.tokens := by
  cases draft with
  | host tokens => exact if_pos h
  | flat tokens => exact if_pos h
  | matrix rows =>
    obtain ⟨row, rfl, hrow⟩ := h
    exact if_pos hrow

theorem Draft.Shaped.length {draft : Draft} {k : Nat} (h : draft.Shaped k) : draft.tokens.length = k := by
  cases draft with
  | host tokens => exact h
  | flat tokens => exact h
  | matrix rows =>
    obtain ⟨row, rfl, hrow⟩ := h
    exact hrow

def IsPool : FillError ε → Prop := fun err => ∃ e, err = .pool e

theorem writeIndex_of {slot kvLen : Nat} (h : kvLen < P.maxSeqLen) :
    (writeIndex P slot kvLen : FillM σ ε Nat) s = .ok (P.kvRow s slot kvLen) s := by
  rw [writeIndex, bind_of_ok (get_apply s), bind_of_ok (raiseIf_of_not (not_le.mpr h) s)]
  rfl

theorem rowForSlot_of {slot col : Nat} (h : col ≤ e.k) :
    (rowForSlot P e slot col : FillM σ ε Nat) s = .ok (specRow slot col (P.numSlots + 1) e.k) s := by
  rw [rowForSlot, bind_of_ok (raiseIf_of_not (not_lt.mpr h) s)]
  rfl

/-- What the first `n` columns of a row have written. -/
structure Columns (P : KvPool σ ε) (e : Engine) (s : σ) (row start : Nat) (q : Request) (n : Nat) (b b' : Buffers) :
    Prop where
  tokens : Filled b.tokens b'.tokens start (min n q.verifyLen) fun c => if c = 0 then q.anchor else 0
  positions : Filled b.positions b'.positions start (min n q.verifyLen) fun c => q.pastLen + c
  writeIndex : Filled b.writeIndex b'.writeIndex start (min n q.verifyLen) fun c => P.kvRow s q.slot (q.pastLen + c)
  compactToPadded : Filled b.compactToPadded b'.compactToPadded start (min n q.verifyLen) fun c =>
    row * e.maxVerifyTokens + c
  paddedToCompact : Filled b.paddedToCompact b'.paddedToCompact (row * e.maxVerifyTokens) (min n q.verifyLen) fun c =>
    start + c
  destination : ∀ c < n, b'.destinationIndex row c =
    specRow (if c < q.verifyLen then q.slot else P.scratchRow) c (P.numSlots + 1) e.k
  others : ∀ r, r ≠ row → b'.destinationIndex r = b.destinationIndex r
  sourceIndex : b'.sourceIndex = b.sourceIndex
  cacheSeqlens : b'.cacheSeqlens = b.cacheSeqlens
  verifyLens : b'.verifyLens = b.verifyLens

theorem Columns.nil (b : Buffers) : Columns P e s row start q 0 b b := by
  constructor
  case destination => exact fun c hc => absurd hc (Nat.not_lt_zero c)
  case others => exact fun _ _ => rfl
  case sourceIndex => rfl
  case cacheSeqlens => rfl
  case verifyLens => rfl
  all_goals
    rw [Nat.zero_min]
    exact Filled.nil _ _ _

theorem destination_push {f : Nat → Nat → Nat} {n a : Nat} {v : Nat → Nat} (h : ∀ c < n, f row c = v c) (ha : a = v n) :
    ∀ c < n + 1, update f row (update (f row) n a) row c = v c := by
  intro c hc
  rw [update_self]
  by_cases hlast : c = n
  · rw [hlast, update_self, ha]
  · rw [update_of_ne hlast]
    exact h c (by omega)

/-- One more column. A padded entry lies behind everything compact so far, which starts no later than its grid row. -/
theorem fillColumn_returns {n : Nat} (h : Columns P e s row start q n b b') (hn : n ≤ e.k)
    (hstart : start ≤ row * e.maxVerifyTokens) (hreach : q.pastLen + q.verifyLen ≤ P.maxSeqLen)
    (hcapacity : e.maxVerifyTokens ≤ P.maxSeqLen) :
    Returns (fun b'' s' => s' = s ∧ Columns P e s row start q (n + 1) b b'') IsPool
      (fillColumn P e row start q b' n s) := by
  by_cases hlen : n < q.verifyLen
  · have hmin : min n q.verifyLen = n := min_eq_left (le_of_lt hlen)
    have hmin' : min (n + 1) q.verifyLen = n + 1 := min_eq_left hlen
    simp only [fillColumn, if_pos hlen]
    rw [bind_of_ok (writeIndex_of (by omega)), bind_of_ok (rowForSlot_of hn)]
    obtain ⟨htokens, hpositions, hwrite, hcompact, hpadded, hdestination, hothers, hsource, hcache, hverify⟩ := h
    rw [hmin] at htokens hpositions hwrite hcompact hpadded
    refine ⟨rfl, ?_⟩
    constructor
    · rw [hmin']
      exact htokens.push
    · rw [hmin']
      exact hpositions.push
    · rw [hmin']
      exact hwrite.push
    · rw [hmin']
      exact hcompact.push
    · rw [hmin']
      exact hpadded.push
    · exact destination_push hdestination (by rw [if_pos hlen])
    · intro r hr
      simp only [update_of_ne hr]
      exact hothers r hr
    · exact hsource
    · exact hcache
    · exact hverify
  · have hmin : min n q.verifyLen = q.verifyLen := min_eq_right (not_lt.mp hlen)
    have hmin' : min (n + 1) q.verifyLen = q.verifyLen := min_eq_right (Nat.le_succ_of_le (not_lt.mp hlen))
    simp only [fillColumn, if_neg hlen]
    rw [bind_of_ok (writeIndex_of (lt_of_lt_of_le (Nat.lt_succ_of_le hn) hcapacity)), bind_of_ok (rowForSlot_of hn)]
    obtain ⟨htokens, hpositions, hwrite, hcompact, hpadded, hdestination, hothers, hsource, hcache, hverify⟩ := h
    rw [hmin] at htokens hpositions hwrite hcompact hpadded
    refine ⟨rfl, ?_⟩
    constructor
    · rwa [hmin']
    · rwa [hmin']
    · rw [hmin']
      exact hwrite.above (by omega) _
    · rwa [hmin']
    · rwa [hmin']
    · exact destination_push hdestination (by rw [if_neg hlen])
    · intro r hr
      simp only [update_of_ne hr]
      exact hothers r hr
    · exact hsource
    · exact hcache
    · exact hverify

theorem fillColumns_returns (hstart : start ≤ row * e.maxVerifyTokens) (hreach : q.pastLen + q.verifyLen ≤ P.maxSeqLen)
    (hcapacity : e.maxVerifyTokens ≤ P.maxSeqLen) :
    Returns (fun b' s' => s' = s ∧ Columns P e s row start q e.maxVerifyTokens b b') IsPool
      ((range e.maxVerifyTokens).foldlM (fillColumn P e row start q) b s) := by
  apply (returns_foldlM (I := fun done b' s' => s' = s ∧ Columns P e s row start q done.length b b') ?_ ?_).mono
  · rintro b' s' ⟨rfl, hcolumns⟩
    rw [length_range] at hcolumns
    exact ⟨rfl, hcolumns⟩
  · rintro done n rest b' s' hsplit ⟨rfl, hcolumns⟩
    obtain ⟨rfl, hlt⟩ := range_split hsplit
    rw [length_append, length_singleton]
    exact fillColumn_returns hcolumns (Nat.le_of_lt_succ hlt) hstart hreach hcapacity
  · exact ⟨rfl, Columns.nil b⟩

end Columns

section Rows

variable {P : KvPool σ ε} {e : Engine} {s s' : σ} {q : Request} {b b' : Buffers} {row start stop capacity : Nat}
  {placed : Prop}

/-- A request that the graph takes: a length in its range, a draft of `k` tokens, a live column. -/
structure Request.Fits (e : Engine) (q : Request) : Prop where
  pos : 1 ≤ q.verifyLen
  le : q.verifyLen ≤ e.maxVerifyTokens
  shaped : q.draft.Shaped e.k
  column : e.specStateCol q.slot ≤ e.k

/-- The inputs of one request, from the compact index `start` and the grid row `row` on. Where the draft is not yet
placed, the anchor is. -/
structure RowAt (P : KvPool σ ε) (e : Engine) (s : σ) (placed : Prop) (row start : Nat) (q : Request) (b : Buffers) :
    Prop where
  tokens : ∀ c < q.verifyLen, c = 0 ∨ placed → b.tokens (start + c) = (q.anchor :: q.draft.tokens).getD c 0
  positions : ∀ c < q.verifyLen, b.positions (start + c) = q.pastLen + c
  writeIndex : ∀ c < q.verifyLen, b.writeIndex (start + c) = P.kvRow s q.slot (q.pastLen + c)
  compactToPadded : ∀ c < q.verifyLen, b.compactToPadded (start + c) = row * e.maxVerifyTokens + c
  paddedToCompact : ∀ c < q.verifyLen, b.paddedToCompact (row * e.maxVerifyTokens + c) = start + c
  sourceIndex : b.sourceIndex row = specRow q.slot (e.specStateCol q.slot) (P.numSlots + 1) e.k
  destination : ∀ c < e.maxVerifyTokens, b.destinationIndex row c =
    specRow (if c < q.verifyLen then q.slot else P.scratchRow) c (P.numSlots + 1) e.k
  cacheSeqlens : b.cacheSeqlens row = q.pastLen + q.verifyLen

/-- What lies in front of the compact index `stop` and the grid row `row` is as it was. -/
structure Earlier (e : Engine) (row stop : Nat) (b b' : Buffers) : Prop where
  tokens : ∀ i < stop, b'.tokens i = b.tokens i
  positions : ∀ i < stop, b'.positions i = b.positions i
  writeIndex : ∀ i < stop, b'.writeIndex i = b.writeIndex i
  compactToPadded : ∀ i < stop, b'.compactToPadded i = b.compactToPadded i
  paddedToCompact : ∀ i < row * e.maxVerifyTokens, b'.paddedToCompact i = b.paddedToCompact i
  sourceIndex : ∀ r < row, b'.sourceIndex r = b.sourceIndex r
  destination : ∀ r < row, b'.destinationIndex r = b.destinationIndex r
  cacheSeqlens : ∀ r < row, b'.cacheSeqlens r = b.cacheSeqlens r
  verifyLens : b'.verifyLens = b.verifyLens

def Steady (P : KvPool σ ε) (s s' : σ) : Prop := ∀ row page, P.Private s row page →
  P.Private s' row page ∧ (P.host s' row).getD page 0 = (P.host s row).getD page 0

theorem RowAt.keep {r : Nat} (h : RowAt P e s placed r start q b) (hearlier : Earlier e row stop b b') (hr : r < row)
    (hstop : start + q.verifyLen ≤ stop) (hlen : q.verifyLen ≤ e.maxVerifyTokens)
    (hrows : ∀ c < q.verifyLen, P.kvRow s' q.slot (q.pastLen + c) = P.kvRow s q.slot (q.pastLen + c)) :
    RowAt P e s' placed r start q b' := by
  have hgrid : ∀ c < q.verifyLen, r * e.maxVerifyTokens + c < row * e.maxVerifyTokens := by
    intro c hc
    have hnext := Nat.mul_le_mul_right e.maxVerifyTokens (Nat.succ_le_of_lt hr)
    rw [Nat.succ_mul] at hnext
    omega
  constructor
  · intro c hc hplaced
    rw [hearlier.tokens _ (by omega)]
    exact h.tokens c hc hplaced
  · intro c hc
    rw [hearlier.positions _ (by omega)]
    exact h.positions c hc
  · intro c hc
    rw [hearlier.writeIndex _ (by omega), hrows c hc]
    exact h.writeIndex c hc
  · intro c hc
    rw [hearlier.compactToPadded _ (by omega)]
    exact h.compactToPadded c hc
  · intro c hc
    rw [hearlier.paddedToCompact _ (hgrid c hc)]
    exact h.paddedToCompact c hc
  · rw [hearlier.sourceIndex r hr]
    exact h.sourceIndex
  · intro c hc
    rw [hearlier.destination r hr]
    exact h.destination c hc
  · rw [hearlier.cacheSeqlens r hr]
    exact h.cacheSeqlens

theorem prepareKvWrites_returns (hs : P.Sound s) (slot first length : Nat) :
    Returns (fun _ s' => P.Sound s' ∧ first + length ≤ P.maxSeqLen ∧ (0 < length → slot ≤ P.numSlots) ∧
      (∀ position, first ≤ position → position < first + length → P.Private s' slot (position / P.pageSize)) ∧
      Steady P s s') IsPool (prepareKvWrites P slot first length s) :=
  returns_zoom (P.prepare_ends slot first length hs) fun err => ⟨err, rfl⟩

theorem spliceDraft_tokens (draft : List Nat) (hdraft : draft.length = e.k) (hpos : 1 ≤ q.verifyLen)
    (hlen : q.verifyLen ≤ e.maxVerifyTokens) (hanchor : b.tokens start = q.anchor) :
    ∀ c < q.verifyLen, (spliceDraft start q draft b).tokens (start + c) = (q.anchor :: draft).getD c 0 := by
  intro c hc
  simp only [spliceDraft]
  cases c with
  | zero =>
    exact (writeSlice_of_lt (Nat.lt_succ_self start)).trans hanchor
  | succ c =>
    have hlt : c < draft.length := by
      rw [hdraft]
      exact lt_of_lt_of_le (Nat.lt_of_succ_lt_succ (lt_of_lt_of_le hc hlen)) (le_refl _)
    have hget : (draft.take (q.verifyLen - 1))[c]? = some draft[c] := by
      rw [getElem?_take_of_lt (by omega), getElem?_eq_getElem hlt]
    have hindex : start + (c + 1) = start + 1 + c := by omega
    rw [hindex, writeSlice_add hget, getD_cons_succ, getD_eq_getElem _ _ hlt]

theorem spliceDraft_of_lt {draft : List Nat} {i : Nat} (hi : i ≤ start) :
    (spliceDraft start q draft b).tokens i = b.tokens i := writeSlice_of_lt (Nat.lt_succ_of_le hi)

theorem spliceDraft_of_ge {draft : List Nat} {i : Nat} (hpos : 1 ≤ q.verifyLen) (hi : start + q.verifyLen ≤ i) :
    (spliceDraft start q draft b).tokens i = b.tokens i := by
  apply writeSlice_of_ge
  rw [length_take]
  omega

/-- What one pass of the loop over the rows does. -/
theorem fillRow_returns {p : Progress} (hs : P.Sound s) (hq : q.Fits e)
    (hstart : p.compactOffset ≤ row * e.maxVerifyTokens) (hcapacity : e.maxVerifyTokens ≤ P.maxSeqLen) :
    Returns (fun p' s' => P.Sound s' ∧ Steady P s s' ∧ q.slot ≤ P.numSlots ∧
      (∀ c < q.verifyLen, P.Private s' q.slot ((q.pastLen + c) / P.pageSize)) ∧
      p'.compactOffset = p.compactOffset + q.verifyLen ∧ p'.compactStarts = p.compactStarts ++ [p.compactOffset] ∧
      Earlier e row p.compactOffset p.buffers p'.buffers ∧
      RowAt P e s' (q.draft.onDevice = false) row p.compactOffset q p'.buffers) IsPool
      (fillRow P e p (q, row) s) := by
  simp only [fillRow]
  apply returns_bind (prepareKvWrites_returns hs q.slot q.pastLen q.verifyLen)
  rintro _ s₁ ⟨hsound, hreach, hslot, hprivate, hsteady⟩
  rw [bind_of_ok (rowForSlot_of hq.column)]
  apply returns_bind (fillColumns_returns hstart hreach hcapacity)
  rintro b s₂ ⟨rfl, hcolumns⟩
  have hmin : min e.maxVerifyTokens q.verifyLen = q.verifyLen := min_eq_right hq.le
  obtain ⟨htokens, hpositions, hwrite, hcompact, hpadded, hdestination, hothers, hsource, hcache, hverify⟩ := hcolumns
  rw [hmin] at htokens hpositions hwrite hcompact hpadded
  have hdraft := draftRow_of (ε := ε) hq.shaped
  have hanchor : b.tokens p.compactOffset = q.anchor := by
    have hfirst := htokens.value 0 hq.pos
    rwa [add_zero, if_pos rfl] at hfirst
  have hsourceAt : b.sourceIndex row = specRow q.slot (e.specStateCol q.slot) (P.numSlots + 1) e.k := by
    rw [hsource]
    exact update_self ..
  have hsourceBefore : ∀ r < row, b.sourceIndex r = p.buffers.sourceIndex r := by
    intro r hr
    rw [hsource]
    exact update_of_ne (ne_of_lt hr) ..
  rw [hdraft]
  -- The splice starts behind the anchor and changes only tokens.
  obtain ⟨tokens, hbuffers, hbefore, hplaced⟩ : ∃ tokens,
      (if q.draft.onDevice = true then b else spliceDraft p.compactOffset q q.draft.tokens b) =
        { b with tokens := tokens } ∧
      (∀ i ≤ p.compactOffset, tokens i = b.tokens i) ∧ (q.draft.onDevice = false →
        ∀ c < q.verifyLen, tokens (p.compactOffset + c) = (q.anchor :: q.draft.tokens).getD c 0) := by
    by_cases hdevice : q.draft.onDevice = true
    · refine ⟨b.tokens, if_pos hdevice, fun _ _ => rfl, fun hhost => ?_⟩
      rw [hhost] at hdevice
      cases hdevice
    · exact ⟨_, if_neg hdevice, fun i hi => spliceDraft_of_lt hi, fun _ =>
        spliceDraft_tokens q.draft.tokens hq.shaped.length hq.pos hq.le hanchor⟩
  change Returns _ _ (.ok _ _)
  dsimp only [Returns]
  rw [hbuffers]
  refine ⟨hsound, hsteady, hslot hq.pos, fun c hc => hprivate _ (Nat.le_add_right _ _) (by omega), rfl, rfl, ?_, ?_⟩
  · constructor
    · intro i hi
      exact (hbefore i (le_of_lt hi)).trans (htokens.before i hi)
    · exact hpositions.before
    · exact hwrite.before
    · exact hcompact.before
    · exact hpadded.before
    · exact hsourceBefore
    · exact fun r hr => hothers r (ne_of_lt hr)
    · intro r hr
      change update b.cacheSeqlens row _ r = _
      rw [update_of_ne (ne_of_lt hr), hcache]
    · exact hverify
  · constructor
    · intro c hc hwhere
      cases hwhere with
      | inl hzero =>
        rw [hzero]
        exact (hbefore _ (le_refl _)).trans hanchor
      | inr hhost => exact hplaced hhost c hc
    · exact hpositions.value
    · exact hwrite.value
    · exact hcompact.value
    · exact hpadded.value
    · exact hsourceAt
    · exact hdestination
    · exact update_self ..

end Rows

section Batch

variable {P : KvPool σ ε} {e : Engine} {s s' : σ} {b : Buffers} {qs : List Request} {capacity : Nat}

def startOf (qs : List Request) (i : Nat) : Nat := offset Request.verifyLen qs i

theorem startOf_succ {i : Nat} {q : Request} (hq : qs[i]? = some q) : startOf qs (i + 1) = startOf qs i + q.verifyLen :=
  offset_succ hq

theorem startOf_mono (qs : List Request) {i j : Nat} (h : i ≤ j) : startOf qs i ≤ startOf qs j := offset_mono h

theorem RowAt.mono {placed placed' : Prop} {row start : Nat} {q : Request} (h : RowAt P e s placed row start q b)
    (himp : placed' → placed) : RowAt P e s placed' row start q b :=
  { h with tokens := fun c hc hplaced => h.tokens c hc (hplaced.imp_right himp) }

/-- What the loop over the rows has reached behind `n` of them. -/
structure Reached (P : KvPool σ ε) (e : Engine) (qs : List Request) (capacity n : Nat) (p : Progress) (s : σ) :
    Prop where
  sound : P.Sound s
  fits : capacity ≤ P.maxSeqLen
  compactOffset : p.compactOffset = startOf qs n
  compactStarts : p.compactStarts = (range n).map (startOf qs)
  verifyLens : p.buffers.verifyLens = qs.map Request.verifyLen
  scratch : ∀ position < capacity, P.Private s P.scratchRow (position / P.pageSize)
  live : ∀ i < n, ∀ q, qs[i]? = some q → ∀ c < q.verifyLen, P.Private s q.slot ((q.pastLen + c) / P.pageSize)
  rows : ∀ i < n, ∀ q, qs[i]? = some q → RowAt P e s (q.draft.onDevice = false) i (startOf qs i) q p.buffers

theorem zipIdx_split {α : Type} {l : List α} {done rest : List (α × Nat)} {a : α} {i : Nat}
    (h : l.zipIdx = done ++ (a, i) :: rest) : i = done.length ∧ l[i]? = some a := by
  have hget : l.zipIdx[done.length]? = some (a, i) := by
    rw [h, getElem?_append_right (Nat.le_refl _), Nat.sub_self]
    rfl
  rw [getElem?_zipIdx] at hget
  cases hl : l[done.length]? with
  | none =>
    rw [hl] at hget
    cases hget
  | some x =>
    rw [hl] at hget
    simp only [Option.map_some, Option.some.injEq, Prod.mk.injEq, zero_add] at hget
    obtain ⟨rfl, rfl⟩ := hget
    exact ⟨rfl, hl⟩

theorem fillRows_returns (hs : P.Sound s) (hfits : capacity ≤ P.maxSeqLen) (hwidth : e.maxVerifyTokens ≤ capacity)
    (hscratch : ∀ position < capacity, P.Private s P.scratchRow (position / P.pageSize))
    (hverify : b.verifyLens = qs.map Request.verifyLen) (hqs : ∀ q ∈ qs, q.Fits e) :
    Returns (fun p s' => Reached P e qs capacity qs.length p s') IsPool
      (qs.zipIdx.foldlM (fillRow P e) ⟨b, 0, []⟩ s) := by
  apply (returns_foldlM (I := fun done p s' => Reached P e qs capacity done.length p s') ?_ ?_).mono
  · intro p s' h
    rwa [length_zipIdx] at h
  · rintro done ⟨q, row⟩ rest p s₁ hsplit h
    obtain ⟨rfl, hq⟩ := zipIdx_split hsplit
    have hq' := hqs q (mem_of_getElem? hq)
    have hstart : p.compactOffset ≤ done.length * e.maxVerifyTokens := by
      rw [h.compactOffset]
      exact offset_le (fun q hq => (hqs q hq).le) _
    apply (fillRow_returns h.sound hq' hstart (le_trans hwidth hfits)).mono
    rintro p' s₂ ⟨hsound, hsteady, -, hlive, hoffset, hstarts, hearlier, hrow⟩
    rw [h.compactOffset] at hoffset hstarts hearlier hrow
    rw [length_append, length_singleton]
    have hbefore : ∀ i < done.length + 1, i ≠ done.length → i < done.length := by omega
    constructor
    · exact hsound
    · exact hfits
    · rw [hoffset, startOf_succ hq]
    · rw [hstarts, h.compactStarts, range_succ, map_append]
      rfl
    · exact hearlier.verifyLens.trans h.verifyLens
    · exact fun position hposition => (hsteady _ _ (h.scratch position hposition)).1
    · intro i hi q' hq'' c hc
      by_cases hlast : i = done.length
      · subst hlast
        rw [hq] at hq''
        cases hq''
        exact hlive c hc
      · exact (hsteady _ _ (h.live i (hbefore i hi hlast) q' hq'' c hc)).1
    · intro i hi q' hq''
      by_cases hlast : i = done.length
      · subst hlast
        rw [hq] at hq''
        cases hq''
        exact hrow
      · have hlt := hbefore i hi hlast
        apply (h.rows i hlt q' hq'').keep hearlier hlt
        · rw [← startOf_succ hq'']
          exact startOf_mono qs (Nat.succ_le_of_lt hlt)
        · exact (hqs q' (mem_of_getElem? hq'')).le
        · exact fun c hc => P.kvRow_congr (hsteady _ _ (h.live i hlt q' hq'' c hc)).2
  · exact ⟨hs, hfits, (offset_zero _ _).symm, rfl, hverify, hscratch, fun i hi => absurd hi (Nat.not_lt_zero i),
      fun i hi => absurd hi (Nat.not_lt_zero i)⟩

/-- The tail is filled behind the compact rows and leaves them alone. -/
theorem fillTail_returns {total : Nat} (hfits : capacity ≤ P.maxSeqLen) :
    Returns (fun b' s' => s' = s ∧ b' = { b with writeIndex := b'.writeIndex } ∧
        Filled b.writeIndex b'.writeIndex total (capacity - total) fun c => P.kvRow s P.scratchRow c) IsPool
      ((range' total (capacity - total)).foldlM (fillTail P total) b s) := by
  apply (returns_foldlM (I := fun done b' s' => s' = s ∧ b' = { b with writeIndex := b'.writeIndex } ∧
    Filled b.writeIndex b'.writeIndex total done.length fun c => P.kvRow s P.scratchRow c) ?_ ?_).mono
  · intro b' s' h
    rwa [length_range'] at h
  · rintro done tail rest b' s₁ hsplit ⟨rfl, hframe, hfilled⟩
    obtain ⟨rfl, hlt⟩ := range'_split hsplit
    rw [fillTail, Nat.add_sub_cancel_left, bind_of_ok (writeIndex_of (by omega)), length_append,
      length_singleton]
    refine ⟨rfl, ?_, hfilled.push⟩
    rw [hframe]
  · exact ⟨rfl, rfl, Filled.nil _ _ _⟩

/-- The device drafts go into their own windows. -/
theorem copyDrafts_returns {starts : List Nat} (hqs : ∀ q ∈ qs, q.Fits e)
    (hstarts : starts = (range qs.length).map (startOf qs))
    (hrows : ∀ i q, qs[i]? = some q → RowAt P e s (q.draft.onDevice = false) i (startOf qs i) q b) :
    Returns (fun b' s' => s' = s ∧ b' = { b with tokens := b'.tokens } ∧
        ∀ i q, qs[i]? = some q → RowAt P e s True i (startOf qs i) q b') IsPool
      ((qs.zipIdx.foldlM (copyDraft e starts) b : FillM σ ε Buffers) s) := by
  apply (returns_foldlM (I := fun done b' s' => s' = s ∧ b' = { b with tokens := b'.tokens } ∧
    ∀ i q, qs[i]? = some q → RowAt P e s (q.draft.onDevice = false ∨ i < done.length) i (startOf qs i) q b') ?_ ?_).mono
  · rintro b' s' ⟨rfl, hframe, hall⟩
    refine ⟨rfl, hframe, fun i q hq => (hall i q hq).mono fun _ => .inr ?_⟩
    rw [length_zipIdx]
    exact (List.getElem?_eq_some_iff.mp hq).1
  · rintro done ⟨q, row⟩ rest b' s₁ hsplit ⟨rfl, hframe, hall⟩
    obtain ⟨rfl, hq⟩ := zipIdx_split hsplit
    obtain ⟨hlt, -⟩ := List.getElem?_eq_some_iff.mp hq
    have hq' := hqs q (mem_of_getElem? hq)
    rw [length_append, length_singleton]
    simp only [copyDraft]
    by_cases hdevice : q.draft.onDevice = true
    · rw [if_pos hdevice, draftRow_of hq'.shaped]
      have hstart : starts.getD done.length 0 = startOf qs done.length := by
        rw [hstarts, getD_eq_getElem?_getD, getElem?_map, getElem?_range hlt]
        rfl
      change Returns _ _ (.ok _ _)
      dsimp only [Returns]
      rw [hstart]
      refine ⟨rfl, by rw [hframe]; rfl, fun i r hr => ?_⟩
      have hold := hall i r hr
      -- Only the tokens of the row's own window move.
      refine { hold with tokens := fun c hc hplaced => ?_ }
      by_cases hsame : i = done.length
      · subst hsame
        rw [hq] at hr
        cases hr
        have hanchor := hold.tokens 0 hq'.pos (.inl rfl)
        exact spliceDraft_tokens q.draft.tokens hq'.shaped.length hq'.pos hq'.le hanchor c hc
      · have hwhere : c = 0 ∨ r.draft.onDevice = false ∨ i < done.length := by
          rcases hplaced with hzero | hhost | hbefore
          · exact .inl hzero
          · exact .inr (.inl hhost)
          · exact .inr (.inr (by omega))
        rw [← hold.tokens c hc hwhere]
        rcases Nat.lt_or_gt_of_ne hsame with hbefore | hafter
        · have hle := startOf_mono qs (Nat.succ_le_of_lt hbefore)
          rw [startOf_succ hr] at hle
          exact spliceDraft_of_lt (by omega)
        · have hle := startOf_mono qs (Nat.succ_le_of_lt hafter)
          rw [startOf_succ hq] at hle
          exact spliceDraft_of_ge hq'.pos (by omega)
    · rw [if_neg hdevice]
      refine ⟨rfl, hframe, fun i r hr => (hall i r hr).mono ?_⟩
      rintro (hhost | hbefore)
      · exact .inl hhost
      · by_cases hsame : i = done.length
        · subst hsame
          rw [hq] at hr
          cases hr
          exact .inl (Bool.eq_false_iff.mpr hdevice)
        · exact .inr (by omega)
  · exact ⟨rfl, rfl, fun i q hq => (hrows i q hq).mono fun h => h.resolve_right (Nat.not_lt_zero i)⟩

end Batch

section Acceptance

variable {gamma m maxGamma start verifyLen : Nat} {candidates predicted prediction candidate : Nat → Nat}

/-- `m` is the number of leading positions below `gamma` whose prediction is the candidate. -/
structure Leading (gamma m : Nat) (prediction candidate : Nat → Nat) : Prop where
  le : m ≤ gamma
  same : ∀ c < m, prediction c = candidate c
  stop : m < gamma → prediction m ≠ candidate m

theorem matched_leading (drafts predictions : List Nat) (hlen : predictions.length = drafts.length + 1) :
    Leading drafts.length (MtpAccept.matched drafts predictions) (predictions.getD · 0) (drafts.getD · 0) := by
  induction drafts generalizing predictions with
  | nil => exact ⟨Nat.le_refl 0, fun c hc => absurd hc (Nat.not_lt_zero c), fun h => absurd h (Nat.not_lt_zero 0)⟩
  | cons draft drafts ih =>
    cases predictions with
    | nil => cases hlen
    | cons first rest =>
      simp only [MtpAccept.matched]
      by_cases hsame : first = draft
      · rw [if_pos hsame]
        obtain ⟨hle, hall, hstop⟩ := ih rest (Nat.succ.inj hlen)
        refine ⟨Nat.succ_le_succ hle, fun c hc => ?_, fun hlt => ?_⟩
        · cases c with
          | zero => exact hsame
          | succ c => exact hall c (Nat.lt_of_succ_lt_succ hc)
        · exact hstop (Nat.lt_of_succ_lt_succ hlt)
      · rw [if_neg hsame]
        exact ⟨Nat.zero_le _, fun c hc => absurd hc (Nat.not_lt_zero c), fun _ => hsame⟩

theorem Leading.congr {prediction' candidate' : Nat → Nat} (h : Leading gamma m prediction candidate)
    (hprediction : ∀ c < gamma, prediction' c = prediction c) (hcandidate : ∀ c < gamma, candidate' c = candidate c) :
    Leading gamma m prediction' candidate' := by
  refine ⟨h.le, fun c hc => ?_, fun hlt => ?_⟩
  · have hlt := lt_of_lt_of_le hc h.le
    rw [hprediction c hlt, hcandidate c hlt]
    exact h.same c hc
  · rw [hprediction m hlt, hcandidate m hlt]
    exact h.stop hlt

/-- The walk of the kernel: once a position fails, nothing counts, and invalid positions change nothing. -/
theorem acceptedKernel_eq (h : Leading (verifyLen - 1) m (fun c => predicted (start + c))
    (fun c => candidates (start + c + 1))) (hle : verifyLen - 1 ≤ maxGamma) :
    acceptedKernel maxGamma start verifyLen candidates predicted = m := by
  have hmle := h.le
  have hwalk : ∀ n, (range n).foldl
      (fun (acc : Nat × Nat) position =>
        let gamma := verifyLen - 1
        let valid := decide (position < gamma)
        let prediction := if position ≤ gamma then predicted (start + position) else 0
        let candidate := if valid then candidates (start + position + 1) else 0
        let matches' := decide (prediction = candidate)
        (acc.1 + acc.2 * valid.toNat * matches'.toNat, acc.2 * if valid then matches'.toNat else 1)) (0, 1) =
      (min n m, if min n (verifyLen - 1) ≤ m then 1 else 0) := by
    intro n
    induction n with
    | zero => simp
    | succ n ih =>
      rw [range_succ, foldl_append, ih]
      simp only [foldl_cons, foldl_nil]
      by_cases hvalid : n < verifyLen - 1
      · rw [if_pos (Nat.le_of_lt hvalid), Nat.min_eq_left (Nat.le_of_lt hvalid), Nat.min_eq_left hvalid]
        simp only [hvalid, decide_true, Bool.toNat_true, Nat.mul_one, if_true]
        rcases Nat.lt_trichotomy n m with hlt | heq | hgt
        · have hsame := h.same n hlt
          simp only [hsame, decide_true, Bool.toNat_true, le_of_lt hlt, Nat.succ_le_of_lt hlt, if_true]
          rw [Nat.min_eq_left (Nat.le_of_lt hlt), Nat.min_eq_left hlt]
        · subst heq
          have hdiff := h.stop hvalid
          simp only [hdiff, decide_false, Bool.toNat_false, Nat.le_refl, if_true, Nat.not_succ_le_self, if_false,
            Nat.mul_zero, Nat.add_zero]
          rw [Nat.min_eq_right (Nat.le_succ n), Nat.min_self]
        · have hnot : ¬n ≤ m := Nat.not_le.mpr hgt
          have hnot' : ¬n + 1 ≤ m := fun hle => hnot (Nat.le_of_succ_le hle)
          simp only [hnot, hnot', if_false, Nat.zero_mul, Nat.add_zero]
          rw [Nat.min_eq_right (Nat.le_of_lt hgt), Nat.min_eq_right (Nat.le_succ_of_le (Nat.le_of_lt hgt))]
      · have hge := Nat.not_lt.mp hvalid
        rw [Nat.min_eq_right hge, Nat.min_eq_right (Nat.le_succ_of_le hge)]
        simp only [hvalid, decide_false, Bool.toNat_false, Nat.mul_zero, Nat.zero_mul, Nat.add_zero, Bool.false_eq_true,
          if_false, Nat.mul_one]
        rw [min_eq_right (le_trans hmle hge), min_eq_right (Nat.le_succ_of_le (le_trans hmle hge))]
  rw [acceptedKernel, hwalk]
  exact min_eq_right (le_trans hmle hle)

theorem acceptedEager_eq (h : Leading gamma m (fun c => predicted (start + c)) (fun c => candidates (start + c + 1)))
    {accepted : Nat} (ha : accepted ≤ m) : acceptedEager start gamma candidates predicted accepted = m := by
  induction hd : m - accepted generalizing accepted with
  | zero =>
    obtain rfl : accepted = m := by omega
    rw [acceptedEager, if_neg]
    rintro ⟨hlt, hsame⟩
    exact h.stop hlt hsame
  | succ d ih =>
    have hlt : accepted < m := by omega
    rw [acceptedEager, if_pos ⟨lt_of_lt_of_le hlt h.le, h.same accepted hlt⟩]
    exact ih hlt (by omega)

/-- The committed tokens of a decision, in a row of fixed width. -/
def acceptRow (maxGamma : Nat) (drafts predictions : List Nat) : Nat × List Nat :=
  let decision := MtpAccept.acceptFrom 0 drafts predictions
  (decision.numAccepted, decision.committed ++ replicate (maxGamma + 1 - decision.committed.length) 0)

def committedRow (maxGamma m : Nat) (prediction candidate : Nat → Nat) : List Nat :=
  (range (maxGamma + 1)).map fun c => if c < m then candidate c else if c = m then prediction m else 0

theorem committedKernel_eq (h : Leading (verifyLen - 1) m (fun c => predicted (start + c))
    (fun c => candidates (start + c + 1))) (hle : verifyLen - 1 ≤ maxGamma) :
    committedKernel maxGamma start verifyLen candidates predicted =
      committedRow maxGamma m (fun c => predicted (start + c)) (fun c => candidates (start + c + 1)) := by
  rw [committedKernel, acceptedKernel_eq h hle, committedRow]
  apply map_congr_left
  intro c _
  have hmle := h.le
  by_cases hlt : c < m
  · simp only [if_pos hlt, if_pos (lt_of_lt_of_le hlt hmle)]
  · simp only [if_neg hlt]
    by_cases heq : c = m
    · simp only [heq, if_pos hmle]
    · simp only [if_neg heq]

theorem foldl_set_getElem? (width : Nat) (value : Nat → Nat) (n c : Nat) :
    ((range n).foldl (fun row position => row.set position (value position)) (replicate width 0))[c]? =
      if c < width then some (if c < n then value c else 0) else none := by
  induction n with
  | zero => simp [getElem?_replicate]
  | succ n ih =>
    have hlength : ∀ l : List Nat, ∀ row : List Nat,
        (l.foldl (fun row position => row.set position (value position)) row).length = row.length := by
      intro l
      induction l with
      | nil => exact fun _ => rfl
      | cons p l ihl =>
        intro row
        rw [foldl_cons, ihl, length_set]
    rw [range_succ, foldl_append, foldl_cons, foldl_nil, getElem?_set, hlength,
      length_replicate, ih]
    by_cases hn : n = c
    · subst hn
      simp
    · rw [if_neg hn]
      have hiff : c < n + 1 ↔ c < n := by omega
      simp only [hiff]

theorem committedEager_eq (h : Leading (verifyLen - 1) m (fun c => predicted (start + c))
    (fun c => candidates (start + c + 1))) (hle : verifyLen - 1 ≤ maxGamma) :
    committedEager maxGamma start verifyLen candidates predicted =
      committedRow maxGamma m (fun c => predicted (start + c)) (fun c => candidates (start + c + 1)) := by
  have hmle := h.le
  have hrow : ∀ c, ((range m).foldl (fun row position => row.set position (candidates (start + position + 1)))
      (replicate (maxGamma + 1) 0))[c]? =
      if c < maxGamma + 1 then some (if c < m then candidates (start + c + 1) else 0) else none :=
    foldl_set_getElem? (maxGamma + 1) (fun position => candidates (start + position + 1)) m
  rw [committedEager, acceptedEager_eq h (Nat.zero_le m), committedRow]
  apply ext_getElem?
  intro c
  rw [getElem?_set, getElem?_map]
  by_cases hwidth : c < maxGamma + 1
  · rw [getElem?_range hwidth, Option.map_some]
    by_cases heq : m = c
    · subst heq
      have hlength : m < ((range m).foldl (fun row position => row.set position (candidates (start + position + 1)))
          (replicate (maxGamma + 1) 0)).length := by
        apply Nat.lt_of_not_le
        intro hout
        have hnone := getElem?_eq_none hout
        rw [hrow, if_pos hwidth] at hnone
        cases hnone
      rw [if_pos rfl, if_pos hlength, if_neg (Nat.lt_irrefl m), if_pos rfl]
    · rw [if_neg heq, hrow, if_pos hwidth, if_neg (Ne.symm heq)]
  · have hne : m ≠ c := by omega
    rw [if_neg hne, hrow, if_neg hwidth, getElem?_eq_none (by simpa using hwidth)]
    rfl

/-- What a slot accepts alone, from its own drafts and predictions. -/
theorem acceptRow_eq {drafts predictions : List Nat} (hlen : predictions.length = drafts.length + 1)
    (hle : drafts.length ≤ maxGamma) :
    acceptRow maxGamma drafts predictions = (MtpAccept.matched drafts predictions,
      committedRow maxGamma (MtpAccept.matched drafts predictions) (predictions.getD · 0) (drafts.getD · 0)) := by
  obtain ⟨hmle, hsame, -⟩ := matched_leading drafts predictions hlen
  rw [acceptRow, MtpAccept.acceptFrom_eq 0 drafts predictions hlen]
  simp only [zero_add, Prod.mk.injEq, true_and]
  have htake : (predictions.take (MtpAccept.matched drafts predictions + 1)).length =
      MtpAccept.matched drafts predictions + 1 := by
    rw [length_take]
    omega
  apply ext_getElem?
  intro c
  rw [committedRow, getElem?_map]
  rcases Nat.lt_trichotomy c (MtpAccept.matched drafts predictions) with hlt | heq | hgt
  · have hp : c < predictions.length := by omega
    have hvalue := hsame c hlt
    rw [getD_eq_getElem _ _ hp] at hvalue
    rw [getElem?_append_left (by omega), getElem?_take_of_lt (by omega), getElem?_range (by omega),
      Option.map_some, if_pos hlt, getElem?_eq_getElem hp, hvalue]
  · have hp : c < predictions.length := by omega
    rw [getElem?_append_left (by omega), getElem?_take_of_lt (by omega), getElem?_range (by omega),
      Option.map_some, if_neg (by omega), if_pos heq, ← heq, getElem?_eq_getElem hp, getD_eq_getElem _ _ hp]
  · rw [getElem?_append_right (by omega), htake, getElem?_replicate]
    by_cases hwidth : c < maxGamma + 1
    · rw [getElem?_range hwidth, Option.map_some, if_pos (by omega), if_neg (by omega), if_neg (by omega)]
    · rw [if_neg (by omega), getElem?_eq_none (by simpa using hwidth)]
      rfl

end Acceptance

section PerSlot

variable {P : KvPool σ ε} {e : Engine} {s : σ} {b : Buffers} {qs : List Request}

/-- The inputs of a batch give every slot its own rows, and the rest of the capacity rows of the scratch slot. -/
structure Ragged (P : KvPool σ ε) (e : Engine) (qs : List Request) (s : σ) (b : Buffers) : Prop where
  rows : ∀ i q, qs[i]? = some q → RowAt P e s True i (startOf qs i) q b
  tail : ∀ i, startOf qs qs.length ≤ i → i < qs.length * e.maxVerifyTokens →
    b.writeIndex i = P.kvRow s P.scratchRow (i - startOf qs qs.length)
  tailDistinct : ∀ i j, startOf qs qs.length ≤ i → i < qs.length * e.maxVerifyTokens → startOf qs qs.length ≤ j →
    j < qs.length * e.maxVerifyTokens → b.writeIndex i = b.writeIndex j → i = j
  tailApart : ∀ i q c j, qs[i]? = some q → c < q.verifyLen → q.slot ≠ P.scratchRow → startOf qs qs.length ≤ j →
    j < qs.length * e.maxVerifyTokens → b.writeIndex (startOf qs i + c) ≠ b.writeIndex j
  cuSeqlens : b.cuSeqlensQ = (range (qs.length + 1)).map (startOf qs)
  verifyLens : b.verifyLens = qs.map Request.verifyLen
  accepted : ∀ kernel capturing predicted,
    greedyAcceptRagged kernel capturing (qs.length * e.maxVerifyTokens) e.k b.tokens predicted b.verifyLens b.cuSeqlensQ =
      .ok (qs.mapIdx fun i q => acceptRow e.k (q.draft.tokens.take (q.verifyLen - 1))
        ((range q.verifyLen).map fun c => predicted (startOf qs i + c)))

theorem zipRequests_map (qs : List Request) :
    zipRequests (qs.map Request.slot) (qs.map Request.anchor) (qs.map Request.draft) (qs.map Request.pastLen)
      (qs.map Request.verifyLen) = qs := by
  induction qs with
  | nil => rfl
  | cons q qs ih =>
    simp only [zipRequests, map_cons, zip_cons_cons, List.cons.injEq, true_and] at ih ⊢
    exact ih

theorem startOf_length_le (hqs : ∀ q ∈ qs, q.Fits e) : startOf qs qs.length ≤ qs.length * e.maxVerifyTokens :=
  offset_le (fun q hq => (hqs q hq).le) _

/-- One slot of the batch accepts what it accepts alone. -/
theorem RowAt.accepts {row start : Nat} {q : Request} (h : RowAt P e s True row start q b) (hq : q.Fits e)
    (predicted : Nat → Nat) :
    ∃ m, Leading (q.verifyLen - 1) m (fun c => predicted (start + c)) (fun c => b.tokens (start + c + 1)) ∧
      acceptRow e.k (q.draft.tokens.take (q.verifyLen - 1)) ((range q.verifyLen).map fun c => predicted (start + c)) =
        (m, committedRow e.k m (fun c => predicted (start + c)) (fun c => b.tokens (start + c + 1))) := by
  have hpos := hq.pos
  have hk : q.verifyLen - 1 ≤ e.k := Nat.sub_le_of_le_add hq.le
  have hdrafts : (q.draft.tokens.take (q.verifyLen - 1)).length = q.verifyLen - 1 := by
    rw [length_take, hq.shaped.length]
    exact min_eq_left hk
  have hpredictions : ((range q.verifyLen).map fun c => predicted (start + c)).length =
      (q.draft.tokens.take (q.verifyLen - 1)).length + 1 := by
    rw [hdrafts, length_map, length_range]
    omega
  have hprediction : ∀ c < q.verifyLen,
      predicted (start + c) = ((range q.verifyLen).map fun c => predicted (start + c)).getD c 0 := by
    intro c hc
    rw [getD_eq_getElem?_getD, getElem?_map, getElem?_range hc]
    rfl
  have hcandidate : ∀ c < q.verifyLen - 1,
      b.tokens (start + c + 1) = (q.draft.tokens.take (q.verifyLen - 1)).getD c 0 := by
    intro c hc
    rw [add_assoc, h.tokens (c + 1) (by omega) (.inr trivial), getD_cons_succ, getD_eq_getElem?_getD,
      getD_eq_getElem?_getD, getElem?_take_of_lt hc]
  have hmatched := matched_leading _ _ hpredictions
  rw [hdrafts] at hmatched
  have hmle := hmatched.le
  refine ⟨_, hmatched.congr (fun c hc => hprediction c (by omega)) hcandidate, ?_⟩
  rw [acceptRow_eq hpredictions (by rwa [hdrafts]), Prod.mk.injEq]
  refine ⟨rfl, ?_⟩
  rw [committedRow, committedRow]
  apply map_congr_left
  intro c _
  by_cases hlt : c < MtpAccept.matched (q.draft.tokens.take (q.verifyLen - 1))
      ((range q.verifyLen).map fun c => predicted (start + c))
  · rw [if_pos hlt, if_pos hlt, hcandidate c (by omega)]
  · rw [if_neg hlt, if_neg hlt]
    by_cases heq : c = MtpAccept.matched (q.draft.tokens.take (q.verifyLen - 1))
        ((range q.verifyLen).map fun c => predicted (start + c))
    · rw [if_pos heq, if_pos heq, hprediction _ (by omega)]
    · rw [if_neg heq, if_neg heq]

theorem greedyAcceptRagged_eq (hne : qs ≠ []) (hqs : ∀ q ∈ qs, q.Fits e)
    (hrows : ∀ i q, qs[i]? = some q → RowAt P e s True i (startOf qs i) q b) (kernel capturing : Bool)
    (predicted : Nat → Nat) :
    greedyAcceptRagged kernel capturing (qs.length * e.maxVerifyTokens) e.k b.tokens predicted
        (qs.map Request.verifyLen) ((range (qs.length + 1)).map (startOf qs)) =
      .ok (qs.mapIdx fun i q => acceptRow e.k (q.draft.tokens.take (q.verifyLen - 1))
        ((range q.verifyLen).map fun c => predicted (startOf qs i + c))) := by
  have hlens : ¬∃ length ∈ qs.map Request.verifyLen, length < 1 ∨ e.k + 1 < length := by
    rintro ⟨length, hmem, hout⟩
    obtain ⟨q, hq, rfl⟩ := mem_map.mp hmem
    have hpos := (hqs q hq).pos
    have hle := (hqs q hq).le
    rw [Engine.maxVerifyTokens] at hle
    omega
  have hlast : ((range (qs.length + 1)).map (startOf qs)).getLastD 0 = startOf qs qs.length := by
    rw [range_succ, map_append, map_singleton, getLastD_concat]
  rw [greedyAcceptRagged, if_neg (by simpa using hne), if_neg (fun h => hlens h.2), if_neg (by simp), hlast,
    if_neg (fun h => not_lt.mpr (startOf_length_le hqs) h.2), Except.ok.injEq]
  apply ext_getElem?
  intro i
  rw [getElem?_map, getElem?_mapIdx]
  cases hq : qs[i]? with
  | none =>
    have hlen := List.getElem?_eq_none_iff.mp hq
    rw [getElem?_eq_none]
    · rfl
    · rw [length_zip, length_map, length_map]
      omega
  | some q =>
    have hlt := (List.getElem?_eq_some_iff.mp hq).1
    have hzip : (((range (qs.length + 1)).map (startOf qs)).zip (qs.map Request.verifyLen))[i]? =
        some (startOf qs i, q.verifyLen) := by
      rw [getElem?_zip_eq_some, getElem?_map, getElem?_map, hq, getElem?_range (by omega)]
      exact ⟨rfl, rfl⟩
    have hfits := hqs q (mem_of_getElem? hq)
    have hk : q.verifyLen - 1 ≤ e.k := Nat.sub_le_of_le_add hfits.le
    obtain ⟨m, hleading, haccept⟩ := (hrows i q hq).accepts hfits predicted
    rw [hzip, Option.map_some, Option.map_some, haccept]
    cases kernel with
    | true =>
      dsimp only
      rw [if_pos rfl, acceptedKernel_eq hleading hk, committedKernel_eq hleading hk]
    | false =>
      dsimp only
      rw [if_neg Bool.false_ne_true, acceptedEager_eq hleading (Nat.zero_le m), committedEager_eq hleading hk]

/-- The ragged graph verifies every slot as if it were alone: unless the pool refuses a page, the inputs are those
of each slot in its own rows. -/
theorem fill_per_slot (hs : P.Sound s) (hne : qs ≠ []) (hbatch : qs.length ≤ P.numSlots) (hqs : ∀ q ∈ qs, q.Fits e) :
    Returns (fun b s' => P.Sound s' ∧ Ragged P e qs s' b) IsPool
      (fill P e (qs.map Request.slot) (qs.map Request.anchor) (qs.map Request.draft) (qs.map Request.pastLen)
        (qs.map Request.verifyLen) s) := by
  have hpos : 0 < qs.length := length_pos_iff.mpr hne
  have hlens : ¬∃ length ∈ qs.map Request.verifyLen, ¬(1 ≤ length ∧ length ≤ e.maxVerifyTokens) := by
    rintro ⟨length, hmem, hout⟩
    obtain ⟨q, hq, rfl⟩ := mem_map.mp hmem
    exact hout ⟨(hqs q hq).pos, (hqs q hq).le⟩
  have hwidth : e.maxVerifyTokens ≤ qs.length * e.maxVerifyTokens := Nat.le_mul_of_pos_left _ hpos
  have hsize : ¬((qs.map Request.slot).length = 0 ∨ P.numSlots < (qs.map Request.slot).length) := by
    rw [length_map]
    omega
  have hequal : ¬¬((qs.map Request.anchor).length = (qs.map Request.slot).length ∧
      (qs.map Request.draft).length = (qs.map Request.slot).length ∧
      (qs.map Request.pastLen).length = (qs.map Request.slot).length ∧
      (qs.map Request.verifyLen).length = (qs.map Request.slot).length) := by
    simp only [length_map, and_self, not_true_eq_false, not_false_eq_true]
  have hcumulative : 0 :: (range qs.length).map (fun row => ((qs.map Request.verifyLen).take (row + 1)).sum) =
      (range (qs.length + 1)).map (startOf qs) := offsets_eq Request.verifyLen qs
  simp only [fill, length_map]
  rw [bind_of_ok (raiseIf_of_not hsize s), bind_of_ok (raiseIf_of_not hequal s), bind_of_ok (raiseIf_of_not hlens s),
    zipRequests_map, hcumulative]
  apply returns_bind (prepareKvWrites_returns hs P.scratchRow 0 (qs.length * e.maxVerifyTokens))
  rintro _ s₁ ⟨hsound, hfits, -, hscratch, -⟩
  rw [zero_add] at hfits
  have hprivate : ∀ position < qs.length * e.maxVerifyTokens, P.Private s₁ P.scratchRow (position / P.pageSize) :=
    fun position hposition => hscratch position (Nat.zero_le _) (by omega)
  apply returns_bind (fillRows_returns hsound hfits hwidth hprivate rfl hqs)
  rintro p s₂ ⟨hsound, -, hoffset, hstarts, hlens', hscratch, hlive, hrows⟩
  rw [hoffset]
  apply returns_bind (fillTail_returns hfits)
  rintro b s₃ ⟨rfl, hframe, htail⟩
  -- The tail lies behind the compact rows.
  have hcompact : ∀ i q, qs[i]? = some q → RowAt P e s₃ (q.draft.onDevice = false) i (startOf qs i) q
      { b with cuSeqlensQ := (range (qs.length + 1)).map (startOf qs) } := by
    intro i q hq
    have hrow := hrows i (List.getElem?_eq_some_iff.mp hq).1 q hq
    have hstop : startOf qs i + q.verifyLen ≤ startOf qs qs.length := by
      rw [← startOf_succ hq]
      exact startOf_mono qs (Nat.succ_le_of_lt (List.getElem?_eq_some_iff.mp hq).1)
    rw [hframe]
    refine { hrow with writeIndex := fun c hc => ?_ }
    exact (htail.before _ (by omega)).trans (hrow.writeIndex c hc)
  apply (copyDrafts_returns hqs hstarts hcompact).mono
  rintro b' s₄ ⟨rfl, hframe', hall⟩
  have hwrite : b'.writeIndex = b.writeIndex := by rw [hframe']
  have hcu : b'.cuSeqlensQ = (range (qs.length + 1)).map (startOf qs) := by rw [hframe']
  have hverify : b'.verifyLens = qs.map Request.verifyLen := by
    rw [hframe', hframe]
    exact hlens'
  have htailRow : ∀ i, startOf qs qs.length ≤ i → i < qs.length * e.maxVerifyTokens →
      b'.writeIndex i = P.kvRow s₄ P.scratchRow (i - startOf qs qs.length) := by
    intro i hlow hhigh
    have hvalue := htail.value (i - startOf qs qs.length) (by omega)
    rwa [Nat.add_sub_cancel' hlow, ← hwrite] at hvalue
  have htailPrivate : ∀ i, i < qs.length * e.maxVerifyTokens →
      P.Private s₄ P.scratchRow ((i - startOf qs qs.length) / P.pageSize) :=
    fun i hhigh => hscratch _ (lt_of_le_of_lt (Nat.sub_le _ _) hhigh)
  refine ⟨hsound, hall, htailRow, ?_, ?_, hcu, hverify, ?_⟩
  · intro i j hi hi' hj hj' heq
    rw [htailRow i hi hi', htailRow j hj hj'] at heq
    have hposition := (P.kvRow_inj hsound (htailPrivate i hi') (htailPrivate j hj') heq).2
    omega
  · intro i q c j hq hc hslot hj hj' heq
    rw [(hall i q hq).writeIndex c hc, htailRow j hj hj'] at heq
    have hlt := (List.getElem?_eq_some_iff.mp hq).1
    exact hslot (P.kvRow_inj hsound (hlive i hlt q hq c hc) (htailPrivate j hj') heq).1
  · intro kernel capturing predicted
    rw [hverify, hcu]
    exact greedyAcceptRagged_eq hne hqs hall kernel capturing predicted

theorem four_pos : 0 < 4 := by decide

def twoSlots : FixedArena.Geometry := ⟨2, 4, 4, four_pos⟩

/-- A full row with a draft on the host before a short one with a draft on the device. -/
def mixedBatch : List Request := [⟨1, 7, .host [8, 9], 5, 3⟩, ⟨0, 4, .matrix [[5, 6]], 2, 2⟩]

theorem fill_per_slot_mixed :
    (raised (fill (.fixed twoSlots) ⟨2, fun slot => slot⟩ (mixedBatch.map Request.slot) (mixedBatch.map Request.anchor)
      (mixedBatch.map Request.draft) (mixedBatch.map Request.pastLen) (mixedBatch.map Request.verifyLen)
      (FixedArena.start twoSlots fun _ _ => ()))).isNone = true ∧
    Returns (fun b s' => (KvPool.fixed twoSlots).Sound s' ∧ Ragged (.fixed twoSlots) ⟨2, fun slot => slot⟩ mixedBatch s' b)
      IsPool
      (fill (.fixed twoSlots) ⟨2, fun slot => slot⟩ (mixedBatch.map Request.slot) (mixedBatch.map Request.anchor)
        (mixedBatch.map Request.draft) (mixedBatch.map Request.pastLen) (mixedBatch.map Request.verifyLen)
        (FixedArena.start twoSlots fun _ _ => ())) := by
  refine ⟨by decide +kernel, fill_per_slot ⟨(FixedArena.counted_start _ _).tallied, rfl⟩ (by decide) (by decide) ?_⟩
  intro q hq
  cases mem_cons.mp hq with
  | inl hfirst =>
    subst hfirst
    exact ⟨by decide, by decide, rfl, by decide⟩
  | inr hsecond =>
    obtain rfl := mem_singleton.mp hsecond
    exact ⟨by decide, by decide, ⟨[5, 6], rfl, rfl⟩, by decide⟩

end PerSlot

end RaggedVerify
