import BlackweLLM.Dsv4Window
import BlackweLLM.StepRun

/-!
# Attention over the DSV4 window

The attention calls of `Dsv4AttnKernelLayer` and the backend's calls that move or
restore window pages, over any number of slots. A call packs all its rows before
any of them attends.
-/

namespace Dsv4Window

open List Function

variable {Token : Type} (g : LayerShape)

structure Row (Token : Type) where
  slot : Nat
  position : Nat
  read : List (Option (Entry Token))

section Layer

/-- The rows a pack writes, each with the ring entry of its position. -/
def ringRows (tokens : Nat → List Token) (positions : List (Nat × Nat)) : List (Nat × Entry Token) :=
  positions.map fun w => (g.windowId w.1 w.2, latentKv (tokens w.1) w.2)

def packRing (order : List Nat) (tokens : Nat → List Token) (positions : List (Nat × Nat)) (pages : Pages Token) :
    Pages Token :=
  { pages with windowPages := packLatentKv order pages.windowPages (ringRows g tokens positions) }

/-- `_pack_window` without capture: `tokens` is the sequence up to the last row. -/
def packWindow (order : List Nat) (slot : Nat) (tokens : List Token) (startPos seqlen : Nat) (pages : Pages Token) :
    Pages Token :=
  if startPos = 0 then
    let tail := min seqlen g.window
    let prefillRows := (range seqlen).map fun p => (g.prefillBase slot + p, latentKv tokens p)
    { packRing g order (fun _ => tokens) ((range' (seqlen - tail) tail).map (slot, ·)) pages with
      prefillPages := packLatentKv order pages.prefillPages prefillRows }
  else packRing g order (fun _ => tokens) ((range' startPos seqlen).map (slot, ·)) pages

/-- The row of a position, whose ids are local to the slot until `base` shifts them. -/
def attendRow (slot p base : Nat) (cache : Nat → Entry Token) (ids : List (Option Nat)) : Row Token :=
  let row := offsetValidIds base ids
  ⟨slot, p, attended cache row (swaLength row)⟩

/-- `forward` without capture. -/
def forward (order : List Nat) (slot : Nat) (tokens : List Token) (startPos seqlen : Nat) (pages : Pages Token) :
    Pages Token × List (Row Token) :=
  let pages := packWindow g order slot tokens startPos seqlen pages
  let base := if startPos = 0 then g.prefillBase slot else LayerShape.windowBase slot
  let cache := if startPos = 0 then pages.prefillPages else pages.windowPages
  (pages, (windowTopkIdxs g.window seqlen startPos).mapIdx fun i row =>
    attendRow slot (startPos + i) base cache (row ++ replicate (g.window - row.length) none))

def forwardGraphPrefill (order : List Nat) (slot : Nat) (tokens : List Token) (startPos seqlen : Nat)
    (pages : Pages Token) : Pages Token × List (Row Token) :=
  let pages := packRing g order (fun _ => tokens) ((range' startPos seqlen).map (slot, ·)) pages
  (pages, (range' startPos seqlen).map fun p =>
    attendRow slot p (LayerShape.windowBase slot) pages.windowPages (causalRow g.window g.window p (· % g.window)))

/-- `forward` under capture: one row at the position the graph reads. -/
def forwardCapture (slot : Nat) (tokens : List Token) (p : Nat) (pages : Pages Token) :
    Pages Token × List (Row Token) :=
  let pages := packRing g [0] (fun _ => tokens) [(slot, p)] pages
  (pages, [attendRow slot p (LayerShape.windowBase slot) pages.windowPages (decodeSwaIndices g.window p)])

/-- `forward_decode_batch`; its lengths come with the ids. -/
def forwardDecodeBatch (order : List Nat) (tokens : Nat → List Token) (rows : List (Nat × Nat)) (pages : Pages Token) :
    Pages Token × List (Row Token) :=
  let pages := packRing g order tokens rows pages
  (pages, rows.map fun w => ⟨w.1, w.2, attended pages.windowPages
    (offsetValidIds (LayerShape.windowBase w.1) (decodeSwaIndices g.window w.2)) (min (w.2 + 1) g.window)⟩)

end Layer

section Backend

/-- What `_capture_prefix_checkpoint` keeps of a slot for its window. -/
structure Checkpoint (Token : Type) where
  tokens : List Token
  windows : Nat → Entry Token

structure State (Token : Type) where
  pages : Pages Token
  sequence : Nat → List Token
  checkpoint : Nat → Option (Checkpoint Token)

/-- The rows of a batch write their pages in any `order`. -/
inductive Op (Token : Type) where
  | reset (slot : Nat)
  | prefillTile (slot : Nat) (tokens : List Token) (order : List Nat)
  | forward (slot : Nat) (tokens : List Token) (order : List Nat)
  | decodeGraph (slot : Nat) (token : Token)
  | decodeBatch (rows : List (Nat × Token)) (order : List Nat)
  | publish (slot : Nat)
  | restore (slot source : Nat)
  | drop (slot : Nat)
  | invalidate (slots : List Nat)

/-- `dst[base : base + 256] = src`. -/
def setPage (pages : Nat → Entry Token) (base : Nat) (src : Nat → Entry Token) : Nat → Entry Token := fun id =>
  if base ≤ id ∧ id < base + dsv4PageSize then src (id - base) else pages id

def page (pages : Nat → Entry Token) (base : Nat) : Nat → Entry Token := fun i => pages (base + i)

/-- `clear_pages` of one slot, for the two areas. -/
def clearPages (slot : Nat) (pages : Pages Token) : Pages Token where
  windowPages := setPage pages.windowPages (LayerShape.windowBase slot) fun _ => none
  prefillPages := fun id =>
    if g.prefillBase slot ≤ id ∧ id < g.prefillBase slot + g.prefillPagesPerSlot * dsv4PageSize then none
    else pages.prefillPages id

def copyPrefix (source destination : Nat) (pages : Pages Token) : Pages Token :=
  let copied := page pages.windowPages (LayerShape.windowBase source)
  { pages with windowPages := setPage pages.windowPages (LayerShape.windowBase destination) copied }

def restoreWindow (slot : Nat) (windows : Nat → Entry Token) (pages : Pages Token) : Pages Token :=
  { pages with windowPages := setPage pages.windowPages (LayerShape.windowBase slot) windows }

namespace State

variable (s : State Token)

/-- `_capture_prefix_checkpoint` of the tokens the slot has computed. -/
def publish (slot : Nat) : State Token :=
  let windows := page s.pages.windowPages (LayerShape.windowBase slot)
  { s with checkpoint := update s.checkpoint slot (some ⟨s.sequence slot, windows⟩) }

def append (slot : Nat) (tokens : List Token) : Nat → List Token :=
  update s.sequence slot (s.sequence slot ++ tokens)

/-- `_apply_same_slot_prefix` behind its choice of the source. -/
def restore (slot source : Nat) (c : Checkpoint Token) : State Token :=
  let pages := if source = slot then s.pages else copyPrefix source slot (clearPages g slot s.pages)
  let restored : State Token :=
    { s with pages := restoreWindow slot c.windows pages, sequence := update s.sequence slot c.tokens }
  if source = slot then restored else restored.publish slot

/-- `_invalidate_slots_after_decode_failure` for one slot. -/
def invalidate (slot : Nat) : State Token where
  pages := clearPages g slot s.pages
  sequence := update s.sequence slot []
  checkpoint := update s.checkpoint slot none

end State

/-- The rows fit the layer's plan and the sequence its capacity. -/
def Fits (s : State Token) (slot : Nat) (tokens : List Token) (order : List Nat) : Prop :=
  tokens ≠ [] ∧ tokens.length ≤ g.maxQRows ∧ (s.sequence slot).length + tokens.length ≤ g.maxSeqLen ∧
    order.Perm (range tokens.length)

instance (s : State Token) (slot : Nat) (tokens : List Token) (order : List Nat) :
    Decidable (Fits g s slot tokens order) :=
  decidable_of_iff (¬ tokens.isEmpty ∧ tokens.length ≤ g.maxQRows ∧
    (s.sequence slot).length + tokens.length ≤ g.maxSeqLen ∧ order.Perm (range tokens.length))
    (by rw [List.isEmpty_iff]; exact Iff.rfl)

/-- `_decode_batch_chunks` gives batches of these sizes. -/
def Batches (s : State Token) (rows : List (Nat × Token)) (order : List Nat) : Prop :=
  (rows.length = 1 ∨ rows.length = 2 ∨ rows.length = 4) ∧ (rows.map Prod.fst).Nodup ∧
    (∀ row ∈ rows, (s.sequence row.1).length < g.maxSeqLen) ∧ order.Perm (range rows.length)

instance (s : State Token) (rows : List (Nat × Token)) (order : List Nat) : Decidable (Batches g s rows order) :=
  inferInstanceAs (Decidable (_ ∧ _))

/-- The sequences behind a decode batch: each slot of it has one more token. -/
def appendRows (sequence : Nat → List Token) (rows : List (Nat × Token)) : Nat → List Token := fun slot =>
  sequence slot ++ ((rows.filter (·.1 = slot)).map Prod.snd)

/-- A call of the backend, with the rows its attention reads. -/
def exec (s : State Token) : Op Token → Option (State Token × List (Row Token))
  | .reset slot => some ({ s with sequence := update s.sequence slot [] }, [])
  | .prefillTile slot tokens order =>
    if Fits g s slot tokens order then
      let startPos := (s.sequence slot).length
      let sequence := s.append slot tokens
      -- The first tile of a cold prefill goes through `forward`.
      let call := if startPos = 0 then forward g else forwardGraphPrefill g
      let (pages, rows) := call order slot (sequence slot) startPos tokens.length s.pages
      some ({ s with pages, sequence }, rows)
    else none
  | .forward slot tokens order =>
    if Fits g s slot tokens order then
      let sequence := s.append slot tokens
      let (pages, rows) := forward g order slot (sequence slot) (s.sequence slot).length tokens.length s.pages
      some ({ s with pages, sequence }, rows)
    else none
  | .decodeGraph slot token =>
    if (s.sequence slot).length < g.maxSeqLen then
      let sequence := s.append slot [token]
      let (pages, rows) := forwardCapture g slot (sequence slot) (s.sequence slot).length s.pages
      some ({ s with pages, sequence }, rows)
    else none
  | .decodeBatch rows order =>
    if Batches g s rows order then
      let sequence := appendRows s.sequence rows
      let (pages, out) := forwardDecodeBatch g order sequence
        (rows.map fun row => (row.1, (s.sequence row.1).length)) s.pages
      some ({ s with pages, sequence }, out)
    else none
  | .publish slot =>
    if (s.sequence slot).length ≠ 0 ∧ (s.sequence slot).length % dsv4PageSize = 0 then some (s.publish slot, []) else none
  | .restore slot source =>
    if s.sequence slot = [] then (s.checkpoint source).map fun c => (s.restore g slot source c, []) else none
  | .drop slot => some ({ s with checkpoint := update s.checkpoint slot none }, [])
  | .invalidate slots => some (slots.foldl (fun s slot => s.invalidate g slot) s, [])

def step (s : State Token) (op : Op Token) : Option (State Token) := (exec g s op).map Prod.fst

end Backend

section Reads

variable {g} {p slot base : Nat} {id : Nat → Nat} {ids : List (Option Nat)}

/-- The row that reads the entries `id` names for the window of `p`. -/
def windowRow (g : LayerShape) (slot p : Nat) (cache : Nat → Entry Token) (id : Nat → Nat) : Row Token :=
  ⟨slot, p, (windowPositions g.window p).map fun q => some (cache (id q))⟩

theorem attendRow_eq (h : NamesWindow g.window p id ids) (cache : Nat → Entry Token) :
    attendRow slot p base cache ids = windowRow g slot p cache fun q => base + id q := by
  have hrow := h.offset base
  unfold attendRow windowRow
  dsimp only
  rw [hrow.swaLength, hrow.attended]

theorem length_windowPositions (window p : Nat) (hwindow : 0 < window) :
    (windowPositions window p).length = min (p + 1) window := by
  unfold windowPositions
  rw [length_range']
  omega

variable (g)

theorem forwardGraphPrefill_rows (order : List Nat) (slot : Nat) (tokens : List Token) (startPos seqlen : Nat)
    (pages : Pages Token) :
    (forwardGraphPrefill g order slot tokens startPos seqlen pages).2 =
      (range' startPos seqlen).map fun p =>
        windowRow g slot p (forwardGraphPrefill g order slot tokens startPos seqlen pages).1.windowPages
          (g.windowId slot) := by
  refine map_congr_left fun p _ => attendRow_eq (namesWindow_causalRow ?_ _) _
  have := g.window_pos
  omega

theorem forwardCapture_rows (slot : Nat) (tokens : List Token) (p : Nat) (pages : Pages Token) :
    (forwardCapture g slot tokens p pages).2 =
      [windowRow g slot p (forwardCapture g slot tokens p pages).1.windowPages (g.windowId slot)] :=
  congrArg (fun row => [row]) (attendRow_eq (namesWindow_decodeSwaIndices g.window_pos p) _)

theorem forwardDecodeBatch_rows (order : List Nat) (tokens : Nat → List Token) (rows : List (Nat × Nat))
    (pages : Pages Token) :
    (forwardDecodeBatch g order tokens rows pages).2 = rows.map fun w =>
      windowRow g w.1 w.2 (forwardDecodeBatch g order tokens rows pages).1.windowPages (g.windowId w.1) := by
  refine map_congr_left fun w _ => ?_
  have hrow := (namesWindow_decodeSwaIndices g.window_pos w.2).offset (LayerShape.windowBase w.1)
  unfold windowRow
  rw [← length_windowPositions _ _ g.window_pos, hrow.attended]
  rfl

/-- The eager call reads the prefill area in its first tile and the ring afterwards. -/
theorem forward_rows (order : List Nat) (slot : Nat) (tokens : List Token) (startPos seqlen : Nat)
    (hseqlen : 0 < seqlen) (pages : Pages Token) :
    (forward g order slot tokens startPos seqlen pages).2 =
      (range' startPos seqlen).map fun p =>
        if startPos = 0 then
          windowRow g slot p (forward g order slot tokens startPos seqlen pages).1.prefillPages (g.prefillBase slot + ·)
        else windowRow g slot p (forward g order slot tokens startPos seqlen pages).1.windowPages (g.windowId slot) := by
  have hwindow := g.window_gt_one
  unfold forward
  dsimp only
  generalize packWindow g order slot tokens startPos seqlen pages = packed
  by_cases hzero : startPos = 0
  · subst hzero
    have hidx : windowTopkIdxs g.window seqlen 0 =
        (range' 0 seqlen).map fun base => causalRow g.window (min seqlen g.window) base fun q => q := by
      unfold windowTopkIdxs
      rw [if_neg (by omega), if_neg (by omega), if_neg (by omega), range_eq_range']
      rfl
    rw [hidx]
    apply ext_getElem
    · simp
    · intro i hi hi'
      have hlt : i < seqlen := by simpa using hi'
      simp only [getElem_mapIdx, getElem_map, getElem_range', if_true, zero_add, one_mul]
      exact attendRow_eq ((namesWindow_causalRow (by omega) _).pad _) _
  · simp only [if_neg hzero]
    by_cases hone : seqlen = 1
    · subst hone
      obtain ⟨row, hrow, hnames⟩ := namesWindow_windowTopkIdxs_one g.window_pos (pos_of_ne_zero hzero)
      rw [hrow]
      exact congrArg (fun row => [row]) (attendRow_eq (hnames.pad _) _)
    · have hidx : windowTopkIdxs g.window seqlen startPos =
          (range' startPos seqlen).map fun row => causalRow g.window g.window row (· % g.window) := by
        unfold windowTopkIdxs
        rw [if_pos (by omega)]
      rw [hidx]
      apply ext_getElem
      · simp
      · intro i hi hi'
        simp only [getElem_mapIdx, getElem_map, getElem_range', one_mul]
        exact attendRow_eq ((namesWindow_causalRow (by omega) _).pad _) _

end Reads

section Ring

variable {g} {seq seq' : Nat → List Token} {ws : List (Nat × Nat)} {order : List Nat} {n : Nat}

/-- The entries `id` names hold the last positions of the sequence, a window of them. -/
def RingHolds (g : LayerShape) (cells : Nat → Entry Token) (id : Nat → Nat) (tokens : List Token) : Prop :=
  ∀ p, p < tokens.length → tokens.length ≤ p + g.window → cells (id p) = latentKv tokens p

theorem latentKv_of_isPrefix {tokens tokens' : List Token} (h : tokens <+: tokens') {p : Nat} (hp : p < tokens.length) :
    latentKv tokens p = latentKv tokens' p := by
  obtain ⟨rest, rfl⟩ := h
  unfold latentKv
  rw [take_append_of_le_length hp]

theorem latentKv_inj {tokens : List Token} {p q : Nat} (hp : p < tokens.length) (hq : q < tokens.length)
    (h : latentKv tokens p = latentKv tokens q) : p = q := by
  have hlen := congrArg List.length (Option.some.inj h)
  rw [length_take, length_take] at hlen
  omega

theorem ringRows_congr (h : ∀ w ∈ ws, seq w.1 = seq' w.1) : ringRows g seq ws = ringRows g seq' ws :=
  map_congr_left fun w hw => by rw [h w hw]

/-- Two packed positions of one window fall on one ring entry only when they are one position. -/
theorem eq_of_windowId_eq {tokens : Nat → List Token} {slot other p q : Nat}
    (h : g.windowId slot p = g.windowId other q)
    (hp : p < (tokens slot).length) (hpw : (tokens slot).length ≤ p + g.window) (hq : q < (tokens other).length)
    (hqw : (tokens other).length ≤ q + g.window) : (slot, p) = (other, q) := by
  obtain ⟨rfl, hmod⟩ := g.windowId_inj h
  have heq : p = q := g.eq_of_mod_eq hmod (by omega) (by omega)
  rw [heq]

theorem nodup_ringRows (hnodup : ws.Nodup)
    (hws : ∀ w ∈ ws, w.2 < (seq' w.1).length ∧ (seq' w.1).length ≤ w.2 + g.window) :
    ((ringRows g seq' ws).map Prod.fst).Nodup := by
  unfold ringRows
  rw [map_map]
  refine hnodup.map_on fun a ha b hb heq => ?_
  exact eq_of_windowId_eq heq (hws a ha).1 (hws a ha).2 (hws b hb).1 (hws b hb).2

/-- A pack of positions from the last window of each sequence keeps the rings. -/
theorem packRing_holds (horder : order.Perm (range n)) (hlen : ws.length ≤ n) (hnodup : ws.Nodup)
    (hgrow : ∀ slot, seq slot <+: seq' slot)
    (hws : ∀ w ∈ ws, w.2 < (seq' w.1).length ∧ (seq' w.1).length ≤ w.2 + g.window)
    (hall : ∀ slot p, (seq slot).length ≤ p → p < (seq' slot).length →
      (seq' slot).length ≤ p + g.window → (slot, p) ∈ ws)
    {pages : Pages Token} (h : ∀ slot, RingHolds g pages.windowPages (g.windowId slot) (seq slot)) (slot : Nat) :
    RingHolds g (packRing g order seq' ws pages).windowPages (g.windowId slot) (seq' slot) := by
  have hrows : (ringRows g seq' ws).length ≤ n := by
    rw [ringRows, length_map]
    exact hlen
  intro p hp hpw
  by_cases hmem : (slot, p) ∈ ws
  · have hrow : (g.windowId slot p, latentKv (seq' slot) p) ∈ ringRows g seq' ws := mem_map.mpr ⟨_, hmem, rfl⟩
    exact packLatentKv_of_mem horder pages.windowPages hrows (nodup_ringRows hnodup hws) hrow
  · have hold : p < (seq slot).length := by
      by_contra hge
      exact hmem (hall slot p (not_lt.mp hge) hp hpw)
    have hlen' := (hgrow slot).length_le
    have hnot : g.windowId slot p ∉ (ringRows g seq' ws).map Prod.fst := by
      intro hin
      obtain ⟨row, hrow, heq⟩ := mem_map.mp hin
      obtain ⟨w, hw, rfl⟩ := mem_map.mp hrow
      obtain ⟨hwp, hww⟩ := hws w hw
      have hsame := eq_of_windowId_eq heq.symm hp hpw hwp hww
      exact hmem (hsame ▸ hw)
    have hkept := packLatentKv_of_notMem horder pages.windowPages hrows hnot
    calc (packRing g order seq' ws pages).windowPages (g.windowId slot p)
        = pages.windowPages (g.windowId slot p) := hkept
      _ = latentKv (seq slot) p := h slot p hold (by omega)
      _ = latentKv (seq' slot) p := latentKv_of_isPrefix (hgrow slot) hold

/-- The first tile's own area holds every row of the tile. -/
theorem packPrefill_holds (horder : order.Perm (range n)) (slot : Nat) (tokens : List Token) {seqlen : Nat}
    (hseqlen : seqlen ≤ n) (pages : Pages Token) {q : Nat} (hq : q < seqlen) :
    (packWindow g order slot tokens 0 seqlen pages).prefillPages (g.prefillBase slot + q) = latentKv tokens q := by
  have hmem : (g.prefillBase slot + q, latentKv tokens q) ∈
      (range seqlen).map fun p => (g.prefillBase slot + p, latentKv tokens p) :=
    mem_map.mpr ⟨q, mem_range.mpr hq, rfl⟩
  refine packLatentKv_of_mem horder pages.prefillPages (by simpa using hseqlen) ?_ hmem
  rw [map_map]
  exact nodup_range.map fun a b heq => Nat.add_left_cancel heq

end Ring

section Steps

variable {g}
variable {s : State Token}

def Row.Exact (g : LayerShape) (sequence : Nat → List Token) (row : Row Token) : Prop :=
  row.read = (windowPositions g.window row.position).map fun q => some (latentKv (sequence row.slot) q)

/-- Every row of the call reads the latent KV of exactly the positions of its window. -/
def AttentionExact (g : LayerShape) (s : State Token) (op : Op Token) : Prop :=
  ∀ out, exec g s op = some out → ∀ row ∈ out.2, row.Exact g out.1.sequence

/-- A tile behind the first one has one row or ends inside the first window. -/
def TileFits (g : LayerShape) (s : State Token) (slot : Nat) (tokens : List Token) : Prop :=
  (s.sequence slot).length = 0 ∨ tokens.length ≤ 1 ∨ (s.sequence slot).length + tokens.length ≤ g.window

/-- A tile that the backend accepts fits. -/
def KeepsWindow (g : LayerShape) (s : State Token) : Op Token → Prop
  | .prefillTile slot tokens order => Fits g s slot tokens order → TileFits g s slot tokens
  | .forward slot tokens order => Fits g s slot tokens order → TileFits g s slot tokens
  | _ => True

structure Sound (g : LayerShape) (s : State Token) : Prop where
  ring : ∀ slot, RingHolds g s.pages.windowPages (g.windowId slot) (s.sequence slot)
  checkpoint : ∀ slot c, s.checkpoint slot = some c → RingHolds g c.windows (· % g.window) c.tokens

variable {sequence : Nat → List Token}

theorem windowRow_exact {slot p : Nat} {cells : Nat → Entry Token} {id : Nat → Nat} :
    (windowRow g slot p cells id).Exact g sequence ↔
      ∀ q, p + 1 - g.window ≤ q → q ≤ p → cells (id q) = latentKv (sequence slot) q := by
  unfold Row.Exact windowRow
  dsimp only
  rw [map_inj_left]
  simp only [mem_windowPositions, and_imp, Option.some.injEq]

/-- The ring serves the last row of a sequence, and every row of one that fits the window. -/
theorem windowRow_exact_of_ring {slot p : Nat} {cells : Nat → Entry Token}
    (h : RingHolds g cells (g.windowId slot) (sequence slot)) (hp : p < (sequence slot).length)
    (hlast : (sequence slot).length = p + 1 ∨ (sequence slot).length ≤ g.window) :
    (windowRow g slot p cells (g.windowId slot)).Exact g sequence :=
  windowRow_exact.mpr fun q hq hqp => h q (by omega) (by omega)

/-- Behind the first tile the two prefill paths are one. -/
theorem forward_eq_forwardGraphPrefill (order : List Nat) (slot : Nat) (tokens : List Token) {startPos seqlen : Nat}
    (hstart : startPos ≠ 0) (hseqlen : 0 < seqlen) (pages : Pages Token) :
    forward g order slot tokens startPos seqlen pages =
      forwardGraphPrefill g order slot tokens startPos seqlen pages := by
  have hpages : (forward g order slot tokens startPos seqlen pages).1 =
      (forwardGraphPrefill g order slot tokens startPos seqlen pages).1 := if_neg hstart
  refine Prod.ext hpages ?_
  rw [forward_rows g order slot tokens startPos seqlen hseqlen, forwardGraphPrefill_rows, hpages]
  simp only [if_neg hstart]

theorem exec_prefillTile (s : State Token) (slot : Nat) (tokens : List Token) (order : List Nat) :
    exec g s (.prefillTile slot tokens order) = exec g s (.forward slot tokens order) := by
  by_cases hfits : Fits g s slot tokens order
  · have hpos : 0 < tokens.length := length_pos_iff.mpr hfits.1
    by_cases hzero : (s.sequence slot).length = 0
    · simp only [exec, if_pos hfits, if_pos hzero]
    · simp only [exec, if_pos hfits, if_neg hzero, forward_eq_forwardGraphPrefill order slot _ hzero hpos]
  · simp only [exec, if_neg hfits]

variable {tokens : List Token} {slot : Nat} {order : List Nat}

theorem exec_forward (hfits : Fits g s slot tokens order) : exec g s (.forward slot tokens order) =
      let call := forward g order slot (s.append slot tokens slot) (s.sequence slot).length tokens.length s.pages
      some ({ s with pages := call.1, sequence := s.append slot tokens }, call.2) := by
  simp only [exec, if_pos hfits]

theorem exec_forward_fits
    {out : State Token × List (Row Token)} (h : exec g s (.forward slot tokens order) = some out) :
    Fits g s slot tokens order := by
  by_contra hfits
  simp only [exec, if_neg hfits] at h
  cases h

theorem append_self (s : State Token) (slot : Nat) (tokens : List Token) :
    s.append slot tokens slot = s.sequence slot ++ tokens := update_self _ _ _

theorem append_of_ne (s : State Token) {slot other : Nat} (tokens : List Token) (h : other ≠ slot) :
    s.append slot tokens other = s.sequence other := update_of_ne h _ _

theorem isPrefix_append (s : State Token) (slot : Nat) (tokens : List Token) (other : Nat) :
    s.sequence other <+: s.append slot tokens other := by
  by_cases h : other = slot
  · subst h
    rw [append_self]
    exact prefix_append _ _
  · exact ⟨[], (append_nil _).trans (append_of_ne s tokens h).symm⟩

/-- Packing the last rows of one slot's new tokens keeps every ring. -/
theorem packRing_append_holds (hs : Sound g s)
    {n first count : Nat} (horder : order.Perm (range n)) (hcount : count ≤ n)
    (hend : first + count = (s.append slot tokens slot).length) (hwindow : count ≤ g.window)
    (hall : ∀ p, (s.sequence slot).length ≤ p → (s.append slot tokens slot).length ≤ p + g.window → first ≤ p)
    (other : Nat) :
    RingHolds g
      (packRing g order (fun _ => s.append slot tokens slot) ((range' first count).map (slot, ·)) s.pages).windowPages
      (g.windowId other) (s.append slot tokens other) := by
  have hmem : ∀ {w : Nat × Nat}, w ∈ (range' first count).map (slot, ·) ↔ w.1 = slot ∧ first ≤ w.2 ∧
      w.2 < first + count := by
    intro w
    rw [mem_map]
    constructor
    · rintro ⟨p, hp, rfl⟩
      exact ⟨rfl, mem_range'_1.mp hp⟩
    · rintro ⟨rfl, hp⟩
      exact ⟨w.2, mem_range'_1.mpr hp, rfl⟩
  have hrows : ringRows g (fun _ => s.append slot tokens slot) ((range' first count).map (slot, ·)) =
      ringRows g (s.append slot tokens) ((range' first count).map (slot, ·)) :=
    ringRows_congr fun w hw => by rw [(hmem.mp hw).1]
  unfold packRing
  rw [hrows]
  refine packRing_holds horder (by simpa using hcount) ?_ (isPrefix_append s slot tokens) ?_ ?_ hs.ring other
  · exact (nodup_range' (s := first) (n := count)).map fun a b h => (Prod.mk.inj h).2
  · intro w hw
    obtain ⟨hslot, hlow, hhigh⟩ := hmem.mp hw
    rw [hslot]
    omega
  · intro slot' p hlow hhigh hpw
    have hslot : slot' = slot := by
      by_contra hne
      rw [append_of_ne s tokens hne] at hhigh
      omega
    subst hslot
    exact hmem.mpr ⟨rfl, hall p hlow hpw, by omega⟩

theorem length_append_self (s : State Token) (slot : Nat) (tokens : List Token) :
    (s.append slot tokens slot).length = (s.sequence slot).length + tokens.length := by
  rw [append_self, length_append]

section

variable (hs : Sound g s) {slot : Nat} {tokens : List Token} {order : List Nat}
include hs

/-- A tile that fits leaves every ring with the last window of its sequence. -/
theorem forward_ring
    (horder : order.Perm (range tokens.length)) (hfits : TileFits g s slot tokens) (other : Nat) :
    RingHolds g
      (forward g order slot (s.append slot tokens slot) (s.sequence slot).length tokens.length s.pages).1.windowPages
      (g.windowId other) (s.append slot tokens other) := by
  have hlen := length_append_self s slot tokens
  have hwindow := g.window_gt_one
  unfold forward packWindow
  dsimp only
  by_cases hzero : (s.sequence slot).length = 0
  · rw [if_pos hzero]
    exact packRing_append_holds hs horder (by omega) (by omega) (by omega) (fun p _ hpw => by omega) other
  · rw [if_neg hzero]
    have hle : tokens.length ≤ g.window := by
      obtain h | h | h := hfits
      · exact absurd h hzero
      · omega
      · omega
    exact packRing_append_holds hs horder (by omega) (by omega) hle (fun p hp _ => hp) other

/-- The rows of a tile that fits read their windows. -/
theorem forward_exact (hcall : Fits g s slot tokens order) (hfits : TileFits g s slot tokens) :
    ∀ row ∈ (forward g order slot (s.append slot tokens slot) (s.sequence slot).length tokens.length s.pages).2,
      row.Exact g (s.append slot tokens) := by
  have hlen := length_append_self s slot tokens
  have hpos : 0 < tokens.length := length_pos_iff.mpr hcall.1
  have hring := forward_ring hs hcall.2.2.2 hfits slot
  intro row hrow
  rw [forward_rows g order slot _ _ _ hpos] at hrow
  obtain ⟨p, hp, rfl⟩ := mem_map.mp hrow
  rw [mem_range'_1] at hp
  by_cases hzero : (s.sequence slot).length = 0
  · rw [if_pos hzero]
    refine windowRow_exact.mpr fun q _ hqp => ?_
    rw [hzero]
    exact packPrefill_holds hcall.2.2.2 slot _ (le_refl _) s.pages (by omega)
  · rw [if_neg hzero]
    refine windowRow_exact_of_ring hring (by omega) ?_
    obtain h | h | h := hfits
    · exact absurd h hzero
    · omega
    · omega

end

/-- The last two rows of a tile that does not fit claim one ring entry for two positions. -/
theorem not_exact_of_not_tileFits (hfits : ¬ TileFits g s slot tokens) :
    ¬ ∀ row ∈ (forward g order slot (s.append slot tokens slot) (s.sequence slot).length tokens.length s.pages).2,
      row.Exact g (s.append slot tokens) := by
  unfold TileFits at hfits
  obtain ⟨hzero, htwo, hlong⟩ : (s.sequence slot).length ≠ 0 ∧ 1 < tokens.length ∧
      g.window < (s.sequence slot).length + tokens.length := by omega
  have hlen := length_append_self s slot tokens
  have hwindow := g.window_gt_one
  intro hexact
  rw [forward_rows g order slot _ _ _ (by omega)] at hexact
  simp only [if_neg hzero] at hexact
  generalize hlast : (s.sequence slot).length + tokens.length - 1 = last at *
  have hreads : ∀ p, (s.sequence slot).length ≤ p → p ≤ last → ∀ q, p + 1 - g.window ≤ q → q ≤ p → _ :=
    fun p hp hpl => windowRow_exact.mp (hexact _ (mem_map.mpr ⟨p, mem_range'_1.mpr (by omega), rfl⟩))
  have hnew := hreads last (by omega) (by omega) last (by omega) (by omega)
  have hold := hreads (last - 1) (by omega) (by omega) (last - g.window) (by omega) (by omega)
  have hsame : g.windowId slot (last - g.window) = g.windowId slot last := by
    unfold LayerShape.windowId
    rw [← Nat.mod_eq_sub_mod (by omega)]
  rw [hsame, hnew] at hold
  have heq := latentKv_inj (by omega) (by omega) hold
  omega

section Batch

variable {rows : List (Nat × Token)}

theorem filter_fst_eq (hnodup : (rows.map Prod.fst).Nodup) {row : Nat × Token}
    (h : row ∈ rows) : rows.filter (·.1 = row.1) = [row] := by
  induction rows with
  | nil => cases h
  | cons head rows ih =>
    rw [map_cons, nodup_cons] at hnodup
    cases h with
    | head =>
      have hrest : rows.filter (·.1 = row.1) = [] := by
        rw [filter_eq_nil_iff]
        intro other hother
        rw [decide_eq_true_eq]
        intro heq
        exact hnodup.1 (heq ▸ mem_map_of_mem hother)
      rw [filter_cons, if_pos (decide_eq_true rfl), hrest]
    | tail _ h =>
      have hne : head.1 ≠ row.1 := fun heq => hnodup.1 (heq ▸ mem_map_of_mem h)
      rw [filter_cons, if_neg (by simpa using hne)]
      exact ih hnodup.2 h

section

variable (sequence : Nat → List Token) (hnodup : (rows.map Prod.fst).Nodup) {row : Nat × Token} (h : row ∈ rows)
include hnodup h

theorem appendRows_of_mem : appendRows sequence rows row.1 = sequence row.1 ++ [row.2] := by
  unfold appendRows
  rw [filter_fst_eq hnodup h]
  rfl

theorem length_appendRows_of_mem : (appendRows sequence rows row.1).length = (sequence row.1).length + 1 := by
  rw [appendRows_of_mem sequence hnodup h, length_append, length_singleton]

end

theorem appendRows_of_notMem (sequence : Nat → List Token)
    (h : slot ∉ rows.map Prod.fst) : appendRows sequence rows slot = sequence slot := by
  have hnone : rows.filter (·.1 = slot) = [] := by
    rw [filter_eq_nil_iff]
    intro row hrow
    rw [decide_eq_true_eq]
    intro heq
    exact h (heq ▸ mem_map_of_mem hrow)
  unfold appendRows
  rw [hnone, map_nil, append_nil]

/-- A decode batch leaves every ring with the last window of its sequence. -/
theorem decodeBatch_ring {s : State Token} (hs : Sound g s) (hbatch : Batches g s rows order) (slot : Nat) :
    RingHolds g (packRing g order (appendRows s.sequence rows)
      (rows.map fun row => (row.1, (s.sequence row.1).length)) s.pages).windowPages
      (g.windowId slot) (appendRows s.sequence rows slot) := by
  obtain ⟨-, hnodup, -, horder⟩ := hbatch
  have hwindow := g.window_gt_one
  have hgrow : ∀ slot, s.sequence slot <+: appendRows s.sequence rows slot := fun _ => prefix_append _ _
  refine packRing_holds horder (by simp) ?_ hgrow ?_ ?_ hs.ring slot
  · refine List.Nodup.of_map Prod.fst ?_
    rw [map_map]
    exact hnodup
  · intro w hw
    obtain ⟨row, hrow, rfl⟩ := mem_map.mp hw
    have hlen := length_appendRows_of_mem s.sequence hnodup hrow
    dsimp only
    omega
  · intro slot p hlow hhigh _
    by_cases hmem : slot ∈ rows.map Prod.fst
    · obtain ⟨row, hrow, rfl⟩ := mem_map.mp hmem
      rw [length_appendRows_of_mem s.sequence hnodup hrow] at hhigh
      have hp : p = (s.sequence row.1).length := by omega
      subst hp
      exact mem_map_of_mem hrow
    · rw [appendRows_of_notMem _ hmem] at hhigh
      omega

end Batch

section Pages

variable {slot other : Nat} {s : State Token}

theorem setPage_windowId_self (pages src : Nat → Entry Token) (slot p : Nat) :
    setPage pages (LayerShape.windowBase slot) src (g.windowId slot p) = src (p % g.window) := by
  have hp := Nat.mod_lt p g.window_pos
  have hwindow := g.window_le
  unfold setPage LayerShape.windowId
  rw [if_pos (by omega), Nat.add_sub_cancel_left]

theorem setPage_windowId_of_ne (pages src : Nat → Entry Token) (h : other ≠ slot) (p : Nat) :
    setPage pages (LayerShape.windowBase slot) src (g.windowId other p) = pages (g.windowId other p) := by
  have hp := Nat.mod_lt p g.window_pos
  have hwindow := g.window_le
  unfold setPage LayerShape.windowId LayerShape.windowBase slotRawBase
  unfold dsv4PageSize at hwindow ⊢
  rw [if_neg (by omega)]

/-- A call that rewrites one slot's page keeps the rings of the others. -/
theorem ringHolds_setPage {pages src : Nat → Entry Token} (hne : other ≠ slot)
    (h : RingHolds g pages (g.windowId other) tokens) :
    RingHolds g (setPage pages (LayerShape.windowBase slot) src) (g.windowId other) tokens := fun p hp hpw =>
  (setPage_windowId_of_ne pages src hne p).trans (h p hp hpw)

theorem ringHolds_nil (cells : Nat → Entry Token) (id : Nat → Nat) : RingHolds g cells id [] := fun _ hp =>
  absurd hp (Nat.not_lt_zero _)

theorem ringHolds_update {pages : Nat → Entry Token} (hself : RingHolds g pages (g.windowId slot) tokens)
    (hother : ∀ other, other ≠ slot → RingHolds g pages (g.windowId other) (sequence other)) (other : Nat) :
    RingHolds g pages (g.windowId other) (update sequence slot tokens other) := by
  by_cases h : other = slot
  · subst h
    rw [update_self]
    exact hself
  · rw [update_of_ne h]
    exact hother other h

section

variable (hs : Sound g s)
include hs

theorem publish_sound (slot : Nat) : Sound g (s.publish slot) where
  ring := hs.ring
  checkpoint other c hc := by
    dsimp only [State.publish] at hc
    by_cases h : other = slot
    · subst h
      rw [update_self] at hc
      obtain rfl := Option.some.inj hc
      exact hs.ring other
    · rw [update_of_ne h] at hc
      exact hs.checkpoint other c hc

theorem drop_checkpoint (slot : Nat) :
    ∀ other c, update s.checkpoint slot none other = some c → RingHolds g c.windows (· % g.window) c.tokens := by
  intro other c hc
  by_cases h : other = slot
  · subst h
    rw [update_self] at hc
    cases hc
  · rw [update_of_ne h] at hc
    exact hs.checkpoint other c hc

theorem clearPages_ring (hne : other ≠ slot) :
    RingHolds g (clearPages g slot s.pages).windowPages (g.windowId other) (s.sequence other) := by
  unfold clearPages
  dsimp only
  exact ringHolds_setPage hne (hs.ring other)

theorem invalidate_sound (slot : Nat) : Sound g (s.invalidate g slot) where
  ring := ringHolds_update (ringHolds_nil (clearPages g slot s.pages).windowPages _) fun _ => clearPages_ring hs
  checkpoint := drop_checkpoint hs slot

theorem foldl_invalidate_sound (slots : List Nat) :
    Sound g (slots.foldl (fun s slot => s.invalidate g slot) s) := by
  induction slots generalizing s with
  | nil => exact hs
  | cons slot slots ih => exact ih (invalidate_sound hs slot)

theorem restore_sound {source : Nat} {c : Checkpoint Token}
    (hc : s.checkpoint source = some c) : Sound g (s.restore g slot source c) := by
  have hrestored : ∀ pages : Pages Token,
      (∀ other, other ≠ slot → RingHolds g pages.windowPages (g.windowId other) (s.sequence other)) →
      Sound g { s with
        pages := restoreWindow slot c.windows pages
        sequence := update s.sequence slot c.tokens } := by
    intro pages hpages
    have hself : RingHolds g (restoreWindow slot c.windows pages).windowPages (g.windowId slot) c.tokens :=
      fun p hp hpw => (setPage_windowId_self _ _ slot p).trans (hs.checkpoint source c hc p hp hpw)
    exact ⟨ringHolds_update hself fun other hne => ringHolds_setPage hne (hpages other hne), hs.checkpoint⟩
  unfold State.restore
  by_cases hsame : source = slot
  · rw [if_pos hsame, if_pos hsame]
    exact hrestored _ fun other _ => hs.ring other
  · rw [if_neg hsame, if_neg hsame]
    exact publish_sound (hrestored _ fun other hne => ringHolds_setPage hne (clearPages_ring hs hne)) slot

end

end Pages

/-- What a call keeps, and what its rows read, when its tile fits. -/
theorem exec_sound {op : Op Token} {out : State Token × List (Row Token)} (hs : Sound g s)
    (hkeeps : KeepsWindow g s op) (hexec : exec g s op = some out) :
    Sound g out.1 ∧ ∀ row ∈ out.2, row.Exact g out.1.sequence := by
  have hforward : ∀ slot tokens order, (Fits g s slot tokens order → TileFits g s slot tokens) →
      exec g s (.forward slot tokens order) = some out → Sound g out.1 ∧ ∀ row ∈ out.2, row.Exact g out.1.sequence := by
    intro slot tokens order hfits hexec
    have hcall := exec_forward_fits hexec
    rw [exec_forward hcall] at hexec
    obtain rfl := Option.some.inj hexec
    exact ⟨⟨forward_ring hs hcall.2.2.2 (hfits hcall), hs.checkpoint⟩, forward_exact hs hcall (hfits hcall)⟩
  cases op with
  | prefillTile slot tokens order =>
    rw [exec_prefillTile] at hexec
    exact hforward slot tokens order hkeeps hexec
  | forward slot tokens order => exact hforward slot tokens order hkeeps hexec
  | reset slot =>
    obtain rfl := Option.some.inj hexec
    have hring := ringHolds_update (ringHolds_nil s.pages.windowPages (g.windowId slot)) fun other _ => hs.ring other
    exact ⟨⟨hring, hs.checkpoint⟩, fun row hrow => by cases hrow⟩
  | decodeGraph slot token =>
    simp only [exec, Option.ite_none_right_eq_some, Option.some.injEq] at hexec
    obtain ⟨-, rfl⟩ := hexec
    have hlen : (s.append slot [token] slot).length = (s.sequence slot).length + 1 := length_append_self s slot [token]
    have hring := packRing_append_holds hs (List.Perm.refl [0]) (le_refl 1) hlen.symm g.window_pos fun _ hp _ => hp
    refine ⟨⟨hring, hs.checkpoint⟩, fun row hrow => ?_⟩
    rw [forwardCapture_rows] at hrow
    obtain rfl := mem_singleton.mp hrow
    exact windowRow_exact_of_ring (hring slot) (by dsimp only; omega) (.inl hlen)
  | decodeBatch rows order =>
    simp only [exec, Option.ite_none_right_eq_some, Option.some.injEq] at hexec
    obtain ⟨hbatch, rfl⟩ := hexec
    have hring := decodeBatch_ring hs hbatch
    refine ⟨⟨hring, hs.checkpoint⟩, fun row hrow => ?_⟩
    rw [forwardDecodeBatch_rows, map_map] at hrow
    obtain ⟨entry, hentry, rfl⟩ := mem_map.mp hrow
    have hlen := length_appendRows_of_mem s.sequence hbatch.2.1 hentry
    exact windowRow_exact_of_ring (hring entry.1) (by dsimp only; omega) (.inl hlen)
  | publish slot =>
    simp only [exec, Option.ite_none_right_eq_some, Option.some.injEq] at hexec
    obtain ⟨-, rfl⟩ := hexec
    exact ⟨publish_sound hs slot, fun row hrow => by cases hrow⟩
  | restore slot source =>
    simp only [exec, Option.ite_none_right_eq_some, Option.map_eq_some_iff] at hexec
    obtain ⟨-, c, hc, rfl⟩ := hexec
    exact ⟨restore_sound hs hc, fun row hrow => by cases hrow⟩
  | drop slot =>
    obtain rfl := Option.some.inj hexec
    exact ⟨⟨hs.ring, drop_checkpoint hs slot⟩, fun row hrow => by cases hrow⟩
  | invalidate slots =>
    obtain rfl := Option.some.inj hexec
    exact ⟨foldl_invalidate_sound hs slots, fun row hrow => by cases hrow⟩

end Steps

section Runs

variable {g}

open StepRun

/-- An accepted tile that does not fit reads a wrong entry, whatever lies in the pages. -/
theorem keepsWindow_of_exact {s : State Token} {op : Op Token} (hexact : AttentionExact g s op) :
    KeepsWindow g s op := by
  have hforward : ∀ slot tokens order, AttentionExact g s (.forward slot tokens order) →
      Fits g s slot tokens order → TileFits g s slot tokens := by
    intro slot tokens order hexact hcall
    by_contra hfits
    exact not_exact_of_not_tileFits hfits (hexact _ (exec_forward hcall))
  cases op with
  | prefillTile slot tokens order =>
    refine hforward slot tokens order fun out hexec => ?_
    rw [← exec_prefillTile] at hexec
    exact hexact out hexec
  | forward slot tokens order => exact hforward slot tokens order hexact
  | _ => exact trivial

/-- The backend before its first call: no sequence, no checkpoint, anything in the pages. -/
def State.start (pages : Pages Token) : State Token := ⟨pages, fun _ => [], fun _ => none⟩

theorem start_sound (pages : Pages Token) : Sound g (State.start pages) where
  ring _ := ringHolds_nil _ _
  checkpoint _ _ h := by cases h

theorem step_sound (s : State Token) (op : Op Token) (s' : State Token) (hs : Sound g s) (hkeeps : KeepsWindow g s op)
    (hstep : step g s op = some s') : Sound g s' := by
  obtain ⟨out, hexec, rfl⟩ := Option.map_eq_some_iff.mp hstep
  exact (exec_sound hs hkeeps hexec).1

theorem exact_of_keepsWindow (s : State Token) (op : Op Token) (hs : Sound g s) (hkeeps : KeepsWindow g s op) :
    AttentionExact g s op := fun _ hexec => (exec_sound hs hkeeps hexec).2

/-- In every run the attention of every call reads exactly its windows if and only if no tile
behind a first one, of more than one row, ends behind the first window. -/
theorem windows_exact_iff (pages : Pages Token) (ops : List (Op Token)) :
    Along (step g) (AttentionExact g) (State.start pages) ops ↔
      Along (step g) (KeepsWindow g) (State.start pages) ops :=
  ⟨along_mono fun _ _ hexact => keepsWindow_of_exact hexact,
    along_of_steps step_sound exact_of_keepsWindow (start_sound pages)⟩

theorem step_prefillTile {s : State Token} {slot : Nat} {tokens : List Token} {order : List Nat}
    (hfits : Fits g s slot tokens order) :
    ∃ s', step g s (.prefillTile slot tokens order) = some s' ∧
      (s'.sequence slot).length = (s.sequence slot).length + tokens.length := by
  unfold step
  rw [exec_prefillTile, exec_forward hfits]
  exact ⟨_, rfl, length_append_self s slot tokens⟩

def servedShape : LayerShape := ⟨128, 64, 4096, by decide, by decide⟩

def tile64 : Op Nat := .prefillTile 0 (replicate 64 7) (range 64)

/-- A cold prefill of 192 tokens: the third tile overwrites entries that its rows attend. -/
theorem third_tile_not_exact :
    ¬ Along (step servedShape) (AttentionExact servedShape) (State.start ⟨fun _ => none, fun _ => none⟩)
      [tile64, tile64, tile64] := by
  have hfits : ∀ s : State Nat, (s.sequence 0).length ≤ 128 → Fits servedShape s 0 (replicate 64 7) (range 64) := by
    intro s hs
    have hlen : (replicate 64 7).length = 64 := length_replicate
    refine ⟨by simp, hlen.le, ?_, by rw [hlen]⟩
    rw [hlen]
    exact (Nat.add_le_add_right hs 64).trans (by decide)
  intro halong
  obtain ⟨s₁, hstep₁, hlen₁⟩ := step_prefillTile (hfits (State.start ⟨fun _ => none, fun _ => none⟩) (by simp [State.start]))
  have h₁ : (s₁.sequence 0).length = 64 := by simpa [State.start] using hlen₁
  obtain ⟨s₂, hstep₂, hlen₂⟩ := step_prefillTile (hfits s₁ (by omega))
  have h₂ : (s₂.sequence 0).length = 128 := by simpa [h₁] using hlen₂
  have hthird : AttentionExact servedShape s₂ tile64 := ((halong.2 s₁ hstep₁).2 s₂ hstep₂).1
  have hkeeps : TileFits servedShape s₂ 0 (replicate 64 7) := keepsWindow_of_exact hthird (hfits s₂ (by omega))
  unfold TileFits at hkeeps
  rw [h₂, length_replicate] at hkeeps
  revert hkeeps
  decide

end Runs

end Dsv4Window
