import BlackweLLM.LagunaChunks
import Mathlib.Data.List.Range

/-!
# DSV4 superchunk prefill

`_prefill_superchunk_logits` of `runtime/backends/dsv4.py`: the suffix of a prompt
runs chunk by chunk, in a chunk layer by layer and in a layer tile by tile. A tile
reads its position from a table on the device. The layers are given by what they
are called with, and their state by the positions and tokens it has taken in.
-/

namespace Dsv4Superchunk

open List

open LagunaChunks (Tiles regularRanges tiles_regularRanges regularRanges_of_lt regularRanges_of_le mem_regularRanges)

def prefixBlockSize : Nat := 256

structure Layer where
  ratio : Nat
  boundedCache : Bool

/-- What the call reads of its backend. -/
structure Setup where
  layers : List Layer
  tile : Nat
  /-- `QSR_DSV4_MOE_CHUNK`; a negative value acts as 0. -/
  moeChunk : Nat
  superchunkGraph : Bool
  layers_ne : layers ≠ []
  tile_pos : 1 ≤ tile

variable {Token : Type}

/-- The calls that reach the layers, and the checkpoints between them. -/
inductive Event (Token : Type)
  | resetCaches (layer : Nat)
  /-- `layers[i](x[:, start:end], 0)`: the first tile of a cold prefill. -/
  | forward (layer : Nat) (rows : List Token)
  /-- `precompute_cold_prefill_compressors`. -/
  | precompute (layer completedRows : Nat) (rows : List Token)
  /-- `forward_graph_prefill`. -/
  | tile (layer hostPos devicePos maxIndexEntries : Nat) (precomputed : Bool) (rows : List Token)
  | checkpoint (length : Nat)
  deriving DecidableEq, Repr

/-- `torch.arange(start, start + n, step)`. -/
def arange (start n step : Nat) : List Nat := range' start ((n + step - 1) / step) step

/-- `x[:, start:end]`. -/
def slice (rows : List Token) (r : Nat × Nat) : List Token := (rows.take r.2).drop r.1

def attentionTiles (tile : Nat) (tilePositions : List Nat) (parallelCompressors : Bool) (cAbs cstart : Nat)
    (chunk : List Token) (i : Nat) (layer : Layer) : List (Event Token) :=
  (regularRanges 0 chunk.length tile).flatMap fun r =>
    if cAbs + r.1 = 0 then
      .forward i (slice chunk r) :: if parallelCompressors then [.precompute i r.2 chunk] else []
    else
      [.tile i (cAbs + r.1) (tilePositions.getD ((cstart + r.1) / tile) 0)
        ((cAbs + r.1 + (r.2 - r.1)) / layer.ratio) parallelCompressors (slice chunk r)]

def graphRows : Nat := 1024

def graphTile : Nat := 64

/-- `Dsv4SuperchunkPrefillGraphDriver.matches`. -/
def graphMatches (slot prefixLen tile rows : Nat) : Prop :=
  slot = 0 ∧ prefixLen = 0 ∧ tile = graphTile ∧ rows = graphRows

instance (slot prefixLen tile rows : Nat) : Decidable (graphMatches slot prefixLen tile rows) :=
  inferInstanceAs (Decidable (_ ∧ _ ∧ _ ∧ _))

/-- `replay_layer`: the captured `_layer_body`, after `_reset_layer`. -/
def replayLayer (chunk : List Token) (i : Nat) (layer : Layer) : List (Event Token) :=
  .resetCaches i :: attentionTiles graphTile (arange 0 graphRows graphTile) true 0 0 chunk i layer

def chunkRows (n moeChunk : Nat) : Nat :=
  let rows := max 1 (min n moeChunk)
  if prefixBlockSize ≤ rows then rows / prefixBlockSize * prefixBlockSize else rows

namespace Setup

variable (s : Setup)

def parallelCompressors (cAbs cn : Nat) : Bool :=
  cAbs == 0 && s.tile == 64 && 128 ≤ cn && cn % 128 == 0 &&
    !s.layers.any fun layer => layer.ratio != 0 && layer.boundedCache

def layerEvents (slot prefixLen : Nat) (tilePositions : List Nat) (cstart : Nat) (chunk : List Token) (i : Nat)
    (layer : Layer) : List (Event Token) :=
  if s.superchunkGraph = true ∧ graphMatches slot (prefixLen + cstart) s.tile chunk.length then
    replayLayer chunk i layer
  else
    attentionTiles s.tile tilePositions (s.parallelCompressors (prefixLen + cstart) chunk.length)
      (prefixLen + cstart) cstart chunk i layer

/-- One chunk: every layer, then the checkpoint where the chunk ends a block. -/
def chunkEvents (slot prefixLen : Nat) (suffix : List Token) (r : Nat × Nat) : List (Event Token) :=
  (s.layers.zipIdx.flatMap fun layer =>
      s.layerEvents slot prefixLen (arange prefixLen suffix.length s.tile) r.1 (slice suffix r) layer.2 layer.1) ++
    if (prefixLen + r.2) % prefixBlockSize = 0 then [.checkpoint (prefixLen + r.2)] else []

def prefillSuperchunkLogits (slot kvLen : Nat) (promptIds : List Token) (prefixLen : Nat) :
    Except String (List (Event Token)) :=
  let suffix := promptIds.drop prefixLen
  if kvLen ≠ 0 ∧ prefixLen = 0 then
    .error s!"slot {slot} is at kv_len={kvLen}; the caller must reset_slot first"
  else if suffix.length = 0 then .error "superchunk prefill needs a non-empty suffix"
  else
    .ok ((regularRanges 0 suffix.length (chunkRows suffix.length s.moeChunk)).flatMap
      (s.chunkEvents slot prefixLen suffix))

end Setup

/-- Rows as a layer takes them in: each with its position. -/
def feed (pos : Nat) (rows : List Token) : List (Nat × Token) := (range' pos rows.length).zip rows

@[simp] theorem feed_nil (pos : Nat) : feed pos ([] : List Token) = [] := rfl

@[simp] theorem length_feed (pos : Nat) (rows : List Token) : (feed pos rows).length = rows.length := by
  simp [feed]

theorem feed_append (pos : Nat) (xs ys : List Token) :
    feed pos (xs ++ ys) = feed pos xs ++ feed (pos + xs.length) ys := by
  unfold feed
  rw [length_append, ← range'_append_1, zip_append (by simp)]

structure LayerState (Token : Type) where
  window : List (Nat × Token)
  compressor : List (Nat × Token)

def held (tokens : List Token) : LayerState Token := ⟨feed 0 tokens, feed 0 tokens⟩

namespace LayerState

def apply (i : Nat) (st : LayerState Token) : Event Token → LayerState Token
  | .resetCaches j => if j = i then { st with compressor := [] } else st
  | .forward j rows => if j = i then ⟨st.window ++ feed 0 rows, st.compressor ++ feed 0 rows⟩ else st
  | .precompute j completedRows rows =>
    if j = i then { st with compressor := st.compressor ++ (feed 0 rows).drop completedRows } else st
  | .tile j _ devicePos _ precomputed rows =>
    if j = i then
      ⟨st.window ++ feed devicePos rows, st.compressor ++ if precomputed then [] else feed devicePos rows⟩
    else st
  | .checkpoint _ => st

def after (i : Nat) (st : LayerState Token) (events : List (Event Token)) : LayerState Token :=
  events.foldl (apply i) st

@[simp] theorem after_nil (i : Nat) (st : LayerState Token) : st.after i [] = st := rfl

@[simp] theorem after_cons (i : Nat) (st : LayerState Token) (e : Event Token) (events : List (Event Token)) :
    st.after i (e :: events) = (st.apply i e).after i events := rfl

@[simp] theorem after_append (i : Nat) (st : LayerState Token) (xs ys : List (Event Token)) :
    st.after i (xs ++ ys) = (st.after i xs).after i ys := foldl_append

end LayerState

namespace Event

/-- The rows that a call feeds to layer `i`, at the positions the device reads. -/
def fedTo (i : Nat) : Event Token → List (Nat × Token)
  | .forward j rows => if j = i then feed 0 rows else []
  | .tile j _ devicePos _ _ rows => if j = i then feed devicePos rows else []
  | _ => []

def layer? : Event Token → Option Nat
  | .resetCaches j | .forward j _ | .precompute j _ _ | .tile j _ _ _ _ _ => some j
  | .checkpoint _ => none

/-- The device reads the position that the host has for the tile. -/
def PositionsAgree : Event Token → Prop
  | .tile _ hostPos devicePos _ _ _ => devicePos = hostPos
  | _ => True

end Event

/-- Every checkpoint is taken in the state of exactly the stated number of tokens. -/
def CheckpointsHold (prompt : List Token) (i : Nat) : LayerState Token → List (Event Token) → Prop
  | _, [] => True
  | st, e :: events =>
    (∀ length, e = .checkpoint length → st = held (prompt.take length)) ∧
      CheckpointsHold prompt i (st.apply i e) events

/-- What a prefill of a prompt after a restored prefix must do. -/
structure Exact (s : Setup) (prompt : List Token) (prefixLen : Nat) (events : List (Event Token)) : Prop where
  fed : ∀ i < s.layers.length, events.flatMap (Event.fedTo i) = feed prefixLen (prompt.drop prefixLen)
  positions : ∀ e ∈ events, e.PositionsAgree
  checkpoints : ∀ i < s.layers.length, CheckpointsHold prompt i (held (prompt.take prefixLen)) events

/-- The chunks after the first start on a tile: the whole suffix is one chunk, or the chunk length is a multiple of
the tile. A chunk of a block or more is cut to whole blocks. -/
def Aligned (n moeChunk tile : Nat) : Prop :=
  if n ≤ max 1 moeChunk then n < prefixBlockSize ∨ n % prefixBlockSize = 0 ∨ tile ∣ n / prefixBlockSize * prefixBlockSize
  else if moeChunk < prefixBlockSize then tile ∣ max 1 moeChunk
  else tile ∣ moeChunk / prefixBlockSize * prefixBlockSize

section Slices

variable {xs : List Token} {a b c : Nat}

theorem slice_append (hab : a ≤ b) (hbc : b ≤ c) : slice xs (a, b) ++ slice xs (b, c) = slice xs (a, c) := by
  have hcut : xs.take c = xs.take b ++ (xs.take c).drop b := by
    have hsplit := take_append_drop b (xs.take c)
    rw [take_take, min_eq_left hbc] at hsplit
    exact hsplit.symm
  by_cases hlen : b ≤ xs.length
  · have ha : a ≤ (xs.take b).length := by rw [length_take]; omega
    unfold slice
    rw [hcut, drop_append_of_le_length ha, ← hcut]
  · have hb : xs.take b = xs := take_of_length_le (by omega)
    have hc : xs.take c = xs := take_of_length_le (by omega)
    unfold slice
    rw [hb, hc, drop_of_length_le (by omega : xs.length ≤ b), append_nil]

theorem length_slice (hb : b ≤ xs.length) : (slice xs (a, b)).length = b - a := by
  rw [slice, length_drop, length_take, min_eq_left hb]

theorem slice_all : slice xs (0, xs.length) = xs := by simp [slice]

/-- Neighbouring slices fed one after the other are one slice. -/
theorem feed_slice_append (xs : List Token) (pos : Nat) {a b c : Nat} (hab : a ≤ b) (hbc : b ≤ c) (hc : c ≤ xs.length) :
    feed (pos + a) (slice xs (a, b)) ++ feed (pos + b) (slice xs (b, c)) = feed (pos + a) (slice xs (a, c)) := by
  rw [← slice_append hab hbc, feed_append, length_slice (Nat.le_trans hbc hc), Nat.add_assoc, Nat.add_sub_cancel' hab]

theorem drop_feed (pos k : Nat) : (feed pos xs).drop k = feed (pos + k) (xs.drop k) := by
  by_cases hk : k ≤ xs.length
  · have hsplit := feed_append pos (xs.take k) (xs.drop k)
    rw [take_append_drop, length_take, min_eq_left hk] at hsplit
    rw [hsplit, drop_left' (by simp [hk])]
  · have hlen : (feed pos xs).length ≤ k := by rw [length_feed]; omega
    rw [drop_of_length_le hlen, drop_of_length_le (by omega), feed_nil]

end Slices

section Tables

theorem getD_arange {start n step k : Nat} (hk : k < (n + step - 1) / step) :
    (arange start n step).getD k 0 = start + step * k := by
  simp [arange, getD_eq_getElem?_getD, hk]

/-- The table has an entry for every tile, and it is the tile's position where the tile starts a multiple of the
tile size into the suffix. -/
theorem devicePos_eq_iff (start offset : Nat) {n tile : Nat} (htile : 0 < tile) (hlt : offset < n) :
    (arange start n tile).getD (offset / tile) 0 = start + offset ↔ tile ∣ offset := by
  have hk : offset / tile < (n + tile - 1) / tile := by
    have hle : offset / tile ≤ (n - 1) / tile := Nat.div_le_div_right (by omega)
    have hsucc : (n + tile - 1) / tile = (n - 1) / tile + 1 := by
      rw [← Nat.add_div_right _ htile]
      congr 1
      omega
    omega
  rw [getD_arange hk]
  constructor
  · intro h
    exact ⟨offset / tile, by omega⟩
  · rintro ⟨k, rfl⟩
    rw [Nat.mul_div_cancel_left _ htile]

end Tables

section Layers

variable {tile n cAbs cstart start : Nat} {parallel : Bool} {chunk : List Token} {i : Nat} {layer : Layer}

/-- The rest of a chunk after its first rows, where every tile has its table entry. -/
theorem after_tiles (i : Nat) (layer : Layer) (parallel : Bool) (htile : 0 < tile) (hoff : start + cstart = cAbs)
    (hfit : cstart + chunk.length ≤ n)
    (hdvd : tile ∣ cstart) {a : Nat} {ranges : List (Nat × Nat)} (hranges : Tiles a chunk.length ranges)
    (haligned : ∀ r ∈ ranges, tile ∣ r.1) (hpos : ∀ r ∈ ranges, cAbs + r.1 ≠ 0) (st : LayerState Token) :
    st.after i (ranges.flatMap fun r =>
        if cAbs + r.1 = 0 then
          .forward i (slice chunk r) :: if parallel then [.precompute i r.2 chunk] else []
        else
          [.tile i (cAbs + r.1) ((arange start n tile).getD ((cstart + r.1) / tile) 0)
            ((cAbs + r.1 + (r.2 - r.1)) / layer.ratio) parallel (slice chunk r)]) =
      ⟨st.window ++ feed (cAbs + a) (slice chunk (a, chunk.length)),
        st.compressor ++ if parallel then [] else feed (cAbs + a) (slice chunk (a, chunk.length))⟩ := by
  induction ranges generalizing a st with
  | nil =>
    cases hranges
    cases parallel <;> simp [slice]
  | cons r ranges ih =>
    obtain ⟨rfl, hlt, hrest⟩ := hranges
    have hle := hrest.le
    have hdevice : (arange start n tile).getD ((cstart + r.1) / tile) 0 = cAbs + r.1 := by
      rw [(devicePos_eq_iff start (cstart + r.1) htile (by omega)).mpr (Nat.dvd_add hdvd (haligned r (by simp)))]
      omega
    rw [flatMap_cons, if_neg (hpos r (by simp)), hdevice, LayerState.after_append,
      ih hrest (fun q hq => haligned q (mem_cons_of_mem _ hq)) (fun q hq => hpos q (mem_cons_of_mem _ hq))]
    have hjoin := feed_slice_append chunk cAbs (le_of_lt hlt) hle (le_refl _)
    cases parallel <;> simp [LayerState.apply, ← hjoin]

theorem tile_dvd_of_mem (htile : 0 < tile) {stop : Nat} {r : Nat × Nat} (h : r ∈ regularRanges 0 stop tile) :
    tile ∣ r.1 := by
  obtain ⟨k, -, rfl⟩ := (mem_regularRanges htile).mp h
  exact ⟨k, by rw [Nat.zero_add, Nat.mul_comm]⟩

/-- A layer takes in a chunk that continues a sequence. -/
theorem after_attentionTiles_of_pos (htile : 0 < tile) (hoff : start + cstart = cAbs)
    (hfit : cstart + chunk.length ≤ n) (hdvd : tile ∣ cstart) (hpos : cAbs ≠ 0) (st : LayerState Token) :
    st.after i (attentionTiles tile (arange start n tile) false cAbs cstart chunk i layer) =
      ⟨st.window ++ feed cAbs chunk, st.compressor ++ feed cAbs chunk⟩ := by
  have h := after_tiles i layer false htile hoff hfit hdvd
    (tiles_regularRanges htile (Nat.zero_le _)) (fun r hr => tile_dvd_of_mem htile hr)
    (fun r _ => by omega) st
  rw [slice_all, Nat.add_zero] at h
  simpa [attentionTiles] using h

/-- A layer takes in the first chunk of a cold prefill; the compressors may run ahead of the window. -/
theorem after_attentionTiles_cold (htile : 0 < tile) (hfit : chunk.length ≤ n) (hne : 0 < chunk.length) :
    (held []).after i (attentionTiles tile (arange 0 n tile) parallel 0 0 chunk i layer) = held chunk := by
  have htiles := tiles_regularRanges htile (Nat.zero_le chunk.length)
  have hmem := fun r (hr : r ∈ regularRanges 0 chunk.length tile) => tile_dvd_of_mem htile hr
  rw [regularRanges_of_lt hne htile] at htiles hmem
  obtain ⟨-, hlt, hrest⟩ := htiles
  unfold attentionTiles
  rw [regularRanges_of_lt hne htile, flatMap_cons, LayerState.after_append,
    after_tiles i layer parallel htile rfl (by omega) (Nat.dvd_zero tile) hrest (fun r hr => hmem r (mem_cons_of_mem _ hr))
      (fun r hr => by have hbounds := hrest.bounds hr; simp only at hlt hbounds; omega)]
  have hjoin := feed_slice_append chunk 0 (Nat.zero_le _) hrest.le (Nat.le_refl _)
  simp only [Nat.zero_add, slice_all] at hjoin ⊢
  cases parallel with
  | false => simp [LayerState.apply, held, hjoin]
  | true =>
    have hdrop : (feed 0 chunk).drop (min tile chunk.length) =
        feed (min tile chunk.length) (slice chunk (min tile chunk.length, chunk.length)) := by
      rw [drop_feed, Nat.zero_add]
      simp [slice]
    simp [LayerState.apply, held, hdrop, hjoin]

theorem layer?_of_mem_attentionTiles {tilePositions : List Nat} {e : Event Token}
    (h : e ∈ attentionTiles tile tilePositions parallel cAbs cstart chunk i layer) : e.layer? = some i := by
  obtain ⟨r, -, he⟩ := mem_flatMap.mp h
  by_cases hzero : cAbs + r.1 = 0
  · rw [if_pos hzero] at he
    cases parallel with
    | false => rw [mem_singleton.mp he]; rfl
    | true =>
      simp only [if_true, mem_cons, not_mem_nil, or_false] at he
      obtain rfl | rfl := he <;> rfl
  · rw [if_neg hzero] at he
    rw [mem_singleton.mp he]
    rfl

theorem positionsAgree_of_mem_attentionTiles (htile : 0 < tile) (hoff : start + cstart = cAbs)
    (hfit : cstart + chunk.length ≤ n) (hdvd : tile ∣ cstart) {e : Event Token}
    (h : e ∈ attentionTiles tile (arange start n tile) parallel cAbs cstart chunk i layer) : e.PositionsAgree := by
  obtain ⟨r, hr, he⟩ := mem_flatMap.mp h
  by_cases hzero : cAbs + r.1 = 0
  · rw [if_pos hzero] at he
    cases parallel with
    | false => rw [mem_singleton.mp he]; trivial
    | true =>
      simp only [if_true, mem_cons, not_mem_nil, or_false] at he
      obtain rfl | rfl := he <;> trivial
  · rw [if_neg hzero] at he
    rw [mem_singleton.mp he]
    have hbounds := (tiles_regularRanges htile (Nat.zero_le chunk.length)).bounds hr
    have hdevice := (devicePos_eq_iff (n := n) start (cstart + r.1) htile (by omega)).mpr
      (Nat.dvd_add hdvd (tile_dvd_of_mem htile hr))
    simp only [Event.PositionsAgree, hdevice]
    omega

end Layers

section Calls

variable {i : Nat} {events : List (Event Token)}

theorem apply_of_layer?_ne {e : Event Token} (h : e.layer? ≠ some i) (st : LayerState Token) : st.apply i e = st := by
  cases e with
  | checkpoint length => rfl
  | resetCaches j | forward j rows | precompute j completedRows rows | tile j hostPos devicePos entries pre rows =>
    have hne : j ≠ i := fun heq => h (congrArg some heq)
    simp [LayerState.apply, hne]

/-- Calls of the other layers leave a layer's state alone. -/
theorem after_of_layer?_ne (h : ∀ e ∈ events, e.layer? ≠ some i) (st : LayerState Token) : st.after i events = st := by
  induction events with
  | nil => rfl
  | cons e events ih =>
    rw [LayerState.after_cons, apply_of_layer?_ne (h e (by simp)), ih fun q hq => h q (mem_cons_of_mem _ hq)]

theorem checkpointsHold_append {prompt : List Token} (xs ys : List (Event Token)) (st : LayerState Token) :
    CheckpointsHold prompt i st (xs ++ ys) ↔
      CheckpointsHold prompt i st xs ∧ CheckpointsHold prompt i (st.after i xs) ys := by
  induction xs generalizing st with
  | nil => simp [CheckpointsHold]
  | cons e xs ih => simp [CheckpointsHold, ih, and_assoc]

theorem checkpointsHold_of_calls {prompt : List Token} (h : ∀ e ∈ events, e.layer? ≠ none) (st : LayerState Token) :
    CheckpointsHold prompt i st events := by
  induction events generalizing st with
  | nil => trivial
  | cons e events ih =>
    refine ⟨fun length he => ?_, ih (fun q hq => h q (mem_cons_of_mem _ hq)) _⟩
    exact absurd (congrArg Event.layer? he) (h e (by simp))

/-- The window grows by what the layer is fed. -/
theorem window_after (st : LayerState Token) :
    (st.after i events).window = st.window ++ events.flatMap (Event.fedTo i) := by
  induction events generalizing st with
  | nil => simp
  | cons e events ih =>
    rw [LayerState.after_cons, ih, flatMap_cons, ← append_assoc]
    congr 1
    cases e with
    | checkpoint length => simp [LayerState.apply, Event.fedTo]
    | resetCaches j | forward j rows | precompute j completedRows rows | tile j hostPos devicePos entries pre rows =>
      by_cases hj : j = i <;> simp [LayerState.apply, Event.fedTo, hj]

end Calls

theorem held_append (xs ys : List Token) :
    held (xs ++ ys) = ⟨(held xs).window ++ feed xs.length ys, (held xs).compressor ++ feed xs.length ys⟩ := by
  simp [held, feed_append]

section Chunks

variable {s : Setup} {slot prefixLen : Nat} {prompt : List Token} {r : Nat × Nat}

theorem take_slice (prefixLen : Nat) (prompt : List Token) {r : Nat × Nat} (hr : r.1 ≤ r.2) :
    prompt.take (prefixLen + r.2) = prompt.take (prefixLen + r.1) ++ slice (prompt.drop prefixLen) r := by
  have hcut := take_append_drop (prefixLen + r.1) (prompt.take (prefixLen + r.2))
  rw [take_take, min_eq_left (by omega)] at hcut
  rw [← hcut]
  congr 1
  rw [slice, take_drop, drop_drop]

variable (hlt : r.1 < r.2) (hlen : r.2 ≤ (prompt.drop prefixLen).length) (hdvd : s.tile ∣ r.1)

include hlt hlen hdvd

theorem after_layerEvents (i : Nat) (layer : Layer) :
    (held (prompt.take (prefixLen + r.1))).after i (s.layerEvents slot prefixLen
        (arange prefixLen (prompt.drop prefixLen).length s.tile) r.1 (slice (prompt.drop prefixLen) r) i layer) =
      held (prompt.take (prefixLen + r.2)) := by
  have hchunk : (slice (prompt.drop prefixLen) r).length = r.2 - r.1 := length_slice hlen
  have htake := take_slice prefixLen prompt (le_of_lt hlt)
  unfold Setup.layerEvents
  by_cases hzero : prefixLen + r.1 = 0
  · obtain ⟨rfl, hstart⟩ := Nat.add_eq_zero_iff.mp hzero
    rw [hstart] at htake ⊢
    simp only [Nat.zero_add, take_zero, nil_append] at htake ⊢
    rw [htake]
    by_cases hgraph : s.superchunkGraph = true ∧ graphMatches slot 0 s.tile (slice (prompt.drop 0) r).length
    · rw [if_pos hgraph, replayLayer, LayerState.after_cons]
      have hreset : (held ([] : List Token)).apply i (.resetCaches i) = held [] := by simp [LayerState.apply, held]
      rw [hreset, after_attentionTiles_cold (by decide) (le_of_eq hgraph.2.2.2.2) (by omega)]
    · rw [if_neg hgraph, after_attentionTiles_cold s.tile_pos (by omega) (by omega)]
  · have hnot : ¬(s.superchunkGraph = true ∧
        graphMatches slot (prefixLen + r.1) s.tile (slice (prompt.drop prefixLen) r).length) :=
      fun hgraph => hzero hgraph.2.2.1
    have hparallel : s.parallelCompressors (prefixLen + r.1) (slice (prompt.drop prefixLen) r).length = false := by
      simp [Setup.parallelCompressors, beq_eq_false_iff_ne.mpr hzero]
    have hstart : (prompt.take (prefixLen + r.1)).length = prefixLen + r.1 := by
      rw [length_take]
      simp only [length_drop] at hlen
      omega
    rw [if_neg hnot, hparallel, after_attentionTiles_of_pos s.tile_pos rfl (by omega) hdvd hzero, htake, held_append,
      hstart]

theorem positionsAgree_layerEvents (i : Nat) (layer : Layer) {e : Event Token}
    (he : e ∈ s.layerEvents slot prefixLen (arange prefixLen (prompt.drop prefixLen).length s.tile) r.1
      (slice (prompt.drop prefixLen) r) i layer) : e.PositionsAgree := by
  have hchunk : (slice (prompt.drop prefixLen) r).length = r.2 - r.1 := length_slice hlen
  unfold Setup.layerEvents at he
  by_cases hgraph : s.superchunkGraph = true ∧
      graphMatches slot (prefixLen + r.1) s.tile (slice (prompt.drop prefixLen) r).length
  · rw [if_pos hgraph, replayLayer, mem_cons] at he
    cases he with
    | inl he => rw [he]; trivial
    | inr he =>
      exact positionsAgree_of_mem_attentionTiles (by decide) rfl
        (by rw [Nat.zero_add]; exact Nat.le_of_eq hgraph.2.2.2.2) (Nat.dvd_zero _) he
  · rw [if_neg hgraph] at he
    exact positionsAgree_of_mem_attentionTiles s.tile_pos rfl (by omega) hdvd he

end Chunks

theorem layer?_of_mem_layerEvents {s : Setup} {slot prefixLen cstart i : Nat} {tilePositions : List Nat}
    {chunk : List Token} {layer : Layer} {e : Event Token}
    (h : e ∈ s.layerEvents slot prefixLen tilePositions cstart chunk i layer) : e.layer? = some i := by
  unfold Setup.layerEvents at h
  by_cases hgraph : s.superchunkGraph = true ∧ graphMatches slot (prefixLen + cstart) s.tile chunk.length
  · rw [if_pos hgraph, replayLayer, mem_cons] at h
    cases h with
    | inl h => rw [h]; rfl
    | inr h => exact layer?_of_mem_attentionTiles h
  · rw [if_neg hgraph] at h
    exact layer?_of_mem_attentionTiles h

/-- In a pass over the layers a layer's state changes by its own calls. -/
theorem after_layers {i : Nat} {f : Nat → Layer → List (Event Token)}
    (hcalls : ∀ j layer, ∀ e ∈ f j layer, e.layer? = some j) {st st' : LayerState Token}
    (hown : ∀ layer, st.after i (f i layer) = st') {layers : List Layer} {k : Nat} (hk : k ≤ i)
    (hi : i < k + layers.length) : st.after i ((layers.zipIdx k).flatMap fun p => f p.2 p.1) = st' := by
  induction layers generalizing k with
  | nil => exact absurd hi (not_lt.mpr hk)
  | cons layer layers ih =>
    rw [zipIdx_cons, flatMap_cons, LayerState.after_append]
    by_cases hki : k = i
    · subst hki
      have hrest : ∀ e ∈ (layers.zipIdx (k + 1)).flatMap (fun p => f p.2 p.1), e.layer? ≠ some k := by
        intro e he
        obtain ⟨p, hp, he⟩ := mem_flatMap.mp he
        rw [hcalls _ _ e he]
        have hle := le_snd_of_mem_zipIdx hp
        simp only [ne_eq, Option.some.injEq]
        omega
      rw [hown, after_of_layer?_ne hrest]
    · have hother : ∀ e ∈ f k layer, e.layer? ≠ some i := by
        intro e he
        rw [hcalls _ _ e he]
        simpa using hki
      rw [after_of_layer?_ne hother]
      rw [length_cons] at hi
      exact ih (by omega) (by omega)

section Runs

variable {s : Setup} {slot prefixLen : Nat} {prompt : List Token}

theorem after_chunkEvents (slot : Nat) {i : Nat} (hi : i < s.layers.length) {r : Nat × Nat} (hlt : r.1 < r.2)
    (hlen : r.2 ≤ (prompt.drop prefixLen).length) (hdvd : s.tile ∣ r.1) :
    (held (prompt.take (prefixLen + r.1))).after i (s.chunkEvents slot prefixLen (prompt.drop prefixLen) r) =
        held (prompt.take (prefixLen + r.2)) ∧
      CheckpointsHold prompt i (held (prompt.take (prefixLen + r.1)))
        (s.chunkEvents slot prefixLen (prompt.drop prefixLen) r) := by
  have hlayers := after_layers
    (f := s.layerEvents slot prefixLen (arange prefixLen (prompt.drop prefixLen).length s.tile) r.1
      (slice (prompt.drop prefixLen) r))
    (fun j layer e he => layer?_of_mem_layerEvents he)
    (fun layer => after_layerEvents hlt hlen hdvd i layer) (Nat.zero_le i) (by rwa [Nat.zero_add])
  unfold Setup.chunkEvents
  rw [LayerState.after_append, checkpointsHold_append, hlayers]
  have hcalls : ∀ e ∈ s.layers.zipIdx.flatMap fun layer => s.layerEvents slot prefixLen
      (arange prefixLen (prompt.drop prefixLen).length s.tile) r.1 (slice (prompt.drop prefixLen) r) layer.2 layer.1,
      e.layer? ≠ none := by
    intro e he
    obtain ⟨p, -, he⟩ := mem_flatMap.mp he
    rw [layer?_of_mem_layerEvents he]
    exact Option.some_ne_none _
  by_cases hblock : (prefixLen + r.2) % prefixBlockSize = 0
  · rw [if_pos hblock]
    refine ⟨rfl, checkpointsHold_of_calls hcalls _, fun length he => ?_, trivial⟩
    rw [Event.checkpoint.inj he]
  · rw [if_neg hblock]
    exact ⟨rfl, checkpointsHold_of_calls hcalls _, trivial⟩

/-- Chunk after chunk the state of a layer is that of the tokens so far. -/
theorem after_chunks (slot : Nat) {i : Nat} (hi : i < s.layers.length) {a : Nat} {ranges : List (Nat × Nat)}
    (hranges : Tiles a (prompt.drop prefixLen).length ranges) (hdvd : ∀ r ∈ ranges, s.tile ∣ r.1) :
    (held (prompt.take (prefixLen + a))).after i
          (ranges.flatMap (s.chunkEvents slot prefixLen (prompt.drop prefixLen))) =
        held (prompt.take (prefixLen + (prompt.drop prefixLen).length)) ∧
      CheckpointsHold prompt i (held (prompt.take (prefixLen + a)))
        (ranges.flatMap (s.chunkEvents slot prefixLen (prompt.drop prefixLen))) := by
  induction ranges generalizing a with
  | nil =>
    cases hranges
    exact ⟨rfl, trivial⟩
  | cons r ranges ih =>
    obtain ⟨rfl, hlt, hrest⟩ := hranges
    obtain ⟨hstate, hchecks⟩ := after_chunkEvents slot hi hlt hrest.le (hdvd r (by simp))
    have htail := ih hrest fun q hq => hdvd q (mem_cons_of_mem _ hq)
    rw [flatMap_cons, LayerState.after_append, checkpointsHold_append, hstate]
    exact ⟨htail.1, hchecks, htail.2⟩

theorem positionsAgree_chunkEvents {r : Nat × Nat} (hlt : r.1 < r.2) (hlen : r.2 ≤ (prompt.drop prefixLen).length)
    (hdvd : s.tile ∣ r.1) : ∀ e ∈ s.chunkEvents slot prefixLen (prompt.drop prefixLen) r, e.PositionsAgree := by
  intro e he
  rw [Setup.chunkEvents, mem_append] at he
  cases he with
  | inl he =>
    obtain ⟨p, -, he⟩ := mem_flatMap.mp he
    exact positionsAgree_layerEvents hlt hlen hdvd _ _ he
  | inr he =>
    by_cases hblock : (prefixLen + r.2) % prefixBlockSize = 0
    · rw [if_pos hblock] at he
      rw [mem_singleton.mp he]
      trivial
    · simp [hblock] at he

theorem exact_of_dvd {ranges : List (Nat × Nat)} (hranges : Tiles 0 (prompt.drop prefixLen).length ranges)
    (hshort : prefixLen ≤ prompt.length) (hdvd : ∀ r ∈ ranges, s.tile ∣ r.1) :
    Exact s prompt prefixLen (ranges.flatMap (s.chunkEvents slot prefixLen (prompt.drop prefixLen))) := by
  have hall : prefixLen + (prompt.drop prefixLen).length = prompt.length := by
    rw [length_drop]
    omega
  constructor
  · intro i hi
    have hstate := (after_chunks slot hi hranges hdvd).1
    have hwindow := congrArg LayerState.window hstate
    rw [window_after, hall, take_length, Nat.add_zero] at hwindow
    have hsplit := feed_append 0 (prompt.take prefixLen) (prompt.drop prefixLen)
    rw [take_append_drop, length_take, Nat.min_eq_left hshort, Nat.zero_add] at hsplit
    exact append_cancel_left (hwindow.trans hsplit)
  · intro e he
    obtain ⟨r, hr, he⟩ := mem_flatMap.mp he
    have hbounds := hranges.bounds hr
    exact positionsAgree_chunkEvents hbounds.2.1 hbounds.2.2 (hdvd r hr) e he
  · intro i hi
    exact (after_chunks slot hi hranges hdvd).2

end Runs

section Alignment

variable {n moeChunk tile : Nat}

theorem chunkRows_pos (n moeChunk : Nat) : 0 < chunkRows n moeChunk := by
  unfold chunkRows prefixBlockSize
  simp only
  split <;> omega

theorem aligned_iff (hn : 0 < n) :
    Aligned n moeChunk tile ↔ n ≤ chunkRows n moeChunk ∨ tile ∣ chunkRows n moeChunk := by
  unfold Aligned chunkRows prefixBlockSize
  simp only
  by_cases hone : n ≤ max 1 moeChunk
  · have hrows : max 1 (min n moeChunk) = n := by omega
    rw [if_pos hone, hrows]
    by_cases hblock : 256 ≤ n
    · rw [if_pos hblock]
      have hle : n ≤ n / 256 * 256 ↔ n % 256 = 0 := by omega
      rw [hle, or_iff_right (Nat.not_lt.mpr hblock)]
    · simp [hblock, Nat.lt_of_not_le hblock]
  · have hrows : max 1 (min n moeChunk) = max 1 moeChunk := by omega
    rw [if_neg hone, hrows]
    by_cases hblock : 256 ≤ moeChunk
    · have hmax : max 1 moeChunk = moeChunk := by omega
      rw [if_neg (Nat.not_lt.mpr hblock), hmax, if_pos hblock, or_iff_right (by omega)]
    · rw [if_pos (Nat.lt_of_not_le hblock), if_neg (by omega), or_iff_right hone]

theorem dvd_of_aligned (haligned : n ≤ chunkRows n moeChunk ∨ tile ∣ chunkRows n moeChunk) :
    ∀ r ∈ regularRanges 0 n (chunkRows n moeChunk), tile ∣ r.1 := by
  intro r hr
  obtain ⟨k, hk, rfl⟩ := (mem_regularRanges (chunkRows_pos n moeChunk)).mp hr
  simp only [Nat.zero_add] at hk ⊢
  cases haligned with
  | inl hone =>
    cases k with
    | zero => exact ⟨0, by simp⟩
    | succ k =>
      rw [Nat.succ_mul] at hk
      omega
  | inr hdvd => exact Nat.dvd_mul_left_of_dvd hdvd k

end Alignment

/-- The second chunk's first tile, on the first layer, reads the position of an earlier tile. -/
theorem not_exact_of_not_dvd {s : Setup} {slot prefixLen : Nat} {prompt : List Token} {c : Nat} (hc : 0 < c)
    (hlt : c < (prompt.drop prefixLen).length) (hdvd : ¬s.tile ∣ c) :
    ¬Exact s prompt prefixLen
      ((regularRanges 0 (prompt.drop prefixLen).length c).flatMap
        (s.chunkEvents slot prefixLen (prompt.drop prefixLen))) := by
  intro hexact
  obtain ⟨layer, layers, hlayers⟩ := exists_cons_of_ne_nil s.layers_ne
  let r : Nat × Nat := (c, min (c + c) (prompt.drop prefixLen).length)
  have hr : r ∈ regularRanges 0 (prompt.drop prefixLen).length c :=
    (mem_regularRanges hc).mpr ⟨1, by omega, by simp [r]⟩
  have hchunk : (slice (prompt.drop prefixLen) r).length = r.2 - c := length_slice (min_le_right _ _)
  have hpos : 0 < (slice (prompt.drop prefixLen) r).length := by
    rw [hchunk]
    simp only [r]
    omega
  have hnot : ¬(s.superchunkGraph = true ∧
      graphMatches slot (prefixLen + c) s.tile (slice (prompt.drop prefixLen) r).length) :=
    fun hgraph => by have hzero := hgraph.2.2.1; omega
  have hagree := hexact.positions
    (.tile 0 (prefixLen + c) ((arange prefixLen (prompt.drop prefixLen).length s.tile).getD (c / s.tile) 0)
      ((prefixLen + c + min s.tile (slice (prompt.drop prefixLen) r).length) / layer.ratio)
      (s.parallelCompressors (prefixLen + c) (slice (prompt.drop prefixLen) r).length)
      (slice (slice (prompt.drop prefixLen) r) (0, min s.tile (slice (prompt.drop prefixLen) r).length)))
    (by
      refine mem_flatMap.mpr ⟨r, hr, mem_append_left _ (mem_flatMap.mpr ⟨(layer, 0), ?_, ?_⟩)⟩
      · simp [hlayers]
      · unfold Setup.layerEvents attentionTiles
        rw [if_neg hnot, regularRanges_of_lt hpos s.tile_pos, flatMap_cons]
        refine mem_append_left _ ?_
        rw [if_neg (by simp only [r]; omega)]
        simp [r])
  simp only [Event.PositionsAgree] at hagree
  exact hdvd ((devicePos_eq_iff prefixLen c s.tile_pos hlt).mp hagree)

theorem prefill_ok (s : Setup) (slot : Nat) {prefixLen : Nat} {prompt : List Token}
    (hne : (prompt.drop prefixLen).length ≠ 0) :
    s.prefillSuperchunkLogits slot 0 prompt prefixLen =
      .ok ((regularRanges 0 (prompt.drop prefixLen).length (chunkRows (prompt.drop prefixLen).length s.moeChunk)).flatMap
        (s.chunkEvents slot prefixLen (prompt.drop prefixLen))) := by
  simp only [Setup.prefillSuperchunkLogits]
  rw [if_neg (by simp), if_neg hne]

/-- A prefill feeds every layer the suffix at its positions, and takes its checkpoints in the stated states, exactly
where the chunks start on tiles. -/
theorem prefill_exact_iff {s : Setup} {slot kvLen prefixLen : Nat} {prompt : List Token} {events : List (Event Token)}
    (h : s.prefillSuperchunkLogits slot kvLen prompt prefixLen = .ok events) :
    Exact s prompt prefixLen events ↔ Aligned (prompt.length - prefixLen) s.moeChunk s.tile := by
  unfold Setup.prefillSuperchunkLogits at h
  simp only at h
  split at h
  · cases h
  · split at h
    · cases h
    · rename_i hne
      cases h
      have hpos := Nat.pos_of_ne_zero hne
      have hrows := chunkRows_pos (prompt.drop prefixLen).length s.moeChunk
      rw [← length_drop, aligned_iff hpos]
      constructor
      · intro hexact
        by_contra hnot
        rw [not_or, not_le] at hnot
        exact not_exact_of_not_dvd hrows hnot.1 hnot.2 hexact
      · intro haligned
        rw [length_drop] at hpos
        exact exact_of_dvd (tiles_regularRanges hrows (Nat.zero_le _)) (by omega) (dvd_of_aligned haligned)

/-- The default chunk of 2048 rows with a tile of 96. -/
def rows96 : Setup where
  layers := [⟨4, true⟩, ⟨128, true⟩]
  tile := 96
  moeChunk := 2048
  superchunkGraph := false
  layers_ne := by decide
  tile_pos := by decide

/-- Three chunks of a prompt in tiles of 64. -/
theorem prefill_exact_iff_chunks : let s := { rows96 with tile := 64, tile_pos := by decide }
    ∃ events, s.prefillSuperchunkLogits 0 0 (replicate 5000 7) 0 = .ok events ∧ Exact s (replicate 5000 7) 0 events := by
  intro s
  have hlen : ((replicate 5000 7).drop 0).length = 5000 := by rw [drop_zero, length_replicate]
  have hrun := prefill_ok s 0 (by rw [hlen]; decide)
  have hrows : 64 ∣ chunkRows 5000 2048 := by decide
  refine ⟨_, hrun, (prefill_exact_iff hrun).mpr ?_⟩
  rw [length_replicate]
  exact (aligned_iff (by decide)).mpr (.inr hrows)

/-- Position 2048 is not a multiple of 96: its tile is told position 2016. -/
theorem second_chunk_misplaced :
    ∃ events, rows96.prefillSuperchunkLogits 0 0 (replicate 2049 7) 0 = .ok events ∧
      ¬Exact rows96 (replicate 2049 7) 0 events := by
  have hlen : ((replicate 2049 7).drop 0).length = 2049 := by rw [drop_zero, length_replicate]
  have hrows : chunkRows 2049 rows96.moeChunk = 2048 := by decide
  refine ⟨_, prefill_ok rows96 0 (by rw [hlen]; decide), not_exact_of_not_dvd (chunkRows_pos _ _) ?_ ?_⟩
  · rw [hlen, hrows]
    decide
  · rw [hlen, hrows]
    decide

end Dsv4Superchunk
