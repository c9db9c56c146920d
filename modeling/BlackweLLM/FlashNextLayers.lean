import BlackweLLM.Cascade
import BlackweLLM.FlashNextRope
import BlackweLLM.LagunaRing
import Mathlib.Data.List.DropRight

/-!
# Flash-Next target layers

The target of `runtime/model/flashnext`: its layers with the pools they keep
(`qsa.py`), a decode step (`model.py`), and the fixed-width verify body with its
commit (`spec.py`). Tensors are values of a type `V`, one for each row.
-/

namespace FlashNext

open List

open LagunaRing (scatter)

variable {V : Type}

def compressRatio : ℕ := 4

/-- The state before the row, the n-gram embedding and the row. -/
structure Ple (V : Type) where
  conv : V → V → V → V
  inject : V → V → V → V

/-- The state before the row and the row. -/
structure Gdn (V : Type) where
  recur : V → V → V
  attn : V → V → V

structure Qsa (V : Type) where
  ki : Rope → V → V
  kv : Rope → V → V
  pool : List V → Rope → V
  attend : Rope → V → List V → List V → V

inductive Attention (V : Type) where
  | gdn (G : Gdn V)
  | qsa (Q : Qsa V)

structure Layer (V : Type) where
  ple : Option (Ple V)
  attn : Attention V
  combine : V → V → V

structure Model (V : Type) where
  layers : List (Layer V)
  embed : ℕ → V
  pleEmbed : List ℕ → V
  lmHead : V → V
  eosTokenId : ℕ
  ngramSize : ℕ
  ngram_pos : 0 < ngramSize
  maxSeq : ℕ
  k : ℕ
  indexRing : Bool
  mrope : Bool
  zero : V

namespace Model

variable (M : Model V)

def qoLen : ℕ := M.k + 1

/-- `qsa_index_cache_rows`, for the `fixed_index_rows` of the backend. -/
def indexRows : ℕ :=
  if M.indexRing then min M.maxSeq (max (2 * compressRatio) (compressRatio + M.qoLen)) else M.maxSeq

def hasPle : Bool := M.layers.any fun L => L.ple.isSome

/-- `ple_emb_buf`, which stays zero where no layer injects it. -/
def pleRow (ids : List ℕ) : V := if M.hasPle then M.pleEmbed ids else M.zero

end Model

/-- What a row of the body is given beside its residual stream. -/
structure Row (V : Type) where
  position : ℕ
  rope : Rope
  ple : V

/-- The state of a layer's attention: recurrent, or its pools. -/
structure AttnState (V : Type) where
  gdn : V
  kvPool : ℕ → V
  idxKPool : ℕ → V
  idxRopePool : ℕ → Rope
  pooledKPool : ℕ → V

/-- `ple_conv_state` and the attention's state. -/
abbrev LayerState (V : Type) := V × AttnState V

section Layers

variable (M : Model V)

/-- The pooled key of a group, from the raw rows that the pool holds for it. -/
def pooledGroup (Q : Qsa V) (c : AttnState V) (group : ℕ) : V :=
  Q.pool ((range compressRatio).map fun offset => c.idxKPool ((group * compressRatio + offset) % M.indexRows))
    (if M.mrope then c.idxRopePool (group * compressRatio % M.indexRows) else axes (group * compressRatio))

/-- `update_index_cache_fixed`: the raw rows are written before any group is pooled. -/
def updateIndexCacheFixed (Q : Qsa V) (c : AttnState V) (rows : List (Row V × V)) : AttnState V :=
  let raw : AttnState V := { c with
    idxKPool := scatter c.idxKPool (rows.map fun r => (r.1.position % M.indexRows, Q.ki r.1.rope r.2))
    idxRopePool := if M.mrope then scatter c.idxRopePool (rows.map fun r => (r.1.position % M.indexRows, r.1.rope))
      else c.idxRopePool }
  { raw with
    pooledKPool := scatter c.pooledKPool (rows.map fun r =>
      (r.1.position / compressRatio, pooledGroup M Q raw (r.1.position / compressRatio))) }

def writeKv (Q : Qsa V) (c : AttnState V) (rows : List (Row V × V)) : AttnState V :=
  { c with kvPool := scatter c.kvPool (rows.map fun r => (r.1.position, Q.kv r.1.rope r.2)) }

def ends (position : ℕ) : ℕ := (((position : ℤ) - 3) / compressRatio + 1).toNat

/-- `score_blocks`, `select_blocks` and the gathered attention of one row. -/
def attendRow (Q : Qsa V) (c : AttnState V) (r : Row V × V) : V :=
  Q.attend r.1.rope r.2 ((range (ends r.1.position)).map c.pooledKPool)
    ((range (r.1.position + 1)).map c.kvPool)

def pleStep (L : Layer V) (state : V) (r : Row V × V) : V × (Row V × V) :=
  match L.ple with
  | none => (state, r)
  | some P => (P.conv state r.1.ple r.2, (r.1, P.inject state r.1.ple r.2))

def gdnStep (L : Layer V) (G : Gdn V) (c : AttnState V) (r : Row V × V) : AttnState V × (Row V × V) :=
  ({ c with gdn := G.recur c.gdn r.2 }, (r.1, L.combine r.2 (G.attn c.gdn r.2)))

def qsaStep (L : Layer V) (Q : Qsa V) (c : AttnState V) (r : Row V × V) : AttnState V × (Row V × V) :=
  let c' := writeKv Q (updateIndexCacheFixed M Q c [r]) [r]
  (c', (r.1, L.combine r.2 (attendRow Q c' r)))

def attnStep (L : Layer V) : AttnState V → Row V × V → AttnState V × (Row V × V) :=
  match L.attn with
  | .gdn G => gdnStep L G
  | .qsa Q => qsaStep M L Q

def decodeLayer (L : Layer V) : LayerState V → Row V × V → LayerState V × (Row V × V) :=
  Cascade.comp (pleStep L) (attnStep M L)

/-- The candidates that the verify buffers keep for the commit. -/
structure Candidates (V : Type) where
  pleRows : List V
  gdnRows : List V

/-- The attention of `verify_body`. The recurrent state stays the live one; the rows of a QSA layer
are all written before the first of them attends, unless `sequential_qsa` is set. -/
def verifyAttn (sequentialQsa : Bool) (L : Layer V) (c : AttnState V) (rows : List (Row V × V)) :
    AttnState V × List V × List (Row V × V) :=
  match L.attn with
  | .gdn G => (c, (Cascade.scan (gdnStep L G) c rows).map AttnState.gdn, (Cascade.run (gdnStep L G) c rows).2)
  | .qsa Q =>
    if sequentialQsa then
      let done := Cascade.run (qsaStep M L Q) c rows
      (done.1, [], done.2)
    else
      let c' := writeKv Q (updateIndexCacheFixed M Q c rows) rows
      (c', [], rows.map fun r => (r.1, L.combine r.2 (attendRow Q c' r)))

def verifyLayer (sequentialQsa : Bool) (L : Layer V) (c : LayerState V) (rows : List (Row V × V)) :
    LayerState V × Candidates V × List (Row V × V) :=
  let injected := (Cascade.run (pleStep L) c.1 rows).2
  let done := verifyAttn M sequentialQsa L c.2 injected
  ((c.1, done.1), ⟨Cascade.scan (pleStep L) c.1 rows, done.2.1⟩, done.2.2)

def verifyLayers (sequentialQsa : Bool) : List (Layer V) → List (LayerState V) → List (Row V × V) →
    List (LayerState V) × List (Candidates V) × List (Row V × V)
  | L :: Ls, c :: cs, rows =>
    let first := verifyLayer M sequentialQsa L c rows
    let rest := verifyLayers sequentialQsa Ls cs first.2.2
    (first.1 :: rest.1, first.2.1 :: rest.2.1, rest.2.2)
  | _, cs, rows => (cs, [], rows)

/-- `pool[rows].zero_()`. -/
def fill {A : Type} (pool : ℕ → A) (cells : List ℕ) (value : A) : ℕ → A :=
  scatter pool (cells.map fun cell => (cell, value))

def rollbackSpeculativeQsa (Q : Qsa V) (c : AttnState V) (pastLen committedEnd : ℕ) : AttnState V :=
  let verifyEnd := pastLen + M.qoLen
  if committedEnd = verifyEnd then c
  else
    let rejected := range' committedEnd (verifyEnd - committedEnd)
    let raw : AttnState V := { c with
      idxKPool := fill c.idxKPool (rejected.map (· % M.indexRows)) M.zero
      idxRopePool := if M.mrope then fill c.idxRopePool (rejected.map (· % M.indexRows)) (axes 0) else c.idxRopePool
      kvPool := fill c.kvPool rejected M.zero }
    let firstGroup := pastLen / compressRatio
    let lastGroup := (verifyEnd + compressRatio - 1) / compressRatio
    { raw with
      pooledKPool := scatter c.pooledKPool ((range' firstGroup (lastGroup - firstGroup)).map fun group =>
        (group, if group * compressRatio + compressRatio ≤ committedEnd then pooledGroup M Q raw group else M.zero)) }

/-- `commit` of one layer: the pools are rolled back, a recurrent state is the last committed row's. -/
def commitLayer (L : Layer V) (c : LayerState V) (rows : Candidates V) (pastLen accepted : ℕ) : LayerState V :=
  let ple := match L.ple with
    | none => c.1
    | some _ => rows.pleRows.getD (accepted - 1) c.1
  (ple, match L.attn with
    | .gdn _ => { c.2 with gdn := rows.gdnRows.getD (accepted - 1) c.2.gdn }
    | .qsa Q => rollbackSpeculativeQsa M Q c.2 pastLen (pastLen + accepted))

def commitLayers (pastLen accepted : ℕ) : List (Layer V) → List (LayerState V) → List (Candidates V) →
    List (LayerState V)
  | L :: Ls, c :: cs, rows :: rest =>
    commitLayer M L c rows pastLen accepted :: commitLayers pastLen accepted Ls cs rest
  | _, cs, _ => cs

end Layers

section Window

/-- `_shift` of the last token: the token `n` steps back, or EOS before its segment. -/
def shift (eos : ℕ) (tokens : List ℕ) (n : ℕ) : ℕ :=
  let back := tokens.reverse
  if n < back.length ∧ eos ∉ back.tail.take n then back.getD n eos else eos

/-- The n-gram of the last token, as `sequence_ids` hashes it. -/
def ngram (eos size : ℕ) (tokens : List ℕ) : List ℕ := (range size).map (shift eos tokens)

def sequenceIds (eos size : ℕ) (history : List ℕ) : List (List ℕ) :=
  (range history.length).map fun i => ngram eos size (history.take (i + 1))

/-- The tokens that the session keeps for the n-grams. -/
abbrev Window (size : ℕ) := {tokens : List ℕ // tokens.length ≤ size}

variable {size : ℕ}

/-- `window = [*window, *tokens][-ngram_size:]`. -/
def Window.extend (w : Window size) (tokens : List ℕ) : Window size :=
  ⟨(w.1 ++ tokens).rtake size, by rw [rtake, length_drop]; omega⟩

/-- The window of `ple_prelude`. -/
def Window.append (w : Window size) (token : ℕ) : Window size :=
  ⟨if (w.1 ++ [token]).length > size then (w.1 ++ [token]).tail else w.1 ++ [token], by
    have hw := w.2
    split <;> simp_all⟩

end Window

/-- `FlashNextSession`, as a captured slot uses it. -/
structure Session (M : Model V) where
  pos : ℕ
  ropeNext : Option Rope
  window : Window M.ngramSize
  layers : List (LayerState V)

section Steps

variable {M : Model V}

/-- `rope_pos_buf` of a decode step. -/
def Session.rope (s : Session M) : Rope :=
  if M.mrope then s.ropeNext.getD (axes s.pos) else axes s.pos

def Session.nextWindow (s : Session M) (token : ℕ) : Window M.ngramSize :=
  if M.hasPle then s.window.append token else s.window

/-- `FlashNextGraphEngine.step`. -/
def decodeStep (s : Session M) (token : ℕ) : Session M × V :=
  let window := s.nextWindow token
  let row : Row V := ⟨s.pos, s.rope, M.pleRow (ngram M.eosTokenId M.ngramSize window.1)⟩
  let done := Cascade.through (decodeLayer M) M.layers s.layers (row, M.embed token)
  (⟨s.pos + 1, s.ropeNext.map (ropeAdd · 1), window, done.1⟩, M.lmHead done.2.2)

/-- What `FlashNextVerifyGraph` keeps between the body and the commit. -/
structure Verified (V : Type) where
  lastTokens : List ℕ
  lastPastLen : ℕ
  rows : List (Candidates V)

/-- The rows of a verify block: plain positions, and the n-grams after the session's window. -/
def verifyRows (s : Session M) (tokens : List ℕ) : List (Row V × V) :=
  let ids := (sequenceIds M.eosTokenId M.ngramSize (s.window.1 ++ tokens)).drop s.window.1.length
  tokens.mapIdx fun i token => (⟨s.pos + i, axes (s.pos + i), M.pleRow (ids.getD i [])⟩, M.embed token)

def VerifyFits (M : Model V) (sequentialQsa : Bool) (pos : ℕ) (tokens : List ℕ) : Prop :=
  1 ≤ M.k ∧ tokens.length = M.qoLen ∧ pos + M.qoLen ≤ M.maxSeq ∧
    compressRatio + (if sequentialQsa then 1 else M.qoLen) ≤ M.indexRows

instance (sequentialQsa : Bool) (pos : ℕ) (tokens : List ℕ) : Decidable (VerifyFits M sequentialQsa pos tokens) :=
  inferInstanceAs (Decidable (_ ∧ _))

/-- `verify_body` at the session's own position: the hidden rows and their logits. -/
def verifyBody (sequentialQsa : Bool) (s : Session M) (tokens : List ℕ) :
    Option (Session M × Verified V × List V × List V) :=
  if VerifyFits M sequentialQsa s.pos tokens then
    let done := verifyLayers M sequentialQsa M.layers s.layers (verifyRows s tokens)
    some ({ s with layers := done.1 }, ⟨tokens, s.pos, done.2.1⟩, done.2.2.map Prod.snd,
      done.2.2.map fun r => M.lmHead r.2)
  else none

def commit (s : Session M) (verified : Verified V) (accepted : ℕ) : Option (Session M) :=
  if 1 ≤ accepted ∧ accepted ≤ M.qoLen then
    some { s with
      layers := commitLayers M verified.lastPastLen accepted M.layers s.layers verified.rows
      window := s.window.extend (verified.lastTokens.take accepted)
      pos := s.pos + accepted }
  else none

end Steps

end FlashNext
