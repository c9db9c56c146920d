import BlackweLLM.FlashNextVerify

/-!
# Flash-Next commit against decode

The layers of a verify block put together: the session after a commit, the rows
that decide a row's logits, and what a session may differ in without any later
step seeing it.
-/

namespace FlashNext

open List Function

variable {V : Type} {M : Model V} {sequentialQsa : Bool}

/-- A recurrent layer reads its state, a QSA layer its pools below the length. -/
def AttnAgree (M : Model V) (L : Layer V) (n : ℕ) (c c' : AttnState V) : Prop :=
  match L.attn with
  | .gdn _ => c.gdn = c'.gdn
  | .qsa _ => Agree M n c c'

structure LayerAgree (M : Model V) (L : Layer V) (n : ℕ) (c c' : LayerState V) : Prop where
  ple : L.ple.isSome → c.1 = c'.1
  attn : AttnAgree M L n c.2 c'.2

def LayersAgree (M : Model V) (n : ℕ) : List (Layer V) → List (LayerState V) → List (LayerState V) → Prop
  | L :: Ls, c :: cs, c' :: cs' => LayerAgree M L n c c' ∧ LayersAgree M n Ls cs cs'
  | _, cs, cs' => cs = cs'

theorem Agree.attn {L : Layer V} {n : ℕ} {c c' : AttnState V} (h : Agree M n c c') : AttnAgree M L n c c' := by
  unfold AttnAgree
  cases L.attn with
  | gdn G => exact h.gdn
  | qsa Q => exact h

section Layers

variable {rows : List (Row V × V)} {p n : ℕ}

theorem verifyLayer_out {L : Layer V} (h : Block M p rows) (c : LayerState V) :
    (verifyLayer M sequentialQsa L c rows).2.2 = (Cascade.run (decodeLayer M L) c rows).2 := by
  have hcomp : Cascade.run (decodeLayer M L) c rows = _ := Cascade.run_comp (pleStep L) (attnStep M L) c.1 c.2 rows
  rw [hcomp]
  exact verifyAttn_out (h.run pleStep_row c.1) c.2

theorem commitLayer_agree {L : Layer V} (h : Block M p rows) (c : LayerState V) (hpos : 1 ≤ n) (hn : n ≤ M.qoLen) :
    LayerAgree M L (p + n)
      (commitLayer M L (verifyLayer M sequentialQsa L c rows).1 (verifyLayer M sequentialQsa L c rows).2.1 p n)
      (Cascade.run (decodeLayer M L) c (rows.take n)).1 := by
  have hcomp : Cascade.run (decodeLayer M L) c (rows.take n) = _ :=
    Cascade.run_comp (pleStep L) (attnStep M L) c.1 c.2 (rows.take n)
  have hlen := h.length
  rw [hcomp]
  constructor
  · intro hsome
    obtain ⟨P, hple⟩ := Option.isSome_iff_exists.mp hsome
    simp only [commitLayer, hple]
    change (Cascade.scan (pleStep L) c.1 rows).getD (n - 1) c.1 = (Cascade.run (pleStep L) c.1 (rows.take n)).1
    have hlt : n - 1 < rows.length := by omega
    have hlt' : n - 1 < (Cascade.scan (pleStep L) c.1 rows).length := by rwa [Cascade.scan_length]
    have hscan : (Cascade.scan (pleStep L) c.1 rows)[n - 1] =
        (Cascade.run (pleStep L) c.1 (rows.take (n - 1 + 1))).1 := Cascade.scan_getElem c.1 rows (n - 1) hlt hlt'
    rw [Nat.sub_add_cancel hpos] at hscan
    rw [getD_eq_getElem?_getD, getElem?_eq_getElem (by simpa using hlt), hscan]
    rfl
  · rw [Cascade.run_take_snd]
    exact (commitAttn_agree (h.run pleStep_row c.1) c.2 _ _ hpos hn).attn

section

variable (Ls : List (Layer V)) (cs : List (LayerState V)) (h : Block M p rows)
include h

theorem verifyLayers_out :
    (verifyLayers M sequentialQsa Ls cs rows).2.2 = (Cascade.layerwise (decodeLayer M) Ls cs rows).2 := by
  induction Ls generalizing cs rows with
  | nil => rfl
  | cons L Ls ih =>
    cases cs with
    | nil => rfl
    | cons c cs =>
      have hnext := h.run (decodeLayer_row (M := M) (L := L)) c
      simp only [verifyLayers, Cascade.layerwise, verifyLayer_out h]
      exact ih cs hnext

theorem commitLayers_agree (hpos : 1 ≤ n) (hn : n ≤ M.qoLen) : LayersAgree M (p + n) Ls
      (commitLayers M p n Ls (verifyLayers M sequentialQsa Ls cs rows).1 (verifyLayers M sequentialQsa Ls cs rows).2.1)
      (Cascade.layerwise (decodeLayer M) Ls cs (rows.take n)).1 := by
  induction Ls generalizing cs rows with
  | nil => rfl
  | cons L Ls ih =>
    cases cs with
    | nil => rfl
    | cons c cs =>
      have hnext := h.run (decodeLayer_row (M := M) (L := L)) c
      simp only [verifyLayers, Cascade.layerwise, commitLayers, verifyLayer_out h, Cascade.run_take_snd]
      exact ⟨commitLayer_agree h c hpos hn, ih cs hnext⟩

end

end Layers

section Rows

variable {s : Session M} {tokens : List ℕ}

theorem verifyRows_eq (s : Session M) (tokens : List ℕ) :
    verifyRows s tokens = tokens.mapIdx fun i token =>
      (⟨s.pos + i, axes (s.pos + i), M.pleRow (ngram M.eosTokenId M.ngramSize (s.window.1 ++ tokens.take (i + 1)))⟩,
        M.embed token) := by
  refine ext_getElem (by simp [verifyRows]) fun i hi hi' => ?_
  have hlt : i < tokens.length := by simpa using hi'
  simp only [verifyRows, getElem_mapIdx, sequenceIds_drop s.window.1 tokens hlt]

@[simp] theorem verifyRows_length (s : Session M) (tokens : List ℕ) : (verifyRows s tokens).length = tokens.length := by
  simp [verifyRows]

theorem verifyRows_take (s : Session M) (tokens : List ℕ) (n : ℕ) :
    verifyRows s (tokens.take n) = (verifyRows s tokens).take n := by
  simp only [verifyRows_eq]
  refine ext_getElem (by simp) fun i hi hi' => ?_
  have hlt : i + 1 ≤ n := by
    rw [length_mapIdx, length_take] at hi
    omega
  simp only [getElem_mapIdx, getElem_take, take_take, min_eq_left hlt]

theorem verifyRows_block (hfits : VerifyFits M sequentialQsa s.pos tokens) : Block M s.pos (verifyRows s tokens) := by
  obtain ⟨-, hlen, hmax, -⟩ := hfits
  refine ⟨fun i hi => ?_, by rw [verifyRows_length, hlen], hmax⟩
  simp only [verifyRows_eq, getElem_mapIdx]

/-- Without an MRoPE continuation the block's rows are the decode steps' rows. -/
theorem verifyRows_cons (hrope : s.ropeNext = none) (token : ℕ) (tokens : List ℕ) :
    verifyRows s (token :: tokens) =
      (⟨s.pos, s.rope, M.pleRow (ngram M.eosTokenId M.ngramSize (s.nextWindow token).1)⟩, M.embed token) ::
        verifyRows (decodeStep s token).1 tokens := by
  have hplain : s.rope = axes s.pos := by
    unfold Session.rope
    rw [hrope, Option.getD_none, ite_self]
  have hple : ∀ later, M.pleRow (ngram M.eosTokenId M.ngramSize ((s.nextWindow token).1 ++ later)) =
      M.pleRow (ngram M.eosTokenId M.ngramSize (s.window.1 ++ token :: later)) := by
    intro later
    unfold Model.pleRow Session.nextWindow
    split
    case isTrue =>
      rw [Window.append_eq]
      have hwindow : (s.window.extend [token]).1 = (s.window.1 ++ [token]).rtake M.ngramSize := rfl
      rw [hwindow, ngram_append_rtake, append_assoc, singleton_append]
    case isFalse => rfl
  have hhead := hple []
  rw [append_nil] at hhead
  simp only [verifyRows_eq, mapIdx_cons, hplain, hhead, add_zero, take_succ_cons, take_zero]
  refine congrArg _ (ext_getElem (by simp) fun i hi hi' => ?_)
  have hnext := hple (tokens.take (i + 1))
  simp only [getElem_mapIdx, decodeStep, hnext]
  rw [show s.pos + (i + 1) = s.pos + 1 + i by omega]

end Rows

section Later

variable {n : ℕ} {c c' : AttnState V} {r : Row V × V}

theorem update_congr {A : Type} {pool pool' : ℕ → A} {key cell : ℕ} {value : A}
    (h : cell ≠ key → pool cell = pool' cell) :
    update pool key value cell = update pool' key value cell := by
  by_cases hcell : cell = key
  · rw [hcell, update_self, update_self]
  · rw [update_of_ne hcell, update_of_ne hcell, h hcell]

end Later

section Session

/-- What a later step of the session can read. -/
structure SameState (s s' : Session M) : Prop where
  pos : s.pos = s'.pos
  ropeNext : s.ropeNext = s'.ropeNext
  window : M.hasPle → s.window = s'.window
  layers : LayersAgree M s.pos M.layers s.layers s'.layers

variable {s s₁ s₂ : Session M} {tokens : List ℕ} {v : Verified V} {hidden logits : List V}

theorem run_decodeStep_pos (s : Session M) (tokens : List ℕ) :
    (Cascade.run decodeStep s tokens).1.pos = s.pos + tokens.length := by
  induction tokens generalizing s with
  | nil => rfl
  | cons token tokens ih =>
    rw [Cascade.run_cons, ih, length_cons]
    change s.pos + 1 + tokens.length = _
    omega

theorem run_decodeStep_ropeNext (s : Session M) (tokens : List ℕ) :
    (Cascade.run decodeStep s tokens).1.ropeNext = s.ropeNext.map (ropeAdd · tokens.length) := by
  induction tokens generalizing s with
  | nil => exact Option.map_id'.symm
  | cons token tokens ih =>
    rw [Cascade.run_cons, ih]
    change (s.ropeNext.map (ropeAdd · 1)).map _ = _
    rw [Option.map_map]
    congr 1
    funext rope
    simp only [comp_apply, ropeAdd, length_cons, Prod.mk.injEq]
    omega

theorem run_decodeStep_window (s : Session M) (tokens : List ℕ) (hple : M.hasPle) :
    (Cascade.run decodeStep s tokens).1.window = s.window.extend tokens := by
  induction tokens generalizing s with
  | nil => exact (Window.extend_nil s.window).symm
  | cons token tokens ih =>
    have hwindow : (decodeStep s token).1.window = s.window.extend [token] := by
      change s.nextWindow token = _
      rw [Session.nextWindow, if_pos hple, Window.append_eq]
    rw [Cascade.run_cons, ih, hwindow, Window.extend_extend, singleton_append]

/-- Decode steps of a text session run the block's rows through the layers one by one. -/
theorem run_decodeStep_layers (hrope : s.ropeNext = none) (tokens : List ℕ) :
    (Cascade.run decodeStep s tokens).1.layers =
        (Cascade.run (Cascade.through (decodeLayer M) M.layers) s.layers (verifyRows s tokens)).1 ∧
      (Cascade.run decodeStep s tokens).2 =
        (Cascade.run (Cascade.through (decodeLayer M) M.layers) s.layers (verifyRows s tokens)).2.map
          fun r => M.lmHead r.2 := by
  induction tokens generalizing s with
  | nil => exact ⟨rfl, rfl⟩
  | cons token tokens ih =>
    have hnext : (decodeStep s token).1.ropeNext = none := by
      change s.ropeNext.map _ = none
      rw [hrope, Option.map_none]
    obtain ⟨hlayers, hout⟩ := ih hnext
    rw [verifyRows_cons hrope]
    simp only [Cascade.run_cons, hlayers, hout, map_cons]
    exact ⟨rfl, rfl⟩

/-- What the body returned for a block that fits. -/
theorem verifyBody_eq_some (h : verifyBody sequentialQsa s tokens = some (s₁, v, hidden, logits)) :
    VerifyFits M sequentialQsa s.pos tokens ∧
      s₁ = { s with layers := (verifyLayers M sequentialQsa M.layers s.layers (verifyRows s tokens)).1 } ∧
      v = ⟨tokens, s.pos, (verifyLayers M sequentialQsa M.layers s.layers (verifyRows s tokens)).2.1⟩ ∧
      hidden = (Cascade.layerwise (decodeLayer M) M.layers s.layers (verifyRows s tokens)).2.map Prod.snd ∧
      logits = (Cascade.layerwise (decodeLayer M) M.layers s.layers (verifyRows s tokens)).2.map fun r => M.lmHead r.2 := by
  unfold verifyBody at h
  split at h
  case isTrue hfits =>
    simp only [Option.some.injEq, Prod.mk.injEq] at h
    obtain ⟨rfl, rfl, rfl, rfl⟩ := h
    rw [verifyLayers_out M.layers s.layers (verifyRows_block hfits)]
    exact ⟨hfits, rfl, rfl, rfl, rfl⟩
  case isFalse => cases h

theorem commit_eq_some {accepted : ℕ} (h : commit s₁ v accepted = some s₂) :
    1 ≤ accepted ∧ accepted ≤ M.qoLen ∧ s₂ = { s₁ with
      layers := commitLayers M v.lastPastLen accepted M.layers s₁.layers v.rows
      window := s₁.window.extend (v.lastTokens.take accepted)
      pos := s₁.pos + accepted } := by
  unfold commit at h
  split at h
  case isTrue hrange => exact ⟨hrange.1, hrange.2, (Option.some.inj h).symm⟩
  case isFalse => cases h

/-- The tokens up to a row decide its logits, in any session. -/
theorem verifyBody_causal {tokens' : List ℕ} {s₁' : Session M} {v' : Verified V} {hidden' logits' : List V} {i : ℕ}
    (h : verifyBody sequentialQsa s tokens = some (s₁, v, hidden, logits))
    (h' : verifyBody sequentialQsa s tokens' = some (s₁', v', hidden', logits'))
    (heq : tokens'.take (i + 1) = tokens.take (i + 1)) : logits'[i]? = logits[i]? := by
  obtain ⟨-, -, -, -, rfl⟩ := verifyBody_eq_some h
  obtain ⟨-, -, -, -, rfl⟩ := verifyBody_eq_some h'
  have hrows : (verifyRows s tokens').take (i + 1) = (verifyRows s tokens).take (i + 1) := by
    rw [← verifyRows_take, ← verifyRows_take, heq]
  have hout : ∀ rows, (Cascade.layerwise (decodeLayer M) M.layers s.layers rows).2[i]? =
      (Cascade.layerwise (decodeLayer M) M.layers s.layers (rows.take (i + 1))).2[i]? := by
    intro rows
    rw [← Cascade.run_through, ← Cascade.run_through, Cascade.run_take_snd,
      getElem?_take_of_lt (Nat.lt_succ_self i)]
  rw [getElem?_map, getElem?_map, hout, hrows, ← hout]

theorem commit_sameState {accepted : ℕ} (hrope : s.ropeNext = none)
    (hverify : verifyBody sequentialQsa s tokens = some (s₁, v, hidden, logits))
    (hcommit : commit s₁ v accepted = some s₂) :
    SameState s₂ (Cascade.run decodeStep s (tokens.take accepted)).1 := by
  obtain ⟨hfits, rfl, rfl, -, -⟩ := verifyBody_eq_some hverify
  obtain ⟨hpos, hle, rfl⟩ := commit_eq_some hcommit
  have hlen : (tokens.take accepted).length = accepted := by
    rw [length_take, hfits.2.1]
    omega
  constructor
  case pos => rw [run_decodeStep_pos, hlen]
  case ropeNext =>
    rw [run_decodeStep_ropeNext, hrope]
    rfl
  case window => exact fun hple => (run_decodeStep_window s _ hple).symm
  case layers =>
    rw [(run_decodeStep_layers hrope _).1, Cascade.run_through, verifyRows_take]
    exact commitLayers_agree M.layers s.layers (verifyRows_block hfits) hpos hle

/-- A verified and committed block is the decoded one exactly where the session has no MRoPE continuation. -/
theorem commit_eq_decode_iff {accepted : ℕ} (hverify : verifyBody sequentialQsa s tokens = some (s₁, v, hidden, logits))
    (hcommit : commit s₁ v (accepted + 1) = some s₂) :
    (SameState s₂ (Cascade.run decodeStep s (tokens.take (accepted + 1))).1 ∧
      ∀ (i : ℕ) (tokens' : List ℕ) (s₁' : Session M) (v' : Verified V) (hidden' logits' : List V),
        tokens'.take (i + 1) = tokens.take (i + 1) →
        verifyBody sequentialQsa s tokens' = some (s₁', v', hidden', logits') → logits'[i]? = logits[i]?) ↔
      s.ropeNext = none := by
  constructor
  · intro ⟨hsame, _⟩
    obtain ⟨hfits, rfl, -, -, -⟩ := verifyBody_eq_some hverify
    obtain ⟨-, hle, rfl⟩ := commit_eq_some hcommit
    have hlen : (tokens.take (accepted + 1)).length = accepted + 1 := by
      rw [length_take, hfits.2.1]
      omega
    have hkept := hsame.ropeNext
    rw [run_decodeStep_ropeNext, hlen] at hkept
    cases hnext : s.ropeNext with
    | none => rfl
    | some rope =>
      simp only [hnext, Option.map_some, Option.some.injEq] at hkept
      have hfirst := congrArg Prod.fst hkept
      simp only [ropeAdd] at hfirst
      omega
  · intro hrope
    exact ⟨commit_sameState hrope hverify hcommit, fun i tokens' s₁' v' hidden' logits' heq h' =>
      verifyBody_causal hverify h' heq⟩

end Session

section Small

theorem three_pos : 0 < 3 := by decide

def smallModel : Model ℕ where
  layers := [⟨none, .qsa ⟨fun rope x => rope.1 + x, fun rope _ => rope.1, fun keys rope => keys.sum + rope.1,
      fun rope x pooled kv => rope.1 + x + pooled.sum + kv.sum⟩, fun x y => x + y⟩,
    ⟨none, .gdn ⟨fun state x => state + x, fun state x => state + x⟩, fun _ y => y⟩]
  embed token := token
  pleEmbed := List.sum
  lmHead x := x
  eosTokenId := 0
  ngramSize := 3
  ngram_pos := three_pos
  maxSeq := 16
  k := 1
  indexRing := true
  mrope := true
  zero := 0

/-- Eight tokens in, with `ropeNext` as the prompt left it. -/
def smallSession (ropeNext : Option Rope) : Session smallModel where
  pos := 8
  ropeNext := ropeNext
  window := ⟨[1, 2, 3], by decide⟩
  layers := replicate 2 (0, ⟨0, fun _ => 0, fun _ => 0, fun _ => (0, 0, 0), fun _ => 0⟩)

theorem small_commit_eq_decode :
    ∃ s₁ v hidden logits s₂, verifyBody false (smallSession none) [7, 9] = some (s₁, v, hidden, logits) ∧
      commit s₁ v (0 + 1) = some s₂ ∧
      SameState s₂ (Cascade.run decodeStep (smallSession none) ([7, 9].take (0 + 1))).1 := by
  have hverify : verifyBody false (smallSession none) [7, 9] = some (_, _, _, _) := rfl
  exact ⟨_, _, _, _, _, hverify, rfl, ((commit_eq_decode_iff hverify rfl).mpr rfl).1⟩

/-- An image prompt leaves its rope behind its length: the committed row is not the decoded one. -/
theorem mrope_commit_ne_decode :
    ∃ s₁ v hidden logits s₂, verifyBody false (smallSession (some (axes 5))) [7, 9] = some (s₁, v, hidden, logits) ∧
      commit s₁ v (0 + 1) = some s₂ ∧
      s₂.layers.map (fun c => c.2.kvPool 8) = [8, 0] ∧
      (Cascade.run decodeStep (smallSession (some (axes 5))) [7]).1.layers.map (fun c => c.2.kvPool 8) = [5, 0] ∧
      ¬SameState s₂ (Cascade.run decodeStep (smallSession (some (axes 5))) [7]).1 := by
  refine ⟨_, _, _, _, _, rfl, rfl, by decide, by decide, fun hsame => ?_⟩
  have hrope := hsame.ropeNext
  revert hrope
  decide

end Small

end FlashNext
