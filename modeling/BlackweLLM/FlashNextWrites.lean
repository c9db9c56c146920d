import BlackweLLM.FlashNextCold

/-!
# What decode and verify leave alone

A decode step and a verify round write from the session's position on. The rows
below it stay, in the ring of raw index rows as well while no position wraps.
-/

namespace FlashNext

open List

open LagunaRing (scatter scatter_of_notMem)

variable {V : Type} {M : Model V} {q : ℕ}

section Attention

variable {L : Layer V} {Q : Qsa V} {p : ℕ} {rows : List (Row V × V)}

theorem cell_ne_of_lt {q' : ℕ} (hlt : q < q') (hfits : q' < M.indexRows) : q % M.indexRows ≠ q' % M.indexRows := by
  rw [Nat.mod_eq_of_lt hfits, Nat.mod_eq_of_lt (hlt.trans hfits)]
  omega

theorem writeBlock_frame (c : AttnState V) (hrows : ∀ r ∈ rows, q < r.1.position ∧ r.1.position < M.indexRows) :
    RowHolds M true q (writeKv Q (updateIndexCacheFixed M Q c rows) rows) c := by
  have hcell : ∀ {A : Type} (pool : ℕ → A) (value : Row V × V → A),
      scatter pool (rows.map fun r => (r.1.position % M.indexRows, value r)) (q % M.indexRows) =
        pool (q % M.indexRows) := by
    intro A pool value
    refine scatter_of_notMem pool _ fun hmem => ?_
    rw [map_map, mem_map] at hmem
    obtain ⟨r, hr, heq⟩ := hmem
    exact cell_ne_of_lt (hrows r hr).1 (hrows r hr).2 heq.symm
  constructor
  case kv =>
    refine scatter_of_notMem _ _ fun hmem => ?_
    rw [map_map, mem_map] at hmem
    obtain ⟨r, hr, heq⟩ := hmem
    have hlt := (hrows r hr).1
    change r.1.position = q at heq
    omega
  case idxK => exact hcell c.idxKPool fun r => Q.ki r.1.rope r.2
  case idxRope =>
    intro _
    simp only [writeKv, updateIndexCacheFixed]
    split
    · exact hcell c.idxRopePool fun r => r.1.rope
    · rfl
  case pooled =>
    intro hlast
    refine scatter_of_notMem _ _ fun hmem => ?_
    rw [map_map, mem_map] at hmem
    obtain ⟨r, hr, heq⟩ := hmem
    have hlt := (hrows r hr).1
    change r.1.position / compressRatio = q / compressRatio at heq
    unfold compressRatio at *
    omega

theorem qsaStep_row_frame (c : AttnState V) (r : Row V × V) (hlt : q < r.1.position)
    (hfits : r.1.position < M.indexRows) :
    RowHolds M true q (qsaStep M L Q c r).1 c := by
  refine writeBlock_frame c fun r' hr' => ?_
  rw [mem_singleton.mp hr']
  exact ⟨hlt, hfits⟩

theorem run_qsaStep_row_frame (c : AttnState V) (hrows : ∀ r ∈ rows, q < r.1.position ∧ r.1.position < M.indexRows) :
    RowHolds M true q (Cascade.run (qsaStep M L Q) c rows).1 c := by
  induction rows generalizing c with
  | nil => exact RowHolds.refl q c
  | cons r rows ih =>
    have hfirst : RowHolds M true q (qsaStep M L Q c r).1 c :=
      qsaStep_row_frame c r (hrows r mem_cons_self).1 (hrows r mem_cons_self).2
    exact (ih _ fun r' hr' => hrows r' (mem_cons_of_mem r hr')).trans hfirst

/-- A rollback clears from the committed end on and pools the groups from the block's first one on. -/
theorem rollback_frame (c : AttnState V) {committedEnd : ℕ} (hq : q < p) (hend : p ≤ committedEnd)
    (hfits : p + M.qoLen ≤ M.indexRows) : RowHolds M true q (rollbackSpeculativeQsa M Q c p committedEnd) c := by
  have hcell : q % M.indexRows ∉ (range' committedEnd (p + M.qoLen - committedEnd)).map (· % M.indexRows) := by
    intro hmem
    obtain ⟨q', hq', heq⟩ := mem_map.mp hmem
    rw [mem_range'_1] at hq'
    exact cell_ne_of_lt (by omega : q < q') (by omega) heq.symm
  unfold rollbackSpeculativeQsa
  dsimp only
  split
  · exact RowHolds.refl q c
  constructor
  case kv =>
    refine fill_of_notMem _ fun hmem => ?_
    rw [mem_range'_1] at hmem
    omega
  case idxK => exact fill_of_notMem _ hcell
  case idxRope =>
    intro _
    dsimp only
    split
    · exact fill_of_notMem _ hcell
    · rfl
  case pooled =>
    intro hlast
    refine scatter_of_notMem _ _ fun hmem => ?_
    rw [map_map, mem_map] at hmem
    obtain ⟨group, hgroup, heq⟩ := hmem
    rw [mem_range'_1] at hgroup
    change group = q / compressRatio at heq
    unfold compressRatio at *
    omega

end Attention

section Layers

variable {L : Layer V} {p : ℕ} {rows : List (Row V × V)} {sequentialQsa : Bool}

theorem decodeLayer_frame (c : LayerState V) (r : Row V × V) (hlt : q < r.1.position)
    (hfits : r.1.position < M.indexRows) :
    QsaRow M true q L (decodeLayer M L c r).1 c := by
  intro Q hQ
  have hrow : (pleStep L c.1 r).2.1 = r.1 := pleStep_row c.1 r
  simp only [decodeLayer, Cascade.comp, attnStep, hQ]
  exact qsaStep_row_frame c.2 _ (hrow ▸ hlt) (hrow ▸ hfits)

theorem decodeStep_frame {s : Session M} (token : ℕ) (hlen : s.layers.length = M.layers.length) (hq : q < s.pos)
    (hfits : s.pos < M.indexRows) : RowsAt M true q (decodeStep s token).1.layers s.layers :=
  Cascade.through_frame (P := fun r : Row V × V => r.1.position = s.pos)
    (fun L c r hr => ⟨by rw [decodeLayer_row, hr], decodeLayer_frame c r (hr ▸ hq) (hr ▸ hfits)⟩) hlen rfl

theorem Block.positions (h : Block M p rows) (hq : q < p) (hfits : p + M.qoLen ≤ M.indexRows) :
    ∀ r ∈ rows, q < r.1.position ∧ r.1.position < M.indexRows := by
  intro r hr
  obtain ⟨i, hi, rfl⟩ := getElem_of_mem hr
  have hlen := h.length
  rw [h.consecutive i hi]
  omega

theorem verifyLayer_frame (h : Block M p rows) (c : LayerState V) (hq : q < p) (hfits : p + M.qoLen ≤ M.indexRows) :
    QsaRow M true q L (verifyLayer M sequentialQsa L c rows).1 c := by
  intro Q hQ
  have hrows := (h.run (pleStep_row (L := L)) c.1).positions hq hfits
  simp only [verifyLayer, verifyAttn, hQ]
  cases sequentialQsa with
  | true => exact run_qsaStep_row_frame c.2 hrows
  | false => exact writeBlock_frame c.2 hrows

theorem commitLayer_frame (c : LayerState V) (candidates : Candidates V) {accepted : ℕ} (hq : q < p)
    (hfits : p + M.qoLen ≤ M.indexRows) : QsaRow M true q L (commitLayer M L c candidates p accepted) c := by
  intro Q hQ
  simp only [commitLayer, hQ]
  exact rollback_frame c.2 hq (Nat.le_add_right p accepted) hfits

theorem verifyLayers_frame (Ls : List (Layer V)) (cs : List (LayerState V)) (hlen : cs.length = Ls.length)
    (h : Block M p rows) (hq : q < p) (hfits : p + M.qoLen ≤ M.indexRows) :
    Cascade.Layered (QsaRow M true q) Ls (verifyLayers M sequentialQsa Ls cs rows).1 cs := by
  induction Ls generalizing cs rows with
  | nil =>
    cases length_eq_zero_iff.mp hlen
    exact trivial
  | cons L Ls ih =>
    cases cs with
    | nil => cases hlen
    | cons c cs =>
      have hnext := h.run (decodeLayer_row (M := M) (L := L)) c
      simp only [verifyLayers, verifyLayer_out h]
      exact ⟨verifyLayer_frame h c hq hfits, ih cs (Nat.succ.inj hlen) hnext⟩

theorem verifyLayers_length (Ls : List (Layer V)) (cs : List (LayerState V)) :
    (verifyLayers M sequentialQsa Ls cs rows).1.length = cs.length := by
  induction Ls generalizing cs rows with
  | nil => rfl
  | cons L Ls ih =>
    cases cs with
    | nil => rfl
    | cons c cs => simp only [verifyLayers, length_cons, ih]

theorem commitLayers_length (past accepted : ℕ) (Ls : List (Layer V)) (cs : List (LayerState V))
    (candidates : List (Candidates V)) : (commitLayers M past accepted Ls cs candidates).length = cs.length := by
  induction Ls generalizing cs candidates with
  | nil => rfl
  | cons L Ls ih =>
    cases cs with
    | nil => rfl
    | cons c cs =>
      cases candidates with
      | nil => rfl
      | cons first rest => simp only [commitLayers, length_cons, ih]

theorem verifyLayers_candidates (Ls : List (Layer V)) (cs : List (LayerState V)) (hlen : cs.length = Ls.length) :
    (verifyLayers M sequentialQsa Ls cs rows).2.1.length = Ls.length := by
  induction Ls generalizing cs rows with
  | nil =>
    cases length_eq_zero_iff.mp hlen
    rfl
  | cons L Ls ih =>
    cases cs with
    | nil => cases hlen
    | cons c cs => simp only [verifyLayers, length_cons, ih cs (Nat.succ.inj hlen)]

theorem commitLayers_frame (Ls : List (Layer V)) (cs : List (LayerState V)) (candidates : List (Candidates V))
    {accepted : ℕ} (hlen : cs.length = Ls.length) (hcandidates : candidates.length = Ls.length) (hq : q < p)
    (hfits : p + M.qoLen ≤ M.indexRows) :
    Cascade.Layered (QsaRow M true q) Ls (commitLayers M p accepted Ls cs candidates) cs := by
  induction Ls generalizing cs candidates with
  | nil =>
    cases length_eq_zero_iff.mp hlen
    exact trivial
  | cons L Ls ih =>
    cases cs with
    | nil => cases hlen
    | cons c cs =>
      cases candidates with
      | nil => cases hcandidates
      | cons first rest =>
        exact ⟨commitLayer_frame c first hq hfits, ih cs rest (Nat.succ.inj hlen) (Nat.succ.inj hcandidates)⟩

/-- A verify block and its commit leave the rows below the session's position. -/
theorem verifyBody_frame {s s₁ : Session M} {tokens : List ℕ} {v : Verified V} {hidden logits : List V}
    (h : verifyBody sequentialQsa s tokens = some (s₁, v, hidden, logits)) (hlen : s.layers.length = M.layers.length)
    (hq : q < s.pos) (hfits : s.pos + M.qoLen ≤ M.indexRows) : RowsAt M true q s₁.layers s.layers := by
  obtain ⟨hverify, rfl, -⟩ := verifyBody_eq_some h
  exact verifyLayers_frame M.layers s.layers hlen (verifyRows_block hverify) hq hfits

theorem commit_frame {s s₁ s₂ : Session M} {tokens : List ℕ} {v : Verified V} {hidden logits : List V} {accepted : ℕ}
    (h : verifyBody sequentialQsa s tokens = some (s₁, v, hidden, logits)) (hcommit : commit s₁ v accepted = some s₂)
    (hlen : s.layers.length = M.layers.length) (hq : q < s.pos) (hfits : s.pos + M.qoLen ≤ M.indexRows) :
    RowsAt M true q s₂.layers s.layers := by
  have hverified := verifyBody_frame h hlen hq hfits
  obtain ⟨-, rfl, rfl, -⟩ := verifyBody_eq_some h
  obtain ⟨-, -, rfl⟩ := commit_eq_some hcommit
  exact RowsAt.trans (commitLayers_frame M.layers _ _ hverified.length.1
    (verifyLayers_candidates M.layers s.layers hlen) hq hfits) hverified

end Layers

end FlashNext
