import BlackweLLM.TopSelection
import Mathlib.Algebra.Order.BigOperators.Group.List
import Mathlib.Algebra.Order.Ring.Rat
import Mathlib.Data.Finset.Max
import Mathlib.Data.Nat.Log

/-!
# The routers of the mixtures of experts

`_softmax_topk_kernel` and its reference of `kernels/qwen_moe_router.py`, and the
selection of `kernels/laguna_router_sm120.cu`, which spreads a row over a warp. Both
pick the best expert again and again and overwrite what they picked.
-/

namespace MoeRouters

open List Function TopSelection

section Qwen

/-- A row of probabilities. `softmax` leaves no row of zeros. -/
structure Row where
  probs : List ℚ
  nonneg : ∀ p ∈ probs, 0 ≤ p
  some_pos : ∃ p ∈ probs, 0 < p

/-- The lanes behind the experts load `-inf`, whose probability is zero. -/
def Row.prob (r : Row) (e : Nat) : ℚ := r.probs.getD e 0

/-- One turn of the loop: `best` and `idx`. The block is the next power of two. -/
def pick (numExperts : Nat) (probs : Nat → ℚ) : ℚ × Nat :=
  let experts := range (2 ^ Nat.clog 2 numExperts)
  let best := (experts.map probs).max?.getD 0
  (best, (experts.map fun e => if probs e = best then e else numExperts).min?.getD numExperts)

/-- The stores of the first turns, and `probs` behind them. -/
def turns (r : Row) : Nat → List (ℚ × Nat) × (Nat → ℚ)
  | 0 => ([], r.prob)
  | k + 1 =>
    let picked := pick r.probs.length (turns r k).2
    ((turns r k).1 ++ [picked], update (turns r k).2 picked.2 0)

/-- The weights and ids of `_softmax_topk_kernel`. -/
def softmaxTopk (r : Row) (topK : Nat) (renormalize : Bool) : List (ℚ × Nat) :=
  let picks := (turns r topK).1
  let selectedSum := (picks.map Prod.fst).sum
  let denom := if 0 < selectedSum then selectedSum else 1
  if renormalize then picks.map fun p => (p.1 / denom, p.2) else picks

/-- `qwen_moe_router_reference`. -/
def reference (r : Row) (topK : Nat) (renormalize : Bool) : List (ℚ × Nat) :=
  let indices := (ranking r.prob r.probs.length).take topK
  let total := (indices.map r.prob).sum
  indices.map fun e => (if renormalize then r.prob e / total else r.prob e, e)

def Row.positives (r : Row) : List Nat := (range r.probs.length).filter (0 < r.prob ·)

variable {r : Row} {n k : Nat} {probs : Nat → ℚ}

theorem Row.prob_nonneg (r : Row) (e : Nat) : 0 ≤ r.prob e := by
  rw [Row.prob, getD_eq_getElem?_getD]
  cases h : r.probs[e]? with
  | none => exact le_refl 0
  | some p => exact r.nonneg p (mem_of_getElem? h)

theorem Row.prob_of_le (r : Row) {e : Nat} (h : r.probs.length ≤ e) : r.prob e = 0 := by
  rw [Row.prob, getD_eq_getElem?_getD, getElem?_eq_none h, Option.getD_none]

theorem Row.mem_positives {e : Nat} : e ∈ r.positives ↔ 0 < r.prob e := by
  simp only [Row.positives, mem_filter, mem_range, decide_eq_true_eq]
  refine ⟨fun h => h.2, fun h => ⟨?_, h⟩⟩
  by_contra hout
  exact absurd h (not_lt.mpr (r.prob_of_le (not_lt.mp hout)).le)

theorem Row.nodup_positives : r.positives.Nodup := nodup_range.filter _

/-- The turn finds the first of the largest probabilities, where an expert has it. -/
theorem pick_spec {e : Nat} (he : e < n) (hmax : ∀ j, probs j ≤ probs e) :
    (pick n probs).1 = probs (pick n probs).2 ∧ (pick n probs).2 < n ∧
      ∀ j < n, rankKey probs (pick n probs).2 ≤ rankKey probs j := by
  have hblock : ∀ {j}, j < n → j ∈ range (2 ^ Nat.clog 2 n) := fun hj =>
    mem_range.mpr (lt_of_lt_of_le hj (Nat.le_pow_clog Nat.one_lt_two n))
  have hbest : ((range (2 ^ Nat.clog 2 n)).map probs).max? = some (probs e) := by
    refine max?_eq_some_iff.mpr ⟨mem_map_of_mem (hblock he), ?_⟩
    rintro p hp
    obtain ⟨j, -, rfl⟩ := mem_map.mp hp
    exact hmax j
  rw [pick, hbest, Option.getD_some]
  generalize hidx : ((range (2 ^ Nat.clog 2 n)).map fun j => if probs j = probs e then j else n).min?.getD n = idx
  obtain ⟨idx', hidx'⟩ : ∃ i, ((range (2 ^ Nat.clog 2 n)).map fun j => if probs j = probs e then j else n).min? =
      some i := by
    rw [← Option.isSome_iff_exists, isSome_min?_iff]
    exact ne_nil_of_mem (mem_map_of_mem (hblock he))
  obtain rfl : idx' = idx := by rw [← hidx, hidx', Option.getD_some]
  obtain ⟨hmem, hleast⟩ := min?_eq_some_iff.mp hidx'
  have hfirst : ∀ j < n, probs j = probs e → idx' ≤ j := fun j hj heq =>
    hleast j (mem_map.mpr ⟨j, hblock hj, if_pos heq⟩)
  have hlt : idx' < n := lt_of_le_of_lt (hfirst e he rfl) he
  have hvalue : probs idx' = probs e := by
    obtain ⟨j, -, hj⟩ := mem_map.mp hmem
    by_cases heq : probs j = probs e
    · rw [if_pos heq] at hj
      rwa [← hj]
    · rw [if_neg heq] at hj
      exact absurd hj (ne_of_gt hlt)
  refine ⟨hvalue.symm, hlt, fun j hj => ?_⟩
  by_contra hbefore
  obtain hgt | ⟨hsame, hearlier⟩ := rankKey_lt.mp (not_le.mp hbefore)
  · exact absurd (hmax j) (not_le.mpr (by rwa [← hvalue]))
  · exact absurd (hfirst j hj (hsame.trans hvalue)) (not_le.mpr hearlier)

/-- The experts in the order of the reference. -/
def Row.ranked (r : Row) (k : Nat) : List Nat := (ranking r.prob r.probs.length).take k

theorem retired_nonneg (r : Row) (done : List Nat) (e : Nat) : 0 ≤ retired r.prob 0 done e := by
  rw [retired]
  split_ifs
  exacts [le_refl 0, r.prob_nonneg e]

theorem exists_best (r : Row) (done : List Nat) :
    ∃ e < r.probs.length, ∀ j, retired r.prob 0 done j ≤ retired r.prob 0 done e := by
  have hpos : 0 < r.probs.length := by
    obtain ⟨p, hp, -⟩ := r.some_pos
    exact length_pos_of_mem hp
  obtain ⟨e, he, hmax⟩ := Finset.exists_max_image (Finset.range r.probs.length) (retired r.prob 0 done)
    ⟨0, Finset.mem_range.mpr hpos⟩
  refine ⟨e, Finset.mem_range.mp he, fun j => ?_⟩
  by_cases hj : j < r.probs.length
  · exact hmax j (Finset.mem_range.mpr hj)
  · have hzero : retired r.prob 0 done j = 0 := by rw [retired, r.prob_of_le (not_lt.mp hj), ite_self]
    rw [hzero]
    exact retired_nonneg r done e

/-- While a probability is left that is not zero, the turns follow the ranking. -/
theorem turns_ranked (hk : k ≤ r.positives.length) :
    turns r k = ((r.ranked k).map fun e => (r.prob e, e), retired r.prob 0 (r.ranked k)) ∧
      ∀ e ∈ r.ranked k, 0 < r.prob e := by
  induction k with
  | zero => exact ⟨by simp [turns, Row.ranked], by simp [Row.ranked]⟩
  | succ k ih =>
    obtain ⟨hturns, hpos⟩ := ih (Nat.le_of_succ_le hk)
    obtain ⟨e, he, hmax⟩ := exists_best r (r.ranked k)
    obtain ⟨hvalue, hlt, hfirst⟩ := pick_spec he hmax
    have hlive : ∃ j < r.probs.length, j ∉ r.ranked k ∧ 0 < r.prob j := by
      by_contra hnone
      have hsub : r.positives ⊆ r.ranked k := fun j hj => by
        by_contra hnew
        exact hnone ⟨j, mem_range.mp (mem_filter.mp hj).1, hnew, r.mem_positives.mp hj⟩
      have hlen := (r.nodup_positives.subperm hsub).length_le
      have hshort : (r.ranked k).length ≤ k := length_take_le _ _
      omega
    obtain ⟨habove, hkept, htake⟩ := ranking_take_retired hlt hfirst hlive
    have hnext : r.ranked (k + 1) = r.ranked k ++ [_] := htake
    refine ⟨?_, ?_⟩
    · rw [turns, hturns, hnext]
      dsimp only
      rw [update_retired, map_append, map_singleton, ← hvalue.trans hkept]
    · rw [hnext]
      exact forall_mem_append.mpr ⟨hpos, forall_mem_singleton.mpr habove⟩

theorem mem_ranked_positives (e : Nat) : e ∈ r.ranked r.positives.length ↔ 0 < r.prob e := by
  have hsub : r.ranked r.positives.length ⊆ r.positives := fun e he =>
    r.mem_positives.mpr ((turns_ranked le_rfl).2 e he)
  have hlen : r.positives.length ≤ (r.ranked r.positives.length).length := by
    have hle : r.positives.length ≤ r.probs.length := by
      simpa [Row.positives] using length_filter_le (0 < r.prob ·) (range _)
    simp [Row.ranked, length_ranking, hle]
  have hnodup : (r.ranked r.positives.length).Nodup := nodup_ranking.sublist (take_sublist _ _)
  rw [← r.mem_positives]
  exact ((hnodup.subperm hsub).perm_of_length_le hlen).mem_iff

/-- Behind the probabilities that are not zero each turn picks expert 0. -/
theorem turns_repeat (i : Nat) : turns r (r.positives.length + i) =
    ((r.ranked r.positives.length).map (fun e => (r.prob e, e)) ++ replicate i (0, 0), fun _ => 0) := by
  induction i with
  | zero =>
    rw [Nat.add_zero, (turns_ranked le_rfl).1, replicate_zero, append_nil]
    congr
    funext e
    rw [retired]
    split_ifs with he
    · rfl
    · exact le_antisymm (not_lt.mp (mt (mem_ranked_positives e).mpr he)) (r.prob_nonneg e)
  | succ i ih =>
    obtain ⟨e, he, -⟩ := exists_best r []
    have hpos : 0 < r.probs.length := Nat.zero_lt_of_lt he
    obtain ⟨hvalue, -, hfirst⟩ := @pick_spec _ (fun _ => 0) _ hpos fun _ => le_rfl
    have hzero : (pick r.probs.length fun _ => 0).2 = 0 := by
      by_contra hne
      exact absurd (hfirst 0 hpos) (not_le.mpr (rankKey_lt.mpr (.inr ⟨rfl, Nat.pos_of_ne_zero hne⟩)))
    have hpick : (pick r.probs.length fun _ => 0) = (0, 0) := Prod.ext hvalue hzero
    rw [← Nat.add_assoc, turns, ih, hpick, replicate_succ', append_assoc]
    simp

/-- Distinct experts in the order of their probabilities, as the reference has them. -/
structure Routed (r : Row) (topK : Nat) (renormalize : Bool) : Prop where
  distinct : ((softmaxTopk r topK renormalize).map Prod.snd).Nodup
  lt : ∀ e ∈ (softmaxTopk r topK renormalize).map Prod.snd, e < r.probs.length
  order : ((softmaxTopk r topK renormalize).map Prod.snd).Pairwise fun e e' =>
    r.prob e' < r.prob e ∨ r.prob e = r.prob e' ∧ e < e'
  reference : softmaxTopk r topK renormalize = reference r topK renormalize

theorem ids_eq (r : Row) (topK : Nat) (renormalize : Bool) :
    (softmaxTopk r topK renormalize).map Prod.snd = (turns r topK).1.map Prod.snd := by
  rw [softmaxTopk]
  cases renormalize <;> simp [comp_def]

theorem routed_of {topK : Nat} (h : (turns r topK).1 = (r.ranked topK).map fun e => (r.prob e, e))
    (renormalize : Bool) :
    Routed r topK renormalize := by
  have hids : (softmaxTopk r topK renormalize).map Prod.snd = r.ranked topK := by
    rw [ids_eq, h]
    simp [comp_def]
  have hsub : r.ranked topK <+ ranking r.prob r.probs.length := take_sublist _ _
  refine ⟨?_, ?_, ?_, ?_⟩
  · rw [hids]
    exact nodup_ranking.sublist hsub
  · rw [hids]
    exact fun e he => mem_ranking.mp (hsub.subset he)
  · rw [hids]
    exact (pairwise_ranking.sublist hsub).imp rankKey_lt.mp
  · rw [softmaxTopk, h, MoeRouters.reference]
    cases renormalize with
    | false => simp [Row.ranked]
    | true =>
      simp only [map_map, comp_def, if_true]
      refine map_congr_left fun e he => ?_
      by_cases hsum : 0 < ((r.ranked topK).map r.prob).sum
      · rw [if_pos hsum, Row.ranked]
      · have hle := single_le_sum (forall_mem_map.mpr fun e _ => r.prob_nonneg e) _ (mem_map_of_mem (f := r.prob) he)
        have hzero : r.prob e = 0 := le_antisymm (hle.trans (not_lt.mp hsum)) (r.prob_nonneg e)
        simp [hzero]

theorem routed_iff {topK : Nat} (hk : topK ≤ r.probs.length) (renormalize : Bool) :
    Routed r topK renormalize ↔ topK ≤ r.positives.length ∨ topK = r.positives.length + 1 ∧ r.prob 0 = 0 := by
  refine ⟨fun h => ?_, ?_⟩
  · by_cases hle : topK ≤ r.positives.length
    · exact .inl hle
    obtain ⟨i, rfl⟩ := Nat.exists_eq_add_of_lt (not_le.mp hle)
    have hnodup : (r.ranked r.positives.length ++ replicate (i + 1) 0).Nodup := by
      simpa [ids_eq, Nat.add_assoc, turns_repeat, comp_def] using h.distinct
    rw [nodup_append, nodup_replicate] at hnodup
    refine .inr ⟨by omega, le_antisymm (not_lt.mp fun hpos => ?_) (r.prob_nonneg 0)⟩
    exact hnodup.2.2 0 ((mem_ranked_positives 0).mpr hpos) 0 (mem_replicate.mpr ⟨Nat.succ_ne_zero i, rfl⟩) rfl
  · rintro (hle | ⟨rfl, hzero⟩)
    · exact routed_of (congrArg Prod.fst (turns_ranked hle).1) renormalize
    · refine routed_of ?_ renormalize
      have hnew : 0 ∉ r.ranked r.positives.length := fun hin => absurd ((mem_ranked_positives 0).mp hin) (by simp [hzero])
      have hnext : r.ranked (r.positives.length + 1) = r.ranked r.positives.length ++ [0] := by
        refine ranking_take_succ (Nat.zero_lt_of_lt hk) hnew fun j _ hj => not_lt.mp fun hlt => ?_
        obtain hgt | ⟨-, hearlier⟩ := rankKey_lt.mp hlt
        · exact hj ((mem_ranked_positives j).mpr (hzero ▸ hgt))
        · exact absurd hearlier (Nat.not_lt_zero j)
      rw [turns_repeat, hnext]
      simp [hzero]

end Qwen

section Laguna

/-- `max_for_choice`, `max_score` and `expert` of a lane. -/
structure Best where
  forChoice : ℚ
  score : ℚ
  expert : Nat

def expertOf (lane valueIdx : Nat) : Nat := lane * 4 + if valueIdx < 4 then valueIdx else valueIdx + 124

/-- The scan of a lane over its eight values. -/
def scan (score scoresForChoice : Nat → ℚ) (lane count : Nat) : Best :=
  (range count).foldl (fun b valueIdx =>
    if b.forChoice < scoresForChoice valueIdx then
      ⟨scoresForChoice valueIdx, score (expertOf lane valueIdx), expertOf lane valueIdx⟩
    else b) ⟨scoresForChoice 0, score (expertOf lane 0), lane * 4⟩

/-- Every lane against the lane that `__shfl_xor_sync` gives it. -/
def shuffle (lanes : Nat → Best) (mask : Nat) : Nat → Best := fun lane =>
  let own := lanes lane
  let other := lanes (lane ^^^ mask)
  if own.forChoice < other.forChoice ∨ other.forChoice = own.forChoice ∧ other.expert < own.expert then other else own

def warpBest (score : Nat → ℚ) (scoresForChoice : Nat → Nat → ℚ) : Nat → Best :=
  [16, 8, 4, 2, 1].foldl shuffle fun lane => scan score (scoresForChoice lane) lane 8

/-- The stores of the first turns for `topk_weights` and `topk_ids`, and the registers behind them. -/
def lagunaTurns (score bias : Nat → ℚ) : Nat → List (ℚ × Nat) × (Nat → Nat → ℚ)
  | 0 => ([], fun lane valueIdx => score (expertOf lane valueIdx) + bias (expertOf lane valueIdx))
  | k + 1 =>
    let best := warpBest score (lagunaTurns score bias k).2
    ((lagunaTurns score bias k).1 ++ [((best 0).score, (best 0).expert)],
      fun lane valueIdx =>
        if k + 1 < 10 ∧ lane = (best lane).expert / 4 % 32 ∧
          valueIdx = (best lane).expert / 128 * 4 + (best lane).expert % 4 then -10000
        else (lagunaTurns score bias k).2 lane valueIdx)

/-- The weights and ids of `laguna_router_f32_kernel` over the scores of a row. -/
def lagunaRouter (score bias : Nat → ℚ) : List (ℚ × Nat) :=
  let picks := (lagunaTurns score bias 10).1
  let selectedSum := (picks.map Prod.fst).sum
  let scale := 1 / if 0 < selectedSum then selectedSum else 1
  picks.map fun p => (p.1 * scale, p.2)

variable {score bias v : Nat → ℚ} {S T : Nat → Prop} {b b' : Best} {lane : Nat}

/-- The best of a set of experts by the value `v`. -/
structure Leads (score v : Nat → ℚ) (S : Nat → Prop) (b : Best) : Prop where
  mem : S b.expert
  forChoice : b.forChoice = v b.expert
  score : b.score = score b.expert
  first : ∀ e, S e → rankKey v b.expert ≤ rankKey v e

theorem scan_leads {scoresForChoice : Nat → ℚ} (hv : ∀ i < 8, scoresForChoice i = v (expertOf lane i)) {count : Nat}
    (hcount : count < 8) :
    Leads score v (fun e => ∃ i ≤ count, e = expertOf lane i) (scan score scoresForChoice lane (count + 1)) := by
  induction count with
  | zero =>
    have hstart : scan score scoresForChoice lane 1 = ⟨scoresForChoice 0, score (expertOf lane 0), expertOf lane 0⟩ := by
      simp [scan, expertOf]
    rw [hstart]
    refine ⟨⟨0, le_rfl, rfl⟩, hv 0 hcount, rfl, ?_⟩
    rintro e ⟨i, hi, rfl⟩
    rw [Nat.le_zero.mp hi]
  | succ count ih =>
    have h := ih (Nat.lt_of_succ_lt hcount)
    rw [scan, range_succ, foldl_append, foldl_cons, foldl_nil, ← scan]
    generalize scan score scoresForChoice lane (count + 1) = b at h
    obtain ⟨held, hheld, heq⟩ := h.mem
    rw [h.forChoice, hv _ hcount]
    by_cases hless : v b.expert < v (expertOf lane (count + 1))
    · rw [if_pos hless]
      refine ⟨⟨count + 1, le_rfl, rfl⟩, rfl, rfl, ?_⟩
      rintro e ⟨i, hi, rfl⟩
      obtain hi | rfl := Nat.le_succ_iff.mp hi
      · exact (rankKey_lt.mpr (.inl hless)).le.trans (h.first _ ⟨i, hi, rfl⟩)
      · exact le_rfl
    · rw [if_neg hless]
      refine ⟨⟨held, Nat.le_succ_of_le hheld, heq⟩, h.forChoice, h.score, ?_⟩
      rintro e ⟨i, hi, rfl⟩
      obtain hi | rfl := Nat.le_succ_iff.mp hi
      · exact h.first _ ⟨i, hi, rfl⟩
      · -- among equal values the lane keeps the lower expert
        refine not_lt.mp fun hbefore => ?_
        obtain hgt | ⟨-, hearlier⟩ := rankKey_lt.mp hbefore
        · exact hless hgt
        · rw [heq, expertOf, expertOf] at hearlier
          split_ifs at hearlier <;> omega

theorem shuffle_leads {lanes : Nat → Best} {mask : Nat} (hown : Leads score v S (lanes lane))
    (hother : Leads score v T (lanes (lane ^^^ mask))) :
    Leads score v (fun e => S e ∨ T e) (shuffle lanes mask lane) := by
  have hiff : ((lanes lane).forChoice < (lanes (lane ^^^ mask)).forChoice ∨
      (lanes (lane ^^^ mask)).forChoice = (lanes lane).forChoice ∧ (lanes (lane ^^^ mask)).expert < (lanes lane).expert) ↔
      rankKey v (lanes (lane ^^^ mask)).expert < rankKey v (lanes lane).expert := by
    rw [rankKey_lt, hown.forChoice, hother.forChoice]
  rw [shuffle]
  by_cases hless : rankKey v (lanes (lane ^^^ mask)).expert < rankKey v (lanes lane).expert
  · rw [if_pos (hiff.mpr hless)]
    exact ⟨.inr hother.mem, hother.forChoice, hother.score, fun e he =>
      he.elim (fun he => hless.le.trans (hown.first e he)) (hother.first e)⟩
  · rw [if_neg (mt hiff.mp hless)]
    exact ⟨.inl hown.mem, hown.forChoice, hown.score, fun e he =>
      he.elim (hown.first e) fun he => (not_lt.mp hless).trans (hother.first e he)⟩

/-- The lanes whose values have reached a lane. -/
def reach : List Nat → Nat → List Nat
  | [], lane => [lane]
  | mask :: masks, lane => (reach masks lane).flatMap fun l => [l, l ^^^ mask]

theorem foldl_shuffle_leads {masks : List Nat} (hmasks : ∀ mask ∈ masks, mask < 32) {lanes : Nat → Best}
    {held : Nat → Nat → Prop} (h : ∀ l < 32, Leads score v (held l) (lanes l)) (hlane : lane < 32) :
    Leads score v (fun e => ∃ l ∈ reach masks lane, held l e) (masks.foldl shuffle lanes lane) := by
  induction masks generalizing lanes held with
  | nil => simpa [reach] using h lane hlane
  | cons mask masks ih =>
    obtain ⟨hmask, hmasks⟩ := forall_mem_cons.mp hmasks
    have hnext := ih hmasks fun l hl => shuffle_leads (h l hl) (h (l ^^^ mask) (Nat.xor_lt_two_pow (n := 5) hl hmask))
    have hheld : (fun e => ∃ l ∈ reach (mask :: masks) lane, held l e) =
        fun e => ∃ l ∈ reach masks lane, held l e ∨ held (l ^^^ mask) e := by
      funext e
      simp only [reach, mem_flatMap, mem_cons, not_mem_nil, or_false, eq_iff_iff]
      grind
    rw [hheld]
    exact hnext

theorem mem_reach : ∀ lane < 32, ∀ l < 32, l ∈ reach [16, 8, 4, 2, 1] lane := by decide

theorem lt_of_mem_reach : ∀ lane < 32, ∀ l ∈ reach [16, 8, 4, 2, 1] lane, l < 32 := by decide

theorem expertOf_eq_iff {e i : Nat} (hlane : lane < 32) (hi : i < 8) :
    expertOf lane i = e ↔ lane = e / 4 % 32 ∧ i = e / 128 * 4 + e % 4 := by
  rw [expertOf]
  split_ifs <;> omega

/-- Every lane ends with the best of all experts. -/
theorem warpBest_leads {scoresForChoice : Nat → Nat → ℚ}
    (hv : ∀ l < 32, ∀ i < 8, scoresForChoice l i = v (expertOf l i)) (hlane : lane < 32) :
    Leads score v (· < 256) (warpBest score scoresForChoice lane) := by
  have hmasks : ∀ mask ∈ [16, 8, 4, 2, 1], mask < 32 := by decide
  have h := foldl_shuffle_leads hmasks (fun l hl => @scan_leads score v l _ (hv l hl) 7 (by decide)) hlane
  have hall : (fun e => ∃ l ∈ reach [16, 8, 4, 2, 1] lane, ∃ i ≤ 7, e = expertOf l i) = (· < 256) := by
    funext e
    refine propext ⟨?_, fun he => ?_⟩
    · rintro ⟨l, hl, i, hi, rfl⟩
      have hl32 := lt_of_mem_reach lane hlane l hl
      rw [expertOf]
      split_ifs <;> omega
    · refine ⟨e / 4 % 32, mem_reach lane hlane _ (by omega), e / 128 * 4 + e % 4, by omega, ?_⟩
      exact ((expertOf_eq_iff (by omega) (by omega)).mpr ⟨rfl, rfl⟩).symm
  rwa [hall] at h

theorem Leads.expert_eq (h : Leads score v S b) (h' : Leads score v S b') : b.expert = b'.expert :=
  rankKey_inj (le_antisymm (h.first _ h'.mem) (h'.first _ h.mem))

/-- The values that the experts are chosen by. -/
def choice (score bias : Nat → ℚ) (e : Nat) : ℚ := score e + bias e

theorem lagunaTurns_ranked (habove : ∀ e < 256, -10000 < choice score bias e) {k : Nat} (hk : k ≤ 10) :
    (lagunaTurns score bias k).1 = ((ranking (choice score bias) 256).take k).map (fun e => (score e, e)) ∧
      (k < 10 → ∀ l < 32, ∀ i < 8, (lagunaTurns score bias k).2 l i =
        retired (choice score bias) (-10000) ((ranking (choice score bias) 256).take k) (expertOf l i)) := by
  induction k with
  | zero => exact ⟨by simp [lagunaTurns], fun _ l _ i _ => by simp [lagunaTurns, choice]⟩
  | succ k ih =>
    obtain ⟨hpicks, hregs⟩ := ih (Nat.le_of_succ_le hk)
    have hleads : ∀ l < 32, Leads score _ (· < 256) (warpBest score (lagunaTurns score bias k).2 l) := fun l hl =>
      warpBest_leads (hregs hk) hl
    have hzero := hleads 0 (by decide)
    have hlive : ∃ j < 256, j ∉ (ranking (choice score bias) 256).take k ∧ -10000 < choice score bias j := by
      by_contra hnone
      have hsub : range 256 ⊆ (ranking (choice score bias) 256).take k := fun j hj => by
        by_contra hnew
        exact hnone ⟨j, mem_range.mp hj, hnew, habove j (mem_range.mp hj)⟩
      have hlen := (nodup_range.subperm hsub).length_le
      have hshort := length_take_le k (ranking (choice score bias) 256)
      rw [length_range] at hlen
      omega
    obtain ⟨-, -, htake⟩ := ranking_take_retired hzero.mem hzero.first hlive
    refine ⟨?_, fun hmore l hl i hi => ?_⟩
    · rw [lagunaTurns, htake, map_append, map_singleton, ← hpicks, ← hzero.score]
    · rw [htake, lagunaTurns]
      have hsame := (hleads l hl).expert_eq hzero
      simp only [hsame, hmore, true_and, ← expertOf_eq_iff hl hi, hregs hk l hl i hi]
      simp [retired]
      grind

/-- The ten experts with the largest score plus bias, each with its own score before the weights are scaled. -/
structure LagunaRouted (score bias : Nat → ℚ) : Prop where
  weights : (lagunaTurns score bias 10).1 = ((ranking (choice score bias) 256).take 10).map fun e => (score e, e)
  experts : (lagunaRouter score bias).map Prod.snd = (ranking (choice score bias) 256).take 10

theorem lagunaRouted (habove : ∀ e < 256, -10000 < choice score bias e) : LagunaRouted score bias := by
  have h := (lagunaTurns_ranked habove le_rfl).1
  refine ⟨h, ?_⟩
  rw [lagunaRouter, h]
  simp [comp_def]

end Laguna

theorem routers_iff (r : Row) {topK : Nat} (hk : topK ≤ r.probs.length) (renormalize : Bool) :
    (Routed r topK renormalize ∧
      ∀ score bias : Nat → ℚ, (∀ e < 256, -10000 < choice score bias e) → LagunaRouted score bias) ↔
    topK ≤ r.positives.length ∨ topK = r.positives.length + 1 ∧ r.prob 0 = 0 :=
  (and_iff_left fun _ _ => lagunaRouted).trans (routed_iff hk renormalize)

/-- One expert has all the probability. -/
def certain : Row := ⟨[1, 0], by simp, 1, by simp⟩

/-- The first of five experts has no probability, and three others have some. -/
def threeOfFive : Row := ⟨[0, 1 / 2, 0, 1 / 4, 1 / 4], by decide +kernel, 1 / 2, by decide +kernel⟩

theorem routers_iff_threeOfFive : Routed threeOfFive 4 true :=
  ((routers_iff threeOfFive (by decide) true).mpr (.inr (by decide +kernel))).1

/-- The second expert of that row is the first again. -/
theorem repeated_expert : ¬∀ (r : Row) (topK : Nat)
    (renormalize : Bool), topK ≤ r.probs.length → Routed r topK renormalize := by
  intro h
  have hdistinct := (h certain 2 true (by decide)).distinct
  revert hdistinct
  decide

end MoeRouters
