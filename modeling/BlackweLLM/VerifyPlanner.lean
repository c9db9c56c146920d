import BlackweLLM.ArrayFill
import BlackweLLM.GreedySum
import Mathlib.Data.List.GetD
import Mathlib.Tactic.FieldSimp
import Mathlib.Tactic.Linarith

/-!
# The verify planner

`compute_verify_token_budget` and `schedule_verify_lens_topk` of
`runtime/dspark_schedule.py`, over the rationals. A verify length counts the
anchor, so a length of `n` verifies the drafts at the positions below `n - 1`.
-/

namespace VerifyPlanner

open List ArrayFill

section Tables

/-- `SpsCostTable`, with the checks of `__post_init__`. -/
structure SpsCostTable where
  sampleBatchTokens : List ℕ
  sampleStepsPerSec : List ℚ
  maxBatchTokens : ℕ
  probes : sampleBatchTokens ≠ []
  increasing : sampleBatchTokens.Pairwise (· < ·)
  length_eq : sampleBatchTokens.length = sampleStepsPerSec.length
  last_le : ∀ token ∈ sampleBatchTokens, token ≤ maxBatchTokens
  token_pos : ∀ token ∈ sampleBatchTokens, 1 ≤ token
  rate_pos : ∀ rate ∈ sampleStepsPerSec, 0 < rate

def SpsCostTable.lookup (t : SpsCostTable) (batchTokens : ℕ) : ℚ :=
  t.sampleStepsPerSec.getD
    (min (searchsortedRight t.sampleBatchTokens batchTokens - 1) (t.sampleStepsPerSec.length - 1)) 0

structure SpsAdditiveCostTable where
  biasSeconds : ℚ
  bsProbes : List ℕ
  alphaSeconds : List ℚ
  mProbes : List ℕ
  thetaSeconds : List ℚ
  bs_probes : bsProbes ≠ [] ∧ bsProbes.Pairwise (· < ·) ∧ bsProbes.length = alphaSeconds.length
  m_probes : mProbes ≠ [] ∧ mProbes.Pairwise (· < ·) ∧ mProbes.length = thetaSeconds.length
  bias_pos : 0 < biasSeconds

def interpClamped (probes : List ℕ) (values : List ℚ) (point : ℕ) : ℚ :=
  if point ≤ probes.headD 0 then values.headD 0
  else if probes.getLastD 0 ≤ point then values.getLastD 0
  else
    let high := searchsortedRight probes point
    let low := high - 1
    let fraction := ((point : ℚ) - probes.getD low 0) / ((probes.getD high 0 : ℚ) - probes.getD low 0)
    values.getD low 0 + fraction * (values.getD high 0 - values.getD low 0)

def SpsAdditiveCostTable.stepTime (t : SpsAdditiveCostTable) (numRequests budget : ℕ) : ℚ :=
  t.biasSeconds + interpClamped t.bsProbes t.alphaSeconds numRequests +
    interpClamped t.mProbes t.thetaSeconds (numRequests + budget)

inductive SpsTable where
  | cost (t : SpsCostTable)
  | additive (t : SpsAdditiveCostTable)

end Tables

section Planner

/-- `min(max(float(value), 0.0), 1.0)`. -/
def clamp (value : ℚ) : ℚ := min (max value 0) 1

/-- The loop of `survival_prefix`, from the product so far. -/
def survivalFrom (epsilon : ℚ) : ℚ → List ℚ → List ℚ
  | _, [] => []
  | product, value :: confidence =>
    let product := product * clamp value
    (if product < epsilon then 0 else product) :: survivalFrom epsilon product confidence

def survivalPrefix (confidence : List ℚ) (epsilon : ℚ) : List ℚ := survivalFrom epsilon 1 confidence

inductive PlannerError where
  | maxVerifyLen (maxLen : ℕ)
  | minVerifyLen (minLen maxLen : ℕ)
  | survivalEps (eps : ℚ)
  | bounds (minLen maxLen : ℕ)
  | zeroDivision
  deriving DecidableEq, Repr

def width (rows : List (List ℚ)) : ℕ := (rows.map List.length).foldl max 0

def maxLen (rows : List (List ℚ)) (maxVerifyLen : Option ℕ) : ℕ := maxVerifyLen.getD (width rows + 1)

structure VerifyBudgetDecision where
  budget : ℕ
  predictedStepSeconds : Option ℚ
  predictedTheta : ℚ
  deriving DecidableEq, Repr

/-- The candidates of the budget: the values of all rows, the largest first. -/
def budgetCandidates (rows : List (List ℚ)) (maxLen : ℕ) (survivalEps : ℚ) : List ℚ :=
  (rows.flatMap fun row => ((row.take maxLen).filter fun value => survivalEps ≤ value).map clamp).mergeSort
    fun a b => decide (b ≤ a)

def tauStar (rows : List (List ℚ)) (maxLen : ℕ) (survivalEps : ℚ) : List ℚ :=
  ((budgetCandidates rows maxLen survivalEps).scanl (· + ·) 0).map fun value => rows.length + value

/-- `max(range(len(theta)), key=theta.__getitem__)`. -/
def best (theta : List ℚ) : ℕ := ((range theta.length).argmax fun i => theta.getD i 0).getD 0

def computeVerifyTokenBudget (historySurvivalProbs : List (List ℚ)) (spsTable : SpsTable) (maxVerifyLen : Option ℕ)
    (minVerifyLen : ℕ) (survivalEps : ℚ) : Except PlannerError VerifyBudgetDecision :=
  let numRequests := historySurvivalProbs.length
  let maxLen := maxLen historySurvivalProbs maxVerifyLen
  if numRequests = 0 then .ok ⟨0, none, 0⟩
  else if maxLen < 1 then .error (.maxVerifyLen maxLen)
  else if maxLen < minVerifyLen then .error (.minVerifyLen minVerifyLen maxLen)
  else if survivalEps < 0 then .error (.survivalEps survivalEps)
  else
    let tauStar := tauStar historySurvivalProbs maxLen survivalEps
    match spsTable with
    | .additive t =>
      let stepTimes := (range tauStar.length).map fun index => t.stepTime numRequests index
      if 0 ∈ stepTimes then .error .zeroDivision
      else
        let theta := zipWith (· / ·) tauStar stepTimes
        .ok ⟨best theta, some (stepTimes.getD (best theta) 0), theta.getD (best theta) 0⟩
    | .cost t =>
      let theta := tauStar.zipIdx.map fun e => e.1 * t.lookup (numRequests + e.2)
      .ok ⟨best theta, some (1 / t.lookup (numRequests + best theta)), theta.getD (best theta) 0⟩

structure Candidate where
  value : ℚ
  position : ℕ
  request : ℕ
  deriving DecidableEq, Repr

/-- The order of the key `(-value, position, request)`. -/
def Candidate.le (a b : Candidate) : Bool :=
  decide (b.value < a.value ∨ (b.value = a.value ∧
    (a.position < b.position ∨ (a.position = b.position ∧ a.request ≤ b.request))))

def rowCandidates (maxLen : ℕ) (survivalEps : ℚ) (row : List ℚ) (request : ℕ) : List Candidate :=
  ((survivalPrefix row 0).take maxLen).zipIdx.filterMap fun e =>
    if survivalEps ≤ e.1 then some ⟨e.1, e.2, request⟩ else none

def candidates (rows : List (List ℚ)) (maxLen : ℕ) (survivalEps : ℚ) : List Candidate :=
  rows.zipIdx.flatMap fun e => rowCandidates maxLen survivalEps e.1 e.2

def scheduleVerifyLensTopk (confidences : List (List ℚ)) (budget minVerifyLen : ℕ) (maxVerifyLen : Option ℕ)
    (survivalEps : ℚ) : Except PlannerError (List ℕ) :=
  let maxLen := maxLen confidences maxVerifyLen
  if ¬(minVerifyLen ≤ maxLen ∧ maxLen ≤ width confidences + 1) then .error (.bounds minVerifyLen maxLen)
  else
    let candidates := (candidates confidences maxLen survivalEps).mergeSort Candidate.le
    let selected := (candidates.take budget).foldl
      (fun selected c => selected.modify c.request (· + 1)) (replicate confidences.length 0)
    let lowerBound := max minVerifyLen 1
    .ok (selected.map fun extra => min (max (minVerifyLen + extra) lowerBound) maxLen)

end Planner

section Purpose

def gain (rows : List (List ℚ)) (survivalEps : ℚ) (request position : ℕ) : ℚ :=
  let survival := (survivalPrefix (rows.getD request []) 0).getD position 0
  if survivalEps ≤ survival then survival else 0

def verifiedSurvival (rows : List (List ℚ)) (survivalEps : ℚ) (lens : List ℕ) : ℚ :=
  ∑ r ∈ Finset.range rows.length, ∑ p ∈ Finset.range (lens.getD r 0 - 1), gain rows survivalEps r p

structure Within (rows : List (List ℚ)) (minVerifyLen maxLen budget : ℕ) (lens : List ℕ) : Prop where
  length_eq : lens.length = rows.length
  bounds : ∀ len ∈ lens, max minVerifyLen 1 ≤ len ∧ len ≤ maxLen
  budget : ∑ r ∈ Finset.range rows.length, (lens.getD r 0 - max minVerifyLen 1) ≤ budget

/-- The tau behind a decision: its objective was `tau / step`. -/
def VerifyBudgetDecision.predictedTau (d : VerifyBudgetDecision) : ℚ :=
  match d.predictedStepSeconds with
  | none => 0
  | some seconds => d.predictedTheta * seconds

/-- The schedule is the best one within bounds and budget, and a budget is chosen for the tau that it gives. -/
structure Optimal (rows : List (List ℚ)) (minVerifyLen : ℕ) (maxVerifyLen : Option ℕ) (survivalEps : ℚ) : Prop where
  scheduled : ∀ budget, ∃ lens, scheduleVerifyLensTopk rows budget minVerifyLen maxVerifyLen survivalEps = .ok lens ∧
    Within rows minVerifyLen (maxLen rows maxVerifyLen) budget lens ∧
      ∀ lens', Within rows minVerifyLen (maxLen rows maxVerifyLen) budget lens' →
        verifiedSurvival rows survivalEps lens' ≤ verifiedSurvival rows survivalEps lens
  attained : ∀ table decision, computeVerifyTokenBudget (rows.map fun row => survivalPrefix row 0) table maxVerifyLen
    minVerifyLen survivalEps = .ok decision →
      ∃ lens, scheduleVerifyLensTopk rows decision.budget minVerifyLen maxVerifyLen survivalEps = .ok lens ∧
        decision.predictedTau = rows.length + verifiedSurvival rows survivalEps lens

/-- When they are: the minimum is the anchor alone and no surviving draft stands at the last candidate, which no
length verifies, or no first draft survives. -/
structure Plannable (rows : List (List ℚ)) (minVerifyLen maxLen : ℕ) (survivalEps : ℚ) : Prop where
  maxLen_pos : rows ≠ [] → 1 ≤ maxLen
  covered : (minVerifyLen = 1 ∧ ∀ request < rows.length, gain rows survivalEps request (maxLen - 1) = 0) ∨
    ∀ request < rows.length, gain rows survivalEps request 0 = 0

end Purpose

section Survival

variable {rows : List (List ℚ)} {eps : ℚ} {r : ℕ}

theorem clamp_nonneg (value : ℚ) : 0 ≤ clamp value := le_min (le_max_right _ _) zero_le_one

theorem clamp_le_one (value : ℚ) : clamp value ≤ 1 := min_le_right _ _

theorem clamp_of_mem {value : ℚ} (h : 0 ≤ value) (h' : value ≤ 1) : clamp value = value := by
  rw [clamp, max_eq_left h, min_eq_left h']

section

variable {product : ℚ} (h : 0 ≤ product)
include h

theorem mul_clamp_nonneg (value : ℚ) : 0 ≤ product * clamp value :=
  mul_nonneg h (clamp_nonneg value)

theorem survivalFrom_cons (value : ℚ) (confidence : List ℚ) : survivalFrom 0 product (value :: confidence) =
      product * clamp value :: survivalFrom 0 (product * clamp value) confidence := by
  rw [survivalFrom, if_neg (not_lt.mpr (mul_clamp_nonneg h value))]

theorem survivalFrom_bounds (confidence : List ℚ) :
    (∀ v ∈ survivalFrom 0 product confidence, 0 ≤ v ∧ v ≤ product) ∧
      (survivalFrom 0 product confidence).Pairwise fun a b => b ≤ a := by
  induction confidence generalizing product with
  | nil => exact ⟨fun v hv => absurd hv not_mem_nil, List.Pairwise.nil⟩
  | cons value confidence ih =>
    have hnonneg := mul_clamp_nonneg h value
    have hle : product * clamp value ≤ product := mul_le_of_le_one_right h (clamp_le_one value)
    obtain ⟨hbounds, hsorted⟩ := ih hnonneg
    rw [survivalFrom_cons h, forall_mem_cons, pairwise_cons]
    exact ⟨⟨⟨hnonneg, hle⟩, fun v hv => ⟨(hbounds v hv).1, (hbounds v hv).2.trans hle⟩⟩,
      fun v hv => (hbounds v hv).2, hsorted⟩

end

@[simp] theorem length_survivalFrom (epsilon product : ℚ) (confidence : List ℚ) :
    (survivalFrom epsilon product confidence).length = confidence.length := by
  induction confidence generalizing product with
  | nil => rfl
  | cons value confidence ih => rw [survivalFrom, length_cons, length_cons, ih]

/-- The survival of a position of a row, and zero behind the row. -/
def survival (rows : List (List ℚ)) (r p : ℕ) : ℚ := (survivalPrefix (rows.getD r []) 0).getD p 0

theorem survival_nonneg (rows : List (List ℚ)) (r p : ℕ) : 0 ≤ survival rows r p := by
  rw [survival, getD_eq_getElem?_getD]
  cases h : (survivalPrefix (rows.getD r []) 0)[p]? with
  | none => exact le_rfl
  | some v => exact ((survivalFrom_bounds zero_le_one _).1 v (mem_of_getElem? h)).1

theorem survival_antitone (rows : List (List ℚ)) (r : ℕ) {p q : ℕ} (hle : q ≤ p) :
    survival rows r p ≤ survival rows r q := by
  obtain rfl | hlt := eq_or_lt_of_le hle
  · exact le_rfl
  · by_cases hp : p < (survivalPrefix (rows.getD r []) 0).length
    · have hsorted := (survivalFrom_bounds zero_le_one (rows.getD r [])).2
      rw [survival, survival, getD_eq_getElem _ _ hp, getD_eq_getElem _ _ (hlt.trans hp)]
      exact pairwise_iff_getElem.mp hsorted q p (hlt.trans hp) hp hlt
    · rw [survival, getD_eq_default _ _ (not_lt.mp hp)]
      exact survival_nonneg rows r q

theorem gain_eq (rows : List (List ℚ)) (eps : ℚ) (r p : ℕ) :
    gain rows eps r p = if eps ≤ survival rows r p then survival rows r p else 0 := rfl

theorem gain_nonneg (rows : List (List ℚ)) (eps : ℚ) (r p : ℕ) : 0 ≤ gain rows eps r p := by
  rw [gain_eq]
  split
  · exact survival_nonneg rows r p
  · exact le_rfl

theorem gain_antitone (rows : List (List ℚ)) (eps : ℚ) (r : ℕ) {p q : ℕ} (hle : q ≤ p) :
    gain rows eps r p ≤ gain rows eps r q := by
  have hsurvival := survival_antitone rows r hle
  rw [gain_eq, gain_eq]
  split
  · rename_i heps
    rwa [if_pos (heps.trans hsurvival)]
  · split
    · exact survival_nonneg rows r q
    · exact le_rfl

theorem gain_eq_zero_of_first (h : gain rows eps r 0 = 0) (p : ℕ) : gain rows eps r p = 0 :=
  le_antisymm ((gain_antitone rows eps r (Nat.zero_le p)).trans_eq h) (gain_nonneg rows eps r p)

end Survival

section Candidates

variable {rows : List (List ℚ)} {maxLen : ℕ} {eps : ℚ}

theorem mem_candidates {c : Candidate} :
    c ∈ candidates rows maxLen eps ↔ c.request < rows.length ∧ c.position < maxLen ∧
      (survivalPrefix (rows.getD c.request []) 0)[c.position]? = some c.value ∧ eps ≤ c.value := by
  rw [candidates, mem_flatMap]
  constructor
  · rintro ⟨⟨row, request⟩, hrow, hc⟩
    obtain ⟨⟨value, position⟩, hvalue, hsome⟩ := mem_filterMap.mp hc
    rw [mem_zipIdx_iff_getElem?] at hrow hvalue
    dsimp only at hrow hvalue hsome
    obtain ⟨hlt, -⟩ := List.getElem?_eq_some_iff.mp hrow
    rw [getElem?_take] at hvalue
    split at hsome
    · rename_i heps
      cases hsome
      split at hvalue
      · rename_i hposition
        refine ⟨hlt, hposition, ?_, heps⟩
        rwa [getD_eq_getElem?_getD, hrow]
      · cases hvalue
    · cases hsome
  · rintro ⟨hlt, hposition, hvalue, heps⟩
    refine ⟨(rows.getD c.request [], c.request), ?_, mem_filterMap.mpr ⟨(c.value, c.position), ?_, if_pos heps⟩⟩
    · rw [mem_zipIdx_iff_getElem?, getD_eq_getElem _ _ hlt]
      exact getElem?_eq_getElem hlt
    · rw [mem_zipIdx_iff_getElem?, getElem?_take, if_pos hposition]
      exact hvalue

theorem nodup_zipIdx {α : Type} (l : List α) : l.zipIdx.Nodup := by
  apply List.Nodup.of_map Prod.snd
  rw [zipIdx_map_snd]
  exact nodup_range'

theorem nodup_candidates (rows : List (List ℚ)) (maxLen : ℕ) (eps : ℚ) : (candidates rows maxLen eps).Nodup := by
  have hrequest : ∀ row request c, c ∈ rowCandidates maxLen eps row request → c.request = request := by
    intro row request c hc
    obtain ⟨e, -, hsome⟩ := mem_filterMap.mp hc
    split at hsome
    · cases hsome
      rfl
    · cases hsome
  rw [candidates, nodup_flatMap]
  constructor
  · rintro ⟨row, request⟩ -
    refine List.Nodup.filterMap ?_ (nodup_zipIdx _)
    rintro ⟨value, position⟩ ⟨value', position'⟩ c hc hc'
    dsimp only at hc hc'
    split at hc
    · split at hc'
      · cases hc
        cases hc'
        rfl
      · cases hc'
    · cases hc
  · have hsnd : rows.zipIdx.Pairwise fun e e' => e.2 ≠ e'.2 := by
      rw [← pairwise_map (R := (· ≠ ·)), zipIdx_map_snd]
      exact nodup_range'
    refine hsnd.imp fun {e e'} hne c hc hc' => hne ?_
    rw [← hrequest _ _ _ hc, hrequest _ _ _ hc']

theorem Candidate.le_iff {a b : Candidate} : a.le b = true ↔ b.value < a.value ∨ (b.value = a.value ∧
    (a.position < b.position ∨ (a.position = b.position ∧ a.request ≤ b.request))) := decide_eq_true_iff

theorem Candidate.le_trans {a b c : Candidate} (hab : a.le b = true) (hbc : b.le c = true) : a.le c = true := by
  rw [le_iff] at *
  obtain hlt | ⟨heq, hkey⟩ := hab
  · obtain hlt' | ⟨heq', -⟩ := hbc
    · exact .inl (hlt'.trans hlt)
    · exact .inl (heq'.trans_lt hlt)
  · obtain hlt' | ⟨heq', hkey'⟩ := hbc
    · exact .inl (hlt'.trans_eq heq)
    · exact .inr ⟨heq'.trans heq, by omega⟩

theorem Candidate.le_total (a b : Candidate) : (a.le b || b.le a) = true := by
  rw [Bool.or_eq_true, le_iff, le_iff]
  obtain hlt | heq | hlt := lt_trichotomy a.value b.value
  · exact .inr (.inl hlt)
  · have hkey : (a.position < b.position ∨ (a.position = b.position ∧ a.request ≤ b.request)) ∨
        (b.position < a.position ∨ (b.position = a.position ∧ b.request ≤ a.request)) := by omega
    exact hkey.imp (fun h => .inr ⟨heq.symm, h⟩) fun h => .inr ⟨heq, h⟩
  · exact .inl (.inl hlt)

theorem Candidate.value_le {a b : Candidate} (h : a.le b = true) : b.value ≤ a.value :=
  (le_iff.mp h).elim le_of_lt fun h => le_of_eq h.1

end Candidates

section Order

variable {rows : List (List ℚ)} {maxLen : ℕ} {eps : ℚ} {b : ℕ}

def order (rows : List (List ℚ)) (maxLen : ℕ) (eps : ℚ) : List Candidate :=
  (candidates rows maxLen eps).mergeSort Candidate.le

theorem order_sorted (rows : List (List ℚ)) (maxLen : ℕ) (eps : ℚ) :
    (order rows maxLen eps).Pairwise fun a b => a.le b = true := by
  have htrans : ∀ a b c : Candidate, a.le b = true → b.le c = true → a.le c = true :=
    fun _ _ _ => Candidate.le_trans
  exact pairwise_mergeSort htrans Candidate.le_total (candidates rows maxLen eps)

theorem mem_order {c : Candidate} : c ∈ order rows maxLen eps ↔ c ∈ candidates rows maxLen eps := mem_mergeSort

def Candidate.key (c : Candidate) : (_ : ℕ) × ℕ := ⟨c.request, c.position⟩

def keys (rows : List (List ℚ)) (maxLen : ℕ) (eps : ℚ) : List ((_ : ℕ) × ℕ) :=
  (order rows maxLen eps).map Candidate.key

theorem value_eq {c : Candidate} (hc : c ∈ candidates rows maxLen eps) :
    c.value = survival rows c.request c.position ∧ c.value = gain rows eps c.request c.position := by
  obtain ⟨-, -, hvalue, heps⟩ := mem_candidates.mp hc
  have hsurvival : survival rows c.request c.position = c.value := by
    rw [survival, getD_eq_getElem?_getD, hvalue]
    rfl
  rw [gain_eq, hsurvival, if_pos heps]
  exact ⟨rfl, rfl⟩

theorem nodup_keys (rows : List (List ℚ)) (maxLen : ℕ) (eps : ℚ) : (keys rows maxLen eps).Nodup := by
  have horder : (order rows maxLen eps).Nodup :=
    (mergeSort_perm _ _).nodup_iff.mpr (nodup_candidates rows maxLen eps)
  refine List.Nodup.map_on (fun c hc c' hc' heq => ?_) horder
  obtain ⟨value, position, request⟩ := c
  obtain ⟨value', position', request'⟩ := c'
  obtain ⟨rfl, rfl⟩ : request = request' ∧ position = position' := by
    rw [Candidate.key, Candidate.key, Sigma.mk.injEq] at heq
    exact ⟨heq.1, eq_of_heq heq.2⟩
  have hvalue := (value_eq (mem_order.mp hc)).1
  have hvalue' := (value_eq (mem_order.mp hc')).1
  dsimp only at hvalue hvalue'
  rw [hvalue, hvalue']

theorem mem_keys {k : (_ : ℕ) × ℕ} : k ∈ keys rows maxLen eps ↔
    ∃ c ∈ candidates rows maxLen eps, c.key = k := by
  simp only [keys, mem_map, mem_order]

/-- A position of a row that is not below `survival_eps` is a candidate. -/
theorem mem_keys_of_gain {r p : ℕ} (hr : r < rows.length) (hp : p < maxLen) (h : gain rows eps r p ≠ 0) :
    (⟨r, p⟩ : (_ : ℕ) × ℕ) ∈ keys rows maxLen eps := by
  have heps : eps ≤ survival rows r p := by
    by_contra heps
    exact h (if_neg heps)
  have hne : survival rows r p ≠ 0 := by
    rw [gain_eq, if_pos heps] at h
    exact h
  rw [mem_keys]
  cases hvalue : (survivalPrefix (rows.getD r []) 0)[p]? with
  | none =>
    rw [survival, getD_eq_getElem?_getD, hvalue] at hne
    exact absurd rfl hne
  | some v =>
    refine ⟨⟨v, p, r⟩, mem_candidates.mpr ⟨hr, hp, hvalue, ?_⟩, rfl⟩
    rwa [survival, getD_eq_getElem?_getD, hvalue] at heps

theorem keys_sorted (rows : List (List ℚ)) (maxLen : ℕ) (eps : ℚ) :
    (keys rows maxLen eps).Pairwise fun k k' => gain rows eps k'.1 k'.2 ≤ gain rows eps k.1 k.2 := by
  rw [keys, pairwise_map]
  refine (order_sorted rows maxLen eps).imp_of_mem fun {a b} ha hb h => ?_
  have hle := Candidate.value_le h
  rwa [(value_eq (mem_order.mp ha)).2, (value_eq (mem_order.mp hb)).2] at hle

def top (rows : List (List ℚ)) (maxLen : ℕ) (eps : ℚ) (b : ℕ) : Finset ((_ : ℕ) × ℕ) :=
  ((keys rows maxLen eps).take b).toFinset

def topSum (rows : List (List ℚ)) (maxLen : ℕ) (eps : ℚ) (b : ℕ) : ℚ :=
  (((keys rows maxLen eps).take b).map fun k => gain rows eps k.1 k.2).sum

theorem topSum_eq (rows : List (List ℚ)) (maxLen : ℕ) (eps : ℚ) (b : ℕ) :
    topSum rows maxLen eps b = ∑ k ∈ top rows maxLen eps b, gain rows eps k.1 k.2 :=
  (sum_toFinset _ ((nodup_keys rows maxLen eps).sublist (take_sublist _ _))).symm

theorem mem_top {k : (_ : ℕ) × ℕ} (h : k ∈ top rows maxLen eps b) :
    k ∈ keys rows maxLen eps ∧ k.1 < rows.length ∧ k.2 < maxLen := by
  have hk := mem_of_mem_take (mem_toFinset.mp h)
  obtain ⟨c, hc, rfl⟩ := mem_keys.mp hk
  obtain ⟨hrequest, hposition, -⟩ := mem_candidates.mp hc
  exact ⟨hk, hrequest, hposition⟩

theorem card_top_le (rows : List (List ℚ)) (maxLen : ℕ) (eps : ℚ) (b : ℕ) : (top rows maxLen eps b).card ≤ b :=
  (toFinset_card_le _).trans (length_take_le _ _)

/-- No set of candidates within the budget survives better. -/
theorem sum_le_topSum {X : Finset ((_ : ℕ) × ℕ)} (hX : ∀ k ∈ X, k ∈ keys rows maxLen eps) (hcard : X.card ≤ b) :
    ∑ k ∈ X, gain rows eps k.1 k.2 ≤ topSum rows maxLen eps b :=
  GreedySum.sum_le_take (keys_sorted rows maxLen eps) (fun k _ => gain_nonneg rows eps k.1 k.2) hX hcard

/-- The first candidates take an initial segment of every row. -/
theorem top_lower (r p : ℕ) (hp : (⟨r, p⟩ : (_ : ℕ) × ℕ) ∈ top rows maxLen eps b) (q : ℕ) (hq : q < p) :
    (⟨r, q⟩ : (_ : ℕ) × ℕ) ∈ top rows maxLen eps b := by
  rw [top, mem_toFinset, keys, ← map_take] at hp ⊢
  obtain ⟨c, hc, hkey⟩ := mem_map.mp hp
  obtain ⟨rfl, hposition⟩ : c.request = r ∧ c.position = p := by
    rw [Candidate.key, Sigma.mk.injEq] at hkey
    exact ⟨hkey.1, eq_of_heq hkey.2⟩
  subst hposition
  have hmem := mem_order.mp (mem_of_mem_take hc)
  obtain ⟨hr, hlen, hvalue, heps⟩ := mem_candidates.mp hmem
  have hlt := hq.trans (List.getElem?_eq_some_iff.mp hvalue).1
  have hle : c.value ≤ (survivalPrefix (rows.getD c.request []) 0)[q] := by
    obtain ⟨hc', hget⟩ := List.getElem?_eq_some_iff.mp hvalue
    rw [← hget]
    exact pairwise_iff_getElem.mp (survivalFrom_bounds zero_le_one _).2 q c.position hlt hc' hq
  -- the earlier position of the row is a candidate and the order does not put it behind
  let earlier : Candidate := ⟨(survivalPrefix (rows.getD c.request []) 0)[q], q, c.request⟩
  have hearlier : earlier ∈ order rows maxLen eps :=
    mem_order.mpr (mem_candidates.mpr ⟨hr, hq.trans hlen, getElem?_eq_getElem hlt, heps.trans hle⟩)
  have hnot : ¬c.le earlier = true := by
    rw [Candidate.le_iff]
    rintro (hlt' | ⟨-, hkey'⟩)
    · exact absurd hlt' (not_lt.mpr hle)
    · dsimp only [earlier] at hkey'
      omega
  exact mem_map.mpr
    ⟨earlier, GreedySum.mem_take_of_not (order_sorted rows maxLen eps) hc hearlier hnot, rfl⟩

theorem topSum_rows (rows : List (List ℚ)) (maxLen : ℕ) (eps : ℚ) (b : ℕ) :
    topSum rows maxLen eps b = ∑ r ∈ Finset.range rows.length,
      ∑ p ∈ Finset.range (GreedySum.taken (top rows maxLen eps b) r), gain rows eps r p := by
  rw [topSum_eq]
  exact GreedySum.sum_taken (fun k hk => (mem_top hk).2.1) top_lower (gain rows eps)

theorem taken_le (rows : List (List ℚ)) (maxLen : ℕ) (eps : ℚ) (b r : ℕ) :
    GreedySum.taken (top rows maxLen eps b) r ≤ maxLen := by
  by_contra hlt
  have hmem := (GreedySum.mem_iff_lt_taken (top_lower (b := b)) r maxLen).mpr (not_le.mp hlt)
  exact absurd (mem_top hmem).2.2 (lt_irrefl _)

theorem sum_taken_le (rows : List (List ℚ)) (maxLen : ℕ) (eps : ℚ) (b : ℕ) :
    ∑ r ∈ Finset.range rows.length, GreedySum.taken (top rows maxLen eps b) r ≤ b := by
  rw [GreedySum.card_taken fun k hk => (mem_top hk).2.1]
  exact card_top_le rows maxLen eps b

end Order

section Schedule

variable {rows : List (List ℚ)} {minVerifyLen budget : ℕ} {maxVerifyLen : Option ℕ} {eps : ℚ}

theorem foldl_modify (l : List Candidate) (selected : List ℕ) (r : ℕ) :
    (l.foldl (fun selected c => selected.modify c.request (· + 1)) selected)[r]? =
      selected[r]?.map (· + l.countP fun c => c.request = r) := by
  induction l generalizing selected with
  | nil => simp only [foldl_nil, countP_nil, add_zero, Option.map_id']
  | cons c l ih =>
    rw [foldl_cons, ih, getElem?_modify, countP_cons]
    by_cases heq : c.request = r
    · simp only [heq, if_true, decide_true, Option.map_map, Function.comp_def, Option.map_eq_map]
      congr 1
      funext n
      omega
    · simp only [heq, if_false, decide_false, Bool.false_eq_true, add_zero, Option.map_eq_map, Option.map_id']

theorem length_foldl_modify (l : List Candidate) (selected : List ℕ) :
    (l.foldl (fun selected c => selected.modify c.request (· + 1)) selected).length = selected.length := by
  induction l generalizing selected with
  | nil => rfl
  | cons c l ih => rw [foldl_cons, ih, length_modify]

/-- The candidates selected for a request are the ones that the budget takes of its row. -/
theorem countP_take (rows : List (List ℚ)) (maxLen : ℕ) (eps : ℚ) (b r : ℕ) :
    ((order rows maxLen eps).take b).countP (fun c => c.request = r) =
      GreedySum.taken (top rows maxLen eps b) r := by
  have hnodup : ((keys rows maxLen eps).take b).Nodup :=
    (nodup_keys rows maxLen eps).sublist (take_sublist _ _)
  have hfilter : (top rows maxLen eps b).filter (fun k => k.1 = r) =
      (((keys rows maxLen eps).take b).filter fun k => k.1 = r).toFinset := by
    rw [top, toFinset_filter]
    simp only [decide_eq_true_eq]
  rw [GreedySum.taken, hfilter, toFinset_card_of_nodup (hnodup.filter _), ← countP_eq_length_filter, keys,
    ← map_take, countP_map]
  rfl

theorem schedule_ok (hmin : minVerifyLen ≤ maxLen rows maxVerifyLen)
    (hmax : maxLen rows maxVerifyLen ≤ width rows + 1) (budget : ℕ) :
    ∃ lens, scheduleVerifyLensTopk rows budget minVerifyLen maxVerifyLen eps = .ok lens ∧ lens.length = rows.length ∧
      ∀ r < rows.length, lens.getD r 0 =
        min (max (minVerifyLen + GreedySum.taken (top rows (maxLen rows maxVerifyLen) eps budget) r)
          (max minVerifyLen 1))
          (maxLen rows maxVerifyLen) := by
  rw [scheduleVerifyLensTopk, if_neg (not_not.mpr ⟨hmin, hmax⟩)]
  have hget := foldl_modify ((order rows (maxLen rows maxVerifyLen) eps).take budget) (replicate rows.length 0)
  rw [order] at hget
  refine ⟨_, rfl, ?_, fun r hr => ?_⟩
  · rw [length_map, length_foldl_modify, length_replicate]
  · rw [getD_eq_getElem?_getD, getElem?_map, hget, getElem?_replicate, if_pos hr, ← order, countP_take]
    simp only [Option.map_some, Option.getD_some, zero_add]

end Schedule

section Budget

variable {rows : List (List ℚ)} {minVerifyLen : ℕ} {maxVerifyLen : Option ℕ} {eps : ℚ}

/-- The rows that `_verify_widths` gives to the budget. -/
def survivals (rows : List (List ℚ)) : List (List ℚ) := rows.map fun row => survivalPrefix row 0

theorem maxLen_survivals (rows : List (List ℚ)) (maxVerifyLen : Option ℕ) :
    maxLen (survivals rows) maxVerifyLen = maxLen rows maxVerifyLen := by
  have hlength : (survivals rows).map List.length = rows.map List.length := by
    rw [survivals, map_map]
    apply map_congr_left
    intro row _
    exact length_survivalFrom 0 1 row
  rw [maxLen, maxLen, width, width, hlength]

theorem rowCandidates_value (maxLen : ℕ) (eps : ℚ) (row : List ℚ) (request : ℕ) :
    (rowCandidates maxLen eps row request).map Candidate.value =
      (((survivalPrefix row 0).take maxLen).filter fun value => eps ≤ value).map clamp := by
  have hbounds : ∀ v ∈ (survivalPrefix row 0).take maxLen, clamp v = v := by
    intro v hv
    obtain ⟨h, h'⟩ := (survivalFrom_bounds zero_le_one row).1 v (mem_of_mem_take hv)
    exact clamp_of_mem h h'
  rw [rowCandidates]
  generalize (survivalPrefix row 0).take maxLen = values at hbounds
  generalize 0 = first
  induction values generalizing first with
  | nil => rfl
  | cons v values ih =>
    rw [forall_mem_cons] at hbounds
    rw [zipIdx_cons, filterMap_cons, filter_cons]
    by_cases heps : eps ≤ v
    · simp only [heps, if_true, decide_true, map_cons, hbounds.1]
      rw [ih hbounds.2]
    · simp only [heps, if_false, decide_false, Bool.false_eq_true]
      exact ih hbounds.2 _

/-- The budget counts the candidates of the scheduler. -/
theorem budgetCandidates_eq (rows : List (List ℚ)) (maxLen : ℕ) (eps : ℚ) :
    budgetCandidates (survivals rows) maxLen eps = (order rows maxLen eps).map Candidate.value := by
  have hperm : (budgetCandidates (survivals rows) maxLen eps).Perm ((order rows maxLen eps).map Candidate.value) := by
    refine (mergeSort_perm _ _).trans ?_
    refine List.Perm.trans ?_ ((mergeSort_perm (candidates rows maxLen eps) Candidate.le).map _).symm
    rw [survivals, flatMap_map, candidates, map_flatMap]
    simp only [rowCandidates_value]
    conv_lhs => rw [← zipIdx_map_fst 0 rows, flatMap_map]
  have htrans : ∀ a b c : ℚ, decide (b ≤ a) = true → decide (c ≤ b) = true → decide (c ≤ a) = true := by
    intro a b c hab hbc
    rw [decide_eq_true_eq] at *
    exact hbc.trans hab
  have htotal : ∀ a b : ℚ, (decide (b ≤ a) || decide (a ≤ b)) = true := by
    intro a b
    simpa using le_total b a
  have hsorted : (budgetCandidates (survivals rows) maxLen eps).Pairwise fun a b => b ≤ a :=
    (pairwise_mergeSort htrans htotal _).imp fun h => of_decide_eq_true h
  have hsorted' : ((order rows maxLen eps).map Candidate.value).Pairwise fun a b => b ≤ a := by
    rw [pairwise_map]
    exact (order_sorted rows maxLen eps).imp fun h => Candidate.value_le h
  exact hperm.eq_of_pairwise (fun a b _ _ hab hba => le_antisymm hba hab) hsorted hsorted'

theorem topSum_eq_take (rows : List (List ℚ)) (maxLen : ℕ) (eps : ℚ) (b : ℕ) :
    topSum rows maxLen eps b = (((order rows maxLen eps).map Candidate.value).take b).sum := by
  rw [topSum, keys, ← map_take, ← map_take, map_map]
  congr 1
  apply map_congr_left
  intro c hc
  exact (value_eq (mem_order.mp (mem_of_mem_take hc))).2.symm

/-- `tau_star` of a budget: the anchors and the first candidates. -/
theorem tauStar_eq (rows : List (List ℚ)) (maxLen : ℕ) (eps : ℚ) :
    (tauStar (survivals rows) maxLen eps).length = (order rows maxLen eps).length + 1 ∧
      ∀ b ≤ (order rows maxLen eps).length,
        (tauStar (survivals rows) maxLen eps)[b]? = some (rows.length + topSum rows maxLen eps b) := by
  rw [tauStar, budgetCandidates_eq]
  constructor
  · rw [length_map, length_scanl, length_map]
  · intro b hb
    rw [getElem?_map, getElem?_scanl, if_pos (by rwa [length_map]), topSum_eq_take, survivals,
      length_map, ← sum_eq_foldl]
    rfl

variable {theta : List ℚ}

theorem best_lt (h : theta ≠ []) : best theta < theta.length := by
  rw [best]
  cases hargmax : (range theta.length).argmax fun i => theta.getD i 0 with
  | none => exact absurd (range_eq_nil.mp (argmax_eq_none.mp hargmax)) (by simpa using h)
  | some i => exact mem_range.mp (argmax_mem hargmax)

/-- The only maximum is found. -/
theorem best_eq {i : ℕ} (hi : i < theta.length)
    (h : ∀ j < theta.length, j ≠ i → theta.getD j 0 < theta.getD i 0) : best theta = i := by
  rw [best]
  cases hargmax : (range theta.length).argmax fun i => theta.getD i 0 with
  | none =>
    rw [range_eq_nil.mp (argmax_eq_none.mp hargmax)] at hi
    exact absurd hi (Nat.not_lt_zero i)
  | some j =>
    by_contra hne
    have hle := le_of_mem_argmax (mem_range.mpr hi) hargmax
    exact absurd (h j (mem_range.mp (argmax_mem hargmax)) hne) (not_lt.mpr hle)

theorem SpsCostTable.lookup_pos (t : SpsCostTable) (batchTokens : ℕ) : 0 < t.lookup batchTokens := by
  have hpos : 0 < t.sampleStepsPerSec.length := by
    rw [← t.length_eq]
    exact length_pos_iff.mpr t.probes
  have hlt : min (searchsortedRight t.sampleBatchTokens batchTokens - 1) (t.sampleStepsPerSec.length - 1) <
      t.sampleStepsPerSec.length := by omega
  rw [lookup, getD_eq_getElem _ _ hlt]
  exact t.rate_pos _ (getElem_mem _)

/-- The objective of an additive table, taken back. -/
theorem div_getD {tau steps : List ℚ} (hlength : tau.length = steps.length) (hsteps : 0 ∉ steps) (b : ℕ) :
    (zipWith (· / ·) tau steps).getD b 0 * steps.getD b 0 = tau.getD b 0 := by
  rw [getD_eq_getElem?_getD, getD_eq_getElem?_getD, getD_eq_getElem?_getD, getElem?_zipWith]
  by_cases hb : b < tau.length
  · have hb' : b < steps.length := hlength ▸ hb
    have hne : steps[b] ≠ 0 := fun hzero => hsteps (hzero ▸ getElem_mem hb')
    rw [getElem?_eq_getElem hb, getElem?_eq_getElem hb']
    exact div_mul_cancel₀ _ hne
  · rw [getElem?_eq_none (not_lt.mp hb), getElem?_eq_none (hlength ▸ not_lt.mp hb)]
    exact zero_mul _

theorem mul_getD (tau : List ℚ) (t : SpsCostTable) (numRequests b : ℕ) :
    (tau.zipIdx.map fun e => e.1 * t.lookup (numRequests + e.2)).getD b 0 =
      tau.getD b 0 * t.lookup (numRequests + b) := by
  rw [getD_eq_getElem?_getD, getD_eq_getElem?_getD, getElem?_map, getElem?_zipIdx]
  cases tau[b]? with
  | none => exact (zero_mul _).symm
  | some value =>
    simp only [Option.map_some, Option.getD_some, zero_add]

theorem tauStar_getD {b : ℕ} (hb : b ≤ (order rows (maxLen rows maxVerifyLen) eps).length) :
    (tauStar (survivals rows) (maxLen rows maxVerifyLen) eps).getD b 0 =
      rows.length + topSum rows (maxLen rows maxVerifyLen) eps b := by
  rw [getD_eq_getElem?_getD, (tauStar_eq rows _ eps).2 b hb]
  rfl

theorem best_le {n : ℕ} (h : theta.length = n + 1) : best theta ≤ n := by
  have hlt := best_lt (ne_nil_of_length_eq_add_one h)
  omega

theorem best_zipWith_le {tau steps : List ℚ} {n : ℕ} (hlength : tau.length = steps.length) (htau : tau.length = n + 1) :
    best (zipWith (· / ·) tau steps) ≤ n :=
  best_le (by rw [length_zipWith, ← hlength, min_self, htau])

/-- A decision is about one of the prefixes of the candidates, and its objective was taken for that one. -/
theorem decision_spec (hrows : rows ≠ []) {table : SpsTable} {d : VerifyBudgetDecision}
    (h : computeVerifyTokenBudget (survivals rows) table maxVerifyLen minVerifyLen eps = .ok d) :
    d.budget ≤ (order rows (maxLen rows maxVerifyLen) eps).length ∧
      d.predictedTau = rows.length + topSum rows (maxLen rows maxVerifyLen) eps d.budget := by
  have hlength : (survivals rows).length ≠ 0 := by
    rw [survivals, length_map]
    exact fun hzero => hrows (length_eq_zero_iff.mp hzero)
  have htau := (tauStar_eq rows (maxLen rows maxVerifyLen) eps).1
  rw [computeVerifyTokenBudget, if_neg hlength, maxLen_survivals] at h
  split at h
  · cases h
  · split at h
    · cases h
    · split at h
      · cases h
      · cases table with
        | additive t =>
          dsimp only at h
          split at h
          · cases h
          · rename_i hsteps
            have hsame : (tauStar (survivals rows) (maxLen rows maxVerifyLen) eps).length =
                ((range (tauStar (survivals rows) (maxLen rows maxVerifyLen) eps).length).map fun index =>
                  t.stepTime (survivals rows).length index).length := by rw [length_map, length_range]
            have hle := best_zipWith_le hsame htau
            cases h
            exact ⟨hle, (div_getD hsame hsteps _).trans (tauStar_getD hle)⟩
        | cost t =>
          have hle : best ((tauStar (survivals rows) (maxLen rows maxVerifyLen) eps).zipIdx.map fun e =>
              e.1 * t.lookup ((survivals rows).length + e.2)) ≤ (order rows (maxLen rows maxVerifyLen) eps).length :=
            best_le (by rw [length_map, length_zipIdx, htau])
          cases h
          refine ⟨hle, ?_⟩
          dsimp only [VerifyBudgetDecision.predictedTau]
          rw [mul_getD, tauStar_getD hle, mul_assoc,
            mul_one_div_cancel (ne_of_gt (t.lookup_pos _)), mul_one]

end Budget

section Spike

variable {rows : List (List ℚ)} {minVerifyLen : ℕ} {maxVerifyLen : Option ℕ} {eps : ℚ} {b n N : ℕ} {δ : ℚ}

def spikeTable (n N b : ℕ) (δ : ℚ) (hn : 1 ≤ n) (hδ : 0 < δ) : SpsCostTable where
  sampleBatchTokens := range' n (N + 1)
  sampleStepsPerSec := (range (N + 1)).map fun i => if i = b then 1 else δ
  maxBatchTokens := n + N
  probes := ne_nil_of_length_eq_add_one length_range'
  increasing := pairwise_lt_range'
  length_eq := by rw [length_range', length_map, length_range]
  last_le := by
    intro token htoken
    have := (mem_range'_1.mp htoken).2
    omega
  token_pos := fun token htoken => hn.trans (mem_range'_1.mp htoken).1
  rate_pos := by
    intro rate hrate
    obtain ⟨i, -, rfl⟩ := mem_map.mp hrate
    split
    · exact one_pos
    · exact hδ

theorem searchsortedRight_range' {j : ℕ} (hj : j ≤ N) : searchsortedRight (range' n (N + 1)) (n + j) = j + 1 := by
  apply length_takeWhile
  · rw [length_range']
    omega
  · intro i hi a ha
    rw [getElem?_range' (by omega), Option.some.injEq] at ha
    exact decide_eq_true (by omega)
  · intro a ha
    obtain ⟨hlt, hget⟩ := List.getElem?_eq_some_iff.mp ha
    rw [getElem_range'] at hget
    exact decide_eq_false (by omega)

theorem spikeTable_lookup (hn : 1 ≤ n) (hδ : 0 < δ) {j : ℕ} (hj : j ≤ N) :
    (spikeTable n N b δ hn hδ).lookup (n + j) = if j = b then 1 else δ := by
  have hindex : min (searchsortedRight (spikeTable n N b δ hn hδ).sampleBatchTokens (n + j) - 1)
      ((spikeTable n N b δ hn hδ).sampleStepsPerSec.length - 1) = j := by
    dsimp only [spikeTable]
    rw [searchsortedRight_range' hj, length_map, length_range]
    omega
  rw [SpsCostTable.lookup, hindex, getD_eq_getElem?_getD]
  dsimp only [spikeTable]
  rw [getElem?_map, getElem?_range (by omega)]
  rfl

theorem length_order (rows : List (List ℚ)) (maxLen : ℕ) (eps : ℚ) :
    (keys rows maxLen eps).length = (order rows maxLen eps).length := length_map _

theorem topSum_nonneg (rows : List (List ℚ)) (maxLen : ℕ) (eps : ℚ) (b : ℕ) : 0 ≤ topSum rows maxLen eps b := by
  rw [topSum_eq]
  exact Finset.sum_nonneg fun k _ => gain_nonneg rows eps k.1 k.2

theorem topSum_le (rows : List (List ℚ)) (maxLen : ℕ) (eps : ℚ) (b : ℕ) :
    topSum rows maxLen eps b ≤ topSum rows maxLen eps (order rows maxLen eps).length := by
  rw [topSum_eq rows maxLen eps b]
  apply sum_le_topSum fun k hk => (mem_top hk).1
  rw [← length_order]
  exact (toFinset_card_le _).trans (by rw [length_take]; exact min_le_right _ _)

def costTheta (rows : List (List ℚ)) (maxLen : ℕ) (eps : ℚ) (t : SpsCostTable) : List ℚ :=
  (tauStar (survivals rows) maxLen eps).zipIdx.map fun e => e.1 * t.lookup ((survivals rows).length + e.2)

section

variable (hrows : rows ≠ []) (heps : 0 ≤ eps) (hpos : 1 ≤ maxLen rows maxVerifyLen)
  (hmin : minVerifyLen ≤ maxLen rows maxVerifyLen)
include hrows heps hpos hmin

theorem compute_cost (t : SpsCostTable) :
    ∃ d, computeVerifyTokenBudget (survivals rows) (.cost t) maxVerifyLen minVerifyLen eps = .ok d ∧
      d.budget = best (costTheta rows (maxLen rows maxVerifyLen) eps t) := by
  have hlength : (survivals rows).length ≠ 0 := by
    rw [survivals, length_map]
    exact fun hzero => hrows (length_eq_zero_iff.mp hzero)
  rw [computeVerifyTokenBudget, if_neg hlength, maxLen_survivals, if_neg (not_lt.mpr hpos),
    if_neg (not_lt.mpr hmin), if_neg (not_lt.mpr heps)]
  exact ⟨_, rfl, rfl⟩

/-- Every number of candidates is the best budget for some table. -/
theorem exists_decision (hb : b ≤ (order rows (maxLen rows maxVerifyLen) eps).length) :
    ∃ table d, computeVerifyTokenBudget (survivals rows) table maxVerifyLen minVerifyLen eps = .ok d ∧
    d.budget = b := by
  have hn : 1 ≤ (survivals rows).length := by
    rw [survivals, length_map]
    exact length_pos_iff.mpr hrows
  have hcount : ((survivals rows).length : ℚ) = rows.length := by rw [survivals, length_map]
  have hone : (1 : ℚ) ≤ rows.length := by
    rw [← hcount]
    exact_mod_cast hn
  generalize hN : (order rows (maxLen rows maxVerifyLen) eps).length = N at hb
  have htotal := topSum_nonneg rows (maxLen rows maxVerifyLen) eps N
  have hδ : 0 < 1 / (rows.length + topSum rows (maxLen rows maxVerifyLen) eps N + 1) := by
    apply one_div_pos.mpr
    linarith
  obtain ⟨htau, -⟩ := tauStar_eq rows (maxLen rows maxVerifyLen) eps
  obtain ⟨d, hcompute, hbudget⟩ :=
    compute_cost hrows heps hpos hmin (spikeTable (survivals rows).length N b _ hn hδ)
  refine ⟨_, d, hcompute, hbudget.trans (best_eq ?_ ?_)⟩
  · rw [costTheta, length_map, length_zipIdx, htau]
    omega
  · intro j hj hne
    rw [costTheta, length_map, length_zipIdx, htau] at hj
    rw [costTheta, mul_getD, mul_getD, tauStar_getD (by omega), tauStar_getD (by omega),
      spikeTable_lookup hn hδ (by omega), spikeTable_lookup hn hδ hb, if_neg hne, if_pos rfl, mul_one, mul_one_div,
      div_lt_iff₀ (by linarith)]
    have hle := topSum_le rows (maxLen rows maxVerifyLen) eps j
    have hb0 := topSum_nonneg rows (maxLen rows maxVerifyLen) eps b
    rw [hN] at hle
    nlinarith

end

end Spike

section Exact

variable {rows : List (List ℚ)} {minVerifyLen b : ℕ} {maxVerifyLen : Option ℕ} {eps : ℚ} {lens : List ℕ}

/-- The length of a request with `extra` selected candidates. -/
def lenOf (minVerifyLen maxLen extra : ℕ) : ℕ := min (max (minVerifyLen + extra) (max minVerifyLen 1)) maxLen

structure Scheduled (rows : List (List ℚ)) (minVerifyLen maxLen : ℕ) (eps : ℚ) (b : ℕ) (lens : List ℕ) : Prop where
  length_eq : lens.length = rows.length
  getD : ∀ r < rows.length, lens.getD r 0 =
    lenOf minVerifyLen maxLen (GreedySum.taken (top rows maxLen eps b) r)

theorem schedule_scheduled (hmin : minVerifyLen ≤ maxLen rows maxVerifyLen)
    (hmax : maxLen rows maxVerifyLen ≤ width rows + 1) (b : ℕ) :
    ∃ lens, scheduleVerifyLensTopk rows b minVerifyLen maxVerifyLen eps = .ok lens ∧
      Scheduled rows minVerifyLen (maxLen rows maxVerifyLen) eps b lens := by
  obtain ⟨lens, hrun, hlength, hget⟩ := schedule_ok hmin hmax b
  exact ⟨lens, hrun, hlength, hget⟩

theorem taken_top_mono (rows : List (List ℚ)) (maxLen : ℕ) (eps : ℚ) (r : ℕ) :
    Monotone fun b => GreedySum.taken (top rows maxLen eps b) r := by
  intro b b' hle
  refine Finset.card_le_card (Finset.filter_subset_filter _ fun k hk => ?_)
  exact mem_toFinset.mpr ((take_subset_take_left _ hle) (mem_toFinset.mp hk))

/-- A larger budget shortens the verify length of no request, and passes the same checks. -/
theorem schedule_monotone (rows : List (List ℚ)) (minVerifyLen : ℕ) (maxVerifyLen : Option ℕ) (eps : ℚ) :
    (∃ e, ∀ b, scheduleVerifyLensTopk rows b minVerifyLen maxVerifyLen eps = .error e) ∨
    ∃ lens : ℕ → List ℕ, (∀ b, scheduleVerifyLensTopk rows b minVerifyLen maxVerifyLen eps = .ok (lens b)) ∧
      ∀ r, Monotone fun b => (lens b).getD r 0 := by
  by_cases hbounds : minVerifyLen ≤ maxLen rows maxVerifyLen ∧ maxLen rows maxVerifyLen ≤ width rows + 1
  · choose lens hrun hscheduled using @schedule_scheduled rows minVerifyLen maxVerifyLen eps hbounds.1 hbounds.2
    refine .inr ⟨lens, hrun, fun r b b' hle => ?_⟩
    by_cases hr : r < rows.length
    · have htaken := taken_top_mono rows (maxLen rows maxVerifyLen) eps r hle
      dsimp only at htaken ⊢
      rw [(hscheduled b).getD r hr, (hscheduled b').getD r hr, lenOf, lenOf]
      omega
    · have hout : ∀ b, (lens b).getD r 0 = 0 := fun b =>
        getD_eq_default _ _ ((hscheduled b).length_eq ▸ not_lt.mp hr)
      simp only [hout, le_refl]
  · exact .inl ⟨_, fun b => by rw [scheduleVerifyLensTopk, if_pos hbounds]⟩

theorem Within.getD {maxLen : ℕ} (h : Within rows minVerifyLen maxLen b lens) {r : ℕ} (hr : r < rows.length) :
    max minVerifyLen 1 ≤ lens.getD r 0 ∧ lens.getD r 0 ≤ maxLen := by
  have hlt : r < lens.length := h.length_eq ▸ hr
  rw [getD_eq_getElem _ _ hlt]
  exact h.bounds _ (getElem_mem hlt)

/-- A schedule keeps its bounds and its budget. -/
theorem Scheduled.within {maxLen : ℕ} (h : Scheduled rows minVerifyLen maxLen eps b lens)
    (hmin : minVerifyLen ≤ maxLen) (hpos : rows ≠ [] → 1 ≤ maxLen) : Within rows minVerifyLen maxLen b lens := by
  constructor
  · exact h.length_eq
  · intro len hlen
    obtain ⟨r, hr, rfl⟩ := mem_iff_getElem.mp hlen
    have hrows : r < rows.length := h.length_eq ▸ hr
    have hone := hpos (ne_nil_of_length_pos (Nat.zero_lt_of_lt hrows))
    rw [← getD_eq_getElem _ 0 hr, h.getD r hrows, lenOf]
    omega
  · refine (Finset.sum_le_sum fun r hr => ?_).trans (sum_taken_le rows maxLen eps b)
    rw [h.getD r (Finset.mem_range.mp hr), lenOf]
    omega

/-- With the anchor as the minimum nothing within the budget survives better than its first candidates. -/
theorem Within.survival_le {maxLen : ℕ} (h : Within rows 1 maxLen b lens) :
    verifiedSurvival rows eps lens ≤ topSum rows maxLen eps b := by
  let verified := (Finset.range rows.length).sigma fun r => Finset.range (lens.getD r 0 - 1)
  have hsum : verifiedSurvival rows eps lens = ∑ k ∈ verified with gain rows eps k.1 k.2 ≠ 0, gain rows eps k.1 k.2 := by
    rw [Finset.sum_filter_ne_zero]
    exact (Finset.sum_sigma _ _ fun k : (_ : ℕ) × ℕ => gain rows eps k.1 k.2).symm
  rw [hsum]
  apply sum_le_topSum
  · rintro ⟨r, p⟩ hk
    obtain ⟨hverified, hgain⟩ := Finset.mem_filter.mp hk
    obtain ⟨hr, hp⟩ := Finset.mem_sigma.mp hverified
    rw [Finset.mem_range] at hr hp
    have hle : lens.getD r 0 ≤ maxLen := (h.getD hr).2
    dsimp only at hp
    exact mem_keys_of_gain hr (by omega) hgain
  · calc (Finset.filter (fun k => gain rows eps k.1 k.2 ≠ 0) verified).card
        ≤ verified.card := Finset.card_filter_le _ _
      _ = ∑ r ∈ Finset.range rows.length, (lens.getD r 0 - max 1 1) := by
        rw [Finset.card_sigma]
        exact Finset.sum_congr rfl fun r _ => Finset.card_range _
      _ ≤ b := h.budget

/-- The drafts behind the first candidates of a row are its last one at most. -/
theorem sum_lenOf_one {maxLen extra r : ℕ} (hextra : extra ≤ maxLen) (hlast : gain rows eps r (maxLen - 1) = 0) :
    ∑ p ∈ Finset.range (lenOf 1 maxLen extra - 1), gain rows eps r p = ∑ p ∈ Finset.range extra, gain rows eps r p := by
  obtain hlt | rfl := lt_or_eq_of_le hextra
  · have hlen : lenOf 1 maxLen extra - 1 = extra := by
      rw [lenOf]
      omega
    rw [hlen]
  · cases extra with
    | zero => rfl
    | succ n =>
      have hlen : lenOf 1 (n + 1) (n + 1) - 1 = n := by
        rw [lenOf]
        omega
      rw [hlen, Finset.sum_range_succ, Nat.add_sub_cancel] at *
      rw [hlast, add_zero]

theorem Scheduled.survival_eq {maxLen : ℕ} (h : Scheduled rows 1 maxLen eps b lens)
    (hlast : ∀ r < rows.length, gain rows eps r (maxLen - 1) = 0) :
    verifiedSurvival rows eps lens = topSum rows maxLen eps b := by
  rw [topSum_rows, verifiedSurvival]
  apply Finset.sum_congr rfl
  intro r hr
  rw [Finset.mem_range] at hr
  rw [h.getD r hr]
  exact sum_lenOf_one (taken_le rows maxLen eps b r) (hlast r hr)

section Nothing

variable (hfirst : ∀ r < rows.length, gain rows eps r 0 = 0)
include hfirst

theorem verifiedSurvival_eq_zero (lens : List ℕ) : verifiedSurvival rows eps lens = 0 :=
  Finset.sum_eq_zero fun r hr => Finset.sum_eq_zero fun p _ =>
    gain_eq_zero_of_first (hfirst r (Finset.mem_range.mp hr)) p

theorem topSum_eq_zero (maxLen b : ℕ) : topSum rows maxLen eps b = 0 := by
  rw [topSum_eq]
  exact Finset.sum_eq_zero fun k hk => gain_eq_zero_of_first (hfirst k.1 (mem_top hk).2.1) k.2

end Nothing

/-- The schedule of a budget survives as predicted. -/
def Predicted (rows : List (List ℚ)) (minVerifyLen maxLen : ℕ) (eps : ℚ) (b : ℕ) : Prop :=
  ∀ lens, Scheduled rows minVerifyLen maxLen eps b lens → topSum rows maxLen eps b = verifiedSurvival rows eps lens

/-- A minimum of zero wastes the first candidate of a request. -/
theorem Predicted.first_of_zero {maxLen : ℕ} (hpos : 1 ≤ maxLen) (hlens : Scheduled rows 0 maxLen eps 1 lens)
    (h : Predicted rows 0 maxLen eps 1) : ∀ r < rows.length, gain rows eps r 0 = 0 := by
  have hnone : verifiedSurvival rows eps lens = 0 := by
    refine Finset.sum_eq_zero fun r hr => ?_
    have htaken : GreedySum.taken (top rows maxLen eps 1) r ≤ 1 :=
      (Finset.single_le_sum (fun _ _ => Nat.zero_le _) hr).trans (sum_taken_le rows maxLen eps 1)
    have hlen : lens.getD r 0 - 1 = 0 := by
      rw [hlens.getD r (Finset.mem_range.mp hr), lenOf]
      omega
    rw [hlen, Finset.range_zero, Finset.sum_empty]
  intro r hr
  by_contra hgain
  have hkey := mem_keys_of_gain hr hpos hgain
  have hle : gain rows eps r 0 ≤ topSum rows maxLen eps 1 := by
    rw [← Finset.sum_singleton (fun k : (_ : ℕ) × ℕ => gain rows eps k.1 k.2) ⟨r, 0⟩]
    apply sum_le_topSum
    · intro k hk
      rwa [Finset.mem_singleton.mp hk]
    · rw [Finset.card_singleton]
  rw [h lens hlens, hnone] at hle
  exact hgain (le_antisymm hle (gain_nonneg rows eps r 0))

/-- A larger minimum verifies drafts that the prediction leaves out. -/
theorem Predicted.first_of_two_le {maxLen : ℕ} (htwo : 2 ≤ minVerifyLen) (hmin : minVerifyLen ≤ maxLen)
    (hlens : Scheduled rows minVerifyLen maxLen eps 0 lens) (h : Predicted rows minVerifyLen maxLen eps 0) :
    ∀ r < rows.length, gain rows eps r 0 = 0 := by
  have hzero : verifiedSurvival rows eps lens = 0 := by
    rw [← h lens hlens, topSum, take_zero, map_nil, sum_nil]
  rw [verifiedSurvival, Finset.sum_eq_zero_iff_of_nonneg fun r _ =>
    Finset.sum_nonneg fun p _ => gain_nonneg rows eps r p] at hzero
  intro r hr
  have hrow := hzero r (Finset.mem_range.mpr hr)
  rw [Finset.sum_eq_zero_iff_of_nonneg fun p _ => gain_nonneg rows eps r p] at hrow
  apply hrow 0
  rw [Finset.mem_range, hlens.getD r hr, lenOf]
  omega

/-- The whole candidate list is predicted only where its last position is verified or lost. -/
theorem Predicted.last_of_one {maxLen : ℕ} (hpos : 1 ≤ maxLen)
    (hlens : Scheduled rows 1 maxLen eps (order rows maxLen eps).length lens)
    (h : Predicted rows 1 maxLen eps (order rows maxLen eps).length) :
    ∀ r < rows.length, gain rows eps r (maxLen - 1) = 0 := by
  intro r hr
  by_contra hgain
  have hmem : (⟨r, maxLen - 1⟩ : (_ : ℕ) × ℕ) ∈ top rows maxLen eps (order rows maxLen eps).length := by
    rw [top, ← length_order, take_length, mem_toFinset]
    exact mem_keys_of_gain hr (by omega) hgain
  have htaken := (GreedySum.mem_iff_lt_taken top_lower r (maxLen - 1)).mp hmem
  have hlt : verifiedSurvival rows eps lens < topSum rows maxLen eps (order rows maxLen eps).length := by
    rw [topSum_rows, verifiedSurvival]
    apply Finset.sum_lt_sum
    · intro r' hr'
      apply Finset.sum_le_sum_of_subset_of_nonneg
      · rw [Finset.range_subset_range, hlens.getD r' (Finset.mem_range.mp hr'), lenOf]
        omega
      · exact fun p _ _ => gain_nonneg rows eps r' p
    · refine ⟨r, Finset.mem_range.mpr hr, ?_⟩
      apply Finset.sum_lt_sum_of_subset (i := maxLen - 1)
      · rw [Finset.range_subset_range, hlens.getD r hr, lenOf]
        omega
      · exact Finset.mem_range.mpr htaken
      · rw [Finset.mem_range, hlens.getD r hr, lenOf]
        omega
      · exact lt_of_le_of_ne (gain_nonneg rows eps r _) (Ne.symm hgain)
      · exact fun p _ _ => gain_nonneg rows eps r p
  exact absurd (h lens hlens) (ne_of_gt hlt)

/-- Only under `Plannable` the planner is optimal and predicts what it schedules. -/
theorem Optimal.plannable (heps : 0 ≤ eps) (hmin : minVerifyLen ≤ maxLen rows maxVerifyLen)
    (hmax : maxLen rows maxVerifyLen ≤ width rows + 1) (h : Optimal rows minVerifyLen maxVerifyLen eps) :
    Plannable rows minVerifyLen (maxLen rows maxVerifyLen) eps := by
  have hschedule : ∀ b, ∃ lens, scheduleVerifyLensTopk rows b minVerifyLen maxVerifyLen eps = .ok lens ∧
      Scheduled rows minVerifyLen (maxLen rows maxVerifyLen) eps b lens := schedule_scheduled hmin hmax
  have hpos : rows ≠ [] → 1 ≤ maxLen rows maxVerifyLen := by
    intro hrows
    obtain ⟨lens, -, hwithin, -⟩ := h.scheduled 0
    have hbounds := hwithin.getD (length_pos_iff.mpr hrows)
    omega
  refine ⟨hpos, ?_⟩
  by_cases hrows : rows = []
  · subst hrows
    exact .inr fun r hr => absurd hr (Nat.not_lt_zero r)
  have hpredicted : ∀ b ≤ (order rows (maxLen rows maxVerifyLen) eps).length,
      Predicted rows minVerifyLen (maxLen rows maxVerifyLen) eps b := by
    intro b hb lens hlens
    obtain ⟨table, d, hcompute, rfl⟩ := exists_decision hrows heps (hpos hrows) hmin hb
    obtain ⟨lens', hrun, htau⟩ := h.attained table d hcompute
    obtain ⟨lens'', hrun', hlens'⟩ := hschedule d.budget
    rw [hrun, Except.ok.injEq] at hrun'
    subst hrun'
    rw [(decision_spec hrows hcompute).2] at htau
    have hsame : lens = lens' := by
      apply ext_getElem (hlens.length_eq.trans hlens'.length_eq.symm)
      intro r hr hr'
      have hrow : r < rows.length := hlens.length_eq ▸ hr
      rw [← getD_eq_getElem _ 0 hr, ← getD_eq_getElem _ 0 hr', hlens.getD r hrow, hlens'.getD r hrow]
    rw [hsame]
    exact add_left_cancel htau
  obtain hzero | hone | htwo : minVerifyLen = 0 ∨ minVerifyLen = 1 ∨ 2 ≤ minVerifyLen := by omega
  · subst hzero
    obtain ⟨lens, -, hlens⟩ := hschedule 1
    refine .inr fun r hr => ?_
    by_contra hgain
    have hkey := mem_keys_of_gain hr (hpos hrows) hgain
    have hcount : 1 ≤ (order rows (maxLen rows maxVerifyLen) eps).length := by
      rw [← length_order]
      exact length_pos_of_mem hkey
    exact hgain ((hpredicted 1 hcount).first_of_zero (hpos hrows) hlens r hr)
  · subst hone
    obtain ⟨lens, -, hlens⟩ := hschedule (order rows (maxLen rows maxVerifyLen) eps).length
    exact .inl ⟨rfl, (hpredicted _ le_rfl).last_of_one (hpos hrows) hlens⟩
  · obtain ⟨lens, -, hlens⟩ := hschedule 0
    exact .inr ((hpredicted 0 (Nat.zero_le _)).first_of_two_le htwo hmin hlens)

/-- The planner is optimal, and predicts what it schedules, exactly under `Plannable`. -/
theorem optimal_iff (rows : List (List ℚ)) (minVerifyLen : ℕ) (maxVerifyLen : Option ℕ) (heps : 0 ≤ eps)
    (hmin : minVerifyLen ≤ maxLen rows maxVerifyLen) (hmax : maxLen rows maxVerifyLen ≤ width rows + 1) :
    Optimal rows minVerifyLen maxVerifyLen eps ↔ Plannable rows minVerifyLen (maxLen rows maxVerifyLen) eps := by
  have hschedule : ∀ b, ∃ lens, scheduleVerifyLensTopk rows b minVerifyLen maxVerifyLen eps = .ok lens ∧
      Scheduled rows minVerifyLen (maxLen rows maxVerifyLen) eps b lens := schedule_scheduled hmin hmax
  constructor
  · exact Optimal.plannable heps hmin hmax
  · rintro ⟨hpos, hcovered⟩
    have hsurvival : ∀ b lens, Scheduled rows minVerifyLen (maxLen rows maxVerifyLen) eps b lens →
        verifiedSurvival rows eps lens = topSum rows (maxLen rows maxVerifyLen) eps b := by
      intro b lens hlens
      obtain ⟨rfl, hlast⟩ | hfirst := hcovered
      · exact hlens.survival_eq hlast
      · rw [verifiedSurvival_eq_zero hfirst, topSum_eq_zero hfirst]
    constructor
    · intro b
      obtain ⟨lens, hrun, hlens⟩ := hschedule b
      refine ⟨lens, hrun, hlens.within hmin hpos, fun lens' hlens' => ?_⟩
      obtain ⟨rfl, -⟩ | hfirst := hcovered
      · rw [hsurvival b lens hlens]
        exact hlens'.survival_le
      · rw [verifiedSurvival_eq_zero hfirst, verifiedSurvival_eq_zero hfirst]
    · intro table d hcompute
      obtain ⟨lens, hrun, hlens⟩ := hschedule d.budget
      refine ⟨lens, hrun, ?_⟩
      by_cases hrows : rows = []
      · subst hrows
        rw [map_nil, computeVerifyTokenBudget, if_pos length_nil] at hcompute
        cases hcompute
        rw [verifiedSurvival, length_nil, Finset.range_zero, Finset.sum_empty, Nat.cast_zero, add_zero]
        rfl
      · rw [(decision_spec hrows hcompute).2, hsurvival _ lens hlens]

def twoRows : List (List ℚ) := [[9 / 10, 9 / 10], [1 / 2, 1 / 2]]

theorem optimal_iff_twoRows : Optimal twoRows 1 none (1 / 1000000) :=
  (optimal_iff twoRows 1 none (by norm_num) (by decide) (by decide)).mpr
    ⟨fun _ => by decide, .inl ⟨rfl, fun r hr => by
      obtain rfl | rfl : r = 0 ∨ r = 1 := by
        rw [twoRows, length_cons, length_singleton] at hr
        omega
      · norm_num [gain, survivalPrefix, survivalFrom, clamp, twoRows, maxLen, width]
      · norm_num [gain, survivalPrefix, survivalFrom, clamp, twoRows, maxLen, width]⟩⟩

/-- Neither with a maximum that the rows go beyond nor with a larger minimum. -/
theorem twoRows_not_optimal :
    ¬Optimal twoRows 1 (some 2) (1 / 1000000) ∧ ¬Optimal twoRows 2 none (1 / 1000000) := by
  refine ⟨fun h => ?_, fun h => ?_⟩
  · obtain ⟨-, hlast⟩ | hfirst := (h.plannable (by norm_num) (by decide) (by decide)).covered
    · have hgain := hlast 0 (by decide)
      norm_num [gain, survivalPrefix, survivalFrom, clamp, twoRows, maxLen] at hgain
    · have hgain := hfirst 0 (by decide)
      norm_num [gain, survivalPrefix, survivalFrom, clamp, twoRows] at hgain
  · obtain ⟨hone, -⟩ | hfirst := (h.plannable (by norm_num) (by decide) (by decide)).covered
    · exact absurd hone (by decide)
    · have hgain := hfirst 0 (by decide)
      norm_num [gain, survivalPrefix, survivalFrom, clamp, twoRows] at hgain

end Exact

end VerifyPlanner
