import BlackweLLM.FiniteLaw
import BlackweLLM.MtpAccept
import Mathlib.Algebra.BigOperators.Field
import Mathlib.Algebra.Order.BigOperators.Group.Finset

/-!
# Accept and reject by sampling

`sample_accept_reject` and `sample_accept_reject_sparse` of `runtime/mtp_accept.py` with
the distribution checks of `runtime/sampling.py`, over rational probabilities. What a call
returns is a law, since every uniform number and every draw comes from the generator.
-/

namespace SampledAccept

open List Function FiniteLaw
open MtpAccept (Decision)
open scoped BigOperators

variable {n : ℕ}

abbrev Row (n : ℕ) := Fin n → ℚ

inductive SampleError where
  /-- "draft_probs must have one row per draft token" -/
  | draftRows (need got : ℕ)
  /-- "target_probs must contain K verifier distributions plus one bonus distribution" -/
  | targetRows (need got : ℕ)
  /-- "draft_indices must have shape [K, top_k]" -/
  | sparseIndices (need got : ℕ)
  /-- "draft_probs must have the same shape as draft_indices" -/
  | sparseShape (probs indices : List ℕ)
  /-- "target_probs must contain K verifier rows plus one bonus row" -/
  | sparseTargetRows (need got : ℕ)
  /-- `SamplingNumericalError` with the rows that are negative or empty. -/
  | numerical (context : String) (badRows : List ℕ)
  deriving DecidableEq, Repr

def rowValid (weights : List ℚ) : Bool := weights.all (fun w => decide (0 ≤ w)) && decide (0 < weights.sum)

def validateSamplingDistribution (context : String) (rows : List (List ℚ)) : Except SampleError Unit :=
  match (range rows.length).filter fun i => !rowValid (rows.getD i []) with
  | [] => .ok ()
  | bad :: more => .error (.numerical context (bad :: more))

def sampleFromDistribution (row : Row n) : Law (Except SampleError (Fin n)) :=
  match validateSamplingDistribution "sampling" [ofFn row] with
  | .error e => point (.error e)
  | .ok () => bind (multinomial row) fun t => point (.ok t)

def acceptanceProbability (target draft : Row n) (token : Fin n) : ℚ :=
  if draft token ≤ 0 then 0 else min (target token / draft token) 1

/-- The part of the target above the draft, over its sum; without one, the target over its own. -/
def residualDistribution (target draft : Row n) : Row n :=
  let residual : Row n := fun t => max (target t - draft t) 0
  let total := ∑ t, residual t
  if total ≤ 0 then
    let residual : Row n := fun t => max (target t) 0
    fun t => residual t / ∑ u, residual u
  else fun t => residual t / total

/-- What one position of the loop compares and draws from. -/
structure Position (n : ℕ) where
  token : Fin n
  acceptProb : ℚ
  residual : Row n

/-- The loop from position `p` on; behind the last draft the bonus token is drawn. -/
def acceptLoop (bonus : Row n) (p : ℕ) : List (Position n) → Law (Except SampleError (Decision (Fin n)))
  | [] => bind (sampleFromDistribution bonus) fun r => point (r.map fun token => ⟨p, [token], none⟩)
  | position :: positions =>
    bind (coin position.acceptProb) fun accepted =>
      if accepted then
        bind (acceptLoop bonus (p + 1) positions) fun r =>
          point (r.map fun d => { d with committed := position.token :: d.committed })
      else bind (sampleFromDistribution position.residual) fun r => point (r.map fun token => ⟨p, [token], some p⟩)

def densePosition (token : Fin n) (draft target : Row n) : Position n :=
  ⟨token, acceptanceProbability target draft token, residualDistribution target draft⟩

def densePositions : List (Fin n) → List (Row n) → List (Row n) → List (Position n)
  | token :: tokens, draft :: drafts, target :: targets =>
    densePosition token draft target :: densePositions tokens drafts targets
  | _, _, _ => []

def sampleAcceptReject (draftTokens : List (Fin n)) (draftProbs targetProbs : List (Row n)) :
    Law (Except SampleError (Decision (Fin n))) :=
  if draftProbs.length ≠ draftTokens.length then point (.error (.draftRows draftTokens.length draftProbs.length))
  else match targetProbs[draftTokens.length]? with
  | none => point (.error (.targetRows (draftTokens.length + 1) targetProbs.length))
  | some bonus =>
    match validateSamplingDistribution "MTP draft" (draftProbs.map ofFn) with
    | .error e => point (.error e)
    | .ok () =>
      match validateSamplingDistribution "MTP target" (targetProbs.map ofFn) with
      | .error e => point (.error e)
      | .ok () => acceptLoop bonus 0 (densePositions draftTokens draftProbs targetProbs)

/-- `sparse_row.masked_select(indices == token).sum()` -/
def maskedSum (indices : List (Fin n)) (sparse : List ℚ) (token : Fin n) : ℚ :=
  (((indices.zip sparse).filter fun e => e.1 = token).map fun e => e.2).sum

/-- `row.scatter_add_(0, indices, values)` -/
def scatterAdd (row : Row n) (indices : List (Fin n)) (values : List ℚ) : Row n :=
  (indices.zip values).foldl (fun row e => update row e.1 (row e.1 + e.2)) row

def sparsePosition (token : Fin n) (indices : List (Fin n)) (sparse : List ℚ) (target : Row n) : Position n :=
  let qToken := maskedSum indices sparse token
  let residual : Row n := fun t => max (scatterAdd target indices (sparse.map fun w => -w) t) 0
  let total := ∑ t, residual t
  { token
    acceptProb := if qToken ≤ 0 then 0 else min (target token / qToken) 1
    residual := if 0 < total then fun t => residual t / total else target }

def sparsePositions : List (Fin n) → List (List (Fin n)) → List (List ℚ) → List (Row n) → List (Position n)
  | token :: tokens, indices :: rest, sparse :: more, target :: targets =>
    sparsePosition token indices sparse target :: sparsePositions tokens rest more targets
  | _, _, _, _ => []

def sampleAcceptRejectSparse (draftTokens : List (Fin n)) (draftIndices : List (List (Fin n)))
    (draftProbs : List (List ℚ)) (targetProbs : List (Row n)) : Law (Except SampleError (Decision (Fin n))) :=
  if draftIndices.length ≠ draftTokens.length then
    point (.error (.sparseIndices draftTokens.length draftIndices.length))
  else if draftProbs.map List.length ≠ draftIndices.map List.length then
    point (.error (.sparseShape (draftProbs.map List.length) (draftIndices.map List.length)))
  else match targetProbs[draftTokens.length]? with
  | none => point (.error (.sparseTargetRows (draftTokens.length + 1) targetProbs.length))
  | some bonus =>
    match validateSamplingDistribution "sparse MTP draft" draftProbs with
    | .error e => point (.error e)
    | .ok () =>
      match validateSamplingDistribution "sparse MTP target" (targetProbs.map ofFn) with
      | .error e => point (.error e)
      | .ok () => acceptLoop bonus 0 (sparsePositions draftTokens draftIndices draftProbs targetProbs)

section Distributions

variable {target draft : Row n}

structure IsDist (row : Row n) : Prop where
  nonneg : ∀ t, 0 ≤ row t
  sum_one : ∑ t, row t = 1

/-- A row that is a probability distribution. -/
structure Dist (n : ℕ) where
  row : Row n
  isDist : IsDist row

theorem IsDist.rowValid {row : Row n} (h : IsDist row) : SampledAccept.rowValid (ofFn row) = true := by
  have hsum : (ofFn row).sum = 1 := by rw [sum_ofFn, h.sum_one]
  simp only [SampledAccept.rowValid, hsum, Bool.and_eq_true, all_eq_true, decide_eq_true_eq, mem_ofFn]
  refine ⟨?_, by norm_num⟩
  rintro w ⟨t, rfl⟩
  exact h.nonneg t

theorem validate_ok (context : String) {rows : List (List ℚ)} (h : ∀ row ∈ rows, rowValid row = true) :
    validateSamplingDistribution context rows = .ok () := by
  have hbad : ((range rows.length).filter fun i => !rowValid (rows.getD i [])) = [] := by
    rw [filter_eq_nil_iff]
    intro i hi
    have hlt := mem_range.mp hi
    simp [h rows[i] (getElem_mem hlt), getD_eq_getElem?_getD, getElem?_eq_getElem hlt]
  rw [validateSamplingDistribution, hbad]

theorem validate_dists (context : String) {rows : List (Row n)} (h : ∀ row ∈ rows, IsDist row) :
    validateSamplingDistribution context (rows.map ofFn) = .ok () := by
  refine validate_ok context fun weights hweights => ?_
  obtain ⟨row, hrow, rfl⟩ := mem_map.mp hweights
  exact (h row hrow).rowValid

/-- The draw from a distribution raises nothing and has the distribution as its law. -/
theorem IsDist.expect_sample {row : Row n} (h : IsDist row) (f : Except SampleError (Fin n) → ℚ) :
    expect (sampleFromDistribution row) f = ∑ t, row t * f (.ok t) := by
  have hdists : ∀ r ∈ [row], IsDist r := by simpa using h
  have hvalid : validateSamplingDistribution "sampling" [ofFn row] = .ok () := validate_dists "sampling" hdists
  rw [sampleFromDistribution, hvalid]
  simp only [expect_bind, expect_point, expect_multinomial, h.sum_one, div_one]

/-- The mass of the target above the draft is the mass of the rejections. -/
def rejectionProbability (target draft : Row n) : ℚ := ∑ t, draft t * (1 - acceptanceProbability target draft t)

section

variable (htarget : IsDist target)
include htarget

theorem accepted_mass (hdraft : IsDist draft) (t : Fin n) :
    draft t * acceptanceProbability target draft t = min (target t) (draft t) := by
  have hp := htarget.nonneg t
  have hq := hdraft.nonneg t
  unfold acceptanceProbability
  split_ifs with hzero
  · have hq0 : draft t = 0 := le_antisymm hzero hq
    rw [hq0, min_eq_right hp, zero_mul]
  · have hpos : 0 < draft t := not_le.mp hzero
    rw [mul_min_of_nonneg _ _ hq, mul_div_cancel₀ _ hpos.ne', mul_one]

theorem rejection_eq (hdraft : IsDist draft) :
    rejectionProbability target draft = ∑ t, max (target t - draft t) 0 := by
  -- what is not accepted of the draft, and what the target keeps above it, both miss the common part
  have hdraftSide : rejectionProbability target draft = 1 - ∑ t, min (target t) (draft t) := by
    unfold rejectionProbability
    simp only [mul_sub, mul_one, accepted_mass htarget hdraft, Finset.sum_sub_distrib, hdraft.sum_one]
  have htargetSide : ∑ t, max (target t - draft t) 0 = 1 - ∑ t, min (target t) (draft t) := by
    have hpoint : ∀ t, max (target t - draft t) 0 = target t - min (target t) (draft t) := by
      intro t
      rcases le_total (target t) (draft t) with hle | hle
      · rw [min_eq_left hle, max_eq_right (by linarith), sub_self]
      · rw [min_eq_right hle, max_eq_left (by linarith)]
    simp only [hpoint, Finset.sum_sub_distrib, htarget.sum_one]
  rw [hdraftSide, htargetSide]

theorem residual_isDist (draft : Row n) : IsDist (residualDistribution target draft) := by
  unfold residualDistribution
  have hnonneg : ∀ t, 0 ≤ max (target t - draft t) 0 := fun t => le_max_right _ _
  dsimp only
  split_ifs with htotal
  · have htop : ∀ t, max (target t) 0 = target t := fun t => max_eq_left (htarget.nonneg t)
    simp only [htop, htarget.sum_one, div_one]
    exact htarget
  · have hpos : 0 < ∑ t, max (target t - draft t) 0 := not_le.mp htotal
    exact ⟨fun t => div_nonneg (hnonneg t) hpos.le, by rw [← Finset.sum_div, div_self hpos.ne']⟩

/-- Rejection and residual together give back what the target has above the draft. -/
theorem rejected_mass (hdraft : IsDist draft) (t : Fin n) :
    rejectionProbability target draft * residualDistribution target draft t = max (target t - draft t) 0 := by
  have hreject := rejection_eq htarget hdraft
  have hnonneg : ∀ t ∈ Finset.univ, 0 ≤ max (target t - draft t) 0 := fun t _ => le_max_right _ _
  unfold residualDistribution
  dsimp only
  split_ifs with htotal
  · have hzero : ∑ t, max (target t - draft t) 0 = 0 := le_antisymm htotal (Finset.sum_nonneg hnonneg)
    rw [hreject, hzero, zero_mul]
    exact ((Finset.sum_eq_zero_iff_of_nonneg hnonneg).mp hzero t (Finset.mem_univ t)).symm
  · have hpos : 0 < ∑ t, max (target t - draft t) 0 := not_le.mp htotal
    rw [hreject, mul_div_cancel₀ _ hpos.ne']

/-- The accepted and the resampled mass of a token recombine to the target's. -/
theorem recombine (hdraft : IsDist draft) (t : Fin n) : draft t * acceptanceProbability target draft t +
      rejectionProbability target draft * residualDistribution target draft t = target t := by
  rw [accepted_mass htarget hdraft, rejected_mass htarget hdraft]
  rcases le_total (target t) (draft t) with hle | hle
  · rw [min_eq_left hle, max_eq_right (by linarith), add_zero]
  · rw [min_eq_right hle, max_eq_left (by linarith)]
    ring

end

end Distributions

section Rounds

/-- The draft model: every token is drawn from the row behind the tokens drafted so far. -/
def propose (draft : List (Fin n) → Dist n) : ℕ → List (Fin n) → Law (List (Fin n))
  | 0, _ => point []
  | k + 1, past =>
    bind (multinomial (draft past).row) fun token =>
      bind (propose draft k (past ++ [token])) fun tokens => point (token :: tokens)

def draftRows (draft : List (Fin n) → Dist n) : List (Fin n) → List (Fin n) → List (Row n)
  | _, [] => []
  | past, token :: tokens => (draft past).row :: draftRows draft (past ++ [token]) tokens

/-- The rows of the target at the positions of the drafts, and one past them. -/
def targetRows (target : List (Fin n) → Dist n) : List (Fin n) → List (Fin n) → List (Row n)
  | past, [] => [(target past).row]
  | past, token :: tokens => (target past).row :: targetRows target (past ++ [token]) tokens

/-- Draft `k` tokens, score them, accept or reject. -/
def sampleRound (draft target : List (Fin n) → Dist n) (k : ℕ) : Law (Except SampleError (Decision (Fin n))) :=
  bind (propose draft k []) fun tokens =>
    sampleAcceptReject tokens (draftRows draft [] tokens) (targetRows target [] tokens)

variable {draft target : List (Fin n) → Dist n}

theorem length_draftRows (past tokens : List (Fin n)) : (draftRows draft past tokens).length = tokens.length := by
  induction tokens generalizing past with
  | nil => rfl
  | cons token tokens ih => simp [draftRows, ih]

theorem bonus_targetRows (past tokens : List (Fin n)) :
    (targetRows target past tokens)[tokens.length]? = some (target (past ++ tokens)).row := by
  induction tokens generalizing past with
  | nil => simp [targetRows]
  | cons token tokens ih => simp [targetRows, ih]

theorem draftRows_isDist (past tokens : List (Fin n)) : ∀ row ∈ draftRows draft past tokens, IsDist row := by
  induction tokens generalizing past with
  | nil => simp [draftRows]
  | cons token tokens ih =>
    intro row hrow
    rcases mem_cons.mp hrow with rfl | hrow
    · exact (draft past).isDist
    · exact ih _ row hrow

theorem targetRows_isDist (past tokens : List (Fin n)) : ∀ row ∈ targetRows target past tokens, IsDist row := by
  induction tokens generalizing past with
  | nil =>
    intro row hrow
    rw [mem_singleton.mp hrow]
    exact (target past).isDist
  | cons token tokens ih =>
    intro row hrow
    rcases mem_cons.mp hrow with rfl | hrow
    · exact (target past).isDist
    · exact ih _ row hrow

/-- On distributions no check fails. -/
theorem sampleAcceptReject_of_isDist {tokens : List (Fin n)} {drafts targets : List (Row n)} {bonus : Row n}
    (hlen : drafts.length = tokens.length) (hbonus : targets[tokens.length]? = some bonus)
    (hdrafts : ∀ row ∈ drafts, IsDist row) (htargets : ∀ row ∈ targets, IsDist row) :
    sampleAcceptReject tokens drafts targets = acceptLoop bonus 0 (densePositions tokens drafts targets) := by
  rw [sampleAcceptReject, if_neg (not_not.mpr hlen), hbonus]
  simp only [validate_dists "MTP draft" hdrafts, validate_dists "MTP target" htargets]

/-- The rest of a round behind the tokens `past`, from position `p` on. -/
def roundFrom (draft target : List (Fin n) → Dist n) (k : ℕ) (past : List (Fin n)) (p : ℕ) :
    Law (Except SampleError (Decision (Fin n))) :=
  bind (propose draft k past) fun tokens =>
    acceptLoop (target (past ++ tokens)).row p
      (densePositions tokens (draftRows draft past tokens) (targetRows target past tokens))

theorem sampleRound_eq (k : ℕ) : sampleRound draft target k = roundFrom draft target k [] 0 := by
  unfold sampleRound roundFrom
  congr 1
  funext tokens
  exact sampleAcceptReject_of_isDist (length_draftRows [] tokens) (bonus_targetRows [] tokens)
    (draftRows_isDist [] tokens) (targetRows_isDist [] tokens)

def commitToken (token : Fin n) (r : Except SampleError (Decision (Fin n))) : Except SampleError (Decision (Fin n)) :=
  r.map fun d => { d with committed := token :: d.committed }

theorem expect_roundFrom_zero (past : List (Fin n)) (p : ℕ) (f : Except SampleError (Decision (Fin n)) → ℚ) :
    expect (roundFrom draft target 0 past p) f = ∑ t, (target past).row t * f (.ok ⟨p, [t], none⟩) := by
  simp only [roundFrom, propose, densePositions, acceptLoop, expect_bind, expect_point, append_nil,
    (target past).isDist.expect_sample]
  rfl

/-- Proposing loses no mass. -/
theorem expect_propose_const (k : ℕ) (past : List (Fin n)) (c : ℚ) :
    expect (propose draft k past) (fun _ => c) = c := by
  induction k generalizing past with
  | zero => simp [propose]
  | succ k ih =>
    simp only [propose, expect_bind, expect_multinomial, expect_point, ih, (draft past).isDist.sum_one, div_one]
    rw [← Finset.sum_mul, (draft past).isDist.sum_one, one_mul]

/-- One position: a draft is accepted and the round goes on behind it, or a token of the residual ends it. -/
theorem expect_roundFrom_succ (k : ℕ) (past : List (Fin n)) (p : ℕ)
    (f : Except SampleError (Decision (Fin n)) → ℚ) :
    expect (roundFrom draft target (k + 1) past p) f =
      ∑ x, (draft past).row x * acceptanceProbability (target past).row (draft past).row x *
        expect (roundFrom draft target k (past ++ [x]) (p + 1)) (fun r => f (commitToken x r)) +
      rejectionProbability (target past).row (draft past).row *
        ∑ t, residualDistribution (target past).row (draft past).row t * f (.ok ⟨p, [t], some p⟩) := by
  have hresidual := residual_isDist (target past).isDist (draft past).row
  simp only [roundFrom, propose, expect_bind, expect_multinomial, (draft past).isDist.sum_one, div_one, expect_point,
    draftRows, targetRows, densePositions, acceptLoop, densePosition, expect_coin, if_true, expect_add,
    expect_mul_left, if_false, Bool.false_eq_true, hresidual.expect_sample, append_assoc,
    singleton_append, expect_propose_const]
  rw [rejectionProbability, Finset.sum_mul]
  refine congrArg₂ (· + ·) (Finset.sum_congr rfl fun x _ => ?_) (Finset.sum_congr rfl fun x _ => ?_)
  · rw [mul_assoc]
    rfl
  · rw [mul_assoc]
    rfl

/-- The committed tokens, of a call that does not raise. -/
def committedOf (r : Except SampleError (Decision (Fin n))) : List (Fin n) :=
  match r with
  | .ok d => d.committed
  | .error _ => []

/-- Weigh the tokens before position `i` if that position is reached. -/
def atPosition (i : ℕ) (g : List (Fin n) → Fin n → ℚ) (r : Except SampleError (Decision (Fin n))) : ℚ :=
  match (committedOf r)[i]? with
  | some t => g ((committedOf r).take i) t
  | none => 0

theorem atPosition_commitToken_succ (i : ℕ) (g : List (Fin n) → Fin n → ℚ) (x : Fin n)
    (r : Except SampleError (Decision (Fin n))) :
    atPosition (i + 1) g (commitToken x r) = atPosition i (fun ys => g (x :: ys)) r := by
  cases r with
  | ok d => simp [atPosition, committedOf, commitToken, Except.map]
  | error e => simp [atPosition, committedOf, commitToken, Except.map]

/-- One on a call that returns, zero on one that raises. -/
def returns (r : Except SampleError (Decision (Fin n))) : ℚ :=
  match r with
  | .ok _ => 1
  | .error _ => 0

@[simp] theorem returns_ok (d : Decision (Fin n)) : returns (.ok d) = 1 := rfl

theorem returns_commitToken (x : Fin n) (r : Except SampleError (Decision (Fin n))) :
    returns (commitToken x r) = returns r := by
  cases r <;> rfl

theorem atPosition_commitToken_zero (g : List (Fin n) → Fin n → ℚ) (x : Fin n)
    (r : Except SampleError (Decision (Fin n))) : atPosition 0 g (commitToken x r) = g [] x * returns r := by
  cases r with
  | ok d => simp [atPosition, committedOf, commitToken, Except.map, returns]
  | error e => simp [atPosition, committedOf, commitToken, Except.map, returns]

theorem sum_recombine (target draft : Dist n) (h : Fin n → ℚ) :
    ∑ x, draft.row x * acceptanceProbability target.row draft.row x * h x +
        rejectionProbability target.row draft.row * ∑ t, residualDistribution target.row draft.row t * h t =
      ∑ t, target.row t * h t := by
  rw [Finset.mul_sum, ← Finset.sum_add_distrib]
  refine Finset.sum_congr rfl fun t _ => ?_
  rw [← recombine target.isDist draft.isDist t]
  ring

/-- A round raises with probability zero. -/
theorem expect_returns (k : ℕ) (past : List (Fin n)) (p : ℕ) :
    expect (roundFrom draft target k past p) returns = 1 := by
  induction k generalizing past p with
  | zero => simp only [expect_roundFrom_zero, returns_ok, mul_one, (target past).isDist.sum_one]
  | succ k ih =>
    simp only [expect_roundFrom_succ, returns_commitToken, ih, returns_ok]
    rw [sum_recombine (target past) (draft past) fun _ => 1]
    simp only [mul_one, (target past).isDist.sum_one]

/-- The first token is always reached, and its law is the target's. -/
theorem expect_first (k : ℕ) (past : List (Fin n)) (p : ℕ) (g : List (Fin n) → Fin n → ℚ) :
    expect (roundFrom draft target k past p) (atPosition 0 g) = ∑ t, (target past).row t * g [] t := by
  cases k with
  | zero =>
    rw [expect_roundFrom_zero]
    rfl
  | succ k =>
    simp only [expect_roundFrom_succ, atPosition_commitToken_zero, expect_mul_left, expect_returns, mul_one]
    rw [← sum_recombine (target past) (draft past) (g [])]
    rfl

/-- At every position a round reaches, given all that was committed before it, the committed
token can be replaced by the average over the target's row there. -/
theorem expect_atPosition (i k : ℕ) (past : List (Fin n)) (p : ℕ) (g : List (Fin n) → Fin n → ℚ) :
    expect (roundFrom draft target k past p) (atPosition i g) =
      expect (roundFrom draft target k past p)
        (atPosition i fun ys _ => ∑ t, (target (past ++ ys)).row t * g ys t) := by
  induction i generalizing k past p g with
  | zero =>
    rw [expect_first, expect_first, ← Finset.sum_mul, (target past).isDist.sum_one, one_mul, append_nil]
  | succ i ih =>
    cases k with
    | zero =>
      rw [expect_roundFrom_zero, expect_roundFrom_zero]
      rfl
    | succ k =>
      simp only [expect_roundFrom_succ, atPosition_commitToken_succ]
      refine congrArg₂ (· + ·) (Finset.sum_congr rfl fun x _ => ?_) rfl
      rw [ih]
      simp only [append_assoc, singleton_append]

end Rounds

section Sparse

/-- A draft row given by candidates and their probabilities; the candidates come in any order. -/
structure SparseDist (n : ℕ) where
  indices : List (Fin n)
  probs : List ℚ
  length_eq : probs.length = indices.length
  nonneg : ∀ w ∈ probs, 0 ≤ w
  sum_one : probs.sum = 1

theorem maskedSum_cons (index : Fin n) (indices : List (Fin n)) (w : ℚ) (probs : List ℚ) (t : Fin n) :
    maskedSum (index :: indices) (w :: probs) t = (if index = t then w else 0) + maskedSum indices probs t := by
  unfold maskedSum
  by_cases h : index = t
  · simp [h]
  · simp [h]

theorem maskedSum_neg (indices : List (Fin n)) (probs : List ℚ) (t : Fin n) :
    maskedSum indices (probs.map fun w => -w) t = -maskedSum indices probs t := by
  induction indices generalizing probs with
  | nil => simp [maskedSum]
  | cons index indices ih =>
    cases probs with
    | nil => simp [maskedSum]
    | cons w probs =>
      rw [map_cons, maskedSum_cons, maskedSum_cons, ih]
      split_ifs <;> ring

theorem maskedSum_nonneg (indices : List (Fin n)) {probs : List ℚ} (h : ∀ w ∈ probs, 0 ≤ w) (t : Fin n) :
    0 ≤ maskedSum indices probs t := by
  induction indices generalizing probs with
  | nil => simp [maskedSum]
  | cons index indices ih =>
    cases probs with
    | nil => simp [maskedSum]
    | cons w probs =>
      rw [maskedSum_cons]
      have hw := h w mem_cons_self
      have hrest := ih fun v hv => h v (mem_cons_of_mem _ hv)
      split_ifs <;> linarith

theorem sum_maskedSum (indices : List (Fin n)) (probs : List ℚ) (h : probs.length = indices.length) :
    ∑ t, maskedSum indices probs t = probs.sum := by
  induction indices generalizing probs with
  | nil =>
    rw [eq_nil_of_length_eq_zero h]
    simp [maskedSum]
  | cons index indices ih =>
    cases probs with
    | nil => cases h
    | cons w probs =>
      simp only [maskedSum_cons, Finset.sum_add_distrib, ih probs (Nat.succ.inj h), Finset.sum_ite_eq,
        Finset.mem_univ, if_true, sum_cons]

/-- The distribution that the candidates represent. -/
def SparseDist.dense (d : SparseDist n) : Dist n where
  row := maskedSum d.indices d.probs
  isDist := ⟨maskedSum_nonneg d.indices d.nonneg, (sum_maskedSum d.indices d.probs d.length_eq).trans d.sum_one⟩

theorem scatterAdd_apply (row : Row n) (indices : List (Fin n)) (values : List ℚ) (t : Fin n) :
    scatterAdd row indices values t = row t + maskedSum indices values t := by
  induction indices generalizing row values with
  | nil => simp [scatterAdd, maskedSum]
  | cons index indices ih =>
    cases values with
    | nil => simp [scatterAdd, maskedSum]
    | cons v values =>
      have hstep : scatterAdd row (index :: indices) (v :: values) =
          scatterAdd (update row index (row index + v)) indices values := rfl
      rw [hstep, ih, maskedSum_cons]
      by_cases h : index = t
      · subst h
        simp
        ring
      · rw [update_of_ne (Ne.symm h), if_neg h, zero_add]

/-- At one position the sparse code compares and draws from what the dense code does. -/
theorem sparsePosition_eq (token : Fin n) (draft : SparseDist n) (target : Dist n) :
    sparsePosition token draft.indices draft.probs target.row = densePosition token draft.dense.row target.row := by
  have hresidual : ∀ t, max (scatterAdd target.row draft.indices (draft.probs.map fun w => -w) t) 0 =
      max (target.row t - draft.dense.row t) 0 := by
    intro t
    rw [scatterAdd_apply, maskedSum_neg, ← sub_eq_add_neg]
    rfl
  have htop : ∀ t, max (target.row t) 0 = target.row t := fun t => max_eq_left (target.isDist.nonneg t)
  unfold sparsePosition densePosition residualDistribution
  simp only [hresidual, htop, target.isDist.sum_one, div_one]
  congr 1
  split_ifs with hpos hle hle
  · exact absurd hpos (not_lt.mpr hle)
  · rfl
  · rfl
  · exact absurd (not_le.mp hle) hpos

theorem sparsePositions_eq (tokens : List (Fin n)) (drafts : List (SparseDist n)) (targets : List (Dist n)) :
    sparsePositions tokens (drafts.map (·.indices)) (drafts.map (·.probs)) (targets.map (·.row)) =
      densePositions tokens (drafts.map (·.dense.row)) (targets.map (·.row)) := by
  induction tokens generalizing drafts targets with
  | nil => rfl
  | cons token tokens ih =>
    cases drafts with
    | nil => rfl
    | cons draft drafts =>
      cases targets with
      | nil => rfl
      | cons target targets =>
        simp only [map_cons, sparsePositions, densePositions, sparsePosition_eq, ih]

/-- For the same draft tokens the two implementations have one law. -/
theorem sampleAcceptRejectSparse_eq {tokens : List (Fin n)} {drafts : List (SparseDist n)} {targets : List (Dist n)}
    (hdrafts : drafts.length = tokens.length) (htargets : tokens.length < targets.length) :
    sampleAcceptRejectSparse tokens (drafts.map (·.indices)) (drafts.map (·.probs)) (targets.map (·.row)) =
      sampleAcceptReject tokens (drafts.map (·.dense.row)) (targets.map (·.row)) := by
  have hshape : (drafts.map (·.probs)).map List.length = (drafts.map (·.indices)).map List.length := by
    rw [map_map, map_map]
    exact map_congr_left fun d _ => d.length_eq
  have hbonus : (targets.map (·.row))[tokens.length]? = some targets[tokens.length].row := by
    rw [getElem?_map, getElem?_eq_getElem htargets]
    rfl
  have hsparse : ∀ row ∈ drafts.map (·.probs), rowValid row = true := by
    intro row hrow
    obtain ⟨d, -, rfl⟩ := mem_map.mp hrow
    simp only [rowValid, d.sum_one, Bool.and_eq_true, all_eq_true, decide_eq_true_eq]
    exact ⟨d.nonneg, by norm_num⟩
  have hdense : ∀ row ∈ drafts.map (·.dense.row), IsDist row := by
    intro row hrow
    obtain ⟨d, -, rfl⟩ := mem_map.mp hrow
    exact d.dense.isDist
  have htarget : ∀ row ∈ targets.map (·.row), IsDist row := by
    intro row hrow
    obtain ⟨d, -, rfl⟩ := mem_map.mp hrow
    exact d.isDist
  rw [sampleAcceptReject_of_isDist (by simp [hdrafts]) hbonus hdense htarget, ← sparsePositions_eq,
    sampleAcceptRejectSparse, if_neg (by simp [hdrafts]), if_neg (not_not.mpr hshape), hbonus]
  simp only [validate_ok "sparse MTP draft" hsparse, validate_dists "sparse MTP target" htarget]

end Sparse

section Exactness

theorem prefix_append_singleton_iff (ys l : List (Fin n)) (t : Fin n) :
    ys ++ [t] <+: l ↔ l.take ys.length = ys ∧ l[ys.length]? = some t := by
  constructor
  · rintro ⟨more, rfl⟩
    simp
  · rintro ⟨htake, hget⟩
    obtain ⟨hlt, rfl⟩ := List.getElem?_eq_some_iff.mp hget
    have hsucc : l.take (ys.length + 1) = ys ++ [l[ys.length]] := by
      rw [take_succ_eq_append_getElem hlt, htake]
    exact hsucc ▸ take_prefix _ l

/-- Given any tokens before it, the token committed at a reached position has the target's law there. -/
theorem prob_committed {draft target : List (Fin n) → Dist n} (k : ℕ) (ys : List (Fin n)) (t : Fin n) :
    prob (sampleRound draft target k) (fun r => ys ++ [t] <+: committedOf r) =
      prob (sampleRound draft target k) (fun r => ys <+: committedOf r ∧ ys.length < (committedOf r).length) *
        (target ys).row t := by
  have hleft : (fun r => if ys ++ [t] <+: committedOf r then (1 : ℚ) else 0) =
      atPosition ys.length fun zs u => if zs = ys ∧ u = t then 1 else 0 := by
    funext r
    simp only [atPosition, prefix_append_singleton_iff]
    cases (committedOf r)[ys.length]? <;> simp
  have hright : (fun r => (target ys).row t *
        if ys <+: committedOf r ∧ ys.length < (committedOf r).length then (1 : ℚ) else 0) =
      atPosition ys.length fun zs _ => ∑ u, (target ([] ++ zs)).row u * if zs = ys ∧ u = t then 1 else 0 := by
    funext r
    simp only [atPosition, nil_append, prefix_iff_eq_take]
    by_cases hlt : ys.length < (committedOf r).length
    · rw [getElem?_eq_getElem hlt]
      by_cases htake : (committedOf r).take ys.length = ys
      · simp [htake, hlt]
      · simp [htake, Ne.symm htake]
    · rw [getElem?_eq_none (not_lt.mp hlt)]
      simp [hlt]
  rw [mul_comm, prob, prob, ← expect_mul_left, hleft, hright, sampleRound_eq]
  exact expect_atPosition ys.length k [] 0 _

/-- Where the target's rows are fixed by the position, a reached position has the law of its row. -/
theorem prob_token {draft : List (Fin n) → Dist n} (p : ℕ → Dist n) (k i : ℕ) (t : Fin n) :
    prob (sampleRound draft (fun ys => p ys.length) k) (fun r => (committedOf r)[i]? = some t) =
      prob (sampleRound draft (fun ys => p ys.length) k) (fun r => i < (committedOf r).length) * (p i).row t := by
  have hleft : (fun r => if (committedOf r)[i]? = some t then (1 : ℚ) else 0) =
      atPosition i fun _ u => if u = t then 1 else 0 := by
    funext r
    simp only [atPosition]
    cases (committedOf r)[i]? <;> simp
  have hright : (fun r => (p i).row t * if i < (committedOf r).length then (1 : ℚ) else 0) =
      atPosition i fun (zs : List (Fin n)) _ => ∑ u, (p ([] ++ zs).length).row u * if u = t then 1 else 0 := by
    funext r
    simp only [atPosition, nil_append]
    by_cases hlt : i < (committedOf r).length
    · simp [hlt, min_eq_left hlt.le]
    · rw [getElem?_eq_none (not_lt.mp hlt)]
      simp [hlt]
  rw [mul_comm, prob, prob, ← expect_mul_left, hleft, hright, sampleRound_eq]
  exact expect_atPosition i k [] 0 _

theorem prob_first {draft target : List (Fin n) → Dist n} (k : ℕ) :
    prob (sampleRound draft target k) (fun r => 0 < (committedOf r).length) = 1 := by
  have hfirst : (fun r => if 0 < (committedOf r).length then (1 : ℚ) else 0) = atPosition (n := n) 0 fun _ _ => 1 := by
    funext r
    simp only [atPosition]
    cases committedOf r <;> simp
  rw [prob, hfirst, sampleRound_eq, expect_first]
  simp only [mul_one, (target []).isDist.sum_one]

/-- Sampling with rejection is exact: behind any committed tokens the next one has the target's law, at every
position that is reached. So is the sparse code on the rows that its candidates represent. -/
theorem sampleAcceptReject_exact :
    (∀ (draft target : List (Fin n) → Dist n) (k : ℕ),
      prob (sampleRound draft target k) (fun r => 0 < (committedOf r).length) = 1 ∧
      ∀ (ys : List (Fin n)) (t : Fin n),
        prob (sampleRound draft target k) (fun r => ys ++ [t] <+: committedOf r) =
          prob (sampleRound draft target k) (fun r => ys <+: committedOf r ∧ ys.length < (committedOf r).length) *
            (target ys).row t) ∧
    (∀ (draft : List (Fin n) → Dist n) (p : ℕ → Dist n) (k i : ℕ) (t : Fin n),
      prob (sampleRound draft (fun ys => p ys.length) k) (fun r => (committedOf r)[i]? = some t) =
        prob (sampleRound draft (fun ys => p ys.length) k) (fun r => i < (committedOf r).length) * (p i).row t) ∧
    (∀ (tokens : List (Fin n)) (drafts : List (SparseDist n)) (targets : List (Dist n)),
      drafts.length = tokens.length → tokens.length < targets.length →
        sampleAcceptRejectSparse tokens (drafts.map (·.indices)) (drafts.map (·.probs)) (targets.map (·.row)) =
          sampleAcceptReject tokens (drafts.map (·.dense.row)) (targets.map (·.row))) ∧
    (∀ target draft : Dist n, 0 < rejectionProbability target.row draft.row →
      (∀ t, residualDistribution target.row draft.row t =
        max (target.row t - draft.row t) 0 / rejectionProbability target.row draft.row) ∧
      IsDist (residualDistribution target.row draft.row)) := by
  refine ⟨fun draft target k => ⟨prob_first k, prob_committed k⟩, fun draft => prob_token, ?_, ?_⟩
  · intro tokens drafts targets hdrafts htargets
    exact sampleAcceptRejectSparse_eq hdrafts htargets
  · intro target draft hpos
    refine ⟨fun t => ?_, residual_isDist target.isDist draft.row⟩
    rw [← rejected_mass target.isDist draft.isDist t, mul_div_cancel_left₀ _ hpos.ne']

def mostlyFirst : SparseDist 2 := ⟨[0, 1], [3 / 4, 1 / 4], rfl, by decide +kernel, by decide +kernel⟩

def onlySecond : SparseDist 2 := ⟨[1], [1], rfl, by decide +kernel, by decide +kernel⟩

theorem sampleAcceptReject_exact_two :
    sampleAcceptRejectSparse [0] [[0, 1]] [[3 / 4, 1 / 4]] [onlySecond.dense.row, mostlyFirst.dense.row] =
        sampleAcceptReject [0] [mostlyFirst.dense.row] [onlySecond.dense.row, mostlyFirst.dense.row] ∧
      IsDist (residualDistribution onlySecond.dense.row mostlyFirst.dense.row) :=
  ⟨sampleAcceptReject_exact.2.2.1 [0] [mostlyFirst] [onlySecond.dense, mostlyFirst.dense] rfl (by decide),
    (sampleAcceptReject_exact.2.2.2 onlySecond.dense mostlyFirst.dense (by decide +kernel)).2⟩

end Exactness

end SampledAccept
