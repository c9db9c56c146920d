import BlackweLLM.SampledAccept

/-!
# Runs of sampled rounds

The sampled `round` of the MTP, DSpark, DFlash and Flash-Next drivers without an accept cap:
a block is drafted behind what is committed, its rows are kept, and the target accepts or
rejects it. Round after round the committed tokens have the law of plain sampling.
-/

namespace SampledRounds

open List FiniteLaw SampledAccept
open MtpAccept (Decision)
open scoped BigOperators

variable {n : ℕ}

/-- How a block is proposed: the number of drafts, and their rows. -/
structure Proposer (n : ℕ) where
  k : ℕ
  draft : List (Fin n) → Dist n

/-- One round behind the committed tokens `past`. -/
def round (target : List (Fin n) → Dist n) (proposer : Proposer n) (past : List (Fin n)) :
    Law (Except SampleError (Decision (Fin n))) :=
  bind (propose proposer.draft proposer.k past) fun tokens =>
    sampleAcceptReject tokens (draftRows proposer.draft past tokens) (targetRows target past tokens)

/-- Round after round. The proposer of each block may depend on all that is committed. -/
def rounds (target : List (Fin n) → Dist n) :
    List (List (Fin n) → Proposer n) → List (Fin n) → Law (Except SampleError (List (Fin n)))
  | [], past => point (.ok past)
  | proposer :: proposers, past =>
    bind (round target (proposer past) past) fun r =>
      match r with
      | .error e => point (.error e)
      | .ok d => rounds target proposers (past ++ d.committed)

/-- Tokens drawn one by one. -/
def decode (target : List (Fin n) → Dist n) : ℕ → List (Fin n) → Law (List (Fin n))
  | 0, past => point past
  | l + 1, past => bind (multinomial (target past).row) fun t => decode target l (past ++ [t])

def onOk {α : Type} (f : α → ℚ) : Except SampleError α → ℚ
  | .ok a => f a
  | .error _ => 0

/-- A token of the target leaves the value as it is, on average. -/
def Fair (target : List (Fin n) → Dist n) (h : List (Fin n) → ℚ) : Prop :=
  ∀ past, ∑ t, (target past).row t * h (past ++ [t]) = h past

variable {draft target : List (Fin n) → Dist n} {h : List (Fin n) → ℚ}

theorem round_eq (proposer : Proposer n) (past : List (Fin n)) :
    round target proposer past = roundFrom proposer.draft target proposer.k past 0 := by
  unfold round roundFrom
  congr 1
  funext tokens
  exact sampleAcceptReject_of_isDist (length_draftRows past tokens) (bonus_targetRows past tokens)
    (draftRows_isDist past tokens) (targetRows_isDist past tokens)

@[simp] theorem onOk_ok {α : Type} (f : α → ℚ) (a : α) : onOk f (.ok a) = f a := rfl

theorem onOk_commitToken (F : List (Fin n) → ℚ) (x : Fin n) (r : Except SampleError (Decision (Fin n))) :
    onOk (fun d => F d.committed) (commitToken x r) = onOk (fun d => F (x :: d.committed)) r := by
  cases r <;> rfl

/-- A block keeps a fair value, wherever it is rejected. -/
theorem round_fair (hfair : Fair target h) (k p : ℕ) (past : List (Fin n)) {F : List (Fin n) → ℚ}
    (hF : ∀ ys, ys ≠ [] → F ys = h (past ++ ys)) :
    expect (roundFrom draft target k past p) (onOk fun d => F d.committed) = h past := by
  induction k generalizing past p F with
  | zero =>
    rw [expect_roundFrom_zero]
    simp only [onOk_ok, fun t => hF [t] (cons_ne_nil t [])]
    exact hfair past
  | succ k ih =>
    have haccept : ∀ x, expect (roundFrom draft target k (past ++ [x]) (p + 1))
        (onOk fun d => F (x :: d.committed)) = h (past ++ [x]) := by
      intro x
      refine ih (p + 1) (past ++ [x]) (F := fun ys => F (x :: ys)) fun ys _ => ?_
      rw [hF _ (cons_ne_nil x ys), append_assoc, singleton_append]
    rw [expect_roundFrom_succ]
    simp only [onOk_commitToken, haccept, onOk_ok, fun t => hF [t] (cons_ne_nil t [])]
    rw [sum_recombine (target past) (draft past) fun t => h (past ++ [t])]
    exact hfair past

theorem rounds_fair (hfair : Fair target h) {G : List (Fin n) → ℚ} (proposers : List (List (Fin n) → Proposer n))
    (past : List (Fin n)) (hG : ∀ ys, past.length + proposers.length ≤ ys.length → G ys = h ys) :
    expect (rounds target proposers past) (onOk G) = h past := by
  induction proposers generalizing past with
  | nil =>
    rw [rounds, expect_point]
    exact hG past le_rfl
  | cons proposer proposers ih =>
    have hround : ∀ r, expect (match r with
        | .error e => point (.error e)
        | .ok d => rounds target proposers (past ++ d.committed)) (onOk G) =
        onOk (fun d : Decision (Fin n) => expect (rounds target proposers (past ++ d.committed)) (onOk G)) r := by
      intro r
      cases r with
      | error e => exact expect_point _ _
      | ok d => rfl
    simp only [rounds, expect_bind, round_eq, hround]
    -- a round commits one token at least, so the rounds left cover what is still missing
    refine round_fair hfair _ 0 past (F := fun ys => expect (rounds target proposers (past ++ ys)) (onOk G)) ?_
    intro ys hne
    have hpos := length_pos_of_ne_nil hne
    refine ih (past ++ ys) fun zs hzs => hG zs ?_
    rw [length_append] at hzs
    rw [length_cons]
    omega

/-- The value of `f` at the first `l` tokens, when those still missing are drawn one by one. -/
def completed (target : List (Fin n) → Dist n) (l : ℕ) (f : List (Fin n) → ℚ) (past : List (Fin n)) : ℚ :=
  expect (decode target (l - past.length) past) fun ys => f (ys.take l)

theorem completed_fair (l : ℕ) (f : List (Fin n) → ℚ) : Fair target (completed target l f) := by
  intro past
  unfold completed
  rcases Nat.lt_or_ge past.length l with hlt | hge
  · obtain ⟨m, hm⟩ : ∃ m, l - past.length = m + 1 := ⟨l - past.length - 1, by omega⟩
    have hrest : l - (past.length + 1) = m := by omega
    simp only [length_append, length_singleton, hrest, hm, decode, expect_bind, expect_multinomial,
      (target past).isDist.sum_one, div_one]
  · have hnone : l - past.length = 0 := Nat.sub_eq_zero_of_le hge
    have hmore : l - (past.length + 1) = 0 := by omega
    simp only [length_append, length_singleton, hnone, hmore, decode, expect_point, take_append_of_le_length hge]
    rw [← Finset.sum_mul, (target past).isDist.sum_one, one_mul]

/-- Sampled speculation is exact over whole runs: the tokens that any number of rounds commit have the joint law
of tokens drawn one by one, and no run raises. -/
theorem rounds_exact (target : List (Fin n) → Dist n) (proposers : List (List (Fin n) → Proposer n)) :
    expect (rounds target proposers []) (onOk fun _ => 1) = 1 ∧
    ∀ (l : ℕ) (f : List (Fin n) → ℚ),
      expect (rounds target proposers []) (onOk (completed target l f)) =
        expect (decode target l []) (fun ys => f (ys.take l)) ∧
      (l ≤ proposers.length → expect (rounds target proposers []) (onOk fun ys => f (ys.take l)) =
        expect (decode target l []) fun ys => f (ys.take l)) := by
  refine ⟨?_, fun l f => ⟨?_, fun hl => ?_⟩⟩
  · refine rounds_fair (h := fun _ => 1) (fun past => ?_) proposers [] fun _ _ => rfl
    rw [← Finset.sum_mul, (target past).isDist.sum_one, one_mul]
  · exact rounds_fair (completed_fair l f) proposers [] fun _ _ => rfl
  · refine rounds_fair (completed_fair l f) proposers [] fun ys hys => ?_
    have hnone : l - ys.length = 0 := by
      rw [length_nil] at hys
      omega
    rw [completed, hnone, decode, expect_point]

/-- Tokens that were drafted and accepted: a token of the target's follows them. -/
def accepts (ys : List (Fin n)) (r : Except SampleError (Decision (Fin n))) : Prop :=
  ys <+: committedOf r ∧ ys.length < (committedOf r).length

instance (ys : List (Fin n)) : DecidablePred (accepts ys) := fun _ => inferInstanceAs (Decidable (_ ∧ _))

theorem accepts_commitToken (y : Fin n) (ys : List (Fin n)) (x : Fin n) (r : Except SampleError (Decision (Fin n))) :
    accepts (y :: ys) (commitToken x r) ↔ x = y ∧ accepts ys r := by
  cases r with
  | error e => simp [accepts, committedOf, commitToken, Except.map]
  | ok d => simp [accepts, committedOf, commitToken, Except.map, cons_prefix_cons, eq_comm, and_assoc]

theorem prob_accepts_from (ys : List (Fin n)) (k : ℕ) (past : List (Fin n)) (p : ℕ) :
    prob (roundFrom draft target k past p) (accepts ys) =
      if ys.length ≤ k then
        ∏ i : Fin ys.length, min ((target (past ++ ys.take i)).row ys[i]) ((draft (past ++ ys.take i)).row ys[i])
      else 0 := by
  induction ys generalizing k past p with
  | nil =>
    have hfirst : (fun r => if accepts [] r then (1 : ℚ) else 0) = atPosition (n := n) 0 fun _ _ => 1 := by
      funext r
      simp only [accepts, nil_prefix, true_and, length_nil, atPosition]
      cases committedOf r <;> simp
    rw [prob, hfirst, expect_first]
    simp [(target past).isDist.sum_one]
  | cons y ys ih =>
    have hreject : ∀ t q, ¬accepts (y :: ys) (.ok ⟨p, [t], q⟩) := by simp [accepts, committedOf]
    cases k with
    | zero =>
      rw [prob, expect_roundFrom_zero]
      simp [hreject]
    | succ k =>
      have haccept : ∀ x r, (if accepts (y :: ys) (commitToken x r) then (1 : ℚ) else 0) =
          (if x = y then 1 else 0) * if accepts ys r then 1 else 0 := by
        intro x r
        simp only [accepts_commitToken, ite_and, ite_mul, one_mul, zero_mul]
      have htail := ih k (past ++ [y]) (p + 1)
      rw [prob] at htail
      rw [prob, expect_roundFrom_succ]
      simp only [haccept, expect_mul_left, hreject, if_false, mul_zero, Finset.sum_const_zero, add_zero]
      rw [Finset.sum_eq_single y (fun x _ hne => by rw [if_neg hne, zero_mul, mul_zero]) (by simp), if_pos rfl, one_mul,
        htail, accepted_mass (target past).isDist (draft past).isDist]
      simp [Fin.prod_univ_succ]

/-- At each position a round accepts what its draft row and its target row have in common, and never
more drafts than were proposed. -/
theorem prob_accepts (target : List (Fin n) → Dist n) (proposer : Proposer n) (past ys : List (Fin n)) :
    prob (round target proposer past) (accepts ys) =
      if ys.length ≤ proposer.k then ∏ i : Fin ys.length,
        min ((target (past ++ ys.take i)).row ys[i]) ((proposer.draft (past ++ ys.take i)).row ys[i])
      else 0 := by
  rw [round_eq]
  exact prob_accepts_from ys proposer.k past 0

end SampledRounds
