import BlackweLLM.LastOccurrence
import BlackweLLM.StepRun

/-!
# The thinking budget in plain decode

`ThinkingBudgetState` of `runtime/thinking_budget.py` and the one-token constraint
that the engine takes from it. The span of a sequence is found anew from the last
start and end markers each time, so every fact is one about the sequence.
-/

namespace ThinkingBudget

open List TextScan

section State

structure ThinkingBudgetConfig where
  budget : Nat
  startTokenIds : List Nat
  endTokenIds : List Nat
  budget_pos : 0 < budget
  start_ne : startTokenIds ≠ []
  end_ne : endTokenIds ≠ []
  deriving DecidableEq

structure ThinkingBudgetState where
  config : ThinkingBudgetConfig
  promptTokenIds : List Nat
  outputTokenIds : List Nat
  deriving DecidableEq

inductive BudgetError where
  | maxOutputPositions
  | forcePosition (position : Nat)
  deriving DecidableEq, Repr

namespace ThinkingBudgetState

def new (promptTokenIds : List Nat) (config : ThinkingBudgetConfig) : ThinkingBudgetState :=
  ⟨config, promptTokenIds, []⟩

variable (s : ThinkingBudgetState)

def allTokenIds : List Nat := s.promptTokenIds ++ s.outputTokenIds

def addOutput (tokenIds : List Nat) : ThinkingBudgetState := { s with outputTokenIds := s.outputTokenIds ++ tokenIds }

def span (sequence : List Nat) : Option (Nat × Option Nat) :=
  match findLast s.config.startTokenIds sequence, findLast s.config.endTokenIds sequence with
  | none, _ => none
  | some start, none => some (start, none)
  | some start, some stop => if start < stop then none else some (start, some stop)

def endPrefixLength (sequence : List Nat) : Nat := overlap s.config.endTokenIds sequence

def forceFor (maxOutputPositions : Nat) : Except BudgetError (Option (Nat × Nat)) :=
  if maxOutputPositions = 0 then .error .maxOutputPositions
  else
    let sequence := s.allTokenIds
    match s.span sequence with
    | none => .ok none
    | some (start, _) =>
      let endPrefixLength := s.endPrefixLength sequence
      if endPrefixLength ≠ 0 then .ok (some (0, s.config.endTokenIds.getD endPrefixLength 0))
      else
        let reasoningStart := start + s.config.startTokenIds.length
        let reasoningCount := sequence.length - reasoningStart
        -- `max(0, remaining)`
        let position := s.config.budget - reasoningCount
        if maxOutputPositions ≤ position then .ok none
        else .ok (some (position, s.config.endTokenIds.getD 0 0))

end ThinkingBudgetState

/-- What the engine takes from one request, at the prefill and in a decode round. -/
def forcedToken (thinkingState : Option ThinkingBudgetState) : Except BudgetError (Option Nat) :=
  match thinkingState with
  | none => .ok none
  | some s => do
    match ← s.forceFor 1 with
    | none => pure none
    | some (position, tokenId) =>
      if position ≠ 0 then throw (.forcePosition position)
      pure (some tokenId)

/-- The next token of a request: any where nothing is forced, and the forced one else. -/
def decodeStep (s : ThinkingBudgetState) (token : Nat) : Option ThinkingBudgetState :=
  match forcedToken (some s) with
  | .ok none => some (s.addOutput [token])
  | .ok (some forced) => if token = forced then some (s.addOutput [token]) else none
  | .error _ => none

end State

section Purpose

def reasoningCount (s : ThinkingBudgetState) (start : Nat) : Nat :=
  s.allTokenIds.length - (start + s.config.startTokenIds.length)

/-- The reasoning that the sequence of a state ends with, less what may belong to the end marker. -/
def reasoningTokens (s : ThinkingBudgetState) : Nat :=
  match s.span s.allTokenIds with
  | none => 0
  | some (start, _) => reasoningCount s start - s.endPrefixLength s.allTokenIds

/-- What the end marker leaves behind a start marker inside it. -/
def innerTail (config : ThinkingBudgetConfig) : Nat :=
  if config.startTokenIds <:+: config.endTokenIds then config.endTokenIds.length - config.startTokenIds.length else 0

/-- The budget, unless the prompt is already beyond it or an end marker opens a span of its own. -/
def allowance (config : ThinkingBudgetConfig) (promptTokenIds : List Nat) : Nat :=
  max config.budget (max (reasoningTokens (.new promptTokenIds config)) (innerTail config))

/-- The state is one of a plain decode of the prompt under the constraint. -/
def Reached (config : ThinkingBudgetConfig) (promptTokenIds : List Nat) (s : ThinkingBudgetState) : Prop :=
  ∃ tokens, StepRun.run decodeStep (.new promptTokenIds config) tokens = some s

structure Budgeted (config : ThinkingBudgetConfig) (promptTokenIds : List Nat) : Prop where
  within : ∀ s, Reached config promptTokenIds s → reasoningTokens s ≤ allowance config promptTokenIds
  closed : ∀ s token s' start stop, Reached config promptTokenIds s → decodeStep s token = some s' →
    s.span s.allTokenIds = some (start, stop) → config.endTokenIds <:+ s'.allTokenIds →
      s'.allTokenIds.length - config.endTokenIds.length - (start + config.startTokenIds.length) ≤
        allowance config promptTokenIds
  forced : ∀ s token, Reached config promptTokenIds s → forcedToken (some s) = .ok (some token) →
    ∃ start stop, s.span s.allTokenIds = some (start, stop) ∧
      config.endTokenIds[s.endPrefixLength s.allTokenIds]? = some token ∧
        (s.endPrefixLength s.allTokenIds = 0 → config.budget ≤ reasoningCount s start)
  completed : ∀ s token, Reached config promptTokenIds s → forcedToken (some s) = .ok (some token) →
    s.endPrefixLength s.allTokenIds = 0 → ∀ tokens s', StepRun.run decodeStep s tokens = some s' →
      tokens.take config.endTokenIds.length = config.endTokenIds.take tokens.length
  outside : ∀ s, Reached config promptTokenIds s → s.span s.allTokenIds = none → forcedToken (some s) = .ok none

end Purpose

section Step

variable {s s' : ThinkingBudgetState} {token start : Nat} {stop : Option Nat}

theorem span_eq_some_iff (s : ThinkingBudgetState) (sequence : List Nat) :
    s.span sequence = some (start, stop) ↔ findLast s.config.startTokenIds sequence = some start ∧
      findLast s.config.endTokenIds sequence = stop ∧ ∀ e, stop = some e → e ≤ start := by
  rw [ThinkingBudgetState.span]
  cases hstart : findLast s.config.startTokenIds sequence with
  | none => simp
  | some b =>
    cases hstop : findLast s.config.endTokenIds sequence with
    | none =>
      constructor
      · intro h
        cases h
        exact ⟨rfl, rfl, fun e he => nomatch he⟩
      · rintro ⟨hb, rfl, -⟩
        cases hb
        rfl
    | some e =>
      by_cases hlt : b < e
      · simp only [hlt, if_true]
        constructor
        · intro h
          cases h
        · rintro ⟨hb, rfl, hle⟩
          cases hb
          exact absurd (hle e rfl) (not_le.mpr hlt)
      · simp only [hlt, if_false]
        constructor
        · intro h
          cases h
          refine ⟨rfl, rfl, fun e' he' => ?_⟩
          cases he'
          exact not_lt.mp hlt
        · rintro ⟨hb, rfl, -⟩
          cases hb
          rfl

theorem forcedToken_of_span_none (h : s.span s.allTokenIds = none) : forcedToken (some s) = .ok none := by
  simp only [forcedToken, ThinkingBudgetState.forceFor, h]
  rfl

/-- What is forced inside a span: the next token of the end marker, once one of its tokens ends the sequence or the
budget is used up. -/
theorem forcedToken_of_span (h : s.span s.allTokenIds = some (start, stop)) :
    forcedToken (some s) = .ok (if s.endPrefixLength s.allTokenIds ≠ 0 ∨ s.config.budget ≤ reasoningCount s start then
      some (s.config.endTokenIds.getD (s.endPrefixLength s.allTokenIds) 0) else none) := by
  simp only [forcedToken, ThinkingBudgetState.forceFor, h, Nat.one_ne_zero, if_false]
  by_cases hoverlap : s.endPrefixLength s.allTokenIds = 0
  · by_cases hbudget : s.config.budget ≤ reasoningCount s start
    · have hposition : s.config.budget - (s.allTokenIds.length - (start + s.config.startTokenIds.length)) = 0 :=
        Nat.sub_eq_zero_of_le hbudget
      simp only [hoverlap, hbudget, hposition, not_true_eq_false, if_false, ne_eq, or_true, if_true]
      rfl
    · have hposition : 1 ≤ s.config.budget - (s.allTokenIds.length - (start + s.config.startTokenIds.length)) := by
        rw [reasoningCount] at hbudget
        omega
      simp only [hoverlap, hbudget, hposition, not_true_eq_false, if_false, ne_eq, or_false, if_true]
      rfl
  · simp only [hoverlap, not_false_eq_true, if_true, ne_eq, true_or]
    rfl

theorem endPrefixLength_lt (s : ThinkingBudgetState) (sequence : List Nat) :
    s.endPrefixLength sequence < s.config.endTokenIds.length := overlap_lt s.config.end_ne sequence

/-- The engine never meets a position behind the next token. -/
theorem forcedToken_cases (s : ThinkingBudgetState) : (s.span s.allTokenIds = none ∧ forcedToken (some s) = .ok none) ∨
    ∃ start stop, s.span s.allTokenIds = some (start, stop) ∧
      ((forcedToken (some s) = .ok none ∧ s.endPrefixLength s.allTokenIds = 0 ∧
        reasoningCount s start < s.config.budget) ∨
        ∃ token, forcedToken (some s) = .ok (some token) ∧
          s.config.endTokenIds[s.endPrefixLength s.allTokenIds]? = some token ∧
            (s.endPrefixLength s.allTokenIds = 0 → s.config.budget ≤ reasoningCount s start)) := by
  cases hspan : s.span s.allTokenIds with
  | none => exact .inl ⟨rfl, forcedToken_of_span_none hspan⟩
  | some span =>
    obtain ⟨start, stop⟩ := span
    refine .inr ⟨start, stop, rfl, ?_⟩
    rw [forcedToken_of_span hspan]
    by_cases hforce : s.endPrefixLength s.allTokenIds ≠ 0 ∨ s.config.budget ≤ reasoningCount s start
    · rw [if_pos hforce]
      refine .inr ⟨_, rfl, ?_, fun hzero => hforce.resolve_left fun hne => hne hzero⟩
      have hlt := endPrefixLength_lt s s.allTokenIds
      rw [getD_eq_getElem?_getD, getElem?_eq_getElem hlt]
      rfl
    · rw [if_neg hforce]
      rw [not_or, not_not, not_le] at hforce
      exact .inl ⟨rfl, hforce⟩

@[simp] theorem allTokenIds_addOutput (s : ThinkingBudgetState) (tokenIds : List Nat) :
    (s.addOutput tokenIds).allTokenIds = s.allTokenIds ++ tokenIds := (append_assoc _ _ _).symm

theorem decodeStep_eq_some_iff : decodeStep s token = some s' ↔
    s' = s.addOutput [token] ∧ ∀ forced, forcedToken (some s) = .ok (some forced) → token = forced := by
  rw [decodeStep]
  obtain ⟨-, h⟩ | ⟨start, stop, -, ⟨h, -⟩ | ⟨forced, h, -⟩⟩ := forcedToken_cases s
  · simp [h, eq_comm]
  · simp [h, eq_comm]
  · simp only [h]
    by_cases heq : token = forced
    · simp [heq, eq_comm]
    · simp [heq]

theorem step_cases (h : decodeStep s token = some s') : s' = s.addOutput [token] ∧
    (s.span s.allTokenIds = none ∨ ∃ start stop, s.span s.allTokenIds = some (start, stop) ∧
      ((s.endPrefixLength s.allTokenIds = 0 ∧ reasoningCount s start < s.config.budget) ∨
        s.config.endTokenIds[s.endPrefixLength s.allTokenIds]? = some token)) := by
  obtain ⟨hstate, hforced⟩ := decodeStep_eq_some_iff.mp h
  refine ⟨hstate, ?_⟩
  obtain ⟨hnone, -⟩ | ⟨start, stop, hspan, ⟨-, hfree⟩ | ⟨forced, htoken, hend, -⟩⟩ := forcedToken_cases s
  · exact .inl hnone
  · exact .inr ⟨start, stop, hspan, .inl hfree⟩
  · refine .inr ⟨start, stop, hspan, .inr ?_⟩
    rw [hforced forced htoken]
    exact hend

theorem config_decodeStep (h : decodeStep s token = some s') : s'.config = s.config := by
  rw [(step_cases h).1]
  rfl

end Step

section Invariant

variable {s s' : ThinkingBudgetState} {token start : Nat} {stop : Option Nat} {c : Nat} {sequence : List Nat}

/-- A piece behind the beginning of a suffix is a piece of the suffix. -/
theorem infix_of_suffix {sub whole text : List Nat} {i : Nat} (hsub : OccursAt sub text i) (hwhole : whole <:+ text)
    (hi : text.length - whole.length ≤ i) : sub <:+: whole := by
  obtain ⟨front, rfl⟩ := hwhole
  rw [length_append, Nat.add_sub_cancel] at hi
  obtain ⟨j, rfl⟩ := Nat.exists_eq_add_of_le hi
  exact (occursAt_append_right.mp hsub).isInfix.trans (drop_suffix _ _).isInfix

/-- The span behind one more token. Either it starts at the new token, or the end marker that the token completes holds
its start, or it was there before. -/
theorem span_concat (h : s.span (sequence ++ [c]) = some (start, stop)) :
    start + s.config.startTokenIds.length = sequence.length + 1 ∨
      (s.config.startTokenIds <:+: s.config.endTokenIds ∧
        sequence.length + 1 - s.config.endTokenIds.length ≤ start) ∨
      (¬s.config.endTokenIds <:+ sequence ++ [c] ∧ s.span sequence = some (start, stop)) := by
  rw [span_eq_some_iff] at h
  obtain ⟨hstart, hstop, hle⟩ := h
  have hlast := (findLast_eq_some_iff s.config.start_ne).mp hstart
  by_cases hnew : s.config.startTokenIds <:+ sequence ++ [c]
  · left
    have hlen := hnew.length_le
    rw [length_append, length_singleton] at hlen
    rw [findLast_concat_of_suffix s.config.start_ne hnew, Option.some.injEq] at hstart
    omega
  · right
    by_cases hend : s.config.endTokenIds <:+ sequence ++ [c]
    · left
      rw [findLast_concat_of_suffix s.config.end_ne hend] at hstop
      have hinside := hle _ hstop.symm
      refine ⟨infix_of_suffix hlast.1 hend ?_, hinside⟩
      rwa [length_append, length_singleton]
    · right
      rw [findLast_concat s.config.start_ne hnew] at hstart
      rw [findLast_concat s.config.end_ne hend] at hstop
      exact ⟨hend, (span_eq_some_iff s sequence).mpr ⟨hstart, hstop, hle⟩⟩

theorem start_le (h : s.span sequence = some (start, stop)) :
    start + s.config.startTokenIds.length ≤ sequence.length :=
  ((findLast_eq_some_iff s.config.start_ne).mp ((span_eq_some_iff s sequence).mp h).1).1.end_le s.config.start_ne

theorem reasoningTokens_of_span (h : s.span s.allTokenIds = some (start, stop)) :
    reasoningTokens s = reasoningCount s start - s.endPrefixLength s.allTokenIds := by
  rw [reasoningTokens, h]

/-- A token of the end marker that does not complete it. -/
theorem endPrefixLength_concat (htoken : s.config.endTokenIds[s.endPrefixLength sequence]? = some c)
    (hend : ¬s.config.endTokenIds <:+ sequence ++ [c]) :
    s.endPrefixLength (sequence ++ [c]) = s.endPrefixLength sequence + 1 := by
  have hlt := endPrefixLength_lt s sequence
  have hlast : s.endPrefixLength sequence + 1 ≠ s.config.endTokenIds.length := fun hlast =>
    hend ((suffix_concat_iff s.config.end_ne).mpr ⟨hlast, htoken⟩)
  have hmore : s.endPrefixLength sequence + 1 < s.config.endTokenIds.length := by omega
  exact overlap_concat hmore htoken

/-- The step lemma. -/
theorem reasoningTokens_step {bound : Nat} (hbudget : s.config.budget ≤ bound) (hinner : innerTail s.config ≤ bound)
    (hs : reasoningTokens s ≤ bound) (h : decodeStep s token = some s') : reasoningTokens s' ≤ bound := by
  obtain ⟨rfl, hcases⟩ := step_cases h
  cases hspan : (s.addOutput [token]).span (s.addOutput [token]).allTokenIds with
  | none =>
    rw [reasoningTokens, hspan]
    exact Nat.zero_le _
  | some span =>
    obtain ⟨start, stop⟩ := span
    have hcount : reasoningCount (s.addOutput [token]) start =
        s.allTokenIds.length + 1 - (start + s.config.startTokenIds.length) := by
      rw [reasoningCount, allTokenIds_addOutput, length_append, length_singleton]
      rfl
    have hle := start_le hspan
    rw [reasoningTokens_of_span hspan, hcount]
    rw [allTokenIds_addOutput] at hspan ⊢
    obtain hnew | ⟨hpiece, hinside⟩ | ⟨hend, hold⟩ := span_concat hspan
    · have hnew' : start + s.config.startTokenIds.length = s.allTokenIds.length + 1 := hnew
      omega
    · have hinside' : s.allTokenIds.length + 1 - s.config.endTokenIds.length ≤ start := hinside
      have htail : innerTail s.config = s.config.endTokenIds.length - s.config.startTokenIds.length := if_pos hpiece
      omega
    · have hspan' : s.span s.allTokenIds = some (start, stop) := hold
      rw [reasoningTokens_of_span hspan', reasoningCount] at hs
      have hinside := start_le hspan'
      obtain hnone | ⟨start', stop', hspan'', hstep⟩ := hcases
      · rw [hspan'] at hnone
        cases hnone
      · rw [hspan', Option.some.injEq, Prod.mk.injEq] at hspan''
        obtain ⟨rfl, rfl⟩ := hspan''
        obtain ⟨-, hfree⟩ | htoken := hstep
        · rw [reasoningCount] at hfree
          omega
        · -- the end marker goes on, so the token is not a reasoning token
          have hgrow : (s.addOutput [token]).endPrefixLength (s.allTokenIds ++ [token]) =
              s.endPrefixLength s.allTokenIds + 1 := endPrefixLength_concat htoken hend
          omega

/-- Inside a span that the end marker does not close the span stays. -/
theorem span_stays (h : s.span sequence = some (start, stop)) (hend : ¬s.config.endTokenIds <:+ sequence ++ [c]) :
    ∃ start', s.span (sequence ++ [c]) = some (start', stop) := by
  obtain ⟨hstart, hstop, hle⟩ := (span_eq_some_iff s sequence).mp h
  have hinside := start_le h
  by_cases hnew : s.config.startTokenIds <:+ sequence ++ [c]
  · refine ⟨_, (span_eq_some_iff s _).mpr ⟨findLast_concat_of_suffix s.config.start_ne hnew,
      (findLast_concat s.config.end_ne hend).trans hstop, fun e he => ?_⟩⟩
    have := hle e he
    omega
  · exact ⟨start, (span_eq_some_iff s _).mpr ⟨(findLast_concat s.config.start_ne hnew).trans hstart,
      (findLast_concat s.config.end_ne hend).trans hstop, hle⟩⟩

/-- The run lemma of a forced marker: what follows are its tokens until it is complete. -/
theorem run_forced (hforced : forcedToken (some s) = .ok (some token)) {tokens : List Nat}
    (hrun : StepRun.run decodeStep s tokens = some s') :
    tokens.take (s.config.endTokenIds.length - s.endPrefixLength s.allTokenIds) =
      (s.config.endTokenIds.drop (s.endPrefixLength s.allTokenIds)).take tokens.length := by
  induction tokens generalizing s token with
  | nil => rw [take_nil, length_nil, take_zero]
  | cons t tokens ih =>
    obtain ⟨s₁, hstep, hrest⟩ := StepRun.run_cons.mp hrun
    obtain ⟨hstate, htoken⟩ := decodeStep_eq_some_iff.mp hstep
    obtain rfl := htoken token hforced
    obtain ⟨hnone, hfree⟩ | ⟨start, stop, hspan, ⟨hfree, -⟩ | ⟨forced, hforced', hget, -⟩⟩ := forcedToken_cases s
    · rw [hforced] at hfree
      cases hfree
    · rw [hforced] at hfree
      cases hfree
    · rw [hforced] at hforced'
      cases hforced'
      obtain ⟨hlt, hval⟩ := List.getElem?_eq_some_iff.mp hget
      have hsplit : s.config.endTokenIds.length - s.endPrefixLength s.allTokenIds =
          s.config.endTokenIds.length - (s.endPrefixLength s.allTokenIds + 1) + 1 := by omega
      rw [drop_eq_getElem_cons hlt, hval, length_cons, take_succ_cons, hsplit, take_succ_cons]
      congr 1
      by_cases hlast : s.endPrefixLength s.allTokenIds + 1 = s.config.endTokenIds.length
      · rw [hlast, Nat.sub_self, take_zero, drop_length, take_nil]
      · have hend : ¬s.config.endTokenIds <:+ s.allTokenIds ++ [t] := fun hend =>
          hlast ((suffix_concat_iff s.config.end_ne).mp hend).1
        have hgrow : s₁.endPrefixLength s₁.allTokenIds = s.endPrefixLength s.allTokenIds + 1 := by
          rw [hstate, allTokenIds_addOutput]
          exact endPrefixLength_concat hget hend
        obtain ⟨start', hspan'⟩ := span_stays hspan hend
        have hspan₁ : s₁.span s₁.allTokenIds = some (start', stop) := by
          rw [hstate, allTokenIds_addOutput]
          exact hspan'
        have hnext : forcedToken (some s₁) = .ok (some (s₁.config.endTokenIds.getD (s₁.endPrefixLength s₁.allTokenIds) 0)) := by
          rw [forcedToken_of_span hspan₁, if_pos (.inl (by omega))]
        have hconfig : s₁.config = s.config := config_decodeStep hstep
        have hrest' := ih hnext hrest
        rwa [hgrow, hconfig] at hrest'

end Invariant

section Runs

variable {config : ThinkingBudgetConfig} {promptTokenIds : List Nat} {s : ThinkingBudgetState}

theorem Reached.config_eq (h : Reached config promptTokenIds s) : s.config = config := by
  obtain ⟨tokens, hrun⟩ := h
  exact StepRun.invariant (I := fun s => s.config = config)
    (fun s token s' hs hstep => (config_decodeStep hstep).trans hs) rfl hrun

/-- The run lemma. -/
theorem Reached.within (h : Reached config promptTokenIds s) :
    reasoningTokens s ≤ allowance config promptTokenIds := by
  obtain ⟨tokens, hrun⟩ := h
  have hinv := StepRun.invariant
    (I := fun s => s.config = config ∧ reasoningTokens s ≤ allowance config promptTokenIds) ?_ ?_ hrun
  · exact hinv.2
  · rintro s token s' ⟨hconfig, hs⟩ hstep
    refine ⟨(config_decodeStep hstep).trans hconfig, reasoningTokens_step ?_ ?_ hs hstep⟩
    · rw [hconfig]
      exact le_max_left _ _
    · rw [hconfig]
      exact (le_max_right _ _).trans (le_max_right _ _)
  · exact ⟨rfl, (le_max_left _ _).trans (le_max_right _ _)⟩

/-- The budget holds along every plain decode. -/
theorem budgeted (config : ThinkingBudgetConfig) (promptTokenIds : List Nat) : Budgeted config promptTokenIds := by
  constructor
  · exact fun s hs => hs.within
  · intro s token s' start stop hs hstep hspan hend
    obtain rfl := (step_cases hstep).1
    have hwithin := hs.within
    rw [← hs.config_eq] at hend ⊢
    rw [reasoningTokens_of_span hspan, reasoningCount, hs.config_eq] at hwithin
    rw [allTokenIds_addOutput] at hend ⊢
    have hoverlap : s.endPrefixLength s.allTokenIds + 1 = s.config.endTokenIds.length :=
      ((suffix_concat_iff s.config.end_ne).mp hend).1
    rw [length_append, length_singleton, hs.config_eq]
    rw [hs.config_eq] at hoverlap
    omega
  · intro s token hs hforced
    obtain ⟨-, hfree⟩ | ⟨start, stop, hspan, ⟨hfree, -⟩ | ⟨token', hforced', hget, hbudget⟩⟩ := forcedToken_cases s
    · rw [hforced] at hfree
      cases hfree
    · rw [hforced] at hfree
      cases hfree
    · rw [hforced] at hforced'
      cases hforced'
      rw [hs.config_eq] at hget hbudget
      exact ⟨start, stop, hspan, hget, hbudget⟩
  · intro s token hs hforced hzero tokens s' hrun
    have hmarker := run_forced hforced hrun
    rwa [hzero, Nat.sub_zero, drop_zero, hs.config_eq] at hmarker
  · exact fun s _ hspan => forcedToken_of_span_none hspan

def roomy : ThinkingBudgetConfig := ⟨100, [1], [8, 9], by decide, by decide, by decide⟩

def nested : ThinkingBudgetConfig := ⟨1, [2], [1, 2, 3, 4, 5], Nat.one_pos, by decide, by decide⟩

/-- The end marker is forced behind one token of it although ninety-nine tokens are left; a marker that opens a
span of its own leaves three tokens where one is allowed. -/
theorem roomy_forces :
    (∃ s, Reached roomy [1] s ∧ reasoningCount s 0 = 1 ∧ forcedToken (some s) = .ok (some 9)) ∧
      ∃ s, Reached nested [2] s ∧ s.span s.allTokenIds = some (3, some 2) ∧ reasoningTokens s = 3 := by
  refine ⟨⟨⟨roomy, [1], [8]⟩, ⟨[8], ?_⟩, ?_, ?_⟩, ⟨⟨nested, [2], [7, 1, 2, 3, 4, 5]⟩, ⟨[7, 1, 2, 3, 4, 5], ?_⟩, ?_, ?_⟩⟩ <;>
    decide

end Runs

end ThinkingBudget
