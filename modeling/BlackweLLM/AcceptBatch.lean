import BlackweLLM.MtpAccept
import BlackweLLM.OrderedDict

/-!
# Greedy decisions for a batch

`determine_accept_reject_batch` of `runtime/mtp_accept.py`. The flat predictions are
viewed as one row a request, the drafts come from lists or from a device tensor, and
all rows are compared at once. Each request gets what the sequential rule gives it.
-/

namespace MtpAccept

open List

variable {Tok : Type} [DecidableEq Tok]

structure Tensor (α : Type) where
  shape : List Nat
  data : List α
  sized : data.length = shape.prod

inductive Drafts (Tok : Type) where
  | lists (drafts : Nat → Option (List Tok))
  | device (drafts : Tensor Tok)

inductive BatchError where
  | viewShape (numel rows width : Nat)
  | deviceShape (shape : List Nat)
  | missingSlot (slot : Nat)
  | raggedDrafts (expected got : Nat)
  | sizeMismatch (predicted drafts : Nat)
  | indexError
  deriving DecidableEq, Repr

def rowAt (values : List Tok) (width i : Nat) : List Tok := (values.drop (i * width)).take width

omit [DecidableEq Tok] in
theorem length_rowAt {values : List Tok} {rows width i : Nat} (h : values.length = rows * width) (hi : i < rows) :
    (rowAt values width i).length = width := by
  have hle : (i + 1) * width ≤ rows * width := Nat.mul_le_mul_right width hi
  rw [Nat.succ_mul] at hle
  rw [rowAt, length_take, length_drop, h]
  omega

/-- `[drafts[s][1:] for s in slots]` -/
def gatherDrafts (drafts : Nat → Option (List Tok)) : List Nat → Except BatchError (List (List Tok))
  | [] => .ok []
  | slot :: slots =>
    match drafts slot with
    | none => .error (.missingSlot slot)
    | some tokens =>
      match gatherDrafts drafts slots with
      | .error e => .error e
      | .ok rows => .ok (tokens.tail :: rows)

/-- The width of `torch.tensor` over nested lists. Without rows the only dimension has size zero. -/
def tensorWidth : List (List Tok) → Except BatchError Nat
  | [] => .ok 0
  | row :: rows =>
    match rows.find? (fun other => other.length ≠ row.length) with
    | none => .ok row.length
    | some other => .error (.raggedDrafts row.length other.length)

def broadcastWidth (predicted drafts : Nat) : Except BatchError Nat :=
  if predicted = drafts then .ok predicted
  else if predicted = 1 then .ok drafts
  else if drafts = 1 then .ok predicted
  else .error (.sizeMismatch predicted drafts)

/-- A row of one entry is repeated. -/
def expand (width : Nat) : List Tok → List Tok
  | [token] => replicate width token
  | row => row

/-- `still_matching` of one row. -/
def stillMatching (width k : Nat) (predicted draftNext : List Tok) : List Bool :=
  if 0 < k then
    cumprod (zipWith (fun a b => decide (a = b)) (expand width (predicted.take k)) (expand width draftNext))
  else []

/-- `[row[start + p] for p in range(n)]` -/
def readFrom (row : List Tok) (start n : Nat) : Except BatchError (List Tok) :=
  if start + n ≤ row.length then .ok ((row.drop start).take n) else .error .indexError

/-- One turn of the closing loop. The accepted tokens are read from the slot's list, or from the
predictions when the drafts stay on the device. -/
def decideRow (drafts : Drafts Tok) (slot k : Nat) (predicted : List Tok) (matching : List Bool) :
    Except BatchError (Decision Tok) :=
  let numAccepted := matching.count true
  let accepted :=
    match drafts with
    | .device _ => readFrom predicted 0 numAccepted
    | .lists lists =>
      match lists slot with
      | none => .error (.missingSlot slot)
      | some tokens => readFrom tokens 1 numAccepted
  match accepted, readFrom predicted numAccepted 1 with
  | .error e, _ => .error e
  | .ok _, .error e => .error e
  | .ok tokens, .ok last =>
    .ok ⟨numAccepted, tokens ++ last, if numAccepted < k then some numAccepted else none⟩

/-- The candidate rows behind the anchors, and their width. -/
def draftNext (slots : List Nat) (k : Nat) : Drafts Tok → Except BatchError (List (List Tok) × Nat)
  | .device drafts =>
    if drafts.shape = [slots.length, k + 1] then
      .ok ((range slots.length).map fun i => ((rowAt drafts.data (k + 1) i).drop 1).take k, k)
    else .error (.deviceShape drafts.shape)
  | .lists lists =>
    match gatherDrafts lists slots with
    | .error e => .error e
    | .ok rows =>
      match tensorWidth rows with
      | .error e => .error e
      | .ok width => .ok (rows, width)

/-- `decisions[s] = ...` over the slots from row `i` on. -/
def decideAll (decide : Nat → Nat → Except BatchError (Decision Tok)) :
    Nat → List Nat → OrderedDict Nat (Decision Tok) → Except BatchError (OrderedDict Nat (Decision Tok))
  | _, [], decisions => .ok decisions
  | i, slot :: slots, decisions =>
    match decide i slot with
    | .error e => .error e
    | .ok decision => decideAll decide (i + 1) slots (decisions.set slot decision)

/-- `predictions` are the greedy picks of `verify_logits`, in request-then-position order. -/
def determineAcceptRejectBatch (slots : List Nat) (drafts : Drafts Tok) (predictions : List Tok) (k : Nat) :
    Except BatchError (OrderedDict Nat (Decision Tok)) :=
  if predictions.length ≠ slots.length * (k + 1) then
    .error (.viewShape predictions.length slots.length (k + 1))
  else
    match draftNext slots k drafts with
    | .error e => .error e
    | .ok (rows, width) =>
      match broadcastWidth k width with
      | .error e => .error e
      | .ok size =>
        decideAll (fun i slot => decideRow drafts slot k (rowAt predictions (k + 1) i)
          (stillMatching size k (rowAt predictions (k + 1) i) (rows.getD i []))) 0 slots .empty

def Drafts.request (i slot k : Nat) : Drafts Tok → Option (List Tok)
  | lists tokens => tokens slot
  | device drafts => some (rowAt drafts.data (k + 1) i)

/-- Every request brings an anchor and `k` drafts. -/
def Drafts.Uniform (slots : List Nat) (k : Nat) : Drafts Tok → Prop
  | lists drafts => slots ≠ [] ∧ ∀ slot ∈ slots, ∃ tokens, drafts slot = some tokens ∧ tokens.length = k + 1
  | device drafts => drafts.shape = [slots.length, k + 1]

/-- The decision a row of predictions calls for: the longest matching run of drafts and one more
token of the target. -/
structure Greedy (drafts predicted : List Tok) (decision : Decision Tok) : Prop where
  inRange : decision.numAccepted ≤ drafts.length
  agrees : drafts.take decision.numAccepted = predicted.take decision.numAccepted
  stops : ∀ h : decision.numAccepted < drafts.length, predicted[decision.numAccepted]? ≠ some drafts[decision.numAccepted]
  commits : ∃ token, predicted[decision.numAccepted]? = some token ∧
    decision.committed = drafts.take decision.numAccepted ++ [token]
  rejects : decision.rejectedAt = if decision.numAccepted < drafts.length then some decision.numAccepted else none

theorem matched_stops (drafts predicted : List Tok) (h : matched drafts predicted < drafts.length) :
    predicted[matched drafts predicted]? ≠ some drafts[matched drafts predicted] := by
  induction drafts generalizing predicted with
  | nil => simp at h
  | cons draft drafts ih =>
    cases predicted with
    | nil => simp
    | cons t rest =>
      by_cases ht : t = draft
      · simp only [matched, ht, if_true, length_cons, Nat.add_lt_add_iff_right] at h
        simpa [matched, ht] using ih rest h
      · simp [matched, ht]

/-- The sequential rule is greedy on every row that is long enough. -/
theorem determineAcceptRejectFromPredictions_greedy (anchor : Tok) (drafts predicted : List Tok)
    (hlen : predicted.length = drafts.length + 1) :
    ∃ decision, determineAcceptRejectFromPredictions (anchor :: drafts) predicted = .ok decision ∧
      Greedy drafts predicted decision := by
  have hle := matched_le drafts predicted
  have hlast : matched drafts predicted < predicted.length := by omega
  refine ⟨acceptFrom 0 drafts predicted, by simp [determineAcceptRejectFromPredictions, hlen], ?_⟩
  rw [acceptFrom_eq 0 drafts predicted hlen]
  constructor
  · simpa using hle
  · simpa using take_matched drafts predicted
  · simpa using matched_stops drafts predicted
  · exact ⟨predicted[matched drafts predicted], by simp, by
      simp only [Nat.zero_add]
      rw [take_matched, take_add_one, getElem?_eq_getElem hlast, Option.toList_some]⟩
  · simp

omit [DecidableEq Tok] in
theorem gatherDrafts_eq {lists : Nat → Option (List Tok)} {slots : List Nat} {rows : Nat → List Tok}
    (h : ∀ slot ∈ slots, lists slot = some (rows slot)) :
    gatherDrafts lists slots = .ok (slots.map fun slot => (rows slot).tail) := by
  induction slots with
  | nil => rfl
  | cons slot slots ih =>
    simp only [gatherDrafts, h slot mem_cons_self, ih fun s hs => h s (mem_cons_of_mem _ hs), map_cons]

omit [DecidableEq Tok] in
theorem tensorWidth_uniform {rows : List (List Tok)} {width : Nat} (hne : rows ≠ [])
    (h : ∀ row ∈ rows, row.length = width) : tensorWidth rows = .ok width := by
  cases rows with
  | nil => exact absurd rfl hne
  | cons row rows =>
    have hrow := h row mem_cons_self
    have hfind : rows.find? (fun other => other.length ≠ width) = none := by
      rw [find?_eq_none]
      intro other hother
      simp [h other (mem_cons_of_mem _ hother)]
    simp only [tensorWidth, hrow, hfind]

theorem stillMatching_uniform {k : Nat} {drafts predicted : List Tok} (hdrafts : drafts.length = k)
    (hpredicted : predicted.length = k + 1) :
    (stillMatching k k predicted drafts).count true = matched drafts predicted := by
  have hexpand (row : List Tok) (hrow : row.length = k) : expand k row = row := by
    cases row with
    | nil => rfl
    | cons t rest =>
      cases rest with
      | nil => simp only [length_singleton] at hrow; simp [expand, ← hrow]
      | cons t' rest => rfl
  have htake : (predicted.take k).length = k := by rw [length_take, hpredicted]; omega
  by_cases hk : 0 < k
  · rw [stillMatching, if_pos hk, hexpand _ htake, hexpand _ hdrafts, count_cumprod,
      matched_take drafts predicted (Nat.le_of_eq hdrafts)]
  · have hnil : drafts = [] := eq_nil_of_length_eq_zero (by omega)
    simp [stillMatching, hk, hnil, matched]

omit [DecidableEq Tok] in
theorem readFrom_one {row : List Tok} {n : Nat} (h : n < row.length) : readFrom row n 1 = .ok [row[n]] := by
  rw [readFrom, if_pos (by omega), drop_eq_getElem_cons h, take_succ_cons, take_zero]

/-- On rows of the same width the loop body takes the sequential decision, wherever it reads. -/
theorem decideRow_eq {drafts : Drafts Tok} {i slot k : Nat} {anchor : Tok} {tokens predicted : List Tok}
    (hrequest : drafts.request i slot k = some (anchor :: tokens)) (htokens : tokens.length = k)
    (hpredicted : predicted.length = k + 1) :
    decideRow drafts slot k predicted (stillMatching k k predicted tokens) = .ok (acceptFrom 0 tokens predicted) := by
  have hle := matched_le tokens predicted
  have hlast : matched tokens predicted < predicted.length := by omega
  have hcommit : predicted.take (matched tokens predicted) ++ [predicted[matched tokens predicted]] =
      predicted.take (matched tokens predicted + 1) := by
    rw [take_add_one, getElem?_eq_getElem hlast, Option.toList_some]
  have hpredictions : readFrom predicted 0 (matched tokens predicted) =
      .ok (predicted.take (matched tokens predicted)) := by
    rw [readFrom, if_pos (by omega), drop_zero]
  have hdrafts : readFrom (anchor :: tokens) 1 (matched tokens predicted) =
      .ok (predicted.take (matched tokens predicted)) := by
    rw [readFrom, if_pos (by rw [length_cons]; omega), drop_succ_cons, drop_zero, take_matched]
  rw [acceptFrom_eq 0 tokens predicted (by omega)]
  cases drafts with
  | lists lists =>
    have hlists : lists slot = some (anchor :: tokens) := hrequest
    simp only [decideRow, stillMatching_uniform htokens hpredicted, hlists, hdrafts, readFrom_one hlast, hcommit,
      htokens, Nat.zero_add]
  | device drafts =>
    simp only [decideRow, stillMatching_uniform htokens hpredicted, hpredictions, readFrom_one hlast, hcommit,
      htokens, Nat.zero_add]

omit [DecidableEq Tok] in
theorem decideAll_ends (decide : Nat → Nat → Except BatchError (Decision Tok)) (slots : List Nat) (i : Nat)
    (start : OrderedDict Nat (Decision Tok))
    (h : ∀ j slot, slots[j]? = some slot → ∃ decision, decide (i + j) slot = .ok decision) :
    ∃ decisions, decideAll decide i slots start = .ok decisions ∧
      (∀ j slot decision, slots[j]? = some slot → slot ∉ slots.drop (j + 1) → decide (i + j) slot = .ok decision →
        decisions.get? slot = some decision) ∧
      ∀ slot ∉ slots, decisions.get? slot = start.get? slot := by
  induction slots generalizing i start with
  | nil => exact ⟨start, rfl, by simp, fun _ _ => rfl⟩
  | cons first slots ih =>
    obtain ⟨decision, hdecision⟩ := h 0 first rfl
    obtain ⟨decisions, hrun, hlater, hother⟩ := ih (i + 1) (start.set first decision) fun j slot hj => by
      have hj' := h (j + 1) slot hj
      rwa [Nat.add_comm j 1, ← Nat.add_assoc] at hj'
    refine ⟨decisions, by simp only [decideAll, show decide i first = .ok decision from hdecision, hrun], ?_, ?_⟩
    · intro j slot found hj hlast hfound
      cases j with
      | zero =>
        have hslot : first = slot := by simpa using hj
        subst hslot
        have hsame : decision = found := by
          rw [hdecision] at hfound
          exact Except.ok.inj hfound
        rw [hother first (by simpa using hlast), OrderedDict.get?_set, if_pos rfl, hsame]
      | succ j =>
        refine hlater j slot found hj (by simpa using hlast) ?_
        rwa [Nat.add_assoc, Nat.add_comm 1 j]
    · intro slot hslot
      rw [mem_cons, not_or] at hslot
      rw [hother slot hslot.2, OrderedDict.get?_set, if_neg hslot.1]

omit [DecidableEq Tok] in
theorem draftNext_uniform {slots : List Nat} {drafts : Drafts Tok} {k : Nat} (h : drafts.Uniform slots k) :
    ∃ rows, draftNext slots k drafts = .ok (rows, k) ∧
      ∀ i slot, slots[i]? = some slot → ∃ anchor tokens, drafts.request i slot k = some (anchor :: tokens) ∧
        tokens.length = k ∧ rows.getD i [] = tokens := by
  cases drafts with
  | lists lists =>
    obtain ⟨hne, hlists⟩ := h
    have hrows : gatherDrafts lists slots = .ok (slots.map fun slot => ((lists slot).getD []).tail) :=
      gatherDrafts_eq fun slot hslot => by
        obtain ⟨tokens, hsome, -⟩ := hlists slot hslot
        simp [hsome]
    have hwidth : tensorWidth (slots.map fun slot => ((lists slot).getD []).tail) = .ok k := by
      apply tensorWidth_uniform (by simpa using hne)
      intro row hrow
      obtain ⟨slot, hslot, rfl⟩ := mem_map.1 hrow
      obtain ⟨tokens, hsome, hlen⟩ := hlists slot hslot
      simp [hsome, hlen]
    refine ⟨slots.map fun slot => ((lists slot).getD []).tail, by simp only [draftNext, hrows, hwidth], ?_⟩
    intro i slot hi
    obtain ⟨tokens, hsome, hlen⟩ := hlists slot (mem_of_getElem? hi)
    obtain ⟨anchor, rest, rfl⟩ := exists_cons_of_length_eq_add_one hlen
    exact ⟨anchor, rest, hsome, by simpa using hlen, by simp [getD, hi, hsome]⟩
  | device drafts =>
    have hshape : drafts.shape = [slots.length, k + 1] := h
    have hsized : drafts.data.length = slots.length * (k + 1) := by simp [drafts.sized, hshape]
    refine ⟨(range slots.length).map fun i => ((rowAt drafts.data (k + 1) i).drop 1).take k, by
      simp only [draftNext, if_pos hshape], ?_⟩
    intro i slot hi
    have hlt : i < slots.length := (List.getElem?_eq_some_iff.1 hi).1
    obtain ⟨anchor, rest, hrow⟩ := exists_cons_of_length_eq_add_one (length_rowAt hsized hlt)
    have hrest : rest.length = k := by simpa [hrow] using length_rowAt hsized hlt
    have htake : ((rowAt drafts.data (k + 1) i).drop 1).take k = rest := by
      rw [hrow, drop_one, tail_cons, ← hrest, take_length]
    refine ⟨anchor, rest, congrArg some hrow, hrest, ?_⟩
    rw [getD_eq_getElem?_getD, getElem?_map, getElem?_range hlt]
    exact htake

/-- Every request of a uniform batch gets the sequential decision on its own drafts and predictions, and that
decision is the greedy one. Where a slot is listed twice its last request counts. -/
theorem determineAcceptRejectBatch_agrees (slots : List Nat) (drafts : Drafts Tok) (predictions : List Tok) (k : Nat)
    (hpredictions : predictions.length = slots.length * (k + 1)) (hdrafts : drafts.Uniform slots k) :
    ∃ decisions, determineAcceptRejectBatch slots drafts predictions k = .ok decisions ∧
      ∀ i slot, slots[i]? = some slot → slot ∉ slots.drop (i + 1) →
        ∃ anchor tokens decision, drafts.request i slot k = some (anchor :: tokens) ∧
          determineAcceptRejectFromPredictions (anchor :: tokens) (rowAt predictions (k + 1) i) = .ok decision ∧
          Greedy tokens (rowAt predictions (k + 1) i) decision ∧ decisions.get? slot = some decision := by
  obtain ⟨rows, hnext, hrows⟩ := draftNext_uniform hdrafts
  have hsize : broadcastWidth k k = .ok k := by simp [broadcastWidth]
  have hpredicted (i slot : Nat) (hi : slots[i]? = some slot) : (rowAt predictions (k + 1) i).length = k + 1 :=
    length_rowAt hpredictions (List.getElem?_eq_some_iff.1 hi).1
  obtain ⟨decisions, hrun, hat, -⟩ := decideAll_ends
    (fun i slot => decideRow drafts slot k (rowAt predictions (k + 1) i)
      (stillMatching k k (rowAt predictions (k + 1) i) (rows.getD i []))) slots 0 .empty
    fun j slot hj => by
      obtain ⟨anchor, tokens, hrequest, htokens, hrow⟩ := hrows j slot hj
      exact ⟨_, by simpa only [Nat.zero_add, hrow] using decideRow_eq hrequest htokens (hpredicted j slot hj)⟩
  refine ⟨decisions, by
    simp only [determineAcceptRejectBatch, hpredictions, ne_eq, not_true_eq_false, if_false, hnext, hsize, hrun], ?_⟩
  intro i slot hi hlast
  obtain ⟨anchor, tokens, hrequest, htokens, hrow⟩ := hrows i slot hi
  have hlen := hpredicted i slot hi
  obtain ⟨decision, hdecision, hgreedy⟩ := determineAcceptRejectFromPredictions_greedy anchor tokens
    (rowAt predictions (k + 1) i) (by omega)
  have hsame : acceptFrom 0 tokens (rowAt predictions (k + 1) i) = decision := by
    simpa [determineAcceptRejectFromPredictions, hlen, htokens] using hdecision
  refine ⟨anchor, tokens, decision, hrequest, hdecision, hgreedy, ?_⟩
  refine hat i slot decision hi hlast ?_
  simpa only [Nat.zero_add, hrow, hsame] using decideRow_eq hrequest htokens hlen

/-- Two requests with two drafts each: one accepted in full, one refused at its second draft. -/
theorem determineAcceptRejectBatch_agrees_two :
    [20, 30, 80, 50, 99, 85].length = [0, 1].length * (2 + 1) ∧
    (Drafts.lists fun slot => if slot = 0 then some [10, 20, 30] else some [10, 50, 60]).Uniform [0, 1] 2 ∧
    ∃ decisions, determineAcceptRejectBatch [0, 1]
        (.lists fun slot => if slot = 0 then some [10, 20, 30] else some [10, 50, 60]) [20, 30, 80, 50, 99, 85] 2 =
          .ok decisions ∧
      ∀ i slot, [0, 1][i]? = some slot → slot ∉ [0, 1].drop (i + 1) →
        ∃ anchor tokens decision,
          (Drafts.lists fun slot => if slot = 0 then some [10, 20, 30] else some [10, 50, 60]).request i slot 2 =
            some (anchor :: tokens) ∧
          determineAcceptRejectFromPredictions (anchor :: tokens) (rowAt [20, 30, 80, 50, 99, 85] (2 + 1) i) =
            .ok decision ∧
          Greedy tokens (rowAt [20, 30, 80, 50, 99, 85] (2 + 1) i) decision ∧ decisions.get? slot = some decision := by
  have hlen : [20, 30, 80, 50, 99, 85].length = [0, 1].length * (2 + 1) := rfl
  have huniform : (Drafts.lists fun slot => if slot = 0 then some [10, 20, 30] else some [10, 50, 60]).Uniform
      [0, 1] 2 := by
    constructor
    · decide
    · intro slot hslot
      by_cases h : slot = 0 <;> simp [h]
  exact ⟨hlen, huniform, determineAcceptRejectBatch_agrees _ _ _ _ hlen huniform⟩

/-- Lists of different lengths are refused for every `k`, although each slot alone has a decision. -/
theorem determineAcceptRejectBatch_ragged :
    (∀ k, ∃ e, determineAcceptRejectBatch [0, 1]
      (.lists fun slot => if slot = 0 then some [10, 20] else some [10, 50, 60, 70])
      ([20, 30] ++ [50, 60, 70, 80]) k = .error e) ∧
    determineAcceptRejectFromPredictions [10, 20] [20, 30] = .ok ⟨1, [20, 30], none⟩ ∧
    determineAcceptRejectFromPredictions [10, 50, 60, 70] [50, 60, 70, 80] = .ok ⟨3, [50, 60, 70, 80], none⟩ ∧
    determineAcceptRejectBatch [] (.lists fun _ => none) ([] : List Nat) 2 = .error (.sizeMismatch 2 0) := by
  constructor
  · intro k
    by_cases hview : ([20, 30] ++ [50, 60, 70, 80]).length = [0, 1].length * (k + 1)
    · exact ⟨.raggedDrafts 1 3, by rw [determineAcceptRejectBatch, if_neg (by simpa using hview)]; rfl⟩
    · exact ⟨_, by rw [determineAcceptRejectBatch, if_pos hview]⟩
  · exact ⟨rfl, rfl, rfl⟩

end MtpAccept
