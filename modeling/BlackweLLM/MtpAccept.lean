import Mathlib.Data.List.Basic
import Mathlib.Tactic.Ring

/-!
# Greedy accept and reject

`runtime/mtp_accept.py`. The sequential rule walks the drafts; the batched rule
compares all positions at once and keeps the running conjunction. On one row of
predictions both give the same decision.
-/

namespace MtpAccept

open List

variable {Tok : Type} [DecidableEq Tok]

structure Decision (Tok : Type) where
  numAccepted : Nat
  committed : List Tok
  rejectedAt : Option Nat
  deriving DecidableEq, Repr

inductive AcceptError where
  | missingAnchor
  | shortPredictions (need got : Nat)
  deriving DecidableEq, Repr

def acceptFrom : Nat → List Tok → List Tok → Decision Tok
  | p, [], predicted => ⟨p, predicted.take 1, none⟩
  | p, _ :: _, [] => ⟨p, [], some p⟩
  | p, draft :: drafts, predicted :: rest =>
    if predicted = draft then
      let decision := acceptFrom (p + 1) drafts rest
      { decision with committed := draft :: decision.committed }
    else ⟨p, [predicted], some p⟩

def determineAcceptRejectFromPredictions (draftTokens predictedTokens : List Tok) :
    Except AcceptError (Decision Tok) :=
  match draftTokens with
  | [] => .error .missingAnchor
  | _ :: drafts =>
    if predictedTokens.length < drafts.length + 1 then
      .error (.shortPredictions (drafts.length + 1) predictedTokens.length)
    else .ok (acceptFrom 0 drafts predictedTokens)

def cumprod : List Bool → List Bool
  | [] => []
  | b :: bs => b :: (cumprod bs).map (b && ·)

/-- One request of `determine_accept_reject_batch`. Drafts on the device are read back from the
predictions they have matched. -/
def batchDecision (onDevice : Bool) (drafts predicted : List Tok) (k : Nat) : Decision Tok :=
  let draftNext := drafts.drop 1
  let isMatch := zipWith (fun a b => decide (a = b)) (predicted.take k) draftNext
  let numAccepted := (cumprod isMatch).count true
  let accepted := if onDevice then predicted.take numAccepted else draftNext.take numAccepted
  { numAccepted := numAccepted
    committed := accepted ++ (predicted.drop numAccepted).take 1
    rejectedAt := if numAccepted < k then some numAccepted else none }

def matched : List Tok → List Tok → Nat
  | draft :: drafts, predicted :: rest => if predicted = draft then matched drafts rest + 1 else 0
  | _, _ => 0

theorem matched_le (drafts predicted : List Tok) : matched drafts predicted ≤ drafts.length := by
  induction drafts generalizing predicted with
  | nil => simp [matched]
  | cons draft drafts ih =>
    cases predicted with
    | nil => simp [matched]
    | cons t rest =>
      simp only [matched, length_cons]
      split_ifs
      · exact Nat.succ_le_succ (ih rest)
      · exact Nat.zero_le _

/-- The matched drafts are the first predictions. -/
theorem take_matched (drafts predicted : List Tok) :
    drafts.take (matched drafts predicted) = predicted.take (matched drafts predicted) := by
  induction drafts generalizing predicted with
  | nil => simp [matched]
  | cons draft drafts ih =>
    cases predicted with
    | nil => simp [matched]
    | cons t rest =>
      simp only [matched]
      split_ifs with h
      · simp [h, ih]
      · rfl

theorem acceptFrom_eq (p : Nat) (drafts predicted : List Tok) (hlen : predicted.length = drafts.length + 1) :
    acceptFrom p drafts predicted =
      { numAccepted := p + matched drafts predicted
        committed := predicted.take (matched drafts predicted + 1)
        rejectedAt := if matched drafts predicted < drafts.length then some (p + matched drafts predicted)
          else none } := by
  induction drafts generalizing p predicted with
  | nil => simp [acceptFrom, matched]
  | cons draft drafts ih =>
    cases predicted with
    | nil => simp at hlen
    | cons t rest =>
      simp only [length_cons, Nat.add_right_cancel_iff] at hlen
      simp only [acceptFrom, matched, length_cons]
      split_ifs with h hlt hlt'
      · rw [ih _ _ hlen, if_pos (by omega)]
        simp only [h, take_succ_cons, Nat.add_assoc, Nat.add_comm 1]
      · rw [ih _ _ hlen, if_neg (by omega)]
        simp only [h, take_succ_cons, Nat.add_assoc, Nat.add_comm 1]
      · simp
      · omega

theorem count_cumprod (drafts predicted : List Tok) :
    (cumprod (zipWith (fun a b => decide (a = b)) predicted drafts)).count true =
      matched drafts predicted := by
  induction drafts generalizing predicted with
  | nil => simp [cumprod, matched]
  | cons draft drafts ih =>
    cases predicted with
    | nil => simp [cumprod, matched]
    | cons t rest =>
      by_cases h : t = draft
      · simp [cumprod, matched, h, ih]
      · simp [cumprod, matched, h, count_replicate]

theorem matched_take (drafts predicted : List Tok) {k : Nat} (hk : drafts.length ≤ k) :
    matched drafts (predicted.take k) = matched drafts predicted := by
  induction drafts generalizing predicted k with
  | nil => simp [matched]
  | cons draft drafts ih =>
    cases predicted with
    | nil => simp [matched]
    | cons t rest =>
      cases k with
      | zero => simp at hk
      | succ k =>
        simp only [take_succ_cons, matched]
        rw [ih rest (by simpa using hk)]

/-- The batched rule re-derives the sequential decision, wherever the drafts are held. -/
theorem batchDecision_eq (onDevice : Bool) (anchor : Tok) (drafts predicted : List Tok)
    (hlen : predicted.length = drafts.length + 1) :
    determineAcceptRejectFromPredictions (anchor :: drafts) predicted =
      .ok (batchDecision onDevice (anchor :: drafts) predicted drafts.length) := by
  have hnum : (cumprod (zipWith (fun a b => decide (a = b)) (predicted.take drafts.length)
      drafts)).count true = matched drafts predicted := by
    rw [count_cumprod, matched_take drafts predicted (Nat.le_refl _)]
  have hcommit : (if onDevice then predicted.take (matched drafts predicted)
      else drafts.take (matched drafts predicted)) = predicted.take (matched drafts predicted) := by
    split_ifs
    · rfl
    · exact take_matched drafts predicted
  simp only [determineAcceptRejectFromPredictions, hlen, Nat.lt_irrefl, if_false, batchDecision,
    drop_one, tail_cons, hnum, hcommit, acceptFrom_eq 0 drafts predicted hlen, Nat.zero_add]
  rw [← take_add]

end MtpAccept
