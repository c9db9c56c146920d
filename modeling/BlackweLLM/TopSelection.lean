import Mathlib.Data.Finset.Card
import Mathlib.Data.List.Sort
import Mathlib.Data.List.ReduceOption
import Mathlib.Data.Prod.Lex
import Mathlib.Order.WithBot

/-!
# Selecting the best scores

A selector names the `k` largest of a row of scores, the largest first, and is free
among equal ones. What is selected from a masked row is determined by the scores below
the bound where they are distinct. Where equal scores go by their index, picking the
first and retiring it by a sentinel finds the ranking.
-/

namespace TopSelection

open List

variable {α : Type} [LinearOrder α]

/-- The `k` largest of the scores `0, .., n - 1`. -/
structure Selector (α : Type) [LinearOrder α] where
  pick : (n : Nat) → (Nat → WithBot α) → (k : Nat) → List Nat
  length_pick : ∀ {n : Nat} (score : Nat → WithBot α) {k : Nat}, k ≤ n → (pick n score k).length = k
  lt_of_mem : ∀ {n : Nat} {score : Nat → WithBot α} {k i : Nat}, i ∈ pick n score k → i < n
  nodup : ∀ (n : Nat) (score : Nat → WithBot α) (k : Nat), (pick n score k).Nodup
  descending : ∀ (n : Nat) (score : Nat → WithBot α) (k : Nat), (pick n score k).Pairwise fun i j => score j ≤ score i
  best : ∀ {n : Nat} {score : Nat → WithBot α} {k i j : Nat},
    i ∈ pick n score k → j < n → j ∉ pick n score k → score j ≤ score i

/-- The indices of a row, the largest score first; equal scores keep their order. -/
def sorted (n : Nat) (score : Nat → WithBot α) : List Nat :=
  (range n).mergeSort fun i j => decide (score j ≤ score i)

theorem pairwise_sorted (n : Nat) (score : Nat → WithBot α) :
    (sorted n score).Pairwise fun i j => score j ≤ score i := by
  have htrans : ∀ i j l : Nat, decide (score j ≤ score i) = true → decide (score l ≤ score j) = true →
      decide (score l ≤ score i) = true := by
    intro i j l hij hjl
    rw [decide_eq_true_eq] at *
    exact hjl.trans hij
  have htotal : ∀ i j : Nat, (decide (score j ≤ score i) || decide (score i ≤ score j)) = true := by
    intro i j
    simpa using le_total (score j) (score i)
  exact (pairwise_mergeSort htrans htotal (range n)).imp fun h => by simpa using h

theorem mem_sorted {n : Nat} {score : Nat → WithBot α} {i : Nat} : i ∈ sorted n score ↔ i < n := by simp [sorted]

def stable : Selector α where
  pick n score k := (sorted n score).take k
  length_pick score k hk := by simpa [sorted] using hk
  lt_of_mem h := mem_sorted.mp (mem_of_mem_take h)
  nodup n score k := ((mergeSort_perm _ _).nodup_iff.mpr nodup_range).sublist (take_sublist _ _)
  descending n score k := (pairwise_sorted n score).sublist (take_sublist _ _)
  best {n score k i j} hi hj hnot := by
    have hsorted := pairwise_sorted n score
    have hmem : j ∈ sorted n score := mem_sorted.mpr hj
    rw [← take_append_drop k (sorted n score)] at hsorted hmem
    exact (pairwise_append.mp hsorted).2.2 i hi j ((mem_append.mp hmem).resolve_left hnot)

def masked (bound : Nat) (score : Nat → α) (j : Nat) : WithBot α := if bound ≤ j then ⊥ else score j

omit [LinearOrder α] in
theorem masked_of_le {bound j : Nat} (score : Nat → α) (h : bound ≤ j) : masked bound score j = ⊥ := if_pos h

omit [LinearOrder α] in
theorem masked_of_lt {bound j : Nat} (score : Nat → α) (h : j < bound) : masked bound score j = score j :=
  if_neg (not_le.mpr h)

/-- All of `0, .., live - 1` where they are at most `k`, and the best `k` of them otherwise. -/
def Best (score : Nat → α) (live k : Nat) (S : Finset Nat) : Prop :=
  if live ≤ k then S = Finset.range live
  else S ⊆ Finset.range live ∧ S.card = k ∧ ∀ i ∈ S, ∀ j < live, j ∉ S → score j < score i

theorem Best.unique {score : Nat → α} {live k : Nat} {S T : Finset Nat} (hS : Best score live k S)
    (hT : Best score live k T) : S = T := by
  unfold Best at hS hT
  by_cases hle : live ≤ k
  · rw [if_pos hle] at hS hT
    rw [hS, hT]
  · rw [if_neg hle] at hS hT
    obtain ⟨hSlive, hScard, hSbest⟩ := hS
    obtain ⟨hTlive, hTcard, hTbest⟩ := hT
    by_contra hne
    have hST : ¬S ⊆ T := fun hsub => hne (Finset.eq_of_subset_of_card_le hsub (by omega))
    have hTS : ¬T ⊆ S := fun hsub => hne (Finset.eq_of_subset_of_card_le hsub (by omega)).symm
    obtain ⟨i, hi, hiT⟩ := Finset.not_subset.mp hST
    obtain ⟨j, hj, hjS⟩ := Finset.not_subset.mp hTS
    have hij := hSbest i hi j (Finset.mem_range.mp (hTlive hj)) hjS
    have hji := hTbest j hj i (Finset.mem_range.mp (hSlive hi)) hiT
    exact absurd hij (not_lt_of_gt hji)

/-- A larger selection of few live scores is still all of them. -/
theorem Best.mono {score : Nat → α} {live k k' : Nat} {S : Finset Nat} (h : Best score live k S) (hlive : live ≤ k)
    (hk : k ≤ k') : Best score live k' S := by
  unfold Best at h ⊢
  rw [if_pos hlive] at h
  rwa [if_pos (hlive.trans hk)]

section Masked

def below (bound : Nat) (picked : List Nat) : Finset Nat := (picked.filter (· < bound)).toFinset

theorem mem_below {bound : Nat} {picked : List Nat} {i : Nat} : i ∈ below bound picked ↔ i ∈ picked ∧ i < bound := by
  simp [below]

variable (t : Selector α) {n bound k : Nat} {score : Nat → α} {row : Nat → WithBot α}
  (hrow : ∀ j < n, row j = masked bound score j)

include hrow

/-- A score below the bound is left out only for scores that are no worse. -/
theorem lt_of_left_out {i j : Nat} (hbound : bound ≤ n) (hi : i ∈ t.pick n row k) (hj : j < bound)
    (hnot : j ∉ t.pick n row k) : i < bound := by
  by_contra hge
  have hle := t.best hi (lt_of_lt_of_le hj hbound) hnot
  rw [hrow i (t.lt_of_mem hi), hrow j (lt_of_lt_of_le hj hbound), masked_of_le score (not_lt.mp hge),
    masked_of_lt score hj] at hle
  exact WithBot.not_coe_le_bot _ hle

/-- What is selected from a masked row. -/
theorem best_below (hbound : bound ≤ n) (hk : k ≤ n)
    (hinj : ∀ i < bound, ∀ j < bound, score i = score j → i = j) :
    Best score bound k (below bound (t.pick n row k)) := by
  have hlen := t.length_pick row hk
  have hnodup := t.nodup n row k
  unfold Best
  by_cases hle : bound ≤ k
  · rw [if_pos hle]
    ext j
    rw [mem_below, Finset.mem_range]
    refine ⟨fun h => h.2, fun hj => ⟨?_, hj⟩⟩
    by_contra hnot
    -- then all `k` picks lie below the bound and miss `j`
    have hsub : (t.pick n row k).toFinset ⊆ (Finset.range bound).erase j := by
      intro i hi
      have hpick := mem_toFinset.mp hi
      have hlt := lt_of_left_out t hrow hbound hpick hj hnot
      exact Finset.mem_erase.mpr ⟨fun heq => hnot (heq ▸ hpick), Finset.mem_range.mpr hlt⟩
    have hcard := Finset.card_le_card hsub
    rw [toFinset_card_of_nodup hnodup, hlen, Finset.card_erase_of_mem (Finset.mem_range.mpr hj),
      Finset.card_range] at hcard
    omega
  · rw [if_neg hle]
    have hall : ∀ i ∈ t.pick n row k, i < bound := by
      intro i hi
      by_contra hge
      have hcovers : Finset.range bound ⊆ (t.pick n row k).toFinset := by
        intro j hj
        by_contra hnot
        exact hge (lt_of_left_out t hrow hbound hi (Finset.mem_range.mp hj) fun hmem => hnot (mem_toFinset.mpr hmem))
      have hcard := Finset.card_le_card hcovers
      rw [toFinset_card_of_nodup hnodup, hlen, Finset.card_range] at hcard
      exact hle hcard
    have hbelow : below bound (t.pick n row k) = (t.pick n row k).toFinset := by
      ext i
      rw [mem_below, mem_toFinset]
      exact ⟨fun h => h.1, fun h => ⟨h, hall i h⟩⟩
    rw [hbelow]
    refine ⟨fun i hi => Finset.mem_range.mpr (hall i (mem_toFinset.mp hi)), ?_, ?_⟩
    · rw [toFinset_card_of_nodup hnodup, hlen]
    · intro i hi j hj hnot
      have hpick := mem_toFinset.mp hi
      have hmiss : j ∉ t.pick n row k := fun hmem => hnot (mem_toFinset.mpr hmem)
      have hge := t.best hpick (lt_of_lt_of_le hj hbound) hmiss
      rw [hrow i (t.lt_of_mem hpick), hrow j (lt_of_lt_of_le hj hbound), masked_of_lt score hj,
        masked_of_lt score (hall i hpick), WithBot.coe_le_coe] at hge
      refine lt_of_le_of_ne hge fun heq => hmiss ?_
      rw [hinj j hj i (hall i hpick) heq]
      exact hpick

theorem pairwise_pick (k : Nat) : (t.pick n row k).Pairwise fun i j => bound ≤ i → bound ≤ j := by
  refine (t.descending n row k).imp_of_mem fun {i j} hi hj h hge => ?_
  by_contra hlt
  rw [hrow i (t.lt_of_mem hi), hrow j (t.lt_of_mem hj), masked_of_le score hge,
    masked_of_lt score (not_le.mp hlt)] at h
  exact WithBot.not_coe_le_bot _ h

end Masked

section Ranking

/-- A larger score comes first, and the lower index among equal ones. -/
def rankKey (v : Nat → α) (i : Nat) : αᵒᵈ ×ₗ Nat := toLex (OrderDual.toDual (v i), i)

def ranking (v : Nat → α) (n : Nat) : List Nat := (range n).mergeSort fun i j => decide (rankKey v i ≤ rankKey v j)

variable {v : Nat → α} {n k i j x : Nat}

theorem rankKey_lt : rankKey v i < rankKey v j ↔ v j < v i ∨ v i = v j ∧ i < j := by
  simp [rankKey, Prod.Lex.toLex_lt_toLex]

theorem rankKey_le (h : rankKey v i ≤ rankKey v j) : v j ≤ v i := by
  rcases h.lt_or_eq with hlt | heq
  · rcases rankKey_lt.mp hlt with hgt | ⟨hsame, -⟩
    · exact hgt.le
    · exact hsame.ge
  · exact (congrArg (fun key => OrderDual.ofDual (ofLex key).1) heq).ge

omit [LinearOrder α] in
theorem rankKey_inj (h : rankKey v i = rankKey v j) : i = j := congrArg (fun key => (ofLex key).2) h

theorem mem_ranking : i ∈ ranking v n ↔ i < n := by simp [ranking]

theorem length_ranking : (ranking v n).length = n := by simp [ranking]

theorem nodup_ranking : (ranking v n).Nodup := (mergeSort_perm _ _).nodup_iff.mpr nodup_range

theorem pairwise_ranking : (ranking v n).Pairwise fun i j => rankKey v i < rankKey v j := by
  have hle : (ranking v n).Pairwise fun i j => decide (rankKey v i ≤ rankKey v j) = true :=
    pairwise_mergeSort (fun i j l hij hjl => by
      rw [decide_eq_true_eq] at *
      exact hij.trans hjl) (fun i j => by simpa using le_total (rankKey v i) (rankKey v j)) _
  refine hle.imp₂ (fun i j h hne => ?_) nodup_ranking
  exact lt_of_le_of_ne (of_decide_eq_true h) fun heq => hne (rankKey_inj heq)

theorem ranking_take_succ (hx : x < n) (hnew : x ∉ (ranking v n).take k)
    (hbest : ∀ j < n, j ∉ (ranking v n).take k → rankKey v x ≤ rankKey v j) :
    (ranking v n).take (k + 1) = (ranking v n).take k ++ [x] := by
  have hpairwise := pairwise_ranking (v := v) (n := n)
  have hmem : x ∈ ranking v n := mem_ranking.mpr hx
  rw [← take_append_drop k (ranking v n)] at hmem hpairwise
  have hrest := (mem_append.mp hmem).resolve_left hnew
  cases hdrop : (ranking v n).drop k with
  | nil =>
    rw [hdrop] at hrest
    cases hrest
  | cons y rest =>
    rw [hdrop] at hrest hpairwise
    have hy : y < n := mem_ranking.mp (mem_of_mem_drop (hdrop ▸ mem_cons_self))
    have hynew : y ∉ (ranking v n).take k := fun hin =>
      lt_irrefl _ ((pairwise_append.mp hpairwise).2.2 y hin y mem_cons_self)
    have hxy : x = y := by
      refine (mem_cons.mp hrest).resolve_right fun hlater => ?_
      have hlt := (pairwise_cons.mp (pairwise_append.mp hpairwise).2.1).1 x hlater
      exact absurd (hbest y hy hynew) (not_le.mpr hlt)
    rw [hxy, take_add, hdrop]
    rfl

/-- Picks are retired by a score that nothing else is as low as. -/
def retired (v : Nat → α) (sentinel : α) (done : List Nat) (i : Nat) : α := if i ∈ done then sentinel else v i

omit [LinearOrder α] in
@[simp] theorem retired_nil (v : Nat → α) (sentinel : α) : retired v sentinel [] = v := by
  funext i
  simp [retired]

omit [LinearOrder α] in
theorem update_retired (v : Nat → α) (sentinel : α) (done : List Nat) (x : Nat) :
    Function.update (retired v sentinel done) x sentinel = retired v sentinel (done ++ [x]) := by
  funext i
  by_cases hi : i = x <;> simp [retired, hi]

theorem ranking_take_retired {sentinel : α} (hx : x < n)
    (hbest : ∀ j < n,
      rankKey (retired v sentinel ((ranking v n).take k)) x ≤ rankKey (retired v sentinel ((ranking v n).take k)) j)
    (hlive : ∃ j < n, j ∉ (ranking v n).take k ∧ sentinel < v j) :
    sentinel < v x ∧ retired v sentinel ((ranking v n).take k) x = v x ∧
      (ranking v n).take (k + 1) = (ranking v n).take k ++ [x] := by
  obtain ⟨j, hj, hjnew, habove⟩ := hlive
  have hle := rankKey_le (hbest j hj)
  rw [retired, if_neg hjnew, retired] at hle
  have hnew : x ∉ (ranking v n).take k := fun hin => absurd habove (not_lt.mpr (by rwa [if_pos hin] at hle))
  rw [if_neg hnew] at hle
  refine ⟨lt_of_lt_of_le habove hle, if_neg hnew, ranking_take_succ hx hnew fun l hl hlnew => ?_⟩
  simpa [rankKey, retired, hnew, hlnew] using hbest l hl

end Ranking

section Padding

def validLength (row : List (Option Nat)) : Nat := row.countP Option.isSome

/-- The valid entries come first, and the rest is padding. -/
structure LeadingValid (row : List (Option Nat)) : Prop where
  leading : row.take (validLength row) = row.reduceOption.map some
  padding : row.drop (validLength row) = replicate (row.length - validLength row) none

theorem reduceOption_map_some (ids : List Nat) : (ids.map some).reduceOption = ids := by
  simp [reduceOption, filterMap_map]

theorem leadingValid_append (ids : List Nat) (pad : Nat) :
    LeadingValid (ids.map some ++ replicate pad none) := by
  have hlength : validLength (ids.map some ++ replicate pad none) = ids.length := by
    simp [validLength, countP_append, countP_map, countP_replicate, Function.comp_def]
  constructor
  · rw [hlength, take_left' (by simp), reduceOption_append, reduceOption_replicate_none, append_nil,
      reduceOption_map_some]
  · rw [hlength, drop_left' (by simp)]
    simp

/-- Once an entry is out of bounds all later ones are. -/
theorem leadingValid_map {bound : Nat} {picked : List Nat} (h : picked.Pairwise fun i j => bound ≤ i → bound ≤ j)
    (f : Nat → Nat) : LeadingValid (picked.map fun j => if bound ≤ j then none else some (f j)) := by
  suffices hsplit : ∃ (ids : List Nat) (pad : Nat), (picked.map fun j => if bound ≤ j then none else some (f j)) =
      ids.map some ++ replicate pad none by
    obtain ⟨ids, pad, heq⟩ := hsplit
    rw [heq]
    exact leadingValid_append ids pad
  induction picked with
  | nil => exact ⟨[], 0, rfl⟩
  | cons i picked ih =>
    rw [pairwise_cons] at h
    by_cases hi : bound ≤ i
    · refine ⟨[], picked.length + 1, ?_⟩
      rw [map_nil, nil_append, eq_replicate_iff]
      refine ⟨by simp, fun o ho => ?_⟩
      obtain ⟨j, hj, rfl⟩ := mem_map.mp ho
      cases hj with
      | head => exact if_pos hi
      | tail _ hj => exact if_pos (h.1 j hj hi)
    · obtain ⟨ids, pad, heq⟩ := ih h.2
      exact ⟨f i :: ids, pad, by rw [map_cons, if_neg hi, heq]; rfl⟩

theorem leadingValid_pad {row : List (Option Nat)} (h : LeadingValid row) (pad : Nat) :
    LeadingValid (row ++ replicate pad none) := by
  have hrow : row = row.reduceOption.map some ++ replicate (row.length - validLength row) none := by
    rw [← h.leading, ← h.padding, take_append_drop]
  rw [hrow, append_assoc, replicate_append_replicate]
  exact leadingValid_append _ _

theorem reduceOption_map (bound : Nat) (picked : List Nat) (f : Nat → Nat) :
    (picked.map fun j => if bound ≤ j then none else some (f j)).reduceOption = (picked.filter (· < bound)).map f := by
  induction picked with
  | nil => rfl
  | cons i picked ih =>
    rw [map_cons]
    by_cases hi : bound ≤ i
    · rw [if_pos hi, reduceOption_cons_of_none, ih, filter_cons_of_neg (by simpa using hi)]
    · rw [if_neg hi, reduceOption_cons_of_some, ih, filter_cons_of_pos (by simpa using hi), map_cons]

end Padding

end TopSelection
