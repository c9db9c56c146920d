import BlackweLLM.TextScan

/-!
# Matching patterns in a text

A pattern starts with a fixed word, a lazy group in it ends at the first
occurrence of the tag behind it, and the matches in a text are found from the
left, each behind the one before.
-/

namespace PatternScan

open List TextScan

variable {α A B : Type}

section Tags

variable [DecidableEq α]

def strike (word text : List α) : Option (List α) :=
  if word <+: text then some (text.drop word.length) else none

@[simp] theorem strike_append (word rest : List α) : strike word (word ++ rest) = some rest := by
  simp [strike]

theorem strike_of_head_ne {c d : α} {word : List α} (hw : HeadedBy c word) (hd : d ≠ c) (rest : List α) :
    strike word (d :: rest) = none := by
  obtain ⟨cs, rfl, -⟩ := hw
  refine if_neg fun h => hd ?_
  exact (cons_prefix_cons.mp h).1.symm

/-- The text up to the first `tag`, and what stands behind it. -/
def cut (tag text : List α) : Option (List α × List α) :=
  (find tag text).map fun i => (text.take i, text.drop (i + tag.length))

section

variable {c : α} {tag body : List α} (ht : HeadedBy c tag) (h : ¬ tag <:+: body) (rest : List α)
include ht h

/-- A body without the tag is followed by its first occurrence. -/
theorem find_append_tag : find tag (body ++ (tag ++ rest)) = some body.length := by
  have hhere : OccursAt tag (body ++ (tag ++ rest)) body.length := by
    rw [← Nat.add_zero body.length, occursAt_append_right]
    exact prefix_append tag rest
  refine (find_eq_some_iff ht.ne_nil).mpr ⟨hhere, fun j hj hocc => h ?_⟩
  have hin := hocc.of_append (hocc.disjoint hhere ht ht hj)
  exact hin.isInfix.trans (drop_suffix j body).isInfix

/-- A body without the tag is cut off by the tag behind it. -/
theorem cut_append : cut tag (body ++ (tag ++ rest)) = some (body, rest) := by
  simp [cut, find_append_tag ht h, drop_append, Nat.add_comm]

end

end Tags

/-- Where the pattern `matchAt` first matches. -/
def search (matchAt : List α → Option (A × List α)) : List α → Option A
  | [] => none
  | c :: cs =>
    match matchAt (c :: cs) with
    | some (a, _) => some a
    | none => search matchAt cs

def findAllUpTo (matchAt : List α → Option (A × List α)) : Nat → List α → List A
  | 0, _ => []
  | _ + 1, [] => []
  | fuel + 1, c :: cs =>
    match matchAt (c :: cs) with
    | some (a, rest) => a :: findAllUpTo matchAt fuel rest
    | none => findAllUpTo matchAt fuel cs

/-- The matches of a pattern that takes at least one character. -/
def findAll (matchAt : List α → Option (A × List α)) (text : List α) : List A :=
  findAllUpTo matchAt text.length text

section Pieces

variable {matchAt : List α → Option (A × List α)} {gap : List α}

/-- No match starts in the gap. -/
theorem search_gap (hgap : ∀ c ∈ gap, ∀ rest, matchAt (c :: rest) = none) (rest : List α) :
    search matchAt (gap ++ rest) = search matchAt rest := by
  induction gap with
  | nil => rfl
  | cons c gap ih =>
    rw [cons_append, search, hgap c mem_cons_self]
    exact ih fun d hd => hgap d (mem_cons_of_mem c hd)

theorem search_match {text rest : List α} {a : A} (ht : text ≠ []) (h : matchAt text = some (a, rest)) :
    search matchAt text = some a := by
  cases text with
  | nil => exact absurd rfl ht
  | cons c cs => rw [search, h]

theorem findAllUpTo_gap (hgap : ∀ c ∈ gap, ∀ rest, matchAt (c :: rest) = none) (fuel : Nat) (rest : List α) :
    findAllUpTo matchAt (gap.length + fuel) (gap ++ rest) = findAllUpTo matchAt fuel rest := by
  induction gap with
  | nil => rw [length_nil, Nat.zero_add, nil_append]
  | cons c gap ih =>
    rw [length_cons, Nat.succ_add, cons_append, findAllUpTo, hgap c mem_cons_self]
    exact ih fun d hd => hgap d (mem_cons_of_mem c hd)

theorem findAllUpTo_match {text rest : List α} {a : A} (fuel : Nat) (ht : text ≠ [])
    (h : matchAt text = some (a, rest)) :
    findAllUpTo matchAt (fuel + 1) text = a :: findAllUpTo matchAt fuel rest := by
  cases text with
  | nil => exact absurd rfl ht
  | cons c cs => rw [findAllUpTo, h]

/-- Pieces that match one by one, with gaps between them, are found in order. -/
theorem findAllUpTo_pieces {render : B → List α} {value : B → A}
    (hgap : ∀ c ∈ gap, ∀ rest, matchAt (c :: rest) = none) (pieces : List B)
    (hpos : ∀ b ∈ pieces, render b ≠ [])
    (hmatch : ∀ b ∈ pieces, ∀ rest, matchAt (render b ++ rest) = some (value b, rest)) (fuel : Nat)
    (hfuel : (pieces.flatMap fun b => render b ++ gap).length ≤ fuel) :
    findAllUpTo matchAt fuel (pieces.flatMap fun b => render b ++ gap) = pieces.map value := by
  induction pieces generalizing fuel with
  | nil => cases fuel <;> rfl
  | cons b pieces ih =>
    have hb := hpos b mem_cons_self
    have hlen := length_pos_iff.mpr hb
    rw [flatMap_cons, append_assoc] at hfuel ⊢
    simp only [length_append] at hfuel
    obtain ⟨left, rfl⟩ : ∃ left, fuel = gap.length + left + 1 := ⟨fuel - gap.length - 1, by omega⟩
    rw [findAllUpTo_match _ (append_ne_nil_of_left_ne_nil hb _) (hmatch b mem_cons_self _),
      findAllUpTo_gap hgap, map_cons,
      ih (fun b' hb' => hpos b' (mem_cons_of_mem b hb')) (fun b' hb' => hmatch b' (mem_cons_of_mem b hb'))
        left (by omega)]

theorem findAll_gap (hgap : ∀ c ∈ gap, ∀ rest, matchAt (c :: rest) = none) (rest : List α) :
    findAll matchAt (gap ++ rest) = findAll matchAt rest := by
  rw [findAll, length_append, findAllUpTo_gap hgap, findAll]

theorem findAll_pieces {render : B → List α} {value : B → A}
    (hgap : ∀ c ∈ gap, ∀ rest, matchAt (c :: rest) = none) (pieces : List B)
    (hpos : ∀ b ∈ pieces, render b ≠ [])
    (hmatch : ∀ b ∈ pieces, ∀ rest, matchAt (render b ++ rest) = some (value b, rest)) :
    findAll matchAt (pieces.flatMap fun b => render b ++ gap) = pieces.map value :=
  findAllUpTo_pieces hgap pieces hpos hmatch _ (le_refl _)

end Pieces

end PatternScan
