import BlackweLLM.TextScan

/-!
# The last occurrence of a marker

What the last occurrence of a marker and the longest beginning of a marker that
ends the text become when the text grows by one element.
-/

namespace TextScan

open List

variable {α : Type} [DecidableEq α] {sub marker text : List α} {c : α} {i : Nat}

/-- The last index, from `n` down, at which the piece of the text is `sub`. -/
def findLastUpTo (sub text : List α) : Nat → Option Nat
  | 0 => if (text.drop 0).take sub.length = sub then some 0 else none
  | n + 1 => if (text.drop (n + 1)).take sub.length = sub then some (n + 1) else findLastUpTo sub text n

def findLast (sub text : List α) : Option Nat :=
  if sub.length = 0 ∨ text.length < sub.length then none
  else findLastUpTo sub text (text.length - sub.length)

omit [DecidableEq α] in
theorem take_eq_iff_occursAt : (text.drop i).take sub.length = sub ↔ OccursAt sub text i :=
  (prefix_iff_eq_take.trans eq_comm).symm

theorem findLastUpTo_eq_some_iff {n : Nat} : findLastUpTo sub text n = some i ↔
    i ≤ n ∧ OccursAt sub text i ∧ ∀ j ≤ n, OccursAt sub text j → j ≤ i := by
  induction n with
  | zero =>
    rw [findLastUpTo]
    simp only [take_eq_iff_occursAt]
    split
    · rename_i h
      rw [Option.some.injEq]
      constructor
      · rintro rfl
        exact ⟨le_refl _, h, fun j hj _ => hj⟩
      · rintro ⟨hi, -, -⟩
        exact (Nat.le_zero.mp hi).symm
    · rename_i h
      constructor
      · intro hnone
        cases hnone
      · rintro ⟨hi, hocc, -⟩
        rw [Nat.le_zero.mp hi] at hocc
        exact absurd hocc h
  | succ n ih =>
    rw [findLastUpTo]
    simp only [take_eq_iff_occursAt]
    split
    · rename_i h
      rw [Option.some.injEq]
      constructor
      · rintro rfl
        exact ⟨le_refl _, h, fun j hj _ => hj⟩
      · rintro ⟨hi, -, hmax⟩
        exact le_antisymm (hmax _ (le_refl _) h) hi
    · rename_i h
      rw [ih]
      constructor
      · rintro ⟨hi, hocc, hmax⟩
        refine ⟨Nat.le_succ_of_le hi, hocc, fun j hj hj' => ?_⟩
        have hne : j ≠ n + 1 := fun heq => h (heq ▸ hj')
        exact hmax j (by omega) hj'
      · rintro ⟨hi, hocc, hmax⟩
        have hne : i ≠ n + 1 := fun heq => h (heq ▸ hocc)
        exact ⟨by omega, hocc, fun j hj => hmax j (Nat.le_succ_of_le hj)⟩

theorem findLast_eq_some_iff (hs : sub ≠ []) : findLast sub text = some i ↔
    OccursAt sub text i ∧ ∀ j, OccursAt sub text j → j ≤ i := by
  have hpos : sub.length ≠ 0 := fun h => hs (length_eq_zero_iff.mp h)
  rw [findLast]
  split
  · rename_i hshort
    constructor
    · intro hnone
      cases hnone
    · rintro ⟨hocc, -⟩
      have := hocc.end_le hs
      omega
  · rename_i hlong
    rw [findLastUpTo_eq_some_iff]
    constructor
    · rintro ⟨-, hocc, hmax⟩
      refine ⟨hocc, fun j hj => hmax j ?_ hj⟩
      have := hj.end_le hs
      omega
    · rintro ⟨hocc, hmax⟩
      have := hocc.end_le hs
      exact ⟨by omega, hocc, fun j _ => hmax j⟩

theorem exists_findLast (hs : sub ≠ []) (h : OccursAt sub text i) : ∃ j, findLast sub text = some j ∧ i ≤ j := by
  have hpos : sub.length ≠ 0 := fun h => hs (length_eq_zero_iff.mp h)
  have hend := h.end_le hs
  obtain ⟨j, hj, hmax⟩ : ∃ j, OccursAt sub text j ∧ ∀ k, OccursAt sub text k → k ≤ j := by
    classical
    have hbound : ∀ k, OccursAt sub text k → k ≤ text.length := fun k hk => by
      have := hk.end_le hs
      omega
    exact ⟨Nat.findGreatest (OccursAt sub text) text.length, Nat.findGreatest_spec (hbound i h) h,
      fun k hk => Nat.le_findGreatest (hbound k hk) hk⟩
  exact ⟨j, (findLast_eq_some_iff hs).mpr ⟨hj, hmax⟩, hmax i h⟩

theorem findLast_eq_none_iff (hs : sub ≠ []) : findLast sub text = none ↔ ∀ j, ¬OccursAt sub text j := by
  constructor
  · intro hnone j hj
    obtain ⟨k, hk, -⟩ := exists_findLast hs hj
    rw [hnone] at hk
    cases hk
  · intro h
    cases hfind : findLast sub text with
    | none => rfl
    | some j => exact absurd ((findLast_eq_some_iff hs).mp hfind).1 (h j)

omit [DecidableEq α] in
/-- An occurrence in a text that grew by one element ends at the new element or is an old one. -/
theorem occursAt_concat (hs : sub ≠ []) : OccursAt sub (text ++ [c]) i ↔
    OccursAt sub text i ∨ (sub <:+ text ++ [c] ∧ i + sub.length = text.length + 1) := by
  have hpos := length_pos_iff.mpr hs
  constructor
  · intro h
    have hend := h.end_le hs
    rw [length_append, length_singleton] at hend
    by_cases hlast : i + sub.length = text.length + 1
    · refine .inr ⟨?_, hlast⟩
      have hlen : (List.drop i (text ++ [c])).length ≤ sub.length := by
        rw [length_drop, length_append, length_singleton]
        omega
      rw [h.eq_of_length_le hlen]
      exact drop_suffix _ _
    · exact .inl (h.of_append (by omega))
  · rintro (h | ⟨hsuffix, hend⟩)
    · have := h.end_le hs
      exact h.append (by omega) _
    · obtain ⟨front, hfront⟩ := hsuffix
      have hlen := congrArg List.length hfront
      rw [length_append, length_append, length_singleton] at hlen
      rw [OccursAt, ← hfront, drop_left' (by omega)]

theorem findLast_concat (hs : sub ≠ []) (h : ¬sub <:+ text ++ [c]) :
    findLast sub (text ++ [c]) = findLast sub text := by
  have hsame : ∀ j, OccursAt sub (text ++ [c]) j ↔ OccursAt sub text j := fun j => by
    rw [occursAt_concat hs]
    exact ⟨fun hj => hj.resolve_right fun hnew => h hnew.1, .inl⟩
  cases hfind : findLast sub text with
  | none =>
    rw [findLast_eq_none_iff hs] at *
    exact fun j hj => hfind j ((hsame j).mp hj)
  | some i =>
    rw [findLast_eq_some_iff hs] at *
    exact ⟨(hsame i).mpr hfind.1, fun j hj => hfind.2 j ((hsame j).mp hj)⟩

theorem findLast_concat_of_suffix (hs : sub ≠ []) (h : sub <:+ text ++ [c]) :
    findLast sub (text ++ [c]) = some (text.length + 1 - sub.length) := by
  have hlen := h.length_le
  rw [length_append, length_singleton] at hlen
  rw [findLast_eq_some_iff hs]
  refine ⟨(occursAt_concat hs).mpr (.inr ⟨h, by omega⟩), fun j hj => ?_⟩
  have hend := hj.end_le hs
  rw [length_append, length_singleton] at hend
  omega

section Overlap

omit [DecidableEq α] in
theorem take_succ_suffix_concat {n : Nat} (hc : marker[n]? = some c) :
    marker.take (n + 1) <:+ text ++ [c] ↔ marker.take n <:+ text := by
  rw [take_add_one, hc, Option.toList_some]
  constructor
  · rintro ⟨front, hfront⟩
    rw [← append_assoc] at hfront
    exact ⟨front, append_cancel_right hfront⟩
  · rintro ⟨front, hfront⟩
    exact ⟨front, by rw [← append_assoc, hfront]⟩

omit [DecidableEq α] in
theorem getElem?_of_take_suffix {n : Nat} (hn : n < marker.length) (h : marker.take (n + 1) <:+ text ++ [c]) :
    marker[n]? = some c := by
  rw [take_add_one, getElem?_eq_getElem hn, Option.toList_some] at h
  obtain ⟨front, hfront⟩ := h
  rw [← append_assoc] at hfront
  rw [getElem?_eq_getElem hn, (append_inj' hfront rfl).2 |> singleton_inj.mp]

/-- The element that goes on with the overlap makes it longer by one. -/
theorem overlap_concat (hlt : overlap marker text + 1 < marker.length)
    (hc : marker[overlap marker text]? = some c) : overlap marker (text ++ [c]) = overlap marker text + 1 := by
  apply le_antisymm
  · cases hnew : overlap marker (text ++ [c]) with
    | zero => exact Nat.zero_le _
    | succ n =>
      have hm : marker ≠ [] := ne_nil_of_length_pos (by omega)
      have hn : n + 1 < marker.length := hnew ▸ overlap_lt hm (text ++ [c])
      have hsuffix := overlap_suffix marker (text ++ [c])
      rw [hnew] at hsuffix
      have hold := (take_succ_suffix_concat (getElem?_of_take_suffix (by omega) hsuffix)).mp hsuffix
      exact Nat.succ_le_succ (le_overlap (by omega) hold)
  · exact le_overlap hlt ((take_succ_suffix_concat hc).mpr (overlap_suffix marker text))

/-- A marker is completed only from its longest overlap. -/
theorem suffix_concat_iff (hm : marker ≠ []) :
    marker <:+ text ++ [c] ↔ overlap marker text + 1 = marker.length ∧ marker[overlap marker text]? = some c := by
  obtain ⟨n, hn⟩ := Nat.exists_eq_succ_of_ne_zero (ne_of_gt (length_pos_iff.mpr hm))
  have hwhole : marker.take (n + 1) = marker := take_of_length_le (by omega)
  have hlt := overlap_lt hm text
  constructor
  · intro h
    rw [← hwhole] at h
    have hc := getElem?_of_take_suffix (by omega) h
    have hle := le_overlap (by omega) ((take_succ_suffix_concat hc).mp h)
    have heq : overlap marker text = n := by omega
    rw [heq]
    exact ⟨by omega, hc⟩
  · rintro ⟨hlast, hc⟩
    have heq : overlap marker text = n := by omega
    rw [heq] at hc
    rw [← hwhole, take_succ_suffix_concat hc, ← heq]
    exact overlap_suffix marker text

end Overlap

end TextScan
