import Mathlib.Data.List.DropRight
import Mathlib.Data.List.Infix
import Mathlib.Data.Nat.Find

/-!
# Scanning a growing text

First occurrences of a pattern, the longest tail that could still grow into a
pattern, and the removal of surrounding characters. The text is a list over any
alphabet and only ever grows at its end, so the lemmas say what an extension
can and cannot change.
-/

namespace TextScan

open List

variable {α : Type}
variable {text' sub more tag marker : List α} {text : List α}

theorem take_isPrefix_take {m n : Nat} (h : text <+: text') (hm : m ≤ text.length)
    (hmn : m ≤ n) : text.take m <+: text'.take n := by
  obtain ⟨more, rfl⟩ := h
  have hsame : (text ++ more).take m = text.take m := take_append_of_le_length hm
  rw [← hsame]
  exact take_prefix_take_left hmn

def OccursAt (sub text : List α) (i : Nat) : Prop := sub <+: text.drop i

variable {i : Nat}

theorem OccursAt.append (h : OccursAt sub text i) (hi : i ≤ text.length)
    (more : List α) : OccursAt sub (text ++ more) i := by
  unfold OccursAt at h ⊢
  rw [drop_append_of_le_length hi]
  exact h.trans (prefix_append _ _)

theorem OccursAt.end_le (h : OccursAt sub text i) (hs : sub ≠ []) : i + sub.length ≤ text.length := by
  have hlen := h.length_le
  have hpos := length_pos_iff.mpr hs
  simp only [length_drop] at hlen
  omega

/-- An occurrence that ends inside a prefix of the text is an occurrence in that prefix. -/
theorem OccursAt.of_append (h : OccursAt sub (text ++ more) i)
    (hi : i + sub.length ≤ text.length) : OccursAt sub text i := by
  unfold OccursAt at h ⊢
  rw [drop_append_of_le_length (by omega)] at h
  exact prefix_of_prefix_length_le h (prefix_append _ _) (by simp; omega)

theorem occursAt_append_right : OccursAt sub (text ++ more) (text.length + i) ↔ OccursAt sub more i := by
  simp [OccursAt]

/-- Two texts with the same beginning show the same tags inside it. -/
theorem occursAt_congr {i n : Nat} (h : text.take n = text'.take n)
    (hi : i + sub.length ≤ n) : OccursAt sub text i ↔ OccursAt sub text' i := by
  have hcut : ∀ l : List α, OccursAt sub l i ↔ OccursAt sub (l.take n) i := by
    intro l
    unfold OccursAt
    rw [drop_take, prefix_take_iff]
    exact ⟨fun hl => ⟨hl, by omega⟩, fun hl => hl.1⟩
  rw [hcut text, hcut text', h]

/-- An occurrence that crosses the end of a prefix begins with the tail of that prefix. -/
theorem OccursAt.straddle (h : OccursAt sub (text ++ more) i)
    (hi : i ≤ text.length) (hend : text.length ≤ i + sub.length) :
    sub.take (text.length - i) <:+ text := by
  unfold OccursAt at h
  rw [drop_append_of_le_length hi] at h
  have hd : text.drop i = sub.take (text.length - i) := by
    have hp : text.drop i <+: sub := by
      refine prefix_of_prefix_length_le (prefix_append _ _) h ?_
      simp only [length_drop]
      omega
    have := prefix_iff_eq_take.mp hp
    simpa using this
  rw [← hd]
  exact drop_suffix _ _

/-- A tag is headed by `c` when `c` is its first character and occurs nowhere else in it. -/
def HeadedBy (c : α) (tag : List α) : Prop := ∃ cs, tag = c :: cs ∧ c ∉ cs

theorem HeadedBy.ne_nil {c : α} (h : HeadedBy c tag) : tag ≠ [] := by
  obtain ⟨cs, rfl, -⟩ := h
  simp

theorem HeadedBy.getElem?_eq {c : α} (h : HeadedBy c tag) : tag[i]? = some c ↔ i = 0 := by
  obtain ⟨cs, rfl, hc⟩ := h
  cases i with
  | zero => simp
  | succ i =>
    refine ⟨fun hi => ?_, fun hi => by omega⟩
    rw [getElem?_cons_succ] at hi
    exact absurd (mem_of_getElem? hi) hc

theorem OccursAt.getElem? {i k : Nat} (h : OccursAt sub text i)
    (hk : k < sub.length) : text[i + k]? = sub[k]? := by
  obtain ⟨rest, hrest⟩ := h
  rw [← getElem?_drop, ← hrest, getElem?_append_left hk]

/-- Two headed tags cannot overlap: the later one starts after the earlier one has ended. -/
theorem OccursAt.disjoint {c : α} {tag' text : List α} {i j : Nat} (h : OccursAt tag text i)
    (h' : OccursAt tag' text j) (ht : HeadedBy c tag) (ht' : HeadedBy c tag') (hij : i < j) :
    i + tag.length ≤ j := by
  by_contra hlt
  have hhead : text[j]? = some c := by
    have h0 := h'.getElem? (length_pos_iff.mpr ht'.ne_nil)
    rw [ht'.getElem?_eq.mpr rfl] at h0
    simpa using h0
  have hbody : text[i + (j - i)]? = tag[j - i]? := h.getElem? (by omega)
  rw [show i + (j - i) = j by omega, hhead] at hbody
  have := ht.getElem?_eq.mp hbody.symm
  omega

section Strip

variable (space : α → Bool)

/-- Remove the characters satisfying `space` from both ends. -/
def strip (text : List α) : List α := (text.dropWhile space).rdropWhile space

/-- What `strip` removes on the left and on the right is white space. -/
theorem strip_decompose (text : List α) :
    ∃ pre post, text = pre ++ strip space text ++ post ∧ (∀ c ∈ pre, space c) ∧
      ∀ c ∈ post, space c := by
  refine ⟨text.takeWhile space, (text.dropWhile space).rtakeWhile space, ?_, ?_, ?_⟩
  · rw [strip, append_assoc, rdropWhile_append_rtakeWhile, takeWhile_append_dropWhile]
  · exact fun c hc => mem_takeWhile_imp hc
  · exact fun c hc => mem_rtakeWhile_imp hc

theorem countP_strip {q : α → Bool} (hq : ∀ c, q c → space c = false) (text : List α) :
    (strip space text).countP q = text.countP q := by
  obtain ⟨pre, post, hsplit, hpre, hpost⟩ := strip_decompose space text
  have hzero : ∀ l : List α, (∀ c ∈ l, space c) → l.countP q = 0 := by
    intro l hl
    refine countP_eq_zero.mpr fun c hc hqc => ?_
    exact absurd (hl c hc) (by simp [hq c hqc])
  conv_rhs => rw [hsplit]
  simp [hzero pre hpre, hzero post hpost]

theorem strip_append_of_space {text tail : List α} (h : ∀ c ∈ tail, space c) :
    strip space (text ++ tail) = strip space text := by
  have hr : ∀ l : List α, (l ++ tail).rdropWhile space = l.rdropWhile space := by
    intro l
    unfold rdropWhile
    rw [reverse_append, dropWhile_append_of_pos (by simpa using h)]
  unfold strip
  rw [dropWhile_append]
  split_ifs with hall
  · have hnil : text.dropWhile space = [] := by simpa using hall
    rw [hnil, dropWhile_eq_nil_iff.mpr (by simpa using h)]
  · exact hr _

/-- A tail that disappears under `strip` is white space. -/
theorem space_of_strip_append_eq {text tail : List α}
    (h : strip space (text ++ tail) = strip space text) : ∀ c ∈ tail, space c := by
  have hcount := congrArg (countP fun c => !space c) h
  rw [countP_strip space (by simp), countP_strip space (by simp), countP_append] at hcount
  intro c hc
  by_contra hns
  have : 0 < tail.countP fun c => !space c := countP_pos_iff.mpr ⟨c, hc, by simpa using hns⟩
  omega

/-- Other characters than white space are not touched. -/
theorem filter_strip (text : List α) :
    (strip space text).filter (fun c => !space c) = text.filter fun c => !space c := by
  obtain ⟨pre, post, hsplit, hpre, hpost⟩ := strip_decompose space text
  have hnil : ∀ l : List α, (∀ c ∈ l, space c) → l.filter (fun c => !space c) = [] := by
    intro l hl
    exact filter_eq_nil_iff.mpr fun c hc => by simp [hl c hc]
  conv_rhs => rw [hsplit]
  simp [hnil pre hpre, hnil post hpost]

/-- A piece whose first and last characters are not white space survives `strip`. -/
theorem infix_strip {piece text : List α} (h : piece <:+: text)
    (hfirst : ∃ c cs, piece = c :: cs ∧ space c = false)
    (hlast : ∃ ds d, piece = ds ++ [d] ∧ space d = false) : piece <:+: strip space text := by
  obtain ⟨a, b, rfl⟩ := h
  obtain ⟨c, cs, hhead, hc⟩ := hfirst
  obtain ⟨ds, d, hlast, hd⟩ := hlast
  have hleft : ∃ a', (a ++ piece ++ b).dropWhile space = a' ++ piece ++ b := by
    rw [append_assoc, dropWhile_append]
    split_ifs with hall
    · refine ⟨[], ?_⟩
      rw [hhead, cons_append, dropWhile_cons_of_neg (by simp [hc]), nil_append,
        cons_append]
    · exact ⟨a.dropWhile space, by rw [append_assoc]⟩
  obtain ⟨a', ha'⟩ := hleft
  have hright : ∃ b', (a' ++ piece ++ b).rdropWhile space = a' ++ piece ++ b' := by
    unfold rdropWhile
    rw [reverse_append, dropWhile_append]
    split_ifs with hall
    · refine ⟨[], ?_⟩
      rw [hlast, reverse_append, reverse_append, reverse_singleton, singleton_append,
        cons_append, dropWhile_cons_of_neg (by simp [hd])]
      simp
    · exact ⟨(b.reverse.dropWhile space).reverse, by simp⟩
  obtain ⟨b', hb'⟩ := hright
  refine ⟨a', b', ?_⟩
  rw [strip, ha', hb']

end Strip

section CatchUp

/-- Append what `text` has beyond the length of what is already out. -/
def catchUp (out text : List α) : List α := out ++ text.drop out.length

theorem catchUp_of_length_le {out text : List α} (h : text.length ≤ out.length) :
    catchUp out text = out := by
  rw [catchUp, drop_eq_nil_of_le h, append_nil]

theorem catchUp_of_isPrefix {out text : List α} (h : out <+: text) : catchUp out text = text := by
  obtain ⟨more, rfl⟩ := h
  simp [catchUp]

theorem length_catchUp (out text : List α) : (catchUp out text).length = max out.length text.length := by
  simp only [catchUp, length_append, length_drop]
  omega

/-- Two beginnings of one text catch up to a beginning of it. -/
theorem catchUp_isPrefix {out text whole : List α} (ho : out <+: whole) (ht : text <+: whole) :
    catchUp out text <+: whole := by
  rcases prefix_or_prefix_of_prefix ho ht with h | h
  · rwa [catchUp_of_isPrefix h]
  · rwa [catchUp_of_length_le h.length_le]

/-- Catching up with a text and then with a longer version of it is catching up with the latter. -/
theorem catchUp_catchUp {out text text' : List α} (h : text <+: text') :
    catchUp (catchUp out text) text' = catchUp out text' := by
  obtain ⟨more, rfl⟩ := h
  rcases le_total text.length out.length with hle | hle
  · rw [catchUp_of_length_le hle]
  · have hlen : (catchUp out text).length = text.length := by rw [length_catchUp, max_eq_right hle]
    rw [catchUp, hlen, drop_left, catchUp, catchUp, append_assoc,
      drop_append_of_le_length hle]

end CatchUp

variable [DecidableEq α]

instance (sub text : List α) (i : Nat) : Decidable (OccursAt sub text i) :=
  inferInstanceAs (Decidable (sub <+: text.drop i))

/-- Offset of the first occurrence of `sub`. -/
def find (sub : List α) : List α → Option Nat
  | [] => if sub <+: [] then some 0 else none
  | c :: cs => if sub <+: c :: cs then some 0 else (find sub cs).map Nat.succ

section

variable {text : List α} (hs : sub ≠ [])
include hs

theorem find_eq_some_iff : find sub text = some i ↔ OccursAt sub text i ∧ ∀ j < i, ¬ OccursAt sub text j := by
  induction text generalizing i with
  | nil => simp [find, OccursAt, hs]
  | cons c cs ih =>
    unfold find
    split_ifs with h
    · constructor
      · intro hi
        cases hi
        exact ⟨h, by simp⟩
      · rintro ⟨-, hmin⟩
        cases i with
        | zero => rfl
        | succ i => exact absurd h (hmin 0 (by omega))
    · cases i with
      | zero => simp [OccursAt, h]
      | succ i =>
        simp only [Option.map_eq_some_iff, Nat.succ_eq_add_one, Nat.add_right_cancel_iff,
          exists_eq_right, ih]
        refine and_congr Iff.rfl ⟨fun hmin j hj => ?_, fun hmin j hj => hmin (j + 1) (by omega)⟩
        cases j with
        | zero => exact h
        | succ j => exact hmin j (by omega)

theorem find_eq_none_iff : find sub text = none ↔ ∀ i, ¬ OccursAt sub text i := by
  constructor
  · intro h i hi
    have hfirst : ∃ i, OccursAt sub text i := ⟨i, hi⟩
    have hfind := (find_eq_some_iff hs).mpr
      ⟨Nat.find_spec hfirst, fun j hj => Nat.find_min hfirst hj⟩
    simp [h] at hfind
  · intro h
    cases hf : find sub text with
    | none => rfl
    | some i => exact absurd ((find_eq_some_iff hs).mp hf).1 (h i)

theorem find_end_le (h : find sub text = some i) : i + sub.length ≤ text.length :=
  ((find_eq_some_iff hs).mp h).1.end_le hs

theorem find_le_of_occursAt (h : OccursAt sub text i) : ∃ j ≤ i, find sub text = some j := by
  cases hf : find sub text with
  | none => exact absurd h ((find_eq_none_iff hs).mp hf i)
  | some j =>
    refine ⟨j, ?_, rfl⟩
    by_contra hlt
    exact ((find_eq_some_iff hs).mp hf).2 i (by omega) h

/-- Appending text never moves a first occurrence. -/
theorem find_append (h : find sub text = some i) (more : List α) : find sub (text ++ more) = some i := by
  obtain ⟨hocc, hmin⟩ := (find_eq_some_iff hs).mp h
  have hend := hocc.end_le hs
  refine (find_eq_some_iff hs).mpr ⟨hocc.append (by omega) more, fun j hj hj' => ?_⟩
  exact hmin j hj (hj'.of_append (by omega))

theorem find_mono (h : find sub text = some i) (hp : text <+: text') : find sub text' = some i := by
  obtain ⟨more, rfl⟩ := hp
  exact find_append hs h more

/-- A first occurrence that ends inside a prefix is the first occurrence in that prefix. -/
theorem find_of_append (h : find sub (text ++ more) = some i) (hi : i + sub.length ≤ text.length) :
    find sub text = some i := by
  obtain ⟨hocc, hmin⟩ := (find_eq_some_iff hs).mp h
  refine (find_eq_some_iff hs).mpr ⟨hocc.of_append hi, fun j hj hj' => hmin j hj ?_⟩
  have := hj'.end_le hs
  exact hj'.append (by omega) more

end

/-- Largest `n' ≤ n` such that the text ends with the first `n'` characters of `marker`. -/
def overlapUpTo (marker text : List α) : Nat → Nat
  | 0 => 0
  | n + 1 => if marker.take (n + 1) <:+ text then n + 1 else overlapUpTo marker text n

/-- Length of the longest non-empty strict prefix of `marker` that ends the text, or `0`. -/
def overlap (marker text : List α) : Nat :=
  overlapUpTo marker text (min (marker.length - 1) text.length)

theorem overlapUpTo_le (marker text : List α) (n : Nat) : overlapUpTo marker text n ≤ n := by
  induction n with
  | zero => simp [overlapUpTo]
  | succ n ih =>
    unfold overlapUpTo
    split_ifs <;> omega

theorem overlapUpTo_suffix (marker text : List α) (n : Nat) :
    marker.take (overlapUpTo marker text n) <:+ text := by
  induction n with
  | zero => simp [overlapUpTo]
  | succ n ih =>
    unfold overlapUpTo
    split_ifs with h
    · exact h
    · exact ih

theorem le_overlapUpTo {n p : Nat} (hp : p ≤ n)
    (h : marker.take p <:+ text) : p ≤ overlapUpTo marker text n := by
  induction n with
  | zero => omega
  | succ n ih =>
    unfold overlapUpTo
    split_ifs with hn
    · exact hp
    · rcases lt_or_eq_of_le hp with hlt | rfl
      · exact ih (by omega)
      · exact absurd h hn

theorem overlap_le_length (marker text : List α) : overlap marker text ≤ text.length :=
  (overlapUpTo_le _ _ _).trans (min_le_right _ _)

theorem overlap_lt (hm : marker ≠ []) (text : List α) :
    overlap marker text < marker.length := by
  have := (overlapUpTo_le marker text (min (marker.length - 1) text.length)).trans (min_le_left _ _)
  have hpos := length_pos_iff.mpr hm
  unfold overlap
  omega

theorem overlap_suffix (marker text : List α) : marker.take (overlap marker text) <:+ text :=
  overlapUpTo_suffix _ _ _

theorem le_overlap {p : Nat} (hp : p < marker.length)
    (h : marker.take p <:+ text) : p ≤ overlap marker text := by
  refine le_overlapUpTo ?_ h
  have := h.length_le
  simp only [length_take] at this
  omega

theorem overlap_eq_zero_iff (hm : marker ≠ []) :
    overlap marker text = 0 ↔ ∀ p, 0 < p → p < marker.length → ¬ marker.take p <:+ text := by
  constructor
  · intro h p hp hlt hs
    have := le_overlap hlt hs
    omega
  · intro h
    by_contra hne
    exact h _ (by omega) (overlap_lt hm text) (overlap_suffix marker text)

/-- The held-back tail is literally the beginning of the marker. -/
theorem drop_overlap (marker text : List α) :
    text.drop (text.length - overlap marker text) = marker.take (overlap marker text) := by
  have hle := overlap_le_length marker text
  obtain ⟨pre, hpre⟩ := overlap_suffix marker text
  by_cases hm : marker = []
  · subst hm
    have : overlap ([] : List α) text = 0 := by simp [overlap, overlapUpTo]
    simp [this]
  · have hlt := overlap_lt hm text
    have hlen : (marker.take (overlap marker text)).length = overlap marker text := by
      rw [length_take]; omega
    have htotal := congrArg List.length hpre
    simp only [length_append, hlen] at htotal
    calc text.drop (text.length - overlap marker text)
        = (pre ++ marker.take (overlap marker text)).drop pre.length := by
          rw [hpre]; congr 1; omega
      _ = marker.take (overlap marker text) := by simp

/-- A first occurrence that appears by appending starts inside the overlap of the old text. -/
theorem length_sub_overlap_le (h : OccursAt sub (text ++ more) i) (hnew : text.length < i + sub.length) :
    text.length - overlap sub text ≤ i := by
  by_cases hi : i ≤ text.length
  · rcases Nat.eq_zero_or_pos i with rfl | hpos
    · have : text.length - 0 ≤ overlap sub text :=
        le_overlap (by omega) (h.straddle (by omega) (by omega))
      omega
    · have := le_overlap (by omega) (h.straddle hi (by omega))
      omega
  · omega

/-- When no tail of `text` could grow into `sub` and `sub` is not yet there, appended text is
searched as if it stood alone. -/
theorem find_append_of_clean (hs : sub ≠ []) (h₀ : overlap sub text = 0)
    (h : find sub text = none) (more : List α) :
    find sub (text ++ more) = (find sub more).map (text.length + ·) := by
  have hlow : ∀ i, OccursAt sub (text ++ more) i → text.length ≤ i := by
    intro i hi
    by_contra hlt
    by_cases hend : i + sub.length ≤ text.length
    · exact (find_eq_none_iff hs).mp h i (hi.of_append hend)
    · have := length_sub_overlap_le hi (by omega)
      omega
  cases hm : find sub more with
  | none =>
    refine (find_eq_none_iff hs).mpr fun i hi => ?_
    have hle := hlow i hi
    rw [show i = text.length + (i - text.length) by omega, occursAt_append_right] at hi
    exact (find_eq_none_iff hs).mp hm _ hi
  | some j =>
    obtain ⟨hocc, hmin⟩ := (find_eq_some_iff hs).mp hm
    refine (find_eq_some_iff hs).mpr ⟨occursAt_append_right.mpr hocc, fun i hi hi' => ?_⟩
    have hle := hlow i hi'
    simp only at hi
    rw [show i = text.length + (i - text.length) by omega, occursAt_append_right] at hi'
    exact hmin _ (by omega) hi'

theorem overlap_append_of_clean (hs : sub ≠ []) (h₀ : overlap sub text = 0)
    (more : List α) : overlap sub (text ++ more) = overlap sub more := by
  refine le_antisymm (le_overlap (overlap_lt hs _) ?_) (le_overlap (overlap_lt hs _) ?_)
  · have hsuf := overlap_suffix sub (text ++ more)
    refine suffix_of_suffix_length_le hsuf (suffix_append _ _) ?_
    by_contra hlong
    obtain ⟨pre, hpre⟩ := hsuf
    have hlt := overlap_lt hs (text ++ more)
    have hle := overlap_le_length sub (text ++ more)
    have hlen : (sub.take (overlap sub (text ++ more))).length = overlap sub (text ++ more) := by
      rw [length_take]; omega
    have htot := congrArg List.length hpre
    simp only [length_append, hlen] at htot hle
    have hocc : sub.take (overlap sub (text ++ more) - more.length) <:+ text := by
      refine ⟨pre, ?_⟩
      have htake := congrArg (take text.length) hpre
      rw [take_left, take_append, take_of_length_le (by omega), take_take,
        show min (text.length - pre.length) (overlap sub (text ++ more)) =
          overlap sub (text ++ more) - more.length by omega] at htake
      exact htake
    exact (overlap_eq_zero_iff hs).mp h₀ _ (by omega) (by omega) hocc
  · exact (overlap_suffix sub more).trans (suffix_append _ _)

/-- Drop the tail of the text that could still grow into `marker`. -/
def trimTail (marker text : List α) : List α := text.take (text.length - overlap marker text)

theorem trimTail_isPrefix (marker text : List α) : trimTail marker text <+: text := take_prefix _ _

@[simp] theorem length_trimTail (marker text : List α) :
    (trimTail marker text).length = text.length - overlap marker text := by
  simp [trimTail]

/-- A longer text never holds back what a shorter one released. -/
theorem trimTail_mono (hm : marker ≠ []) (h : text <+: text') :
    trimTail marker text <+: trimTail marker text' := by
  have hlt := overlap_lt hm text'
  have hle := overlap_le_length marker text'
  have hheld : text.length - overlap marker text ≤ text'.length - overlap marker text' := by
    by_contra hcon
    obtain ⟨more, rfl⟩ := h
    have hocc : OccursAt (marker.take (overlap marker (text ++ more))) (text ++ more)
        ((text ++ more).length - overlap marker (text ++ more)) := by
      rw [OccursAt, drop_overlap]
    have hlen : (marker.take (overlap marker (text ++ more))).length = overlap marker (text ++ more) := by
      rw [length_take]; omega
    have hsuf := hocc.straddle (by omega) (by rw [hlen, length_append] at *; omega)
    rw [take_take, min_eq_left (by rw [length_append] at *; omega)] at hsuf
    have := le_overlap (by rw [length_append] at *; omega) hsuf
    omega
  exact take_isPrefix_take h (Nat.sub_le _ _) hheld

/-- Cut the text before the first occurrence of `tag`. -/
def cutAt (tag text : List α) : List α :=
  match find tag text with
  | some i => text.take i
  | none => text

theorem cutAt_isPrefix (tag text : List α) : cutAt tag text <+: text := by
  unfold cutAt
  split
  · exact take_prefix _ _
  · exact prefix_rfl

theorem cutAt_of_find (h : find tag text = some i) : cutAt tag text = text.take i := by
  simp [cutAt, h]

theorem cutAt_of_not_find (h : find tag text = none) : cutAt tag text = text := by
  simp [cutAt, h]

section

variable {text : List α} (ht : tag ≠ [])
include ht

/-- What stands before the first occurrence is kept, and the cut is made in the rest. -/
theorem cutAt_of_clean {n : Nat}
    (h : ∀ i < n, ¬ OccursAt tag text i) : cutAt tag text = text.take n ++ cutAt tag (text.drop n) := by
  have hshift : ∀ i, OccursAt tag (text.drop n) i ↔ OccursAt tag text (n + i) := by
    intro i
    rw [OccursAt, OccursAt, drop_drop]
  cases hf : find tag (text.drop n) with
  | none =>
    have hnone : find tag text = none := by
      refine (find_eq_none_iff ht).mpr fun i hi => ?_
      by_cases hlt : i < n
      · exact h i hlt hi
      · refine (find_eq_none_iff ht).mp hf (i - n) ((hshift _).mpr ?_)
        rwa [Nat.add_sub_cancel' (by omega)]
    rw [cutAt_of_not_find hnone, cutAt_of_not_find hf, take_append_drop]
  | some j =>
    obtain ⟨hocc, hmin⟩ := (find_eq_some_iff ht).mp hf
    have hsome : find tag text = some (n + j) := by
      refine (find_eq_some_iff ht).mpr ⟨(hshift j).mp hocc, fun i hi hi' => ?_⟩
      by_cases hlt : i < n
      · exact h i hlt hi'
      · refine hmin (i - n) (by omega) ((hshift _).mpr ?_)
        rwa [Nat.add_sub_cancel' (by omega)]
    rw [cutAt_of_find hsome, cutAt_of_find hf, take_add]

/-- A cut text ends before every occurrence of the tag. -/
theorem length_cutAt_le (h : OccursAt tag text i) : (cutAt tag text).length ≤ i := by
  obtain ⟨j, hj, hf⟩ := find_le_of_occursAt ht h
  rw [cutAt_of_find hf, length_take]
  omega

/-- Nothing of the tag is left after the cut. -/
theorem not_occursAt_cutAt (i : Nat) : ¬ OccursAt tag (cutAt tag text) i := by
  intro hocc
  cases hf : find tag text with
  | none =>
    rw [cutAt_of_not_find hf] at hocc
    exact (find_eq_none_iff ht).mp hf i hocc
  | some j =>
    have hend := find_end_le ht hf
    rw [cutAt_of_find hf] at hocc
    have hle := hocc.end_le ht
    rw [length_take] at hle
    have hfull : OccursAt tag text i := by
      have := hocc.append (by simp only [length_take]; omega) (text.drop j)
      rwa [take_append_drop] at this
    have hpos := length_pos_iff.mpr ht
    exact ((find_eq_some_iff ht).mp hf).2 i (by omega) hfull

end

section Blocks

variable (openTag closeTag : List α) (space : α → Bool)

/-- Delete every block from an `openTag` to the next `closeTag` and the white space after it,
scanning left to right. Deleted text is not scanned again. -/
def removeBlocksUpTo : Nat → List α → List α
  | 0, text => text
  | fuel + 1, text =>
    match find openTag text with
    | none => text
    | some i =>
      match find closeTag (text.drop (i + openTag.length)) with
      | none => text
      | some j => text.take i ++ removeBlocksUpTo fuel
          ((text.drop (i + openTag.length + j + closeTag.length)).dropWhile space)

def removeBlocks (text : List α) : List α := removeBlocksUpTo openTag closeTag space text.length text

theorem removeBlocks_of_not_find (h : find openTag text = none) :
    removeBlocks openTag closeTag space text = text := by
  unfold removeBlocks
  cases text.length <;> simp [removeBlocksUpTo, h]

/-- The text before the first block is kept as it is. -/
theorem take_prefix_removeBlocks (h : find openTag text = some i) :
    text.take i <+: removeBlocks openTag closeTag space text := by
  unfold removeBlocks
  cases text.length with
  | zero => exact take_prefix _ _
  | succ fuel =>
    simp only [removeBlocksUpTo, h]
    split
    · exact take_prefix _ _
    · exact prefix_append _ _

end Blocks

/-- The held-back tail of a headed tag starts where the overlap starts and has no other head. -/
theorem getElem?_overlap {c : α} (ht : HeadedBy c tag) (text : List α) {k : Nat}
    (hk : k < overlap tag text) :
    text[text.length - overlap tag text + k]? = some c ↔ k = 0 := by
  rw [← getElem?_drop, drop_overlap, getElem?_take_of_lt hk, ht.getElem?_eq]

end TextScan
