import BlackweLLM.FlashNextGather
import Mathlib.Data.List.Sort

/-!
# Gather lists of selected blocks

What `select_blocks` returns for a query, and that every form of the expansion makes the
same list of it.
-/

namespace FlashNext

open List PackedLanes

namespace TopK

variable {α : Type} [LinearOrder α] (T : TopK α)

theorem front {xs : List (WithBot α)} {ends k : ℕ} (hfinite : ∀ i < xs.length, xs.getD i ⊥ = ⊥ ↔ ends ≤ i)
    (hends : ends ≤ xs.length) {j : ℕ} (hj : j < (T.indices xs k).length) (hlt : j < ends) :
    (T.indices xs k)[j] < ends := by
  by_contra hge
  rw [not_lt] at hge
  have hmem := getElem_mem hj
  have hbot : xs.getD (T.indices xs k)[j] ⊥ = ⊥ := (hfinite _ (T.inside xs k _ hmem)).mpr hge
  have hall : range ends ⊆ (T.indices xs k).take j := by
    intro i hi
    have hi' := mem_range.mp hi
    have hsome : ¬xs.getD i ⊥ ≤ ⊥ := fun hle =>
      absurd ((hfinite i (hi'.trans_le hends)).mp (le_bot_iff.mp hle)) (not_le.mpr hi')
    by_cases hin : i ∈ T.indices xs k
    · obtain ⟨m, hm, rfl⟩ := getElem_of_mem hin
      rcases lt_trichotomy m j with hmj | rfl | hmj
      · exact mem_take_iff_getElem.mpr ⟨m, by omega, rfl⟩
      · omega
      · exact absurd ((pairwise_iff_getElem.mp (T.sorted xs k) j m hj hm hmj).trans_eq hbot) hsome
    · exact absurd ((T.best xs k _ hmem i (hi'.trans_le hends) hin).trans_eq hbot) hsome
  have hlen := (nodup_range.subperm hall).length_le
  rw [length_range, length_take] at hlen
  omega

end TopK

namespace BlockIndexer

variable {I : BlockIndexer} {α : Type} [LinearOrder α]
variable {complete position : ℕ}

theorem mask_selection {k : ℕ} {selected : List ℤ} (hlen : selected.length = k)
    (hnodup : (selected.take complete).Nodup)
    (hinside : ∀ block ∈ selected.take complete, 0 ≤ block ∧ block < complete) :
    Selection complete (selected.mapIdx fun rank block => if rank < min complete k then block else -1) := by
  have htake : (selected.mapIdx fun rank block => if rank < min complete k then block else -1).take complete =
      selected.take complete := by
    apply ext_getElem
    · simp
    · intro j hj _
      have hin : j < min complete k := by simpa [hlen] using hj
      rw [getElem_take, getElem_take, getElem_mapIdx, if_pos hin]
  refine ⟨by rwa [htake], by rwa [htake], fun block hblock => ?_⟩
  obtain ⟨j, hj, rfl⟩ := mem_drop_iff_getElem.mp hblock
  have hout : ¬complete + j < min complete k := by omega
  rw [getElem_mapIdx, if_neg hout]

omit [LinearOrder α] in
theorem scoreBlocks_bot (scores : List α) (complete : ℕ) :
    ∀ i < (scoreBlocks scores complete).length, (scoreBlocks scores complete).getD i ⊥ = ⊥ ↔ complete ≤ i := by
  intro i hi
  have hin : i < scores.length := by simpa [scoreBlocks] using hi
  simp [scoreBlocks, getElem?_eq_getElem hin]

theorem topk_selection (T : TopK α) {xs : List (WithBot α)} {k : ℕ} (hk : k ≤ xs.length)
    (hfinite : ∀ i < xs.length, xs.getD i ⊥ = ⊥ ↔ complete ≤ i) (hcomplete : complete ≤ xs.length) :
    Selection complete (((T.indices xs k).map Int.ofNat).mapIdx fun rank block =>
      if rank < min complete k then block else -1) := by
  refine mask_selection (by rw [length_map, T.length_eq xs k hk]) ?_ fun block hblock => ?_
  · rw [← map_take]
    exact ((T.nodup xs k).sublist (take_sublist _ _)).map Int.ofNat_injective
  · rw [← map_take] at hblock
    obtain ⟨i, hi, rfl⟩ := mem_map.mp hblock
    obtain ⟨j, hj, rfl⟩ := mem_take_iff_getElem.mp hi
    have hlt := T.front hfinite hcomplete (k := k) (j := j) (by omega) (by omega)
    exact ⟨Int.natCast_nonneg _, Int.ofNat_lt.mpr hlt⟩

theorem candidates_bot {logits : List (WithBot α)} (native : NativeTopK α)
    (hfinite : ∀ i < logits.length, logits.getD i ⊥ = ⊥ ↔ complete ≤ i) (hcomplete : complete ≤ logits.length) :
    ∀ i < ((native.select logits complete).map fun block =>
        if block < 0 then ⊥ else logits.getD (min block.toNat (logits.length - 1)) ⊥).length,
      ((native.select logits complete).map fun block =>
        if block < 0 then ⊥ else logits.getD (min block.toNat (logits.length - 1)) ⊥).getD i ⊥ = ⊥ ↔ complete ≤ i := by
  intro i hi
  rw [length_map] at hi
  rw [getD_eq_getElem?_getD, getElem?_map, getElem?_eq_getElem hi, Option.map_some, Option.getD_some]
  by_cases hlt : i < complete
  · have hmem : (native.select logits complete)[i] ∈ (native.select logits complete).take complete :=
      mem_take_iff_getElem.mpr ⟨i, by omega, rfl⟩
    obtain ⟨hlow, hhigh⟩ := native.inside logits complete _ hmem
    rw [if_neg (by omega), hfinite _ (by omega)]
    omega
  · have hmem : (native.select logits complete)[i] ∈ (native.select logits complete).drop complete :=
      mem_drop_iff_getElem.mpr ⟨i - complete, by omega, by congr 1; omega⟩
    rw [native.padding logits complete _ hmem, if_pos (by decide)]
    exact iff_of_true rfl (not_lt.mp hlt)

theorem rerank_selection (T : TopK α) {xs : List (WithBot α)} {candidates : List ℤ}
    (hlen : xs.length = candidates.length) (hfinite : ∀ i < xs.length, xs.getD i ⊥ = ⊥ ↔ min complete xs.length ≤ i)
    (hnodup : (candidates.take complete).Nodup) (hinside : ∀ b ∈ candidates.take complete, 0 ≤ b ∧ b < complete) :
    Selection complete (((T.indices xs xs.length).map fun i => candidates.getD i (-1)).mapIdx fun rank block =>
      if rank < min complete xs.length then block else -1) := by
  have hlength := T.length_eq xs xs.length le_rfl
  have hfront (j : ℕ) (hj : j < (T.indices xs xs.length).length) (hlt : j < complete) :
      (T.indices xs xs.length)[j] < (candidates.take complete).length := by
    have hbound := T.front hfinite (min_le_right _ _) hj (by omega)
    rw [length_take]
    omega
  have hget (i : ℕ) (hi : i < (candidates.take complete).length) :
      candidates.getD i (-1) = (candidates.take complete)[i] := by
    rw [length_take] at hi
    rw [getD_eq_getElem?_getD, getElem?_eq_getElem (by omega), Option.getD_some, getElem_take]
  refine mask_selection (by rw [length_map, hlength]) ?_ fun block hblock => ?_
  · rw [← map_take]
    refine ((T.nodup xs xs.length).sublist (take_sublist _ _)).map_on fun i hi i' hi' heq => ?_
    obtain ⟨j, hj, rfl⟩ := mem_take_iff_getElem.mp hi
    obtain ⟨j', hj', rfl⟩ := mem_take_iff_getElem.mp hi'
    have hin := hfront j (by omega) (by omega)
    have hin' := hfront j' (by omega) (by omega)
    rw [hget _ hin, hget _ hin'] at heq
    exact (List.Nodup.getElem_inj_iff hnodup).mp heq
  · rw [← map_take] at hblock
    obtain ⟨i, hi, rfl⟩ := mem_map.mp hblock
    obtain ⟨j, hj, rfl⟩ := mem_take_iff_getElem.mp hi
    have hin := hfront j (by omega) (by omega)
    rw [hget _ hin]
    exact hinside _ (getElem_mem hin)

/-- What `select_blocks` returns for a query that sees so many complete groups. -/
theorem selectBlocks_selection (T : TopK α) (native : Option (NativeTopK α)) (rerank : Bool) {scores : List α}
    (hcomplete : complete ≤ scores.length) :
    Selection complete (I.selectBlocks T native rerank (scoreBlocks scores complete) (some complete)) ∧
      (I.selectBlocks T native rerank (scoreBlocks scores complete) (some complete)).length ≤ I.blockTopk := by
  have hwidth : (scoreBlocks scores complete).length = scores.length := length_mapIdx
  have hle : complete ≤ (scoreBlocks scores complete).length := by rwa [hwidth]
  have hfinite := scoreBlocks_bot scores complete
  dsimp only [selectBlocks, Option.getD_some]
  cases hpath : (if min I.blockTopk (scoreBlocks scores complete).length = 512 ∧ I.blockTopk = 512 ∧
      512 ≤ (scoreBlocks scores complete).length then native else none) with
  | none =>
    refine ⟨topk_selection T (min_le_right _ _) hfinite hle, ?_⟩
    rw [length_mapIdx, length_map, T.length_eq _ _ (min_le_right _ _)]
    exact min_le_left _ _
  | some native =>
    have hshape : min I.blockTopk (scoreBlocks scores complete).length = 512 ∧ I.blockTopk = 512 := by
      by_contra hne
      rw [if_neg fun h => hne ⟨h.1, h.2.1⟩] at hpath
      cases hpath
    have hlength := native.length_eq (scoreBlocks scores complete) complete
    simp only [min_eq_left hle, hshape.1]
    cases rerank with
    | false =>
      exact ⟨⟨native.nodup _ _, native.inside _ _, native.padding _ _⟩, (hlength.trans hshape.2.symm).le⟩
    | true =>
      simp only [if_true]
      have hbot := candidates_bot native hfinite hle
      have hscores : ((native.select (scoreBlocks scores complete) complete).map fun block =>
          if block < 0 then ⊥ else (scoreBlocks scores complete).getD
            (min block.toNat ((scoreBlocks scores complete).length - 1)) ⊥).length = 512 := by
        rw [length_map, hlength]
      have hrow := rerank_selection T (hscores.trans hlength.symm)
        (fun i hi => (hbot i hi).trans (by rw [hscores] at hi ⊢; omega)) (native.nodup _ _) (native.inside _ _)
      rw [hscores] at hrow
      refine ⟨hrow, ?_⟩
      rw [length_mapIdx, length_map, T.length_eq _ _ hscores.ge, hshape.2]

/-- A query of a batch: its scores over the pooled keys, which cover its complete groups. -/
structure Query (I : BlockIndexer) (α : Type) where
  scores : List α
  position : ℕ
  pooled : (position + 1) / I.compressRatio ≤ scores.length

namespace Query

def completeGroups (query : Query I α) : ℕ := (query.position + 1) / I.compressRatio

def blocks (query : Query I α) (T : TopK α) (native : Option (NativeTopK α)) (rerank : Bool) : List ℤ :=
  I.selectBlocks T native rerank (scoreBlocks query.scores query.completeGroups) (some query.completeGroups)

end Query

theorem token_div (block : ℤ) {offset : ℕ} (h : offset < I.compressRatio) :
    (block * I.compressRatio + (offset : ℤ)) / I.compressRatio = block := by
  have hne : (I.compressRatio : ℤ) ≠ 0 := by
    have := I.ratio_pos
    omega
  rw [Int.add_comm, Int.add_mul_ediv_right _ _ hne, Int.ediv_eq_zero_of_lt (by omega) (by omega), Int.zero_add]

variable {blocks : List ℤ}

theorem mem_blockTokens {token : ℤ} :
    token ∈ I.blockTokens blocks ↔ 0 ≤ token ∧ token / I.compressRatio ∈ blocks := by
  have hpos : (0 : ℤ) < I.compressRatio := by
    have := I.ratio_pos
    omega
  simp only [blockTokens, mem_flatMap, mem_filter, mem_map, mem_range, decide_eq_true_eq]
  constructor
  · rintro ⟨block, ⟨hblock, hvalid⟩, offset, hoffset, rfl⟩
    refine ⟨by positivity, ?_⟩
    rwa [token_div block hoffset]
  · rintro ⟨htoken, hblock⟩
    refine ⟨_, ⟨hblock, Int.ediv_nonneg htoken hpos.le⟩, (token % I.compressRatio).toNat, ?_, ?_⟩
    · have := Int.emod_lt_of_pos token hpos
      omega
    · rw [Int.toNat_of_nonneg (Int.emod_nonneg _ hpos.ne')]
      exact Int.ediv_mul_add_emod token _

theorem mem_tailOf {token : ℤ} : token ∈ I.tailOf (position + 1) ↔
    0 ≤ token ∧ token ≤ position ∧ token / I.compressRatio = ((position + 1) / I.compressRatio : ℕ) := by
  have hdiv := Nat.div_add_mod' (position + 1) I.compressRatio
  have hmod := Nat.mod_lt (position + 1) I.ratio_pos
  rw [tailOf, mem_map]
  constructor
  · rintro ⟨offset, hoffset, rfl⟩
    rw [mem_range] at hoffset
    refine ⟨by omega, by omega, ?_⟩
    rw [Nat.cast_add, Nat.cast_mul]
    exact token_div _ (by omega)
  · rintro ⟨hlow, hhigh, hgroup⟩
    obtain ⟨n, rfl⟩ := Int.eq_ofNat_of_zero_le hlow
    have hn : n / I.compressRatio = (position + 1) / I.compressRatio := by exact_mod_cast hgroup
    have hsplit := Nat.div_add_mod' n I.compressRatio
    rw [hn] at hsplit
    refine ⟨n % I.compressRatio, mem_range.mpr ?_, by rw [hsplit]⟩
    omega

/-- The list of a query: the tokens of its selected blocks that it sees, and its causal tail. -/
theorem mem_gathered {token : ℤ}
    (hcomplete : ∀ block ∈ blocks, 0 ≤ block → block < ((position + 1) / I.compressRatio : ℕ)) :
    token ∈ I.gathered blocks position ↔ 0 ≤ token ∧ token ≤ position ∧
      (token / I.compressRatio ∈ blocks ∨ token / I.compressRatio = ((position + 1) / I.compressRatio : ℕ)) := by
  rw [gathered_eq, mem_append, mem_blockTokens, mem_tailOf]
  constructor
  · rintro (⟨hlow, hblock⟩ | ⟨hlow, hhigh, hgroup⟩)
    · have hpos : (0 : ℤ) < I.compressRatio := by
        have := I.ratio_pos
        omega
      have hmod := Int.emod_lt_of_pos token hpos
      have hnonneg := Int.emod_nonneg token hpos.ne'
      have hoffset : (token % I.compressRatio).toNat < I.compressRatio := by omega
      have hvisible := token_visible (hcomplete _ hblock (Int.ediv_nonneg hlow hpos.le)) hoffset
      rw [Int.toNat_of_nonneg hnonneg, Int.ediv_mul_add_emod] at hvisible
      exact ⟨hlow, by omega, .inl hblock⟩
    · exact ⟨hlow, hhigh, .inr hgroup⟩
  · rintro ⟨hlow, hhigh, hblock | hgroup⟩
    · exact .inl ⟨hlow, hblock⟩
    · exact .inr ⟨hlow, hhigh, hgroup⟩

theorem nodup_gathered (hnodup : (blocks.filter (0 ≤ ·)).Nodup)
    (hcomplete : ∀ block ∈ blocks, 0 ≤ block → block < ((position + 1) / I.compressRatio : ℕ)) :
    (I.gathered blocks position).Nodup := by
  have hgroup (block : ℤ) : ((range I.compressRatio).map fun offset : ℕ =>
      block * I.compressRatio + (offset : ℤ)).Nodup := by
    refine nodup_range.map fun a b hab => ?_
    simpa using hab
  have htokens : (I.blockTokens blocks).Nodup := by
    rw [blockTokens, nodup_flatMap]
    refine ⟨fun block _ => hgroup block, hnodup.imp fun {x y} hne token hx hy => hne ?_⟩
    obtain ⟨a, ha, rfl⟩ := mem_map.mp hx
    obtain ⟨b, hb, heq⟩ := mem_map.mp hy
    rw [← token_div x (mem_range.mp ha), ← heq, token_div y (mem_range.mp hb)]
  have htail : (I.tailOf (position + 1)).Nodup := by
    refine nodup_range.map fun a b hab => ?_
    simpa using hab
  rw [gathered_eq]
  refine htokens.append htail fun token hblock hout => ?_
  obtain ⟨hlow, hin⟩ := mem_blockTokens.mp hblock
  obtain ⟨-, -, hlast⟩ := mem_tailOf.mp hout
  have hlt := hcomplete _ hin (by rw [hlast]; exact Int.natCast_nonneg _)
  exact absurd hlast hlt.ne

theorem room_qsaPad (hcount : blocks.length ≤ I.blockTopk) :
    blocks.length * I.compressRatio + (I.compressRatio - 1) ≤ I.qsaPad := by
  have hmul := Nat.mul_le_mul_right I.compressRatio hcount
  have hpos := I.ratio_pos
  rw [qsaPad]
  omega

theorem zipWith_rows {β γ : Type} {f : List ℤ → ℕ → γ} {blocks : β → List ℤ} {position : β → ℕ} {list : β → γ}
    {queries : List β} (h : ∀ query ∈ queries, f (blocks query) (position query) = list query) :
    zipWith f (queries.map blocks) (queries.map position) = queries.map list := by
  rw [zipWith_map, zipWith_self]
  exact map_congr_left h

theorem pairwise_scoreOrder (xs : List (WithBot α)) :
    ((range xs.length).mergeSort fun i j => xs.getD j ⊥ ≤ xs.getD i ⊥).Pairwise fun i j =>
      xs.getD j ⊥ ≤ xs.getD i ⊥ := by
  refine List.Pairwise.imp (fun h => of_decide_eq_true h) (pairwise_mergeSort ?_ ?_ _)
  · exact fun a b c hab hbc => decide_eq_true ((of_decide_eq_true hbc).trans (of_decide_eq_true hab))
  · intro a b
    simpa using le_total _ _

/-- `torch.topk` by a stable sort. -/
def sortTopK (α : Type) [LinearOrder α] : TopK α where
  indices xs k := ((range xs.length).mergeSort fun i j => xs.getD j ⊥ ≤ xs.getD i ⊥).take k
  length_eq xs k hk := by
    rw [length_take, length_mergeSort, length_range, min_eq_left hk]
  nodup xs k := ((mergeSort_perm _ _).nodup_iff.mpr nodup_range).sublist (take_sublist _ _)
  inside xs k i hi := mem_range.mp ((mergeSort_perm _ _).mem_iff.mp (mem_of_mem_take hi))
  sorted xs k := (pairwise_scoreOrder xs).sublist (take_sublist _ _)
  best xs k i hi j hj hout := by
    have hsort := pairwise_scoreOrder xs
    rw [← take_append_drop k (mergeSort _ _), pairwise_append] at hsort
    have hmem := (mergeSort_perm (range xs.length) fun i j => xs.getD j ⊥ ≤ xs.getD i ⊥).mem_iff.mpr
      (mem_range.mpr hj)
    rw [← take_append_drop k (mergeSort _ _)] at hmem
    exact hsort.2.2 i hi j ((mem_append.mp hmem).resolve_left hout)

/-- The native selector of a row no longer than its width. -/
def prefixTopK (α : Type) [LinearOrder α] : NativeTopK α where
  select _ length := (range 512).map fun i : ℕ => if i < length then (i : ℤ) else -1
  length_eq _ _ := by simp
  nodup _ length := by
    rw [← map_take]
    refine (nodup_range.sublist (take_sublist _ _)).map_on fun a ha b hb heq => ?_
    rw [take_range, mem_range] at ha hb
    rw [if_pos (by omega), if_pos (by omega)] at heq
    exact_mod_cast heq
  inside _ length b hb := by
    obtain ⟨j, hj, rfl⟩ := mem_take_iff_getElem.mp hb
    have hlt : j < length := by omega
    simp [hlt]
  padding _ length b hb := by
    obtain ⟨j, hj, rfl⟩ := mem_drop_iff_getElem.mp hb
    simp

theorem four_pos : 0 < 4 := by decide

def threeGroups : BlockIndexer := ⟨4, 3, four_pos⟩

def twoQueries : List (Query threeGroups ℕ) := [⟨[5, 1, 9], 13, by decide⟩, ⟨[2, 4, 8, 3], 17, by decide⟩]

end BlockIndexer

end FlashNext
