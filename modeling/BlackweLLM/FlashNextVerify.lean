import BlackweLLM.FlashNextLayers
import BlackweLLM.SlidingWindow
import Mathlib.Data.List.Infix

/-!
# Flash-Next verify and commit

A verify block followed by its commit against the same tokens decoded one at a
time. Below the new length the pools agree, although the body writes all rows of
the block before the first one attends and the raw index keys may lie in a ring.
-/

namespace FlashNext

open List Function

open LagunaRing (scatter scatter_of_mem scatter_of_notMem scatter_map_key)
open SlidingWindow (rtake_append_rtake)

variable {V : Type}

section Window

variable {eos size : ℕ}

/-- An n-gram looks at the last tokens only. -/
theorem shift_eq {n : ℕ} (hn : n < size) (tokens : List ℕ) :
    shift eos (tokens.rtake size) n = shift eos tokens n := by
  have hback : (tokens.rtake size).reverse = tokens.reverse.take size := by
    rw [rtake_eq_reverse_take_reverse, reverse_reverse]
  have htail : (tokens.reverse.take size).tail.take n = tokens.reverse.tail.take n := by
    rw [← drop_one, ← drop_one, drop_take, take_take, min_eq_left (by omega)]
  have hlen : n < (tokens.reverse.take size).length ↔ n < tokens.reverse.length := by
    rw [length_take]
    omega
  simp only [shift, hback, htail, hlen, getD_eq_getElem?_getD, getElem?_take_of_lt hn]

theorem ngram_rtake (tokens : List ℕ) : ngram eos size (tokens.rtake size) = ngram eos size tokens :=
  map_congr_left fun _ hn => shift_eq (mem_range.mp hn) tokens

theorem ngram_append_rtake (front tokens : List ℕ) :
    ngram eos size (front.rtake size ++ tokens) = ngram eos size (front ++ tokens) := by
  rw [← ngram_rtake, rtake_append_rtake, ngram_rtake]

/-- The tokens before a history are out of reach, or behind an EOS. -/
theorem shift_append {before history later : List ℕ} {n : ℕ} (hlater : later ≠ [])
    (h : n ≤ history.length ∨ before = [] ∨ eos ∈ before.rtake 1 ++ history) :
    shift eos (before ++ (history ++ later)) n = shift eos (history ++ later) n := by
  have hpos := length_pos_iff.mpr hlater
  have hne : (history ++ later).reverse ≠ [] := by simp [hlater]
  have hlen : (history ++ later).reverse.length = history.length + later.length := by
    rw [length_reverse, length_append]
  have hback : (before ++ (history ++ later)).reverse = (history ++ later).reverse ++ before.reverse := reverse_append
  have hboth : ((history ++ later).reverse ++ before.reverse).length =
      (history ++ later).reverse.length + before.reverse.length := length_append
  simp only [shift, hback, hboth, tail_append_of_ne_nil hne]
  by_cases hn : n < (history ++ later).reverse.length
  · simp only [take_append_of_le_length (Nat.le_pred_of_lt hn |>.trans_eq length_tail.symm),
      getD_eq_getElem?_getD, getElem?_append_left hn, hn, Nat.lt_add_right _ hn, true_and]
  · have htail : (history ++ later).reverse.tail.length < n := by
      rw [length_tail]
      omega
    have hbehind : before.reverse.length = 0 ∨ eos ∈ ((history ++ later).reverse.tail ++ before.reverse).take n := by
      rcases h with h | rfl | h
      · omega
      · exact .inl rfl
      · rw [take_append, take_of_length_le htail.le, mem_append]
        refine .inr ((mem_append.mp h).symm.imp (fun hin => ?_) fun hin => ?_)
        · rw [tail_reverse, dropLast_append_of_ne_nil hlater, mem_reverse]
          exact mem_append_left _ hin
        · rw [rtake_eq_reverse_take_reverse, mem_reverse] at hin
          exact (take_prefix_take_left (by omega)).subset hin
    have hout : ¬(n < (history ++ later).reverse.length + before.reverse.length ∧
        eos ∉ ((history ++ later).reverse.tail ++ before.reverse).take n) := fun hin =>
      hbehind.elim (fun hzero => hn (by omega)) hin.2
    rw [if_neg hout, if_neg fun hin => hn hin.1]

theorem Window.append_eq (w : Window size) (token : ℕ) : w.append token = w.extend [token] := by
  obtain ⟨tokens, htokens⟩ := w
  apply Subtype.ext
  simp only [Window.append, Window.extend, rtake, length_append, length_singleton]
  split
  · have hone : tokens.length + 1 - size = 1 := by omega
    rw [hone, drop_one]
  · have hzero : tokens.length + 1 - size = 0 := by omega
    rw [hzero, drop_zero]

theorem Window.extend_extend (w : Window size) (a b : List ℕ) : (w.extend a).extend b = w.extend (a ++ b) :=
  Subtype.ext (by simp only [Window.extend, rtake_append_rtake, append_assoc])

theorem Window.extend_nil (w : Window size) : w.extend [] = w := by
  obtain ⟨tokens, htokens⟩ := w
  have hzero : tokens.length - size = 0 := by omega
  exact Subtype.ext (by simp [Window.extend, rtake, hzero])

theorem sequenceIds_drop (w tokens : List ℕ) {i : ℕ} (hi : i < tokens.length) :
    ((sequenceIds eos size (w ++ tokens)).drop w.length).getD i [] = ngram eos size (w ++ tokens.take (i + 1)) := by
  have hin : w.length + i < (w ++ tokens).length := by
    rw [length_append]
    omega
  rw [getD_eq_getElem?_getD, getElem?_drop, sequenceIds, getElem?_map,
    getElem?_range hin, Option.map_some, Option.getD_some, take_append]
  congr 2
  · exact take_of_length_le (by omega)
  · congr 1
    omega

end Window

variable {M : Model V}

/-- Within a group and a block, positions have cells of their own. -/
theorem cell_ne {p q : ℕ} (hlt : p < q) (hblock : q < p + (compressRatio + M.qoLen)) (hq : q < M.maxSeq) :
    p % M.indexRows ≠ q % M.indexRows := by
  intro heq
  have hrows : M.indexRows = M.maxSeq ∨ compressRatio + M.qoLen ≤ M.indexRows := by
    unfold Model.indexRows
    split <;> omega
  rcases hrows with hfull | hring
  · rw [hfull, Nat.mod_eq_of_lt hq, Nat.mod_eq_of_lt (hlt.trans hq)] at heq
    omega
  · have hsame := LagunaRing.mod_inj heq (by omega) (by omega)
    omega

/-- The rows lie one after the other from `p` on. -/
def Consecutive (p : ℕ) (rows : List (Row V × V)) : Prop :=
  ∀ (i : ℕ) (h : i < rows.length), rows[i].1.position = p + i

section

variable {p : ℕ} {rows : List (Row V × V)} {r : Row V × V} (h : Consecutive p (rows ++ [r]))
include h

theorem Consecutive.left : Consecutive p rows := by
  intro i hi
  have hrow := h i (by rw [length_append]; omega)
  rwa [getElem_append_left hi] at hrow

theorem Consecutive.last : r.1.position = p + rows.length := by
  have hrow := h rows.length (by simp)
  rwa [getElem_concat_length rfl] at hrow

end

theorem Consecutive.of_eq {p : ℕ} {rows rows' : List (Row V × V)} (h : Consecutive p rows)
    (heq : rows'.map (fun r => r.1.position) = rows.map fun r => r.1.position) : Consecutive p rows' := by
  intro i hi
  have hlen : rows'.length = rows.length := by simpa using congrArg List.length heq
  have hi' : i < (rows'.map fun r => r.1.position).length := by rwa [length_map]
  have hpos := getElem_of_eq heq hi'
  rw [getElem_map, getElem_map] at hpos
  exact hpos.trans (h i (hlen ▸ hi))

/-- What a later step can read of a layer whose length is `n`. -/
structure Agree (M : Model V) (n : ℕ) (c c' : AttnState V) : Prop where
  gdn : c.gdn = c'.gdn
  kv : ∀ q, q < n → c.kvPool q = c'.kvPool q
  idxK : ∀ q, n / compressRatio * compressRatio ≤ q → q < n →
    c.idxKPool (q % M.indexRows) = c'.idxKPool (q % M.indexRows)
  idxRope : M.mrope → ∀ q, n / compressRatio * compressRatio ≤ q → q < n →
    c.idxRopePool (q % M.indexRows) = c'.idxRopePool (q % M.indexRows)
  pooled : ∀ group, group < n / compressRatio → c.pooledKPool group = c'.pooledKPool group

theorem Agree.refl (n : ℕ) (c : AttnState V) : Agree M n c c :=
  ⟨rfl, fun _ _ => rfl, fun _ _ _ => rfl, fun _ _ _ _ => rfl, fun _ _ => rfl⟩

variable {n : ℕ} {c c' : AttnState V}

theorem Agree.symm (h : Agree M n c c') : Agree M n c' c :=
  ⟨h.gdn.symm, fun q hq => (h.kv q hq).symm, fun q hle hq => (h.idxK q hle hq).symm,
    fun hm q hle hq => (h.idxRope hm q hle hq).symm, fun group hg => (h.pooled group hg).symm⟩

theorem Agree.trans {c c' c'' : AttnState V} (h : Agree M n c c') (h' : Agree M n c' c'') : Agree M n c c'' :=
  ⟨h.gdn.trans h'.gdn, fun q hq => (h.kv q hq).trans (h'.kv q hq),
    fun q hle hq => (h.idxK q hle hq).trans (h'.idxK q hle hq),
    fun hm q hle hq => (h.idxRope hm q hle hq).trans (h'.idxRope hm q hle hq),
    fun group hg => (h.pooled group hg).trans (h'.pooled group hg)⟩

theorem ends_eq (position : ℕ) : ends position = (position + 1) / compressRatio := by
  unfold ends compressRatio
  omega

/-- A row attends to what lies below its own end. -/
theorem attendRow_congr {Q : Qsa V} {r : Row V × V} (h : Agree M (r.1.position + 1) c c') :
    attendRow Q c r = attendRow Q c' r := by
  have hpooled : (range (ends r.1.position)).map c.pooledKPool = (range (ends r.1.position)).map c'.pooledKPool :=
    map_congr_left fun group hg => h.pooled group (ends_eq r.1.position ▸ mem_range.mp hg)
  have hkv : (range (r.1.position + 1)).map c.kvPool = (range (r.1.position + 1)).map c'.kvPool :=
    map_congr_left fun q hq => h.kv q (mem_range.mp hq)
  rw [attendRow, attendRow, hpooled, hkv]

/-- A group is pooled from its own rows. -/
theorem pooledGroup_congr {Q : Qsa V} {group : ℕ}
    (hkey : ∀ q, group * compressRatio ≤ q → q < group * compressRatio + compressRatio →
      c.idxKPool (q % M.indexRows) = c'.idxKPool (q % M.indexRows))
    (hrope : M.mrope →
      c.idxRopePool (group * compressRatio % M.indexRows) = c'.idxRopePool (group * compressRatio % M.indexRows)) :
    pooledGroup M Q c group = pooledGroup M Q c' group := by
  have hkeys : (range compressRatio).map (fun offset => c.idxKPool ((group * compressRatio + offset) % M.indexRows)) =
      (range compressRatio).map (fun offset => c'.idxKPool ((group * compressRatio + offset) % M.indexRows)) :=
    map_congr_left fun offset ho => hkey _ (Nat.le_add_right _ _) (Nat.add_lt_add_left (mem_range.mp ho) _)
  unfold pooledGroup
  rw [hkeys]
  split
  · rw [hrope ‹_›]
  · rfl

section Qsa

variable {L : Layer V} {Q : Qsa V} {c : AttnState V} {rows : List (Row V × V)} {p : ℕ}

theorem pooledGroup_of_raw {c' : AttnState V} (hkey : c.idxKPool = c'.idxKPool) (hrope : c.idxRopePool = c'.idxRopePool)
    (group : ℕ) : pooledGroup M Q c group = pooledGroup M Q c' group :=
  pooledGroup_congr (fun _ _ _ => by rw [hkey]) (fun _ => by rw [hrope])

/-- The raw rows, the rope rows and the K/V rows of a block land as those of its steps do. -/
theorem run_qsaStep_writes (c : AttnState V) (rows : List (Row V × V)) :
    let done := (Cascade.run (qsaStep M L Q) c rows).1
    let block := writeKv Q (updateIndexCacheFixed M Q c rows) rows
    done.gdn = block.gdn ∧ done.kvPool = block.kvPool ∧ done.idxKPool = block.idxKPool ∧
      done.idxRopePool = block.idxRopePool := by
  induction rows using reverseRecOn with
  | nil => simp [writeKv, updateIndexCacheFixed, scatter]
  | append_singleton rows r ih =>
    obtain ⟨hgdn, hkv, hkey, hrope⟩ := ih
    simp only [writeKv, updateIndexCacheFixed] at hgdn hkv hkey hrope
    simp only [Cascade.run_concat, qsaStep, writeKv, updateIndexCacheFixed, map_append, map_cons, map_nil,
      scatter, foldl_append, foldl_cons, foldl_nil]
    simp only [scatter] at hkv hkey hrope
    refine ⟨hgdn, by rw [hkv], by rw [hkey], ?_⟩
    split
    · rw [hrope, if_pos ‹_›]
    · rw [hrope, if_neg ‹_›]

theorem qsaStep_frame (r : Row V × V) (hn : n ≤ r.1.position) (hblock : r.1.position < n + M.qoLen)
    (hmax : r.1.position < M.maxSeq) : Agree M n c (qsaStep M L Q c r).1 := by
  have hcell : ∀ q, n / compressRatio * compressRatio ≤ q → q < n → q % M.indexRows ≠ r.1.position % M.indexRows := by
    intro q hle hq
    have hspan : n < n / compressRatio * compressRatio + compressRatio := Nat.lt_div_mul_add (by decide)
    exact cell_ne (by omega) (by omega) hmax
  constructor
  case gdn => rfl
  case kv =>
    intro q hq
    exact (update_of_ne (by omega : q ≠ r.1.position) _ _).symm
  case idxK =>
    intro q hle hq
    exact (update_of_ne (hcell q hle hq) _ _).symm
  case idxRope =>
    intro hm q hle hq
    simp only [qsaStep, writeKv, updateIndexCacheFixed, if_pos hm]
    exact (update_of_ne (hcell q hle hq) _ _).symm
  case pooled =>
    intro group hg
    have hne : group ≠ r.1.position / compressRatio := by
      have hmono := Nat.div_le_div_right (c := compressRatio) hn
      omega
    exact (update_of_ne hne _ _).symm

section

variable (hrows : Consecutive p rows) (hlen : rows.length ≤ M.qoLen) (hmax : p + rows.length ≤ M.maxSeq)
include hrows hlen hmax

/-- The complete groups of the rows written so far are pooled from the raw rows. -/
theorem run_qsaStep_pooled {group : ℕ} (hg : p / compressRatio ≤ group)
    (hend : group < (p + rows.length) / compressRatio) :
    (Cascade.run (qsaStep M L Q) c rows).1.pooledKPool group =
      pooledGroup M Q (Cascade.run (qsaStep M L Q) c rows).1 group := by
  induction rows using reverseRecOn with
  | nil =>
    simp only [length_nil, add_zero] at hend
    omega
  | append_singleton rows r ih =>
    rw [length_append, length_singleton] at hlen hmax hend
    have hr := hrows.last
    rw [Cascade.run_concat]
    by_cases hgroup : group = r.1.position / compressRatio
    · subst hgroup
      exact update_self _ _ _
    · have hlt : group < (p + rows.length) / compressRatio := by
        rw [hr] at hgroup
        unfold compressRatio at *
        omega
      have hold := ih hrows.left (by omega) (by omega) hlt
      have hkeep : (qsaStep M L Q (Cascade.run (qsaStep M L Q) c rows).1 r).1.pooledKPool group =
          (Cascade.run (qsaStep M L Q) c rows).1.pooledKPool group := update_of_ne hgroup _ _
      have hcell : ∀ q, group * compressRatio ≤ q → q < group * compressRatio + compressRatio →
          q % M.indexRows ≠ r.1.position % M.indexRows := by
        intro q hle hq
        rw [hr]
        unfold compressRatio at *
        exact cell_ne (by omega) (by unfold compressRatio; omega) (by omega)
      rw [hkeep, hold]
      refine pooledGroup_congr (fun q hle hq => (update_of_ne (hcell q hle hq) _ _).symm) fun hm => ?_
      simp only [qsaStep, writeKv, updateIndexCacheFixed, if_pos hm]
      exact (update_of_ne (hcell _ le_rfl (by unfold compressRatio; omega)) _ _).symm

theorem run_qsaStep_frame : Agree M p c (Cascade.run (qsaStep M L Q) c rows).1 := by
  induction rows using reverseRecOn with
  | nil => exact Agree.refl p c
  | append_singleton rows r ih =>
    rw [length_append, length_singleton] at hlen hmax
    have hr := hrows.last
    have hstep : Agree M p (Cascade.run (qsaStep M L Q) c rows).1
        (qsaStep M L Q (Cascade.run (qsaStep M L Q) c rows).1 r).1 :=
      qsaStep_frame (L := L) r (by omega) (by omega) (by omega)
    rw [Cascade.run_concat]
    exact (ih hrows.left (by omega) (by omega)).trans hstep

/-- Later steps of a block leave what lies below the row they start at. -/
theorem run_qsaStep_take (hn : n ≤ rows.length) :
    Agree M (p + n) (Cascade.run (qsaStep M L Q) c (rows.take n)).1 (Cascade.run (qsaStep M L Q) c rows).1 := by
  have hsplit : rows = rows.take n ++ rows.drop n := (take_append_drop n rows).symm
  have hdrop : Consecutive (p + n) (rows.drop n) := by
    intro i hi
    rw [length_drop] at hi
    rw [getElem_drop, hrows (n + i) (by omega)]
    omega
  have hlater : Agree M (p + n) (Cascade.run (qsaStep M L Q) c (rows.take n)).1
      (Cascade.run (qsaStep M L Q) (Cascade.run (qsaStep M L Q) c (rows.take n)).1 (rows.drop n)).1 :=
    run_qsaStep_frame hdrop (by rw [length_drop]; omega) (by rw [length_drop]; omega)
  rw [hsplit, Cascade.run_append, take_append_drop]
  exact hlater

/-- Writing a block at once leaves what its steps leave. -/
theorem block_agree_run : Agree M (p + rows.length) (writeKv Q (updateIndexCacheFixed M Q c rows) rows)
      (Cascade.run (qsaStep M L Q) c rows).1 := by
  obtain ⟨hgdn, hkv, hkey, hrope⟩ := run_qsaStep_writes (M := M) (L := L) (Q := Q) c rows
  refine ⟨hgdn.symm, fun q _ => by rw [hkv], fun q _ _ => by rw [hkey], fun _ q _ _ => by rw [hrope], ?_⟩
  intro group hg
  have hblock : (writeKv Q (updateIndexCacheFixed M Q c rows) rows).pooledKPool group =
      if group ∈ rows.map (fun r => r.1.position / compressRatio) then
        pooledGroup M Q (writeKv Q (updateIndexCacheFixed M Q c rows) rows) group
      else c.pooledKPool group := by
    have hkeyed := scatter_map_key c.pooledKPool
      (pooledGroup M Q (writeKv Q (updateIndexCacheFixed M Q c rows) rows))
      (rows.map fun r => r.1.position / compressRatio) group
    rw [map_map] at hkeyed
    exact hkeyed
  rw [hblock]
  by_cases htouched : p / compressRatio ≤ group
  · have hmem : group ∈ rows.map fun r => r.1.position / compressRatio := by
      unfold compressRatio at *
      rw [mem_map]
      have hlt : 4 * group + 3 - p < rows.length := by omega
      refine ⟨rows[4 * group + 3 - p], getElem_mem _, ?_⟩
      rw [hrows _ (by omega)]
      omega
    rw [if_pos hmem, run_qsaStep_pooled hrows hlen hmax htouched hg]
    exact pooledGroup_of_raw hkey.symm hrope.symm group
  · have hnotmem : group ∉ rows.map fun r => r.1.position / compressRatio := by
      intro hmem
      obtain ⟨r, hr, hgroup⟩ := mem_map.mp hmem
      obtain ⟨i, hi, hget⟩ := getElem_of_mem hr
      have hpos := hrows i hi
      have hmono := Nat.div_le_div_right (c := compressRatio) (Nat.le_add_right p i)
      rw [hget] at hpos
      rw [hpos] at hgroup
      omega
    rw [if_neg hnotmem]
    exact (run_qsaStep_frame (L := L) hrows hlen hmax).pooled group (by omega)

end

theorem fill_of_notMem {A : Type} (pool : ℕ → A) {cells : List ℕ} {value : A} {cell : ℕ} (h : cell ∉ cells) :
    fill pool cells value cell = pool cell :=
  scatter_of_notMem pool _ (by simpa using h)

/-- The rollback keeps what lies below the committed end. -/
theorem rollback_agree {b : AttnState V} (hrows : Consecutive p rows) (hlen : rows.length = M.qoLen)
    (hmax : p + M.qoLen ≤ M.maxSeq) (hn : n ≤ rows.length)
    (hb : Agree M (p + rows.length) b (Cascade.run (qsaStep M L Q) c rows).1)
    (hkey : b.idxKPool = (Cascade.run (qsaStep M L Q) c rows).1.idxKPool)
    (hrope : b.idxRopePool = (Cascade.run (qsaStep M L Q) c rows).1.idxRopePool) :
    Agree M (p + n) (rollbackSpeculativeQsa M Q b p (p + n)) (Cascade.run (qsaStep M L Q) c rows).1 := by
  unfold rollbackSpeculativeQsa
  by_cases hall : p + n = p + M.qoLen
  · have hfull : n = rows.length := by omega
    rw [if_pos hall, hfull]
    exact hb
  rw [if_neg hall]
  dsimp only
  have hcell : ∀ q, p / compressRatio * compressRatio ≤ q → q < p + n →
      q % M.indexRows ∉ (range' (p + n) (p + M.qoLen - (p + n))).map (· % M.indexRows) := by
    intro q hle hq hmem
    obtain ⟨q', hq', heq⟩ := mem_map.mp hmem
    rw [mem_range'_1] at hq'
    have hspan : p < p / compressRatio * compressRatio + compressRatio := Nat.lt_div_mul_add (by decide)
    exact cell_ne (by omega) (by omega) (by omega) heq.symm
  have hbase : p / compressRatio * compressRatio ≤ (p + n) / compressRatio * compressRatio :=
    Nat.mul_le_mul_right _ (Nat.div_le_div_right (Nat.le_add_right p n))
  constructor
  case gdn => exact hb.gdn
  case kv =>
    intro q hq
    have hnotmem : q ∉ range' (p + n) (p + M.qoLen - (p + n)) := by
      rw [mem_range'_1]
      omega
    exact (fill_of_notMem _ hnotmem).trans (hb.kv q (by omega))
  case idxK =>
    intro q hle hq
    exact (fill_of_notMem _ (hcell q (by omega) hq)).trans (by rw [hkey])
  case idxRope =>
    intro hm q hle hq
    simp only [if_pos hm]
    exact (fill_of_notMem _ (hcell q (by omega) hq)).trans (by rw [hrope])
  case pooled =>
    intro group hg
    have hend : group < (p + rows.length) / compressRatio :=
      hg.trans_le (Nat.div_le_div_right (by omega))
    have hcomplete : group * compressRatio + compressRatio ≤ p + n := by
      unfold compressRatio at *
      omega
    dsimp only
    rw [scatter_map_key]
    by_cases htouched : p / compressRatio ≤ group
    · have hlast : group < p / compressRatio + ((p + M.qoLen + compressRatio - 1) / compressRatio - p / compressRatio) := by
        unfold compressRatio at *
        omega
      have hstart : p / compressRatio * compressRatio ≤ group * compressRatio := Nat.mul_le_mul_right _ htouched
      rw [if_pos (mem_range'_1.mpr ⟨htouched, hlast⟩), if_pos hcomplete,
        run_qsaStep_pooled hrows hlen.le (by omega) htouched hend]
      refine pooledGroup_congr (fun q hle hq => ?_) fun hm => ?_
      · exact (fill_of_notMem _ (hcell q (by omega) (by omega))).trans (by rw [hkey])
      · simp only [if_pos hm]
        exact (fill_of_notMem _ (hcell _ hstart (by unfold compressRatio at *; omega))).trans (by rw [hrope])
    · rw [if_neg (fun hmem => htouched (mem_range'_1.mp hmem).1)]
      exact hb.pooled group hend

end Qsa

section Layers

variable {L : Layer V} {rows : List (Row V × V)} {p : ℕ} {sequentialQsa : Bool}

structure Block (M : Model V) (p : ℕ) (rows : List (Row V × V)) : Prop where
  consecutive : Consecutive p rows
  length : rows.length = M.qoLen
  fits : p + M.qoLen ≤ M.maxSeq

theorem Block.of_eq {rows' : List (Row V × V)} (h : Block M p rows)
    (heq : rows'.map (fun r => r.1.position) = rows.map fun r => r.1.position) : Block M p rows' :=
  ⟨h.consecutive.of_eq heq, by simpa [h.length] using congrArg List.length heq, h.fits⟩

/-- A machine that hands each row on with its position hands on a block. -/
theorem Block.run {σ : Type} {step : σ → Row V × V → σ × (Row V × V)} (hstep : ∀ s r, (step s r).2.1 = r.1)
    (h : Block M p rows) (s : σ) : Block M p (Cascade.run step s rows).2 := by
  refine h.of_eq ?_
  have hmap : ∀ (s : σ) (rows : List (Row V × V)),
      (Cascade.run step s rows).2.map (fun r => r.1.position) = rows.map fun r => r.1.position := by
    intro s rows
    induction rows generalizing s with
    | nil => rfl
    | cons r rows ih => simp [hstep, ih]
  exact hmap s rows

theorem pleStep_row (s : V) (r : Row V × V) : (pleStep L s r).2.1 = r.1 := by
  unfold pleStep
  split <;> rfl

theorem attnStep_row (c : AttnState V) (r : Row V × V) : (attnStep M L c r).2.1 = r.1 := by
  unfold attnStep
  cases L.attn <;> rfl

theorem decodeLayer_row (c : LayerState V) (r : Row V × V) : (decodeLayer M L c r).2.1 = r.1 := by
  simp only [decodeLayer, Cascade.comp, attnStep_row, pleStep_row]

/-- The attention of a block gives the rows that one step after the other gives. -/
theorem verifyAttn_out (h : Block M p rows) (c : AttnState V) :
    (verifyAttn M sequentialQsa L c rows).2.2 = (Cascade.run (attnStep M L) c rows).2 := by
  unfold verifyAttn attnStep
  cases L.attn with
  | gdn G => rfl
  | qsa Q =>
    cases sequentialQsa with
    | true => rfl
    | false =>
      refine ext_getElem (by simp) fun i hi hi' => ?_
      have hrow : i < rows.length := by simpa using hi
      have hlen := h.length
      have hall : Agree M (p + (i + 1)) (writeKv Q (updateIndexCacheFixed M Q c rows) rows)
          (Cascade.run (qsaStep M L Q) c rows).1 := by
        have hblock := block_agree_run (L := L) (Q := Q) (c := c) h.consecutive hlen.le (hlen ▸ h.fits)
        exact ⟨hblock.gdn, fun q hq => hblock.kv q (by omega),
          fun q _ _ => by rw [(run_qsaStep_writes (L := L) c rows).2.2.1],
          fun _ q _ _ => by rw [(run_qsaStep_writes (L := L) c rows).2.2.2],
          fun group hg => hblock.pooled group (hg.trans_le (Nat.div_le_div_right (by omega)))⟩
      have htake := run_qsaStep_take (L := L) (Q := Q) (c := c) h.consecutive hlen.le (hlen ▸ h.fits)
        (n := i + 1) (by omega)
      have hstep : (Cascade.run (qsaStep M L Q) c (rows.take (i + 1))).1 =
          (qsaStep M L Q (Cascade.run (qsaStep M L Q) c (rows.take i)).1 rows[i]).1 := by
        rw [take_succ_eq_append_getElem hrow, Cascade.run_concat]
      have hagree : Agree M (rows[i].1.position + 1) (writeKv Q (updateIndexCacheFixed M Q c rows) rows)
          (qsaStep M L Q (Cascade.run (qsaStep M L Q) c (rows.take i)).1 rows[i]).1 := by
        rw [h.consecutive i hrow, add_assoc, ← hstep]
        exact hall.trans htake.symm
      simp only [if_neg Bool.false_ne_true]
      rw [getElem_map, Cascade.run_getElem _ _ _ hrow (by rwa [Cascade.run_length]), attendRow_congr hagree]
      rfl

theorem run_gdnStep_pools (G : Gdn V) (c : AttnState V) (rows : List (Row V × V)) :
    (Cascade.run (gdnStep L G) c rows).1 = { c with gdn := (Cascade.run (gdnStep L G) c rows).1.gdn } := by
  induction rows generalizing c with
  | nil => rfl
  | cons r rows ih =>
    rw [Cascade.run_cons, ih]
    rfl

/-- The commit of a layer's attention leaves what the committed steps leave. -/
theorem commitAttn_agree (h : Block M p rows) (c : AttnState V) (ple : V) (pleRows : List V) (hpos : 1 ≤ n)
    (hn : n ≤ M.qoLen) :
    Agree M (p + n)
      (commitLayer M L (ple, (verifyAttn M sequentialQsa L c rows).1)
        ⟨pleRows, (verifyAttn M sequentialQsa L c rows).2.1⟩ p n).2
      (Cascade.run (attnStep M L) c (rows.take n)).1 := by
  have hlen := h.length
  unfold commitLayer verifyAttn attnStep
  cases L.attn with
  | gdn G =>
    have hscan : ((Cascade.scan (gdnStep L G) c rows).map AttnState.gdn).getD (n - 1) c.gdn =
        (Cascade.run (gdnStep L G) c (rows.take n)).1.gdn := by
      have hlt : n - 1 < rows.length := by omega
      have hlt' : n - 1 < (Cascade.scan (gdnStep L G) c rows).length := by rwa [Cascade.scan_length]
      have hscan : (Cascade.scan (gdnStep L G) c rows)[n - 1] =
          (Cascade.run (gdnStep L G) c (rows.take (n - 1 + 1))).1 := Cascade.scan_getElem c rows (n - 1) hlt hlt'
      rw [Nat.sub_add_cancel hpos] at hscan
      rw [getD_eq_getElem?_getD, getElem?_map, getElem?_eq_getElem (by simpa using hlt), hscan]
      rfl
    dsimp only
    rw [hscan, ← run_gdnStep_pools]
    exact Agree.refl _ _
  | qsa Q =>
    have htake := run_qsaStep_take (L := L) (Q := Q) (c := c) h.consecutive hlen.le (hlen ▸ h.fits) (n := n) (by omega)
    cases sequentialQsa with
    | true => exact (rollback_agree h.consecutive hlen h.fits (by omega) (Agree.refl _ _) rfl rfl).trans htake.symm
    | false =>
      obtain ⟨-, -, hkey, hrope⟩ := run_qsaStep_writes (M := M) (L := L) (Q := Q) c rows
      exact (rollback_agree h.consecutive hlen h.fits (by omega)
        (block_agree_run h.consecutive hlen.le (hlen ▸ h.fits)) hkey.symm hrope.symm).trans htake.symm

end Layers

end FlashNext
