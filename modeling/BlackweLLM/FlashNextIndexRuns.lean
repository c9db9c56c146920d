import BlackweLLM.FlashNextIndexCache

/-!
# The index cache over a stream

A slot's stream of raw keys, cut into prefill chunks, decode rows and verify blocks.
After each of them the pooled keys are those of the stream's complete groups, and the
ring still holds the group that is open.
-/

namespace FlashNext

open List Function

open LagunaRing (scatter scatter_of_mem scatter_of_notMem)

variable {V : Type}

/-- A token of the stream: its raw key, its coordinate, and whether its caller recorded that. -/
structure IndexToken (V : Type) where
  key : V
  coord : Rope
  recorded : Bool

def coordAt (S : List (IndexToken V)) (p : ℕ) : Rope := (S[p]?.map IndexToken.coord).getD (axes 0)

namespace Indexer

variable {I : Indexer}
variable {c' : IndexCache V} {ropePositions : Option Positions} {g p base : ℕ}

/-- The pooled key of a group, from the whole stream. -/
def groupKey (I : Indexer) (S : List (IndexToken V)) (g : ℕ) : PooledKey V :=
  ⟨((S.drop (g * I.compressRatio)).take I.compressRatio).map IndexToken.key, coordAt S (g * I.compressRatio)⟩

def openBase (I : Indexer) (n : ℕ) : ℕ := n / I.compressRatio * I.compressRatio

/-- The cache of a stream: its complete groups, and the rows from `base` on. -/
structure Holds (I : Indexer) (base : ℕ) (S : List (IndexToken V)) (c : IndexCache V) : Prop where
  pooled : ∀ g, (g + 1) * I.compressRatio ≤ S.length → c.pooled g = some (I.groupKey S g)
  raw : ∀ p t, base ≤ p → S[p]? = some t → c.raw (p % I.capacity) = t.key
  rope : I.mrope → ∀ p t, base ≤ p → S[p]? = some t → t.recorded → c.rope (p % I.capacity) = t.coord

variable {S chunk : List (IndexToken V)} {c : IndexCache V}

theorem openBase_le (n : ℕ) : I.openBase n ≤ n := Nat.div_mul_le_self _ _

theorem lt_openBase_add (n : ℕ) : n < I.openBase n + I.compressRatio := by
  have h := Nat.lt_div_mul_add I.ratio_pos (a := n)
  exact h

theorem openBase_mono {n m : ℕ} (h : n ≤ m) : I.openBase n ≤ I.openBase m :=
  Nat.mul_le_mul_right _ (Nat.div_le_div_right h)

theorem cells_map_raw (h : I.Holds (I.openBase S.length) S c) :
    (I.cells (I.openBase S.length) S.length).map c.raw = (S.drop (I.openBase S.length)).map IndexToken.key := by
  apply ext_getElem
  · simp [cells]
  · intro i hi _
    have hin : I.openBase S.length + i < S.length := by
      simp only [cells, length_map, length_range'] at hi
      omega
    simp only [cells, getElem_map, getElem_range', one_mul, getElem_drop]
    exact h.raw _ _ (Nat.le_add_right _ _) (getElem?_eq_getElem hin)

theorem cells_map_rope (h : I.Holds (I.openBase S.length) S c) (hm : I.mrope)
    (hrecorded : ∀ p t, I.openBase S.length ≤ p → S[p]? = some t → t.recorded) :
    (I.cells (I.openBase S.length) S.length).map c.rope = (S.drop (I.openBase S.length)).map IndexToken.coord := by
  apply ext_getElem
  · simp [cells]
  · intro i hi _
    have hin : I.openBase S.length + i < S.length := by
      simp only [cells, length_map, length_range'] at hi
      omega
    have hget := getElem?_eq_getElem hin
    simp only [cells, getElem_map, getElem_range', one_mul, getElem_drop]
    exact h.rope hm _ _ (Nat.le_add_right _ _) hget (hrecorded _ _ (Nat.le_add_right _ _) hget)

section

variable {β : Type} {f : IndexToken V → β} {front : List β} (hfront : front = (S.drop (I.openBase S.length)).map f)
include hfront

theorem window_map {stop : ℕ} (hle : S.length ≤ stop) : front ++ (chunk.map f).take (stop - S.length) =
      (((S ++ chunk).map f).take stop).drop (I.openBase S.length) := by
  have hbase : I.openBase S.length ≤ (S.map f).length := by
    rw [length_map]
    exact I.openBase_le _
  have hall : (S.map f).take stop = S.map f := take_of_length_le (by rwa [length_map])
  rw [hfront, map_append, take_append, length_map, hall, drop_append_of_le_length hbase,
    map_drop]

theorem groupsOf_stream (hlt : I.openBase S.length < I.openBase (S.length + chunk.length)) :
    groupsOf I.compressRatio (front ++ (chunk.map f).take (I.openBase (S.length + chunk.length) - S.length)) =
      (range ((S.length + chunk.length) / I.compressRatio - S.length / I.compressRatio)).map fun g =>
        (((S ++ chunk).map f).drop ((S.length / I.compressRatio + g) * I.compressRatio)).take I.compressRatio := by
  have hnext : I.openBase S.length + I.compressRatio ≤ I.openBase (S.length + chunk.length) := by
    have hdiv := Nat.lt_of_mul_lt_mul_right hlt
    have hmul := Nat.mul_le_mul_right I.compressRatio (Nat.succ_le_of_lt hdiv)
    rwa [Nat.succ_mul] at hmul
  have hle := (I.lt_openBase_add S.length).le.trans hnext
  rw [window_map hfront hle]
  exact groupsOf_window I.ratio_pos (by rw [length_map, length_append]; exact I.openBase_le _)

end

theorem groups_eq_zero {n m : ℕ} (h : ¬I.openBase n < I.openBase m) :
    m / I.compressRatio - n / I.compressRatio = 0 := by
  by_contra hpos
  exact h (Nat.mul_lt_mul_of_pos_right (by omega) I.ratio_pos)

theorem eagerPooled_text (h : I.Holds (I.openBase S.length) S c)
    (hplain : ∀ g, (g + 1) * I.compressRatio ≤ (S ++ chunk).length →
      coordAt (S ++ chunk) (g * I.compressRatio) = axes (g * I.compressRatio)) :
    I.eagerPooled c (chunk.map IndexToken.key) S.length none =
      .ok ((range ((S.length + chunk.length) / I.compressRatio - S.length / I.compressRatio)).map fun g =>
        I.groupKey (S ++ chunk) (S.length / I.compressRatio + g)) := by
  have hdivle : S.length / I.compressRatio ≤ (S.length + chunk.length) / I.compressRatio :=
    Nat.div_le_div_right (Nat.le_add_right _ _)
  simp only [eagerPooled, length_map]
  split
  case isTrue hlt =>
    change I.poolKeyGroups (groupsOf I.compressRatio ((I.cells (I.openBase S.length) S.length).map c.raw ++
      (chunk.map IndexToken.key).take (I.openBase (S.length + chunk.length) - S.length))) _ = _
    rw [groupsOf_stream (cells_map_raw h) hlt, Nat.mul_div_cancel _ I.ratio_pos, poolKeyGroups,
      poolKeyGroups_scalar (by simp)]
    refine congrArg Except.ok (ext_getElem (by simp) fun g hg _ => ?_)
    have hin : g < (S.length + chunk.length) / I.compressRatio - S.length / I.compressRatio := by simpa using hg
    have hend : (S.length / I.compressRatio + g + 1) * I.compressRatio ≤ (S ++ chunk).length := by
      rw [length_append]
      exact (Nat.mul_le_mul_right _ (by omega)).trans (Nat.div_mul_le_self _ _)
    simp [groupKey, map_drop, map_take, hplain _ hend, hin]
  case isFalse hge =>
    rw [groups_eq_zero hge]
    rfl

def groupCoords (I : Indexer) (S : List (IndexToken V)) (a b : ℕ) : List Rope :=
  (range (b - a)).map fun g => coordAt S ((a + g) * I.compressRatio)

def groupRows (I : Indexer) (S : List (IndexToken V)) (a b : ℕ) : List (List V) :=
  (range (b - a)).map fun g => ((S.map IndexToken.key).drop ((a + g) * I.compressRatio)).take I.compressRatio

section

variable (h : I.Holds (I.openBase S.length) S c) (hm : I.mrope)
  (hrecorded : ∀ p t, I.openBase S.length ≤ p → S[p]? = some t → t.recorded) {coords : ℕ → Rope}
  (hcoords : (range chunk.length).map coords = chunk.map IndexToken.coord)
include h hm hrecorded hcoords

/-- A multimodal chunk hands the coordinates of its groups' first tokens over as rows. -/
theorem eagerPooled_rowMajor : I.eagerPooled c (chunk.map IndexToken.key) S.length (some coords) =
      poolKeyGroupsAtPositions
        (groupRows I (S ++ chunk) (S.length / I.compressRatio) ((S.length + chunk.length) / I.compressRatio))
        (rowMajor (groupCoords I (S ++ chunk) (S.length / I.compressRatio)
          ((S.length + chunk.length) / I.compressRatio))) := by
  simp only [eagerPooled, length_map]
  split
  case isTrue hlt =>
    have hnew : (range (I.openBase (S.length + chunk.length) - S.length)).map coords =
        (chunk.map IndexToken.coord).take (I.openBase (S.length + chunk.length) - S.length) := by
      have hle := I.openBase_le (S.length + chunk.length)
      rw [← hcoords, ← map_take, take_range, min_eq_left (by omega)]
    change poolKeyGroupsAtPositions (groupsOf I.compressRatio ((I.cells (I.openBase S.length) S.length).map c.raw ++
        (chunk.map IndexToken.key).take (I.openBase (S.length + chunk.length) - S.length)))
      (rowMajor ((groupsOf I.compressRatio ((I.cells (I.openBase S.length) S.length).map c.rope ++
        (range (I.openBase (S.length + chunk.length) - S.length)).map coords)).map fun group =>
          group.headD (axes 0))) = _
    have hgroups : (groupsOf I.compressRatio ((I.cells (I.openBase S.length) S.length).map c.rope ++
        (range (I.openBase (S.length + chunk.length) - S.length)).map coords)).map (fun group =>
          group.headD (axes 0)) = groupCoords I (S ++ chunk) (S.length / I.compressRatio)
            ((S.length + chunk.length) / I.compressRatio) := by
      rw [hnew, groupsOf_stream (cells_map_rope h hm hrecorded) hlt, groupCoords, map_map]
      refine map_congr_left fun g _ => ?_
      have hpos := I.ratio_pos
      simp [-map_append, coordAt, headD_eq_head?_getD, head?_take, ne_of_gt hpos, head?_drop]
    rw [hgroups, groupsOf_stream (cells_map_raw h) hlt]
    rfl
  case isFalse hge =>
    rw [groupRows, groupCoords, groups_eq_zero hge]
    rfl

/-- A multimodal chunk pools its groups at the coordinates of their first tokens. -/
theorem eagerPooled_rope (hthree : (groupCoords I (S ++ chunk) (S.length / I.compressRatio)
      ((S.length + chunk.length) / I.compressRatio)).length = 3 → Symmetric (groupCoords I (S ++ chunk)
        (S.length / I.compressRatio) ((S.length + chunk.length) / I.compressRatio))) :
    I.eagerPooled c (chunk.map IndexToken.key) S.length (some coords) =
      .ok ((range ((S.length + chunk.length) / I.compressRatio - S.length / I.compressRatio)).map fun g =>
        I.groupKey (S ++ chunk) (S.length / I.compressRatio + g)) := by
  rw [eagerPooled_rowMajor h hm hrecorded hcoords, poolKeyGroups_own (by simp [groupCoords, groupRows]) hthree]
  refine congrArg Except.ok (ext_getElem (by simp [groupRows]) fun g hg _ => ?_)
  have hin : g < (S.length + chunk.length) / I.compressRatio - S.length / I.compressRatio := by
    simpa [groupRows] using hg
  simp [groupRows, groupKey, map_drop, map_take, groupCoords, hin]

end

section Ring

variable {A : Type} (m : ℕ → A) {xs : List A} {start stop : ℕ}

theorem cells_nodup (hcap : stop ≤ start + I.capacity) : (I.cells start stop).Nodup := by
  refine List.Nodup.map_on (fun p hp q hq h => ?_) nodup_range'
  rw [mem_range'_1] at hp hq
  exact LagunaRing.mod_inj h (by omega) (by omega)

section

variable (hlen : xs.length = stop - start)
include hlen

theorem map_fst_zip_cells : ((I.cells start stop).zip xs).map Prod.fst = I.cells start stop :=
  map_fst_zip (by simp [cells, hlen])

theorem ring_write (hcap : stop ≤ start + I.capacity) {i : ℕ} (hi : i < xs.length) :
    scatter m ((I.cells start stop).zip xs) ((start + i) % I.capacity) = xs[i] := by
  have hmem : ((start + i) % I.capacity, xs[i]) ∈ (I.cells start stop).zip xs := by
    refine mem_iff_getElem.mpr ⟨i, by simp [cells]; omega, ?_⟩
    simp [cells]
  exact scatter_of_mem m (by rw [map_fst_zip_cells hlen]; exact cells_nodup hcap) hmem

theorem ring_keep {p : ℕ} (hlt : p < start) (hcap : stop ≤ p + I.capacity) :
    scatter m ((I.cells start stop).zip xs) (p % I.capacity) = m (p % I.capacity) := by
  refine scatter_of_notMem m _ ?_
  rw [map_fst_zip_cells hlen, cells, mem_map]
  rintro ⟨q, hq, heq⟩
  rw [mem_range'_1] at hq
  have hsame := LagunaRing.mod_inj heq (by omega) (by omega)
  omega

end

end Ring

theorem eager_inv {c : IndexCache V} {keys : List V} {start : ℕ} {ropeCache : Bool}
    (h : I.updateIndexCacheEager c keys start ropeCache ropePositions = .ok c') :
    I.compressRatio ≤ I.capacity ∧ ropeCache = ropePositions.isSome ∧ ∃ ropeRows pooled,
      (ropePositions.mapM fun positions => normalizeRopePositions positions keys.length) = .ok ropeRows ∧
      I.eagerPooled c keys start ropeRows = .ok pooled ∧ c' = {
        raw := scatter c.raw ((I.cells (start + keys.length - min keys.length I.capacity) (start + keys.length)).zip
          (keys.drop (keys.length - min keys.length I.capacity)))
        rope := writeRope c.rope (I.cells (start + keys.length - min keys.length I.capacity) (start + keys.length))
          ropeRows (range' (keys.length - min keys.length I.capacity) (min keys.length I.capacity))
        pooled := scatter c.pooled (pooled.mapIdx fun g key => (start / I.compressRatio + g, some key)) } := by
  unfold updateIndexCacheEager at h
  by_cases hcap : I.capacity < I.compressRatio
  · rw [if_pos hcap] at h
    cases h
  rw [if_neg hcap] at h
  by_cases hrope : ropeCache ≠ ropePositions.isSome
  · simp only [if_pos hrope] at h
    cases h
  simp only [if_neg hrope] at h
  cases hrows : (ropePositions.mapM fun positions => normalizeRopePositions positions keys.length) with
  | error e => rw [hrows] at h; cases h
  | ok ropeRows =>
    rw [hrows] at h
    cases hpooled : I.eagerPooled c keys start ropeRows with
    | error e =>
      change (I.eagerPooled c keys start ropeRows >>= _) = _ at h
      rw [hpooled] at h; cases h
    | ok pooled =>
      change (I.eagerPooled c keys start ropeRows >>= _) = _ at h
      rw [hpooled] at h
      exact ⟨not_lt.mp hcap, not_not.mp hrope, ropeRows, pooled, rfl, hpooled, (Except.ok.inj h).symm⟩
theorem groupKey_append (hg : (g + 1) * I.compressRatio ≤ S.length) :
    I.groupKey (S ++ chunk) g = I.groupKey S g := by
  rw [Nat.succ_mul] at hg
  have hpos := I.ratio_pos
  rw [groupKey, groupKey, drop_append_of_le_length (by omega),
    take_append_of_le_length (by rw [length_drop]; omega), coordAt, coordAt, getElem?_append_left (by omega)]

theorem eager_ring {A : Type} (m : ℕ → A) {xs : List A} {n : ℕ} (hcap : I.compressRatio ≤ I.capacity)
    (hp : I.openBase (n + xs.length) ≤ p) (hlt : p < n + xs.length) :
    scatter m ((I.cells (n + xs.length - min xs.length I.capacity) (n + xs.length)).zip
      (xs.drop (xs.length - min xs.length I.capacity))) (p % I.capacity) =
        if n ≤ p then xs.getD (p - n) (m 0) else m (p % I.capacity) := by
  have hopen := I.lt_openBase_add (n + xs.length)
  split
  case isTrue hnew =>
    obtain ⟨i, rfl⟩ : ∃ i, p = n + xs.length - min xs.length I.capacity + i :=
      ⟨p - (n + xs.length - min xs.length I.capacity), by omega⟩
    have hi : i < (xs.drop (xs.length - min xs.length I.capacity)).length := by
      rw [length_drop]
      omega
    rw [ring_write m (by rw [length_drop]; omega) (by omega) hi, getElem_drop, getD_eq_getElem?_getD,
      getElem?_eq_getElem (by omega), Option.getD_some]
    congr 1
    omega
  case isFalse hold => exact ring_keep m (by rw [length_drop]; omega) (by omega) (by omega)

theorem pooled_append (h : ∀ g, (g + 1) * I.compressRatio ≤ S.length → c.pooled g = some (I.groupKey S g)) (g : ℕ)
    (hg : (g + 1) * I.compressRatio ≤ (S ++ chunk).length) :
    scatter c.pooled (((range ((S.length + chunk.length) / I.compressRatio - S.length / I.compressRatio)).map
      fun i => I.groupKey (S ++ chunk) (S.length / I.compressRatio + i)).mapIdx fun i key =>
        (S.length / I.compressRatio + i, some key)) g = some (I.groupKey (S ++ chunk) g) := by
  rw [length_append] at hg
  have hend : g + 1 ≤ (S.length + chunk.length) / I.compressRatio := (Nat.le_div_iff_mul_le I.ratio_pos).mpr hg
  by_cases hold : g < S.length / I.compressRatio
  · have hfull : (g + 1) * I.compressRatio ≤ S.length := (Nat.le_div_iff_mul_le I.ratio_pos).mp hold
    rw [LagunaRing.scatter_mapIdx_of_ne _ _ _ fun i _ => by omega, h g hfull, groupKey_append hfull]
  · obtain ⟨i, rfl⟩ : ∃ i, g = S.length / I.compressRatio + i := ⟨g - S.length / I.compressRatio, by omega⟩
    have hi : i < ((range ((S.length + chunk.length) / I.compressRatio - S.length / I.compressRatio)).map
        fun i => I.groupKey (S ++ chunk) (S.length / I.compressRatio + i)).length := by
      rw [length_map, length_range]
      omega
    rw [LagunaRing.scatter_mapIdx c.pooled (S.length / I.compressRatio + ·) (fun _ key => some key)
      (fun a b _ _ hab => by omega) hi, getElem_map, getElem_range]

variable {t : IndexToken V}

theorem getElem?_append_cases (hget : (S ++ chunk)[p]? = some t) :
    p < S.length + chunk.length ∧ (S.length ≤ p → chunk[p - S.length]? = some t) ∧ (p < S.length → S[p]? = some t) := by
  refine ⟨?_, fun hle => ?_, fun hlt => ?_⟩
  · rw [← length_append]
    exact (List.getElem?_eq_some_iff.mp hget).1
  · rwa [getElem?_append_right hle] at hget
  · rwa [getElem?_append_left hlt] at hget

theorem group_start_recorded
    (hopen : ∀ t, S[I.openBase S.length]? = some t → t.recorded) (hnew : ∀ t ∈ chunk, t.recorded)
    (hle : I.openBase S.length ≤ g * I.compressRatio) (hget : (S ++ chunk)[g * I.compressRatio]? = some t) :
    t.recorded := by
  obtain ⟨-, hright, hleft⟩ := getElem?_append_cases hget
  by_cases hge : S.length ≤ g * I.compressRatio
  · exact hnew t (mem_of_getElem? (hright hge))
  · -- Before the rows, the only group start is that of the open group.
    have hdiv := (Nat.le_div_iff_mul_le I.ratio_pos).mpr (Nat.le_of_not_le hge)
    have hsame : g * I.compressRatio = I.openBase S.length := le_antisymm (Nat.mul_le_mul_right _ hdiv) hle
    exact hopen t (hsame ▸ hleft (Nat.lt_of_not_le hge))

theorem Holds.eager (h : I.Holds (I.openBase S.length) S c) {ropeCache : Bool}
    (hrun : I.updateIndexCacheEager c (chunk.map IndexToken.key) S.length ropeCache ropePositions = .ok c')
    (hkind : ∀ ropeRows, (ropePositions.mapM fun positions => normalizeRopePositions positions chunk.length) =
      .ok ropeRows →
      I.eagerPooled c (chunk.map IndexToken.key) S.length ropeRows =
          .ok ((range ((S.length + chunk.length) / I.compressRatio - S.length / I.compressRatio)).map fun g =>
            I.groupKey (S ++ chunk) (S.length / I.compressRatio + g)) ∧
        match ropeRows with
        | none => ∀ t ∈ chunk, t.recorded = false
        | some coords => (range chunk.length).map coords = chunk.map IndexToken.coord) :
    I.Holds (I.openBase (S ++ chunk).length) (S ++ chunk) c' := by
  obtain ⟨hcap, -, ropeRows, pooled, hrows, hpooled, rfl⟩ := eager_inv hrun
  rw [length_map] at hrows
  obtain ⟨hgroups, hmatch⟩ := hkind ropeRows hrows
  obtain rfl := Except.ok.inj (hgroups.symm.trans hpooled)
  constructor
  · exact pooled_append h.pooled
  · intro p t hp hget
    obtain ⟨hlt, hnew, hold⟩ := getElem?_append_cases hget
    rw [length_append] at hp
    refine (eager_ring c.raw (p := p) hcap (by rwa [length_map]) (by rwa [length_map])).trans ?_
    split
    case isTrue hle => rw [getD_eq_getElem?_getD, getElem?_map, hnew hle]; rfl
    case isFalse hlt' => exact h.raw p t ((openBase_mono (Nat.le_add_right _ _)).trans hp) (hold (by omega))
  · intro hm p t hp hget hrecorded
    obtain ⟨hlt, hnew, hold⟩ := getElem?_append_cases hget
    rw [length_append] at hp
    have hearlier (hlt' : p < S.length) : c.rope (p % I.capacity) = t.coord :=
      h.rope hm p t ((openBase_mono (Nat.le_add_right _ _)).trans hp) (hold hlt') hrecorded
    match ropeRows with
    | none =>
      refine hearlier (Nat.lt_of_not_le fun hle => ?_)
      have hnot := hmatch t (mem_of_getElem? (hnew hle))
      exact absurd hrecorded (by rw [hnot]; decide)
    | some coords =>
      have hrope : (range' (chunk.length - min chunk.length I.capacity) (min chunk.length I.capacity)).map coords =
          (chunk.map IndexToken.coord).drop (chunk.length - min chunk.length I.capacity) := by
        rw [← hmatch, ← map_drop, range_eq_range', drop_range', zero_add, mul_one]
        congr 2
        omega
      have hring := eager_ring c.rope (p := p) hcap (by rwa [length_map (f := IndexToken.coord)])
        (by rwa [length_map (f := IndexToken.coord)])
      simp only [length_map] at hring
      simp only [writeRope, length_map, hrope]
      rw [hring]
      split
      case isTrue hle => rw [getD_eq_getElem?_getD, getElem?_map, hnew hle]; rfl
      case isFalse hlt' => exact hearlier (by omega)

theorem fixed_inv {c : IndexCache V} {keys : List V} {positions : List ℕ} {ropeCache : Bool}
    (h : I.updateIndexCacheFixed c keys positions ropeCache ropePositions = .ok c') :
    keys.length = positions.length ∧ I.compressRatio + positions.length ≤ I.capacity ∧
      ropeCache = ropePositions.isSome ∧ ∃ ropeRows pooled,
      (ropePositions.mapM fun given => normalizeRopePositions given keys.length) = .ok ropeRows ∧
      I.fixedPooled c'.raw c'.rope positions ropeCache = .ok pooled ∧
      c'.raw = scatter c.raw ((positions.map (· % I.capacity)).zip keys) ∧
      c'.rope = writeRope c.rope (positions.map (· % I.capacity)) ropeRows (range keys.length) ∧
      c'.pooled = scatter c.pooled ((positions.zip pooled).map fun (p, key) => (p / I.compressRatio, some key)) := by
  unfold updateIndexCacheFixed at h
  by_cases hkeys : keys.length ≠ positions.length
  · rw [if_pos hkeys] at h
    cases h
  rw [if_neg hkeys] at h
  by_cases hcap : I.capacity < I.compressRatio + positions.length
  · simp only [if_pos hcap] at h
    cases h
  simp only [if_neg hcap] at h
  by_cases hrope : ropeCache ≠ ropePositions.isSome
  · simp only [if_pos hrope] at h
    cases h
  simp only [if_neg hrope] at h
  cases hrows : (ropePositions.mapM fun given => normalizeRopePositions given keys.length) with
  | error e => rw [hrows] at h; cases h
  | ok ropeRows =>
    rw [hrows] at h
    cases hpooled : I.fixedPooled (scatter c.raw ((positions.map (· % I.capacity)).zip keys))
        (writeRope c.rope (positions.map (· % I.capacity)) ropeRows (range keys.length)) positions ropeCache with
    | error e =>
      change (I.fixedPooled _ _ positions ropeCache >>= _) = _ at h
      rw [hpooled] at h
      cases h
    | ok pooled =>
      change (I.fixedPooled _ _ positions ropeCache >>= _) = _ at h
      rw [hpooled] at h
      obtain rfl := Except.ok.inj h
      exact ⟨not_not.mp hkeys, not_lt.mp hcap, not_not.mp hrope, ropeRows, pooled, rfl, hpooled, rfl, rfl, rfl⟩

variable {raw : ℕ → V}

theorem group_raw
    (hraw : ∀ p t, base ≤ p → S[p]? = some t → raw (p % I.capacity) = t.key) (hbase : base ≤ g * I.compressRatio)
    (hg : (g + 1) * I.compressRatio ≤ S.length) :
    (range I.compressRatio).map (fun offset => raw ((g * I.compressRatio + offset) % I.capacity)) =
      ((S.drop (g * I.compressRatio)).take I.compressRatio).map IndexToken.key := by
  rw [Nat.succ_mul] at hg
  apply ext_getElem
  · simp
    omega
  · intro offset hoffset _
    have hin : g * I.compressRatio + offset < S.length := by
      simp only [length_map, length_range] at hoffset
      omega
    simp only [getElem_map, getElem_range, getElem_take, getElem_drop]
    exact hraw _ _ (by omega) (getElem?_eq_getElem hin)

def ringKey (I : Indexer) (S : List (IndexToken V)) (raw : ℕ → V) (g : ℕ) : PooledKey V :=
  ⟨(range I.compressRatio).map fun offset => raw ((g * I.compressRatio + offset) % I.capacity),
    if I.mrope then coordAt S (g * I.compressRatio) else axes (g * I.compressRatio)⟩

/-- A call that pools listed groups hands the coordinates of their first tokens over as rows. -/
theorem groupsPooled_rowMajor {rope : ℕ → Rope} {groups : List ℕ} {coord : ℕ → Rope} (hm : I.mrope)
    (hrope : ∀ g ∈ groups, rope (g * I.compressRatio % I.capacity) = coord g) :
    I.groupsPooled raw rope groups = poolKeyGroupsAtPositions
      (groups.map fun g => (range I.compressRatio).map fun offset => raw ((g * I.compressRatio + offset) % I.capacity))
      (rowMajor (groups.map coord)) := by
  have hhead (g : ℕ) : ((range I.compressRatio).map fun offset =>
      (g * I.compressRatio + offset) % I.capacity).headD 0 = g * I.compressRatio % I.capacity := by
    have hpos := I.ratio_pos
    simp [headD_eq_head?_getD, head?_range, ne_of_gt hpos]
  have hcoords : ((groups.map fun g => (range I.compressRatio).map fun offset =>
      (g * I.compressRatio + offset) % I.capacity).map fun group => rope (group.headD 0)) = groups.map coord := by
    rw [map_map]
    exact map_congr_left fun g hg => by rw [comp_apply, hhead, hrope g hg]
  dsimp only [groupsPooled]
  rw [if_pos hm, hcoords, map_map]
  simp only [comp_def, map_map]

theorem groupsPooled_ring {rope : ℕ → Rope} {groups : List ℕ}
    (hrope : I.mrope → ∀ g ∈ groups, rope (g * I.compressRatio % I.capacity) = coordAt S (g * I.compressRatio))
    (hthree : I.mrope → groups.length = 3 → Symmetric (groups.map fun g => coordAt S (g * I.compressRatio))) :
    I.groupsPooled raw rope groups = .ok (groups.map (I.ringKey S raw)) := by
  by_cases hm : I.mrope
  · rw [groupsPooled_rowMajor hm (hrope hm), poolKeyGroups_own (by simp) (by simpa using hthree hm)]
    refine congrArg Except.ok (ext_getElem (by simp) fun i hi _ => ?_)
    have hin : i < groups.length := by simpa using hi
    simp [ringKey, hm, getElem?_eq_getElem hin]
  · dsimp only [groupsPooled]
    rw [if_neg hm, poolKeyGroups_scalar (by simp)]
    refine congrArg Except.ok (ext_getElem (by simp) fun i hi _ => ?_)
    have hin : i < groups.length := by simpa using hi
    simp [ringKey, hm, getElem?_eq_getElem hin]

/-- A fixed update pools the groups of its rows as the rollback pools a list of groups. -/
theorem fixedPooled_eq (raw : ℕ → V) (rope : ℕ → Rope) (positions : List ℕ) :
    I.fixedPooled raw rope positions I.mrope = I.groupsPooled raw rope (positions.map (· / I.compressRatio)) := by
  simp [fixedPooled, groupsPooled, map_map, comp_def]

/-- The ring behind a block of rows holds what it held before them and the rows. -/
theorem block_ring {A : Type} (m : ℕ → A) {xs : List A} {n : ℕ} (hring : n + xs.length ≤ p + I.capacity)
    (hrows : xs.length ≤ I.capacity) (hlt : p < n + xs.length) :
    scatter m (((range' n xs.length).map (· % I.capacity)).zip xs) (p % I.capacity) =
      if n ≤ p then xs.getD (p - n) (m 0) else m (p % I.capacity) := by
  have hcells : (range' n xs.length).map (· % I.capacity) = I.cells n (n + xs.length) := by
    rw [cells, Nat.add_sub_cancel_left]
  rw [hcells]
  split
  case isTrue hnew =>
    obtain ⟨i, rfl⟩ : ∃ i, p = n + i := ⟨p - n, by omega⟩
    rw [ring_write m (by omega) (by omega) (by omega), Nat.add_sub_cancel_left, getD_eq_getElem?_getD,
      getElem?_eq_getElem (by omega), Option.getD_some]
  case isFalse hold => exact ring_keep m (by omega) (by omega) (by omega)

theorem block_ring_get {A : Type} (m : ℕ → A) (f : IndexToken V → A)
    (hring : S.length + chunk.length ≤ p + I.capacity) (hrows : chunk.length ≤ I.capacity)
    (hget : (S ++ chunk)[p]? = some t) (hkept : S[p]? = some t → m (p % I.capacity) = f t) :
    scatter m (((range' S.length chunk.length).map (· % I.capacity)).zip (chunk.map f)) (p % I.capacity) = f t := by
  obtain ⟨hlt, hnew, hold⟩ := getElem?_append_cases hget
  have hlen : (chunk.map f).length = chunk.length := length_map f
  rw [← hlen] at hring hrows hlt ⊢
  rw [block_ring m hring hrows hlt]
  split
  case isTrue hle => rw [getD_eq_getElem?_getD, getElem?_map, hnew hle]; rfl
  case isFalse hgt => exact hkept (hold (by omega))

theorem Holds.fixed (h : I.Holds base S c) (hopen : base ≤ I.openBase S.length)
    (hring : S.length + chunk.length ≤ base + I.capacity)
    (hrun : I.updateIndexCacheFixed c (chunk.map IndexToken.key) (range' S.length chunk.length) I.mrope
      ropePositions = .ok c')
    (hcoords : ∀ coords, (ropePositions.mapM fun given => normalizeRopePositions given chunk.length) =
      .ok (some coords) → (range chunk.length).map coords = chunk.map IndexToken.coord)
    (hrecorded : I.mrope → ∀ t, S[I.openBase S.length]? = some t → t.recorded)
    (hnew : I.mrope → ∀ t ∈ chunk, t.recorded)
    (hplain : I.mrope = false → ∀ g, (g + 1) * I.compressRatio ≤ (S ++ chunk).length →
      coordAt (S ++ chunk) (g * I.compressRatio) = axes (g * I.compressRatio))
    (hthree : I.mrope → chunk.length = 3 → Symmetric ((range' S.length chunk.length).map fun p =>
      coordAt (S ++ chunk) (I.openBase p))) :
    I.Holds base (S ++ chunk) c' := by
  obtain ⟨-, hcap, hboth, ropeRows, pooled, hrows, hpooled, hraw, hrope, hgroups⟩ := fixed_inv hrun
  rw [length_range'] at hcap
  rw [length_map] at hrows
  have hkeys : ∀ p t, base ≤ p → (S ++ chunk)[p]? = some t → c'.raw (p % I.capacity) = t.key := by
    intro p t hp hget
    rw [hraw]
    exact block_ring_get c.raw IndexToken.key (by omega) (by omega) hget (h.raw p t hp)
  have hropes : I.mrope → ∀ p t, base ≤ p → (S ++ chunk)[p]? = some t → t.recorded →
      c'.rope (p % I.capacity) = t.coord := by
    intro hm p t hp hget hknown
    obtain ⟨coords, rfl⟩ : ∃ coords, ropeRows = some coords := by
      rw [hm] at hboth
      cases ropePositions with
      | none => cases hboth
      | some given =>
        cases hgiven : normalizeRopePositions given chunk.length with
        | error e => rw [Option.mapM_some, hgiven] at hrows; cases hrows
        | ok coords => rw [Option.mapM_some, hgiven] at hrows; exact ⟨coords, (Except.ok.inj hrows).symm⟩
    rw [hrope, writeRope, length_map, hcoords coords hrows]
    exact block_ring_get c.rope IndexToken.coord (by omega) (by omega) hget fun hold => h.rope hm p t hp hold hknown
  have hbase : ∀ g ∈ (range' S.length chunk.length).map (· / I.compressRatio),
      I.openBase S.length ≤ g * I.compressRatio ∧ g * I.compressRatio < S.length + chunk.length := by
    intro g hg
    obtain ⟨p, hp, rfl⟩ := mem_map.mp hg
    rw [mem_range'_1] at hp
    exact ⟨openBase_mono hp.1, (I.openBase_le p).trans_lt hp.2⟩
  rw [fixedPooled_eq, groupsPooled_ring (S := S ++ chunk)] at hpooled
  rotate_left
  · intro hm g hg
    obtain ⟨hle, hlt⟩ := hbase g hg
    have hin : g * I.compressRatio < (S ++ chunk).length := by rwa [length_append]
    obtain ⟨t, hget⟩ : ∃ t, (S ++ chunk)[g * I.compressRatio]? = some t := ⟨_, getElem?_eq_getElem hin⟩
    rw [hropes hm _ _ (hopen.trans hle) hget, coordAt, hget]
    · rfl
    · exact group_start_recorded (hrecorded hm) (hnew hm) hle hget
  · intro hm hlen
    rw [map_map]
    exact hthree hm (by simpa using hlen)
  obtain rfl := Except.ok.inj hpooled
  have hscatter : c'.pooled = scatter c.pooled (((range' S.length chunk.length).map (· / I.compressRatio)).map
      fun g => (g, some (I.ringKey (S ++ chunk) c'.raw g))) := by
    rw [hgroups]
    exact congrArg _ (ext_getElem (by simp) fun i _ _ => by simp)
  refine ⟨fun g hg => ?_, hkeys, hropes⟩
  rw [hscatter, LagunaRing.scatter_map_key]
  split
  case isTrue hmem =>
    obtain ⟨hle, -⟩ := hbase g hmem
    rw [ringKey, groupKey, group_raw hkeys (hopen.trans hle) hg]
    congr 2
    split
    case isTrue hm => rfl
    case isFalse hm => exact (hplain (by simpa using hm) g hg).symm
  case isFalse hmem =>
    have hfull : (g + 1) * I.compressRatio ≤ S.length := by
      by_contra hlt
      have hpos := I.ratio_pos
      rw [length_append, Nat.succ_mul] at hg
      rw [Nat.succ_mul] at hlt
      refine hmem (mem_map.mpr ⟨g * I.compressRatio + I.compressRatio - 1, ?_, ?_⟩)
      · rw [mem_range'_1]
        omega
      · exact Nat.div_eq_of_lt_le (by omega) (by rw [Nat.succ_mul]; omega)
    rw [h.pooled g hfull, groupKey_append hfull]

theorem Holds.mono {base' : ℕ} (h : I.Holds base S c) (hle : base ≤ base') : I.Holds base' S c :=
  ⟨h.pooled, fun p t hp => h.raw p t (hle.trans hp), fun hm p t hp => h.rope hm p t (hle.trans hp)⟩

/-- The groups that the rollback pools again. -/
def completeGroups (I : Indexer) (pastLen rows committedEnd : ℕ) : List ℕ :=
  (range' (pastLen / I.compressRatio) ((pastLen + rows + I.compressRatio - 1) / I.compressRatio -
    pastLen / I.compressRatio)).filter fun g => g * I.compressRatio + I.compressRatio ≤ committedEnd

theorem mem_completeGroups {pastLen rows committedEnd : ℕ} (hle : committedEnd ≤ pastLen + rows) :
    g ∈ I.completeGroups pastLen rows committedEnd ↔
      pastLen / I.compressRatio ≤ g ∧ (g + 1) * I.compressRatio ≤ committedEnd := by
  have hpos := I.ratio_pos
  rw [completeGroups, mem_filter, mem_range'_1, Nat.succ_mul, decide_eq_true_eq]
  constructor
  · rintro ⟨⟨hfirst, -⟩, hend⟩
    exact ⟨hfirst, hend⟩
  · rintro ⟨hfirst, hend⟩
    have hlast : g < (pastLen + rows + I.compressRatio - 1) / I.compressRatio := by
      rw [Nat.lt_iff_add_one_le, Nat.le_div_iff_mul_le hpos, Nat.succ_mul]
      omega
    exact ⟨⟨hfirst, by omega⟩, hend⟩

theorem rollback_inv [Zero V] {c : IndexCache V} {pastLen rows committedEnd : ℕ}
    (h : I.rollbackSpeculativeQsa c pastLen rows committedEnd = .ok c') :
    pastLen ≤ committedEnd ∧ committedEnd ≤ pastLen + rows ∧
      ((committedEnd = pastLen + rows ∧ c' = c) ∨ (committedEnd < pastLen + rows ∧
        c'.raw = scatter c.raw ((I.cells committedEnd (pastLen + rows)).map fun cell => (cell, 0)) ∧
        c'.rope = (if I.mrope then
          scatter c.rope ((I.cells committedEnd (pastLen + rows)).map fun cell => (cell, axes 0)) else c.rope) ∧
        ∃ pooled, ∃ incomplete : List ℕ, (if I.completeGroups pastLen rows committedEnd = [] then .ok []
            else I.groupsPooled c'.raw c'.rope (I.completeGroups pastLen rows committedEnd)) = .ok pooled ∧
          (∀ g ∈ incomplete, ¬g * I.compressRatio + I.compressRatio ≤ committedEnd) ∧
          c'.pooled = scatter (scatter c.pooled
            ((I.completeGroups pastLen rows committedEnd).zip (pooled.map some))) (incomplete.map fun g => (g, none)))) := by
  unfold rollbackSpeculativeQsa at h
  by_cases hrange : ¬(pastLen ≤ committedEnd ∧ committedEnd ≤ pastLen + rows)
  · rw [if_pos hrange] at h
    cases h
  rw [if_neg hrange] at h
  obtain ⟨hlow, hhigh⟩ := not_not.mp hrange
  refine ⟨hlow, hhigh, ?_⟩
  by_cases hall : committedEnd = pastLen + rows
  · simp only [if_pos hall] at h
    exact .inl ⟨hall, (Except.ok.inj h).symm⟩
  · simp only [if_neg hall] at h
    refine .inr ⟨by omega, ?_⟩
    have hincomplete (g : ℕ) (hg : g ∈ (range' (pastLen / I.compressRatio)
        ((pastLen + rows + I.compressRatio - 1) / I.compressRatio - pastLen / I.compressRatio)).filter
          fun g => ¬g * I.compressRatio + I.compressRatio ≤ committedEnd) :
        ¬g * I.compressRatio + I.compressRatio ≤ committedEnd := by
      simpa using (mem_filter.mp hg).2
    by_cases hnone : I.completeGroups pastLen rows committedEnd = []
    · have hcomplete := hnone
      unfold completeGroups at hnone
      rw [if_pos hnone] at h
      obtain rfl := Except.ok.inj h
      exact ⟨rfl, rfl, [], _, if_pos hcomplete, hincomplete, by rw [hcomplete]; simp [hnone]⟩
    · have hcomplete := hnone
      unfold completeGroups at hnone
      rw [if_neg hnone] at h
      cases hpooled : I.groupsPooled (scatter c.raw ((I.cells committedEnd (pastLen + rows)).map fun cell => (cell, 0)))
          (if I.mrope then
            scatter c.rope ((I.cells committedEnd (pastLen + rows)).map fun cell => (cell, axes 0)) else c.rope)
          (I.completeGroups pastLen rows committedEnd) with
      | error e =>
        change (I.groupsPooled _ _ (I.completeGroups pastLen rows committedEnd) >>= _) = _ at h
        rw [hpooled] at h
        cases h
      | ok pooled =>
        change (I.groupsPooled _ _ (I.completeGroups pastLen rows committedEnd) >>= _) = _ at h
        rw [hpooled] at h
        obtain rfl := Except.ok.inj h
        exact ⟨rfl, rfl, pooled, _, by rw [if_neg hcomplete]; exact hpooled, hincomplete, rfl⟩

/-- A block that is rolled back to its accepted rows. -/
theorem Holds.rollback [Zero V] (h : I.Holds (I.openBase S.length) (S ++ chunk) c) {accepted : ℕ}
    (hrun : I.rollbackSpeculativeQsa c S.length chunk.length (S.length + accepted) = .ok c')
    (hring : S.length + chunk.length ≤ I.openBase S.length + I.capacity)
    (hopen : I.mrope → ∀ t, S[I.openBase S.length]? = some t → t.recorded)
    (hnew : I.mrope → ∀ t ∈ chunk, t.recorded)
    (hplain : I.mrope = false → ∀ g, (g + 1) * I.compressRatio ≤ S.length + accepted →
      coordAt (S ++ chunk.take accepted) (g * I.compressRatio) = axes (g * I.compressRatio))
    (hthree : I.mrope → accepted < chunk.length →
      (I.completeGroups S.length chunk.length (S.length + accepted)).length = 3 →
        Symmetric ((I.completeGroups S.length chunk.length (S.length + accepted)).map fun g =>
          coordAt (S ++ chunk.take accepted) (g * I.compressRatio))) :
    I.Holds (I.openBase (S ++ chunk.take accepted).length) (S ++ chunk.take accepted) c' := by
  obtain ⟨-, hle, hcase⟩ := rollback_inv hrun
  have hshort : S ++ chunk.take accepted = (S ++ chunk).take (S.length + accepted) := by
    rw [take_length_add_append]
  have hlen : (S ++ chunk.take accepted).length = S.length + accepted := by
    rw [length_append, length_take]
    omega
  rcases hcase with ⟨hall, rfl⟩ | ⟨hlt, hraw, hrope, pooled, incomplete, hpooled, hincomplete, hgroups⟩
  · have htake : chunk.take accepted = chunk := take_of_length_le (by omega)
    rw [htake]
    exact h.mono (openBase_mono (by rw [length_append]; omega))
  have hopenle := I.openBase_le S.length
  have hopenlt := I.lt_openBase_add S.length
  have hkeep {A : Type} (m : ℕ → A) (value : A) {p : ℕ} (hp : I.openBase S.length ≤ p) (hlt' : p < S.length + accepted) :
      scatter m ((I.cells (S.length + accepted) (S.length + chunk.length)).map fun cell => (cell, value))
        (p % I.capacity) = m (p % I.capacity) := by
    refine scatter_of_notMem m _ ?_
    rw [map_map, mem_map]
    rintro ⟨cell, hcell, heq⟩
    obtain ⟨q, hq, rfl⟩ := mem_map.mp hcell
    rw [mem_range'_1] at hq
    have hsame := LagunaRing.mod_inj heq (by omega) (by omega)
    omega
  have hkeys : ∀ p t, I.openBase S.length ≤ p → (S ++ chunk.take accepted)[p]? = some t →
      c'.raw (p % I.capacity) = t.key := by
    intro p t hp hget
    have hin : p < S.length + accepted := hlen ▸ (List.getElem?_eq_some_iff.mp hget).1
    rw [hshort, getElem?_take_of_lt hin] at hget
    rw [hraw, hkeep c.raw 0 hp hin, h.raw p t hp hget]
  have hropes : I.mrope → ∀ p t, I.openBase S.length ≤ p → (S ++ chunk.take accepted)[p]? = some t → t.recorded →
      c'.rope (p % I.capacity) = t.coord := by
    intro hm p t hp hget hrec
    have hin : p < S.length + accepted := hlen ▸ (List.getElem?_eq_some_iff.mp hget).1
    rw [hshort, getElem?_take_of_lt hin] at hget
    rw [hrope, if_pos hm, hkeep c.rope _ hp hin, h.rope hm p t hp hget hrec]
  have hmem {g : ℕ} : g ∈ I.completeGroups S.length chunk.length (S.length + accepted) ↔
      S.length / I.compressRatio ≤ g ∧ (g + 1) * I.compressRatio ≤ S.length + accepted := mem_completeGroups hle
  have hpooled' : pooled = (I.completeGroups S.length chunk.length (S.length + accepted)).map
      (I.ringKey (S ++ chunk.take accepted) c'.raw) := by
    rw [groupsPooled_ring (S := S ++ chunk.take accepted)] at hpooled
    · split at hpooled
      case isTrue hnone => rw [hnone]; exact (Except.ok.inj hpooled).symm
      case isFalse => exact (Except.ok.inj hpooled).symm
    · intro hm g hg
      obtain ⟨hfirst, hend⟩ := hmem.mp hg
      have hpos := I.ratio_pos
      rw [Nat.succ_mul] at hend
      have hin : g * I.compressRatio < (S ++ chunk.take accepted).length := by omega
      obtain ⟨t, hget⟩ : ∃ t, (S ++ chunk.take accepted)[g * I.compressRatio]? = some t :=
        ⟨_, getElem?_eq_getElem hin⟩
      have hbase : I.openBase S.length ≤ g * I.compressRatio := Nat.mul_le_mul_right _ hfirst
      rw [hropes hm _ t hbase hget (group_start_recorded (hopen hm)
        (fun t ht => hnew hm t (mem_of_mem_take ht)) hbase hget), coordAt, hget]
      rfl
    · exact fun hm => hthree hm (by omega)
  refine ⟨fun g hg => ?_, fun p t hp => hkeys p t ((openBase_mono (by omega)).trans hp),
    fun hm p t hp => hropes hm p t ((openBase_mono (by omega)).trans hp)⟩
  rw [hlen] at hg
  have hnotmem : g ∉ (incomplete.map fun g => (g, (none : Option (PooledKey V)))).map Prod.fst := by
    rw [map_map]
    intro hin
    obtain ⟨g', hg', rfl⟩ := mem_map.mp hin
    exact hincomplete _ hg' (by rwa [← Nat.succ_mul])
  have hzip : (I.completeGroups S.length chunk.length (S.length + accepted)).zip (pooled.map some) =
      (I.completeGroups S.length chunk.length (S.length + accepted)).map fun g =>
        (g, some (I.ringKey (S ++ chunk.take accepted) c'.raw g)) := by
    rw [hpooled']
    exact ext_getElem (by simp) fun i _ _ => by simp
  rw [hgroups, scatter_of_notMem _ _ hnotmem, hzip, LagunaRing.scatter_map_key]
  split
  case isTrue hin =>
    obtain ⟨hfirst, -⟩ := hmem.mp hin
    have hbase : I.openBase S.length ≤ g * I.compressRatio := Nat.mul_le_mul_right _ hfirst
    rw [ringKey, groupKey, group_raw hkeys hbase (by rwa [hlen])]
    congr 2
    split
    case isTrue => rfl
    case isFalse hm => exact (hplain (by simpa using hm) g hg).symm
  case isFalse hout =>
    have hfull : (g + 1) * I.compressRatio ≤ S.length := by
      by_contra hlong
      refine hout (hmem.mpr ⟨?_, hg⟩)
      by_contra hshort'
      exact hlong ((Nat.le_div_iff_mul_le I.ratio_pos).mp (by omega))
    rw [h.pooled g (hfull.trans (by rw [length_append]; omega)), groupKey_append hfull, groupKey_append hfull]

end Indexer

end FlashNext
