import Mathlib.Data.List.Nodup

/-!
# Ordered dictionaries

A dictionary that keeps its keys in insertion order, with the operations that make
it a queue of least recent use: a key is moved to the end, and the oldest entries are
dropped. Every operation is described by its lookups.
-/

structure OrderedDict (K V : Type) where
  entries : List (K × V)
  nodup : (entries.map Prod.fst).Nodup

namespace OrderedDict

open List

variable {K V : Type} [DecidableEq K]
variable {d : OrderedDict K V} {pairs : List (K × V)}

def empty : OrderedDict K V := ⟨[], nodup_nil⟩

def size (d : OrderedDict K V) : Nat := d.entries.length

def keys (d : OrderedDict K V) : List K := d.entries.map Prod.fst

def get? (d : OrderedDict K V) (k : K) : Option V := (d.entries.find? (·.1 = k)).map Prod.snd

theorem get?_eq_some {k : K} {v : V} : d.get? k = some v ↔ (k, v) ∈ d.entries := by
  obtain ⟨entries, hnodup⟩ := d
  simp only [get?]
  induction entries with
  | nil => simp
  | cons e entries ih =>
    rw [map_cons, nodup_cons] at hnodup
    by_cases hkey : e.1 = k
    · rw [find?_cons_of_pos (by simpa using hkey), Option.map_some, Option.some.injEq, mem_cons]
      constructor
      · intro hv
        exact .inl (Prod.ext hkey.symm hv.symm)
      · rintro (rfl | hmem)
        · rfl
        · exact absurd (hkey ▸ mem_map_of_mem hmem) hnodup.1
    · rw [find?_cons_of_neg (by simpa using hkey), ih hnodup.2, mem_cons]
      exact ⟨.inr, fun h => h.resolve_left fun heq => hkey (congrArg Prod.fst heq).symm⟩

/-- Two dictionaries with the same lookups at a key, from the membership of its entries. -/
theorem get?_congr {d' : OrderedDict K V} {k k' : K} (h : ∀ v, (k, v) ∈ d.entries ↔ (k', v) ∈ d'.entries) :
    d.get? k = d'.get? k' :=
  Option.ext fun v => by rw [get?_eq_some, get?_eq_some, h v]

/-- `d[k] = v`: an existing key keeps its place. -/
def set (d : OrderedDict K V) (k : K) (v : V) : OrderedDict K V :=
  if h : k ∈ d.keys then
    ⟨d.entries.map fun e => if e.1 = k then (k, v) else e, by
      have hkeys : (d.entries.map fun e => if e.1 = k then (k, v) else e).map Prod.fst = d.keys := by
        rw [map_map, keys]
        refine map_congr_left fun e _ => ?_
        by_cases he : e.1 = k <;> simp [he]
      rw [hkeys]
      exact d.nodup⟩
  else
    ⟨d.entries ++ [(k, v)], by
      rw [map_append]
      exact d.nodup.append (nodup_singleton k) (by simpa [keys] using h)⟩

theorem get?_set (d : OrderedDict K V) (k : K) (v : V) (k' : K) :
    (d.set k v).get? k' = if k' = k then some v else d.get? k' := by
  unfold set
  by_cases hkeys : k ∈ d.keys
  · rw [dif_pos hkeys]
    by_cases hk : k' = k
    · subst hk
      rw [if_pos rfl, get?_eq_some]
      obtain ⟨e, hmem, rfl⟩ := mem_map.mp hkeys
      exact mem_map.mpr ⟨e, hmem, if_pos rfl⟩
    · rw [if_neg hk]
      refine get?_congr fun w => ?_
      constructor
      · intro hmem
        obtain ⟨e, he, heq⟩ := mem_map.mp hmem
        by_cases hek : e.1 = k
        · rw [if_pos hek] at heq
          exact absurd (congrArg Prod.fst heq).symm hk
        · rw [if_neg hek] at heq
          exact heq ▸ he
      · intro hmem
        exact mem_map.mpr ⟨(k', w), hmem, if_neg hk⟩
  · rw [dif_neg hkeys]
    by_cases hk : k' = k
    · subst hk
      rw [if_pos rfl, get?_eq_some]
      simp
    · rw [if_neg hk]
      refine get?_congr fun w => ?_
      simp [hk]

/-- `d.move_to_end(k)` of a key that is there. -/
def moveToEnd (d : OrderedDict K V) (k : K) : OrderedDict K V :=
  match d.get? k with
  | none => d
  | some v =>
    ⟨d.entries.filter (·.1 ≠ k) ++ [(k, v)], by
      rw [map_append]
      refine (d.nodup.sublist (filter_sublist.map _)).append (nodup_singleton k) ?_
      simp⟩

@[simp] theorem get?_moveToEnd (d : OrderedDict K V) (k k' : K) : (d.moveToEnd k).get? k' = d.get? k' := by
  unfold moveToEnd
  split
  · rfl
  · rename_i v hv
    refine get?_congr fun w => ?_
    by_cases hk : k' = k
    · subst hk
      have hw : (k', w) ∈ d.entries ↔ w = v := by rw [← get?_eq_some, hv, Option.some_inj, eq_comm]
      rw [hw]
      simp
    · simp [hk]

/-- `while len(d) > cap: d.popitem(last=False)`. -/
def trim (d : OrderedDict K V) (cap : Nat) : OrderedDict K V :=
  ⟨d.entries.drop (d.size - cap), d.nodup.sublist ((drop_sublist _ _).map _)⟩

theorem get?_of_trim {cap : Nat} {k : K} {v : V} (h : (d.trim cap).get? k = some v) :
    d.get? k = some v := by
  rw [get?_eq_some] at h ⊢
  exact mem_of_mem_drop h

/-- The entry is the newest, and the oldest are dropped beyond `cap`. -/
def refresh (d : OrderedDict K V) (cap : Nat) (k : K) (v : V) : OrderedDict K V := ((d.set k v).moveToEnd k).trim cap

theorem get?_of_refresh {cap : Nat} {k k' : K} {v w : V}
    (h : (d.refresh cap k v).get? k' = some w) : (k' = k ∧ w = v) ∨ d.get? k' = some w := by
  have hset := get?_of_trim h
  rw [get?_moveToEnd, get?_set] at hset
  by_cases hk : k' = k
  · rw [if_pos hk, Option.some_inj] at hset
    exact .inl ⟨hk, hset.symm⟩
  · rw [if_neg hk] at hset
    exact .inr hset

/-- `d.update(pairs)`. -/
def update (d : OrderedDict K V) (pairs : List (K × V)) : OrderedDict K V :=
  pairs.foldl (fun d e => d.set e.1 e.2) d

@[simp] theorem update_nil (d : OrderedDict K V) : d.update [] = d := rfl

@[simp] theorem update_cons (d : OrderedDict K V) (e : K × V) (pairs : List (K × V)) :
    d.update (e :: pairs) = (d.set e.1 e.2).update pairs := rfl

/-- What is looked up after an update is of one of its pairs, or was there before and is named by none. -/
theorem get?_of_update {k : K} {v : V}
    (h : (d.update pairs).get? k = some v) : (k, v) ∈ pairs ∨ (k ∉ pairs.map Prod.fst ∧ d.get? k = some v) := by
  induction pairs generalizing d with
  | nil => exact .inr ⟨not_mem_nil, h⟩
  | cons e pairs ih =>
    rw [update_cons] at h
    obtain hmem | ⟨hnot, hget⟩ := ih h
    · exact .inl (mem_cons_of_mem _ hmem)
    · rw [get?_set] at hget
      by_cases hk : k = e.1
      · rw [if_pos hk] at hget
        have he : (k, v) = e := Prod.ext hk (Option.some.inj hget).symm
        exact .inl (he ▸ mem_cons_self)
      · rw [if_neg hk] at hget
        exact .inr ⟨by simp [hk, hnot], hget⟩

/-- An update answers for every key that was there and every key it names. -/
theorem isSome_update {k : K}
    (h : k ∈ pairs.map Prod.fst ∨ (d.get? k).isSome) : ((d.update pairs).get? k).isSome := by
  induction pairs generalizing d with
  | nil => exact h.resolve_left not_mem_nil
  | cons e pairs ih =>
    rw [update_cons]
    apply ih
    rw [map_cons, mem_cons, or_assoc] at h
    obtain hk | hmem | hget := h
    · exact .inr (by rw [get?_set, if_pos hk]; rfl)
    · exact .inl hmem
    · right
      rw [get?_set]
      split
      · rfl
      · exact hget

/-- Pairs with different keys are all found afterwards. -/
theorem get?_update_of_nodup {k : K} {v : V}
    (hnodup : (pairs.map Prod.fst).Nodup) (hmem : (k, v) ∈ pairs) : (d.update pairs).get? k = some v := by
  have hkey : k ∈ pairs.map Prod.fst := mem_map_of_mem hmem
  obtain ⟨w, hw⟩ := Option.isSome_iff_exists.mp (isSome_update (d := d) (.inl hkey))
  obtain hfound | ⟨hnot, -⟩ := get?_of_update hw
  · obtain rfl : v = w := congrArg Prod.snd (inj_on_of_nodup_map hnodup hmem hfound rfl)
    exact hw
  · exact absurd hkey hnot

/-- Pairs with keys of their own stand behind what was there. -/
theorem entries_update_of_nodup
    (hnodup : (d.keys ++ pairs.map Prod.fst).Nodup) : (d.update pairs).entries = d.entries ++ pairs := by
  induction pairs generalizing d with
  | nil => rw [update_nil, append_nil]
  | cons e pairs ih =>
    have hnew : e.1 ∉ d.keys := fun hmem =>
      (nodup_append.mp hnodup).2.2 e.1 hmem e.1 (by rw [map_cons]; exact mem_cons_self) rfl
    have hset : (d.set e.1 e.2).entries = d.entries ++ [e] := by rw [set, dif_neg hnew]
    have hkeys : (d.set e.1 e.2).keys = d.keys ++ [e.1] := by rw [keys, hset, map_append]; rfl
    rw [update_cons, ih, hset, append_assoc, singleton_append]
    rw [hkeys, append_assoc, singleton_append]
    exact hnodup

/-- Every value is replaced in place. -/
def mapValues (d : OrderedDict K V) (f : K → V → V) : OrderedDict K V :=
  ⟨d.entries.map fun e => (e.1, f e.1 e.2), by
    rw [map_map]
    exact d.nodup⟩

theorem get?_mapValues (d : OrderedDict K V) (f : K → V → V) (k : K) :
    (d.mapValues f).get? k = (d.get? k).map (f k) := by
  refine Option.ext fun v => ?_
  simp only [get?_eq_some, mapValues, mem_map, Prod.mk.injEq, Option.map_eq_some_iff]
  constructor
  · rintro ⟨e, hmem, rfl, rfl⟩
    exact ⟨e.2, hmem, rfl⟩
  · rintro ⟨w, hmem, rfl⟩
    exact ⟨(k, w), hmem, rfl, rfl⟩

end OrderedDict
