import Mathlib.Data.List.Dedup
import BlackweLLM.CheckpointPool

/-!
# Calls of the checkpoint pool

The methods of `RecurrentStatePool` in `runtime/recurrent_state_pool.py`. Every method
tests before it changes anything, so a call that raises leaves the pool as it was. A
budget eviction takes the oldest evictable keys, as few as the budget asks for, and
tells the owner once a key.
-/

namespace CheckpointPool

open List Function

inductive PoolError (Key : Type) where
  | alreadyRegistered (key : Key)
  | touchUnregistered (key : Key)
  | pinUnregistered (key : Key)
  | evictPinned (key : Key)
  | keyError (key : Key)
  deriving DecidableEq, Repr

/-- The calls that `evict` makes: `should_drop_kv_hash` and `drop_kv_hash`. -/
inductive Told (Key : Type) where
  | ask (key : Key)
  | drop (key : Key)
  deriving DecidableEq, Repr

/-- The callbacks for one key. `none` stands for a pool that lacks one of the two. -/
def tell {Key : Type} (shouldDrop : Option (Key → Bool)) (key : Key) : List (Told Key) :=
  match shouldDrop with
  | none => []
  | some should => if should key then [.ask key, .drop key] else [.ask key]

variable {Key Hash : Type} [DecidableEq Key]

def Pool.keys (p : Pool Key Hash) : List Key := p.records.map Prod.fst

/-- `self._meta[key].nbytes` -/
def Pool.nbytes? (p : Pool Key Hash) (key : Key) : Option Nat :=
  (p.records.find? (·.1 = key)).map fun record => record.2.nbytes

def includes (includePinned : Option (Key → Bool)) (key : Key) : Bool :=
  match includePinned with
  | none => false
  | some test => test key

def Pool.touchKey (p : Pool Key Hash) (key : Key) : Except (PoolError Key) (Pool Key Hash) :=
  if p.contains key then .ok (p.touch key) else .error (.touchUnregistered key)

def Pool.pinKey (p : Pool Key Hash) (key : Key) : Except (PoolError Key) (Pool Key Hash) :=
  if p.contains key then .ok (p.pin key) else .error (.pinUnregistered key)

section Methods

variable [DecidableEq Hash] (shouldDrop : Option (Key → Bool))

def Pool.registerKey (p : Pool Key Hash) (key : Key) (info : CheckpointMeta Hash) :
    Except (PoolError Key) (Pool Key Hash) :=
  if p.contains key then .error (.alreadyRegistered key) else .ok (p.register key info)

def Pool.evict (p : Pool Key Hash) (key : Key) : Except (PoolError Key) (Pool Key Hash × List (Told Key)) :=
  if key ∈ p.pinned ∧ p.contains key then .error (.evictPinned key)
  else if p.contains key then .ok (p.forget key, tell shouldDrop key)
  else .ok (p, [])

/-- The loop of `evict_for_budget` over a snapshot of the keys. -/
def sweep (incoming : Nat) (includePinned : Option (Key → Bool)) :
    List Key → Nat → Pool Key Hash → List (Told Key) → Except (PoolError Key) (Pool Key Hash × List (Told Key))
  | [], _, p, told => .ok (p, told)
  | key :: keys, total, p, told =>
    if total + incoming ≤ p.byteBudget then .ok (p, told)
    else if key ∈ p.pinned ∧ includes includePinned key = false then sweep incoming includePinned keys total p told
    else
      let unpinned := if key ∈ p.pinned then p.unpin key else p
      match unpinned.nbytes? key, unpinned.evict shouldDrop key with
      | none, _ => .error (.keyError key)
      | some _, .error e => .error e
      | some nbytes, .ok (rest, more) => sweep incoming includePinned keys (total - nbytes) rest (told ++ more)

def Pool.evictForBudget (p : Pool Key Hash) (incoming : Nat) (includePinned : Option (Key → Bool)) :
    Except (PoolError Key) (Pool Key Hash × List (Told Key)) :=
  sweep shouldDrop incoming includePinned p.keys p.totalBytes p []

inductive Call (Key Hash : Type) where
  | register (key : Key) (info : CheckpointMeta Hash)
  | touch (key : Key)
  | pin (key : Key)
  | unpin (key : Key)
  | evict (key : Key)
  | evictForBudget (incoming : Nat) (includePinned : Option (Key → Bool))

/-- The pool after a call; an error keeps the pool. -/
def step (p : Pool Key Hash) : Call Key Hash → Pool Key Hash
  | .register key info => (p.registerKey key info).toOption.getD p
  | .touch key => (p.touchKey key).toOption.getD p
  | .pin key => (p.pinKey key).toOption.getD p
  | .unpin key => p.unpin key
  | .evict key => ((p.evict shouldDrop key).toOption.map Prod.fst).getD p
  | .evictForBudget incoming includePinned =>
    ((p.evictForBudget shouldDrop incoming includePinned).toOption.map Prod.fst).getD p

def run (p : Pool Key Hash) (calls : List (Call Key Hash)) : Pool Key Hash := calls.foldl (step shouldDrop) p

end Methods

/-- Each key is registered once, and only registered keys are pinned. -/
structure Sound (p : Pool Key Hash) : Prop where
  nodup : p.keys.Nodup
  pinned : ∀ key ∈ p.pinned, p.contains key

/-- One of the keys `gone` is registered under the hash. -/
def Pool.Loses (p : Pool Key Hash) (gone : List Key) (hash : Hash) : Prop :=
  ∃ record ∈ p.records, record.1 ∈ gone ∧ record.2.hashValue = hash

instance [DecidableEq Hash] (p : Pool Key Hash) (gone : List Key) (hash : Hash) : Decidable (p.Loses gone hash) :=
  inferInstanceAs (Decidable (∃ record ∈ p.records, record.1 ∈ gone ∧ record.2.hashValue = hash))

def Pool.without [DecidableEq Hash] (p : Pool Key Hash) (gone : List Key) : Pool Key Hash :=
  { p with
    records := p.records.filter (·.1 ∉ gone)
    byHash := fun hash => if p.Loses gone hash then none else p.byHash hash
    pinned := p.pinned.filter (· ∉ gone) }

/-- The records that a budget eviction may take, the oldest first. -/
def Pool.evictable (p : Pool Key Hash) (includePinned : Option (Key → Bool)) : List (Key × CheckpointMeta Hash) :=
  p.records.filter fun record => ¬(record.1 ∈ p.pinned ∧ includes includePinned record.1 = false)

def Pool.oldest (p : Pool Key Hash) (includePinned : Option (Key → Bool)) (n : Nat) : List Key :=
  ((p.evictable includePinned).take n).map Prod.fst

def sizes (records : List (Key × CheckpointMeta Hash)) : Nat := (records.map fun record => record.2.nbytes).sum

variable {p : Pool Key Hash} {key : Key} {incoming : Nat} {includePinned : Option (Key → Bool)}

omit [DecidableEq Key] in
theorem contains_iff : p.contains key ↔ key ∈ p.keys := by
  simp [Pool.contains, Pool.keys]

omit [DecidableEq Key] in
theorem Sound.start (byteBudget : Nat) : Sound (start byteBudget : Pool Key Hash) :=
  ⟨nodup_nil, fun _ h => absurd h not_mem_nil⟩

/-- The record of a key is the only one found for it. -/
theorem find_record (h : p.keys.Nodup) {record : Key × CheckpointMeta Hash} (hmem : record ∈ p.records) :
    p.records.find? (·.1 = record.1) = some record := by
  obtain ⟨found, hfind⟩ : ∃ found, p.records.find? (·.1 = record.1) = some found := by
    rw [← Option.isSome_iff_exists, find?_isSome]
    exact ⟨record, hmem, by simp⟩
  have hfound : found.1 = record.1 := by simpa using find?_some hfind
  rw [hfind, inj_on_of_nodup_map h (mem_of_find?_eq_some hfind) hmem hfound]

variable [DecidableEq Hash]

/-- `evict` of one unpinned key. -/
theorem forget_eq_without (h : p.keys.Nodup) (hkey : p.contains key) (hpinned : key ∉ p.pinned) :
    p.forget key = p.without [key] := by
  obtain ⟨record, hmem, rfl⟩ := hkey
  have hpins : p.pinned.filter (fun other => decide ¬other = record.1) = p.pinned := by
    rw [filter_eq_self]
    intro other hother
    have hne : other ≠ record.1 := fun heq => hpinned (heq ▸ hother)
    simpa using hne
  have hindex : update p.byHash record.2.hashValue none = fun hash =>
      if p.Loses [record.1] hash then none else p.byHash hash := by
    funext hash
    rw [update_apply]
    by_cases hhash : hash = record.2.hashValue
    · rw [if_pos hhash, if_pos ⟨record, hmem, mem_singleton_self _, hhash.symm⟩]
    · rw [if_neg hhash, if_neg]
      rintro ⟨other, hother, hk, rfl⟩
      exact hhash (congrArg (·.2.hashValue) (inj_on_of_nodup_map h hother hmem (mem_singleton.1 hk)))
  simp only [Pool.forget, find_record h hmem, Pool.without, hpins, hindex, mem_singleton, ne_eq]

@[simp] theorem without_nil : p.without [] = p := by
  have hnone (hash : Hash) : ¬p.Loses [] hash := fun ⟨_, _, hk, _⟩ => absurd hk not_mem_nil
  simp [Pool.without, hnone]

theorem loses_append (first second : List Key) (hash : Hash) :
    p.Loses (first ++ second) hash ↔ p.Loses first hash ∨ (p.without first).Loses second hash := by
  constructor
  · rintro ⟨record, hmem, hk, hh⟩
    by_cases hfirst : record.1 ∈ first
    · exact .inl ⟨record, hmem, hfirst, hh⟩
    · have hsecond : record.1 ∈ second := (mem_append.1 hk).resolve_left hfirst
      exact .inr ⟨record, mem_filter.2 ⟨hmem, by simpa using hfirst⟩, hsecond, hh⟩
  · rintro (⟨record, hmem, hk, hh⟩ | ⟨record, hmem, hk, hh⟩)
    · exact ⟨record, hmem, mem_append_left _ hk, hh⟩
    · exact ⟨record, mem_of_mem_filter hmem, mem_append_right _ hk, hh⟩

theorem without_without (first second : List Key) : (p.without first).without second = p.without (first ++ second) := by
  have hindex : (fun hash => if (p.without first).Loses second hash then none else (p.without first).byHash hash) =
      fun hash => if p.Loses (first ++ second) hash then none else p.byHash hash := by
    funext hash
    by_cases hfirst : p.Loses first hash
    · simp [Pool.without, loses_append, hfirst]
    · simp [Pool.without, loses_append, hfirst]
  rw [Pool.without, hindex]
  simp [Pool.without, filter_filter, Bool.and_comm]

theorem Sound.without (h : Sound p) (gone : List Key) : Sound (p.without gone) := by
  constructor
  · exact h.nodup.sublist (filter_sublist.map _)
  · intro other hother
    obtain ⟨hpinned, hstays⟩ := mem_filter.1 hother
    obtain ⟨record, hmem, heq⟩ := h.pinned other hpinned
    exact ⟨record, mem_filter.2 ⟨hmem, by simpa [heq] using hstays⟩, heq⟩

theorem keys_without (gone : List Key) : (p.without gone).keys = p.keys.filter (· ∉ gone) := by
  rw [Pool.keys, Pool.keys, filter_map]
  rfl

theorem evict_unpinned (shouldDrop : Option (Key → Bool)) (h : Sound p) (hkey : p.contains key) :
    (if key ∈ p.pinned then p.unpin key else p).evict shouldDrop key = .ok (p.without [key], tell shouldDrop key) := by
  have hfree (q : Pool Key Hash) (hq : q.keys.Nodup) (hin : q.contains key) (hout : key ∉ q.pinned) :
      q.evict shouldDrop key = .ok (q.without [key], tell shouldDrop key) := by
    rw [Pool.evict, if_neg fun hboth => hout hboth.1, if_pos hin, forget_eq_without hq hin hout]
  by_cases hpinned : key ∈ p.pinned
  · have hsame : (p.unpin key).without [key] = p.without [key] := by
      have hloses (hash : Hash) : (p.unpin key).Loses [key] hash ↔ p.Loses [key] hash := Iff.rfl
      simp only [Pool.without, hloses]
      simp [Pool.unpin, filter_filter]
    rw [if_pos hpinned, hfree (p.unpin key) h.nodup hkey not_mem_unpin, hsame]
  · rw [if_neg hpinned, hfree p h.nodup hkey hpinned]

omit [DecidableEq Hash] in
theorem victimsFrom_congr {q : Pool Key Hash} (hbudget : q.byteBudget = p.byteBudget) (incoming : Nat)
    (takes : Key → Bool) (total : Nat) {records : List (Key × CheckpointMeta Hash)}
    (h : ∀ record ∈ records, record.1 ∈ q.pinned ↔ record.1 ∈ p.pinned) :
    victimsFrom q incoming takes total records = victimsFrom p incoming takes total records := by
  induction records generalizing total with
  | nil => rfl
  | cons record records ih =>
    have hrest (total' : Nat) := ih total' fun other hother => h other (mem_cons_of_mem _ hother)
    simp only [victimsFrom, hbudget, h record mem_cons_self, hrest]

/-- Taking out one record of the list leaves its neighbours and their bytes. -/
theorem without_middle (h : p.keys.Nodup) {record : Key × CheckpointMeta Hash}
    {kept rest : List (Key × CheckpointMeta Hash)} (hrecords : p.records = kept ++ record :: rest) :
    (p.without [record.1]).records = kept ++ rest ∧
      (p.without [record.1]).totalBytes = p.totalBytes - record.2.nbytes := by
  have hnodup : (kept.map Prod.fst ++ record.1 :: rest.map Prod.fst).Nodup := by
    simpa [Pool.keys, hrecords] using h
  rw [nodup_append, nodup_cons] at hnodup
  obtain ⟨-, ⟨hrest, -⟩, hkept⟩ := hnodup
  have hstays (others : List (Key × CheckpointMeta Hash)) (hout : record.1 ∉ others.map Prod.fst) :
      others.filter (·.1 ∉ [record.1]) = others := by
    rw [filter_eq_self]
    intro other hother
    have hne : other.1 ≠ record.1 := fun heq => hout (heq ▸ mem_map_of_mem hother)
    simpa using hne
  have hleft : (p.without [record.1]).records = kept ++ rest := by
    simp only [Pool.without, hrecords, filter_append]
    rw [hstays kept fun hin => hkept _ hin _ mem_cons_self rfl,
      filter_cons_of_neg (by simp), hstays rest hrest]
  refine ⟨hleft, ?_⟩
  rw [Pool.totalBytes, Pool.totalBytes, hleft, hrecords]
  simp only [map_append, map_cons, sum_append, sum_cons]
  omega

section

variable (shouldDrop : Option (Key → Bool)) (h : Sound p) (incoming : Nat) (includePinned : Option (Key → Bool))
include h

/-- The loop takes the victims one after the other, and never raises. -/
theorem sweep_eq
    (kept rest : List (Key × CheckpointMeta Hash)) (hrecords : p.records = kept ++ rest) (told : List (Told Key)) :
    sweep shouldDrop incoming includePinned (rest.map Prod.fst) p.totalBytes p told =
      .ok (p.without (victimsFrom p incoming (includes includePinned) p.totalBytes rest),
        told ++ (victimsFrom p incoming (includes includePinned) p.totalBytes rest).flatMap (tell shouldDrop)) := by
  induction rest generalizing p kept told with
  | nil => simp [sweep, victimsFrom]
  | cons record rest ih =>
    rw [map_cons, sweep, victimsFrom]
    by_cases hfits : p.totalBytes + incoming ≤ p.byteBudget
    · simp [hfits]
    · rw [if_neg hfits, if_neg hfits]
      by_cases hskip : record.1 ∈ p.pinned ∧ includes includePinned record.1 = false
      · rw [if_pos hskip, if_pos hskip]
        exact ih h (kept ++ [record]) (by simpa using hrecords) told
      · have hmem : record ∈ p.records := hrecords ▸ mem_append_right _ mem_cons_self
        have hsize : (if record.1 ∈ p.pinned then p.unpin record.1 else p).nbytes? record.1 = some record.2.nbytes := by
          have hfound := find_record h.nodup hmem
          split <;> simp [Pool.nbytes?, Pool.unpin, hfound]
        obtain ⟨hleft, hbytes⟩ := without_middle h.nodup hrecords
        have hcongr : victimsFrom (p.without [record.1]) incoming (includes includePinned)
            (p.totalBytes - record.2.nbytes) rest =
              victimsFrom p incoming (includes includePinned) (p.totalBytes - record.2.nbytes) rest := by
          have hbudget : (p.without [record.1]).byteBudget = p.byteBudget := rfl
          apply victimsFrom_congr hbudget
          intro other hother
          have hne : other.1 ≠ record.1 := by
            intro heq
            have hnodup := h.nodup
            rw [Pool.keys, hrecords, map_append, map_cons, nodup_append, nodup_cons] at hnodup
            exact hnodup.2.1.1 (heq ▸ mem_map_of_mem hother)
          simp [Pool.without, hne]
        rw [if_neg hskip, if_neg hskip]
        simp only [hsize, evict_unpinned shouldDrop h ⟨record, hmem, rfl⟩]
        rw [← hbytes, ih (h.without [record.1]) kept hleft, hbytes, hcongr, without_without]
        simp

theorem evictForBudget_eq : p.evictForBudget shouldDrop incoming includePinned =
      .ok (p.without (p.victims incoming (includes includePinned)),
        (p.victims incoming (includes includePinned)).flatMap (tell shouldDrop)) := by
  have hsweep := sweep_eq shouldDrop h incoming includePinned [] p.records rfl []
  simpa [Pool.evictForBudget, Pool.victims, Pool.keys] using hsweep

end

omit [DecidableEq Hash] in
/-- Of the evictable records the loop takes as few as make room, or all. -/
theorem victimsFrom_shortest (p : Pool Key Hash) (incoming : Nat) (includePinned : Option (Key → Bool))
    (records : List (Key × CheckpointMeta Hash)) (total : Nat) :
    let free := records.filter fun record => ¬(record.1 ∈ p.pinned ∧ includes includePinned record.1 = false)
    ∃ n ≤ free.length, victimsFrom p incoming (includes includePinned) total records = (free.take n).map Prod.fst ∧
      (∀ m < n, p.byteBudget < total - sizes (free.take m) + incoming) ∧
      (n = free.length ∨ total - sizes (free.take n) + incoming ≤ p.byteBudget) := by
  induction records generalizing total with
  | nil => exact ⟨0, Nat.zero_le _, by simp [victimsFrom], by simp, .inl rfl⟩
  | cons record records ih =>
    by_cases hfits : total + incoming ≤ p.byteBudget
    · exact ⟨0, Nat.zero_le _, by simp [victimsFrom, hfits], by simp, .inr (by simpa [sizes] using hfits)⟩
    · by_cases hskip : record.1 ∈ p.pinned ∧ includes includePinned record.1 = false
      · rw [filter_cons_of_neg (by simpa only [decide_eq_true_eq, not_not] using hskip), victimsFrom, if_neg hfits, if_pos hskip]
        exact ih total
      · rw [filter_cons_of_pos (by simpa only [decide_eq_true_eq] using hskip), victimsFrom, if_neg hfits, if_neg hskip]
        obtain ⟨n, hn, htaken, hneeded, henough⟩ := ih (total - record.2.nbytes)
        refine ⟨n + 1, Nat.succ_le_succ hn, by simp [htaken], ?_, ?_⟩
        · intro m hm
          cases m with
          | zero => simpa [sizes] using Nat.lt_of_not_le hfits
          | succ m => simpa [sizes, Nat.sub_sub] using hneeded m (Nat.lt_of_succ_lt_succ hm)
        · cases henough with
          | inl hall => exact .inl (by rw [hall, length_cons])
          | inr hroom => exact .inr (by simpa [sizes, Nat.sub_sub] using hroom)

/-- The bytes that records of the pool held are what their removal frees. -/
theorem totalBytes_without (h : p.keys.Nodup) {taken : List (Key × CheckpointMeta Hash)}
    (hsub : taken.Sublist p.records) : (p.without (taken.map Prod.fst)).totalBytes + sizes taken = p.totalBytes := by
  have hsum : ∀ {taken records : List (Key × CheckpointMeta Hash)}, taken.Sublist records →
      (records.map Prod.fst).Nodup →
      sizes (records.filter (·.1 ∉ taken.map Prod.fst)) + sizes taken = sizes records := by
    intro taken records hsub
    induction hsub with
    | slnil => intro _; rfl
    | @cons taken records record hsub ih =>
      intro hnodup
      rw [map_cons, nodup_cons] at hnodup
      have hout : record.1 ∉ taken.map Prod.fst := fun hin => hnodup.1 ((hsub.map _).subset hin)
      rw [filter_cons_of_pos (by simpa using hout)]
      have hrest := ih hnodup.2
      simp only [sizes, map_cons, sum_cons] at hrest ⊢
      omega
    | @cons_cons taken records record hsub ih =>
      intro hnodup
      rw [map_cons, nodup_cons] at hnodup
      have hsame : records.filter (·.1 ∉ (record :: taken).map Prod.fst) =
          records.filter (·.1 ∉ taken.map Prod.fst) := by
        apply filter_congr
        intro other hother
        have hne : other.1 ≠ record.1 := fun heq => hnodup.1 (heq ▸ mem_map_of_mem hother)
        simp [hne]
      rw [filter_cons_of_neg (by simp), hsame]
      have hrest := ih hnodup.2
      simp only [sizes, map_cons, sum_cons] at hrest ⊢
      omega
  exact hsum hsub h

/-- What a budget eviction does: the `n` oldest evictable keys go, one fewer would not make room, and the owner
is told once for each. -/
structure EvictsShortest (shouldDrop : Option (Key → Bool)) (p : Pool Key Hash) (incoming : Nat)
    (includePinned : Option (Key → Bool)) (n : Nat) (left : Pool Key Hash) (told : List (Told Key)) : Prop where
  within : n ≤ (p.evictable includePinned).length
  records : left.records = p.records.filter (·.1 ∉ p.oldest includePinned n)
  pinned : left.pinned = p.pinned.filter (· ∉ p.oldest includePinned n)
  needed : ∀ m < n, p.byteBudget < (p.without (p.oldest includePinned m)).totalBytes + incoming
  enough : n = (p.evictable includePinned).length ∨ left.totalBytes + incoming ≤ p.byteBudget
  bytes : left.totalBytes + sizes ((p.evictable includePinned).take n) = p.totalBytes
  once : (p.oldest includePinned n).Nodup
  told : told = (p.oldest includePinned n).flatMap (tell shouldDrop)

theorem evictForBudget_evicts (shouldDrop : Option (Key → Bool)) (h : Sound p) (incoming : Nat)
    (includePinned : Option (Key → Bool)) :
    ∃ n left told, p.evictForBudget shouldDrop incoming includePinned = .ok (left, told) ∧
      EvictsShortest shouldDrop p incoming includePinned n left told := by
  have hsub (m : Nat) : ((p.evictable includePinned).take m).Sublist p.records :=
    (take_sublist _ _).trans filter_sublist
  have hbytes (m : Nat) := totalBytes_without h.nodup (hsub m)
  obtain ⟨n, hn, htaken, hneeded, henough⟩ :=
    victimsFrom_shortest p incoming includePinned p.records p.totalBytes
  have hvictims : p.victims incoming (includes includePinned) = p.oldest includePinned n := htaken
  have hrun := evictForBudget_eq shouldDrop h incoming includePinned
  rw [hvictims] at hrun
  have hfreed (m : Nat) : (p.without (p.oldest includePinned m)).totalBytes =
      p.totalBytes - sizes ((p.evictable includePinned).take m) := by
    rw [← hbytes m, Pool.oldest, Nat.add_sub_cancel]
  refine ⟨n, _, _, hrun, ⟨hn, rfl, rfl, ?_, ?_, hbytes n, ?_, rfl⟩⟩
  · intro m hm
    rw [hfreed]
    exact hneeded m hm
  · rw [hfreed]
    exact henough
  · exact h.nodup.sublist ((hsub n).map _)

section Runs

variable (shouldDrop : Option (Key → Bool))

def leaving (p : Pool Key Hash) : Call Key Hash → List Key
  | .evict key => if p.contains key ∧ key ∉ p.pinned then [key] else []
  | .evictForBudget incoming includePinned => p.victims incoming (includes includePinned)
  | .register .. | .touch _ | .pin _ | .unpin _ => []

def used (p : Pool Key Hash) : Call Key Hash → List Key
  | .register key _ => if p.contains key then [] else [key]
  | .touch key => if p.contains key then [key] else []
  | .pin _ | .unpin _ | .evict _ | .evictForBudget .. => []

/-- The keys in the order in which a run used them. -/
def history : Pool Key Hash → List (Call Key Hash) → List Key
  | _, [] => []
  | p, call :: calls => used p call ++ history (step shouldDrop p call) calls

theorem step_register (key : Key) (info : CheckpointMeta Hash) :
    step shouldDrop p (.register key info) = if p.contains key then p else p.register key info := by
  by_cases hkey : p.contains key <;> simp [step, Pool.registerKey, hkey, Except.toOption]

theorem step_touch (key : Key) :
    step shouldDrop p (.touch key) = if p.contains key then p.touch key else p := by
  by_cases hkey : p.contains key <;> simp [step, Pool.touchKey, hkey, Except.toOption]

theorem step_pin (key : Key) : step shouldDrop p (.pin key) = if p.contains key then p.pin key else p := by
  by_cases hkey : p.contains key <;> simp [step, Pool.pinKey, hkey, Except.toOption]

theorem step_evict (h : Sound p) (key : Key) :
    step shouldDrop p (.evict key) = p.without (leaving p (.evict key)) := by
  by_cases hkey : p.contains key
  · by_cases hpinned : key ∈ p.pinned
    · simp [step, leaving, Pool.evict, hkey, hpinned, Except.toOption]
    · simp [step, leaving, Pool.evict, hkey, hpinned, Except.toOption, forget_eq_without h.nodup hkey hpinned]
  · simp [step, leaving, Pool.evict, hkey, Except.toOption]

theorem step_evictForBudget (h : Sound p) (incoming : Nat) (includePinned : Option (Key → Bool)) :
    step shouldDrop p (.evictForBudget incoming includePinned) =
      p.without (leaving p (.evictForBudget incoming includePinned)) := by
  simp [step, leaving, evictForBudget_eq shouldDrop h, Except.toOption]

omit [DecidableEq Hash] in
theorem keys_touch (h : p.keys.Nodup) (hkey : p.contains key) :
    (p.touch key).keys = p.keys.filter (· ≠ key) ++ [key] := by
  have hone : p.keys.filter (· = key) = [key] := by
    rw [List.filter_eq, count_eq_one_of_mem h (contains_iff.1 hkey), replicate_one]
  have hmap (test : Key → Bool) : (p.records.filter fun record => test record.1).map Prod.fst = p.keys.filter test := by
    rw [Pool.keys, filter_map]
    rfl
  rw [← hone, ← hmap, ← hmap, ← map_append]
  rfl

theorem Sound.step (h : Sound p) (call : Call Key Hash) : Sound (step shouldDrop p call) := by
  cases call with
  | register key info =>
    rw [step_register]
    split_ifs with hkey
    · exact h
    · constructor
      · have hkeys : (p.register key info).keys = p.keys ++ [key] := by simp [Pool.keys, Pool.register]
        rw [hkeys]
        exact h.nodup.append (nodup_singleton key) (by simpa [contains_iff] using hkey)
      · intro other hother
        obtain ⟨record, hmem, heq⟩ := h.pinned other hother
        exact ⟨record, mem_append_left _ hmem, heq⟩
  | touch key =>
    rw [step_touch]
    split_ifs with hkey
    · constructor
      · rw [keys_touch h.nodup hkey]
        exact (h.nodup.filter _).append (nodup_singleton key) (by simp)
      · intro other hother
        exact contains_touch.2 (h.pinned other hother)
    · exact h
  | pin key =>
    rw [step_pin]
    split_ifs with hkey
    · refine ⟨h.nodup, ?_⟩
      intro other hother
      cases mem_insert_iff.1 hother with
      | inl heq => exact heq ▸ hkey
      | inr hold => exact h.pinned other hold
    · exact h
  | unpin key => exact ⟨h.nodup, fun other hother => h.pinned other (mem_of_mem_filter hother)⟩
  | evict key =>
    rw [step_evict shouldDrop h]
    exact h.without _
  | evictForBudget incoming includePinned =>
    rw [step_evictForBudget shouldDrop h]
    exact h.without _

theorem Sound.run (h : Sound p) (calls : List (Call Key Hash)) : Sound (run shouldDrop p calls) := by
  induction calls generalizing p with
  | nil => exact h
  | cons call calls ih => exact ih (h.step shouldDrop call)

omit [DecidableEq Hash] in
/-- Using a key moves it behind all others. -/
theorem dedup_concat (uses : List Key) (key : Key) :
    (uses ++ [key]).dedup = uses.dedup.filter (· ≠ key) ++ [key] := by
  induction uses with
  | nil => simp
  | cons first uses ih =>
    rw [cons_append, dedup_cons, dedup_cons, ih]
    by_cases hfirst : first = key
    · subst hfirst
      by_cases hmem : first ∈ uses <;> simp [hmem]
    · by_cases hmem : first ∈ uses <;> simp [hmem, hfirst]

/-- The registered keys stand in the order of their last use. -/
def Recency (p : Pool Key Hash) (uses : List Key) : Prop := p.keys = uses.dedup.filter (· ∈ p.keys)

variable {uses : List Key}

omit [DecidableEq Hash] in
theorem Recency.use {q : Pool Key Hash} (h : Recency p uses)
    (hkeys : q.keys = p.keys.filter (· ≠ key) ++ [key]) : Recency q (uses ++ [key]) := by
  have hfilter : uses.dedup.filter (fun other => decide (other ∈ p.keys.filter (· ≠ key) ++ [key]) && decide (other ≠ key)) =
      (uses.dedup.filter (· ∈ p.keys)).filter (· ≠ key) := by
    rw [filter_filter]
    apply filter_congr
    intro other _
    by_cases heq : other = key <;> simp [heq]
  rw [Recency, hkeys, dedup_concat, filter_append, filter_filter, hfilter, ← h]
  simp

theorem Recency.without (h : Recency p uses) (gone : List Key) : Recency (p.without gone) uses := by
  have hfilter : uses.dedup.filter (· ∈ p.keys.filter (· ∉ gone)) =
      (uses.dedup.filter (· ∈ p.keys)).filter (· ∉ gone) := by
    rw [filter_filter]
    apply filter_congr
    intro other _
    simp [Bool.and_comm]
  rw [Recency, keys_without, hfilter, ← h]

theorem Recency.step (hp : Sound p) (h : Recency p uses) (call : Call Key Hash) :
    Recency (step shouldDrop p call) (uses ++ used p call) := by
  cases call with
  | register key info =>
    rw [step_register, used]
    split_ifs with hkey
    · simpa using h
    · apply h.use
      have hself : p.keys.filter (· ≠ key) = p.keys := by
        rw [filter_eq_self]
        intro other hother
        have hne : other ≠ key := fun heq => hkey (contains_iff.2 (heq ▸ hother))
        simpa using hne
      rw [hself]
      simp [Pool.keys, Pool.register]
  | touch key =>
    rw [step_touch, used]
    split_ifs with hkey
    · exact h.use (keys_touch hp.nodup hkey)
    · simpa using h
  | pin key =>
    rw [step_pin, used, append_nil]
    split_ifs
    · exact h
    · exact h
  | unpin key =>
    rw [used, append_nil]
    exact h
  | evict key =>
    rw [step_evict shouldDrop hp, used, append_nil]
    exact h.without _
  | evictForBudget incoming includePinned =>
    rw [step_evictForBudget shouldDrop hp, used, append_nil]
    exact h.without _

theorem Recency.run (hp : Sound p) (h : Recency p uses) (calls : List (Call Key Hash)) :
    Recency (run shouldDrop p calls) (uses ++ history shouldDrop p calls) := by
  induction calls generalizing p uses with
  | nil =>
    rw [history, append_nil]
    exact h
  | cons call calls ih =>
    rw [history, ← append_assoc]
    exact ih (hp.step shouldDrop call) (h.step shouldDrop hp call)

/-- After every run the keys stand in the order of their last use, only registered keys are pinned, and a budget
eviction evicts the shortest run of the oldest evictable keys. -/
theorem evictForBudget_shortest (byteBudget : Nat) (calls : List (Call Key Hash)) (incoming : Nat)
    (includePinned : Option (Key → Bool)) :
    (run shouldDrop (start byteBudget) calls).keys =
        (history shouldDrop (start byteBudget) calls).dedup.filter
          (· ∈ (run shouldDrop (start byteBudget) calls).keys) ∧
      (∀ key ∈ (run shouldDrop (start byteBudget) calls).pinned,
        (run shouldDrop (start byteBudget) calls).contains key) ∧
      ∃ n left told,
        (run shouldDrop (start byteBudget) calls).evictForBudget shouldDrop incoming includePinned = .ok (left, told) ∧
        EvictsShortest shouldDrop (run shouldDrop (start byteBudget) calls) incoming includePinned n left told := by
  have hsound := (Sound.start byteBudget : Sound (start byteBudget : Pool Key Hash)).run shouldDrop calls
  have hempty : Recency (start byteBudget : Pool Key Hash) [] := rfl
  have horder := hempty.run shouldDrop (Sound.start byteBudget) calls
  rw [nil_append] at horder
  exact ⟨horder, hsound.pinned,
    evictForBudget_evicts shouldDrop hsound incoming includePinned⟩

end Runs

end CheckpointPool
