import BlackweLLM.CheckpointCalls

/-!
# The hash index of the checkpoint pool

`get_by_hash` of `runtime/recurrent_state_pool.py`. The index is overwritten by
`register` and popped by `evict`. It never names a wrong key. It forgets a registered
key exactly when a key leaves that shares its hash.
-/

namespace CheckpointPool

open List

variable {Key Hash : Type}

def Pool.getByHash (p : Pool Key Hash) (hash : Hash) : Option Key := p.byHash hash

/-- What the index finds is registered under that hash. -/
def Finds (p : Pool Key Hash) : Prop :=
  ∀ hash key, p.getByHash hash = some key → ∃ record ∈ p.records, record.1 = key ∧ record.2.hashValue = hash

/-- The index finds a key for every hash that one is registered under, and only such keys. -/
structure Indexed (p : Pool Key Hash) : Prop where
  finds : Finds p
  none_iff : ∀ hash, p.getByHash hash = none ↔ ∀ record ∈ p.records, record.2.hashValue ≠ hash

/-- No key outside `gone` shares its hash with one of them. -/
def Unshared (p : Pool Key Hash) (gone : List Key) : Prop :=
  ∀ record ∈ p.records, ∀ other ∈ p.records, record.1 ∈ gone → other.1 ∉ gone → other.2.hashValue ≠ record.2.hashValue

theorem Finds.none_iff {p : Pool Key Hash} (h : Finds p)
    (hall : ∀ record ∈ p.records, p.getByHash record.2.hashValue ≠ none) (hash : Hash) :
    p.getByHash hash = none ↔ ∀ record ∈ p.records, record.2.hashValue ≠ hash := by
  constructor
  · rintro hnone record hmem rfl
    exact hall record hmem hnone
  · intro hno
    cases hfound : p.getByHash hash with
    | none => rfl
    | some key =>
      obtain ⟨record, hmem, -, heq⟩ := h hash key hfound
      exact absurd heq (hno record hmem)

/-- An indexed pool finds a key for each of its records. -/
theorem Indexed.found {p : Pool Key Hash} (h : Indexed p) {record : Key × CheckpointMeta Hash}
    (hmem : record ∈ p.records) : p.getByHash record.2.hashValue ≠ none :=
  fun hnone => (h.none_iff _).1 hnone record hmem rfl

variable [DecidableEq Key] [DecidableEq Hash] {p : Pool Key Hash} (shouldDrop : Option (Key → Bool))

omit [DecidableEq Key] [DecidableEq Hash] in
theorem Indexed.start (byteBudget : Nat) : Indexed (start byteBudget : Pool Key Hash) := by
  constructor
  · intro hash key hfound
    exact absurd hfound (by simp [Pool.getByHash, CheckpointPool.start])
  · intro hash
    exact iff_of_true rfl fun record hmem => absurd hmem not_mem_nil

theorem getByHash_without (gone : List Key) (hash : Hash) :
    (p.without gone).getByHash hash = if p.Loses gone hash then none else p.getByHash hash := rfl

theorem Finds.without (h : Finds p) (gone : List Key) : Finds (p.without gone) := by
  intro hash key hfound
  rw [getByHash_without] at hfound
  split_ifs at hfound with hloses
  obtain ⟨record, hmem, rfl, rfl⟩ := h hash key hfound
  have hstays : record.1 ∉ gone := fun hgone => hloses ⟨record, hmem, hgone, rfl⟩
  exact ⟨record, mem_filter.2 ⟨hmem, by simpa using hstays⟩, rfl, rfl⟩

/-- An eviction keeps the index exactly when no remaining key shares a hash with a key that leaves. -/
theorem indexed_without_iff (h : Indexed p) (gone : List Key) : Indexed (p.without gone) ↔ Unshared p gone := by
  constructor
  · intro hleft record hmem other hother hgone hstays heq
    refine hleft.found (mem_filter.2 ⟨hother, by simpa using hstays⟩) ?_
    rw [getByHash_without, if_pos ⟨record, hmem, hgone, heq.symm⟩]
  · intro hunshared
    refine ⟨h.finds.without gone, (h.finds.without gone).none_iff ?_⟩
    intro other hleft
    obtain ⟨hother, hstays⟩ := mem_filter.1 hleft
    have hkept : ¬p.Loses gone other.2.hashValue := by
      rintro ⟨record, hmem, hgone, heq⟩
      exact hunshared record hmem other hother hgone (by simpa using hstays) heq.symm
    rw [getByHash_without, if_neg hkept]
    exact h.found hother

section

omit [DecidableEq Key]

theorem getByHash_register (key : Key) (info : CheckpointMeta Hash) (hash : Hash) :
    (p.register key info).getByHash hash = if hash = info.hashValue then some key else p.getByHash hash :=
  Function.update_apply p.byHash info.hashValue (some key) hash

theorem Finds.register (h : Finds p) (key : Key) (info : CheckpointMeta Hash) : Finds (p.register key info) := by
  intro hash found hfound
  rw [getByHash_register] at hfound
  split_ifs at hfound with hhash
  · cases hfound
    exact ⟨(key, info), mem_append_right _ (mem_singleton_self _), rfl, hhash.symm⟩
  · obtain ⟨record, hmem, hrecord⟩ := h hash found hfound
    exact ⟨record, mem_append_left _ hmem, hrecord⟩

theorem Indexed.register (h : Indexed p) (key : Key) (info : CheckpointMeta Hash) : Indexed (p.register key info) := by
  refine ⟨h.finds.register key info, (h.finds.register key info).none_iff ?_⟩
  intro record hmem
  rw [getByHash_register]
  split_ifs with hhash
  · exact Option.some_ne_none key
  · cases mem_append.1 hmem with
    | inl hold => exact h.found hold
    | inr hnew =>
      rw [mem_singleton] at hnew
      exact absurd (by rw [hnew]) hhash

end

omit [DecidableEq Key] [DecidableEq Hash] in
/-- The index only depends on which records there are. -/
theorem Indexed.congr {q : Pool Key Hash} (h : Indexed p) (hrecords : ∀ record, record ∈ q.records ↔ record ∈ p.records)
    (hindex : q.byHash = p.byHash) : Indexed q := by
  have hget (hash : Hash) : q.getByHash hash = p.getByHash hash := congrFun hindex hash
  constructor
  · intro hash key hfound
    obtain ⟨record, hmem, hrecord⟩ := h.finds hash key ((hget hash).symm.trans hfound)
    exact ⟨record, (hrecords record).2 hmem, hrecord⟩
  · intro hash
    simp only [hget, h.none_iff, hrecords]

omit [DecidableEq Hash] in
theorem mem_records_touch (key : Key) (record : Key × CheckpointMeta Hash) :
    record ∈ (p.touch key).records ↔ record ∈ p.records := by
  by_cases hkey : record.1 = key <;> simp [Pool.touch, hkey]

/-- One call keeps the index exactly when the keys it evicts share their hashes with no key that stays. -/
theorem indexed_step_iff (hp : Sound p) (h : Indexed p) (call : Call Key Hash) :
    Indexed (step shouldDrop p call) ↔ Unshared p (leaving p call) := by
  have hnone : Unshared p [] := fun _ _ _ _ hgone => absurd hgone not_mem_nil
  cases call with
  | register key info =>
    refine iff_of_true ?_ hnone
    rw [step_register]
    split_ifs
    · exact h
    · exact h.register key info
  | touch key =>
    refine iff_of_true ?_ hnone
    rw [step_touch]
    split_ifs
    · exact h.congr (mem_records_touch key) rfl
    · exact h
  | pin key =>
    refine iff_of_true ?_ hnone
    rw [step_pin]
    split_ifs
    · exact h.congr (fun _ => Iff.rfl) rfl
    · exact h
  | unpin key => exact iff_of_true (h.congr (fun _ => Iff.rfl) rfl) hnone
  | evict key =>
    rw [step_evict shouldDrop hp]
    exact indexed_without_iff h _
  | evictForBudget incoming includePinned =>
    rw [step_evictForBudget shouldDrop hp]
    exact indexed_without_iff h _

theorem run_take_succ {calls : List (Call Key Hash)} {n : Nat} {call : Call Key Hash} (hcall : calls[n]? = some call) :
    run shouldDrop p (calls.take (n + 1)) = step shouldDrop (run shouldDrop p (calls.take n)) call := by
  rw [run, take_add_one, hcall, Option.toList_some, foldl_append]
  rfl

/-- The index answers rightly in every state of a run exactly when every eviction takes keys that share their
hashes with no key that stays. -/
theorem getByHash_right_iff (byteBudget : Nat) (calls : List (Call Key Hash)) :
    (∀ n, Indexed (run shouldDrop (start byteBudget) (calls.take n))) ↔
      ∀ n call, calls[n]? = some call →
        Unshared (run shouldDrop (start byteBudget) (calls.take n))
          (leaving (run shouldDrop (start byteBudget) (calls.take n)) call) := by
  have hsound (n : Nat) := (Sound.start byteBudget : Sound (start byteBudget : Pool Key Hash)).run shouldDrop
      (calls.take n)
  constructor
  · intro hindexed n call hcall
    have hnext := hindexed (n + 1)
    rw [run_take_succ shouldDrop hcall] at hnext
    exact (indexed_step_iff shouldDrop (hsound n) (hindexed n) call).1 hnext
  · intro hunshared n
    induction n with
    | zero => exact Indexed.start byteBudget
    | succ n ih =>
      cases hcall : calls[n]? with
      | none =>
        have hlen := List.getElem?_eq_none_iff.1 hcall
        rw [take_of_length_le (by omega), ← take_of_length_le hlen]
        exact ih
      | some call =>
        rw [run_take_succ shouldDrop hcall]
        exact (indexed_step_iff shouldDrop (hsound n) ih call).2 (hunshared n call hcall)

/-- Two slots hold a checkpoint of the same tokens. The first one leaves, and the lookup misses the second. -/
theorem getByHash_forgets :
    let calls : List (Call (Nat × Nat) Nat) :=
      [.register (0, 256) ⟨7, 256, 10⟩, .register (1, 256) ⟨7, 256, 10⟩, .evict (0, 256)]
    (run none (start 100) calls).getByHash 7 = none ∧ (run none (start 100) calls).contains (1, 256) ∧
      ¬Indexed (run none (start 100) calls) := by
  refine ⟨by decide, by decide, fun h => ?_⟩
  exact h.found (mem_singleton_self ((1, 256), (⟨7, 256, 10⟩ : CheckpointMeta Nat))) (by decide)

end CheckpointPool
