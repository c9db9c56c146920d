import Mathlib.Algebra.BigOperators.Group.List.Basic
import Mathlib.Tactic.Ring

/-!
# The checkpoint pool

`RecurrentStatePool` of `runtime/recurrent_state_pool.py`. The records and
their order of use are one list, the oldest first. What an eviction tells its
owner is left to the owner.
-/

namespace CheckpointPool

open List Function

structure CheckpointMeta (Hash : Type) where
  hashValue : Hash
  numTokens : Nat
  nbytes : Nat
  deriving DecidableEq, Repr

structure Pool (Key Hash : Type) where
  byteBudget : Nat
  records : List (Key × CheckpointMeta Hash)
  byHash : Hash → Option Key
  pinned : List Key

variable {Key Hash : Type} [DecidableEq Key]

def start (byteBudget : Nat) : Pool Key Hash := ⟨byteBudget, [], fun _ => none, []⟩

def Pool.contains (p : Pool Key Hash) (key : Key) : Prop := ∃ record ∈ p.records, record.1 = key

instance (p : Pool Key Hash) (key : Key) : Decidable (p.contains key) :=
  inferInstanceAs (Decidable (∃ record ∈ p.records, record.1 = key))

def Pool.totalBytes (p : Pool Key Hash) : Nat := (p.records.map fun record => record.2.nbytes).sum

/-- `register` of a key that is not registered. -/
def Pool.register [DecidableEq Hash] (p : Pool Key Hash) (key : Key) (info : CheckpointMeta Hash) : Pool Key Hash :=
  { p with records := p.records ++ [(key, info)], byHash := update p.byHash info.hashValue (some key) }

def Pool.touch (p : Pool Key Hash) (key : Key) : Pool Key Hash :=
  { p with records := p.records.filter (·.1 ≠ key) ++ p.records.filter (·.1 = key) }

def Pool.pin (p : Pool Key Hash) (key : Key) : Pool Key Hash := { p with pinned := p.pinned.insert key }

def Pool.unpin (p : Pool Key Hash) (key : Key) : Pool Key Hash := { p with pinned := p.pinned.filter (· ≠ key) }

/-- What `evict` takes out of the books. -/
def Pool.forget [DecidableEq Hash] (p : Pool Key Hash) (key : Key) : Pool Key Hash :=
  match p.records.find? (·.1 = key) with
  | none => p
  | some record =>
    { p with
      records := p.records.filter (·.1 ≠ key)
      byHash := update p.byHash record.2.hashValue none }

/-- The keys that the loop of `evict_for_budget` evicts, from `total` bytes on. -/
def victimsFrom (p : Pool Key Hash) (incoming : Nat) (includePinned : Key → Bool) :
    Nat → List (Key × CheckpointMeta Hash) → List Key
  | _, [] => []
  | total, record :: records =>
    if total + incoming ≤ p.byteBudget then []
    else if record.1 ∈ p.pinned ∧ includePinned record.1 = false then victimsFrom p incoming includePinned total records
    else record.1 :: victimsFrom p incoming includePinned (total - record.2.nbytes) records

def Pool.victims (p : Pool Key Hash) (incoming : Nat) (includePinned : Key → Bool) : List Key :=
  victimsFrom p incoming includePinned p.totalBytes p.records

variable {p : Pool Key Hash} {key : Key} {incoming : Nat} {includePinned : Key → Bool}

theorem contains_of_victims (hkey : key ∈ p.victims incoming includePinned) : p.contains key := by
  suffices h : ∀ records total, key ∈ victimsFrom p incoming includePinned total records →
      ∃ record ∈ records, record.1 = key from h _ _ hkey
  intro records
  induction records with
  | nil =>
    intro total hmem
    exact absurd hmem not_mem_nil
  | cons record records ih =>
    intro total hmem
    rw [victimsFrom] at hmem
    have hrest : ∀ total', key ∈ victimsFrom p incoming includePinned total' records →
        ∃ other ∈ record :: records, other.1 = key := by
      intro total' hmem'
      obtain ⟨other, hother, heq⟩ := ih total' hmem'
      exact ⟨other, mem_cons_of_mem _ hother, heq⟩
    split at hmem
    · exact absurd hmem not_mem_nil
    split at hmem
    · exact hrest _ hmem
    · cases mem_cons.mp hmem with
      | inl heq => exact ⟨record, mem_cons_self, heq.symm⟩
      | inr hmem => exact hrest _ hmem

/-- A pinned key is only taken where the caller asks for it. -/
theorem victims_unpinned (hkey : key ∈ p.victims incoming includePinned) :
    key ∉ p.pinned ∨ includePinned key = true := by
  suffices h : ∀ records total, key ∈ victimsFrom p incoming includePinned total records →
      key ∉ p.pinned ∨ includePinned key = true from h _ _ hkey
  intro records
  induction records with
  | nil =>
    intro total hmem
    exact absurd hmem not_mem_nil
  | cons record records ih =>
    intro total hmem
    rw [victimsFrom] at hmem
    split at hmem
    · exact absurd hmem not_mem_nil
    split at hmem
    · exact ih _ hmem
    next hskip =>
      cases mem_cons.mp hmem with
      | inl heq =>
        rw [heq]
        by_cases hpinned : record.1 ∈ p.pinned
        · exact .inr (Bool.of_not_eq_false fun hfalse => hskip ⟨hpinned, hfalse⟩)
        · exact .inl hpinned
      | inr hrest => exact ih _ hrest

/-- Another key stays pinned. -/
theorem mem_unpin {other : Key} (hne : other ≠ key) (h : other ∈ p.pinned) : other ∈ (p.unpin key).pinned :=
  mem_filter.mpr ⟨h, by simpa using hne⟩

theorem not_mem_unpin : key ∉ (p.unpin key).pinned := by
  intro h
  simpa using of_mem_filter h

theorem contains_touch {other : Key} : (p.touch key).contains other ↔ p.contains other := by
  constructor
  · rintro ⟨record, hmem, heq⟩
    cases mem_append.mp hmem with
    | inl hmem => exact ⟨record, mem_of_mem_filter hmem, heq⟩
    | inr hmem => exact ⟨record, mem_of_mem_filter hmem, heq⟩
  · rintro ⟨record, hmem, heq⟩
    refine ⟨record, ?_, heq⟩
    by_cases hkey : record.1 = key
    · exact mem_append_right _ (mem_filter.mpr ⟨hmem, by simpa using hkey⟩)
    · exact mem_append_left _ (mem_filter.mpr ⟨hmem, by simpa using hkey⟩)

variable [DecidableEq Hash]

theorem forget_pinned : (p.forget key).pinned = p.pinned := by
  rw [Pool.forget]
  split <;> rfl

theorem contains_of_forget {other : Key} (h : (p.forget key).contains other) : p.contains other := by
  rw [Pool.forget] at h
  split at h
  · exact h
  · obtain ⟨record, hmem, heq⟩ := h
    exact ⟨record, mem_of_mem_filter hmem, heq⟩

theorem not_contains_forget : ¬(p.forget key).contains key := by
  rw [Pool.forget]
  split
  next hnone =>
    rintro ⟨record, hmem, heq⟩
    simpa [heq] using find?_eq_none.mp hnone record hmem
  next =>
    rintro ⟨record, hmem, heq⟩
    have := of_mem_filter hmem
    simp [heq] at this

end CheckpointPool
