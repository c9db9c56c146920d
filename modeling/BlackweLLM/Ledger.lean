import Mathlib.Data.List.AList
import Mathlib.Algebra.BigOperators.Group.List.Basic
import Mathlib.Tactic.Ring

/-!
# Ledgers

Amounts filed under keys, and their sum. A key without an entry has the
amount zero. A count over numbered rows changes with the one row that does.
-/

namespace Ledger

open List

section Rows

variable {n k : Nat} {p q : Nat → Bool}

/-- Only row `k` counts differently. -/
theorem countP_range_update (hk : k < n) (hother : ∀ i, i ≠ k → q i = p i) :
    (range n).countP q + (p k).toNat = (range n).countP p + (q k).toNat := by
  induction n with
  | zero => exact absurd hk (Nat.not_lt_zero k)
  | succ n ih =>
    rw [range_succ, countP_append, countP_append, countP_singleton, countP_singleton]
    by_cases hkn : k = n
    · subst hkn
      have hrest : (range k).countP q = (range k).countP p := by
        apply countP_congr
        intro i hi
        rw [hother i (ne_of_lt (mem_range.mp hi))]
      rw [hrest]
      cases p k <;> cases q k <;> simp
    · rw [hother n (Ne.symm hkn)]
      have hprefix := ih (lt_of_le_of_ne (Nat.le_of_lt_succ hk) hkn)
      omega

theorem countP_range_succ_of_ne (hk : k < n) (hp : p k = false) (hq : q k = true) (hother : ∀ i, i ≠ k → q i = p i) :
    (range n).countP q = (range n).countP p + 1 := by
  simpa [hp, hq] using countP_range_update hk hother

/-- The places of a list without repetitions, counted by its entries. -/
theorem countP_range_mem {l : List Nat} (hnodup : l.Nodup) (hlt : ∀ a ∈ l, a < n) :
    (range n).countP (fun a => decide (a ∈ l)) = l.length := by
  rw [countP_eq_length_filter]
  apply List.Perm.length_eq
  rw [perm_ext_iff_of_nodup (nodup_range.filter _) hnodup]
  intro a
  rw [mem_filter, mem_range, decide_eq_true_eq]
  exact ⟨And.right, fun hmem => ⟨hlt a hmem, hmem⟩⟩

theorem sum_map_add_countP {α : Type} (l : List α) (count : α → Nat) (p : α → Bool) :
    (l.map fun a => count a + if p a then 1 else 0).sum = (l.map count).sum + l.countP p := by
  induction l with
  | nil => rfl
  | cons a l ih =>
    rw [map_cons, sum_cons, ih, map_cons, sum_cons, countP_cons]
    omega

/-- Every entry of every row is counted once, under its number. -/
theorem sum_countP_mem (n : Nat) {rows : List (List Nat)} (hnodup : ∀ row ∈ rows, row.Nodup)
    (hlt : ∀ row ∈ rows, ∀ a ∈ row, a < n) :
    ((range n).map fun a => rows.countP fun row => decide (a ∈ row)).sum = (rows.map List.length).sum := by
  induction rows with
  | nil => simp
  | cons row rows ih =>
    have hrest := ih (fun row' hrow' => hnodup row' (mem_cons_of_mem _ hrow'))
      (fun row' hrow' => hlt row' (mem_cons_of_mem _ hrow'))
    have hfirst := countP_range_mem (hnodup row mem_cons_self) (hlt row mem_cons_self)
    rw [map_cons, sum_cons, ← hrest, ← hfirst, add_comm, ← sum_map_add_countP]
    simp only [countP_cons]

variable {α : Type}

/-- What is above one makes up for what is below it. -/
theorem sum_add_zeros (l : List α) (count : α → Nat) :
    (l.map count).sum + l.countP (fun a => decide (count a = 0)) = l.length + (l.map fun a => count a - 1).sum := by
  induction l with
  | nil => rfl
  | cons a l ih =>
    rw [map_cons, sum_cons, countP_cons, length_cons, map_cons, sum_cons]
    by_cases hzero : count a = 0 <;> simp only [hzero, decide_true, decide_false, Bool.false_eq_true, if_true, if_false]
      <;> omega

/-- Each place that is counted twice adds to the excess. -/
theorem shared_le_excess (l : List α) (count : α → Nat) :
    l.countP (fun a => decide (1 < count a)) ≤ (l.map fun a => count a - 1).sum := by
  induction l with
  | nil => exact le_refl 0
  | cons a l ih =>
    rw [countP_cons, map_cons, sum_cons]
    by_cases hshared : 1 < count a <;> simp only [hshared, decide_true, decide_false, Bool.false_eq_true, if_true,
      if_false] <;> omega

end Rows

variable {κ : Type}

def total (l : AList fun _ : κ => Nat) : Nat := (l.entries.map (·.2)).sum

variable [DecidableEq κ]

def amount (l : AList fun _ : κ => Nat) (k : κ) : Nat := (l.lookup k).getD 0

variable {l : AList fun _ : κ => Nat} {k k' : κ} {n : Nat}

theorem amount_of_lookup (h : l.lookup k = some n) : amount l k = n := by
  rw [amount, h]
  rfl

theorem amount_eq_zero (h : l.lookup k = none) : amount l k = 0 := by
  rw [amount, h]
  rfl

@[simp] theorem amount_insert_self : amount (l.insert k n) k = n := by
  rw [amount, AList.lookup_insert]
  rfl

theorem amount_insert_of_ne (h : k' ≠ k) : amount (l.insert k n) k' = amount l k' := by
  rw [amount, amount, AList.lookup_insert_ne h]

@[simp] theorem amount_erase_self : amount (l.erase k) k = 0 := by
  rw [amount, AList.lookup_erase]
  rfl

theorem amount_erase_of_ne (h : k' ≠ k) : amount (l.erase k) k' = amount l k' := by
  rw [amount, amount, AList.lookup_erase_ne h]

theorem sum_kerase_add (entries : List (Sigma fun _ : κ => Nat)) (k : κ) :
    ((entries.kerase k).map (·.2)).sum + (entries.dlookup k).getD 0 = (entries.map (·.2)).sum := by
  induction entries with
  | nil => rfl
  | cons e entries ih =>
    obtain ⟨key, value⟩ := e
    by_cases h : k = key
    · subst h
      simp [add_comm]
    · rw [kerase_cons_ne h, dlookup_cons_ne _ _ h, map_cons, sum_cons, map_cons,
        sum_cons, add_assoc, ih]

/-- The sum is that of a key and of the others. -/
theorem total_erase_add (l : AList fun _ : κ => Nat) (k : κ) : total (l.erase k) + amount l k = total l :=
  sum_kerase_add l.entries k

theorem total_insert (l : AList fun _ : κ => Nat) (k : κ) (n : Nat) :
    total (l.insert k n) = n + total (l.erase k) := by
  rw [total, AList.entries_insert, map_cons, sum_cons]
  rfl

theorem amount_le_total (l : AList fun _ : κ => Nat) (k : κ) : amount l k ≤ total l := by
  rw [← total_erase_add l k]
  exact Nat.le_add_left _ _

/-- Where every key has the amount zero, so has the sum. -/
theorem total_eq_zero (h : ∀ k, amount l k = 0) : total l = 0 := by
  rw [total, sum_eq_zero]
  intro n hn
  obtain ⟨⟨key, value⟩, hmem, rfl⟩ := mem_map.mp hn
  rw [← amount_of_lookup (AList.mem_lookup_iff.mpr hmem)]
  exact h key

end Ledger
