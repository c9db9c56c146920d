import BlackweLLM.PoolExchange
import Mathlib.Data.List.TakeWhile

/-!
# Refused operations of the bundle pool

What a call of `runtime/model/qwen36_kv_arena.py` leaves behind when it raises.
`allocate`, `ensure_writable`, `reserve` and `consume_reservation` test first. The loops
of `incref`, `decref` and `cache_full_blocks` test each bundle just before they change
it, so an error behind the first element keeps what was done for the earlier ones.
-/

namespace BundlePool

open List Function RaisingState

variable {Owner : Type} [DecidableEq Owner] {p p' : Pool Owner}

section Calls

/-- The calls that may be refused. -/
inductive Guarded (Owner : Type) where
  | allocate (count : Nat) (owner : Owner)
  | incref (ids : List Nat) (owner : Owner)
  | decref (ids : List Nat)
  | ensureWritable (id : Nat) (owner : Owner)
  | cacheFullBlocks (keys : List BlockKey) (ids : List Nat)
  | reserve (count : Nat) (owner : Owner)
  | consumeReservation (count : Nat) (owner : Owner)

def failed {α : Type} : EStateM.Result PoolError (Pool Owner) α → Option (Pool Owner)
  | .ok _ _ => none
  | .error _ p => some p

def refuse (p : Pool Owner) : Guarded Owner → Option (Pool Owner)
  | .allocate count owner => failed (allocate count owner p)
  | .incref ids owner => failed (incref ids owner p)
  | .decref ids => failed (decref ids p)
  | .ensureWritable id owner => failed (ensureWritable id owner p)
  | .cacheFullBlocks keys ids => failed (cacheFullBlocks keys ids p)
  | .reserve count owner => failed (reserve count owner p)
  | .consumeReservation count owner => failed (consumeReservation owner count p)

/-- The books are the same. A dictionary of keys counts by its lookups. -/
structure SameBooks (p p' : Pool Owner) : Prop where
  free : p'.free = p.free
  freeLen : p'.freeLen = p.freeLen
  refCnt : p'.refCnt = p.refCnt
  blockHash : p'.blockHash = p.blockHash
  holders : p'.holders = p.holders
  bundleHashes : ∀ id value, (p'.bundleHashes id).lookup value = (p.bundleHashes id).lookup value
  reservations : p'.reservations = p.reservations
  pendingCow : p'.pendingCow = p.pendingCow

omit [DecidableEq Owner] in
theorem SameBooks.refl (p : Pool Owner) : SameBooks p p := ⟨rfl, rfl, rfl, rfl, rfl, fun _ _ => rfl, rfl, rfl⟩

/-- A call that raises leaves the books alone. -/
def Atomic (p : Pool Owner) (op : Guarded Owner) : Prop := ∀ p', refuse p op = some p' → SameBooks p p'

omit [DecidableEq Owner] in
theorem failed_eq_some {α : Type} {r : EStateM.Result PoolError (Pool Owner) α} :
    failed r = some p' ↔ ∃ e, r = .error e p' := by
  cases r <;> simp [failed]

end Calls

section Conditions

/-- The closing assertions hold of a sound pool: it makes none, or the null bundle is the only reserved one. -/
def AssertionsPass (c : Config) : Prop := c.assertInvariants = true → c.reserved = 1

/-- `decref` may take a reference from the bundle. -/
def Held (p : Pool Owner) (id : Nat) : Prop := Usable p id ∧ 0 < p.refCnt id

/-- `incref` refuses a bundle without references and content. -/
def Contentless (p : Pool Owner) (id : Nat) : Prop := p.refCnt id = 0 ∧ p.blockHash id = none

instance (p : Pool Owner) (id : Nat) : Decidable (Held p id) :=
  inferInstanceAs (Decidable ((p.config.reserved ≤ id ∧ id < p.config.numBundles) ∧ 0 < p.refCnt id))

def lastKey (entries : List (BlockKey × Nat)) (id : Nat) : Option BlockKey :=
  (entries.reverse.find? fun entry => entry.2 = id).map Prod.fst

def lastKeyOf (entries : List (BlockKey × Nat)) (id value : Nat) : Option BlockKey :=
  (entries.reverse.find? fun entry => entry.2 = id ∧ entry.1.value = value).map Prod.fst

/-- The publications repeat what the pool says already. -/
def Republishes (p : Pool Owner) (entries : List (BlockKey × Nat)) : Prop :=
  ∀ entry ∈ entries, lastKey entries entry.2 = p.blockHash entry.2 ∧
    lastKeyOf entries entry.2 entry.1.value = (p.bundleHashes entry.2).lookup entry.1.value

/-- The publications before the first one that is refused. -/
def published (p : Pool Owner) (keys : List BlockKey) (ids : List Nat) : List (BlockKey × Nat) :=
  (keys.zip ids).takeWhile fun entry => Held p entry.2

/-- Where a refusal leaves the books alone. -/
def Clean (p : Pool Owner) : Guarded Owner → Prop
  | .allocate count owner => count = 0 ∨ ¬Room p count owner ∨ AssertionsPass p.config
  | .incref ids owner =>
    (∃ id ∈ ids, ¬Usable p id) ∨ ¬Revivable p ids owner ∨ (∀ id ∈ ids.head?, Contentless p id) ∨
      (∀ id ∈ ids, ¬Contentless p id) ∧ AssertionsPass p.config
  | .decref ids =>
    (∀ id ∈ ids.head?, ¬Held p id) ∨
      (∀ id ∈ ids, Usable p id ∧ ids.count id ≤ p.refCnt id) ∧ AssertionsPass p.config
  | .ensureWritable id owner =>
    ¬Held p id ∨ p.refCnt id = 1 ∧ p.blockHash id = none ∨ ¬Room p 1 owner ∨ AssertionsPass p.config
  | .cacheFullBlocks keys ids =>
    keys.length ≠ ids.length ∨ Republishes p (published p keys ids) ∨
      (∀ id ∈ ids, Held p id) ∧ AssertionsPass p.config
  | .reserve _ _ => True
  | .consumeReservation _ _ => True

end Conditions

section Assertions

omit [DecidableEq Owner] in
/-- What `_maybe_invariant_check` leaves, either way. -/
theorem maybeInvariantCheck_state (p : Pool Owner) : endState (maybeInvariantCheck p) = p := by
  by_cases hfail : (p.config.assertInvariants && !(lifecycleHolds p && accounted p)) = true
  · simp only [maybeInvariantCheck, bind_of_ok (get_apply p), raiseIf_of hfail, endState]
  · simp only [maybeInvariantCheck, bind_of_ok (get_apply p), raiseIf_of_not hfail, endState]

/-- A second reserved bundle is neither null nor in the queue, and the assertions ask for one of the two. -/
theorem maybeInvariantCheck_fails {cold hot : List Nat} (h : WellFormed p cold hot)
    (hno : ¬AssertionsPass p.config) : ∃ e, maybeInvariantCheck p = .error e p := by
  rw [AssertionsPass, Classical.not_imp] at hno
  obtain ⟨hasserts, hmore⟩ := hno
  have hpos := p.config.reserved_pos
  have hlt := p.config.reserved_lt
  have hout : ¬Usable p 1 := fun husable => hmore (le_antisymm husable.1 hpos)
  have hunqueued : p.free.contains 1 = false := by
    rw [Bool.eq_false_iff, ne_eq, h.links.contains_iff, h.mem_iff]
    exact fun hin => hout hin.1
  have hfalse : lifecycleHolds p = false := by
    rw [Bool.eq_false_iff, ne_eq, lifecycleHolds, all_eq_true]
    intro hall
    have hone := hall 1 (mem_range.mpr (by omega))
    simp [isNull, (h.reserved 1 hout).1, hunqueued] at hone
  have hfail : (p.config.assertInvariants && !(lifecycleHolds p && accounted p)) = true := by
    simp [hasserts, hfalse]
  exact ⟨.lifecycle, by simp only [maybeInvariantCheck, bind_of_ok (get_apply p), raiseIf_of hfail]⟩

theorem maybeInvariantCheck_passes {cold hot : List Nat} (h : WellFormed p cold hot) (hpass : AssertionsPass p.config) :
    maybeInvariantCheck p = .ok ⟨⟩ p := by
  by_cases hasserts : p.config.assertInvariants = true
  · exact maybeInvariantCheck_of (h.checked (hpass hasserts))
  · exact maybeInvariantCheck_of fun hyes => absurd hyes hasserts

/-- A call that ends with the assertions raises exactly when they fail. -/
theorem failed_bind_check {α : Type} {x : PoolM Owner α} {a : α} {p₁ : Pool Owner} (h : Valid p₁)
    (hx : x p = .ok a p₁) :
    failed ((do let _ ← x; maybeInvariantCheck : PoolM Owner Unit) p) = some p' ↔
      p' = p₁ ∧ ¬AssertionsPass p₁.config := by
  obtain ⟨cold, hot, hwf⟩ := h
  by_cases hpass : AssertionsPass p₁.config
  · simp [bind_of_ok hx, maybeInvariantCheck_passes hwf hpass, failed, hpass]
  · obtain ⟨e, herr⟩ := maybeInvariantCheck_fails hwf hpass
    simp [bind_of_ok hx, herr, failed, hpass, eq_comm]

/-- The same where a result follows. -/
theorem failed_check_bind {α : Type} {a : α} (h : Valid p) (p' : Pool Owner) :
    failed ((do maybeInvariantCheck; pure a : PoolM Owner α) p) = some p' ↔ p' = p ∧ ¬AssertionsPass p.config := by
  obtain ⟨cold, hot, hwf⟩ := h
  by_cases hpass : AssertionsPass p.config
  · rw [bind_of_ok (maybeInvariantCheck_passes hwf hpass)]
    simp [failed, hpass]
  · obtain ⟨e, herr⟩ := maybeInvariantCheck_fails hwf hpass
    rw [bind_of_error herr]
    simp [failed, hpass, eq_comm]

end Assertions

section Loops

variable {ε σ α : Type} {g : α → EStateM ε σ PUnit} {l : List α} {I : List α → σ → Prop} {s : σ}

/-- A loop whose steps raise before they change anything ends, or stops in front of the step that raises. -/
theorem forM_splits (hstep : ∀ done a s s', I done s → g a s = .ok ⟨⟩ s' → I (done ++ [a]) s')
    (herr : ∀ a s e s', g a s = .error e s' → s' = s) (hs : I [] s) :
    (∃ s', (forM l g) s = .ok ⟨⟩ s' ∧ I l s') ∨
      ∃ done a rest e s', l = done ++ a :: rest ∧ (forM l g) s = .error e s' ∧ I done s' ∧ g a s' = .error e s' := by
  cases hrun : (forM l g) s with
  | ok u s' =>
    refine .inl ⟨s', rfl, ?_⟩
    exact forM_ok (I := I) (fun done a rest s s' _ => hstep done a s s') hs hrun
  | error e s' =>
    obtain ⟨done, a, rest, s₁, hl, hdone, hraise⟩ := forM_error hrun
    have hsame := herr a s₁ e s' hraise
    subst hsame
    refine .inr ⟨done, a, rest, e, s', hl, rfl, ?_, hraise⟩
    exact forM_ok (I := I) (fun done a rest s s' _ => hstep done a s s') hs hdone

end Loops

section References

variable {cold hot ids : List Nat} {owner : Owner}

omit [DecidableEq Owner] in
theorem increfOne_error {id : Nat} {e : PoolError} (h : increfOne id p = .error e p') : p' = p := by
  rw [increfOne, bind_eq_error] at h
  rcases h with hrange | ⟨⟨⟩, p₁, hrange, h⟩
  · exact checkRange_error hrange
  · obtain ⟨-, rfl⟩ := checkRange_eq_ok.mp hrange
    simp only [bind_of_ok (get_apply p), bind_eq_error, raiseIf_eq_error, raiseIf_eq_ok] at h
    rcases h with ⟨-, -, rfl⟩ | ⟨⟨⟩, _, ⟨-, rfl⟩, ⟨-, -, rfl⟩ | ⟨⟨⟩, _, ⟨-, rfl⟩, h⟩⟩
    · rfl
    · rfl
    · simp at h

structure DecrefUpTo (p : Pool Owner) (done : List Nat) (s : Pool Owner) : Prop where
  decrefed : Decrefed p done s
  valid : Valid s
  held : ∀ id ∈ done, Held p id
  unmoved : done = [] → s = p

variable {done : List Nat}

theorem DecrefUpTo.step {id : Nat} {s s' : Pool Owner} (h : DecrefUpTo p done s)
    (hstep : decrefOne id s = .ok ⟨⟩ s') : DecrefUpTo p (done ++ [id]) s' := by
  obtain ⟨cold, hot, hwf⟩ := h.valid
  obtain ⟨hreleased, hwf'⟩ := decrefOne_ok hwf hstep
  refine ⟨h.decrefed.concat hreleased, ⟨_, _, hwf'⟩, ?_, by simp⟩
  intro b hb
  cases mem_append.mp hb with
  | inl hold => exact h.held b hold
  | inr hnew =>
    rw [mem_singleton] at hnew
    subst hnew
    have hcount := h.decrefed.refCnt b
    exact ⟨(h.decrefed.usable b).mp hreleased.usable, by have := hreleased.live; omega⟩

theorem DecrefUpTo.quiet {s : Pool Owner} (h : DecrefUpTo p done s) (hsame : SameBooks p s) : done = [] := by
  rw [eq_nil_iff_forall_not_mem]
  intro id hid
  have hcount := h.decrefed.refCnt id
  have hpos := count_pos_iff.mpr hid
  rw [hsame.refCnt] at hcount
  omega

theorem atomic_decref_iff (h : Valid p) : Atomic p (.decref ids) ↔ Clean p (.decref ids) := by
  have hloop := forM_splits (l := ids) (I := DecrefUpTo p) (fun _ _ _ _ => DecrefUpTo.step)
    (fun _ _ _ _ => decrefOne_error) ⟨Decrefed.refl p, h, by simp, fun _ => rfl⟩
  obtain ⟨s', hrun, hdone⟩ | ⟨done, id, rest, e, s', hids, hrun, hdone, hraise⟩ := hloop
  · have hconfig : s'.config = p.config := hdone.decrefed.config
    have hfailed (p' : Pool Owner) : refuse p (.decref ids) = some p' ↔ p' = s' ∧ ¬AssertionsPass p.config := by
      rw [← hconfig]
      exact failed_bind_check hdone.valid hrun
    constructor
    · intro hatomic
      by_cases hpass : AssertionsPass p.config
      · refine .inr ⟨fun b hb => ⟨(hdone.held b hb).1, ?_⟩, hpass⟩
        rw [← hdone.decrefed.refCnt b]
        exact Nat.le_add_left _ _
      · refine .inl ?_
        rw [hdone.quiet (hatomic s' ((hfailed s').mpr ⟨rfl, hpass⟩))]
        simp
    · rintro hclean p' hp'
      obtain ⟨rfl, hno⟩ := (hfailed p').mp hp'
      rcases hclean with hhead | ⟨-, hpass⟩
      · cases ids with
        | nil => rw [hdone.unmoved rfl]; exact SameBooks.refl p
        | cons b rest => exact absurd (hdone.held b mem_cons_self) (hhead b rfl)
      · exact absurd hpass hno
  · have hfailed (p' : Pool Owner) : refuse p (.decref ids) = some p' ↔ p' = s' := by
      simp [refuse, decref, bind_of_error hrun, failed, eq_comm]
    have hstuck : ¬Held s' id := by
      rintro ⟨husable, hlive⟩
      obtain ⟨cold, hot, hwf⟩ := hdone.valid
      obtain ⟨s₁, hok, -⟩ := decrefOne_of hwf husable hlive
      rw [hok] at hraise
      cases hraise
    constructor
    · intro hatomic
      have hnil := hdone.quiet (hatomic s' ((hfailed s').mpr rfl))
      rw [hdone.unmoved hnil] at hstuck
      refine .inl ?_
      rw [hids, hnil]
      rintro b ⟨⟩
      exact hstuck
    · rintro hclean p' hp'
      rw [(hfailed p').mp hp']
      rcases hclean with hhead | ⟨hall, -⟩
      · cases done with
        | nil => rw [hdone.unmoved rfl]; exact SameBooks.refl p
        | cons b more => exact absurd (hdone.held b mem_cons_self) (hhead b (by simp [hids]))
      · have hcount (b : Nat) : ids.count b ≤ p.refCnt b := by
          by_cases hb : b ∈ ids
          · exact (hall b hb).2
          · rw [count_eq_zero_of_not_mem hb]
            exact Nat.zero_le _
        obtain ⟨s₁, hok, -⟩ := decrefLoop_of h (fun b hb => (hall b hb).1) hcount
        rw [hok] at hrun
        cases hrun

structure IncrefUpTo (p : Pool Owner) (done : List Nat) (s : Pool Owner) : Prop where
  increfed : Increfed p done s
  valid : Valid s
  content : ∀ id ∈ done, ¬Contentless p id
  unmoved : done = [] → s = p

theorem IncrefUpTo.step {id : Nat} {s s' : Pool Owner} (h : IncrefUpTo p done s)
    (hstep : increfOne id s = .ok ⟨⟩ s') : IncrefUpTo p (done ++ [id]) s' := by
  obtain ⟨cold, hot, hwf⟩ := h.valid
  obtain ⟨hreferenced, hwf'⟩ := increfOne_ok hwf hstep
  refine ⟨h.increfed.concat hreferenced, ⟨_, _, hwf'⟩, ?_, by simp⟩
  intro b hb
  cases mem_append.mp hb with
  | inl hold => exact h.content b hold
  | inr hnew =>
    rw [mem_singleton] at hnew
    subst hnew
    by_cases hdone : b ∈ done
    · exact h.content b hdone
    · rintro ⟨hzero, hnone⟩
      have hsome := (increfOne_guards hwf hstep).2
      rw [h.increfed.refCnt, hzero, count_eq_zero_of_not_mem hdone, h.increfed.blockHash, hnone] at hsome
      exact absurd (hsome rfl) (by simp)

theorem IncrefUpTo.quiet {s : Pool Owner} (h : IncrefUpTo p done s) (hsame : SameBooks p s) : done = [] := by
  rw [eq_nil_iff_forall_not_mem]
  intro id hid
  have hcount := h.increfed.refCnt id
  have hpos := count_pos_iff.mpr hid
  rw [hsame.refCnt] at hcount
  omega

theorem incref_checked (hids : ∀ id ∈ ids, Usable p id) (hroom : Revivable p ids owner) :
    incref ids owner p = (do forM ids increfOne; maybeInvariantCheck : PoolM Owner Unit) p := by
  simp only [incref, bind_of_ok (forM_checkRange_of hids), bind_of_ok (get_apply p),
    bind_of_ok (raiseIf_of_not hroom p)]

theorem incref_refused (hno : (∃ id ∈ ids, ¬Usable p id) ∨ ¬Revivable p ids owner) :
    ∃ e, incref ids owner p = .error e p := by
  by_cases hids : ∀ id ∈ ids, Usable p id
  · have hroom : ¬Revivable p ids owner := hno.resolve_left fun ⟨id, hid, hbad⟩ => hbad (hids id hid)
    exact ⟨_, by rw [incref, bind_of_ok (forM_checkRange_of hids), bind_of_ok (get_apply p),
      bind_of_error (raiseIf_of (not_not.mp hroom) p)]⟩
  · cases hrange : (forM ids checkRange) p with
    | ok u s =>
      obtain ⟨-, hall⟩ := forM_checkRange_eq_ok hrange
      exact absurd hall hids
    | error e s =>
      obtain ⟨done, a, rest, s₁, -, hdone, hraise⟩ := forM_error hrange
      obtain ⟨rfl, -⟩ := forM_checkRange_eq_ok hdone
      cases checkRange_error hraise
      exact ⟨e, by rw [incref, bind_of_error hrange]⟩

theorem atomic_incref_iff (h : Valid p) : Atomic p (.incref ids owner) ↔ Clean p (.incref ids owner) := by
  by_cases hno : (∃ id ∈ ids, ¬Usable p id) ∨ ¬Revivable p ids owner
  · obtain ⟨e, herr⟩ := incref_refused hno
    refine iff_of_true ?_ ?_
    · intro p' hp'
      have hsame : p = p' := by simpa [refuse, herr, failed] using hp'
      exact hsame ▸ SameBooks.refl p
    · exact hno.imp_right .inl
  rw [not_or, not_not] at hno
  obtain ⟨hin, hroom⟩ := hno
  have hids : ∀ id ∈ ids, Usable p id := fun id hid => not_not.mp fun hbad => hin ⟨id, hid, hbad⟩
  have hclean : Clean p (.incref ids owner) ↔ (∀ id ∈ ids.head?, Contentless p id) ∨
      (∀ id ∈ ids, ¬Contentless p id) ∧ AssertionsPass p.config := by
    simp only [Clean, hin, hroom, not_true_eq_false, false_or]
  have hloop := forM_splits (l := ids) (I := IncrefUpTo p) (fun _ _ _ _ => IncrefUpTo.step)
    (fun _ _ _ _ => increfOne_error) ⟨Increfed.refl p, h, by simp, fun _ => rfl⟩
  rw [hclean]
  obtain ⟨s', hrun, hdone⟩ | ⟨done, id, rest, e, s', hsplit, hrun, hdone, hraise⟩ := hloop
  · have hconfig : s'.config = p.config := hdone.increfed.config
    have hfailed (p' : Pool Owner) : refuse p (.incref ids owner) = some p' ↔ p' = s' ∧ ¬AssertionsPass p.config := by
      rw [← hconfig, refuse, incref_checked hids hroom]
      exact failed_bind_check hdone.valid hrun
    constructor
    · intro hatomic
      by_cases hpass : AssertionsPass p.config
      · exact .inr ⟨hdone.content, hpass⟩
      · refine .inl ?_
        rw [hdone.quiet (hatomic s' ((hfailed s').mpr ⟨rfl, hpass⟩))]
        simp
    · rintro hcond p' hp'
      obtain ⟨rfl, hnot⟩ := (hfailed p').mp hp'
      rcases hcond with hhead | ⟨-, hpass⟩
      · cases ids with
        | nil => rw [hdone.unmoved rfl]; exact SameBooks.refl p
        | cons b rest => exact absurd (hhead b rfl) (hdone.content b mem_cons_self)
      · exact absurd hpass hnot
  · have hfailed (p' : Pool Owner) : refuse p (.incref ids owner) = some p' ↔ p' = s' := by
      rw [refuse, incref_checked hids hroom, bind_of_error hrun]
      simp [failed, eq_comm]
    have hstuck : Contentless p id := by
      by_contra hcontent
      obtain ⟨cold, hot, hwf⟩ := hdone.valid
      have husable : Usable s' id := (hdone.increfed.usable id).mpr (hids id (by simp [hsplit]))
      obtain ⟨s₁, hok, -⟩ := increfOne_of hwf husable (by
        rw [hdone.increfed.refCnt, hdone.increfed.blockHash]
        intro hzero
        rw [Option.isSome_iff_ne_none]
        exact fun hnone => hcontent ⟨by omega, hnone⟩)
      rw [hok] at hraise
      cases hraise
    constructor
    · intro hatomic
      have hnil := hdone.quiet (hatomic s' ((hfailed s').mpr rfl))
      refine .inl ?_
      rw [hsplit, hnil]
      rintro b ⟨⟩
      exact hstuck
    · rintro hcond p' hp'
      rw [(hfailed p').mp hp']
      rcases hcond with hhead | ⟨hall, -⟩
      · cases done with
        | nil => rw [hdone.unmoved rfl]; exact SameBooks.refl p
        | cons b more => exact absurd (hhead b (by simp [hsplit])) (hdone.content b mem_cons_self)
      · exact absurd hstuck (hall id (by simp [hsplit]))

end References

section Allocate

variable {count id : Nat} {owner : Owner}

theorem Allocated.quiet {cold hot : List Nat} (h : WellFormed p cold hot) (hroom : Room p count owner)
    (halloc : Allocated p count owner cold hot p') (hsame : SameBooks p p') : count = 0 := by
  by_contra hne
  have hlen := hroom.1
  rw [h.len] at hlen
  obtain ⟨b, hb⟩ := exists_mem_of_length_pos (l := (cold ++ hot).take count) (by
    rw [length_take]
    omega)
  have hzero := ((h.mem_iff b).mp (mem_of_mem_take hb)).2
  have hone := halloc.taken.refCnt b
  rw [if_pos hb] at hone
  have hrefs : p'.refCnt b = p.refCnt b := by rw [hsame.refCnt]
  change p'.refCnt b = 1 at hone
  omega

theorem allocate_zero (hroom : Room p 0 owner) :
    allocate 0 owner p = (do maybeInvariantCheck; pure [] : PoolM Owner _) p := by
  obtain ⟨hfree, hreserved, hunreserved⟩ := hroom
  have hconsume : consumeReservation owner 0 p = .ok ⟨⟩ p := by
    cases hlookup : p.reservations.lookup owner <;> simp [consumeReservation, bind_of_ok (get_apply p), hlookup]
  have hless : ¬p.freeLen < 0 := Nat.not_lt_zero _
  have hown : ¬(reservedFor p owner ≠ 0 ∧ reservedFor p owner < 0) := fun hbad => Nat.not_lt_zero _ hbad.2
  have hcommon : ¬(reservedFor p owner = 0 ∧ unreservedFree p < 0) := fun hbad => Nat.not_lt_zero _ hbad.2
  simp only [allocate, popMany, bind_of_ok (get_apply p), bind_of_ok (raiseIf_of_not hless p),
    bind_of_ok (raiseIf_of_not hown p), bind_of_ok (raiseIf_of_not hcommon p),
    bind_of_ok (pure_apply ([] : List Nat) p), bind_of_ok hconsume]

/-- An allocation with room raises only at its end, in a pool that shows what was given away. -/
theorem failed_allocate (h : Valid p) (hroom : Room p count owner) :
    ∃ p₁, (SameBooks p p₁ ↔ count = 0) ∧
      ∀ p', failed (allocate count owner p) = some p' ↔ p' = p₁ ∧ ¬AssertionsPass p.config := by
  obtain ⟨cold, hot, hwf⟩ := h
  by_cases hcount : count = 0
  · subst hcount
    refine ⟨p, iff_of_true (SameBooks.refl p) rfl, fun p' => ?_⟩
    rw [allocate_zero hroom]
    exact failed_check_bind ⟨_, _, hwf⟩ _
  · obtain ⟨p₁, halloc, hrun⟩ := allocate_of_room hwf hroom
    have hconfig : p₁.config = p.config := halloc.taken.config
    refine ⟨p₁, iff_of_false (fun hsame => hcount (halloc.quiet hwf hroom hsame)) hcount, fun p' => ?_⟩
    rw [hrun, ← hconfig]
    exact failed_check_bind ⟨_, _, halloc.wellFormed⟩ _

theorem atomic_allocate_iff (h : Valid p) : Atomic p (.allocate count owner) ↔ Clean p (.allocate count owner) := by
  by_cases hroom : Room p count owner
  · obtain ⟨p₁, hsame, hfailed⟩ := failed_allocate h hroom
    constructor
    · intro hatomic
      by_cases hpass : AssertionsPass p.config
      · exact .inr (.inr hpass)
      · exact .inl (hsame.mp (hatomic p₁ ((hfailed p₁).mpr ⟨rfl, hpass⟩)))
    · rintro hclean p' hp'
      obtain ⟨rfl, hno⟩ := (hfailed p').mp hp'
      rcases hclean with hzero | hnone | hpass
      · exact hsame.mpr hzero
      · exact absurd hroom hnone
      · exact absurd hpass hno
  · obtain ⟨e, herr⟩ := allocate_of_not_room hroom
    refine iff_of_true ?_ (.inr (.inl hroom))
    intro p' hp'
    have hsame : p = p' := by simpa [refuse, herr, failed] using hp'
    exact hsame ▸ SameBooks.refl p

/-- `ensure_writable` raises before it changes anything, or where its allocation does. -/
theorem failed_ensureWritable (p : Pool Owner) (id : Nat) (owner : Owner) :
    (Held p id ∧ ¬(p.refCnt id = 1 ∧ p.blockHash id = none) ∧
      failed (ensureWritable id owner p) = failed (allocate 1 owner p)) ∨
    (¬Held p id ∨ p.refCnt id = 1 ∧ p.blockHash id = none) ∧
      ∀ p', failed (ensureWritable id owner p) = some p' → p' = p := by
  by_cases hreserved : id < p.config.reserved
  · refine .inr ⟨.inl fun hheld => not_lt.mpr hheld.1.1 hreserved, fun p' hp' => ?_⟩
    rw [ensureWritable, bind_of_ok (get_apply p), bind_of_error (raiseIf_of hreserved p)] at hp'
    exact (Option.some.inj hp').symm
  by_cases hrange : p.config.numBundles ≤ id
  · refine .inr ⟨.inl fun hheld => not_le.mpr hheld.1.2 hrange, fun p' hp' => ?_⟩
    rw [ensureWritable, bind_of_ok (get_apply p), bind_of_ok (raiseIf_of_not hreserved p),
      bind_of_error (raiseIf_of hrange p)] at hp'
    exact (Option.some.inj hp').symm
  have hnull : isNull id = false := by
    have hpos := p.config.reserved_pos
    simp only [isNull, decide_eq_false_iff_not]
    omega
  have hrun : ensureWritable id owner p = (if p.refCnt id = 1 ∧ !isNull id ∧ p.blockHash id = none then pure id
      else do
        raiseIf (p.refCnt id = 0) (.freeBundle id)
        let fresh ← allocate 1 owner
        let target := fresh.headD 0
        modify fun p => { p with pendingCow := p.pendingCow.insert target id }
        pure target : PoolM Owner Nat) p := by
    rw [ensureWritable, bind_of_ok (get_apply p), bind_of_ok (raiseIf_of_not hreserved p),
      bind_of_ok (raiseIf_of_not hrange p)]
  rw [hrun]
  by_cases hprivate : p.refCnt id = 1 ∧ p.blockHash id = none
  · refine .inr ⟨.inr hprivate, fun p' hp' => ?_⟩
    rw [if_pos ⟨hprivate.1, by simp [hnull], hprivate.2⟩] at hp'
    cases hp'
  · rw [if_neg fun hbad => hprivate ⟨hbad.1, hbad.2.2⟩]
    by_cases hfree : p.refCnt id = 0
    · refine .inr ⟨.inl fun hheld => ne_of_gt hheld.2 hfree, fun p' hp' => ?_⟩
      rw [bind_of_error (raiseIf_of hfree p)] at hp'
      exact (Option.some.inj hp').symm
    · refine .inl ⟨⟨⟨Nat.not_lt.mp hreserved, Nat.not_le.mp hrange⟩, Nat.pos_of_ne_zero hfree⟩, hprivate, ?_⟩
      rw [bind_of_ok (raiseIf_of_not hfree p)]
      cases halloc : allocate 1 owner p with
      | ok fresh p₁ =>
        rw [bind_of_ok halloc]
        rfl
      | error e p₁ =>
        rw [bind_of_error halloc]
        rfl

theorem atomic_ensureWritable_iff (h : Valid p) :
    Atomic p (.ensureWritable id owner) ↔ Clean p (.ensureWritable id owner) := by
  rcases failed_ensureWritable p id owner with ⟨hheld, hshared, hsame⟩ | ⟨hearly, hsame⟩
  · have hatomic : Atomic p (.ensureWritable id owner) ↔ Atomic p (.allocate 1 owner) := by
      simp only [Atomic, refuse, hsame]
    rw [hatomic, atomic_allocate_iff h]
    simp [Clean, hheld, hshared]
  · refine iff_of_true ?_ ?_
    · intro p' hp'
      rw [hsame p' hp']
      exact SameBooks.refl p
    · exact hearly.imp_right .inl

end Allocate

section Publish

variable {keys : List BlockKey} {ids : List Nat}

theorem lastKey_concat (entries : List (BlockKey × Nat)) (entry : BlockKey × Nat) (id : Nat) :
    lastKey (entries ++ [entry]) id = if entry.2 = id then some entry.1 else lastKey entries id := by
  by_cases hid : entry.2 = id <;> simp [lastKey, hid]

theorem lastKeyOf_concat (entries : List (BlockKey × Nat)) (entry : BlockKey × Nat) (id value : Nat) :
    lastKeyOf (entries ++ [entry]) id value =
      if entry.2 = id ∧ entry.1.value = value then some entry.1 else lastKeyOf entries id value := by
  by_cases hid : entry.2 = id ∧ entry.1.value = value
  · simp [lastKeyOf, hid]
  · rw [if_neg hid, lastKeyOf, reverse_append, reverse_singleton, singleton_append,
      find?_cons_of_neg (by simpa using hid), lastKeyOf]

structure PublishedUpTo (p : Pool Owner) (done : List (BlockKey × Nat)) (s : Pool Owner) : Prop where
  same : s = { p with blockHash := s.blockHash, holders := s.holders, bundleHashes := s.bundleHashes }
  valid : Valid s
  held : ∀ entry ∈ done, Held p entry.2
  blockHash : ∀ id, s.blockHash id = (lastKey done id).or (p.blockHash id)
  lookup : ∀ id value, (s.bundleHashes id).lookup value = (lastKeyOf done id value).or ((p.bundleHashes id).lookup value)
  holders : ∀ value, ∃ extra, s.holders value = p.holders value ++ extra

theorem PublishedUpTo.start (h : Valid p) : PublishedUpTo p [] p :=
  ⟨rfl, h, by simp, fun _ => rfl, fun _ _ => rfl, fun _ => ⟨[], by simp⟩⟩

theorem PublishedUpTo.step {done : List (BlockKey × Nat)} {entry : BlockKey × Nat} {s s' : Pool Owner}
    (h : PublishedUpTo p done s) (hstep : publishOne entry.1 entry.2 s = .ok ⟨⟩ s') :
    PublishedUpTo p (done ++ [entry]) s' := by
  obtain ⟨cold, hot, hwf⟩ := h.valid
  obtain ⟨rfl, husable, hlive, hwf'⟩ := publishOne_ok hwf hstep
  have hheld : Held p entry.2 := by
    have hsame := h.same
    rw [hsame] at husable hlive
    exact ⟨husable, hlive⟩
  refine ⟨?_, ⟨_, _, hwf'⟩, ?_, ?_, ?_, ?_⟩
  · rw [publish]
    rw [h.same]
  · intro other hother
    cases mem_append.mp hother with
    | inl hold => exact h.held other hold
    | inr hnew => exact mem_singleton.mp hnew ▸ hheld
  · intro id
    simp only [publish, lastKey_concat, update_apply]
    by_cases hid : entry.2 = id
    · simp [hid]
    · rw [if_neg (Ne.symm hid), if_neg hid, h.blockHash]
  · intro id value
    simp only [publish, lastKeyOf_concat]
    by_cases hid : entry.2 = id
    · subst hid
      by_cases hvalue : entry.1.value = value
      · simp [hvalue]
      · simp only [update_self, hvalue, and_false, if_false]
        rw [AList.lookup_insert_ne (Ne.symm hvalue), h.lookup]
    · rw [update_of_ne (Ne.symm hid), if_neg fun hbad => hid hbad.1, h.lookup]
  · intro value
    obtain ⟨extra, hextra⟩ := h.holders value
    simp only [publish]
    by_cases hvalue : value = entry.1.value
    · subst hvalue
      simp only [update_self]
      split_ifs
      · exact ⟨extra, hextra⟩
      · exact ⟨extra ++ [entry.2], by rw [hextra, append_assoc]⟩
    · simp only [update_of_ne hvalue]
      exact ⟨extra, hextra⟩

/-- A publication shows unless the pool said the same before. -/
theorem PublishedUpTo.sameBooks_iff {done : List (BlockKey × Nat)} {s : Pool Owner} (h : PublishedUpTo p done s)
    (hp : Valid p) : SameBooks p s ↔ Republishes p done := by
  constructor
  · intro hsame entry hentry
    have hfound : ∃ key, lastKey done entry.2 = some key := by
      rw [← Option.isSome_iff_exists, lastKey, Option.isSome_map, find?_isSome]
      exact ⟨entry, by simpa using hentry, by simp⟩
    have hfoundOf : ∃ key, lastKeyOf done entry.2 entry.1.value = some key := by
      rw [← Option.isSome_iff_exists, lastKeyOf, Option.isSome_map, find?_isSome]
      exact ⟨entry, by simpa using hentry, by simp⟩
    obtain ⟨key, hkey⟩ := hfound
    obtain ⟨keyOf, hkeyOf⟩ := hfoundOf
    have hhash := h.blockHash entry.2
    have hlookup := h.lookup entry.2 entry.1.value
    rw [hsame.blockHash, hkey, Option.some_or] at hhash
    rw [hsame.bundleHashes, hkeyOf, Option.some_or] at hlookup
    exact ⟨by rw [hkey, hhash], by rw [hkeyOf, hlookup]⟩
  · intro hrepeat
    have hhash (id : Nat) : s.blockHash id = p.blockHash id := by
      rw [h.blockHash]
      cases hlast : done.reverse.find? fun entry => entry.2 = id with
      | none => rw [lastKey, hlast, Option.map_none, Option.none_or]
      | some entry =>
        have hmem : entry ∈ done := by simpa using mem_of_find?_eq_some hlast
        have hid : entry.2 = id := by simpa using find?_some hlast
        rw [← hid, (hrepeat entry hmem).1, Option.or_self]
    have hlookup (id value : Nat) : (s.bundleHashes id).lookup value = (p.bundleHashes id).lookup value := by
      rw [h.lookup]
      cases hlast : done.reverse.find? fun entry => entry.2 = id ∧ entry.1.value = value with
      | none => rw [lastKeyOf, hlast, Option.map_none, Option.none_or]
      | some entry =>
        have hmem : entry ∈ done := by simpa using mem_of_find?_eq_some hlast
        have hid : entry.2 = id ∧ entry.1.value = value := by simpa using find?_some hlast
        rw [← hid.1, ← hid.2, (hrepeat entry hmem).2, Option.or_self]
    have hholders (value : Nat) : s.holders value = p.holders value := by
      obtain ⟨extra, hextra⟩ := h.holders value
      obtain ⟨_, _, hwf⟩ := h.valid
      obtain ⟨_, _, hwfp⟩ := hp
      have hnil : extra = [] := by
        rw [eq_nil_iff_forall_not_mem]
        intro id hid
        have hin : id ∈ s.holders value := by
          rw [hextra]
          exact mem_append_right _ hid
        have hold : id ∈ p.holders value := by
          rw [hwfp.inverse, ← AList.lookup_isSome, ← hlookup, AList.lookup_isSome, ← hwf.inverse]
          exact hin
        have hnodup := hwf.nodup value
        rw [hextra] at hnodup
        exact disjoint_of_nodup_append hnodup hold hid
      rw [hextra, hnil, append_nil]
    rw [h.same]
    exact ⟨rfl, rfl, rfl, funext hhash, funext hholders, hlookup, rfl, rfl⟩

omit [DecidableEq Owner] in
/-- What a publication asks of a bundle. -/
theorem publishOne_of_held {key : BlockKey} {id : Nat} (h : Held p id) :
    publishOne key id p = .ok ⟨⟩ (publish id key p) := by
  have hpos := p.config.reserved_pos
  exact publishOne_eq_ok.mpr ⟨⟨h.1.2, by have := h.1.1; omega, h.1.1, h.2⟩, rfl⟩

theorem atomic_cacheFullBlocks_iff (h : Valid p) :
    Atomic p (.cacheFullBlocks keys ids) ↔ Clean p (.cacheFullBlocks keys ids) := by
  by_cases hlen : keys.length ≠ ids.length
  · refine iff_of_true ?_ (.inl hlen)
    intro p' hp'
    rw [refuse, cacheFullBlocks, bind_of_error (raiseIf_of hlen p)] at hp'
    exact (Option.some.inj hp') ▸ SameBooks.refl p
  have hclean : Clean p (.cacheFullBlocks keys ids) ↔ Republishes p (published p keys ids) ∨
      (∀ id ∈ ids, Held p id) ∧ AssertionsPass p.config := by
    simp only [Clean, hlen, false_or]
  have hbody : cacheFullBlocks keys ids p =
      (do forM (keys.zip ids) fun entry => publishOne entry.1 entry.2; maybeInvariantCheck : PoolM Owner Unit) p := by
    rw [cacheFullBlocks, bind_of_ok (raiseIf_of_not hlen p)]
  have hloop := forM_splits (l := keys.zip ids) (I := PublishedUpTo p) (fun _ _ _ _ => PublishedUpTo.step)
    (fun _ _ _ _ => publishOne_error) (PublishedUpTo.start h)
  rw [hclean]
  obtain ⟨s', hrun, hdone⟩ | ⟨done, entry, rest, e, s', hsplit, hrun, hdone, hraise⟩ := hloop
  · have hconfig : s'.config = p.config := by rw [hdone.same]
    have hall : published p keys ids = keys.zip ids := by
      rw [published, takeWhile_eq_self_iff]
      exact fun entry hentry => by simpa using hdone.held entry hentry
    have hfailed (p' : Pool Owner) :
        refuse p (.cacheFullBlocks keys ids) = some p' ↔ p' = s' ∧ ¬AssertionsPass p.config := by
      rw [← hconfig, refuse, hbody]
      exact failed_bind_check hdone.valid hrun
    rw [hall, ← hdone.sameBooks_iff h]
    constructor
    · intro hatomic
      by_cases hpass : AssertionsPass p.config
      · refine .inr ⟨fun id hid => ?_, hpass⟩
        obtain ⟨n, hn, hget⟩ := mem_iff_getElem.mp hid
        have hkeys : n < keys.length := by omega
        have hentry : (keys[n], id) ∈ keys.zip ids := by
          rw [← hget, mem_iff_getElem]
          exact ⟨n, by rw [length_zip]; omega, by simp⟩
        exact hdone.held _ hentry
      · exact .inl (hatomic s' ((hfailed s').mpr ⟨rfl, hpass⟩))
    · rintro hcond p' hp'
      obtain ⟨rfl, hno⟩ := (hfailed p').mp hp'
      exact hcond.resolve_right fun hright => hno hright.2
  · have hstuck : ¬Held p entry.2 := by
      intro hheld
      have hheld' : Held s' entry.2 := by
        rw [hdone.same]
        exact hheld
      rw [publishOne_of_held hheld'] at hraise
      cases hraise
    have hdones : published p keys ids = done := by
      rw [published, hsplit, takeWhile_append_of_pos fun other hother => by simpa using hdone.held other hother,
        takeWhile_cons_of_neg (by simpa using hstuck), append_nil]
    have hfailed (p' : Pool Owner) : refuse p (.cacheFullBlocks keys ids) = some p' ↔ p' = s' := by
      rw [refuse, hbody, bind_of_error hrun]
      simp [failed, eq_comm]
    have hnot : ¬∀ id ∈ ids, Held p id := fun hall =>
      hstuck (hall entry.2 (of_mem_zip (hsplit ▸ by simp : entry ∈ keys.zip ids)).2)
    rw [hdones, ← hdone.sameBooks_iff h]
    constructor
    · exact fun hatomic => .inl (hatomic s' ((hfailed s').mpr rfl))
    · rintro hcond p' hp'
      rw [(hfailed p').mp hp']
      exact hcond.resolve_right fun hright => hnot hright.1

end Publish

end BundlePool
