import Mathlib.Data.List.Induction
import BlackweLLM.PoolEviction
import BlackweLLM.PoolRefusals

/-!
# Histories of the bundle pool

A history is any sequence of calls, and the calls that raise count with what they left
behind. Every pool that a history reaches is well formed. In such a pool a refused call
leaves the books alone exactly under `Clean`, and an eviction takes the oldest cached
bundles exactly when they have the smallest numbers.
-/

namespace BundlePool

open List RaisingState

variable {Owner : Type} [DecidableEq Owner] {p p' : Pool Owner}

def after (p : Pool Owner) : Op Owner → Pool Owner
  | .allocate count owner => endState (allocate count owner p)
  | .incref ids owner => endState (incref ids owner p)
  | .decref ids => endState (decref ids p)
  | .ensureWritable id owner => endState (ensureWritable id owner p)
  | .publishFullBlock id key => endState (publishFullBlock id key p)
  | .cacheFullBlocks keys ids => endState (cacheFullBlocks keys ids p)
  | .evictCached count => endState (evictCached count p)
  | .reserve count owner => endState (reserve count owner p)
  | .releaseReservation owner => endState (releaseReservation owner p)
  | .consumeReservation count owner => endState (consumeReservation owner count p)
  | .drainPendingCow => endState (drainPendingCow p)

def history (c : Config) (ops : List (Op Owner)) : Pool Owner := ops.foldl after (start c)

section Calls

variable {entries : List (BlockKey × Nat)}

omit [DecidableEq Owner] in
/-- The closing assertions change nothing, whatever follows them. -/
theorem endState_check_bind {α : Type} (a : α) (p : Pool Owner) :
    endState ((do maybeInvariantCheck; pure a : PoolM Owner α) p) = p := by
  have hstate := maybeInvariantCheck_state p
  cases hcheck : maybeInvariantCheck p with
  | ok u s =>
    rw [hcheck] at hstate
    rw [bind_of_ok hcheck]
    exact hstate
  | error e s =>
    rw [hcheck] at hstate
    rw [bind_of_error hcheck]
    exact hstate

omit [DecidableEq Owner] in
theorem endState_bind_check {α : Type} {x : PoolM Owner α} {a : α} (hx : x p = .ok a p') :
    endState ((do let _ ← x; maybeInvariantCheck : PoolM Owner Unit) p) = p' := by
  rw [bind_of_ok hx]
  exact maybeInvariantCheck_state p'

def publications : Op Owner → List (BlockKey × Nat)
  | .publishFullBlock id key => [(key, id)]
  | .cacheFullBlocks keys ids => keys.zip ids
  | .allocate .. | .incref .. | .decref _ | .ensureWritable .. | .evictCached _ | .reserve .. | .releaseReservation _
  | .consumeReservation .. | .drainPendingCow => []

/-- Only publications add to the index. -/
def OnlyPublished (p : Pool Owner) (entries : List (BlockKey × Nat)) (p' : Pool Owner) : Prop :=
  ∀ value id, id ∈ p'.holders value → id ∈ p.holders value ∨ ∃ key, (key, id) ∈ entries ∧ key.value = value

section

omit [DecidableEq Owner]

theorem OnlyPublished.of_eq (h : p'.holders = p.holders) :
    OnlyPublished p entries p' := by
  intro value id hid
  rw [h] at hid
  exact .inl hid

theorem OnlyPublished.of_filter {gone : List Nat}
    (h : ∀ value, p'.holders value = (p.holders value).filter (· ∉ gone)) : OnlyPublished p entries p' := by
  intro value id hid
  rw [h] at hid
  exact .inl (mem_of_mem_filter hid)

theorem OnlyPublished.publish {p₁ : Pool Owner} {entry : BlockKey × Nat}
    (h : OnlyPublished p entries p₁) (hentry : entry ∈ entries) :
    OnlyPublished p entries (publish entry.2 entry.1 p₁) := by
  intro value id hid
  simp only [BundlePool.publish, Function.update_apply] at hid
  split_ifs at hid with hvalue hheld
  · subst hvalue
    exact h _ id hid
  · subst hvalue
    cases mem_append.mp hid with
    | inl hold => exact h _ id hold
    | inr hnew => exact .inr ⟨entry.1, mem_singleton.mp hnew ▸ hentry, rfl⟩
  · exact h _ id hid

theorem OnlyPublished.mono {entries' : List (BlockKey × Nat)} (h : OnlyPublished p entries p')
    (hsub : entries ⊆ entries') : OnlyPublished p entries' p' := fun value id hid =>
  (h value id hid).imp_right fun ⟨key, hkey, hvalue⟩ => ⟨key, hsub hkey, hvalue⟩

end

/-- What one call preserves, whether it returns or raises. -/
structure Follows (p : Pool Owner) (entries : List (BlockKey × Nat)) (p' : Pool Owner) : Prop where
  valid : Valid p'
  published : OnlyPublished p entries p'

theorem allocate_follows (h : Valid p) (count : Nat) (owner : Owner) (entries : List (BlockKey × Nat)) :
    Follows p entries (endState (allocate count owner p)) := by
  obtain ⟨cold, hot, hwf⟩ := h
  by_cases hroom : Room p count owner
  · obtain ⟨p₁, halloc, hrun⟩ := allocate_of_room hwf hroom
    rw [hrun, endState_check_bind]
    exact ⟨⟨_, _, halloc.wellFormed⟩, OnlyPublished.of_filter halloc.taken.holders⟩
  · obtain ⟨e, herr⟩ := allocate_of_not_room hroom
    rw [herr]
    exact ⟨⟨_, _, hwf⟩, OnlyPublished.of_eq rfl⟩

theorem after_follows (h : Valid p) (op : Op Owner) : Follows p (publications op) (after p op) := by
  have hsame : ∀ entries, Follows p entries p := fun _ => ⟨h, OnlyPublished.of_eq rfl⟩
  cases op with
  | allocate count owner => exact allocate_follows h count owner _
  | incref ids owner =>
    rw [after]
    by_cases hno : (∃ id ∈ ids, ¬Usable p id) ∨ ¬Revivable p ids owner
    · obtain ⟨e, herr⟩ := incref_refused hno
      rw [herr]
      exact hsame _
    · rw [not_or, not_not] at hno
      rw [incref_checked (fun id hid => not_not.mp fun hbad => hno.1 ⟨id, hid, hbad⟩) hno.2]
      have hloop := forM_splits (l := ids) (I := IncrefUpTo p) (fun _ _ _ _ => IncrefUpTo.step)
        (fun _ _ _ _ => increfOne_error) ⟨Increfed.refl p, h, by simp, fun _ => rfl⟩
      obtain ⟨s, hrun, hdone⟩ | ⟨done, id, rest, e, s, -, hrun, hdone, -⟩ := hloop
      · exact endState_bind_check hrun ▸ ⟨hdone.valid, OnlyPublished.of_eq hdone.increfed.holders⟩
      · rw [bind_of_error hrun]
        exact ⟨hdone.valid, OnlyPublished.of_eq hdone.increfed.holders⟩
  | decref ids =>
    rw [after, decref]
    have hloop := forM_splits (l := ids) (I := DecrefUpTo p) (fun _ _ _ _ => DecrefUpTo.step)
      (fun _ _ _ _ => decrefOne_error) ⟨Decrefed.refl p, h, by simp, fun _ => rfl⟩
    obtain ⟨s, hrun, hdone⟩ | ⟨done, id, rest, e, s, -, hrun, hdone, -⟩ := hloop
    · exact endState_bind_check hrun ▸ ⟨hdone.valid, OnlyPublished.of_eq hdone.decrefed.holders⟩
    · rw [bind_of_error hrun]
      exact ⟨hdone.valid, OnlyPublished.of_eq hdone.decrefed.holders⟩
  | ensureWritable id owner =>
    rw [after]
    cases hrun : ensureWritable id owner p with
    | ok target s =>
      obtain ⟨cold, hot, hwf⟩ := h
      obtain ⟨-, ⟨-, -, -, rfl⟩ | ⟨p₁, -, -, -, halloc, rfl⟩⟩ := ensureWritable_ok hwf hrun
      · exact hsame _
      · exact ⟨⟨_, _, halloc.wellFormed.cow _⟩, OnlyPublished.of_filter halloc.taken.holders⟩
    | error e s =>
      have hfailed : failed (ensureWritable id owner p) = some s := by rw [hrun]; rfl
      obtain ⟨-, -, hallocate⟩ | ⟨-, hkept⟩ := failed_ensureWritable p id owner
      · rw [hallocate, failed_eq_some] at hfailed
        obtain ⟨e', herr⟩ := hfailed
        have hspec := allocate_follows h 1 owner (publications (.ensureWritable id owner))
        rw [herr] at hspec
        exact hspec
      · obtain rfl := hkept s hfailed
        exact hsame _
  | publishFullBlock id key =>
    rw [after, publishFullBlock]
    cases hrun : publishOne key id p with
    | ok u s =>
      obtain ⟨cold, hot, hwf⟩ := h
      obtain ⟨rfl, -, -, hwf'⟩ := publishOne_ok hwf hrun
      exact endState_bind_check hrun ▸ ⟨⟨_, _, hwf'⟩, (hsame _).published.publish (mem_singleton_self (key, id))⟩
    | error e s =>
      rw [bind_of_error hrun]
      exact publishOne_error hrun ▸ hsame _
  | cacheFullBlocks keys ids =>
    rw [after, cacheFullBlocks]
    by_cases hlen : keys.length ≠ ids.length
    · rw [bind_of_error (raiseIf_of hlen p)]
      exact hsame _
    · rw [bind_of_ok (raiseIf_of_not hlen p)]
      have hstep : ∀ done entry (s s' : Pool Owner), PublishedUpTo p done s ∧ OnlyPublished p done s →
          publishOne entry.1 entry.2 s = .ok ⟨⟩ s' →
            PublishedUpTo p (done ++ [entry]) s' ∧ OnlyPublished p (done ++ [entry]) s' := by
        intro done entry s s' hdone hrun
        refine ⟨hdone.1.step hrun, ?_⟩
        obtain ⟨-, rfl⟩ := publishOne_eq_ok.mp hrun
        exact (hdone.2.mono (subset_append_left _ _)).publish
          (mem_append_right _ (mem_singleton_self entry))
      have hloop := forM_splits (l := keys.zip ids) hstep (fun _ _ _ _ => publishOne_error)
        ⟨PublishedUpTo.start h, OnlyPublished.of_eq rfl⟩
      obtain ⟨s, hrun, hdone⟩ | ⟨done, entry, rest, e, s, hsplit, hrun, hdone, -⟩ := hloop
      · exact endState_bind_check hrun ▸ ⟨hdone.1.valid, hdone.2⟩
      · rw [bind_of_error hrun]
        have hdone_subset : done ⊆ keys.zip ids := hsplit ▸ subset_append_left _ _
        exact ⟨hdone.1.valid, hdone.2.mono hdone_subset⟩
  | evictCached count =>
    obtain ⟨cold, hot, hwf⟩ := h
    obtain ⟨s, hevicted, hwf', hrun⟩ := evictCached_eq hwf count
    rw [after, hrun, endState_check_bind]
    exact ⟨⟨_, _, hwf'⟩, OnlyPublished.of_filter hevicted.holders⟩
  | reserve count owner =>
    apply (reserve_ends h).endState
    · rintro granted s ⟨hvalid, hrefused, hgranted⟩
      cases granted with
      | false => exact hrefused rfl ▸ hsame _
      | true =>
        obtain ⟨-, -, promises, rfl, -⟩ := hgranted rfl
        exact ⟨hvalid, OnlyPublished.of_eq rfl⟩
    · exact fun _ hs => hs ▸ hsame _
  | releaseReservation owner =>
    obtain ⟨cold, hot, hwf⟩ := h
    exact ⟨⟨_, _, hwf.unpromise owner⟩, OnlyPublished.of_eq rfl⟩
  | consumeReservation count owner =>
    apply (consumeReservation_ends h).endState
    · rintro _ s ⟨hvalid, promises, rfl, -⟩
      exact ⟨hvalid, OnlyPublished.of_eq rfl⟩
    · exact fun _ hs => hs.1 ▸ hsame _
  | drainPendingCow =>
    obtain ⟨cold, hot, hwf⟩ := h
    exact ⟨⟨_, _, hwf.cow ∅⟩, OnlyPublished.of_eq rfl⟩

theorem history_valid (c : Config) (ops : List (Op Owner)) : Valid (history c ops) := by
  suffices h : ∀ p : Pool Owner, Valid p → Valid (ops.foldl after p) from h _ (start_valid c)
  induction ops with
  | nil => exact fun _ h => h
  | cons op ops ih => exact fun p h => ih (after p op) (after_follows h op).valid

/-- Whatever the index finds was published for that bundle by a call of the history. -/
theorem history_published (c : Config) (ops : List (Op Owner)) {value id : Nat}
    (hid : id ∈ (history c ops).holders value) :
    ∃ op ∈ ops, ∃ key, (key, id) ∈ publications op ∧ key.value = value := by
  induction ops using reverseRecOn with
  | nil => exact absurd hid not_mem_nil
  | append_singleton ops op ih =>
    rw [history, foldl_append] at hid
    cases (after_follows (history_valid c ops) op).published value id hid with
    | inl hold =>
      obtain ⟨op', hop', key, hkey⟩ := ih hold
      exact ⟨op', mem_append_left _ hop', key, hkey⟩
    | inr hnew =>
      obtain ⟨key, hkey⟩ := hnew
      exact ⟨op, mem_append_right _ (mem_singleton_self op), key, hkey⟩

end Calls

section Refusals

/-- `reserve` and `consume_reservation` test first. -/
theorem atomic_promises (h : Valid p) (count : Nat) (owner : Owner) :
    Atomic p (.reserve count owner) ∧ Atomic p (.consumeReservation count owner) := by
  constructor
  · intro p' hp'
    obtain ⟨e, herr⟩ := failed_eq_some.mp hp'
    rw [(reserve_ends h).error_of herr]
    exact SameBooks.refl p
  · intro p' hp'
    obtain ⟨e, herr⟩ := failed_eq_some.mp hp'
    rw [((consumeReservation_ends h).error_of herr).1]
    exact SameBooks.refl p

/-- After every history, a call that raises leaves the books alone exactly where `Clean` says so. -/
theorem refused_unchanged_iff (c : Config) (ops : List (Op Owner)) (op : Guarded Owner) :
    Atomic (history c ops) op ↔ Clean (history c ops) op := by
  have h := history_valid c ops
  cases op with
  | allocate count owner => exact atomic_allocate_iff h
  | incref ids owner => exact atomic_incref_iff h
  | decref ids => exact atomic_decref_iff h
  | ensureWritable id owner => exact atomic_ensureWritable_iff h
  | cacheFullBlocks keys ids => exact atomic_cacheFullBlocks_iff h
  | reserve count owner => exact iff_of_true (atomic_promises h count owner).1 trivial
  | consumeReservation count owner => exact iff_of_true (atomic_promises h count owner).2 trivial

/-- `decref([1, 3])` in a pool of the bundles 1 and 2: the unknown bundle is refused, and bundle 1 is free. -/
theorem decref_half_done : ∃ p', refuse (history twoBundles [.allocate 2 0]) (.decref [1, 3]) = some p' ∧
    (history twoBundles [.allocate 2 0]).refCnt 1 = 1 ∧ p'.refCnt 1 = 0 ∧
    ¬Atomic (history twoBundles [.allocate 2 0]) (.decref [1, 3]) := by
  have hcounts : (refuse (history twoBundles [.allocate 2 0]) (.decref [1, 3])).map (·.refCnt 1) = some 0 := rfl
  have hone : (history twoBundles [.allocate 2 0]).refCnt 1 = 1 := rfl
  obtain ⟨p', hp', hzero⟩ := Option.map_eq_some_iff.mp hcounts
  refine ⟨p', hp', hone, hzero, fun hatomic => ?_⟩
  have hsame := (hatomic p' hp').refCnt
  rw [hsame, hone] at hzero
  cases hzero

end Refusals

section Eviction

/-- After every history, `evict_cached` returns and evicts the oldest cached bundles exactly when the closing
assertions can pass and the oldest ones have the smallest numbers. -/
theorem evictCached_oldest_iff (c : Config) (ops : List (Op Owner)) (count : Nat) :
    ∃ cold hot, WellFormed (history c ops) cold hot ∧
      ((∃ p', evictCached count (history c ops) = .ok (min count hot.length) p' ∧
          EvictsOldest (history c ops) cold hot count p') ↔
        AssertionsPass (history c ops).config ∧ ∀ a ∈ hot.take count, ∀ b ∈ hot.drop count, a < b) := by
  obtain ⟨cold, hot, hwf⟩ := history_valid c ops
  obtain ⟨s, hevicted, hwf', hrun⟩ := evictCached_eq hwf count
  refine ⟨cold, hot, hwf, ?_⟩
  rw [← evictsOldest_iff hwf hevicted hwf', hrun, ← hevicted.config]
  constructor
  · rintro ⟨p', hok, holdest⟩
    obtain ⟨⟨⟩, s', hcheck, hpure⟩ := bind_eq_ok.mp hok
    cases maybeInvariantCheck_eq_ok hcheck
    cases hpure
    refine ⟨?_, holdest⟩
    by_contra hno
    obtain ⟨e, herr⟩ := maybeInvariantCheck_fails hwf' hno
    rw [herr] at hcheck
    cases hcheck
  · rintro ⟨hpass, holdest⟩
    exact ⟨s, by rw [bind_of_ok (maybeInvariantCheck_passes hwf' hpass)]; rfl, holdest⟩

/-- Both bundles are published, and bundle 2 is released first. -/
def releasedBackwards : List (Op Nat) :=
  [.allocate 2 0, .publishFullBlock 1 ⟨7, 64⟩, .publishFullBlock 2 ⟨8, 128⟩, .decref [2], .decref [1]]

/-- The queue holds bundle 2 in front of bundle 1; the eviction takes bundle 1, and bundle 2 stays cached. -/
theorem evictCached_newest :
    (∀ cold hot, WellFormed (history twoBundles releasedBackwards) cold hot → hot = [2, 1]) ∧
    ∃ p', evictCached 1 (history twoBundles releasedBackwards) = .ok 1 p' ∧ p'.evictions = [1] ∧
      p'.blockHash 1 = none ∧ p'.blockHash 2 = some ⟨8, 128⟩ := by
  constructor
  · intro cold hot hwf
    have hreleases : (history twoBundles releasedBackwards).releases.dedup = [2, 1] := rfl
    have hcandidates : candidates (history twoBundles releasedBackwards) = [1, 2] := rfl
    have hsub := hwf.released
    rw [hreleases] at hsub
    apply hsub.eq_of_length
    rw [← (perm_candidates hwf).length_eq, hcandidates]
    rfl
  · cases hrun : evictCached 1 (history twoBundles releasedBackwards) with
    | ok n p' =>
      have hseen : (match evictCached 1 (history twoBundles releasedBackwards) with
          | .ok n p' => some (n, p'.evictions, p'.blockHash 1, p'.blockHash 2)
          | .error _ _ => none) = some (1, [1], none, some ⟨8, 128⟩) := rfl
      rw [hrun] at hseen
      simp only [Option.some.injEq, Prod.mk.injEq] at hseen
      obtain ⟨rfl, hevictions, hfirst, hsecond⟩ := hseen
      exact ⟨p', rfl, hevictions, hfirst, hsecond⟩
    | error e p' =>
      have hreturns : (succeeded (evictCached 1 (history twoBundles releasedBackwards))).isSome = true := rfl
      rw [hrun] at hreturns
      cases hreturns

end Eviction

end BundlePool
