import BlackweLLM.PoolExchange

/-!
# The order of an eviction

`evict_cached` of `runtime/model/qwen36_kv_arena.py` walks the bundles by their number
and takes the first cached ones. The queue holds the cached bundles in the order of
their release. The two choices agree when the oldest ones have the smallest numbers.
-/

namespace BundlePool

open List RaisingState

variable {Owner : Type} [DecidableEq Owner] {p p' : Pool Owner} {cold hot ids : List Nat} {count : Nat}

/-- The bundles that `evict_cached` walks. -/
def candidates (p : Pool Owner) : List Nat :=
  (range p.config.numBundles).filter fun id => decide (p.refCnt id = 0) && (p.blockHash id).isSome

omit [DecidableEq Owner] in
theorem nodup_candidates (p : Pool Owner) : (candidates p).Nodup := nodup_range.filter _

omit [DecidableEq Owner] in
theorem sorted_candidates (p : Pool Owner) : (candidates p).Pairwise (· < ·) := pairwise_lt_range.filter _

theorem mem_candidates (h : WellFormed p cold hot) (id : Nat) : id ∈ candidates p ↔ id ∈ hot := by
  simp only [candidates, mem_filter, mem_range, Bool.and_eq_true, decide_eq_true_eq]
  constructor
  · rintro ⟨-, hzero, hsome⟩
    have husable : Usable p id := by
      by_contra hnot
      rw [(h.reserved id hnot).2] at hsome
      cases hsome
    cases mem_append.mp ((h.mem_iff id).mpr ⟨husable, hzero⟩) with
    | inl hcold =>
      rw [h.unhashed id hcold] at hsome
      cases hsome
    | inr hhot => exact hhot
  · intro hhot
    obtain ⟨husable, hzero⟩ := (h.mem_iff id).mp (mem_append_right _ hhot)
    exact ⟨husable.2, hzero, h.hashed id hhot⟩

theorem perm_candidates (h : WellFormed p cold hot) : (candidates p).Perm hot := by
  rw [perm_ext_iff_of_nodup (nodup_candidates p) (nodup_append.mp h.links.nodup).2.1]
  exact mem_candidates h

/-- What the eviction of `ids` does. -/
structure Evicted (p : Pool Owner) (ids : List Nat) (p' : Pool Owner) : Prop where
  config : p'.config = p.config
  refCnt : p'.refCnt = p.refCnt
  freeLen : p'.freeLen = p.freeLen
  reservations : p'.reservations = p.reservations
  pendingCow : p'.pendingCow = p.pendingCow
  blockHash : ∀ b, p'.blockHash b = if b ∈ ids then none else p.blockHash b
  bundleHashes : ∀ b, p'.bundleHashes b = if b ∈ ids then ∅ else p.bundleHashes b
  holders : ∀ value, p'.holders value = (p.holders value).filter (· ∉ ids)
  evictions : p'.evictions = p.evictions ++ ids

omit [DecidableEq Owner] in
theorem Evicted.refl (p : Pool Owner) : Evicted p [] p := by
  constructor <;> simp

theorem Evicted.concat {p₁ : Pool Owner} {id : Nat} (h : Evicted p ids p₁) (hwf : WellFormed p₁ cold hot)
    (hmem : id ∈ hot) :
    Evicted p (ids ++ [id]) (freePrepend id (fireEviction id (dropHash id (freeRemove id p₁)))) := by
  have hindexed : Indexed (freeRemove id p₁) := { hwf.toIndexed with }
  have hlen : p₁.freeLen - 1 + 1 = p₁.freeLen := by
    have hpos : 0 < p₁.freeLen := by
      rw [hwf.len]
      exact length_pos_of_mem (mem_append_right _ hmem)
    omega
  refine ⟨h.config, h.refCnt, hlen.trans h.freeLen, h.reservations, h.pendingCow, ?_, ?_, ?_, ?_⟩
  · intro b
    by_cases hb : b = id
    · simp [freePrepend, fireEviction, dropHash, hb]
    · simp [freePrepend, fireEviction, dropHash, freeRemove, hb, h.blockHash]
  · intro b
    by_cases hb : b = id
    · simp [freePrepend, fireEviction, dropHash, hb]
    · simp [freePrepend, fireEviction, dropHash, freeRemove, hb, h.bundleHashes]
  · intro value
    change (dropHash id (freeRemove id p₁)).holders value = _
    rw [dropHash_holders hindexed]
    change (p₁.holders value).filter (· ≠ id) = _
    rw [h.holders, filter_filter]
    apply filter_congr
    intro b _
    simp [and_comm]
  · change p₁.evictions ++ [id] = _
    rw [h.evictions, append_assoc]

theorem evictLoop_of (h : WellFormed p cold hot) (hnodup : ids.Nodup) (hids : ∀ id ∈ ids, id ∈ hot) :
    ∃ p', (forM ids evictOne) p = .ok ⟨⟩ p' ∧ Evicted p ids p' ∧
      WellFormed p' (ids.reverse ++ cold) (hot.filter (· ∉ ids)) := by
  refine forM_succeeds
    (I := fun done s => Evicted p done s ∧ WellFormed s (done.reverse ++ cold) (hot.filter (· ∉ done))) ?_ ?_
  · rintro done id rest s hsplit ⟨hevicted, hwf⟩
    have hnew : id ∉ done := by
      rw [hsplit] at hnodup
      exact fun hmem => disjoint_of_nodup_append hnodup hmem (by simp)
    have hhot : id ∈ hot.filter (· ∉ done) := mem_filter.mpr ⟨hids id (by simp [hsplit]), by simpa using hnew⟩
    have herase : (hot.filter (· ∉ done)).erase id = hot.filter (· ∉ done ++ [id]) := by
      rw [(nodup_append.mp hwf.links.nodup).2.1.erase_eq_filter, filter_filter]
      apply filter_congr
      intro b _
      by_cases hb : b = id <;> simp [hb]
    refine ⟨_, evictOne_of hwf hhot, hevicted.concat hwf hhot, ?_⟩
    have hwf' := hwf.evict hhot
    rw [herase] at hwf'
    simpa using hwf'
  · exact ⟨Evicted.refl p, by simpa using h⟩

/-- The call evicts the first candidates, and raises only if the closing assertions do. -/
theorem evictCached_eq (h : WellFormed p cold hot) (count : Nat) :
    ∃ p', Evicted p ((candidates p).take count) p' ∧
      WellFormed p' (((candidates p).take count).reverse ++ cold) (hot.filter (· ∉ (candidates p).take count)) ∧
      evictCached count p = (do maybeInvariantCheck; pure (min count hot.length) : PoolM Owner Nat) p' := by
  have hnodup : ((candidates p).take count).Nodup := (nodup_candidates p).sublist (take_sublist _ _)
  obtain ⟨p', hloop, hevicted, hwf⟩ := evictLoop_of h hnodup fun id hid =>
    (mem_candidates h id).mp (mem_of_mem_take hid)
  refine ⟨p', hevicted, hwf, ?_⟩
  have hlen : ((candidates p).take count).length = min count hot.length := by
    rw [length_take, (perm_candidates h).length_eq]
  rw [evictCached, bind_of_ok (get_apply p)]
  change (forM ((candidates p).take count) evictOne >>= _) p = _
  rw [bind_of_ok hloop, ← hlen]
  rfl

/-- The oldest cached bundles lose their keys, and all others keep theirs, their references and their order. -/
structure EvictsOldest (p : Pool Owner) (cold hot : List Nat) (count : Nat) (p' : Pool Owner) : Prop where
  dropped : ∀ id, p'.blockHash id = if id ∈ hot.take count then none else p.blockHash id
  keys : ∀ id, p'.bundleHashes id = if id ∈ hot.take count then ∅ else p.bundleHashes id
  holders : ∀ value, p'.holders value = (p.holders value).filter (· ∉ hot.take count)
  refCnt : p'.refCnt = p.refCnt
  reservations : p'.reservations = p.reservations
  fired : ∃ ids, ids.Perm (hot.take count) ∧ p'.evictions = p.evictions ++ ids
  order : ∃ front, front.Perm (hot.take count) ∧ WellFormed p' (front ++ cold) (hot.drop count)

/-- The first entries of two arrangements of the same numbers, one of them ascending, are the same numbers exactly
when they are the smallest. -/
theorem mem_take_iff {sorted queue : List Nat} (hsorted : sorted.Pairwise (· < ·)) (hperm : sorted.Perm queue)
    (count : Nat) : (∀ id, id ∈ sorted.take count ↔ id ∈ queue.take count) ↔
      ∀ a ∈ queue.take count, ∀ b ∈ queue.drop count, a < b := by
  have hnodup : sorted.Nodup := hsorted.imp ne_of_lt
  have hqueue : queue.Nodup := hperm.nodup_iff.mp hnodup
  have hsplit {l : List Nat} (hl : l.Nodup) : ∀ a ∈ l.take count, ∀ b ∈ l.drop count, a ≠ b := by
    rw [← take_append_drop count l] at hl
    exact (nodup_append.mp hl).2.2
  have hless : ∀ a ∈ sorted.take count, ∀ b ∈ sorted.drop count, a < b := by
    rw [← take_append_drop count sorted] at hsorted
    exact (pairwise_append.mp hsorted).2.2
  have hrest {l : List Nat} {a : Nat} (ha : a ∈ l) (hout : a ∉ l.take count) : a ∈ l.drop count := by
    rw [← take_append_drop count l] at ha
    exact (mem_append.mp ha).resolve_left hout
  constructor
  · intro hsame a ha b hb
    have hbmem : b ∈ sorted := hperm.mem_iff.mpr (mem_of_mem_drop hb)
    have hbout : b ∉ sorted.take count := fun hin => hsplit hqueue b ((hsame b).mp hin) b hb rfl
    exact hless a ((hsame a).mpr ha) b (hrest hbmem hbout)
  · intro hsmall
    have hlen : (sorted.take count).length = (queue.take count).length := by
      rw [length_take, length_take, hperm.length_eq]
    by_contra hdiffer
    have hout : ¬(sorted.take count ⊆ queue.take count) := by
      intro hsub
      have hsubperm := subperm_of_subset (hnodup.sublist (take_sublist count sorted)) hsub
      exact hdiffer fun id => (hsubperm.perm_of_length_le (le_of_eq hlen.symm)).mem_iff
    have hout' : ¬(queue.take count ⊆ sorted.take count) := by
      intro hsub
      have hsubperm := subperm_of_subset (hqueue.sublist (take_sublist count queue)) hsub
      exact hdiffer fun id => (hsubperm.perm_of_length_le (le_of_eq hlen)).mem_iff.symm
    simp only [subset_def, not_forall] at hout hout'
    obtain ⟨x, hx, hxout⟩ := hout
    obtain ⟨y, hy, hyout⟩ := hout'
    have hxdrop := hrest (hperm.mem_iff.mp (mem_of_mem_take hx)) hxout
    have hydrop := hrest (hperm.mem_iff.mpr (mem_of_mem_take hy)) hyout
    exact absurd (hsmall y hy x hxdrop) (lt_asymm (hless x hx y hydrop))

/-- The candidates taken are the oldest ones exactly when those have the smallest numbers. -/
theorem evictsOldest_iff (h : WellFormed p cold hot) {p' : Pool Owner}
    (hevicted : Evicted p ((candidates p).take count) p')
    (hwf : WellFormed p' (((candidates p).take count).reverse ++ cold) (hot.filter (· ∉ (candidates p).take count))) :
    EvictsOldest p cold hot count p' ↔ ∀ a ∈ hot.take count, ∀ b ∈ hot.drop count, a < b := by
  have hnodup : hot.Nodup := (nodup_append.mp h.links.nodup).2.1
  rw [← mem_take_iff (sorted_candidates p) (perm_candidates h)]
  constructor
  · intro holdest id
    have hnone (hmem : id ∈ hot) : p'.blockHash id = none ↔ id ∈ hot.take count := by
      rw [holdest.dropped]
      have hsome := h.hashed id hmem
      by_cases hin : id ∈ hot.take count
      · simp [hin]
      · simp [hin, Option.isSome_iff_ne_none.mp hsome]
    have hnone' (hmem : id ∈ hot) : p'.blockHash id = none ↔ id ∈ (candidates p).take count := by
      rw [hevicted.blockHash]
      have hsome := h.hashed id hmem
      by_cases hin : id ∈ (candidates p).take count
      · simp [hin]
      · simp [hin, Option.isSome_iff_ne_none.mp hsome]
    constructor
    · intro hin
      have hmem := (mem_candidates h id).mp (mem_of_mem_take hin)
      exact (hnone hmem).mp ((hnone' hmem).mpr hin)
    · intro hin
      have hmem := mem_of_mem_take hin
      exact (hnone' hmem).mp ((hnone hmem).mpr hin)
  · intro hsame
    have hperm : ((candidates p).take count).Perm (hot.take count) := by
      rw [perm_ext_iff_of_nodup ((nodup_candidates p).sublist (take_sublist _ _))
        (hnodup.sublist (take_sublist _ _))]
      exact hsame
    have hleft : hot.filter (· ∉ (candidates p).take count) = hot.drop count := by
      have hsplit := hnodup
      rw [← take_append_drop count hot, nodup_append] at hsplit
      conv_lhs => rw [← take_append_drop count hot, filter_append]
      rw [filter_eq_nil_iff.mpr fun id hid => by simpa using (hsame id).mpr hid, nil_append,
        filter_eq_self]
      intro id hid
      have hout : id ∉ (candidates p).take count := fun hin => hsplit.2.2 id ((hsame id).mp hin) id hid rfl
      simpa using hout
    refine ⟨?_, ?_, ?_, hevicted.refCnt, hevicted.reservations, ⟨_, hperm, hevicted.evictions⟩, ?_⟩
    · intro id
      simp only [hevicted.blockHash, hsame]
    · intro id
      simp only [hevicted.bundleHashes, hsame]
    · intro value
      simp only [hevicted.holders, hsame]
    · exact ⟨_, (reverse_perm _).trans hperm, hleft ▸ hwf⟩

end BundlePool
