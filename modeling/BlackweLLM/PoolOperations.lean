import BlackweLLM.PoolInvariant
import BlackweLLM.StepRun

/-!
# The operations of the bundle pool

What every public operation does to a well-formed pool, and what holds after
any run of them.
-/

namespace BundlePool

open List Function LinkedQueue RaisingState

variable {Owner : Type} {p p' : Pool Owner} {cold hot : List Nat} {id count : Nat} {owner : Owner}
  {ids : List Nat}

section Counting

structure Increfed (p : Pool Owner) (ids : List Nat) (p' : Pool Owner) : Prop extends Refs p p' where
  refCnt : ∀ b, p'.refCnt b = p.refCnt b + ids.count b
  releases : p'.releases = p.releases

structure Decrefed (p : Pool Owner) (ids : List Nat) (p' : Pool Owner) : Prop extends Refs p p' where
  refCnt : ∀ b, p'.refCnt b + ids.count b = p.refCnt b

theorem Increfed.concat {p₁ : Pool Owner} (h : Increfed p ids p₁) (h₁ : Referenced p₁ id p') :
    Increfed p (ids ++ [id]) p' where
  toRefs := h.toRefs.trans h₁.toRefs
  refCnt := by
    intro b
    rw [h₁.refCnt, update_apply, count_append, count_singleton]
    by_cases hb : b = id
    · subst hb
      simp [h.refCnt, add_assoc]
    · simp [hb, Ne.symm hb, h.refCnt]
  releases := h₁.releases.trans h.releases

theorem Decrefed.concat {p₁ : Pool Owner} (h : Decrefed p ids p₁) (h₁ : Released p₁ id p') :
    Decrefed p (ids ++ [id]) p' where
  toRefs := h.toRefs.trans h₁.toRefs
  refCnt := by
    intro b
    rw [h₁.refCnt, update_apply, count_append, count_singleton, ← h.refCnt b]
    by_cases hb : b = id
    · subst hb
      have hlive := h₁.live
      simp
      omega
    · simp [hb, Ne.symm hb]

theorem checkRange_error {e : PoolError} (h : checkRange id p = .error e p') : p' = p := by
  simp only [checkRange, bind_eq_error, get_apply, raiseIf_eq_error, raiseIf_eq_ok] at h
  rcases h with h | ⟨q, s, hget, ⟨-, -, rfl⟩ | ⟨-, _, ⟨-, rfl⟩, -, -, rfl⟩⟩
  · cases h
  · cases hget
    rfl
  · cases hget
    rfl

theorem forM_checkRange_of (h : ∀ id ∈ ids, Usable p id) : (forM ids checkRange) p = .ok ⟨⟩ p := by
  induction ids with
  | nil => rfl
  | cons id ids ih =>
    rw [forM_cons, bind_of_ok (checkRange_of (h id (by simp)))]
    exact ih fun b hb => h b (by simp [hb])

theorem forM_checkRange_eq_ok {u : Unit} (h : (forM ids checkRange) p = .ok u p') :
    p' = p ∧ ∀ id ∈ ids, Usable p id := by
  induction ids with
  | nil =>
    cases h
    exact ⟨rfl, by simp⟩
  | cons id ids ih =>
    rw [forM_cons, bind_eq_ok] at h
    obtain ⟨⟨⟩, p₁, hfirst, hrest⟩ := h
    obtain ⟨hid, rfl⟩ := checkRange_eq_ok.mp hfirst
    obtain ⟨hsame, hids⟩ := ih hrest
    exact ⟨hsame, forall_mem_cons.mpr ⟨hid, hids⟩⟩

end Counting

variable [DecidableEq Owner]

def Valid (p : Pool Owner) : Prop := ∃ cold hot, WellFormed p cold hot

section Start

theorem represents_foldl_append {xs : List Nat} {l : Links Nat} (h : l.Represents xs) :
    ∀ ys : List Nat, (xs ++ ys).Nodup → (ys.foldl Links.append l).Represents (xs ++ ys)
  | [], _ => by simpa using h
  | y :: ys, hnodup => by
    have hy : y ∉ xs := fun hmem => disjoint_of_nodup_append hnodup hmem (by simp)
    have hnext := represents_foldl_append (h.append hy) ys (by simpa using hnodup)
    simpa using hnext

theorem mem_usable {c : Config} : id ∈ c.usable ↔ c.reserved ≤ id ∧ id < c.numBundles := by
  have hlt := c.reserved_lt
  rw [Config.usable, mem_range'_1]
  omega

theorem nodup_usable (c : Config) : c.usable.Nodup := nodup_range'

theorem start_wellFormed (c : Config) : WellFormed (start c : Pool Owner) c.usable [] where
  links := by
    rw [append_nil]
    exact represents_foldl_append Links.represents_empty c.usable (by simpa using nodup_usable c)
  len := by simp [start]
  mem_iff := by simp [start, mem_usable, Usable]
  unhashed := by simp [start]
  hashed := by simp
  released := by simp [start]
  reserved := by simp [start]
  inverse := by simp [start]
  nodup := by simp [start]
  key_value := by simp [start]
  keyless := by simp [start]
  keyed := by simp [start]
  promised := by simp [start]

theorem start_valid (c : Config) : Valid (start c : Pool Owner) := ⟨_, _, start_wellFormed c⟩

end Start

section Assertions

/-- The length of the queue, read off the reference counts. -/
theorem WellFormed.freeLen_eq (h : WellFormed p cold hot) :
    p.freeLen = p.config.usable.countP fun id => decide (p.refCnt id = 0) := by
  have hperm : (cold ++ hot).Perm (p.config.usable.filter fun id => decide (p.refCnt id = 0)) := by
    rw [perm_ext_iff_of_nodup h.links.nodup ((nodup_usable _).filter _)]
    intro id
    rw [h.mem_iff id]
    simp [mem_usable, Usable]
  rw [h.len, hperm.length_eq, countP_eq_length_filter]

/-- With the null bundle as the only reserved one, the assertions of the pool never fire. -/
theorem WellFormed.checked (h : WellFormed p cold hot) (hnull : p.config.reserved = 1) : Checked p := by
  intro _
  constructor
  · simp only [lifecycleHolds, all_eq_true, mem_range]
    intro id hid
    by_cases hzero : id = 0
    · subst hzero
      have hreserved := h.reserved 0 (by simp [Usable, hnull])
      simp [isNull, hreserved]
    · have husable : Usable p id := ⟨by omega, hid⟩
      have hqueued : p.free.contains id = true ↔ p.refCnt id = 0 := by
        rw [h.links.contains_iff, h.mem_iff]
        simp [husable]
      by_cases hlive : 0 < p.refCnt id
      · have hout : p.free.contains id ≠ true := fun hin => ne_of_gt hlive (hqueued.mp hin)
        simp [isNull, hzero, hlive, hout]
      · have hin : p.free.contains id = true := hqueued.mpr (Nat.eq_zero_of_not_pos hlive)
        simp [isNull, hzero, hlive, hin]
  · have hperm : ((range p.config.numBundles).filter fun id => decide (0 < p.refCnt id)).Perm
        (p.config.usable.filter fun id => decide (0 < p.refCnt id)) := by
      rw [perm_ext_iff_of_nodup (nodup_range.filter _) ((nodup_usable _).filter _)]
      intro id
      simp only [mem_filter, mem_range, mem_usable, decide_eq_true_eq]
      constructor
      · rintro ⟨hid, hlive⟩
        by_cases husable : Usable p id
        · exact ⟨husable, hlive⟩
        · rw [(h.reserved id husable).1] at hlive
          exact absurd hlive (lt_irrefl 0)
      · rintro ⟨husable, hlive⟩
        exact ⟨husable.2, hlive⟩
    have hlive : liveUnique p = p.config.usable.countP fun id => !decide (p.refCnt id = 0) := by
      rw [liveUnique, countP_eq_length_filter, hperm.length_eq, ← countP_eq_length_filter]
      apply countP_congr
      intro id _
      simp [Nat.pos_iff_ne_zero]
    have hsplit := length_eq_countP_add_countP (l := p.config.usable) fun id => decide (p.refCnt id = 0)
    have hrest : (p.config.usable.countP fun id => decide ¬decide (p.refCnt id = 0) = true) =
        p.config.usable.countP fun id => !decide (p.refCnt id = 0) := by
      apply countP_congr
      intro id _
      simp
    have htotal : p.config.usable.length = p.config.numBundles - p.config.reserved := length_range'
    have hlt := p.config.reserved_lt
    rw [hrest, ← hlive, ← h.freeLen_eq, htotal] at hsplit
    simp only [accounted, decide_eq_true_eq]
    omega

end Assertions

section References

/-- What `incref` asks for revived bundles before it touches the pool. -/
def Revivable (p : Pool Owner) (ids : List Nat) (owner : Owner) : Prop :=
  ¬(reservedFor p owner < (ids.countP fun id => decide (p.refCnt id = 0)) ∧
    unreservedFree p < (ids.countP fun id => decide (p.refCnt id = 0)) - reservedFor p owner)

theorem incref_ok (h : WellFormed p cold hot) {u : Unit} (hok : incref ids owner p = .ok u p') :
    (∀ id ∈ ids, Usable p id) ∧ Revivable p ids owner ∧ Increfed p ids p' ∧ ∃ hot', WellFormed p' cold hot' := by
  simp only [incref, bind_eq_ok, raiseIf_eq_ok, get_apply, EStateM.Result.ok.injEq] at hok
  obtain ⟨⟨⟩, p₀, hrange, _, _, ⟨rfl, rfl⟩, ⟨⟩, _, ⟨hcapacity, rfl⟩, ⟨⟩, p₁, hloop, hcheck⟩ := hok
  obtain ⟨rfl, hids⟩ := forM_checkRange_eq_ok hrange
  cases maybeInvariantCheck_eq_ok hcheck
  have hdone : Increfed p₀ ids p' ∧ ∃ hot', WellFormed p' cold hot' := by
    refine forM_ok (I := fun done s => Increfed p₀ done s ∧ ∃ hot', WellFormed s cold hot') ?_ ?_ hloop
    · rintro done id rest s s' - ⟨hincref, hot', hwf⟩ hstep
      obtain ⟨hreferenced, hwf'⟩ := increfOne_ok hwf hstep
      exact ⟨hincref.concat hreferenced, _, hwf'⟩
    · exact ⟨⟨Refs.refl p₀, by simp, rfl⟩, hot, h⟩
  exact ⟨hids, hcapacity, hdone⟩

theorem increfLoop_of (h : WellFormed p cold hot) (hids : ∀ id ∈ ids, Usable p id)
    (hcontent : ∀ id ∈ ids, p.refCnt id = 0 → (p.blockHash id).isSome) :
    ∃ p', (forM ids increfOne) p = .ok ⟨⟩ p' ∧ Increfed p ids p' ∧ ∃ hot', WellFormed p' cold hot' := by
  refine forM_succeeds (I := fun done s => Increfed p done s ∧ ∃ hot', WellFormed s cold hot') ?_ ?_
  · rintro done id rest s hsplit ⟨hincref, hot', hwf⟩
    have hid : id ∈ ids := by simp [hsplit]
    have husable : Usable s id := (hincref.usable id).mpr (hids id hid)
    have hhashed : s.refCnt id = 0 → (s.blockHash id).isSome := by
      rw [hincref.refCnt, hincref.blockHash]
      exact fun hzero => hcontent id hid (by omega)
    obtain ⟨s', hstep, hreferenced, hwf'⟩ := increfOne_of hwf husable hhashed
    exact ⟨s', hstep, hincref.concat hreferenced, _, hwf'⟩
  · exact ⟨⟨Refs.refl p, by simp, rfl⟩, hot, h⟩

theorem incref_of (h : WellFormed p cold hot) (hnull : p.config.reserved = 1) (hids : ∀ id ∈ ids, Usable p id)
    (hcontent : ∀ id ∈ ids, p.refCnt id = 0 → (p.blockHash id).isSome) (hcapacity : Revivable p ids owner) :
    ∃ p', incref ids owner p = .ok ⟨⟩ p' ∧ Increfed p ids p' ∧ ∃ hot', WellFormed p' cold hot' := by
  obtain ⟨p₁, hloop, hincref, hot', hwf⟩ := increfLoop_of h hids hcontent
  have hchecked := maybeInvariantCheck_of (hwf.checked (by rw [hincref.config, hnull]))
  refine ⟨p₁, ?_, hincref, hot', hwf⟩
  simp only [incref, bind_of_ok (forM_checkRange_of hids), bind_of_ok (get_apply p),
    bind_of_ok (raiseIf_of_not hcapacity p), bind_of_ok hloop, hchecked]

theorem decref_ok (h : Valid p) {u : Unit} (hok : decref ids p = .ok u p') : Decrefed p ids p' ∧ Valid p' := by
  simp only [decref, bind_eq_ok] at hok
  obtain ⟨⟨⟩, p₁, hloop, hcheck⟩ := hok
  cases maybeInvariantCheck_eq_ok hcheck
  refine forM_ok (I := fun done s => Decrefed p done s ∧ Valid s) ?_ ?_ hloop
  · rintro done id rest s s' - ⟨hdecref, cold, hot, hwf⟩ hstep
    obtain ⟨hreleased, hwf'⟩ := decrefOne_ok hwf hstep
    exact ⟨hdecref.concat hreleased, _, _, hwf'⟩
  · exact ⟨⟨Refs.refl p, by simp⟩, h⟩

theorem decrefLoop_of (h : Valid p) (hids : ∀ id ∈ ids, Usable p id) (hcount : ∀ b, ids.count b ≤ p.refCnt b) :
    ∃ p', (forM ids decrefOne) p = .ok ⟨⟩ p' ∧ Decrefed p ids p' ∧ Valid p' := by
  refine forM_succeeds (I := fun done s => Decrefed p done s ∧ Valid s) ?_ ?_
  · rintro done id rest s hsplit ⟨hdecref, cold, hot, hwf⟩
    have husable : Usable s id := (hdecref.usable id).mpr (hids id (by simp [hsplit]))
    have hlive : 0 < s.refCnt id := by
      have hle := hcount id
      rw [hsplit, count_append, count_cons_self, ← hdecref.refCnt id] at hle
      omega
    obtain ⟨s', hstep, hreleased, hwf'⟩ := decrefOne_of hwf husable hlive
    exact ⟨s', hstep, hdecref.concat hreleased, _, _, hwf'⟩
  · exact ⟨⟨Refs.refl p, by simp⟩, h⟩

theorem decref_of (h : Valid p) (hnull : p.config.reserved = 1) (hids : ∀ id ∈ ids, Usable p id)
    (hcount : ∀ b, ids.count b ≤ p.refCnt b) :
    ∃ p', decref ids p = .ok ⟨⟩ p' ∧ Decrefed p ids p' ∧ Valid p' := by
  obtain ⟨p₁, hloop, hdecref, cold, hot, hwf⟩ := decrefLoop_of h hids hcount
  have hchecked := maybeInvariantCheck_of (hwf.checked (by rw [hdecref.config, hnull]))
  refine ⟨p₁, ?_, hdecref, cold, hot, hwf⟩
  simp only [decref, bind_of_ok hloop, hchecked]

end References

section Publish

omit [DecidableEq Owner] in
theorem publishOne_eq_ok {key : BlockKey} {u : Unit} :
    publishOne key id p = .ok u p' ↔
      (id < p.config.numBundles ∧ id ≠ 0 ∧ p.config.reserved ≤ id ∧ 0 < p.refCnt id) ∧ publish id key p = p' := by
  simp [publishOne, bind_eq_ok, isNull, Nat.pos_iff_ne_zero, and_assoc]

omit [DecidableEq Owner] in
theorem publishOne_error {key : BlockKey} {e : PoolError} (h : publishOne key id p = .error e p') :
    p' = p := by
  have hends : Ends (fun _ _ => True) (fun p' => p' = p) (publishOne key id p) := by
    rw [publishOne, bind_of_ok (get_apply p)]
    apply ends_raiseIf_bind
    · exact fun _ => rfl
    intro _
    apply ends_raiseIf_bind
    · exact fun _ => rfl
    intro _
    apply ends_raiseIf_bind
    · exact fun _ => rfl
    intro _
    exact ends_raiseIf_bind (fun _ => rfl) fun _ => trivial
  exact hends.error_of h

section

variable (h : WellFormed p cold hot)
include h

theorem WellFormed.publish (husable : Usable p id) (hlive : 0 < p.refCnt id)
    (key : BlockKey) : WellFormed (publish id key p) cold hot := by
  have hout : ∀ b ∈ cold ++ hot, b ≠ id := by
    rintro b hb rfl
    exact ne_of_gt hlive ((h.mem_iff b).mp hb).2
  refine { h.toIndexed.publish id key with
    links := h.links, len := h.len, mem_iff := h.mem_iff, unhashed := ?_, hashed := ?_,
    released := h.released, reserved := ?_, promised := h.promised }
  · intro b hb
    simp only [BundlePool.publish, update_of_ne (hout b (mem_append_left _ hb))]
    exact h.unhashed b hb
  · intro b hb
    simp only [BundlePool.publish, update_of_ne (hout b (mem_append_right _ hb))]
    exact h.hashed b hb
  · intro b hb
    have hne : b ≠ id := fun heq => hb (heq ▸ husable)
    simp only [BundlePool.publish, update_of_ne hne]
    exact h.reserved b hb

theorem publishOne_ok {key : BlockKey} {u : Unit} (hok : publishOne key id p = .ok u p') :
    p' = publish id key p ∧ Usable p id ∧ 0 < p.refCnt id ∧ WellFormed p' cold hot := by
  obtain ⟨⟨hlt, -, hreserved, hlive⟩, rfl⟩ := publishOne_eq_ok.mp hok
  exact ⟨rfl, ⟨hreserved, hlt⟩, hlive, h.publish ⟨hreserved, hlt⟩ hlive key⟩

theorem publishFullBlock_ok {key : BlockKey} {u : Unit}
    (hok : publishFullBlock id key p = .ok u p') : WellFormed p' cold hot := by
  simp only [publishFullBlock, bind_eq_ok] at hok
  obtain ⟨⟨⟩, p₁, hpublish, hcheck⟩ := hok
  cases maybeInvariantCheck_eq_ok hcheck
  exact (publishOne_ok h hpublish).2.2.2

theorem cacheFullBlocks_ok {keys : List BlockKey} {u : Unit}
    (hok : cacheFullBlocks keys ids p = .ok u p') : WellFormed p' cold hot := by
  simp only [cacheFullBlocks, bind_eq_ok, raiseIf_eq_ok] at hok
  obtain ⟨⟨⟩, _, ⟨-, rfl⟩, ⟨⟩, p₁, hloop, hcheck⟩ := hok
  cases maybeInvariantCheck_eq_ok hcheck
  refine forM_ok (I := fun _ s => WellFormed s cold hot) ?_ h hloop
  intro done entry rest s s' _ hwf hstep
  exact (publishOne_ok hwf hstep).2.2.2

end

end Publish

section Evict

/-- A cached bundle loses its hashes and becomes the next one to be given away. -/
theorem WellFormed.evict (h : WellFormed p cold hot) (hmem : id ∈ hot) :
    WellFormed (freePrepend id (fireEviction id (dropHash id (freeRemove id p)))) (id :: cold) (hot.erase id) := by
  obtain ⟨as, bs, rfl⟩ := append_of_mem hmem
  have hsplit : cold ++ (as ++ id :: bs) = (cold ++ as) ++ id :: bs := by simp
  have hnodup := h.links.nodup
  rw [hsplit, nodup_middle, append_assoc] at hnodup
  obtain ⟨hfresh, -⟩ := nodup_cons.mp hnodup
  have herase : (as ++ id :: bs).erase id = as ++ bs := by
    rw [erase_append_right _ (fun has => hfresh (by simp [has])), erase_cons_head]
  have hlinks := h.links
  rw [hsplit] at hlinks
  have hother : ∀ b ∈ as ++ bs, b ≠ id := by
    rintro b hb rfl
    exact hfresh (mem_append_right _ hb)
  have hindexed : Indexed (freeRemove id p) := { h.toIndexed with }
  rw [herase]
  refine { hindexed.dropHash id with
    links := ?_, len := ?_, mem_iff := fun b => ?_, unhashed := fun b hb => ?_, hashed := fun b hb => ?_,
    released := ?_, reserved := fun b hb => ?_, promised := h.promised }
  · rw [cons_append]
    apply Links.Represents.prepend _ hfresh
    rw [← append_assoc]
    exact hlinks.remove
  · have hlen := h.len
    simp only [length_append, length_cons] at hlen
    simp only [freePrepend, fireEviction, dropHash, freeRemove, length_append, length_cons]
    omega
  · have hiff := h.mem_iff b
    refine Iff.trans ?_ hiff
    simp [or_left_comm]
  · simp only [freePrepend, fireEviction, dropHash, freeRemove]
    rcases mem_cons.mp hb with rfl | hb
    · simp
    · by_cases heq : b = id
      · simp [heq]
      · rw [update_of_ne heq]
        exact h.unhashed b hb
  · simp only [freePrepend, fireEviction, dropHash, freeRemove, update_of_ne (hother b hb)]
    apply h.hashed b
    rcases mem_append.mp hb with hb | hb <;> simp [hb]
  · refine Sublist.trans ?_ h.released
    exact Sublist.append_left (sublist_cons_self _ _) _
  · have hid := ((h.mem_iff id).mp (by simp)).1
    have hne : b ≠ id := fun heq => hb (heq ▸ hid)
    simp only [freePrepend, fireEviction, dropHash, freeRemove, update_of_ne hne]
    exact h.reserved b hb

theorem evictOne_of (h : WellFormed p cold hot) (hmem : id ∈ hot) :
    evictOne id p = .ok ⟨⟩ (freePrepend id (fireEviction id (dropHash id (freeRemove id p)))) := by
  have hqueued : p.free.contains id = true := h.links.contains_iff.mpr (mem_append_right _ hmem)
  simp only [evictOne, bind_of_ok (modify_apply _ p), if_pos hqueued, modify_apply]

theorem evictCached_ok (h : Valid p) {evicted : Nat} (hok : evictCached count p = .ok evicted p') : Valid p' := by
  simp only [evictCached, bind_eq_ok, get_apply, EStateM.Result.ok.injEq] at hok
  obtain ⟨_, _, ⟨rfl, rfl⟩, ⟨⟩, p₁, hloop, ⟨⟩, p₂, hcheck, hpure⟩ := hok
  cases maybeInvariantCheck_eq_ok hcheck
  cases hpure
  set candidates := ((range p.config.numBundles).filter fun id =>
    decide (p.refCnt id = 0) && (p.blockHash id).isSome).take count with hcandidates
  have hnodup : candidates.Nodup := (nodup_range.filter _).sublist (take_sublist _ _)
  have hcached : ∀ id ∈ candidates, p.refCnt id = 0 ∧ (p.blockHash id).isSome := by
    intro id hid
    have hmem := (mem_filter.mp (mem_of_mem_take hid)).2
    simpa using hmem
  have hI : Valid p' ∧ p'.refCnt = p.refCnt ∧ ∀ b, b ∉ candidates → p'.blockHash b = p.blockHash b := by
    refine forM_ok (I := fun done s => Valid s ∧ s.refCnt = p.refCnt ∧ ∀ b, b ∉ done → s.blockHash b = p.blockHash b)
      ?_ ⟨h, rfl, fun _ _ => rfl⟩ hloop
    rintro done id rest s s' hsplit ⟨⟨cold, hot, hwf⟩, href, hhash⟩ hstep
    have hnew : id ∉ done := by
      rw [hsplit] at hnodup
      exact fun hmem => disjoint_of_nodup_append hnodup hmem (by simp)
    obtain ⟨hzero, hsome⟩ := hcached id (by simp [hsplit])
    rw [← hhash id hnew] at hsome
    have hhot : id ∈ hot := by
      have husable : Usable s id := by
        by_contra hnot
        rw [(hwf.reserved id hnot).2] at hsome
        cases hsome
      rcases mem_append.mp ((hwf.mem_iff id).mpr ⟨husable, by rw [href]; exact hzero⟩) with hcold | hhot
      · rw [hwf.unhashed id hcold] at hsome
        cases hsome
      · exact hhot
    rw [evictOne_of hwf hhot] at hstep
    cases hstep
    refine ⟨⟨_, _, hwf.evict hhot⟩, href, fun b hb => ?_⟩
    simp only [mem_append, mem_singleton, not_or] at hb
    simp only [freePrepend, fireEviction, dropHash, freeRemove, update_of_ne hb.2]
    exact hhash b hb.1
  exact hI.1

end Evict

section Write

/-- What a writer gets: the bundle itself when it is private, else a new one that is to be a copy. -/
theorem ensureWritable_ok (h : WellFormed p cold hot) {target : Nat} (hok : ensureWritable id owner p = .ok target p') :
    Usable p id ∧
    ((p.refCnt id = 1 ∧ p.blockHash id = none ∧ target = id ∧ p' = p) ∨
      ∃ p₁, 0 < p.refCnt id ∧ Room p 1 owner ∧ (cold ++ hot).head? = some target ∧ Allocated p 1 owner cold hot p₁ ∧
        p' = { p₁ with pendingCow := p₁.pendingCow.insert target id }) := by
  simp only [ensureWritable, bind_eq_ok, raiseIf_eq_ok, get_apply, EStateM.Result.ok.injEq] at hok
  obtain ⟨_, _, ⟨rfl, rfl⟩, ⟨⟩, _, ⟨hreserved, rfl⟩, ⟨⟩, _, ⟨hrange, rfl⟩, hok⟩ := hok
  refine ⟨⟨not_lt.mp hreserved, not_le.mp hrange⟩, ?_⟩
  split_ifs at hok with hprivate
  · cases hok
    exact .inl ⟨hprivate.1, hprivate.2.2, rfl, rfl⟩
  · simp only [bind_eq_ok, raiseIf_eq_ok] at hok
    obtain ⟨⟨⟩, _, ⟨hlive, rfl⟩, ids, p₁, halloc, ⟨⟩, p₂, hcow, hpure⟩ := hok
    obtain ⟨hroom, rfl, hallocated⟩ := allocate_ok h halloc
    cases hcow
    cases hpure
    have hsome : cold ++ hot ≠ [] := by
      rw [← length_pos_iff, ← h.len]
      exact hroom.1
    obtain ⟨target, rest, hfront⟩ := exists_cons_of_ne_nil hsome
    refine .inr ⟨p₁, Nat.pos_of_ne_zero hlive, hroom, ?_, hallocated, ?_⟩
    · simp [hfront]
    · simp [hfront]

theorem WellFormed.cow (h : WellFormed p cold hot) (cow : AList fun _ : Nat => Nat) :
    WellFormed { p with pendingCow := cow } cold hot := { h with }

end Write

section Promise

omit [DecidableEq Owner] in
theorem WellFormed.promise [DecidableEq Owner] (h : WellFormed p cold hot) {promises : AList fun _ : Owner => Nat}
    (hpositive : ∀ o n, promises.lookup o = some n → 0 < n) :
    WellFormed { p with reservations := promises } cold hot := { h with promised := hpositive }

theorem checkAdmissionFits_iff (hnone : p.reservations.lookup owner = none) :
    checkAdmissionFits p count owner = true ↔ (count : Int) ≤ p.freeLen - requestReserved p - p.config.watermark := by
  have hsum := Ledger.total_erase_add p.reservations owner
  rw [Ledger.amount_eq_zero hnone, add_zero] at hsum
  simp only [checkAdmissionFits, requestReserved, hsum, decide_eq_true_eq]

/-- A grant fits into what is free and not promised to others. -/
theorem reserve_ok (h : WellFormed p cold hot) {granted : Bool} (hok : reserve count owner p = .ok granted p') :
    WellFormed p' cold hot ∧ p.reservations.lookup owner = none ∧
    (granted = true → (count : Int) ≤ p.freeLen - requestReserved p - p.config.watermark) ∧
    p' = if granted = true ∧ count ≠ 0 then { p with reservations := p.reservations.insert owner count } else p := by
  simp only [reserve, bind_of_ok (get_apply p)] at hok
  split_ifs at hok with howner hfits hzero
  · cases hok
  · cases hok
    exact ⟨h, AList.lookup_eq_none.mpr howner, by simp, by simp⟩
  · cases hok
    have hnone := AList.lookup_eq_none.mpr howner
    rw [Bool.not_eq_true', Bool.not_eq_false, checkAdmissionFits_iff hnone] at hfits
    exact ⟨h, hnone, fun _ => hfits, by simp [hzero]⟩
  · cases hok
    have hnone := AList.lookup_eq_none.mpr howner
    rw [Bool.not_eq_true', Bool.not_eq_false, checkAdmissionFits_iff hnone] at hfits
    refine ⟨h.promise fun o n ho => ?_, hnone, fun _ => hfits, by simp [hzero]⟩
    by_cases heq : o = owner
    · rw [heq, AList.lookup_insert] at ho
      cases ho
      exact Nat.pos_of_ne_zero hzero
    · rw [AList.lookup_insert_ne heq] at ho
      exact h.promised o n ho

theorem WellFormed.unpromise (h : WellFormed p cold hot) (owner : Owner) :
    WellFormed { p with reservations := p.reservations.erase owner } cold hot := by
  apply h.promise
  intro o n ho
  by_cases heq : o = owner
  · rw [heq, AList.lookup_erase] at ho
    cases ho
  · rw [AList.lookup_erase_ne heq] at ho
    exact h.promised o n ho

theorem consumeReservation_ok (h : WellFormed p cold hot) {u : Unit}
    (hok : consumeReservation owner count p = .ok u p') : WellFormed p' cold hot := by
  obtain ⟨promises, hrun, hspent⟩ | ⟨-, -, e, herr⟩ := consumeReservation_spec owner count p
  · rw [hrun] at hok
    cases hok
    exact h.promise (hspent.positive h.promised)
  · rw [herr] at hok
    cases hok

end Promise

section Runs

/-- The public operations. -/
inductive Op (Owner : Type) where
  | allocate (count : Nat) (owner : Owner)
  | incref (ids : List Nat) (owner : Owner)
  | decref (ids : List Nat)
  | ensureWritable (id : Nat) (owner : Owner)
  | publishFullBlock (id : Nat) (key : BlockKey)
  | cacheFullBlocks (keys : List BlockKey) (ids : List Nat)
  | evictCached (count : Nat)
  | reserve (count : Nat) (owner : Owner)
  | releaseReservation (owner : Owner)
  | consumeReservation (count : Nat) (owner : Owner)
  | drainPendingCow

def succeeded {α : Type} : EStateM.Result PoolError (Pool Owner) α → Option (Pool Owner)
  | .ok _ p => some p
  | .error _ _ => none

def call (p : Pool Owner) : Op Owner → Option (Pool Owner)
  | .allocate count owner => succeeded (allocate count owner p)
  | .incref ids owner => succeeded (incref ids owner p)
  | .decref ids => succeeded (decref ids p)
  | .ensureWritable id owner => succeeded (ensureWritable id owner p)
  | .publishFullBlock id key => succeeded (publishFullBlock id key p)
  | .cacheFullBlocks keys ids => succeeded (cacheFullBlocks keys ids p)
  | .evictCached count => succeeded (evictCached count p)
  | .reserve count owner => succeeded (reserve count owner p)
  | .releaseReservation owner => succeeded (releaseReservation owner p)
  | .consumeReservation count owner => succeeded (consumeReservation owner count p)
  | .drainPendingCow => succeeded (drainPendingCow p)

omit [DecidableEq Owner] in
theorem succeeded_eq_some {α : Type} {r : EStateM.Result PoolError (Pool Owner) α} :
    succeeded r = some p' ↔ ∃ a, r = .ok a p' := by
  cases r <;> simp [succeeded]

/-- What one operation preserves. -/
theorem call_valid {op : Op Owner} (h : Valid p) (hcall : call p op = some p') : Valid p' := by
  obtain ⟨cold, hot, hwf⟩ := h
  cases op with
  | allocate count owner =>
    obtain ⟨ids, hok⟩ := succeeded_eq_some.mp hcall
    exact ⟨_, _, (allocate_ok hwf hok).2.2.wellFormed⟩
  | incref ids owner =>
    obtain ⟨_, hok⟩ := succeeded_eq_some.mp hcall
    obtain ⟨hot', hwf'⟩ := (incref_ok hwf hok).2.2.2
    exact ⟨_, _, hwf'⟩
  | decref ids =>
    obtain ⟨_, hok⟩ := succeeded_eq_some.mp hcall
    exact (decref_ok ⟨_, _, hwf⟩ hok).2
  | ensureWritable id owner =>
    obtain ⟨_, hok⟩ := succeeded_eq_some.mp hcall
    obtain ⟨-, ⟨-, -, -, rfl⟩ | ⟨p₁, -, -, -, hallocated, rfl⟩⟩ := ensureWritable_ok hwf hok
    · exact ⟨_, _, hwf⟩
    · exact ⟨_, _, hallocated.wellFormed.cow _⟩
  | publishFullBlock id key =>
    obtain ⟨_, hok⟩ := succeeded_eq_some.mp hcall
    exact ⟨_, _, publishFullBlock_ok hwf hok⟩
  | cacheFullBlocks keys ids =>
    obtain ⟨_, hok⟩ := succeeded_eq_some.mp hcall
    exact ⟨_, _, cacheFullBlocks_ok hwf hok⟩
  | evictCached count =>
    obtain ⟨_, hok⟩ := succeeded_eq_some.mp hcall
    exact evictCached_ok ⟨_, _, hwf⟩ hok
  | reserve count owner =>
    obtain ⟨_, hok⟩ := succeeded_eq_some.mp hcall
    exact ⟨_, _, (reserve_ok hwf hok).1⟩
  | releaseReservation owner =>
    cases hcall
    exact ⟨_, _, hwf.unpromise owner⟩
  | consumeReservation count owner =>
    obtain ⟨_, hok⟩ := succeeded_eq_some.mp hcall
    exact ⟨_, _, consumeReservation_ok hwf hok⟩
  | drainPendingCow =>
    cases hcall
    exact ⟨_, _, hwf.cow ∅⟩

theorem run_valid {c : Config} {ops : List (Op Owner)} (hrun : StepRun.run call (start c) ops = some p) : Valid p :=
  StepRun.invariant (fun _ _ _ h hcall => call_valid h hcall) (start_valid c) hrun

/-- The representation of a pool, with what it says about a coming allocation. -/
structure Represented (p : Pool Owner) (cold hot : List Nat) : Prop extends WellFormed p cold hot where
  placed : ∀ id, Usable p id →
    (0 < p.refCnt id ∧ id ∉ hot ∧ id ∉ cold) ∨ (p.refCnt id = 0 ∧ id ∈ hot ∧ id ∉ cold) ∨
      (p.refCnt id = 0 ∧ id ∉ hot ∧ id ∈ cold)
  null : ∀ id, ¬Usable p id → p.free.contains id = false ∧ p.refCnt id = 0 ∧ p.blockHash id = none ∧
    ∀ value, id ∉ p.holders value
  allocate : ∀ count owner ids p', allocate count owner p = .ok ids p' →
    ids = (cold ++ hot).take count ∧ p'.evictions = p.evictions ++ hot.take (count - cold.length) ∧
      (hot.take (count - cold.length)).Nodup ∧ ∀ id, p'.blockHash id = if id ∈ ids then none else p.blockHash id

theorem WellFormed.represented (h : WellFormed p cold hot) : Represented p cold hot where
  toWellFormed := h
  placed := by
    intro id hid
    have hnodup := disjoint_of_nodup_append h.links.nodup
    have hiff := h.mem_iff id
    rw [mem_append] at hiff
    by_cases hlive : p.refCnt id = 0
    · rcases hiff.mpr ⟨hid, hlive⟩ with hcold | hhot
      · exact .inr (.inr ⟨hlive, fun hhot => hnodup hcold hhot, hcold⟩)
      · exact .inr (.inl ⟨hlive, hhot, fun hcold => hnodup hcold hhot⟩)
    · have hout : ¬(id ∈ cold ∨ id ∈ hot) := fun hmem => hlive (hiff.mp hmem).2
      rw [not_or] at hout
      exact .inl ⟨Nat.pos_of_ne_zero hlive, hout.2, hout.1⟩
  null := by
    intro id hid
    obtain ⟨hzero, hnone⟩ := h.reserved id hid
    refine ⟨?_, hzero, hnone, fun value => ?_⟩
    · rw [Bool.eq_false_iff, ne_eq, h.links.contains_iff, h.mem_iff]
      exact fun hmem => hid hmem.1
    · rw [h.inverse, h.keyless id hnone]
      simp
  allocate := by
    intro count owner ids p' hok
    obtain ⟨-, rfl, hallocated⟩ := allocate_ok h hok
    have hcold : ((cold.take count).filter fun b => (p.blockHash b).isSome) = [] := by
      rw [filter_eq_nil_iff]
      intro b hb
      simp [h.unhashed b (mem_of_mem_take hb)]
    have hhot : ((hot.take (count - cold.length)).filter fun b => (p.blockHash b).isSome) =
        hot.take (count - cold.length) := by
      rw [filter_eq_self]
      intro b hb
      exact h.hashed b (mem_of_mem_take hb)
    refine ⟨rfl, ?_, ?_, hallocated.taken.blockHash⟩
    · have hevictions := hallocated.taken.evictions
      rwa [take_append, filter_append, hcold, hhot, nil_append] at hevictions
    · exact ((nodup_append.mp h.links.nodup).2.1).sublist (take_sublist _ _)

/-- From construction on, through every run of operations that succeed, the books represent a split of the
bundles into live, cached and free ones. -/
theorem run_represented {c : Config} {ops : List (Op Owner)} (hrun : StepRun.run call (start c) ops = some p) :
    ∃ cold hot, Represented p cold hot := by
  obtain ⟨cold, hot, hwf⟩ := run_valid hrun
  exact ⟨cold, hot, hwf.represented⟩

theorem three_bundles : 1 < 3 := by decide

def twoBundles : Config := ⟨3, 1, 0, true, Nat.one_pos, three_bundles⟩

def reuse : List (Op Nat) := [.allocate 2 0, .publishFullBlock 1 ⟨7, 64⟩, .decref [1, 2], .allocate 2 1]

theorem run_represented_reuse : ∃ p, StepRun.run call (start twoBundles) reuse = some p ∧ p.evictions = [1] ∧
    ∃ cold hot, Represented p cold hot := by
  have hevictions : (StepRun.run call (start twoBundles) reuse).map (·.evictions) = some [1] := rfl
  obtain ⟨p, hrun, hp⟩ := Option.map_eq_some_iff.mp hevictions
  exact ⟨p, hrun, hp, run_represented hrun⟩

end Runs

end BundlePool
