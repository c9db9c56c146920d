import BlackweLLM.BundlePool
import Mathlib.Data.List.Dedup

/-!
# The representation of the bundle pool

The free queue is a list of unhashed bundles followed by hashed ones in the
order of their release, and the two hash indices are inverse to each other.
Every operation is followed through on these lists.
-/

namespace BundlePool

open List Function LinkedQueue RaisingState

variable {Owner : Type} {p p' : Pool Owner} {cold hot : List Nat} {id : Nat}

def Usable (p : Pool Owner) (id : Nat) : Prop := p.config.reserved ≤ id ∧ id < p.config.numBundles

/-- The queue holds the usable bundles without references, first `cold` and then `hot`. -/
structure Queued (p : Pool Owner) (cold hot : List Nat) : Prop where
  links : p.free.Represents (cold ++ hot)
  len : p.freeLen = (cold ++ hot).length
  mem_iff : ∀ id, id ∈ cold ++ hot ↔ Usable p id ∧ p.refCnt id = 0
  unhashed : ∀ id ∈ cold, p.blockHash id = none
  hashed : ∀ id ∈ hot, (p.blockHash id).isSome
  released : hot.Sublist p.releases.dedup
  reserved : ∀ id, ¬Usable p id → p.refCnt id = 0 ∧ p.blockHash id = none

/-- The two hash indices are inverse relations, and `blockHash` is one of a bundle's keys. -/
structure Indexed (p : Pool Owner) : Prop where
  inverse : ∀ id value, id ∈ p.holders value ↔ value ∈ p.bundleHashes id
  nodup : ∀ value, (p.holders value).Nodup
  key_value : ∀ id value key, (p.bundleHashes id).lookup value = some key → key.value = value
  keyless : ∀ id, p.blockHash id = none → p.bundleHashes id = ∅
  keyed : ∀ id key, p.blockHash id = some key → (p.bundleHashes id).lookup key.value = some key

structure WellFormed [DecidableEq Owner] (p : Pool Owner) (cold hot : List Nat) :
    Prop extends Queued p cold hot, Indexed p where
  promised : ∀ owner count, p.reservations.lookup owner = some count → 0 < count

section Index

theorem dropHash_holders (h : Indexed p) (id value : Nat) :
    (dropHash id p).holders value = (p.holders value).filter (· ≠ id) := by
  have hfold : ∀ (keys : List Nat) (holders : Nat → List Nat), keys.Nodup →
      keys.foldl (fun holders value => update holders value ((holders value).erase id)) holders value =
        if value ∈ keys then (holders value).erase id else holders value := by
    intro keys
    induction keys with
    | nil => simp
    | cons k keys ih =>
      intro holders hnodup
      rw [foldl_cons, ih _ (nodup_cons.mp hnodup).2]
      by_cases hk : value = k
      · subst hk
        simp [(nodup_cons.mp hnodup).1]
      · simp [hk]
  simp only [dropHash]
  rw [hfold _ _ (p.bundleHashes id).keys_nodup]
  split_ifs with hmem
  · rw [(h.nodup value).erase_eq_filter]
    simp [bne, BEq.beq]
  · have hnot : id ∉ p.holders value := by
      rw [h.inverse]
      exact hmem
    rw [filter_eq_self.mpr]
    intro other hother
    simpa using fun heq : other = id => hnot (heq ▸ hother)

theorem Indexed.dropHash (h : Indexed p) (id : Nat) : Indexed (dropHash id p) where
  inverse := by
    intro other value
    rw [dropHash_holders h, mem_filter, h.inverse]
    simp only [BundlePool.dropHash]
    by_cases heq : other = id
    · simp [heq]
    · simp [heq]
  nodup := fun value => by
    rw [dropHash_holders h]
    exact (h.nodup value).filter _
  key_value := by
    intro other value key hkey
    simp only [BundlePool.dropHash] at hkey
    by_cases heq : other = id
    · simp [heq] at hkey
    · rw [update_of_ne heq] at hkey
      exact h.key_value other value key hkey
  keyless := by
    intro other hnone
    simp only [BundlePool.dropHash] at hnone ⊢
    by_cases heq : other = id
    · simp [heq]
    · rw [update_of_ne heq] at hnone ⊢
      exact h.keyless other hnone
  keyed := by
    intro other key hkey
    simp only [BundlePool.dropHash] at hkey ⊢
    by_cases heq : other = id
    · simp [heq] at hkey
    · rw [update_of_ne heq] at hkey ⊢
      exact h.keyed other key hkey

theorem Indexed.publish (h : Indexed p) (id : Nat) (key : BlockKey) : Indexed (publish id key p) where
  inverse := by
    intro other value
    simp only [BundlePool.publish]
    by_cases hvalue : value = key.value
    · subst hvalue
      by_cases heq : other = id
      · subst heq
        by_cases hmem : other ∈ p.holders key.value <;> simp [hmem]
      · have hinv := h.inverse other key.value
        by_cases hmem : id ∈ p.holders key.value <;> simp [hmem, heq, hinv]
    · have hinv := h.inverse other value
      by_cases heq : other = id
      · subst heq
        simp [hvalue, hinv]
      · simp [hvalue, heq, hinv]
  nodup := by
    intro value
    simp only [BundlePool.publish]
    by_cases hvalue : value = key.value
    · subst hvalue
      by_cases hmem : id ∈ p.holders key.value
      · simpa [hmem] using h.nodup key.value
      · simpa [hmem, nodup_append] using ⟨h.nodup key.value, fun a ha heq => hmem (heq ▸ ha)⟩
    · simpa [hvalue] using h.nodup value
  key_value := by
    intro other value k hk
    simp only [BundlePool.publish] at hk
    by_cases heq : other = id
    · subst heq
      rw [update_self] at hk
      by_cases hvalue : value = key.value
      · subst hvalue
        rw [AList.lookup_insert] at hk
        cases hk
        rfl
      · rw [AList.lookup_insert_ne hvalue] at hk
        exact h.key_value other value k hk
    · rw [update_of_ne heq] at hk
      exact h.key_value other value k hk
  keyless := by
    intro other hnone
    simp only [BundlePool.publish] at hnone ⊢
    by_cases heq : other = id
    · simp [heq] at hnone
    · rw [update_of_ne heq] at hnone ⊢
      exact h.keyless other hnone
  keyed := by
    intro other k hk
    simp only [BundlePool.publish] at hk ⊢
    by_cases heq : other = id
    · subst heq
      rw [update_self] at hk ⊢
      cases hk
      rw [AList.lookup_insert]
    · rw [update_of_ne heq] at hk ⊢
      exact h.keyed other k hk

end Index

section Take

/-- What a pool gives away: the bundles are referenced once, and what they held is evicted. -/
structure Taken (p : Pool Owner) (ids : List Nat) (p' : Pool Owner) : Prop where
  config : p'.config = p.config
  refCnt : ∀ b, p'.refCnt b = if b ∈ ids then 1 else p.refCnt b
  blockHash : ∀ b, p'.blockHash b = if b ∈ ids then none else p.blockHash b
  holders : ∀ value, p'.holders value = (p.holders value).filter (· ∉ ids)
  pendingCow : p'.pendingCow = p.pendingCow
  reservations : p'.reservations = p.reservations
  releases : p'.releases = p.releases
  evictions : p'.evictions = p.evictions ++ ids.filter fun b => (p.blockHash b).isSome

theorem Taken.refl (p : Pool Owner) : Taken p [] p := by
  constructor <;> simp

theorem Taken.cons {ids : List Nat} {p₁ : Pool Owner} (h₁ : Taken p [id] p₁) (h : Taken p₁ ids p')
    (hnew : id ∉ ids) : Taken p (id :: ids) p' where
  config := h.config.trans h₁.config
  refCnt := by
    intro b
    rw [h.refCnt, h₁.refCnt]
    by_cases hid : b = id <;> by_cases hmem : b ∈ ids <;> simp [hid, hmem]
  blockHash := by
    intro b
    rw [h.blockHash, h₁.blockHash]
    by_cases hid : b = id <;> by_cases hmem : b ∈ ids <;> simp [hid, hmem]
  holders := by
    intro value
    rw [h.holders, h₁.holders, filter_filter]
    apply filter_congr
    intro b _
    by_cases hid : b = id <;> by_cases hmem : b ∈ ids <;> simp [hid, hmem]
  pendingCow := h.pendingCow.trans h₁.pendingCow
  reservations := h.reservations.trans h₁.reservations
  releases := h.releases.trans h₁.releases
  evictions := by
    have hrest : (ids.filter fun b => (p₁.blockHash b).isSome) = ids.filter fun b => (p.blockHash b).isSome := by
      apply filter_congr
      intro b hb
      rw [h₁.blockHash, if_neg (by simpa using fun heq : b = id => hnew (heq ▸ hb))]
    rw [h.evictions, h₁.evictions, hrest, append_assoc]
    congr 1
    cases hsome : (p.blockHash id).isSome <;> simp [hsome]

theorem Queued.take_front (h : Queued p cold hot) {rest : List Nat} (hfront : cold ++ hot = id :: rest)
    (hfree : p'.free.Represents rest) (hlen : p'.freeLen = p.freeLen - 1) (htaken : Taken p [id] p') :
    Queued p' (cold.drop 1) (hot.drop (1 - cold.length)) := by
  have hrest : cold.drop 1 ++ hot.drop (1 - cold.length) = rest := by
    rw [← drop_append, hfront, drop_one, tail_cons]
  have hid : Usable p id ∧ p.refCnt id = 0 := (h.mem_iff id).mp (by simp [hfront])
  have hnodup : (id :: rest).Nodup := hfront ▸ h.links.nodup
  have husable : ∀ b, Usable p' b ↔ Usable p b := fun b => by rw [Usable, Usable, htaken.config]
  refine ⟨by rwa [hrest], ?_, fun b => ?_, fun b hb => ?_, fun b hb => ?_, ?_, fun b hb => ?_⟩
  · rw [hrest, hlen, h.len, hfront, length_cons, Nat.add_sub_cancel]
  · rw [hrest, husable, htaken.refCnt]
    by_cases hb : b = id
    · simp [hb, (nodup_cons.mp hnodup).1]
    · have hmem := h.mem_iff b
      simp only [hfront, mem_cons, hb, false_or] at hmem
      simpa [hb] using hmem
  · rw [htaken.blockHash]
    split_ifs
    · rfl
    · exact h.unhashed b (mem_of_mem_drop hb)
  · have hne : b ≠ id := by
      rintro rfl
      have hmem : b ∈ rest := by rw [← hrest]; exact mem_append_right _ hb
      exact (nodup_cons.mp hnodup).1 hmem
    rw [htaken.blockHash, if_neg (by simpa using hne)]
    exact h.hashed b (mem_of_mem_drop hb)
  · rw [htaken.releases]
    exact (drop_sublist _ _).trans h.released
  · rw [husable] at hb
    have hne : b ≠ id := by
      rintro rfl
      exact hb hid.1
    rw [htaken.refCnt, htaken.blockHash]
    simpa [hne] using h.reserved b hb

variable [DecidableEq Owner]

theorem popOne_ok (h : WellFormed p cold hot) {rest : List Nat} (hfront : cold ++ hot = id :: rest) :
    ∃ p', popOne p = .ok id p' ∧ Taken p [id] p' ∧ WellFormed p' (cold.drop 1) (hot.drop (1 - cold.length)) := by
  obtain ⟨free, hpop, hfree⟩ := (hfront ▸ h.links).popleft
  obtain ⟨⟨hreserved, -⟩, href⟩ := (h.mem_iff id).mp (by simp [hfront])
  have hpopped : Indexed { p with free := free, freeLen := p.freeLen - 1 } := { h.toIndexed with }
  have hrun : ∀ p₂ : Pool Owner,
      (if (p.blockHash id).isSome then fireEviction id (dropHash id { p with free := free, freeLen := p.freeLen - 1 })
        else { p with free := free, freeLen := p.freeLen - 1 }) = p₂ →
      popOne p = .ok id { p₂ with refCnt := update p₂.refCnt id 1 } := by
    rintro p₂ rfl
    simp only [popOne, bind_of_ok (get_apply p), hpop, bind_of_ok (set_apply _ _),
      bind_of_ok (raiseIf_of_not (not_lt.mpr hreserved) _), bind_of_ok (raiseIf_of_not (not_not.mpr href) _),
      bind_of_ok (modify_apply _ _), pure_apply]
  cases hhash : p.blockHash id with
  | none =>
    refine ⟨_, hrun _ (by simp [hhash]; rfl), ?_⟩
    have htaken : Taken p [id] { p with
        free := free, freeLen := p.freeLen - 1, refCnt := update p.refCnt id 1 } := by
      refine ⟨rfl, fun b => ?_, fun b => ?_, fun value => ?_, rfl, rfl, rfl, ?_⟩
      · simp [update_apply]
      · by_cases hb : b = id <;> simp [hb, hhash]
      · have hnot : id ∉ p.holders value := by
          rw [h.inverse, h.keyless id hhash]
          simp
        rw [filter_eq_self.mpr]
        intro b hb
        simpa using fun heq : b = id => hnot (heq ▸ hb)
      · simp [hhash]
    exact ⟨htaken, { h.toQueued.take_front hfront hfree rfl htaken, hpopped with promised := h.promised }⟩
  | some key =>
    refine ⟨_, hrun _ (by simp [hhash]; rfl), ?_⟩
    have hdropped := hpopped.dropHash id
    have htaken : Taken p [id] { fireEviction id (dropHash id { p with free := free, freeLen := p.freeLen - 1 }) with
        refCnt := update p.refCnt id 1 } := by
      refine ⟨rfl, fun b => ?_, fun b => ?_, fun value => ?_, rfl, rfl, rfl, ?_⟩
      · simp [update_apply]
      · simp [fireEviction, dropHash, update_apply]
      · have hholders := dropHash_holders hpopped id value
        simpa [fireEviction] using hholders
      · simp [fireEviction, dropHash, hhash]
    exact ⟨htaken, { h.toQueued.take_front hfront hfree rfl htaken, hdropped with promised := h.promised }⟩

theorem popMany_ok (count : Nat) (h : WellFormed p cold hot) (hcount : count ≤ (cold ++ hot).length) :
    ∃ p', popMany count p = .ok ((cold ++ hot).take count) p' ∧ Taken p ((cold ++ hot).take count) p' ∧
      WellFormed p' (cold.drop count) (hot.drop (count - cold.length)) := by
  induction count generalizing p cold hot with
  | zero => exact ⟨p, rfl, Taken.refl p, by simpa using h⟩
  | succ count ih =>
    cases hfront : cold ++ hot with
    | nil => simp [hfront] at hcount
    | cons id rest =>
      obtain ⟨p₁, hpop, htaken, hwf⟩ := popOne_ok h hfront
      have hrest : cold.drop 1 ++ hot.drop (1 - cold.length) = rest := by
        rw [← drop_append, hfront, drop_one, tail_cons]
      obtain ⟨p', hmany, htaken', hwf'⟩ := ih hwf (by rw [hrest]; simpa [hfront] using hcount)
      rw [hrest] at hmany htaken'
      have hnew : id ∉ rest.take count := by
        have hnodup : (id :: rest).Nodup := hfront ▸ h.links.nodup
        exact fun hmem => (nodup_cons.mp hnodup).1 (mem_of_mem_take hmem)
      refine ⟨p', ?_, htaken.cons htaken' hnew, ?_⟩
      · simp only [popMany, bind_of_ok hpop, bind_of_ok hmany, pure_apply, take_succ_cons]
      · have hcold : (cold.drop 1).drop count = cold.drop (count + 1) := by
          rw [drop_drop, add_comm]
        have hhot : (hot.drop (1 - cold.length)).drop (count - (cold.drop 1).length) =
            hot.drop (count + 1 - cold.length) := by
          rw [drop_drop, length_drop]
          congr 1
          omega
        rwa [hcold, hhot] at hwf'

end Take

section Allocate

variable [DecidableEq Owner] {owner : Owner} {count : Nat}

/-- What is left of the promises when `owner` has used up to `count` of its own. -/
structure Spent (promises : AList fun _ : Owner => Nat) (owner : Owner) (count : Nat)
    (promises' : AList fun _ : Owner => Nat) : Prop where
  self : Ledger.amount promises' owner = Ledger.amount promises owner - count
  other : ∀ o, o ≠ owner → Ledger.amount promises' o = Ledger.amount promises o
  total : Ledger.total promises' + min count (Ledger.amount promises owner) = Ledger.total promises
  positive : (∀ o n, promises.lookup o = some n → 0 < n) → ∀ o n, promises'.lookup o = some n → 0 < n

theorem Spent.none (hnone : p.reservations.lookup owner = none) : Spent p.reservations owner count p.reservations where
  self := by rw [Ledger.amount_eq_zero hnone, Nat.zero_sub]
  other := fun _ _ => rfl
  total := by rw [Ledger.amount_eq_zero hnone, Nat.min_zero, add_zero]
  positive := id

theorem consumeReservation_spec (owner : Owner) (count : Nat) (p : Pool Owner) :
    (∃ promises, consumeReservation owner count p = .ok ⟨⟩ { p with reservations := promises } ∧
      Spent p.reservations owner count promises) ∨
    (p.reservations.lookup owner).isSome ∧ reservedFor p owner < count ∧
      ∃ e, consumeReservation owner count p = .error e p := by
  cases hlookup : p.reservations.lookup owner with
  | none =>
    refine .inl ⟨p.reservations, ?_, Spent.none hlookup⟩
    simp [consumeReservation, bind_of_ok (get_apply p), hlookup]
  | some remaining =>
    have hamount := Ledger.amount_of_lookup hlookup
    have hsum := Ledger.total_erase_add p.reservations owner
    by_cases hcount : count = 0
    · refine .inl ⟨p.reservations, ?_, ⟨by simp [hcount], fun _ _ => rfl, by simp [hcount], id⟩⟩
      simp [consumeReservation, bind_of_ok (get_apply p), hlookup, hcount]
    · by_cases hless : remaining < count
      · refine .inr ⟨rfl, by rwa [reservedFor, hamount], .ownerReservation count remaining, ?_⟩
        simp only [consumeReservation, bind_of_ok (get_apply p), hlookup, if_neg hcount, if_pos hless, throw_apply]
      · by_cases hall : remaining - count = 0
        · refine .inl ⟨p.reservations.erase owner, ?_, ?_, fun o ho => Ledger.amount_erase_of_ne ho, ?_, ?_⟩
          · simp only [consumeReservation, bind_of_ok (get_apply p), hlookup, if_neg hcount, if_neg hless, if_pos hall,
              set_apply]
          · rw [Ledger.amount_erase_self, hamount, hall]
          · rw [hamount] at hsum ⊢
            omega
          · intro hpos o n ho
            by_cases heq : o = owner
            · rw [heq, AList.lookup_erase] at ho
              cases ho
            · rw [AList.lookup_erase_ne heq] at ho
              exact hpos o n ho
        · refine .inl ⟨p.reservations.insert owner (remaining - count), ?_, ?_,
            fun o ho => Ledger.amount_insert_of_ne ho, ?_, ?_⟩
          · simp only [consumeReservation, bind_of_ok (get_apply p), hlookup, if_neg hcount, if_neg hless, if_neg hall,
              set_apply]
          · rw [Ledger.amount_insert_self, hamount]
          · rw [Ledger.total_insert, hamount]
            rw [hamount] at hsum
            omega
          · intro hpos o n ho
            by_cases heq : o = owner
            · rw [heq, AList.lookup_insert] at ho
              cases ho
              omega
            · rw [AList.lookup_insert_ne heq] at ho
              exact hpos o n ho

/-- What `_maybe_invariant_check` asks. -/
def Checked (p : Pool Owner) : Prop :=
  p.config.assertInvariants = true → lifecycleHolds p = true ∧ accounted p = true

omit [DecidableEq Owner] in
theorem maybeInvariantCheck_of (h : Checked p) : maybeInvariantCheck p = .ok ⟨⟩ p := by
  have hpass : ¬(p.config.assertInvariants && !(lifecycleHolds p && accounted p)) = true := by
    intro hfail
    simp only [Bool.and_eq_true, Bool.not_eq_true', Bool.and_eq_false_iff] at hfail
    obtain ⟨hlife, hcount⟩ := h hfail.1
    simp [hlife, hcount] at hfail
  simp only [maybeInvariantCheck, bind_of_ok (get_apply p), raiseIf_of_not hpass]

omit [DecidableEq Owner] in
theorem maybeInvariantCheck_eq_ok {u : Unit} (h : maybeInvariantCheck p = .ok u p') : p' = p := by
  simp only [maybeInvariantCheck, bind_of_ok (get_apply p), raiseIf_eq_ok] at h
  exact h.2.symm

/-- What `allocate` asks before it touches the pool. -/
def Room (p : Pool Owner) (count : Nat) (owner : Owner) : Prop :=
  count ≤ p.freeLen ∧ (reservedFor p owner ≠ 0 → count ≤ reservedFor p owner) ∧
    (reservedFor p owner = 0 → count ≤ unreservedFree p)

structure Allocated (p : Pool Owner) (count : Nat) (owner : Owner) (cold hot : List Nat) (p' : Pool Owner) : Prop where
  taken : Taken p ((cold ++ hot).take count) { p' with reservations := p.reservations }
  spent : Spent p.reservations owner count p'.reservations
  wellFormed : WellFormed p' (cold.drop count) (hot.drop (count - cold.length))

theorem allocate_of_room (h : WellFormed p cold hot) (hroom : Room p count owner) :
    ∃ p', Allocated p count owner cold hot p' ∧
      allocate count owner p = (do maybeInvariantCheck; pure ((cold ++ hot).take count) : PoolM Owner _) p' := by
  obtain ⟨hfree, hreserved, hunreserved⟩ := hroom
  obtain ⟨p₁, hpop, htaken, hwf⟩ := popMany_ok count h (by rwa [← h.len])
  have hkept : p₁.reservations = p.reservations := htaken.reservations
  obtain ⟨promises, hspend, hspent⟩ | ⟨hsome, hless, -⟩ := consumeReservation_spec owner count p₁
  · rw [hkept] at hspent
    refine ⟨{ p₁ with reservations := promises }, ⟨?_, hspent, ?_⟩, ?_⟩
    · simpa [← hkept] using htaken
    · exact { hwf with promised := hspent.positive h.promised }
    · have hless : ¬p.freeLen < count := not_lt.mpr hfree
      have hown : ¬(reservedFor p owner ≠ 0 ∧ reservedFor p owner < count) :=
        fun hbad => not_lt.mpr (hreserved hbad.1) hbad.2
      have hcommon : ¬(reservedFor p owner = 0 ∧ unreservedFree p < count) :=
        fun hbad => not_lt.mpr (hunreserved hbad.1) hbad.2
      simp only [allocate, bind_of_ok (get_apply p), bind_of_ok (raiseIf_of_not hless p),
        bind_of_ok (raiseIf_of_not hown p), bind_of_ok (raiseIf_of_not hcommon p), bind_of_ok hpop,
        bind_of_ok hspend]
  · have hown : reservedFor p owner ≠ 0 := by
      obtain ⟨n, hn⟩ := Option.isSome_iff_exists.mp hsome
      rw [hkept] at hn
      rw [reservedFor, Ledger.amount_of_lookup hn]
      exact ne_of_gt (h.promised owner n hn)
    have hle := hreserved hown
    rw [reservedFor, hkept] at hless
    exact absurd hle (not_le.mpr hless)

theorem allocate_of_not_room (h : ¬Room p count owner) : ∃ e, allocate count owner p = .error e p := by
  by_cases hfree : p.freeLen < count
  · exact ⟨.exhausted count p.freeLen, by
      simp only [allocate, bind_of_ok (get_apply p), bind_of_error (raiseIf_of hfree p)]⟩
  by_cases hown : reservedFor p owner ≠ 0 ∧ reservedFor p owner < count
  · exact ⟨.ownerReservation count (reservedFor p owner), by
      simp only [allocate, bind_of_ok (get_apply p), bind_of_ok (raiseIf_of_not hfree p),
        bind_of_error (raiseIf_of hown p)]⟩
  by_cases hcommon : reservedFor p owner = 0 ∧ unreservedFree p < count
  · exact ⟨.reservedCapacity count (unreservedFree p), by
      simp only [allocate, bind_of_ok (get_apply p), bind_of_ok (raiseIf_of_not hfree p),
        bind_of_ok (raiseIf_of_not hown p), bind_of_error (raiseIf_of hcommon p)]⟩
  refine absurd ⟨not_lt.mp hfree, fun hne => ?_, fun heq => ?_⟩ h
  · exact not_lt.mp fun hlt => hown ⟨hne, hlt⟩
  · exact not_lt.mp fun hlt => hcommon ⟨heq, hlt⟩

/-- An allocation that succeeds takes the front of the queue. -/
theorem allocate_ok (h : WellFormed p cold hot) {ids : List Nat} (hok : allocate count owner p = .ok ids p') :
    Room p count owner ∧ ids = (cold ++ hot).take count ∧ Allocated p count owner cold hot p' := by
  by_cases hroom : Room p count owner
  · obtain ⟨p₁, hallocated, hrun⟩ := allocate_of_room h hroom
    rw [hrun, bind_eq_ok] at hok
    obtain ⟨⟨⟩, p₂, hcheck, hids⟩ := hok
    cases maybeInvariantCheck_eq_ok hcheck
    cases hids
    exact ⟨hroom, rfl, hallocated⟩
  · obtain ⟨e, herr⟩ := allocate_of_not_room hroom
    rw [herr] at hok
    cases hok

end Allocate

section Reference

/-- Only references and the queue have changed. -/
structure Refs (p p' : Pool Owner) : Prop where
  config : p'.config = p.config
  blockHash : p'.blockHash = p.blockHash
  holders : p'.holders = p.holders
  bundleHashes : p'.bundleHashes = p.bundleHashes
  pendingCow : p'.pendingCow = p.pendingCow
  reservations : p'.reservations = p.reservations
  evictions : p'.evictions = p.evictions

theorem Refs.refl (p : Pool Owner) : Refs p p := ⟨rfl, rfl, rfl, rfl, rfl, rfl, rfl⟩

theorem Refs.trans {p₁ : Pool Owner} (h : Refs p p₁) (h' : Refs p₁ p') : Refs p p' :=
  ⟨h'.config.trans h.config, h'.blockHash.trans h.blockHash, h'.holders.trans h.holders,
    h'.bundleHashes.trans h.bundleHashes, h'.pendingCow.trans h.pendingCow, h'.reservations.trans h.reservations,
    h'.evictions.trans h.evictions⟩

theorem Refs.usable (h : Refs p p') (b : Nat) : Usable p' b ↔ Usable p b := by rw [Usable, Usable, h.config]

theorem Refs.indexed (h : Refs p p') (hp : Indexed p) : Indexed p' where
  inverse := by rw [h.holders, h.bundleHashes]; exact hp.inverse
  nodup := by rw [h.holders]; exact hp.nodup
  key_value := by rw [h.bundleHashes]; exact hp.key_value
  keyless := by rw [h.blockHash, h.bundleHashes]; exact hp.keyless
  keyed := by rw [h.blockHash, h.bundleHashes]; exact hp.keyed

/-- The reference count of a bundle outside the queue moves, and it stays outside. -/
theorem Queued.recount (h : Queued p cold hot) (hrefs : Refs p p') (hfree : p'.free = p.free)
    (hlen : p'.freeLen = p.freeLen) (hreleases : p'.releases = p.releases) {n : Nat}
    (hcount : p'.refCnt = update p.refCnt id n) (hid : Usable p id) (hlive : 0 < p.refCnt id)
    (hn : 0 < n) : Queued p' cold hot where
  links := by rw [hfree]; exact h.links
  len := by rw [hlen]; exact h.len
  mem_iff := by
    intro b
    rw [hrefs.usable, hcount, h.mem_iff b]
    by_cases hb : b = id
    · simp [hb, ne_of_gt hlive, ne_of_gt hn]
    · simp [hb]
  unhashed := by rw [hrefs.blockHash]; exact h.unhashed
  hashed := by rw [hrefs.blockHash]; exact h.hashed
  released := by rw [hreleases]; exact h.released
  reserved := by
    intro b hb
    rw [hrefs.usable] at hb
    have hne : b ≠ id := fun heq => hb (heq ▸ hid)
    rw [hcount, hrefs.blockHash, update_of_ne hne]
    exact h.reserved b hb

/-- A cached bundle is referenced again, from wherever it stands in the queue. -/
theorem Queued.revive (h : Queued p cold hot) (hrefs : Refs p p') (hfree : p'.free = p.free.remove id)
    (hlen : p'.freeLen = p.freeLen - 1) (hreleases : p'.releases = p.releases) {n : Nat}
    (hcount : p'.refCnt = update p.refCnt id n) (hmem : id ∈ hot) (hn : 0 < n) :
    Queued p' cold (hot.erase id) := by
  obtain ⟨as, bs, rfl⟩ := append_of_mem hmem
  have hnodup := h.links.nodup
  have hsplit : cold ++ (as ++ id :: bs) = (cold ++ as) ++ id :: bs := by simp
  have hfresh : id ∉ (cold ++ as) ++ bs := by
    rw [hsplit, nodup_middle] at hnodup
    exact (nodup_cons.mp hnodup).1
  have herase : (as ++ id :: bs).erase id = as ++ bs := by
    rw [erase_append_right _ (fun has => hfresh (by simp [has])), erase_cons_head]
  have hlinks := h.links
  rw [hsplit] at hlinks
  rw [herase]
  refine ⟨?_, ?_, fun b => ?_, ?_, fun b hb => ?_, ?_, fun b hb => ?_⟩
  · rw [hfree, ← append_assoc]
    exact hlinks.remove
  · rw [hlen, h.len]
    simp only [length_append, length_cons]
    omega
  · rw [hrefs.usable, hcount]
    by_cases hb : b = id
    · rw [append_assoc] at hfresh
      simp [hb, ne_of_gt hn, hfresh]
    · have hiff := h.mem_iff b
      simpa [hb] using hiff
  · rw [hrefs.blockHash]
    exact h.unhashed
  · rw [hrefs.blockHash]
    apply h.hashed b
    rcases mem_append.mp hb with hb | hb <;> simp [hb]
  · rw [hreleases]
    refine Sublist.trans ?_ h.released
    exact Sublist.append_left (sublist_cons_self _ _) _
  · rw [hrefs.usable] at hb
    have hid := ((h.mem_iff id).mp (by simp)).1
    have hne : b ≠ id := fun heq => hb (heq ▸ hid)
    rw [hcount, hrefs.blockHash, update_of_ne hne]
    exact h.reserved b hb

theorem dedup_concat (l : List Nat) (a : Nat) : (l ++ [a]).dedup = l.dedup.filter (· ≠ a) ++ [a] := by
  induction l with
  | nil => simp
  | cons b l ih =>
    by_cases hb : b ∈ l ++ [a]
    · rw [cons_append, dedup_cons_of_mem hb, ih]
      rcases mem_append.mp hb with hmem | hmem
      · rw [dedup_cons_of_mem hmem]
      · rw [mem_singleton] at hmem
        by_cases hl : b ∈ l
        · rw [dedup_cons_of_mem hl]
        · rw [dedup_cons_of_notMem hl]
          simp [hmem]
    · simp only [mem_append, mem_singleton, not_or] at hb
      rw [cons_append, dedup_cons_of_notMem (by simp [hb]), dedup_cons_of_notMem hb.1, ih]
      simp [hb.2]

/-- A bundle without references goes to the end of the queue that its hash decides. -/
theorem Queued.release (h : Queued p cold hot) (hid : Usable p id) (hlive : 0 < p.refCnt id) :
    Queued (release id { p with refCnt := update p.refCnt id 0 })
      (if (p.blockHash id).isSome then cold else id :: cold) (if (p.blockHash id).isSome then hot ++ [id] else hot) := by
  have hout : id ∉ cold ++ hot := fun hmem => ne_of_gt hlive ((h.mem_iff id).mp hmem).2
  have hhot : id ∉ hot := fun hmem => hout (by simp [hmem])
  have hfilter : hot.Sublist (p.releases.dedup.filter (· ≠ id)) := by
    have hsame : hot.filter (· ≠ id) = hot := by
      rw [filter_eq_self]
      intro b hb
      simpa using fun heq : b = id => hhot (heq ▸ hb)
    rw [← hsame]
    exact h.released.filter _
  have hmem : ∀ b, (b = id ∨ b ∈ cold ++ hot) ↔ Usable p b ∧ update p.refCnt id 0 b = 0 := by
    intro b
    rw [h.mem_iff b]
    by_cases hb : b = id
    · simp [hb, hid]
    · simp [hb]
  have hreserved : ∀ b, ¬Usable p b → update p.refCnt id 0 b = 0 ∧ p.blockHash b = none := by
    intro b hb
    have hne : b ≠ id := fun heq => hb (heq ▸ hid)
    rw [update_of_ne hne]
    exact h.reserved b hb
  by_cases hsome : (p.blockHash id).isSome = true
  · rw [if_pos hsome, if_pos hsome]
    simp only [BundlePool.release, if_pos hsome, freeAppend]
    refine ⟨?_, ?_, fun b => ?_, h.unhashed, fun b hb => ?_, ?_, hreserved⟩
    · rw [← append_assoc]
      exact h.links.append hout
    · simp [h.len, add_assoc]
    · refine Iff.trans ?_ (hmem b)
      simp [or_comm, or_left_comm]
    · rcases mem_append.mp hb with hb | hb
      · exact h.hashed b hb
      · rwa [mem_singleton.mp hb]
    · rw [dedup_concat]
      exact hfilter.append (Sublist.refl _)
  · rw [if_neg hsome, if_neg hsome]
    simp only [BundlePool.release, if_neg hsome, freePrepend]
    refine ⟨?_, ?_, fun b => ?_, fun b hb => ?_, h.hashed, ?_, hreserved⟩
    · exact h.links.prepend hout
    · simp [h.len]
    · refine Iff.trans ?_ (hmem b)
      simp
    · rcases mem_cons.mp hb with rfl | hb
      · simpa using hsome
      · exact h.unhashed b hb
    · rw [dedup_concat]
      exact hfilter.trans (sublist_append_left _ _)

theorem checkRange_eq_ok {u : Unit} : checkRange id p = .ok u p' ↔ Usable p id ∧ p = p' := by
  simp [checkRange, bind_eq_ok, Usable, and_assoc]

theorem checkRange_of (h : Usable p id) : checkRange id p = .ok ⟨⟩ p := checkRange_eq_ok.mpr ⟨h, rfl⟩

variable [DecidableEq Owner]

structure Referenced (p : Pool Owner) (id : Nat) (p' : Pool Owner) : Prop extends Refs p p' where
  usable : Usable p id
  refCnt : p'.refCnt = update p.refCnt id (p.refCnt id + 1)
  releases : p'.releases = p.releases

theorem increfOne_of (h : WellFormed p cold hot) (husable : Usable p id)
    (hcontent : p.refCnt id = 0 → (p.blockHash id).isSome) :
    ∃ p', increfOne id p = .ok ⟨⟩ p' ∧ Referenced p id p' ∧ WellFormed p' cold (hot.erase id) := by
  by_cases hzero : p.refCnt id = 0
  · have hmem : id ∈ cold ++ hot := (h.mem_iff id).mpr ⟨husable, hzero⟩
    have hqueued : p.free.contains id = true := h.links.contains_iff.mpr hmem
    have hhash : p.blockHash id ≠ none := Option.isSome_iff_ne_none.mp (hcontent hzero)
    have hhot : id ∈ hot := by
      rcases mem_append.mp hmem with hcold | hhot
      · exact absurd (h.unhashed id hcold) hhash
      · exact hhot
    let p₁ : Pool Owner := { freeRemove id p with refCnt := update p.refCnt id (p.refCnt id + 1) }
    have hrefs : Refs p p₁ := ⟨rfl, rfl, rfl, rfl, rfl, rfl, rfl⟩
    refine ⟨p₁, ?_, ⟨hrefs, husable, rfl, rfl⟩, ?_⟩
    · have hgarbage : ¬(p.refCnt id = 0 ∧ p.free.contains id ∧ p.blockHash id = none) := fun hbad => hhash hbad.2.2
      have houtside : ¬(p.refCnt id = 0 ∧ !p.free.contains id) := by simp [hqueued]
      simp only [increfOne, bind_of_ok (checkRange_of husable), bind_of_ok (get_apply p),
        bind_of_ok (raiseIf_of_not hgarbage p), bind_of_ok (raiseIf_of_not houtside p),
        bind_of_ok (modify_apply _ p), if_pos hzero, modify_apply]
      rfl
    · exact { h.toQueued.revive hrefs rfl rfl rfl rfl hhot (Nat.succ_pos _), hrefs.indexed h.toIndexed with
        promised := h.promised }
  · let p₁ : Pool Owner := { p with refCnt := update p.refCnt id (p.refCnt id + 1) }
    have hrefs : Refs p p₁ := ⟨rfl, rfl, rfl, rfl, rfl, rfl, rfl⟩
    have hout : id ∉ hot := fun hmem => hzero ((h.mem_iff id).mp (mem_append_right _ hmem)).2
    refine ⟨p₁, ?_, ⟨hrefs, husable, rfl, rfl⟩, ?_⟩
    · have hgarbage : ¬(p.refCnt id = 0 ∧ p.free.contains id ∧ p.blockHash id = none) := fun hbad => hzero hbad.1
      have houtside : ¬(p.refCnt id = 0 ∧ !p.free.contains id) := fun hbad => hzero hbad.1
      simp only [increfOne, bind_of_ok (checkRange_of husable), bind_of_ok (get_apply p),
        bind_of_ok (raiseIf_of_not hgarbage p), bind_of_ok (raiseIf_of_not houtside p),
        bind_of_ok (modify_apply _ p), if_neg hzero, modify_apply]
      rfl
    · rw [erase_of_not_mem hout]
      exact { h.toQueued.recount hrefs rfl rfl rfl rfl husable (Nat.pos_of_ne_zero hzero) (Nat.succ_pos _),
        hrefs.indexed h.toIndexed with promised := h.promised }

section

variable {u : Unit} (h : WellFormed p cold hot) (hok : increfOne id p = .ok u p')
include h hok

theorem increfOne_guards : Usable p id ∧ (p.refCnt id = 0 → (p.blockHash id).isSome) := by
  simp only [increfOne, bind_eq_ok, checkRange_eq_ok, raiseIf_eq_ok, get_apply,
    EStateM.Result.ok.injEq] at hok
  obtain ⟨-, _, ⟨husable, rfl⟩, _, _, ⟨rfl, rfl⟩, -, _, ⟨hgarbage, rfl⟩, -, _, ⟨houtside, rfl⟩, -⟩ := hok
  refine ⟨husable, fun hzero => ?_⟩
  have hqueued : p.free.contains id = true := h.links.contains_iff.mpr ((h.mem_iff id).mpr ⟨husable, hzero⟩)
  rw [Option.isSome_iff_ne_none]
  exact fun hnone => hgarbage ⟨hzero, hqueued, hnone⟩

theorem increfOne_ok : Referenced p id p' ∧ WellFormed p' cold (hot.erase id) := by
  obtain ⟨husable, hcontent⟩ := increfOne_guards h hok
  obtain ⟨p₁, hrun, hreferenced, hwf⟩ := increfOne_of h husable hcontent
  rw [hrun] at hok
  cases hok
  exact ⟨hreferenced, hwf⟩

end

structure Released (p : Pool Owner) (id : Nat) (p' : Pool Owner) : Prop extends Refs p p' where
  usable : Usable p id
  live : 0 < p.refCnt id
  refCnt : p'.refCnt = update p.refCnt id (p.refCnt id - 1)
  releases : p'.releases = if p.refCnt id = 1 then p.releases ++ [id] else p.releases

def coldAfter (p : Pool Owner) (id : Nat) (cold : List Nat) : List Nat :=
  if p.refCnt id = 1 ∧ p.blockHash id = none then id :: cold else cold

def hotAfter (p : Pool Owner) (id : Nat) (hot : List Nat) : List Nat :=
  if p.refCnt id = 1 ∧ (p.blockHash id).isSome then hot ++ [id] else hot

theorem decrefOne_of (h : WellFormed p cold hot) (husable : Usable p id) (hlive : 0 < p.refCnt id) :
    ∃ p', decrefOne id p = .ok ⟨⟩ p' ∧ Released p id p' ∧
      WellFormed p' (coldAfter p id cold) (hotAfter p id hot) := by
  have hnonzero : ¬p.refCnt id = 0 := ne_of_gt hlive
  let p₁ : Pool Owner := { p with refCnt := update p.refCnt id (p.refCnt id - 1) }
  have hrun : ∀ p₂, (if p₁.refCnt id = 0 then release id p₁ else p₁) = p₂ → decrefOne id p = .ok ⟨⟩ p₂ := by
    rintro p₂ rfl
    simp only [decrefOne, bind_of_ok (checkRange_of husable), bind_of_ok (get_apply p),
      bind_of_ok (raiseIf_of_not hnonzero p), bind_of_ok (modify_apply _ p), modify_apply]
    rfl
  by_cases hone : p.refCnt id = 1
  · have hp₁ : p₁ = { p with refCnt := update p.refCnt id 0 } := by simp [p₁, hone]
    refine ⟨release id p₁, hrun _ (by simp [hp₁]), ⟨?_, husable, hlive, ?_, ?_⟩, ?_⟩
    · simp only [release, freeAppend, freePrepend, p₁]
      split_ifs <;> exact ⟨rfl, rfl, rfl, rfl, rfl, rfl, rfl⟩
    · simp only [release, freeAppend, freePrepend, p₁]
      split_ifs <;> rfl
    · simp only [release, freeAppend, freePrepend, p₁, if_pos hone]
      split_ifs <;> rfl
    · have hqueued := h.toQueued.release husable hlive
      have hcold : coldAfter p id cold = if (p.blockHash id).isSome then cold else id :: cold := by
        cases hhash : p.blockHash id <;> simp [coldAfter, hone, hhash]
      have hhot : hotAfter p id hot = if (p.blockHash id).isSome then hot ++ [id] else hot := by
        cases hhash : p.blockHash id <;> simp [hotAfter, hone, hhash]
      have hindexed : Indexed (release id p₁) := by
        simp only [release, freeAppend, freePrepend, p₁]
        split_ifs <;> exact { h.toIndexed with }
      have hpromised : (release id p₁).reservations = p.reservations := by
        simp only [release, freeAppend, freePrepend, p₁]
        split_ifs <;> rfl
      rw [hcold, hhot]
      rw [← hp₁] at hqueued
      exact { hqueued, hindexed with promised := by rw [hpromised]; exact h.promised }
  · have hmore : 0 < p.refCnt id - 1 := by omega
    have hnot : ¬p₁.refCnt id = 0 := by simpa [p₁] using ne_of_gt hmore
    have hrefs : Refs p p₁ := ⟨rfl, rfl, rfl, rfl, rfl, rfl, rfl⟩
    refine ⟨p₁, hrun _ (if_neg hnot), ⟨hrefs, husable, hlive, rfl, by simp [hone, p₁]⟩, ?_⟩
    have hcold : coldAfter p id cold = cold := if_neg fun hbad => hone hbad.1
    have hhot : hotAfter p id hot = hot := if_neg fun hbad => hone hbad.1
    rw [hcold, hhot]
    exact { h.toQueued.recount hrefs rfl rfl rfl rfl husable hlive hmore, hrefs.indexed h.toIndexed with
      promised := h.promised }

theorem decrefOne_ok {u : Unit} (h : WellFormed p cold hot) (hok : decrefOne id p = .ok u p') :
    Released p id p' ∧ WellFormed p' (coldAfter p id cold) (hotAfter p id hot) := by
  have hguards : Usable p id ∧ 0 < p.refCnt id := by
    simp only [decrefOne, bind_eq_ok, checkRange_eq_ok, raiseIf_eq_ok, get_apply,
    EStateM.Result.ok.injEq] at hok
    obtain ⟨-, _, ⟨husable, rfl⟩, _, _, ⟨rfl, rfl⟩, -, _, ⟨hlive, rfl⟩, -⟩ := hok
    exact ⟨husable, Nat.pos_of_ne_zero hlive⟩
  obtain ⟨p₁, hrun, hreleased, hwf⟩ := decrefOne_of h hguards.1 hguards.2
  rw [hrun] at hok
  cases hok
  exact ⟨hreleased, hwf⟩

end Reference

end BundlePool
