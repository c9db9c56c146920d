import BlackweLLM.PoolOperations

/-!
# What a slot asks of the pool

The calls of the slot pool, with both of their outcomes: a page of one's own,
a copy in exchange for a shared or published page, references to cached pages
and their return. Only the null bundle is reserved, so the assertions never
fire and a call that is refused changes nothing.
-/

namespace BundlePool

open List LinkedQueue RaisingState

variable {Owner : Type} {p p' : Pool Owner} {cold hot : List Nat} {source target count : Nat} {owner : Owner}
  {ids : List Nat}

theorem Increfed.refl (p : Pool Owner) : Increfed p [] p := ⟨Refs.refl p, by simp, rfl⟩

theorem Decrefed.refl (p : Pool Owner) : Decrefed p [] p := ⟨Refs.refl p, by simp⟩

variable [DecidableEq Owner]

/-- The queue grows where references go. -/
theorem WellFormed.freeLen_mono {cold' hot' : List Nat} (h : WellFormed p cold hot) (h' : WellFormed p' cold' hot')
    (hconfig : p'.config = p.config) (hle : ∀ b, p'.refCnt b ≤ p.refCnt b) : p.freeLen ≤ p'.freeLen := by
  rw [h.freeLen_eq, h'.freeLen_eq, hconfig]
  apply countP_mono_left
  intro b _ hb
  have hzero := hle b
  simp only [decide_eq_true_eq] at hb ⊢
  omega

theorem Spent.refl (promises : AList fun _ : Owner => Nat) (owner : Owner) :
    Spent promises owner 0 promises :=
  ⟨rfl, fun _ _ => rfl, by rw [Nat.zero_min, add_zero], id⟩

theorem Spent.trans {r₁ r₂ r₃ : AList fun _ : Owner => Nat} {m n : Nat}
    (h : Spent r₁ owner m r₂) (h' : Spent r₂ owner n r₃) : Spent r₁ owner (m + n) r₃ where
  self := by rw [h'.self, h.self, Nat.sub_sub]
  other := fun o ho => (h'.other o ho).trans (h.other o ho)
  total := by
    have hself := h.self
    have htotal := h.total
    have htotal' := h'.total
    omega
  positive := fun hpos => h'.positive (h.positive hpos)

section Allocate

/-- `target` is taken from the queue for `owner`. -/
structure Fresh (p : Pool Owner) (owner : Owner) (target : Nat) (p' : Pool Owner) : Prop where
  config : p'.config = p.config
  usable : Usable p target
  spare : p.refCnt target = 0
  refCnt : ∀ b, p'.refCnt b = if b = target then 1 else p.refCnt b
  blockHash : ∀ b, p'.blockHash b = if b = target then none else p.blockHash b
  freeLen : p'.freeLen + 1 = p.freeLen
  spent : Spent p.reservations owner 1 p'.reservations

theorem allocate_ends (h : WellFormed p cold hot) (hnull : p.config.reserved = 1) :
    Ends (fun ids p' => Room p count owner ∧ ids = (cold ++ hot).take count ∧ Allocated p count owner cold hot p')
      (fun p' => p' = p ∧ ¬Room p count owner) (allocate count owner p) := by
  by_cases hroom : Room p count owner
  · obtain ⟨p₁, hallocated, hrun⟩ := allocate_of_room h hroom
    have hchecked := maybeInvariantCheck_of (hallocated.wellFormed.checked (by rw [hallocated.taken.config, hnull]))
    rw [hrun, bind_of_ok hchecked]
    exact ⟨hroom, rfl, hallocated⟩
  · obtain ⟨e, herr⟩ := allocate_of_not_room hroom
    rw [herr]
    exact ⟨rfl, hroom⟩

theorem Allocated.fresh {rest : List Nat} (h : WellFormed p cold hot) (halloc : Allocated p 1 owner cold hot p')
    (hfront : cold ++ hot = target :: rest) : Fresh p owner target p' := by
  obtain ⟨husable, hspare⟩ := (h.mem_iff target).mp (by simp [hfront])
  have htake : (cold ++ hot).take 1 = [target] := by simp [hfront]
  have htaken := halloc.taken
  rw [htake] at htaken
  have hlen : p'.freeLen + 1 = p.freeLen := by
    have hrest : cold.drop 1 ++ hot.drop (1 - cold.length) = rest := by
      rw [← drop_append, hfront, drop_one, tail_cons]
    rw [halloc.wellFormed.len, h.len, hrest, hfront, length_cons]
  refine ⟨htaken.config, husable, hspare, fun b => ?_, fun b => ?_, hlen, halloc.spent⟩
  · simpa using htaken.refCnt b
  · simpa using htaken.blockHash b

theorem allocate_one_ends (h : Valid p) (hnull : p.config.reserved = 1) :
    Ends (fun ids p' => Room p 1 owner ∧ ∃ target, ids = [target] ∧ Fresh p owner target p' ∧ Valid p')
      (fun p' => p' = p ∧ ¬Room p 1 owner) (allocate 1 owner p) := by
  obtain ⟨cold, hot, hwf⟩ := h
  apply (allocate_ends hwf hnull).mono
  · rintro ids p' ⟨hroom, rfl, halloc⟩
    have hsome : cold ++ hot ≠ [] := by
      rw [← length_pos_iff, ← hwf.len]
      exact hroom.1
    obtain ⟨target, rest, hfront⟩ := exists_cons_of_ne_nil hsome
    exact ⟨hroom, target, by simp [hfront], halloc.fresh hwf hfront, _, _, halloc.wellFormed⟩
  · exact fun _ => id

end Allocate

section Release

omit [DecidableEq Owner] in
theorem decrefOne_error {id : Nat} {e : PoolError} (h : decrefOne id p = .error e p') : p' = p := by
  rw [decrefOne, bind_eq_error] at h
  rcases h with hrange | ⟨⟨⟩, p₁, hrange, h⟩
  · exact checkRange_error hrange
  · obtain ⟨-, rfl⟩ := checkRange_eq_ok.mp hrange
    simp only [bind_of_ok (get_apply p), bind_eq_error, raiseIf_eq_error, raiseIf_eq_ok] at h
    rcases h with ⟨-, -, rfl⟩ | ⟨⟨⟩, _, ⟨-, rfl⟩, h⟩
    · rfl
    · simp at h

/-- One reference to a live bundle goes. -/
theorem decref_one_of (h : Valid p) (hnull : p.config.reserved = 1) (hsource : Usable p source)
    (hlive : 0 < p.refCnt source) : ∃ p', decref [source] p = .ok ⟨⟩ p' ∧ Decrefed p [source] p' ∧ Valid p' ∧
      p'.freeLen = p.freeLen + if p.refCnt source = 1 then 1 else 0 := by
  obtain ⟨cold, hot, hwf⟩ := h
  obtain ⟨p', hstep, hreleased, hwf'⟩ := decrefOne_of hwf hsource hlive
  have hchecked := maybeInvariantCheck_of (hwf'.checked (by rw [hreleased.config, hnull]))
  have hloop : (forM [source] decrefOne) p = .ok ⟨⟩ p' := by
    rw [forM_cons, bind_of_ok hstep]
    rfl
  have hrun : decref [source] p = .ok ⟨⟩ p' := by
    rw [decref, bind_of_ok hloop, hchecked]
  have hlen : p'.freeLen = p.freeLen + if p.refCnt source = 1 then 1 else 0 := by
    rw [hwf'.len, hwf.len]
    cases hhash : p.blockHash source <;> by_cases hone : p.refCnt source = 1 <;>
      simp [coldAfter, hotAfter, hhash, hone, add_assoc]
  exact ⟨p', hrun, (Decrefed.refl p).concat hreleased, ⟨_, _, hwf'⟩, hlen⟩

end Release

section Exchange

/-- `owner` takes `target` for its reference to `source`. -/
structure Exchanged (p : Pool Owner) (owner : Owner) (source target : Nat) (p' : Pool Owner) : Prop where
  config : p'.config = p.config
  usable : Usable p target
  spare : p.refCnt target = 0
  live : 0 < p.refCnt source
  refCnt : ∀ b, p'.refCnt b + (if b = source then 1 else 0) = if b = target then 1 else p.refCnt b
  blockHash : ∀ b, p'.blockHash b = if b = target then none else p.blockHash b
  freeLen : p'.freeLen + 1 = p.freeLen + if p.refCnt source = 1 then 1 else 0
  spent : Spent p.reservations owner 1 p'.reservations

theorem ensureWritable_ends (h : Valid p) (hnull : p.config.reserved = 1)
    (hshared : ¬(p.refCnt source = 1 ∧ p.blockHash source = none)) :
    Ends (fun target p' => (Usable p source ∧ 0 < p.refCnt source ∧ Room p 1 owner) ∧ Fresh p owner target p' ∧ Valid p')
      (fun p' => p' = p ∧ ¬(Usable p source ∧ 0 < p.refCnt source ∧ Room p 1 owner))
      (ensureWritable source owner p) := by
  have hcopy : ¬(p.refCnt source = 1 ∧ !isNull source ∧ p.blockHash source = none) :=
    fun hprivate => hshared ⟨hprivate.1, hprivate.2.2⟩
  simp only [ensureWritable, bind_of_ok (get_apply p)]
  apply ends_raiseIf_bind
  · exact fun hlow => ⟨rfl, fun hall => Nat.not_lt.mpr hall.1.1 hlow⟩
  intro hlow
  apply ends_raiseIf_bind
  · exact fun hhigh => ⟨rfl, fun hall => Nat.not_lt.mpr hhigh hall.1.2⟩
  intro hhigh
  have husable : Usable p source := ⟨Nat.not_lt.mp hlow, Nat.not_le.mp hhigh⟩
  rw [if_neg hcopy]
  apply ends_raiseIf_bind
  · exact fun hzero => ⟨rfl, fun hall => Nat.ne_of_gt hall.2.1 hzero⟩
  intro hzero
  have hlive := Nat.pos_of_ne_zero hzero
  apply ends_bind (P := fun ids s => Room p 1 owner ∧ ∃ target, ids = [target] ∧ Fresh p owner target s ∧ Valid s)
  · exact (allocate_one_ends h hnull).weaken fun s hs => ⟨hs.1, fun hall => hs.2 hall.2.2⟩
  rintro _ p₁ ⟨hroom, target, rfl, hfresh, cold, hot, hwf⟩
  exact ⟨⟨husable, hlive, hroom⟩, { hfresh with }, _, _, hwf.cow _⟩

theorem Fresh.exchanged {p₁ : Pool Owner} (h : Fresh p owner target p₁) (hlive : 0 < p.refCnt source)
    (hdecref : Decrefed p₁ [source] p')
    (hlen : p'.freeLen = p₁.freeLen + if p₁.refCnt source = 1 then 1 else 0) :
    Exchanged p owner source target p' := by
  have hne : source ≠ target := fun heq => ne_of_gt hlive (heq ▸ h.spare)
  have hsame : p₁.refCnt source = p.refCnt source := by rw [h.refCnt, if_neg hne]
  refine ⟨hdecref.config.trans h.config, h.usable, h.spare, hlive, fun b => ?_, fun b => ?_, ?_, ?_⟩
  · have hcount := hdecref.refCnt b
    rw [count_singleton, h.refCnt] at hcount
    rw [← hcount]
    by_cases hb : b = source
    · simp [hb]
    · simp [hb, Ne.symm hb]
  · rw [hdecref.blockHash]
    exact h.blockHash b
  · have hfree := h.freeLen
    rw [hlen, hsame]
    omega
  · rw [hdecref.reservations]
    exact h.spent

end Exchange

section Restore

/-- References to pages that are live or still hold something: all of them, or none. -/
theorem incref_ends (h : Valid p) (hnull : p.config.reserved = 1) (hids : ∀ id ∈ ids, Usable p id)
    (hcontent : ∀ id ∈ ids, p.refCnt id = 0 → (p.blockHash id).isSome) :
    Ends (fun _ p' => Revivable p ids owner ∧ Increfed p ids p' ∧ Valid p')
      (fun p' => p' = p ∧ ¬Revivable p ids owner) (incref ids owner p) := by
  obtain ⟨cold, hot, hwf⟩ := h
  by_cases hcapacity : Revivable p ids owner
  · obtain ⟨p', hrun, hincref, hot', hwf'⟩ := incref_of hwf hnull hids hcontent hcapacity
    rw [hrun]
    exact ⟨hcapacity, hincref, _, _, hwf'⟩
  · have hrefused := not_not.mp hcapacity
    rw [incref, bind_of_ok (forM_checkRange_of hids), bind_of_ok (get_apply p),
      bind_of_error (raiseIf_of hrefused p)]
    exact ⟨rfl, hcapacity⟩

/-- What is left of the queue after references to distinct pages. -/
theorem Increfed.freeLen (h : Valid p) (h' : Valid p') (hincref : Increfed p ids p') (hnodup : ids.Nodup)
    (hids : ∀ id ∈ ids, Usable p id) : p'.freeLen + (ids.countP fun id => decide (p.refCnt id = 0)) = p.freeLen := by
  obtain ⟨cold, hot, hwf⟩ := h
  obtain ⟨cold', hot', hwf'⟩ := h'
  have hrevived : (ids.filter fun id => decide (p.refCnt id = 0)).Perm
      ((p.config.usable.filter fun id => decide (p.refCnt id = 0)).filter (· ∈ ids)) := by
    rw [perm_ext_iff_of_nodup (hnodup.filter _) (((nodup_usable _).filter _).filter _)]
    intro id
    simp only [mem_filter, mem_usable, decide_eq_true_eq]
    constructor
    · rintro ⟨hid, hzero⟩
      exact ⟨⟨hids id hid, hzero⟩, hid⟩
    · rintro ⟨⟨-, hzero⟩, hid⟩
      exact ⟨hid, hzero⟩
  have hleft : (p.config.usable.filter fun id => decide (p'.refCnt id = 0)) =
      (p.config.usable.filter fun id => decide (p.refCnt id = 0)).filter (· ∉ ids) := by
    rw [filter_filter]
    apply filter_congr
    intro id _
    rw [hincref.refCnt]
    by_cases hid : id ∈ ids
    · have hpos := count_pos_iff.mpr hid
      simp [hid, ne_of_gt hpos]
    · simp [hid, count_eq_zero.mpr hid]
  have hsplit := length_eq_length_filter_add
    (l := p.config.usable.filter fun id => decide (p.refCnt id = 0)) (fun id => decide (id ∈ ids))
  have hnot : ((p.config.usable.filter fun id => decide (p.refCnt id = 0)).filter fun id => !decide (id ∈ ids)) =
      (p.config.usable.filter fun id => decide (p.refCnt id = 0)).filter (· ∉ ids) := by
    apply filter_congr
    intro id _
    simp
  rw [hwf.freeLen_eq, hwf'.freeLen_eq, hincref.config, countP_eq_length_filter, countP_eq_length_filter,
    countP_eq_length_filter, hleft, hrevived.length_eq, hsplit, hnot, add_comm]

/-- The bundles among `ids` that are in the queue. -/
def revivals (p : Pool Owner) (ids : List Nat) : Nat := ids.countP fun id => decide (p.refCnt id = 0)

/-- There is one more bundle besides those that are revived. -/
def TailRoom (p : Pool Owner) (owner : Owner) (ids : List Nat) : Prop :=
  revivals p ids + 1 ≤ p.freeLen ∧
  (reservedFor p owner = 0 → revivals p ids + 1 + requestReserved p + p.config.watermark ≤ p.freeLen)

instance (p : Pool Owner) (owner : Owner) (ids : List Nat) : Decidable (TailRoom p owner ids) :=
  inferInstanceAs (Decidable (_ ∧ (_ → _)))

instance (p : Pool Owner) (ids : List Nat) (owner : Owner) : Decidable (Revivable p ids owner) :=
  inferInstanceAs (Decidable (¬_))

theorem room_iff_tailRoom (h : Valid p) (h' : Valid p') (hincref : Increfed p ids p') (hnodup : ids.Nodup)
    (hids : ∀ id ∈ ids, Usable p id) : Room p' 1 owner ↔ TailRoom p owner ids := by
  have hlen := hincref.freeLen h h' hnodup hids
  simp only [Room, TailRoom, unreservedFree, reservedFor, requestReserved, hincref.reservations, hincref.config,
    revivals]
  omega

/-- Nothing has changed but the order of the queue. -/
structure Unmoved (p p' : Pool Owner) : Prop where
  config : p'.config = p.config
  refCnt : ∀ b, p'.refCnt b = p.refCnt b
  blockHash : ∀ b, p'.blockHash b = p.blockHash b
  freeLen : p'.freeLen = p.freeLen
  reservations : p'.reservations = p.reservations

omit [DecidableEq Owner] in
theorem Unmoved.refl (p : Pool Owner) : Unmoved p p := ⟨rfl, fun _ => rfl, fun _ => rfl, rfl, rfl⟩

theorem Increfed.undone (h : Valid p) {p₁ : Pool Owner} (hincref : Increfed p ids p₁) (hdecref : Decrefed p₁ ids p')
    (h' : Valid p') : Unmoved p p' := by
  have href : ∀ b, p'.refCnt b = p.refCnt b := by
    intro b
    have hup := hincref.refCnt b
    have hdown := hdecref.refCnt b
    omega
  obtain ⟨cold, hot, hwf⟩ := h
  obtain ⟨cold', hot', hwf'⟩ := h'
  have hconfig : p'.config = p.config := hdecref.config.trans hincref.config
  refine ⟨hconfig, href, fun b => ?_, ?_, hdecref.reservations.trans hincref.reservations⟩
  · rw [hdecref.blockHash, hincref.blockHash]
  · rw [hwf.freeLen_eq, hwf'.freeLen_eq, hconfig]
    simp only [href]

theorem consumeReservation_ends (h : Valid p) :
    Ends (fun _ p' => Valid p' ∧ ∃ promises, p' = { p with reservations := promises } ∧
        Spent p.reservations owner count promises)
      (fun p' => p' = p ∧ reservedFor p owner ≠ 0 ∧ reservedFor p owner < count) (consumeReservation owner count p) := by
  obtain ⟨cold, hot, hwf⟩ := h
  obtain ⟨promises, hrun, hspent⟩ | ⟨hsome, hless, e, herr⟩ := consumeReservation_spec owner count p
  · rw [hrun]
    exact ⟨⟨_, _, hwf.promise (hspent.positive hwf.promised)⟩, promises, rfl, hspent⟩
  · rw [herr]
    obtain ⟨n, hn⟩ := Option.isSome_iff_exists.mp hsome
    refine ⟨rfl, ?_, hless⟩
    rw [reservedFor, Ledger.amount_of_lookup hn]
    exact ne_of_gt (hwf.promised owner n hn)

end Restore

section Reserve

/-- `owner` is promised `count` bundles. -/
structure Promised (promises : AList fun _ : Owner => Nat) (owner : Owner) (count : Nat)
    (promises' : AList fun _ : Owner => Nat) : Prop where
  amount : Ledger.amount promises' owner = count
  other : ∀ o, o ≠ owner → Ledger.amount promises' o = Ledger.amount promises o
  total : Ledger.total promises' = Ledger.total promises + count

/-- A grant fits into what is free, not promised and not kept back. -/
theorem reserve_ends (h : Valid p) :
    Ends (fun granted p' => Valid p' ∧ (granted = false → p' = p) ∧
        (granted = true → reservedFor p owner = 0 ∧ count + requestReserved p + p.config.watermark ≤ p.freeLen ∧
          ∃ promises, p' = { p with reservations := promises } ∧ Promised p.reservations owner count promises))
      (fun p' => p' = p) (reserve count owner p) := by
  obtain ⟨cold, hot, hwf⟩ := id h
  cases hrun : reserve count owner p with
  | error e p' =>
    simp only [reserve, bind_of_ok (get_apply p)] at hrun
    by_cases howner : owner ∈ p.reservations
    · rw [if_pos howner] at hrun
      cases hrun
      rfl
    · rw [if_neg howner] at hrun
      split_ifs at hrun <;> cases hrun
  | ok granted p' =>
    obtain ⟨hwf', hnone, hfits, hp'⟩ := reserve_ok hwf hrun
    have hamount : Ledger.amount p.reservations owner = 0 := Ledger.amount_eq_zero hnone
    have hsum := Ledger.total_erase_add p.reservations owner
    cases granted with
    | false => exact ⟨⟨_, _, hwf'⟩, fun _ => by simpa using hp', by simp⟩
    | true =>
      have hfits' := hfits rfl
      refine ⟨⟨_, _, hwf'⟩, by simp, fun _ => ⟨hamount, by omega, ?_⟩⟩
      by_cases hcount : count = 0
      · exact ⟨p.reservations, by simpa [hcount] using hp', by rw [hamount, hcount], fun _ _ => rfl, by rw [hcount]; rfl⟩
      · refine ⟨p.reservations.insert owner count, by simpa [hcount] using hp', Ledger.amount_insert_self,
          fun o ho => Ledger.amount_insert_of_ne ho, ?_⟩
        rw [Ledger.total_insert]
        omega

end Reserve

end BundlePool
