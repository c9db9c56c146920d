import BlackweLLM.SlotOwnership

/-!
# What a reservation is worth

A grant of `reserve_kv_capacity` covers the pages of its tokens once each. A
write that needs a bundle for anything else, such as the copy of a page that
the slot has published, takes it from the same reservation.
-/

namespace SlotPool

open List Function BundlePool RaisingState StepRun

variable {β : Type} {s s' : Slots β} {slot first length kvLen : Nat} {g : Geometry} {kv : Nat → Nat → β}
  {touched : List Nat}

section Missing

/-- The pages among the first ones of a row that have no bundle. -/
def missing (s : Slots β) (slot pages : Nat) : Nat :=
  (range pages).countP fun page => decide ((s.host slot).getD page 0 = 0)

def filled (s : Slots β) (slot pages : Nat) (touched : List Nat) : Nat :=
  (range pages).countP fun page => decide (page ∈ touched ∧ (s.host slot).getD page 0 = 0)

theorem filled_le (s : Slots β) (slot pages : Nat) (touched : List Nat) :
    filled s slot pages touched ≤ missing s slot pages := by
  apply countP_mono_left
  intro page _ hpage
  simp only [decide_eq_true_eq] at hpage ⊢
  exact hpage.2

theorem missing_congr {pages : Nat} (h : s'.host slot = s.host slot) :
    missing s' slot pages = missing s slot pages := by
  rw [missing, missing, h]

/-- The touched pages are no longer missing. -/
theorem missing_filled {pages : Nat} (hready : ∀ page ∈ touched, page < pages → (s'.host slot).getD page 0 ≠ 0)
    (hkept : ∀ page, page ∉ touched → (s'.host slot).getD page 0 = (s.host slot).getD page 0) :
    missing s' slot pages + filled s slot pages touched = missing s slot pages := by
  rw [missing, missing, filled]
  induction pages with
  | zero => rfl
  | succ pages ih =>
    have hrest := ih fun page hpage hlt => hready page hpage (Nat.lt_succ_of_lt hlt)
    rw [range_succ, countP_append, countP_append, countP_append, ← hrest]
    simp only [countP_singleton]
    by_cases hpage : pages ∈ touched
    · have hne := hready pages hpage (Nat.lt_succ_self _)
      simp only [hpage, hne, true_and, decide_false]
      simp only [Bool.false_eq_true, if_false]
      omega
    · rw [hkept pages hpage]
      simp only [hpage, false_and, decide_false, Bool.false_eq_true, if_false]
      omega

/-- An empty front of the row is filled as far as the grant goes. -/
theorem filled_range {pages n : Nat} (h : ∀ page < n, (s.host slot).getD page 0 = 0) :
    min pages n ≤ filled s slot pages (range n) := by
  simp only [filled, mem_range]
  induction pages with
  | zero => simp
  | succ pages ih =>
    rw [range_succ, countP_append, countP_singleton]
    by_cases hpage : pages < n
    · have hnull := h pages hpage
      simp only [hpage, hnull, and_self, decide_true, if_true]
      omega
    · omega

end Missing

section Grants

/-- The slots, with the tokens that each was granted since its last reset. -/
structure Granted (β : Type) where
  slots : Slots β
  granted : Nat → Nat

def begin (g : Geometry) (kv : Nat → Nat → β) : Granted β := ⟨start g kv, fun _ => 0⟩

/-- A call, and what it grants. -/
def Granted.call (t : Granted β) : Op → Option (Granted β)
  | .reserveKvCapacity slot total =>
    match reserveKvCapacity slot total t.slots with
    | .ok true s => some ⟨s, update t.granted slot (max (t.granted slot) total)⟩
    | .ok false s => some ⟨s, t.granted⟩
    | .error _ s => some ⟨s, t.granted⟩
  | .resetSlot slot => some ⟨endState (resetSlot slot t.slots), update t.granted slot 0⟩
  | op => (SlotPool.call t.slots op).map fun s => ⟨s, t.granted⟩

def Granted.pages (t : Granted β) (slot : Nat) : Nat := t.slots.geometry.pages (t.granted slot)

/-- Those that have no bundle yet. -/
def Granted.due (t : Granted β) (slot : Nat) : Nat := missing t.slots slot (t.pages slot)

/-- What the write replaces besides due pages leaves the reservation enough for these, or it maps the last of them
and the rest is there without a promise. -/
def Secured (t : Granted β) (slot : Nat) (touched : List Nat) : Prop :=
  (replacedPages t.slots slot touched).length + t.due slot ≤
      reservedFor t.slots.arena slot + filled t.slots slot (t.pages slot) touched ∨
  (t.due slot ≤ filled t.slots slot (t.pages slot) touched ∧
    (replacedPages t.slots slot touched).length ≤ reservedFor t.slots.arena slot + unreservedFree t.slots.arena)

instance (t : Granted β) (slot : Nat) (touched : List Nat) : Decidable (Secured t slot touched) :=
  inferInstanceAs (Decidable (_ ∨ _ ∧ _))

/-- A slot with a grant asks for no bundle that the grant does not count, unless its reservation has one to spare. -/
def Backed (t : Granted β) : Op → Prop
  | .prepareKvWrites slot first length =>
    slot < t.slots.geometry.numRows → first + length ≤ t.slots.geometry.maxSeqLen → 0 < length →
      (t.granted slot = 0 ∧ Covered t.slots slot (t.slots.geometry.touched first length)) ∨
      (t.granted slot < first + length ∧ ¬Affordable t.slots slot (t.slots.geometry.touched first length) 0) ∨
      Secured t slot (t.slots.geometry.touched first length)
  | op => Tracked t.slots op

instance decidableBacked (t : Granted β) : (op : Op) → Decidable (Backed t op)
  | .prepareKvWrites _ _ _ => inferInstanceAs (Decidable (_ → _ → _ → _))
  | .restorePrefixFromArena slot kvLen keys => decidableTracked t.slots (.restorePrefixFromArena slot kvLen keys)
  | .restorePrefixFromCachedBundles slot kvLen ids =>
    decidableTracked t.slots (.restorePrefixFromCachedBundles slot kvLen ids)
  | .publishCommittedBlocks _ _ _ _ _ => isTrue trivial
  | .reserveKvCapacity _ _ => isTrue trivial
  | .resetSlot _ => isTrue trivial

end Grants

section Invariant

/-- All promises are covered by free bundles, and every due page by its slot's promise. -/
structure Guaranteed (t : Granted β) : Prop where
  mapped : Mapped t.slots
  live : ∀ slot, t.granted slot ≠ 0 → slot < t.slots.geometry.numRows
  inside : ∀ slot, t.granted slot ≤ t.slots.geometry.maxSeqLen
  funded : requestReserved t.slots.arena ≤ t.slots.arena.freeLen
  backed : ∀ slot, t.due slot ≤ reservedFor t.slots.arena slot

variable {t t' : Granted β}

theorem pages_zero (g : Geometry) : g.pages 0 = 0 := by
  have hpos := g.pageSize_pos
  rw [Geometry.pages, Nat.div_eq_zero_iff]
  omega

theorem begin_guaranteed : Guaranteed (begin g kv) where
  mapped := start_mapped
  live := fun _ h => absurd rfl h
  inside := fun _ => Nat.zero_le _
  funded := Nat.zero_le _
  backed := by simp [Granted.due, Granted.pages, begin, pages_zero, missing]

theorem returned_mono (s : Slots β) (slot : Nat) (pages : List Nat) {m n : Nat} (h : m ≤ n) :
    returned s slot pages m ≤ returned s slot pages n :=
  (take_sublist_take_left h).countP_le

/-- Bundles for all pages, one after the other. -/
theorem Guaranteed.affordable (h : Guaranteed t) (hsecured : Secured t slot touched) :
    ∀ k < (replacedPages t.slots slot touched).length, Affordable t.slots slot touched k := by
  intro k hk
  have hfilled := filled_le t.slots slot (t.pages slot) touched
  have hle : reservedFor t.slots.arena slot ≤ requestReserved t.slots.arena := Ledger.amount_le_total _ _
  have hfunded := h.funded
  have hdue : t.due slot = missing t.slots slot (t.pages slot) := rfl
  rcases hsecured with hspare | ⟨-, hfree⟩
  · refine ⟨?_, fun hspent => ?_⟩ <;> omega
  · rw [unreservedFree] at hfree
    refine ⟨?_, fun hspent => ?_⟩ <;> omega

/-- Writes leave the promises covered. -/
theorem Prepared.funded (hprepared : Prepared s slot touched s') (hcovered : Covered s slot touched)
    (hfunded : requestReserved s.arena ≤ s.arena.freeLen) : requestReserved s'.arena ≤ s'.arena.freeLen := by
  have hfree := hprepared.freeLen
  have htotal : requestReserved s'.arena + min (replacedPages s slot touched).length (reservedFor s.arena slot) =
      requestReserved s.arena := hprepared.spent.total
  cases hn : (replacedPages s slot touched).length with
  | zero =>
    rw [hn] at hfree htotal
    omega
  | succ n =>
    have hlast : Affordable s slot touched n := by
      rcases hcovered with hzero | hall
      · exact absurd (hprepared.first (hn ▸ Nat.succ_pos n)) hzero
      · exact hall n (hn ▸ Nat.lt_succ_self n)
    obtain ⟨-, hbehind⟩ := hlast
    have hmono := returned_mono s slot touched (Nat.le_add_right n 1)
    rw [hn] at hfree htotal
    by_cases hspent : reservedFor s.arena slot ≤ n
    · have hroom := hbehind hspent
      omega
    · omega

/-- Writes under the reservation leave it enough for the due pages. -/
theorem Prepared.due_le {pages : Nat} (hprepared : Prepared s slot touched s')
    (hsecured : (replacedPages s slot touched).length + missing s slot pages ≤
        reservedFor s.arena slot + filled s slot pages touched ∨ missing s slot pages ≤ filled s slot pages touched) :
    missing s' slot pages ≤ reservedFor s'.arena slot := by
  have hmissing : missing s' slot pages + filled s slot pages touched = missing s slot pages :=
    missing_filled (fun page hpage _ => (hprepared.ready page hpage).nonnull) hprepared.kept
  have hself : reservedFor s'.arena slot = reservedFor s.arena slot - (replacedPages s slot touched).length :=
    hprepared.spent.self
  omega

theorem Secured.covered (h : Guaranteed t) (hsecured : Secured t slot touched) : Covered t.slots slot touched :=
  .inr (h.affordable hsecured)

/-- A write under these conditions succeeds. -/
theorem Guaranteed.prepares (h : Guaranteed t) (hslot : slot < t.slots.geometry.numRows)
    (hfits : first + length ≤ t.slots.geometry.maxSeqLen)
    (hsecured : Secured t slot (t.slots.geometry.touched first length)) :
    ∃ s', prepareKvWrites slot first length t.slots = .ok ⟨⟩ s' := by
  cases hrun : prepareKvWrites slot first length t.slots with
  | ok u s' => exact ⟨s', rfl⟩
  | error e s' =>
    have hends := prepareKvWrites_ends h.mapped fun _ _ _ => hsecured.covered h
    obtain ⟨-, hwhy⟩ := hends.error_of hrun
    rcases hwhy with hout | ⟨-, hout | ⟨hmore, hrefused⟩⟩
    · exact absurd hfits (not_le.mpr hout)
    · exact absurd hslot (not_lt.mpr hout)
    · exact absurd (h.affordable hsecured 0 hmore) hrefused

end Invariant

section Steps

variable {t t' : Granted β}

/-- What a step of one slot does to the guarantee of all. -/
theorem Guaranteed.of_grant {granted : Nat → Nat} (h : Guaranteed t) (slot : Nat) (hmapped : Mapped s')
    (hgeometry : s'.geometry = t.slots.geometry) (hfunded : requestReserved s'.arena ≤ s'.arena.freeLen)
    (hother : ∀ o, o ≠ slot → s'.host o = t.slots.host o ∧ reservedFor s'.arena o = reservedFor t.slots.arena o ∧
      granted o = t.granted o)
    (hlive : granted slot ≠ 0 → slot < t.slots.geometry.numRows) (hinside : granted slot ≤ t.slots.geometry.maxSeqLen)
    (hself : missing s' slot (t.slots.geometry.pages (granted slot)) ≤ reservedFor s'.arena slot) :
    Guaranteed ⟨s', granted⟩ where
  mapped := hmapped
  live := by
    intro o ho
    rw [hgeometry]
    by_cases heq : o = slot
    · rw [heq] at ho ⊢
      exact hlive ho
    · exact h.live o ((hother o heq).2.2 ▸ ho)
  inside := by
    intro o
    rw [hgeometry]
    by_cases heq : o = slot
    · rw [heq]
      exact hinside
    · exact (hother o heq).2.2.le.trans (h.inside o)
  funded := hfunded
  backed := by
    intro o
    rw [Granted.due, Granted.pages, hgeometry]
    change missing s' o (t.slots.geometry.pages (granted o)) ≤ reservedFor s'.arena o
    by_cases heq : o = slot
    · rw [heq]
      exact hself
    · obtain ⟨hhost, hamount, hgranted⟩ := hother o heq
      rw [missing_congr hhost, hamount, hgranted]
      exact h.backed o

theorem Guaranteed.of_step (h : Guaranteed t) (slot : Nat) (hmapped : Mapped s')
    (hgeometry : s'.geometry = t.slots.geometry)
    (hfunded : requestReserved s'.arena ≤ s'.arena.freeLen)
    (hother : ∀ o, o ≠ slot → s'.host o = t.slots.host o ∧ reservedFor s'.arena o = reservedFor t.slots.arena o)
    (hself : missing s' slot (t.pages slot) ≤ reservedFor s'.arena slot) : Guaranteed ⟨s', t.granted⟩ :=
  h.of_grant slot hmapped hgeometry hfunded (fun o ho => ⟨(hother o ho).1, (hother o ho).2, rfl⟩) (h.live slot)
    (h.inside slot)
    hself

theorem Guaranteed.prepare (h : Guaranteed t) (hop : Backed t (.prepareKvWrites slot first length)) :
    Guaranteed ⟨endState (prepareKvWrites slot first length t.slots), t.granted⟩ := by
  have hcovered : slot < t.slots.geometry.numRows → first + length ≤ t.slots.geometry.maxSeqLen → 0 < length →
      Covered t.slots slot (t.slots.geometry.touched first length) := by
    intro hslot hfits hlength
    rcases hop hslot hfits hlength with ⟨-, hcovered⟩ | ⟨-, hzero⟩ | hsecured
    · exact hcovered
    · exact .inl hzero
    · exact hsecured.covered h
  apply (prepareKvWrites_ends h.mapped hcovered).endState (I := fun s' => Guaranteed ⟨s', t.granted⟩)
  · rintro _ s' ⟨hmapped, ⟨-, rfl⟩ | ⟨hlength, hslot, hfits, hprepared⟩⟩
    · exact h
    have hgeometry : s'.geometry = t.slots.geometry := by rw [hprepared.frame]
    apply h.of_step slot hmapped hgeometry (hprepared.funded (hcovered hslot hfits hlength) h.funded)
    · exact fun o ho => ⟨hprepared.others o ho, hprepared.spent.other o ho⟩
    · apply hprepared.due_le
      rcases hop hslot hfits hlength with ⟨hnone, -⟩ | ⟨-, hzero⟩ | hsecured
      · right
        simp [Granted.pages, hnone, pages_zero, missing]
      · left
        have hnothing : ¬0 < (replacedPages t.slots slot (t.slots.geometry.touched first length)).length :=
          fun hmore => hzero (hprepared.first hmore)
        have hbacked : missing t.slots slot (t.pages slot) ≤ reservedFor t.slots.arena slot := h.backed slot
        omega
      · exact hsecured.imp id And.left
  · rintro s' ⟨rfl, -⟩
    exact h

theorem Restored.missing_filled {sources restored : List Nat} {fresh : Option Nat} (pages : Nat) (h : Mapped s)
    (hits : Hits s slot kvLen sources) (hrestored : Restored s slot kvLen sources restored fresh s') :
    missing s' slot pages + filled s slot pages (range (s.geometry.pages kvLen)) = missing s slot pages := by
  have hhost : s'.host slot = restored ++ (s.host slot).drop (s.geometry.pages kvLen) := by
    rw [hrestored.host, update_self]
  have hnonnull : ∀ b ∈ restored, b ≠ 0 := by
    intro b hb
    rw [hrestored.restored_eq, mem_append, Option.mem_toList] at hb
    rcases hb with hb | hb
    · have hsource : b ∈ sources := by
        rw [fullSources] at hb
        split_ifs at hb
        · exact (dropLast_sublist sources).subset hb
        · exact hb
      have hlow := (hits.1.2.1 b hsource).1
      rw [h.nullOnly] at hlow
      exact ne_of_gt hlow
    · exact (hrestored.writable b hb).nonnull
  apply SlotPool.missing_filled
  · intro page hpage _
    rw [mem_range, ← hrestored.length] at hpage
    rw [hhost, getD_append _ _ _ _ hpage, getD_eq_getElem _ _ hpage]
    exact hnonnull _ (getElem_mem hpage)
  · intro page hpage
    rw [mem_range, not_lt] at hpage
    rw [hhost, getD_append_right _ _ _ _ (hrestored.length ▸ hpage), hrestored.length]
    simp only [getD_eq_getElem?_getD, getElem?_drop]
    rw [Nat.add_sub_cancel' hpage]

/-- A restore pays for its pages with promises of its slot, or with bundles that nobody is promised. -/
theorem Restored.funded {sources restored : List Nat} {fresh : Option Nat} (hits : Hits s slot kvLen sources)
    (hnodup : sources.Nodup) (hrestored : Restored s slot kvLen sources restored fresh s')
    (hfunded : requestReserved s.arena ≤ s.arena.freeLen) : requestReserved s'.arena ≤ s'.arena.freeLen := by
  obtain ⟨⟨⟨-, -, hlength⟩, -, hreserved⟩, hrevivable, htail⟩ := hits
  rw [distinct_eq_self hnodup] at hrevivable htail
  have hpages : (fullSources s kvLen sources).length + fresh.toList.length = s.geometry.pages kvLen := by
    rw [← hrestored.length, hrestored.restored_eq, length_append]
  have hsome : revivals s.arena (fullSources s kvLen sources) ≤ (fullSources s kvLen sources).length :=
    countP_le_length
  have hall : revivals s.arena (fullSources s kvLen sources) ≤ revivals s.arena sources := by
    rw [fullSources]
    split_ifs
    · exact (dropLast_sublist sources).countP_le
    · exact le_refl _
  have hfree := hrestored.freeLen
  have htotal : requestReserved s'.arena + min (s.geometry.pages kvLen) (reservedFor s.arena slot) =
      requestReserved s.arena := hrestored.spent.total
  by_cases hnone : reservedFor s.arena slot = 0
  · rw [Revivable, unreservedFree] at hrevivable
    by_cases hpartial : kvLen % s.geometry.pageSize = 0
    · have hfull : fullSources s kvLen sources = sources := if_neg (not_not.mpr hpartial)
      rw [hfull] at hpages hfree
      simp only [revivals] at hfree
      omega
    · have hroom := (htail hpartial).2 hnone
      have hone : fresh.toList.length ≤ 1 := Option.length_toList_le
      omega
  · omega

theorem Installable.front {sources : List Nat} (h : Installable s slot kvLen sources) {page : Nat}
    (hpage : page < s.geometry.pages kvLen) : (s.host slot).getD page 0 = 0 := by
  by_cases hlt : page < (s.host slot).length
  · rw [getD_eq_getElem _ _ hlt]
    apply h.empty
    rw [mem_take_iff_getElem]
    exact ⟨page, Nat.lt_min.mpr ⟨hpage, hlt⟩, rfl⟩
  · exact getD_eq_default _ _ (Nat.not_lt.mp hlt)

theorem Guaranteed.restore {sources : List Nat} {r : Nat × List Nat} (h : Guaranteed t) (hmapped : Mapped s')
    (hinstall : Hits t.slots slot kvLen sources → Installable t.slots slot kvLen sources)
    (houtcome : Outcome t.slots slot kvLen sources r s') : Guaranteed ⟨s', t.granted⟩ := by
  rcases houtcome with ⟨-, p, rfl, hunmoved⟩ | ⟨hits, restored, fresh, -, hrestored⟩
  · have hpromises : ∀ o, reservedFor p o = reservedFor t.slots.arena o := by
      intro o
      rw [reservedFor, hunmoved.reservations, reservedFor]
    apply h.of_step slot hmapped rfl
    · rw [requestReserved, hunmoved.reservations, hunmoved.freeLen]
      exact h.funded
    · exact fun o _ => ⟨rfl, hpromises o⟩
    · rw [hpromises]
      exact h.backed slot
  · have hinstallable := hinstall hits
    have hgeometry : s'.geometry = t.slots.geometry := by rw [hrestored.frame]
    apply h.of_step slot hmapped hgeometry (hrestored.funded hits hinstallable.distinct h.funded)
    · intro o ho
      rw [hrestored.host, update_of_ne ho]
      exact ⟨rfl, hrestored.spent.other o ho⟩
    · have hmissing := hrestored.missing_filled (t.pages slot) h.mapped hits
      have hself : reservedFor s'.arena slot = reservedFor t.slots.arena slot - t.slots.geometry.pages kvLen :=
        hrestored.spent.self
      have hbacked : missing t.slots slot (t.pages slot) ≤ reservedFor t.slots.arena slot := h.backed slot
      have hle : missing t.slots slot (t.pages slot) ≤ t.pages slot :=
        countP_le_length.trans (length_range ..).le
      have hfront : min (t.pages slot) (t.slots.geometry.pages kvLen) ≤
          filled t.slots slot (t.pages slot) (range (t.slots.geometry.pages kvLen)) := by
        exact filled_range fun page hpage => hinstallable.front hpage
      have hreserved := hits.1.2.2
      omega

theorem Guaranteed.publish (h : Guaranteed t) {keys : List BlockKey} {blockSize : Nat} (includePartial : Bool) :
    Guaranteed ⟨endState (publishCommittedBlocks slot kvLen keys blockSize includePartial t.slots), t.granted⟩ := by
  have hsame : ∀ s', (Mapped s' ∧ ∃ p, s' = { t.slots with arena := p } ∧ Rehashed t.slots.arena p) →
      Guaranteed ⟨s', t.granted⟩ := by
    rintro s' ⟨hmapped, p, rfl, hrehashed⟩
    have hpromises : ∀ o, reservedFor p o = reservedFor t.slots.arena o := by
      intro o
      rw [reservedFor, hrehashed.reservations, reservedFor]
    apply h.of_step slot hmapped rfl
    · rw [requestReserved, hrehashed.reservations, hrehashed.freeLen]
      exact h.funded
    · exact fun o _ => ⟨rfl, hpromises o⟩
    · rw [hpromises]
      exact h.backed slot
  exact (publishCommittedBlocks_ends h.mapped includePartial).endState (I := fun s' => Guaranteed ⟨s', t.granted⟩)
    (fun _ => hsame) hsame

/-- The promise of a grant covers its pages. -/
theorem Guaranteed.reserve {total : Nat} (h : Guaranteed t) (hmapped : Mapped s')
    (hreserved : Reserved t.slots slot total s') :
    Guaranteed ⟨s', update t.granted slot (max (t.granted slot) total)⟩ := by
  have hgeometry : s'.geometry = t.slots.geometry := by rw [hreserved.frame]
  have hhost : s'.host = t.slots.host := by rw [hreserved.frame]
  have hfree : s'.arena.freeLen = t.slots.arena.freeLen := by rw [hreserved.frame]
  have htotal : requestReserved s'.arena = requestReserved t.slots.arena + t.slots.geometry.pages total :=
    hreserved.promised.total
  have hfits := hreserved.fits
  have hself : reservedFor s'.arena slot = t.slots.geometry.pages total := hreserved.promised.amount
  have hnone : missing t.slots slot (t.pages slot) = 0 := by
    have hbacked := h.backed slot
    rw [hreserved.first] at hbacked
    exact Nat.le_zero.mp hbacked
  apply h.of_grant slot hmapped hgeometry (by omega)
  · intro o ho
    exact ⟨congrFun hhost o, hreserved.promised.other o ho, update_of_ne ho _ _⟩
  · exact fun _ => Nat.lt_succ_of_lt hreserved.live
  · rw [update_self]
    exact Nat.max_le.mpr ⟨h.inside slot, hreserved.inside⟩
  · rw [missing_congr (congrFun hhost slot), hself, update_self]
    rcases le_total total (t.granted slot) with hle | hle
    · rw [Nat.max_eq_left hle]
      exact hnone.le.trans (Nat.zero_le _)
    · rw [Nat.max_eq_right hle]
      exact countP_le_length.trans (length_range ..).le

theorem Guaranteed.reset (h : Guaranteed t) (hmapped : Mapped s') (hemptied : Emptied t.slots slot s') :
    Guaranteed ⟨s', update t.granted slot 0⟩ := by
  have htotal : requestReserved s'.arena + reservedFor t.slots.arena slot = requestReserved t.slots.arena := by
    rw [requestReserved, hemptied.promises]
    exact Ledger.total_erase_add _ _
  have hfree := hemptied.freeLen
  have hfunded := h.funded
  apply h.of_grant slot hmapped hemptied.geometry (by omega)
  · intro o ho
    rw [hemptied.host, reservedFor, hemptied.promises]
    exact ⟨update_of_ne ho _ _, Ledger.amount_erase_of_ne ho, update_of_ne ho _ _⟩
  · simp
  · simp
  · simp [pages_zero, missing]

theorem call_guaranteed {op : Op} (h : Guaranteed t) (hop : Backed t op) (hcall : t.call op = some t') :
    Guaranteed t' := by
  cases op with
  | prepareKvWrites slot first length =>
    cases hcall
    exact h.prepare hop
  | restorePrefixFromArena slot kvLen keys =>
    cases hcall
    apply (restorePrefixFromArena_ends h.mapped hop).endState (I := fun s' => Guaranteed ⟨s', t.granted⟩)
    · exact fun r s' hs' => h.restore hs'.1 hop hs'.2
    · rintro s' ⟨rfl, -⟩
      exact h
  | restorePrefixFromCachedBundles slot kvLen ids =>
    cases hcall
    apply (restorePrefixFromCachedBundles_ends h.mapped hop).endState (I := fun s' => Guaranteed ⟨s', t.granted⟩)
    · exact fun r s' hs' => h.restore hs'.1 hop hs'.2
    · exact fun _ => False.elim
  | publishCommittedBlocks slot kvLen keys blockSize includePartial =>
    cases hcall
    exact h.publish includePartial
  | reserveKvCapacity slot total =>
    have hends := reserveKvCapacity_ends h.mapped slot total
    rw [Granted.call] at hcall
    cases hrun : reserveKvCapacity slot total t.slots with
    | error e s' =>
      rw [hrun] at hcall
      cases hcall
      rw [hends.error_of hrun]
      exact h
    | ok granted s' =>
      obtain ⟨hmapped, hrefused, hgranted⟩ := hends.ok_of hrun
      rw [hrun] at hcall
      cases granted with
      | false =>
        cases hcall
        rw [hrefused rfl]
        exact h
      | true =>
        cases hcall
        exact h.reserve hmapped (hgranted rfl)
  | resetSlot slot =>
    cases hcall
    by_cases hslot : slot < t.slots.geometry.numRows
    · obtain ⟨s', hrun, hmapped, hemptied⟩ := resetSlot_of h.mapped hslot
      rw [hrun]
      exact h.reset hmapped hemptied
    · have hnone : t.granted slot = 0 := by
        by_contra hsome
        exact hslot (h.live slot hsome)
      rw [resetSlot_of_outside hslot, ← hnone, update_eq_self]
      exact h

end Steps

section Runs

variable {t : Granted β}

theorem run_guaranteed {ops : List Op} (hops : Along Granted.call Backed (begin g kv) ops)
    (hrun : run Granted.call (begin g kv) ops = some t) : Guaranteed t :=
  invariant_of_steps (fun _ _ _ => call_guaranteed) begin_guaranteed hops hrun

/-- In every state of such a run a write inside a slot's grant succeeds. -/
theorem run_granted {ops : List Op} (hops : Along Granted.call Backed (begin g kv) ops)
    (hrun : run Granted.call (begin g kv) ops = some t) (hgrant : first + length ≤ t.granted slot)
    (hsecured : Secured t slot (t.slots.geometry.touched first length)) :
    ∃ s', prepareKvWrites slot first length t.slots = .ok ⟨⟩ s' := by
  have h := run_guaranteed hops hrun
  have hfits := hgrant.trans (h.inside slot)
  by_cases hsome : t.granted slot = 0
  · have hout : ¬t.slots.geometry.maxSeqLen < first + length := not_lt.mpr hfits
    have hzero : length = 0 := by omega
    refine ⟨t.slots, ?_⟩
    simp only [prepareKvWrites, bind_of_ok (get_apply _), bind_of_ok (raiseIf_of_not hout _), if_pos hzero, pure_apply]
  · exact h.prepares (h.live slot hsome) hfits hsecured

theorem touched_lt_pages {page n : Nat} (hlength : 0 < length) (hle : first + length ≤ n)
    (hpage : page ∈ g.touched first length) : page < g.pages n := by
  obtain ⟨position, -, hlt, rfl⟩ := (mem_touched hlength).mp hpage
  have hpos := g.pageSize_pos
  rw [Geometry.pages, Nat.div_lt_iff_lt_mul hpos]
  have hmod := Nat.div_add_mod (n + g.pageSize - 1) g.pageSize
  have hless := Nat.mod_lt (n + g.pageSize - 1) hpos
  rw [mul_comm] at hmod
  omega

/-- A prompt of 200 tokens with room for 56 more, published with its last partial block. -/
def prompted : List Op :=
  [.reserveKvCapacity 0 256, .prepareKvWrites 0 0 200,
    .publishCommittedBlocks 0 200 [⟨7, 64⟩, ⟨8, 128⟩, ⟨9, 192⟩, ⟨10, 200⟩] 64 true]

/-- The first token behind the prompt copies its page, and the third bundle is free. -/
theorem run_granted_prompted : ∃ t, run Granted.call (begin threeBundles fun _ _ => ()) prompted = some t ∧
    ∃ s', prepareKvWrites 0 200 1 t.slots = .ok ⟨⟩ s' :=
  have halong : Along Granted.call Backed (begin threeBundles fun _ _ => ()) prompted := by decide
  ⟨_, rfl, run_granted halong rfl (by decide) (by decide)⟩

/-- Another slot was granted the third bundle. -/
theorem run_overdrawn : ∃ t, run Granted.call (begin threeBundles fun _ _ => ())
      (prompted ++ [.reserveKvCapacity 1 128]) = some t ∧ 200 + 1 ≤ t.granted 0 ∧
    prepareKvWrites 0 200 1 t.slots = .error (.arena (.reservedCapacity 1 0)) t.slots :=
  ⟨_, rfl, by decide, rfl⟩

/-- A write inside the grant that copies nothing is always secured. -/
theorem Guaranteed.secured (h : Guaranteed t) (hlength : 0 < length) (hgrant : first + length ≤ t.granted slot)
    (hcopy : ∀ page ∈ t.slots.geometry.touched first length, (t.slots.host slot).getD page 0 ≠ 0 →
      ¬mustCopy t.slots.arena ((t.slots.host slot).getD page 0)) :
    Secured t slot (t.slots.geometry.touched first length) := by
  have hbacked := h.backed slot
  have hsub : replacedPages t.slots slot (t.slots.geometry.touched first length) ⊆
      (range (t.pages slot)).filter fun page =>
        decide (page ∈ t.slots.geometry.touched first length ∧ (t.slots.host slot).getD page 0 = 0) := by
    intro page hpage
    obtain ⟨htouched, hneeds⟩ := mem_filter.mp hpage
    rw [mem_filter, mem_range, decide_eq_true_eq]
    have hnull : (t.slots.host slot).getD page 0 = 0 := by
      by_contra hentry
      exact hcopy page htouched hentry ((of_decide_eq_true hneeds).resolve_left hentry)
    exact ⟨touched_lt_pages hlength hgrant htouched, htouched, hnull⟩
  have hle : (replacedPages t.slots slot (t.slots.geometry.touched first length)).length ≤
      filled t.slots slot (t.pages slot) (t.slots.geometry.touched first length) := by
    rw [filled, countP_eq_length_filter]
    exact (subperm_of_subset ((touched_nodup _ _ _).filter _) hsub).length_le
  left
  omega

end Runs

end SlotPool
