import BlackweLLM.LagunaSlotHistory

/-!
# Runs of same-slot reuse

What the operations of a server keep of its slots, and from it that every hit
of a run finds the rows of exactly the tokens it skips.
-/

namespace LagunaSlotReuse

open List Function CausalModel LagunaReplay StepRun

variable {Tok Row Hid : Type} {cfg : Config Tok Row Hid} {st : SlotState Tok Row} {s s' : Server Tok Row}

/-- The state between two steps of the engine. -/
structure Sound (cfg : Config Tok Row Hid) (s : Server Tok Row) : Prop where
  nodup : s.freeSlots.Nodup
  free : ∀ slot ∈ s.freeSlots, s.active slot = none
  kept : ∀ slot, s.active slot = none → Kept cfg (s.slots slot)
  live : ∀ slot fed, s.active slot = some fed → Live cfg (s.slots slot)
  pending : ∀ slot, s.pending slot = none
  reused : ReuseSound cfg s

/-- The next round of the slot feeds the token that its history has behind its rows. -/
def Feeds (s : Server Tok Row) (slot : Nat) : Prop :=
  ∀ fed ∈ s.active slot, (s.slots slot).committed[(s.slots slot).kvLen]? = some fed

theorem Kept.reset (h : Kept cfg st) : Kept cfg (resetSlot st) := by
  rw [h.reset_eq]
  exact h

theorem resetWave_slots {wave : List (Nat × List Tok)} (hnodup : (wave.map Prod.fst).Nodup) (slot : Nat) :
    (resetWave wave s).slots slot =
      if slot ∈ wave.map Prod.fst then resetSlot (s.slots slot) else s.slots slot := by
  unfold resetWave
  induction wave generalizing s with
  | nil => rfl
  | cons a wave ih =>
    obtain ⟨hfresh, hrest⟩ := nodup_cons.mp hnodup
    rw [foldl_cons, ih hrest]
    dsimp only
    rw [map_cons]
    by_cases hslot : slot = a.1
    · subst hslot
      rw [if_neg hfresh, if_pos mem_cons_self, update_self]
    · rw [update_of_ne hslot]
      have hiff : slot ∈ a.1 :: wave.map Prod.fst ↔ slot ∈ wave.map Prod.fst :=
        mem_cons.trans (or_iff_right hslot)
      simp only [hiff]

theorem resetWave_frame (wave : List (Nat × List Tok)) :
    (resetWave wave s).freeSlots = s.freeSlots ∧ (resetWave wave s).active = s.active ∧
      (resetWave wave s).pending = s.pending ∧ (resetWave wave s).reused = s.reused := by
  unfold resetWave
  induction wave generalizing s with
  | nil => exact ⟨rfl, rfl, rfl, rfl⟩
  | cons a wave ih => exact ih

variable {firsts : List Tok}

/-- Activation marks the slots of the wave and nothing else. -/
theorem activateAll_spec {wave : List (Nat × List Tok)} (hlen : firsts.length = wave.length) :
    activateAll wave firsts s = { s with active := (activateAll wave firsts s).active } ∧
      ∀ slot, ((activateAll wave firsts s).active slot = none → slot ∉ wave.map Prod.fst) ∧
        (slot ∉ wave.map Prod.fst → (activateAll wave firsts s).active slot = s.active slot) := by
  induction wave generalizing firsts s with
  | nil => exact ⟨rfl, fun slot => ⟨fun _ => not_mem_nil, fun _ => rfl⟩⟩
  | cons a wave ih =>
    cases firsts with
    | nil => cases hlen
    | cons first firsts =>
      obtain ⟨heq, hactive⟩ := ih (s := { s with active := update s.active a.1 (some first) })
        (Nat.succ.inj hlen)
      change activateAll wave firsts { s with active := update s.active a.1 (some first) } = _ ∧ _
      refine ⟨heq, fun slot => ⟨fun hnone hmem => ?_, fun hslot => ?_⟩⟩
      · have hrest := (hactive slot).1 hnone
        rcases mem_cons.mp hmem with hslot | hmem
        · have hmarked := (hactive slot).2 hrest
          dsimp only at hmarked
          rw [hslot, update_self] at hmarked
          rw [hslot] at hnone
          exact nomatch hnone.symm.trans hmarked
        · exact hrest hmem
      · obtain ⟨hne, hrest⟩ := not_or.mp (mt mem_cons.mpr hslot)
        exact ((hactive slot).2 hrest).trans (update_of_ne hne _ _)

section Rounds

variable {slot : Nat} {fed : Tok}

/-- A forward behind the rows of a slot, of which the history records exactly the rows that stay. -/
theorem Live.advance (h : Live cfg st) (hfed : st.committed[st.kvLen]? = some fed) {drafts : List Tok} {accepted : Nat}
    (hle : accepted ≤ drafts.length) (last : Tok) :
    Live cfg { st with
      kv := forwardKv cfg st.kv st.kvLen (fed :: drafts)
      kvLen := st.kvLen + (accepted + 1)
      committed := st.committed ++ (drafts.take accepted ++ [last]) } := by
  have hlen := h.committed
  have hcommitted : st.committed = st.committed.take st.kvLen ++ [fed] :=
    calc st.committed = st.committed.take (st.kvLen + 1) := (take_of_length_le (by omega)).symm
      _ = st.committed.take st.kvLen ++ [fed] := by rw [take_add_one, hfed, Option.toList_some]
  constructor
  · exact Nat.succ_pos _
  · rw [length_append, length_append, length_take, length_singleton]
    change _ = st.kvLen + (accepted + 1) + 1
    omega
  · have hrows : readRows (forwardKv cfg st.kv st.kvLen (fed :: drafts)) (st.kvLen + (accepted + 1)) =
        cfg.rowsOf (st.committed.take st.kvLen ++ (fed :: drafts).take (accepted + 1)) :=
      readRows_forwardKv h.rows (by rw [length_cons]; omega)
    have hkept : (st.committed ++ (drafts.take accepted ++ [last])).take (st.kvLen + (accepted + 1)) =
        st.committed.take st.kvLen ++ (fed :: drafts).take (accepted + 1) := by
      have hsplit : st.committed ++ (drafts.take accepted ++ [last]) =
          (st.committed.take st.kvLen ++ (fed :: drafts.take accepted)) ++ [last] :=
        (congrArg (· ++ (drafts.take accepted ++ [last])) hcommitted).trans
          (by rw [append_assoc, append_assoc]; rfl)
      rw [hsplit, take_left']
      · rfl
      · rw [length_append, length_take, length_cons, length_take]
        omega
    change readRows _ (st.kvLen + (accepted + 1)) = _
    rw [hrows, ← hkept]

theorem Sound.advance (h : Sound cfg s) (hactive : s.active slot = some fed) (hfeeds : Feeds s slot)
    {drafts : List Tok} {accepted : Nat} (hle : accepted ≤ drafts.length) (last next : Tok) :
    Sound cfg (advance cfg s slot (fed :: drafts) (accepted + 1) (drafts.take accepted ++ [last]) next) := by
  have hlive := (h.live slot fed hactive).advance (hfeeds fed hactive) hle last
  constructor
  · exact h.nodup
  · intro other hother
    have hidle := h.free other hother
    have hne : other ≠ slot := by
      rintro rfl
      exact nomatch hidle.symm.trans hactive
    exact (update_of_ne hne _ _).trans hidle
  · intro other hidle
    by_cases hne : other = slot
    · subst hne
      exact nomatch (update_self _ _ _).symm.trans hidle
    · have hslots : (LagunaSlotReuse.advance cfg s slot (fed :: drafts) (accepted + 1) (drafts.take accepted ++ [last])
          next).slots other = s.slots other := update_of_ne hne _ _
      rw [hslots]
      exact h.kept other ((update_of_ne hne _ _).symm.trans hidle)
  · intro other fed' hfed'
    by_cases hne : other = slot
    · subst hne
      have hslots : (LagunaSlotReuse.advance cfg s other (fed :: drafts) (accepted + 1) (drafts.take accepted ++ [last])
          next).slots other = _ := update_self _ _ _
      rw [hslots]
      exact hlive
    · have hslots : (LagunaSlotReuse.advance cfg s slot (fed :: drafts) (accepted + 1) (drafts.take accepted ++ [last])
          next).slots other = s.slots other := update_of_ne hne _ _
      rw [hslots]
      exact h.live other fed' ((update_of_ne hne _ _).symm.trans hfed')
  · exact h.pending
  · exact h.reused

theorem Sound.finish (h : Sound cfg s) (hactive : s.active slot = some fed) :
    Sound cfg { s with
      slots := update s.slots slot (resetSlot (s.slots slot))
      freeSlots := s.freeSlots ++ [slot]
      active := update s.active slot none } := by
  have hbusy : slot ∉ s.freeSlots := fun hmem => nomatch (h.free slot hmem).symm.trans hactive
  constructor
  · exact nodup_append.mpr ⟨h.nodup, nodup_singleton _, fun a ha b hb heq =>
      hbusy (mem_singleton.mp hb ▸ heq ▸ ha)⟩
  · intro other hother
    by_cases hne : other = slot
    · subst hne
      exact update_self _ _ _
    · rcases mem_append.mp hother with hother | hother
      · exact (update_of_ne hne _ _).trans (h.free other hother)
      · exact absurd (mem_singleton.mp hother) hne
  · intro other hidle
    by_cases hne : other = slot
    · subst hne
      dsimp only
      rw [update_self]
      exact (h.live other fed hactive).reset
    · dsimp only at hidle ⊢
      rw [update_of_ne hne] at hidle ⊢
      exact h.kept other hidle
  · intro other fed' hfed'
    by_cases hne : other = slot
    · subst hne
      exact nomatch (update_self _ _ _).symm.trans hfed'
    · dsimp only at hfed' ⊢
      rw [update_of_ne hne] at hfed' ⊢
      exact h.live other fed' hfed'
  · exact h.pending
  · exact h.reused

end Rounds

section Waves

variable [DecidableEq Tok]

/-- The rows that a raising prefill of `a` has written are, as far as the slot's saved history goes,
the rows of that history. -/
def KeepsHistory (cfg : Config Tok Row Hid) (s : Server Tok Row) (a : Nat × List Tok) (written : Nat) : Prop :=
  ∀ history ∈ (s.slots a.1).saved, written = 0 ∨
    min history.2 (prefillStart cfg (takenHit cfg s a.1 a.2) + written) ≤ matchLength history.1 a.2

theorem beginPrefill_kept {a : Nat × List Tok} {written : Nat} (hready : Ready cfg s a)
    (hkeeps : KeepsHistory cfg s a written) : Kept cfg ((beginPrefill cfg s a.1 a.2 written).slots a.1) := by
  have hle := hready.hit_le
  generalize hhit : takenHit cfg s a.1 a.2 = hit at hle
  generalize hstart : prefillStart cfg hit = start
  have hstart_le : start ≤ hit := hstart ▸ Nat.sub_le _ _
  have hrows := hready.rows
  rw [hhit] at hrows
  have hslot : (beginPrefill cfg s a.1 a.2 written).slots a.1 =
      { s.slots a.1 with kv := forwardKv cfg (s.slots a.1).kv start ((a.2.drop start).take written) } := by
    unfold beginPrefill
    dsimp only
    rw [update_self, hhit, hstart]
  rw [hslot]
  refine ⟨hready.kept.kvLen, hready.kept.committed, fun cached len hsaved => ?_⟩
  obtain ⟨hlen, hold⟩ := hready.kept.saved cached len hsaved
  refine ⟨hlen, ?_⟩
  rcases hkeeps (cached, len) hsaved with rfl | hmatch
  · have hsame : forwardKv cfg (s.slots a.1).kv start ((a.2.drop start).take 0) = (s.slots a.1).kv :=
      writeRows_nil _ _
    dsimp only
    rw [hsame]
    exact hold
  rw [hhit, hstart] at hmatch
  -- the forward ends behind `k` tokens of the prompt
  generalize hk : ((a.2.drop start).take written).length = k
  have hk' := hk
  rw [length_take, length_drop] at hk'
  have hagree : ∀ n, n ≤ len → n ≤ start + written → cfg.rowsOf (a.2.take n) = cfg.rowsOf (cached.take n) :=
    fun n hn hn' => by
      have := (take_of_le_matchLength ((Nat.le_min.mpr ⟨hn, hn'⟩).trans hmatch)).2.2
      rw [this]
  rcases le_total len start with hbelow | hbelow
  · dsimp only
    unfold forwardKv
    rw [readRows_writeRows_of_le _ _ hbelow, hold]
  rcases le_total len (start + k) with hwithin | hbeyond
  · have hnew : readRows (forwardKv cfg (s.slots a.1).kv start ((a.2.drop start).take written)) (start + (len - start)) =
        cfg.rowsOf (a.2.take (start + (len - start))) := readRows_prefill hrows hstart_le (by omega) (by omega)
    rw [Nat.add_sub_cancel' hbelow] at hnew
    exact hnew.trans (hagree len (le_refl _) (by omega))
  · have hnew : readRows (forwardKv cfg (s.slots a.1).kv start ((a.2.drop start).take written)) (start + k) =
        cfg.rowsOf (a.2.take (start + k)) := readRows_prefill hrows hstart_le (by omega) (by omega)
    have hself : forwardKv cfg (s.slots a.1).kv start ((a.2.drop start).take written) = (s.slots a.1).kv := by
      apply writeRows_eq_self
      rw [length_map, length_forward, hk]
      exact (hnew.trans (hagree _ hbeyond (by omega))).trans (readRows_take hold hbeyond).symm
    dsimp only
    rw [hself]
    exact hold

omit [DecidableEq Tok] in
theorem prefillAll_append {front back : List (Nat × List Tok)} (h : firsts.length = front.length) :
    prefillAll cfg (front ++ back) firsts s = prefillAll cfg front firsts s := by
  unfold prefillAll
  have hzip : (front ++ back).zip firsts = front.zip firsts := by
    rw [← append_nil firsts, zip_append h.symm, zip_nil_right, append_nil, append_nil]
  rw [hzip]

/-- No hit of the wave lies behind the slots that its raising prefill reaches. -/
def LeavesNoHit (cfg : Config Tok Row Hid) (s : Server Tok Row) (wave : List (Nat × List Tok)) (reached : Nat) : Prop :=
  ∀ a ∈ wave, 0 < (findBestHistory cfg s a.2).2 →
    (findBestHistory cfg s a.2).1 ∈ (wave.take reached).map Prod.fst

/-- The steps under which same-slot reuse is sound. -/
def Admissible (cfg : Config Tok Row Hid) (s : Server Tok Row) : Op Tok → Prop
  | .wave prompts _ => OwnHits cfg s (assignSlots cfg s s.freeSlots prompts).1
  | .waveFailed prompts firsts written =>
    let wave := (assignSlots cfg s s.freeSlots prompts).1
    OwnHits cfg s wave ∧ LeavesNoHit cfg s wave (firsts.length + 1) ∧
      ∀ a ∈ wave[firsts.length]?, KeepsHistory cfg (prefillAll cfg wave firsts (prepareWave cfg wave s)) a written
  | .decode slot _ => Feeds s slot
  | .verify slot _ _ _ => Feeds s slot
  | .finish _ => True

/-- The facts about a wave's slots that both outcomes use. -/
structure Assigned (cfg : Config Tok Row Hid) (s : Server Tok Row) (wave : List (Nat × List Tok)) (rest : List Nat) :
    Prop where
  perm : (wave.map Prod.fst ++ rest).Perm s.freeSlots
  nodup : (wave.map Prod.fst).Nodup
  idle : ∀ slot ∈ wave.map Prod.fst ++ rest, s.active slot = none
  kept : ∀ a ∈ wave, Kept cfg (s.slots a.1)

theorem Sound.assigned (h : Sound cfg s) {prompts : List (List Tok)} (hlen : prompts.length ≤ s.freeSlots.length) :
    Assigned cfg s (assignSlots cfg s s.freeSlots prompts).1 (assignSlots cfg s s.freeSlots prompts).2 := by
  obtain ⟨hperm, -⟩ := assignSlots_perm cfg s s.freeSlots prompts hlen
  have hidle : ∀ slot ∈ (assignSlots cfg s s.freeSlots prompts).1.map Prod.fst ++
      (assignSlots cfg s s.freeSlots prompts).2, s.active slot = none :=
    fun slot hslot => h.free slot (hperm.subset hslot)
  constructor
  · exact hperm
  · exact (nodup_append.mp (hperm.nodup_iff.mpr h.nodup)).1
  · exact hidle
  · exact fun a ha => h.kept a.1 (hidle a.1 (mem_append_left _ (mem_map_of_mem ha)))

theorem Sound.wave (h : Sound cfg s) {wave : List (Nat × List Tok)} {rest : List Nat}
    (hassigned : Assigned cfg s wave rest) (hfirsts : firsts.length = wave.length)
    (hprompts : ∀ a ∈ wave, a.2 ≠ []) (hown : OwnHits cfg s wave) :
    Sound cfg (activateAll wave firsts
      { prefillAll cfg wave firsts (prepareWave cfg wave s) with pending := fun _ => none, freeSlots := rest }) := by
  have hprepared := prepareWave_prepared hassigned.kept hassigned.nodup h.pending hown
  have hreused : ReuseSound cfg (prepareWave cfg wave s) := by
    unfold ReuseSound
    rw [hprepared.reused]
    exact h.reused
  have hfilled := prefillAll_prefilled hfirsts hassigned.nodup hprepared.ready hprompts hreused
  obtain ⟨hframe, hactive⟩ := activateAll_spec (s := { prefillAll cfg wave firsts (prepareWave cfg wave s) with
    pending := fun _ => none, freeSlots := rest }) hfirsts
  generalize hmarked : (activateAll wave firsts { prefillAll cfg wave firsts (prepareWave cfg wave s) with
    pending := fun _ => none, freeSlots := rest }).active = active at hframe hactive
  have hother : ∀ slot, slot ∉ wave.map Prod.fst → active slot = s.active slot ∧
      (prefillAll cfg wave firsts (prepareWave cfg wave s)).slots slot = s.slots slot := by
    intro slot hslot
    constructor
    · rw [(hactive slot).2 hslot]
      dsimp only
      rw [hfilled.active, hprepared.active]
    · rw [hfilled.slots slot hslot, hprepared.slots]
  have hnodup := nodup_append.mp (hassigned.perm.nodup_iff.mpr h.nodup)
  rw [hframe]
  constructor
  · exact hnodup.2.1
  · intro slot hslot
    have hnot : slot ∉ wave.map Prod.fst := fun hmem => hnodup.2.2 slot hmem slot hslot rfl
    exact (hother slot hnot).1.trans (hassigned.idle slot (mem_append_right _ hslot))
  · intro slot hidle
    obtain ⟨hsame, hslots⟩ := hother slot ((hactive slot).1 hidle)
    dsimp only
    rw [hslots]
    exact h.kept slot (hsame.symm.trans hidle)
  · intro slot fed hfed
    dsimp only
    by_cases hslot : slot ∈ wave.map Prod.fst
    · obtain ⟨a, ha, rfl⟩ := mem_map.mp hslot
      exact hfilled.live a ha
    · obtain ⟨hsame, hslots⟩ := hother slot hslot
      rw [hslots]
      exact h.live slot fed (hsame.symm.trans hfed)
  · exact fun _ => rfl
  · exact hfilled.reused

omit [DecidableEq Tok] in
theorem beginPrefill_frame {a : Nat × List Tok} {written slot : Nat} (h : slot ≠ a.1) :
    (beginPrefill cfg s a.1 a.2 written).slots slot = s.slots slot ∧
      (beginPrefill cfg s a.1 a.2 written).pending slot = s.pending slot :=
  ⟨update_of_ne h _ _, update_of_ne h _ _⟩

theorem Sound.waveFailed (h : Sound cfg s) {front back : List (Nat × List Tok)} {failing : Nat × List Tok}
    {rest : List Nat} {written : Nat} (hassigned : Assigned cfg s (front ++ failing :: back) rest)
    (hfirsts : firsts.length = front.length) (hprompts : ∀ a ∈ front, a.2 ≠ [])
    (hown : OwnHits cfg s (front ++ failing :: back))
    (hleaves : LeavesNoHit cfg s (front ++ failing :: back) (firsts.length + 1))
    (hkeeps : KeepsHistory cfg
      (prefillAll cfg (front ++ failing :: back) firsts (prepareWave cfg (front ++ failing :: back) s))
      failing written) :
    Sound cfg (resetWave (front ++ failing :: back)
      { beginPrefill cfg
          (prefillAll cfg (front ++ failing :: back) firsts (prepareWave cfg (front ++ failing :: back) s))
          failing.1 failing.2 written with
        freeSlots := rest ++ (front ++ failing :: back).map Prod.fst }) := by
  generalize hwave : front ++ failing :: back = wave at *
  have hprepared := prepareWave_prepared hassigned.kept hassigned.nodup h.pending hown
  generalize hready : prepareWave cfg wave s = ready at *
  have hreused : ReuseSound cfg ready := by
    unfold ReuseSound
    rw [hprepared.reused]
    exact h.reused
  have hfront : ∀ a ∈ front, a ∈ wave := fun a ha => hwave ▸ mem_append_left _ ha
  have hfailing : failing ∈ wave := hwave ▸ mem_append_right _ mem_cons_self
  have hnodup : (front.map Prod.fst ++ failing.1 :: back.map Prod.fst).Nodup := by
    rw [← map_cons, ← map_append, hwave]
    exact hassigned.nodup
  have hfailing_front : failing.1 ∉ front.map Prod.fst := fun hmem =>
    (nodup_append.mp hnodup).2.2 _ hmem _ mem_cons_self rfl
  have hfilled : Prefilled cfg front ready (prefillAll cfg wave firsts ready) := by
    rw [← hwave, prefillAll_append hfirsts]
    exact prefillAll_prefilled hfirsts (nodup_append.mp hnodup).1 (fun a ha => hprepared.ready a (hfront a ha))
      hprompts hreused
  generalize prefillAll cfg wave firsts ready = filled at *
  have hfailed : Ready cfg filled failing :=
    (hprepared.ready failing hfailing).congr (hfilled.slots _ hfailing_front) (hfilled.pending _ hfailing_front)
  generalize hbegun : beginPrefill cfg filled failing.1 failing.2 written = begun
  have hframe : ∀ slot, slot ≠ failing.1 → begun.slots slot = filled.slots slot ∧
      begun.pending slot = filled.pending slot :=
    fun slot hslot => hbegun ▸ beginPrefill_frame hslot
  have hactive : begun.active = s.active := by
    rw [← hbegun]
    exact hfilled.active.trans hprepared.active
  -- every slot of the wave is reset to one that keeps what it remembers
  have hreset : ∀ a ∈ wave, Kept cfg (resetSlot (begun.slots a.1)) := by
    intro a ha
    by_cases heq : a.1 = failing.1
    · rw [heq, ← hbegun]
      exact (beginPrefill_kept hfailed hkeeps).reset
    rw [(hframe _ heq).1]
    by_cases hmem : a.1 ∈ front.map Prod.fst
    · obtain ⟨b, hb, hba⟩ := mem_map.mp hmem
      rw [← hba]
      exact (hfilled.live b hb).reset
    · rw [hfilled.slots _ hmem, hprepared.slots]
      exact (hassigned.kept a ha).reset
  have hother : ∀ slot, slot ∉ wave.map Prod.fst → begun.slots slot = s.slots slot := by
    intro slot hslot
    have hne : slot ≠ failing.1 := fun heq => hslot (heq ▸ mem_map_of_mem hfailing)
    have hnot : slot ∉ front.map Prod.fst := fun hmem => by
      obtain ⟨b, hb, rfl⟩ := mem_map.mp hmem
      exact hslot (mem_map_of_mem (hfront b hb))
    rw [(hframe slot hne).1, hfilled.slots slot hnot, hprepared.slots]
  have hslots := resetWave_slots (s := { begun with freeSlots := rest ++ wave.map Prod.fst }) hassigned.nodup
  obtain ⟨hfree, hsameActive, hpending, hsameReused⟩ :=
    resetWave_frame (s := { begun with freeSlots := rest ++ wave.map Prod.fst }) wave
  constructor
  · rw [hfree]
    exact (perm_append_comm.trans hassigned.perm).nodup_iff.mpr h.nodup
  · intro slot hslot
    rw [hfree] at hslot
    rw [hsameActive]
    exact (congrFun hactive slot).trans (hassigned.idle slot (perm_append_comm.subset hslot))
  · intro slot hidle
    rw [hslots]
    rw [hsameActive] at hidle
    dsimp only at hidle ⊢
    split_ifs with hslot
    · obtain ⟨a, ha, rfl⟩ := mem_map.mp hslot
      exact hreset a ha
    · rw [hother slot hslot]
      exact h.kept slot ((congrFun hactive slot).symm.trans hidle)
  · intro slot fed hfed
    rw [hsameActive] at hfed
    have hbusy : s.active slot = some fed := (congrFun hactive slot).symm.trans hfed
    have hslot : slot ∉ wave.map Prod.fst := fun hmem =>
      nomatch (hassigned.idle slot (mem_append_left _ hmem)).symm.trans hbusy
    rw [hslots, if_neg hslot]
    dsimp only
    rw [hother slot hslot]
    exact h.live slot fed hbusy
  · intro slot
    rw [hpending]
    change begun.pending slot = none
    by_contra hsome
    have hne : slot ≠ failing.1 := by
      rintro rfl
      rw [← hbegun] at hsome
      exact hsome (update_self _ _ _)
    rw [(hframe slot hne).2] at hsome
    have hnot : slot ∉ front.map Prod.fst := fun hmem => by
      obtain ⟨b, hb, rfl⟩ := mem_map.mp hmem
      exact hsome (hfilled.popped b hb)
    rw [hfilled.pending slot hnot] at hsome
    obtain ⟨a, ha, hpos, rfl⟩ := hprepared.pending slot hsome
    have hreached := hleaves a ha hpos
    rw [← hwave, hfirsts, take_length_add_append, take_succ_cons, take_zero, map_append,
      map_singleton] at hreached
    rcases mem_append.mp hreached with hreached | hreached
    · exact hnot hreached
    · exact hne (mem_singleton.mp hreached)
  · unfold ReuseSound
    rw [hsameReused]
    dsimp only
    rw [← hbegun]
    exact beginPrefill_reused hfailed hfilled.reused

/-- What one step preserves. -/
theorem Sound.next {op : Op Tok} (h : Sound cfg s) (hadmissible : Admissible cfg s op)
    (hnext : next cfg s op = some s') : Sound cfg s' := by
  cases op with
  | wave prompts firsts =>
    obtain ⟨⟨hlen, hfirsts, hprompts⟩, heq⟩ := Option.ite_none_right_eq_some.mp hnext
    obtain rfl := Option.some.inj heq
    have hsnd := (assignSlots_perm cfg s s.freeSlots prompts hlen).2
    refine h.wave (h.assigned hlen) ?_ (fun a ha hnil => hprompts ?_) hadmissible
    · rw [hfirsts, ← hsnd, length_map]
      rw [hsnd]
    · rw [← hnil, ← hsnd]
      exact mem_map_of_mem ha
  | waveFailed prompts firsts written =>
    obtain ⟨⟨hlen, hprompts⟩, heq⟩ := Option.ite_none_right_eq_some.mp hnext
    obtain ⟨hown, hleaves, hkeeps⟩ := hadmissible
    have hsnd := (assignSlots_perm cfg s s.freeSlots prompts hlen).2
    have hassigned := h.assigned hlen
    generalize assignSlots cfg s s.freeSlots prompts = wave at *
    cases hat : wave.1[firsts.length]? with
    | none =>
      rw [hat] at heq
      cases heq
    | some failing =>
      rw [hat] at heq
      obtain rfl := Option.some.inj heq
      obtain ⟨hlt, hget⟩ := List.getElem?_eq_some_iff.mp hat
      have hsplit : wave.1 = wave.1.take firsts.length ++ failing :: wave.1.drop (firsts.length + 1) := by
        rw [← hget, ← drop_eq_getElem_cons hlt, take_append_drop]
      have hfront : firsts.length = (wave.1.take firsts.length).length := by
        rw [length_take]
        omega
      have hkeeps := hkeeps failing hat
      rw [hsplit] at hassigned hown hleaves hkeeps ⊢
      refine h.waveFailed hassigned hfront (fun a ha hnil => hprompts ?_) hown hleaves hkeeps
      rw [← hnil, ← hsnd, ← map_take]
      exact mem_map_of_mem ha
  | decode slot next =>
    cases hactive : s.active slot with
    | none => simp only [LagunaSlotReuse.next, hactive, reduceCtorEq] at hnext
    | some fed =>
      simp only [LagunaSlotReuse.next, hactive] at hnext
      obtain rfl := Option.some.inj hnext
      exact h.advance hactive hadmissible (Nat.zero_le ([] : List Tok).length) fed next
  | verify slot drafts accepted recovery =>
    cases hactive : s.active slot with
    | none => simp only [LagunaSlotReuse.next, hactive, reduceCtorEq] at hnext
    | some anchor =>
      simp only [LagunaSlotReuse.next, hactive] at hnext
      obtain ⟨hle, heq⟩ := Option.ite_none_right_eq_some.mp hnext
      obtain rfl := Option.some.inj heq
      exact h.advance hactive hadmissible hle recovery recovery
  | finish slot =>
    cases hactive : s.active slot with
    | none => simp only [LagunaSlotReuse.next, hactive, reduceCtorEq] at hnext
    | some fed =>
      simp only [LagunaSlotReuse.next, hactive] at hnext
      obtain rfl := Option.some.inj hnext
      exact h.finish hactive

end Waves

theorem sound_start (kv : Nat → Nat → Row) (capacity : Nat) : Sound cfg (start kv capacity : Server Tok Row) where
  nodup := nodup_range
  free _ _ := rfl
  kept _ _ := ⟨rfl, rfl, fun _ _ h => nomatch h⟩
  live _ _ h := nomatch h
  pending _ := rfl
  reused _ h := absurd h not_mem_nil

/-- What every prefill of a run takes over was computed from exactly the tokens it skips. -/
theorem reuse_sound_of_run [DecidableEq Tok] (cfg : Config Tok Row Hid) {kv : Nat → Nat → Row} {capacity : Nat}
    {ops : List (Op Tok)} (halong : Along (next cfg) (Admissible cfg) (start kv capacity) ops)
    (hrun : run (next cfg) (start kv capacity) ops = some s) : ReuseSound cfg s :=
  (invariant_of_steps (fun _ _ _ h hadmissible hnext => Sound.next h hadmissible hnext) (sound_start kv capacity)
    halong hrun : Sound cfg s).reused

section Instances

variable [DecidableEq Tok]

instance (s : Server Tok Row) (slot : Nat) : Decidable (Feeds s slot) :=
  inferInstanceAs (Decidable (∀ fed ∈ s.active slot, _))

instance (s : Server Tok Row) (wave : List (Nat × List Tok)) : Decidable (OwnHits cfg s wave) :=
  inferInstanceAs (Decidable (∀ a ∈ wave, _ → _ → _))

instance (s : Server Tok Row) (wave : List (Nat × List Tok)) (reached : Nat) :
    Decidable (LeavesNoHit cfg s wave reached) :=
  inferInstanceAs (Decidable (∀ a ∈ wave, _ → _))

instance (s : Server Tok Row) (a : Nat × List Tok) (written : Nat) : Decidable (KeepsHistory cfg s a written) :=
  inferInstanceAs (Decidable (∀ history ∈ (s.slots a.1).saved, _ ∨ _))

instance (s : Server Tok Row) : (op : Op Tok) → Decidable (Admissible cfg s op)
  | .wave _ _ => inferInstanceAs (Decidable (OwnHits _ _ _))
  | .waveFailed prompts firsts _ =>
    inferInstanceAs (Decidable (_ ∧ _ ∧
      ∀ a ∈ (assignSlots cfg s s.freeSlots prompts).1[firsts.length]?, KeepsHistory _ _ _ _))
  | .decode _ _ => inferInstanceAs (Decidable (Feeds _ _))
  | .verify _ _ _ _ => inferInstanceAs (Decidable (Feeds _ _))
  | .finish _ => isTrue trivial

instance [DecidableEq Row] (s : Server Tok Row) : Decidable (ReuseSound cfg s) :=
  inferInstanceAs (Decidable (∀ e ∈ s.reused, _))

end Instances

section Runs

/-- Rows that are their tokens, blocks of two. -/
def tokenConfig (numSlots : Nat) : Config Nat Nat Nat := ⟨ofPrefix fun _ => 0, 2, 1, numSlots⟩

/-- A turn that drafts, and the next turn, which goes on from it. -/
theorem reuse_sound_of_turns : ∃ s, run (next (tokenConfig 2)) (start (fun _ _ => 0) 2)
      [.wave [[1, 2, 3]] [4], .verify 0 [5, 6] 1 7, .finish 0, .wave [[1, 2, 3, 4, 5, 7, 8]] [9]] = some s ∧
    ReuseSound (tokenConfig 2) s := by
  have hrun : (run (next (tokenConfig 2)) (start (fun _ _ => 0) 2)
      [.wave [[1, 2, 3]] [4], .verify 0 [5, 6] 1 7, .finish 0, .wave [[1, 2, 3, 4, 5, 7, 8]] [9]]).isSome = true := by
    decide +kernel
  obtain ⟨s, hs⟩ := Option.isSome_iff_exists.mp hrun
  exact ⟨s, hs, reuse_sound_of_run (tokenConfig 2) (by decide +kernel) hs⟩

/-- The history of a request that decodes lags behind its rows; the deeper hit of another prompt is taken;
overwritten rows are taken for the history saved before. -/
theorem reuse_not_sound :
    (∃ s, run (next (tokenConfig 1)) (start (fun _ _ => 0) 1)
        [.wave [[1, 2, 3]] [7], .decode 0 8, .decode 0 9, .decode 0 10, .finish 0,
          .wave [[1, 2, 3, 7, 7, 8, 5]] [6]] = some s ∧ ¬ ReuseSound (tokenConfig 1) s) ∧
      (∃ s, run (next (tokenConfig 2)) (start (fun _ _ => 0) 2)
        [.wave [[1, 2, 3, 4, 5]] [7], .finish 0, .wave [[1, 2, 9, 9, 9], [1, 2, 3, 4, 6]] [7, 7]] = some s ∧
          ¬ ReuseSound (tokenConfig 2) s) ∧
      ∃ s, run (next (tokenConfig 1)) (start (fun _ _ => 0) 1)
        [.wave [[1, 2, 3]] [7], .finish 0, .waveFailed [[9, 9, 9]] [] 3, .wave [[1, 2, 5]] [7]] = some s ∧
          ¬ ReuseSound (tokenConfig 1) s := by
  have hfound : ∀ {n : Nat} {ops : List (Op Nat)},
      (run (next (tokenConfig n)) (start (fun _ _ => 0) n) ops).any (fun s => decide (¬ ReuseSound (tokenConfig n) s)) =
        true → ∃ s, run (next (tokenConfig n)) (start (fun _ _ => 0) n) ops = some s ∧ ¬ ReuseSound (tokenConfig n) s := by
    intro n ops h
    obtain ⟨s, hs, hnot⟩ := (Option.any_eq_true _ _).mp h
    exact ⟨s, hs, of_decide_eq_true hnot⟩
  exact ⟨hfound (by decide +kernel), hfound (by decide +kernel), hfound (by decide +kernel)⟩

end Runs

end LagunaSlotReuse
