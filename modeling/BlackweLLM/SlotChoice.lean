import Mathlib.Data.List.Induction

/-!
# Choice of the slot for a prompt

`runtime/slot_resource_manager.py`: a prompt goes to the free slot whose warm cache
covers most of it. A slot holds two cache families, so its hit is the depth that both
can resume, rounded down to a block; the backend may offer a copy from another slot
where no free slot has anything to resume.
-/

namespace SlotChoice

open List

/-- `PrefixHit`: a recurrent state is never deeper than the KV below it. -/
structure PrefixHit where
  kvHit : Nat
  stateHit : Nat
  state_le_kv : stateHit ≤ kvHit
  deriving DecidableEq, Repr

namespace PrefixHit

/-- The length that prefill may skip. -/
def effective (hit : PrefixHit) : Nat := hit.stateHit

def none : PrefixHit := ⟨0, 0, Nat.le_refl 0⟩

/-- `(a.effective, a.kv_hit) > (b.effective, b.kv_hit)`. -/
def Better (a b : PrefixHit) : Prop :=
  b.effective < a.effective ∨ a.effective = b.effective ∧ b.kvHit < a.kvHit

instance (a b : PrefixHit) : Decidable (Better a b) := inferInstanceAs (Decidable (_ ∨ _))

theorem not_better_self (a : PrefixHit) : ¬ a.Better a := by
  unfold Better
  omega

variable {a b c : PrefixHit}

theorem Better.trans (hab : a.Better b) (hbc : b.Better c) : a.Better c := by
  unfold Better at *
  omega

theorem Better.trans_not (hab : a.Better b) (hcb : ¬ c.Better b) : a.Better c := by
  unfold Better at *
  omega

theorem not_better_trans (hba : ¬ b.Better a) (hcb : ¬ c.Better b) : ¬ c.Better a := by
  unfold Better at *
  omega

theorem not_none_better (a : PrefixHit) : ¬ none.Better a := by
  unfold Better none effective
  dsimp only
  omega

end PrefixHit

/-- What the manager asks of a backend; the optional methods are looked up by name. -/
structure Backend (Token Key : Type) where
  name : String
  reconcilePrefixHit : List Token → PrefixHit
  reconcilePrefixHitWithKey : Option (List Token → Key → PrefixHit)
  findBestSlotForPrompt : List Token → List Nat → Nat × Nat
  findBestSlotForPromptWithKey : Option (List Token → List Nat → Key → Nat × Nat)
  prefixHitForSlot : Option (List Token → Nat → PrefixHit)
  prefixHitForSlotWithKey : Option (List Token → Nat → Key → PrefixHit)
  crossSlotPrefixHit : Option (List Token → PrefixHit)

/-- `SlotResourceManager`; the block size is at least one. -/
structure Manager (Token Key : Type) where
  backend : Backend Token Key
  needsTwoCacheFamilies : Bool
  blockSize : Nat
  block_pos : 0 < blockSize

inductive ChoiceError where
  /-- `NotImplementedError(_MISSING_PER_SLOT)` for this backend. -/
  | missingPerSlot (backend : String)
  /-- "find_best_slot_for_prompt requires at least one free slot" -/
  | noFreeSlot
  deriving DecidableEq, Repr

namespace Manager

variable {Token Key : Type} (m : Manager Token Key)

/-- `_aligned`: the resume point moves down to a block boundary. -/
def aligned (hit : PrefixHit) : PrefixHit :=
  if m.blockSize ≤ 1 then hit
  else
    let state := hit.stateHit / m.blockSize * m.blockSize
    if state = hit.stateHit then hit
    else ⟨hit.kvHit, state, Nat.le_trans (Nat.div_mul_le_self _ _) hit.state_le_kv⟩

/-- The backend's own hit, over all its slots. -/
def ownHit (tokens : List Token) (key : Option Key) : PrefixHit :=
  match key, m.backend.reconcilePrefixHitWithKey with
  | some key, some keyed => keyed tokens key
  | _, _ => m.backend.reconcilePrefixHit tokens

def reconcilePrefixHit (tokens : List Token) (key : Option Key) : PrefixHit :=
  if m.needsTwoCacheFamilies then m.aligned (m.ownHit tokens key) else m.ownHit tokens key

/-- The hit function for one slot: the keyed one where there are both a key and such a method. -/
def perSlot (tokens : List Token) (key : Option Key) : Option (Nat → PrefixHit) :=
  match key, m.backend.prefixHitForSlotWithKey with
  | some key, some keyed => some fun slot => keyed tokens slot key
  | _, _ => m.backend.prefixHitForSlot.map fun hit => hit tokens

/-- The backend's own ranking, in the keyed form where there are both a key and such a method. -/
def ownRanking (key : Option Key) : List Token → List Nat → Nat × Nat :=
  match key, m.backend.findBestSlotForPromptWithKey with
  | some key, some keyed => fun tokens slots => keyed tokens slots key
  | _, _ => m.backend.findBestSlotForPrompt

/-- One turn of the loop over the free slots. -/
def rank (hits : Nat → PrefixHit) (best : PrefixHit × Nat) (slot : Nat) : PrefixHit × Nat :=
  let hit := m.aligned (hits slot)
  if hit.Better best.1 then (hit, slot) else best

def crossSlot (tokens : List Token) : Option PrefixHit :=
  m.backend.crossSlotPrefixHit.map fun hit => m.aligned (hit tokens)

/-- `find_best_slot_for_prompt`: the slot and the length it may resume from. -/
def findBestSlotForPrompt (tokens : List Token) (freeSlots : List Nat) (key : Option Key) :
    Except ChoiceError (Nat × Nat) :=
  if m.needsTwoCacheFamilies = false then .ok (m.ownRanking key tokens freeSlots)
  else
    match m.perSlot tokens key, freeSlots with
    | none, _ => .error (.missingPerSlot m.backend.name)
    | some _, [] => .error .noFreeSlot
    | some hits, first :: rest =>
      let (best, bestSlot) := (first :: rest).foldl (m.rank hits) (PrefixHit.none, first)
      if 0 < best.effective then .ok (bestSlot, best.effective)
      else
        match m.crossSlot tokens with
        | some remote =>
          if 0 < remote.effective then .ok (first, remote.effective) else .ok (bestSlot, best.effective)
        | none => .ok (bestSlot, best.effective)

end Manager

section Aligned

variable {Token Key : Type} (m : Manager Token Key)

theorem aligned_effective (hit : PrefixHit) :
    (m.aligned hit).effective = hit.stateHit / m.blockSize * m.blockSize := by
  unfold Manager.aligned
  dsimp only
  split_ifs with hone hfull
  · have hblock : m.blockSize = 1 := Nat.le_antisymm hone m.block_pos
    rw [hblock, Nat.div_one, Nat.mul_one]
    rfl
  · exact hfull.symm
  · rfl

/-- A resume point on a block boundary that neither family's hit falls short of. -/
structure Resumable (hit : PrefixHit) (length : Nat) : Prop where
  boundary : m.blockSize ∣ length
  state : length ≤ hit.stateHit
  kv : length ≤ hit.kvHit

theorem aligned_resumable (hit : PrefixHit) : Resumable m hit (m.aligned hit).effective := by
  have hstate : (m.aligned hit).effective ≤ hit.stateHit := by
    rw [aligned_effective]
    exact Nat.div_mul_le_self _ _
  refine ⟨?_, hstate, Nat.le_trans hstate hit.state_le_kv⟩
  rw [aligned_effective]
  exact Nat.dvd_mul_left _ _

end Aligned

section Ranking

variable {Token Key : Type} (m : Manager Token Key) (hits : Nat → PrefixHit)

/-- The slot's hit is beaten by none of the list and is the first such. -/
structure Best (slots : List Nat) (slot : Nat) : Prop where
  first : ∃ before after, slots = before ++ slot :: after ∧
    ∀ other ∈ before, (m.aligned (hits slot)).Better (m.aligned (hits other))
  maximal : ∀ other ∈ slots, ¬ (m.aligned (hits other)).Better (m.aligned (hits slot))

/-- What the loop holds after the slots it has seen: their best one, or the first slot of all while
no hit has been above nothing. -/
structure Ranked (default : Nat) (seen : List Nat) (best : PrefixHit × Nat) : Prop where
  held : best = (PrefixHit.none, default) ∨
    best.1 = m.aligned (hits best.2) ∧ best.1.Better PrefixHit.none ∧ Best m hits seen best.2
  maximal : ∀ other ∈ seen, ¬ (m.aligned (hits other)).Better best.1

theorem rank_ranked {default : Nat} {seen : List Nat} {best : PrefixHit × Nat} (h : Ranked m hits default seen best)
    (slot : Nat) : Ranked m hits default (seen ++ [slot]) (m.rank hits best slot) := by
  unfold Manager.rank
  dsimp only
  split_ifs with hbetter
  · have hnot : ∀ other ∈ seen ++ [slot], ¬ (m.aligned (hits other)).Better (m.aligned (hits slot)) := by
      intro other hmem
      cases mem_append.mp hmem with
      | inl hseen => exact fun hother => h.maximal other hseen (hother.trans hbetter)
      | inr hlast => exact mem_singleton.mp hlast ▸ PrefixHit.not_better_self _
    have hnone : (m.aligned (hits slot)).Better PrefixHit.none := hbetter.trans_not (PrefixHit.not_none_better _)
    have hfirst : ∀ other ∈ seen, (m.aligned (hits slot)).Better (m.aligned (hits other)) :=
      fun other hmem => hbetter.trans_not (h.maximal other hmem)
    exact ⟨.inr ⟨rfl, hnone, ⟨seen, [], rfl, hfirst⟩, hnot⟩, hnot⟩
  · have hnot : ∀ other ∈ seen ++ [slot], ¬ (m.aligned (hits other)).Better best.1 := by
      intro other hmem
      cases mem_append.mp hmem with
      | inl hseen => exact h.maximal other hseen
      | inr hlast => exact mem_singleton.mp hlast ▸ hbetter
    refine ⟨?_, hnot⟩
    cases h.held with
    | inl hdefault => exact .inl hdefault
    | inr hheld =>
      obtain ⟨hhit, hnone, ⟨before, after, hseen, hbefore⟩, -⟩ := hheld
      have hsplit : seen ++ [slot] = before ++ best.2 :: (after ++ [slot]) := by
        rw [hseen, append_assoc, cons_append]
      exact .inr ⟨hhit, hnone, ⟨before, after ++ [slot], hsplit, hbefore⟩, hhit ▸ hnot⟩

theorem foldl_ranked (default : Nat) (slots : List Nat) :
    Ranked m hits default slots (slots.foldl (m.rank hits) (PrefixHit.none, default)) := by
  induction slots using reverseRecOn with
  | nil => exact ⟨.inl rfl, fun _ h => absurd h not_mem_nil⟩
  | append_singleton seen slot ih =>
    rw [foldl_append]
    exact rank_ranked m hits ih slot

theorem foldl_best (first : Nat) (rest : List Nat) :
    let out := (first :: rest).foldl (m.rank hits) (PrefixHit.none, first)
    Best m hits (first :: rest) out.2 ∧ out.1.effective = (m.aligned (hits out.2)).effective := by
  intro out
  have hranked : Ranked m hits first (first :: rest) out := foldl_ranked m hits first (first :: rest)
  cases hranked.held with
  | inr hheld => exact ⟨hheld.2.2, congrArg PrefixHit.effective hheld.1⟩
  | inl hdefault =>
    have hslot : out.2 = first := congrArg Prod.snd hdefault
    have hbest : out.1 = PrefixHit.none := congrArg Prod.fst hdefault
    rw [hslot, hbest]
    -- No hit is above nothing, so the first slot is as good as any.
    have hmaximal : ∀ other ∈ first :: rest, ¬ (m.aligned (hits other)).Better PrefixHit.none :=
      fun other hmem => hbest ▸ hranked.maximal other hmem
    have hzero : (m.aligned (hits first)).effective = 0 := by
      by_contra hpos
      exact hmaximal first mem_cons_self (.inl (Nat.pos_of_ne_zero hpos))
    refine ⟨⟨⟨[], rest, rfl, fun _ h => absurd h not_mem_nil⟩, fun other hmem => ?_⟩, hzero.symm⟩
    exact PrefixHit.not_better_trans (PrefixHit.not_none_better _) (hmaximal other hmem)

end Ranking

section Choice

variable {Token Key : Type} (m : Manager Token Key)

/-- No free slot has anything to resume, and this prefix of another slot can be copied. -/
structure CopiesFrom (tokens : List Token) (hits : Nat → PrefixHit) (slots : List Nat) (remote : PrefixHit) : Prop where
  cold : ∀ slot ∈ slots, (m.aligned (hits slot)).effective = 0
  offered : m.backend.crossSlotPrefixHit.map (· tokens) = some remote
  copies : 0 < (m.aligned remote).effective

/-- The slot is the best of the list, and its own resume point is reported. -/
structure Chosen (hits : Nat → PrefixHit) (slots : List Nat) (slot reported : Nat) : Prop where
  best : Best m hits slots slot
  own : reported = (m.aligned (hits slot)).effective
  resumable : Resumable m (hits slot) reported

theorem Best.chosen {hits : Nat → PrefixHit} {slots : List Nat} {slot : Nat} (h : Best m hits slots slot) :
    Chosen m hits slots slot (m.aligned (hits slot)).effective := ⟨h, rfl, aligned_resumable m (hits slot)⟩

/-- The best slot is chosen, with its own resume point; where every slot is cold and a prefix can be copied, the
first slot with that of the copy. -/
theorem findBestSlotForPrompt_best (tokens : List Token) (key : Option Key) :
    (m.needsTwoCacheFamilies = false → ∀ slots,
      m.findBestSlotForPrompt tokens slots key = .ok (m.ownRanking key tokens slots)) ∧
    (m.needsTwoCacheFamilies = true → ∀ hits, m.perSlot tokens key = some hits → ∀ first rest,
      ∃ slot reported, m.findBestSlotForPrompt tokens (first :: rest) key = .ok (slot, reported) ∧
        ((∀ remote, ¬ CopiesFrom m tokens hits (first :: rest) remote) ∧ Chosen m hits (first :: rest) slot reported ∨
          ∃ remote, CopiesFrom m tokens hits (first :: rest) remote ∧ slot = first ∧
            reported = (m.aligned remote).effective ∧ Resumable m remote reported)) := by
  constructor
  · intro hone slots
    exact if_pos hone
  · intro htwo hits hhits first rest
    have hfold := foldl_best m hits first rest
    unfold Manager.findBestSlotForPrompt
    rw [if_neg (by rw [htwo]; decide), hhits]
    dsimp only at hfold ⊢
    generalize (first :: rest).foldl (m.rank hits) (PrefixHit.none, first) = out at hfold ⊢
    obtain ⟨best, bestSlot⟩ := out
    obtain ⟨hbest, heffective⟩ := hfold
    dsimp only at hbest heffective ⊢
    have hchosen : Chosen m hits (first :: rest) bestSlot best.effective := heffective ▸ hbest.chosen
    by_cases hwarm : 0 < best.effective
    · rw [if_pos hwarm]
      have hnot : ∀ remote, ¬ CopiesFrom m tokens hits (first :: rest) remote := by
        intro remote hcopies
        obtain ⟨before, after, hsplit, -⟩ := hbest.first
        have hmem : bestSlot ∈ first :: rest := hsplit ▸ mem_append_right _ mem_cons_self
        have hcold := hcopies.cold bestSlot hmem
        omega
      exact ⟨_, _, rfl, .inl ⟨hnot, hchosen⟩⟩
    · rw [if_neg hwarm]
      have hcold : ∀ slot ∈ first :: rest, (m.aligned (hits slot)).effective = 0 := by
        intro slot hmem
        by_contra hpos
        have habove : (m.aligned (hits bestSlot)).effective < (m.aligned (hits slot)).effective := by omega
        exact hbest.maximal slot hmem (.inl habove)
      cases hremote : m.backend.crossSlotPrefixHit with
      | none =>
        have hnot : ∀ remote, ¬ CopiesFrom m tokens hits (first :: rest) remote := by
          intro remote hcopies
          have hmap := hcopies.offered
          rw [hremote] at hmap
          cases hmap
        refine ⟨bestSlot, best.effective, ?_, .inl ⟨hnot, hchosen⟩⟩
        rw [Manager.crossSlot, hremote]
        rfl
      | some remote =>
        have hcross : m.crossSlot tokens = some (m.aligned (remote tokens)) := by
          rw [Manager.crossSlot, hremote]
          rfl
        have hmap : m.backend.crossSlotPrefixHit.map (· tokens) = some (remote tokens) := by rw [hremote]; rfl
        rw [hcross]
        dsimp only
        by_cases hcopies : 0 < (m.aligned (remote tokens)).effective
        · rw [if_pos hcopies]
          exact ⟨_, _, rfl, .inr ⟨remote tokens, ⟨hcold, hmap, hcopies⟩, rfl, rfl, aligned_resumable m _⟩⟩
        · rw [if_neg hcopies]
          have hnot : ∀ other, ¬ CopiesFrom m tokens hits (first :: rest) other := by
            intro other hother
            obtain rfl := Option.some.inj (hmap.symm.trans hother.offered)
            exact hcopies hother.copies
          exact ⟨_, _, rfl, .inl ⟨hnot, hchosen⟩⟩

theorem four_pos : 0 < 4 := by decide

/-- A backend with the hits of its slots, and with what can be copied from elsewhere. -/
def twoFamilies (hits : Nat → PrefixHit) (remote : Option PrefixHit) : Manager Nat Unit where
  backend :=
    { name := "two"
      reconcilePrefixHit := fun _ => hits 0
      reconcilePrefixHitWithKey := none
      findBestSlotForPrompt := fun _ _ => (0, 0)
      findBestSlotForPromptWithKey := none
      prefixHitForSlot := some fun _ => hits
      prefixHitForSlotWithKey := none
      crossSlotPrefixHit := remote.map fun hit _ => hit }
  needsTwoCacheFamilies := true
  blockSize := 4
  block_pos := four_pos

/-- The slot with less KV can be resumed deeper. -/
def deeperHits (slot : Nat) : PrefixHit := if slot = 1 then ⟨9, 9, by decide⟩ else ⟨12, 7, by decide⟩

theorem findBestSlotForPrompt_best_deeper :
    (twoFamilies deeperHits none).findBestSlotForPrompt [5] [0, 1, 2] none = .ok (1, 8) ∧
      Chosen (twoFamilies deeperHits none) deeperHits [0, 1, 2] 1 8 := by
  have hresult : (twoFamilies deeperHits none).findBestSlotForPrompt [5] [0, 1, 2] none = .ok (1, 8) := by rfl
  obtain ⟨slot, reported, hfind, hout⟩ :=
    (findBestSlotForPrompt_best (twoFamilies deeperHits none) [5] none).2 rfl deeperHits rfl 0 [1, 2]
  obtain ⟨rfl, rfl⟩ := Prod.mk.inj (Except.ok.inj (hresult.symm.trans hfind))
  refine ⟨hresult, ?_⟩
  cases hout with
  | inl hchosen => exact hchosen.2
  | inr hcopied =>
    obtain ⟨remote, hcopies, -⟩ := hcopied
    cases hcopies.offered

/-- No free slot is warm, one of them still holds KV, and a prefix of two blocks can be copied. -/
def coldManager : Manager Nat Unit :=
  twoFamilies (fun slot => if slot = 1 then ⟨8, 3, by decide⟩ else ⟨0, 0, by decide⟩) (some ⟨9, 9, by decide⟩)

/-- A copied prefix goes to the first slot, which has no hit of its own, though another slot holds more KV. -/
theorem findBestSlotForPrompt_copies :
    ¬ ∀ (m : Manager Nat Unit) (tokens : List Nat) (key : Option Unit), m.needsTwoCacheFamilies = true →
      ∀ hits, m.perSlot tokens key = some hits → ∀ first rest,
        ∃ slot reported, m.findBestSlotForPrompt tokens (first :: rest) key = .ok (slot, reported) ∧
          Chosen m hits (first :: rest) slot reported := by
  intro h
  obtain ⟨slot, reported, hfind, hchosen⟩ := h coldManager [] none rfl _ rfl 0 [1]
  have hresult : (0, 8) = (slot, reported) := Except.ok.inj hfind
  obtain ⟨rfl, rfl⟩ := Prod.mk.inj hresult
  exact absurd hchosen.own (by decide)

end Choice

end SlotChoice
