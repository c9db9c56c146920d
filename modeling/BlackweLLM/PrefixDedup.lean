import BlackweLLM.StepRun
import Mathlib.Data.Finset.Card
import Mathlib.Data.List.Pairwise
import Mathlib.Tactic.Ring

/-!
# In-batch prefix dedup

`server/engine.py`: `_select_admission_requests` holds an exact duplicate of a cold
prompt back while the first request publishes its prefix, and
`_release_prefix_dedup_keys` gives the keys back. The rounds are modelled as far as
they move requests between the waiting list and the prefill wave; what the runner
answers is left open.
-/

namespace PrefixDedup

open List

structure Config where
  blockSize : Nat
  dedupEnabled : Bool
  block_pos : 0 < blockSize

/-- `GenerationRequest`, as far as the admission reads it. -/
structure Request (Token : Type) where
  requestId : Nat
  promptIds : List Token
  deriving DecidableEq, Repr

variable {Token Hash : Type} [DecidableEq Token] [DecidableEq Hash]

def publishedKeysKept : Nat := 256

structure State (Token Hash : Type) where
  waiting : List (Request Token)
  pendingPrefill : Bool
  pendingPrefillReqs : List (Request Token)
  /-- The wave that only the locals `admission_reqs` and `admit_now` hold. -/
  admitting : Option (List (Request Token))
  inflight : Finset (List Token)
  published : Finset Hash
  deferrals : Nat

variable (cfg : Config) (hash : List Token → Hash)

/-- Only block-aligned prompts publish an exact full-prompt checkpoint. -/
def Aligned (req : Request Token) : Prop :=
  cfg.blockSize ≤ req.promptIds.length ∧ req.promptIds.length % cfg.blockSize = 0

instance (req : Request Token) : Decidable (Aligned cfg req) := inferInstanceAs (Decidable (_ ∧ _))

section Selection

structure Selection (Token : Type) where
  selected : List (Request Token)
  deferred : List (Request Token)
  selectedKeys : Finset (List Token)
  inflight : Finset (List Token)
  deferrals : Nat

variable (limit : Nat) (published : Finset Hash) (inflightAtStart : Finset (List Token))

def DuplicateInflight (req : Request Token) : Prop := Aligned cfg req ∧ req.promptIds ∈ inflightAtStart

def DuplicateSelected (acc : Selection Token) (req : Request Token) : Prop :=
  Aligned cfg req ∧ req.promptIds ∈ acc.selectedKeys ∧ hash req.promptIds ∉ published

instance (req : Request Token) : Decidable (DuplicateInflight cfg inflightAtStart req) :=
  inferInstanceAs (Decidable (_ ∧ _))

instance (acc : Selection Token) (req : Request Token) : Decidable (DuplicateSelected cfg hash published acc req) :=
  inferInstanceAs (Decidable (_ ∧ _))

def Selects (acc : Selection Token) (req : Request Token) : Prop :=
  acc.selected.length < limit ∧ ¬ DuplicateInflight cfg inflightAtStart req ∧
    ¬ DuplicateSelected cfg hash published acc req

instance (acc : Selection Token) (req : Request Token) :
    Decidable (Selects cfg hash limit published inflightAtStart acc req) :=
  inferInstanceAs (Decidable (_ ∧ _))

def consider (acc : Selection Token) (req : Request Token) : Selection Token :=
  if Selects cfg hash limit published inflightAtStart acc req then
    { acc with
      selected := acc.selected ++ [req]
      selectedKeys := if Aligned cfg req then insert req.promptIds acc.selectedKeys else acc.selectedKeys
      inflight := if Aligned cfg req then insert req.promptIds acc.inflight else acc.inflight }
  else
    let duplicate := DuplicateInflight cfg inflightAtStart req ∨ DuplicateSelected cfg hash published acc req
    { acc with
      deferred := acc.deferred ++ [req]
      deferrals := if duplicate then acc.deferrals + 1 else acc.deferrals }

def selectionLoop (waiting : List (Request Token)) : Selection Token :=
  waiting.foldl (consider cfg hash limit published inflightAtStart) ⟨[], [], ∅, inflightAtStart, 0⟩

def selectAdmissionRequests (limit : Int) (s : State Token Hash) : List (Request Token) × State Token Hash :=
  if limit ≤ 0 ∨ s.waiting = [] then ([], s)
  else if cfg.dedupEnabled = false then
    (s.waiting.take limit.toNat, { s with waiting := s.waiting.drop limit.toNat })
  else
    let out := selectionLoop cfg hash limit.toNat s.published s.inflight s.waiting
    (out.selected, { s with
      waiting := out.deferred
      inflight := out.inflight
      deferrals := s.deferrals + out.deferrals })

end Selection

section Release

-- `set.pop` removes some element.
variable (pop : Finset Hash → Hash)

def publish (published : Finset Hash) (key : List Token) : Finset Hash :=
  let published := insert (hash key) published
  if publishedKeysKept < published.card then published.erase (pop published) else published

def releaseKey (published : Bool) (s : State Token Hash) (req : Request Token) : State Token Hash :=
  if Aligned cfg req then
    { s with
      inflight := s.inflight.erase req.promptIds
      published := if published then publish hash pop s.published req.promptIds else s.published }
  else s

def releasePrefixDedupKeys (requests : List (Request Token)) (published : Bool) (s : State Token Hash) :
    State Token Hash :=
  requests.foldl (releaseKey cfg hash pop published) s

def failPendingRequests (s : State Token Hash) : State Token Hash :=
  { releasePrefixDedupKeys cfg hash pop s.pendingPrefillReqs false s with
    waiting := []
    pendingPrefill := false
    pendingPrefillReqs := []
    admitting := none
    inflight := ∅
    published := ∅ }

end Release

section Rounds

/-- What `prefill_chunked_step` answers. -/
inductive StepOutcome where
  | more
  | done
  | raises (fatal : Bool)
  deriving DecidableEq, Repr

/-- The parts of a round that touch the waiting list, the wave or the keys. -/
inductive Op (Token : Type) where
  | drainRequests (reqs : List (Request Token))
  | cancel (ids : List Nat)
  /-- A warm continuation takes its request; one that fails puts it back in front. -/
  | warmContinue (req : Request Token) (continued : Bool)
  | prefillStep (outcome : StepOutcome)
  | select (limit : Int)
  /-- `reserve_kv_capacity` refuses the request at this index of the wave. -/
  | kvWait (firstWait : Nat)
  /-- A runner call of the admission raises. -/
  | beginRaises (fatal : Bool)
  /-- Nothing is left of the wave. -/
  | beginEmpty
  /-- `prefill_chunked_begin` finished a short wave, or left a long one pending. -/
  | beginDone
  | beginPending
  /-- An exception leaves the round, or the engine stops. -/
  | roundRaises
  deriving Repr

variable (pop : Finset Hash → Hash)

/-- A cancellation inside a pending wave aborts the wave and requeues the rest of it. -/
def cancelPending (ids : List Nat) (s : State Token Hash) : State Token Hash :=
  let pending := s.pendingPrefillReqs
  if pending.any (·.requestId ∈ ids) then
    let released := releasePrefixDedupKeys cfg hash pop pending false s
    { released with
      pendingPrefill := false
      pendingPrefillReqs := []
      waiting := (pending.filter (·.requestId ∉ ids)).foldl (fun waiting req => req :: waiting) s.waiting }
  else s

/-- The wave fails; a fatal error leaves the round. -/
def failWave (wave : List (Request Token)) (fatal : Bool) (s : State Token Hash) : State Token Hash :=
  let released := { releasePrefixDedupKeys cfg hash pop wave false s with
    pendingPrefill := false
    pendingPrefillReqs := []
    admitting := none }
  if fatal then failPendingRequests cfg hash pop released else released

/-- Between the selection and the end of an admission the other parts of a round do not run. -/
def step (s : State Token Hash) : Op Token → Option (State Token Hash)
  | .roundRaises => some (failPendingRequests cfg hash pop s)
  | op =>
    match s.admitting, op with
    | none, .drainRequests reqs => some { s with waiting := s.waiting ++ reqs }
    | none, .cancel ids =>
      some (cancelPending cfg hash pop ids { s with waiting := s.waiting.filter (·.requestId ∉ ids) })
    | none, .warmContinue req continued =>
      if req ∈ s.waiting then
        let rest := s.waiting.erase req
        some { s with waiting := if continued then rest else req :: rest }
      else none
    | none, .prefillStep outcome =>
      if s.pendingPrefill = true then
        match outcome with
        | .more => some s
        | .done =>
          some { releasePrefixDedupKeys cfg hash pop s.pendingPrefillReqs true s with
            pendingPrefill := false
            pendingPrefillReqs := [] }
        | .raises fatal => some (failWave cfg hash pop s.pendingPrefillReqs fatal s)
      else none
    | none, .select limit =>
      if s.pendingPrefill = false ∧ s.waiting ≠ [] then
        let (wave, selected) := selectAdmissionRequests cfg hash limit s
        some { selected with admitting := some wave }
      else none
    | some wave, .kvWait firstWait =>
      if firstWait < wave.length then
        let deferred := wave.drop firstWait
        some { releasePrefixDedupKeys cfg hash pop deferred false s with
          waiting := deferred ++ s.waiting
          admitting := some (wave.take firstWait) }
      else none
    | some wave, .beginRaises fatal => some (failWave cfg hash pop wave fatal s)
    | some wave, .beginEmpty => if wave = [] then some { s with admitting := none } else none
    | some wave, .beginDone =>
      if wave ≠ [] then some { releasePrefixDedupKeys cfg hash pop wave true s with admitting := none } else none
    | some wave, .beginPending =>
      if wave ≠ [] then some { s with admitting := none, pendingPrefill := true, pendingPrefillReqs := wave } else none
    | _, _ => none

def start : State Token Hash := ⟨[], false, [], none, ∅, ∅, 0⟩

end Rounds

section SelectionProofs

variable {cfg hash} {limit : Nat} {published : Finset Hash} {inflightAtStart : Finset (List Token)}

/-- A fact about the part of the list that the loop has seen. -/
theorem selectionLoop_induction {P : List (Request Token) → Selection Token → Prop}
    (hnil : P [] ⟨[], [], ∅, inflightAtStart, 0⟩)
    (hstep : ∀ seen acc req, P seen acc →
      P (seen ++ [req]) (consider cfg hash limit published inflightAtStart acc req)) (waiting : List (Request Token)) :
    P waiting (selectionLoop cfg hash limit published inflightAtStart waiting) := by
  induction waiting using reverseRecOn with
  | nil => exact hnil
  | append_singleton seen req ih =>
    unfold selectionLoop
    rw [foldl_append]
    exact hstep seen _ req ih

/-- Selected and deferred requests split the seen ones, each in arrival order. -/
structure Splits (seen : List (Request Token)) (acc : Selection Token) : Prop where
  selected : acc.selected.Sublist seen
  deferred : acc.deferred.Sublist seen
  perm : (acc.selected ++ acc.deferred).Perm seen

theorem consider_splits (seen : List (Request Token)) (acc : Selection Token) (req : Request Token)
    (h : Splits seen acc) :
    Splits (seen ++ [req]) (consider cfg hash limit published inflightAtStart acc req) := by
  have hseen : seen.Sublist (seen ++ [req]) := sublist_append_left _ _
  unfold consider
  split
  · refine ⟨h.selected.append (Sublist.refl [req]), h.deferred.trans hseen, ?_⟩
    have hmiddle : (acc.selected ++ [req] ++ acc.deferred).Perm (req :: (acc.selected ++ acc.deferred)) := by
      rw [append_assoc]
      exact perm_middle
    exact hmiddle.trans ((h.perm.cons req).trans (perm_append_singleton req seen).symm)
  · refine ⟨h.selected.trans hseen, h.deferred.append (Sublist.refl [req]), ?_⟩
    dsimp only
    rw [← append_assoc]
    exact h.perm.append_right _

theorem selectionLoop_splits (waiting : List (Request Token)) :
    Splits waiting (selectionLoop cfg hash limit published inflightAtStart waiting) :=
  selectionLoop_induction ⟨Sublist.refl _, Sublist.refl _, List.Perm.refl _⟩ consider_splits waiting

theorem selectionLoop_length (waiting : List (Request Token)) :
    (selectionLoop cfg hash limit published inflightAtStart waiting).selected.length ≤ limit := by
  refine selectionLoop_induction (P := fun _ acc => acc.selected.length ≤ limit) (Nat.zero_le _)
    (fun _ acc req h => ?_) waiting
  unfold consider
  split
  · rename_i hselects
    rw [length_append]
    exact hselects.1
  · exact h

/-- No two selected requests have one aligned key that is not published. -/
def ColdDistinct (cfg : Config) (hash : List Token → Hash) (published : Finset Hash) (selected : List (Request Token)) :
    Prop :=
  selected.Pairwise fun req later => Aligned cfg req → req.promptIds = later.promptIds → hash req.promptIds ∈ published

/-- What the loop has recorded of the selected requests. -/
structure Recorded (cfg : Config) (hash : List Token → Hash) (published : Finset Hash)
    (inflightAtStart : Finset (List Token)) (acc : Selection Token) : Prop where
  keys : ∀ key, key ∈ acc.selectedKeys ↔ ∃ req ∈ acc.selected, Aligned cfg req ∧ req.promptIds = key
  inflight : acc.inflight = inflightAtStart ∪ acc.selectedKeys
  cold : ColdDistinct cfg hash published acc.selected

omit [DecidableEq Token] in
theorem Aligned.congr {req other : Request Token} (h : Aligned cfg req) (heq : req.promptIds = other.promptIds) :
    Aligned cfg other := by
  unfold Aligned at h ⊢
  rw [← heq]
  exact h

theorem coldDistinct_append {acc : Selection Token} {req : Request Token}
    (h : Recorded cfg hash published inflightAtStart acc) (hnot : ¬ DuplicateSelected cfg hash published acc req) :
    ColdDistinct cfg hash published (acc.selected ++ [req]) := by
  refine pairwise_append.mpr ⟨h.cold, pairwise_singleton _ _, ?_⟩
  intro first hfirst later hlater haligned heq
  obtain rfl := mem_singleton.mp hlater
  have hkey : later.promptIds ∈ acc.selectedKeys := (h.keys _).mpr ⟨first, hfirst, haligned, heq⟩
  by_contra hcold
  rw [heq] at hcold
  exact hnot ⟨haligned.congr heq, hkey, hcold⟩

theorem consider_recorded (acc : Selection Token) (req : Request Token)
    (h : Recorded cfg hash published inflightAtStart acc) :
    Recorded cfg hash published inflightAtStart (consider cfg hash limit published inflightAtStart acc req) := by
  unfold consider
  split
  · rename_i hselects
    have hcold := coldDistinct_append h hselects.2.2
    by_cases haligned : Aligned cfg req
    · refine ⟨fun key => ?_, ?_, hcold⟩
      · simp only [if_pos haligned, Finset.mem_insert, h.keys, mem_append, mem_singleton]
        grind
      · simp only [if_pos haligned, h.inflight, Finset.union_insert]
    · refine ⟨fun key => ?_, ?_, hcold⟩
      · simp only [if_neg haligned, h.keys, mem_append, mem_singleton]
        grind
      · simp only [if_neg haligned, h.inflight]
  · exact ⟨h.keys, h.inflight, h.cold⟩

theorem selectionLoop_recorded (waiting : List (Request Token)) :
    Recorded cfg hash published inflightAtStart
      (selectionLoop cfg hash limit published inflightAtStart waiting) := by
  refine selectionLoop_induction (P := fun _ acc => Recorded cfg hash published inflightAtStart acc) ⟨?_, ?_, ?_⟩
    (fun _ acc req h => consider_recorded acc req h) waiting
  · intro key
    simp
  · exact (Finset.union_empty _).symm
  · exact List.Pairwise.nil

/-- What a selection does to the waiting list. -/
structure Selected (cfg : Config) (hash : List Token → Hash) (limit : Int) (s : State Token Hash)
    (wave : List (Request Token)) (s' : State Token Hash) : Prop where
  selected : wave.Sublist s.waiting
  deferred : s'.waiting.Sublist s.waiting
  perm : (wave ++ s'.waiting).Perm s.waiting
  length : (wave.length : Int) ≤ max limit 0
  cold : cfg.dedupEnabled = true → ColdDistinct cfg hash s.published wave

theorem selectAdmissionRequests_selected (limit : Int) (s : State Token Hash) :
    Selected cfg hash limit s (selectAdmissionRequests cfg hash limit s).1
      (selectAdmissionRequests cfg hash limit s).2 := by
  unfold selectAdmissionRequests
  by_cases hnone : limit ≤ 0 ∨ s.waiting = []
  · rw [if_pos hnone]
    exact ⟨nil_sublist _, Sublist.refl _, List.Perm.refl _, Int.le_max_right _ _, fun _ => List.Pairwise.nil⟩
  · rw [if_neg hnone]
    have hlimit : (limit.toNat : Int) ≤ max limit 0 := by omega
    cases hdedup : cfg.dedupEnabled with
    | false =>
      have hperm : (s.waiting.take limit.toNat ++ s.waiting.drop limit.toNat).Perm s.waiting := by
        rw [take_append_drop]
      have hlen := length_take_le limit.toNat s.waiting
      exact ⟨take_sublist _ _, drop_sublist _ _, hperm, (Int.ofNat_le.mpr hlen).trans hlimit,
        fun h => by cases hdedup.symm.trans h⟩
    | true =>
      have hsplits : Splits s.waiting (selectionLoop cfg hash limit.toNat s.published s.inflight s.waiting) :=
        selectionLoop_splits s.waiting
      have hlen : (selectionLoop cfg hash limit.toNat s.published s.inflight s.waiting).selected.length ≤ limit.toNat :=
        selectionLoop_length s.waiting
      have hrecorded : Recorded cfg hash s.published s.inflight
          (selectionLoop cfg hash limit.toNat s.published s.inflight s.waiting) := selectionLoop_recorded s.waiting
      exact ⟨hsplits.selected, hsplits.deferred, hsplits.perm, (Int.ofNat_le.mpr hlen).trans hlimit,
        fun _ => hrecorded.cold⟩

/-- A selection records only keys of its own wave. -/
theorem selectAdmissionRequests_inflight (limit : Int) (s : State Token Hash) {key : List Token}
    (h : key ∈ (selectAdmissionRequests cfg hash limit s).2.inflight) :
    key ∈ s.inflight ∨ ∃ req ∈ (selectAdmissionRequests cfg hash limit s).1, Aligned cfg req ∧ req.promptIds = key := by
  unfold selectAdmissionRequests at h ⊢
  by_cases hnone : limit ≤ 0 ∨ s.waiting = []
  · rw [if_pos hnone] at h
    exact .inl h
  · rw [if_neg hnone] at h ⊢
    cases hdedup : cfg.dedupEnabled with
    | false =>
      rw [hdedup] at h
      exact .inl h
    | true =>
      rw [hdedup] at h
      have hrecorded : Recorded cfg hash s.published s.inflight
          (selectionLoop cfg hash limit.toNat s.published s.inflight s.waiting) := selectionLoop_recorded s.waiting
      change key ∈ (selectionLoop cfg hash limit.toNat s.published s.inflight s.waiting).inflight at h
      rw [hrecorded.inflight, Finset.mem_union] at h
      exact h.imp_right (hrecorded.keys key).mp

end SelectionProofs

section ReleaseProofs

variable {cfg hash} {pop : Finset Hash → Hash}

theorem mem_releaseKey {published : Bool} {s : State Token Hash} {req : Request Token} {key : List Token} :
    key ∈ (releaseKey cfg hash pop published s req).inflight ↔
      key ∈ s.inflight ∧ ¬ (Aligned cfg req ∧ req.promptIds = key) := by
  unfold releaseKey
  by_cases haligned : Aligned cfg req
  · rw [if_pos haligned, Finset.mem_erase]
    grind
  · rw [if_neg haligned]
    grind

/-- What is left in flight are the keys that none of the requests holds. -/
theorem mem_releasePrefixDedupKeys {published : Bool} {requests : List (Request Token)} {s : State Token Hash}
    {key : List Token} :
    key ∈ (releasePrefixDedupKeys cfg hash pop requests published s).inflight ↔
      key ∈ s.inflight ∧ ∀ req ∈ requests, ¬ (Aligned cfg req ∧ req.promptIds = key) := by
  unfold releasePrefixDedupKeys
  induction requests generalizing s with
  | nil => simp
  | cons req requests ih =>
    rw [foldl_cons, ih, mem_releaseKey, forall_mem_cons, and_assoc]

theorem releasePrefixDedupKeys_frame (cfg : Config) (hash : List Token → Hash) (pop : Finset Hash → Hash)
    (published : Bool) (requests : List (Request Token)) (s : State Token Hash) :
    (releasePrefixDedupKeys cfg hash pop requests published s).pendingPrefill = s.pendingPrefill ∧
      (releasePrefixDedupKeys cfg hash pop requests published s).pendingPrefillReqs = s.pendingPrefillReqs ∧
      (releasePrefixDedupKeys cfg hash pop requests published s).admitting = s.admitting := by
  unfold releasePrefixDedupKeys
  induction requests generalizing s with
  | nil => exact ⟨rfl, rfl, rfl⟩
  | cons req requests ih =>
    rw [foldl_cons]
    obtain ⟨hpending, hreqs, hadmitting⟩ := ih (releaseKey cfg hash pop published s req)
    rw [hpending, hreqs, hadmitting]
    unfold releaseKey
    split
    · exact ⟨rfl, rfl, rfl⟩
    · exact ⟨rfl, rfl, rfl⟩

end ReleaseProofs

section Invariant

variable {cfg hash} {pop : Finset Hash → Hash}
variable {s : State Token Hash}

/-- The requests that may hold a key: the pending wave, or the wave that is being admitted. -/
def owners (s : State Token Hash) : List (Request Token) := s.admitting.getD s.pendingPrefillReqs

def KeysOwned (cfg : Config) (inflight : Finset (List Token)) (owners : List (Request Token)) : Prop :=
  ∀ key ∈ inflight, ∃ req ∈ owners, Aligned cfg req ∧ req.promptIds = key

structure Sound (cfg : Config) (s : State Token Hash) : Prop where
  owned : KeysOwned cfg s.inflight (owners s)
  /-- `_pending_prefill` and its requests are set and cleared together. -/
  reqs : s.pendingPrefill = false → s.pendingPrefillReqs = []
  admitting : s.admitting.isSome = true → s.pendingPrefill = false

omit [DecidableEq Token] in
theorem keysOwned_empty (owners : List (Request Token)) : KeysOwned cfg ∅ owners := fun _ h =>
  absurd h (Finset.notMem_empty _)

omit [DecidableEq Token] in
theorem KeysOwned.eq_empty {inflight : Finset (List Token)} (h : KeysOwned cfg inflight []) : inflight = ∅ := by
  refine Finset.eq_empty_of_forall_notMem fun key hkey => ?_
  obtain ⟨req, hreq, -⟩ := h key hkey
  cases hreq

section

omit [DecidableEq Token] [DecidableEq Hash]

theorem Sound.owned_of_none (hs : Sound cfg s) (h : s.admitting = none) :
    KeysOwned cfg s.inflight s.pendingPrefillReqs := by
  have howned := hs.owned
  rwa [owners, h] at howned

theorem Sound.owned_of_some (hs : Sound cfg s) {wave : List (Request Token)}
    (h : s.admitting = some wave) : KeysOwned cfg s.inflight wave := by
  have howned := hs.owned
  rwa [owners, h] at howned

/-- No key is in flight when a selection starts. -/
theorem Sound.inflight_empty (hs : Sound cfg s) (hnone : s.admitting = none)
    (hpending : s.pendingPrefill = false) : s.inflight = ∅ := by
  have howned := hs.owned_of_none hnone
  rw [hs.reqs hpending] at howned
  exact howned.eq_empty

end

/-- Releasing a part of the owners leaves the keys to the rest of them. -/
theorem KeysOwned.release {owners kept released : List (Request Token)} {published : Bool}
    (h : KeysOwned cfg s.inflight owners) (hsplit : ∀ req ∈ owners, req ∈ kept ∨ req ∈ released) :
    KeysOwned cfg (releasePrefixDedupKeys cfg hash pop released published s).inflight kept := by
  intro key hkey
  obtain ⟨hin, hnone⟩ := mem_releasePrefixDedupKeys.mp hkey
  obtain ⟨req, hreq, howner⟩ := h key hin
  cases hsplit req hreq with
  | inl hkept => exact ⟨req, hkept, howner⟩
  | inr hreleased => exact absurd howner (hnone req hreleased)

theorem failPendingRequests_sound (s : State Token Hash) : Sound cfg (failPendingRequests cfg hash pop s) :=
  ⟨keysOwned_empty _, fun _ => rfl, fun h => by cases h⟩

theorem failWave_sound (wave : List (Request Token)) (fatal : Bool)
    (h : KeysOwned cfg s.inflight wave) : Sound cfg (failWave cfg hash pop wave fatal s) := by
  unfold failWave
  cases fatal with
  | true => exact failPendingRequests_sound _
  | false => exact ⟨h.release fun _ => .inr, fun _ => rfl, fun h => by cases h⟩

theorem cancelPending_sound (ids : List Nat) (hs : Sound cfg s) (hnone : s.admitting = none) :
    Sound cfg (cancelPending cfg hash pop ids s) := by
  have howned := hs.owned_of_none hnone
  have hframe := releasePrefixDedupKeys_frame cfg hash pop false s.pendingPrefillReqs s
  unfold cancelPending
  dsimp only
  split
  · refine ⟨?_, fun _ => rfl, fun h => ?_⟩
    · unfold owners
      rw [hframe.2.2, hnone]
      exact howned.release fun _ => .inr
    · rw [hframe.2.2, hnone] at h
  · exact hs

theorem select_sound (limit : Int) (hs : Sound cfg s) (hnone : s.admitting = none)
    (hpending : s.pendingPrefill = false) :
    let out := selectAdmissionRequests cfg hash limit s
    Sound cfg { out.2 with admitting := some out.1 } := by
  intro out
  have hempty := hs.inflight_empty hnone hpending
  have hframe : out.2.pendingPrefill = s.pendingPrefill ∧ out.2.pendingPrefillReqs = s.pendingPrefillReqs := by
    unfold out selectAdmissionRequests
    split
    · exact ⟨rfl, rfl⟩
    · split
      · exact ⟨rfl, rfl⟩
      · exact ⟨rfl, rfl⟩
  refine ⟨fun key hkey => ?_, fun _ => hframe.2.trans (hs.reqs hpending), fun _ => hframe.1.trans hpending⟩
  cases selectAdmissionRequests_inflight limit s hkey with
  | inl h =>
    rw [hempty] at h
    exact absurd h (Finset.notMem_empty _)
  | inr h => exact h

/-- Every part of a round keeps the keys with the wave. -/
theorem step_sound (s : State Token Hash) (op : Op Token) (s' : State Token Hash) (hs : Sound cfg s)
    (hstep : step cfg hash pop s op = some s') : Sound cfg s' := by
  cases hadmitting : s.admitting with
  | none =>
    have howned := hs.owned_of_none hadmitting
    cases op with
    | drainRequests reqs =>
      simp only [step, hadmitting] at hstep
      obtain rfl := Option.some.inj hstep
      exact ⟨howned, hs.reqs, fun h => by cases h⟩
    | cancel ids =>
      simp only [step, hadmitting] at hstep
      obtain rfl := Option.some.inj hstep
      exact cancelPending_sound ids ⟨howned, hs.reqs, fun h => by cases h⟩ rfl
    | warmContinue req continued =>
      simp only [step, hadmitting, Option.ite_none_right_eq_some] at hstep
      obtain rfl := Option.some.inj hstep.2
      exact ⟨howned, hs.reqs, fun h => by cases h⟩
    | prefillStep outcome =>
      simp only [step, hadmitting, Option.ite_none_right_eq_some] at hstep
      obtain ⟨-, hstep⟩ := hstep
      cases outcome with
      | more =>
        obtain rfl := Option.some.inj hstep
        exact hs
      | done =>
        obtain rfl := Option.some.inj hstep
        obtain ⟨-, -, hframe⟩ := releasePrefixDedupKeys_frame cfg hash pop true s.pendingPrefillReqs s
        refine ⟨?_, fun _ => rfl, fun _ => rfl⟩
        unfold owners
        rw [hframe, hadmitting]
        exact howned.release fun _ => .inr
      | raises fatal =>
        obtain rfl := Option.some.inj hstep
        exact failWave_sound _ fatal howned
    | select limit =>
      simp only [step, hadmitting, Option.ite_none_right_eq_some] at hstep
      obtain ⟨⟨hpending, -⟩, hstep⟩ := hstep
      obtain rfl := Option.some.inj hstep
      exact select_sound limit hs hadmitting hpending
    | roundRaises =>
      obtain rfl := Option.some.inj hstep
      exact failPendingRequests_sound s
    | _ =>
      simp only [step, hadmitting] at hstep
      cases hstep
  | some wave =>
    have howned := hs.owned_of_some hadmitting
    have hpending : s.pendingPrefill = false := hs.admitting (by rw [hadmitting]; rfl)
    cases op with
    | kvWait firstWait =>
      simp only [step, hadmitting, Option.ite_none_right_eq_some] at hstep
      obtain rfl := Option.some.inj hstep.2
      obtain ⟨hflag, hreqs, -⟩ := releasePrefixDedupKeys_frame cfg hash pop false (wave.drop firstWait) s
      refine ⟨?_, fun _ => hreqs.trans (hs.reqs hpending), fun _ => hflag.trans hpending⟩
      refine howned.release fun req hreq => ?_
      rw [← take_append_drop firstWait wave, mem_append] at hreq
      exact hreq
    | beginRaises fatal =>
      simp only [step, hadmitting] at hstep
      obtain rfl := Option.some.inj hstep
      exact failWave_sound wave fatal howned
    | beginEmpty =>
      simp only [step, hadmitting, Option.ite_none_right_eq_some] at hstep
      obtain ⟨rfl, hstep⟩ := hstep
      obtain rfl := Option.some.inj hstep
      refine ⟨?_, hs.reqs, fun h => by cases h⟩
      rw [howned.eq_empty]
      exact keysOwned_empty _
    | beginDone =>
      simp only [step, hadmitting, Option.ite_none_right_eq_some] at hstep
      obtain rfl := Option.some.inj hstep.2
      obtain ⟨hflag, hreqs, -⟩ := releasePrefixDedupKeys_frame cfg hash pop true wave s
      exact ⟨howned.release fun _ => .inr, fun _ => hreqs.trans (hs.reqs hpending), fun h => by cases h⟩
    | beginPending =>
      simp only [step, hadmitting, Option.ite_none_right_eq_some] at hstep
      obtain rfl := Option.some.inj hstep.2
      exact ⟨howned, fun h => absurd h Bool.true_eq_false.mp, fun h => by cases h⟩
    | roundRaises =>
      obtain rfl := Option.some.inj hstep
      exact failPendingRequests_sound s
    | _ =>
      simp only [step, hadmitting] at hstep
      cases hstep

omit [DecidableEq Token] [DecidableEq Hash] in
theorem start_sound : Sound cfg (start : State Token Hash) := ⟨keysOwned_empty _, fun _ => rfl, fun h => by cases h⟩

end Invariant

section Runs

variable (pop : Finset Hash → Hash)

open StepRun

/-- A selection splits the waiting list in arrival order and never takes two cold requests with
one aligned prompt, and in every run each key in flight belongs to a request of the wave. -/
theorem dedup_sound :
    (∀ (limit : Int) (s : State Token Hash), Selected cfg hash limit s (selectAdmissionRequests cfg hash limit s).1
      (selectAdmissionRequests cfg hash limit s).2) ∧
    ∀ (ops : List (Op Token)) (s : State Token Hash), run (step cfg hash pop) start ops = some s →
      KeysOwned cfg s.inflight (owners s) ∧
      (s.admitting = none → KeysOwned cfg s.inflight s.pendingPrefillReqs) ∧
      -- A selection therefore finds no key in flight.
      (s.admitting = none → s.pendingPrefill = false → s.inflight = ∅) := by
  refine ⟨selectAdmissionRequests_selected, fun ops s hrun => ?_⟩
  have hs : Sound cfg s := invariant step_sound start_sound hrun
  exact ⟨hs.owned, hs.owned_of_none, fun hnone hpending => hs.inflight_empty hnone hpending⟩

def duplicateOps : List (Op Nat) :=
  [.drainRequests [⟨0, [1, 2]⟩, ⟨1, [1, 2]⟩], .select 2, .beginPending, .prefillStep .more]

/-- The second one waits while the first is prefilled. -/
theorem duplicate_waits :
    let cfg : Config := ⟨2, true, by decide⟩
    ∃ s, run (step cfg List.sum fun _ => (0 : Nat)) start duplicateOps = some s ∧
      s.waiting = [⟨1, [1, 2]⟩] ∧ KeysOwned cfg s.inflight (owners s) :=
  ⟨_, rfl, rfl, ((dedup_sound ⟨2, true, by decide⟩ List.sum fun _ => (0 : Nat)).2 duplicateOps _ rfl).1⟩

end Runs

end PrefixDedup
