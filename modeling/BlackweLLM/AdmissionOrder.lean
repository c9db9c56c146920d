import BlackweLLM.PrefixDedup

/-!
# Order of admission

`server/engine.py`: a request is taken out of the waiting list for a prefill wave,
put back when the wave is torn down or when the KV pool cannot hold it, and activated
when the wave is done. What has arrived and what was activated is recorded beside the
rounds of `PrefixDedup`.
-/

namespace PrefixDedup

open List

variable {Token Hash : Type} [DecidableEq Token] [DecidableEq Hash]

section Log

structure Log (Token Hash : Type) where
  rounds : State Token Hash
  /-- All requests that were drained, in the order of their arrival. -/
  arrived : List (Request Token)
  /-- All requests handed to `_activate_slot`, in the order of the calls. -/
  activated : List (Request Token)

def arrivals : Op Token → List (Request Token)
  | .drainRequests reqs => reqs
  | .cancel _ | .warmContinue _ _ | .prefillStep _ | .select _ | .kvWait _ | .beginRaises _ | .beginEmpty
  | .beginDone | .beginPending | .roundRaises => []

def activations (s : State Token Hash) : Op Token → List (Request Token)
  | .warmContinue req true => [req]
  | .prefillStep .done => s.pendingPrefillReqs
  | .beginDone => s.admitting.getD []
  | .warmContinue _ false | .prefillStep .more | .prefillStep (.raises _) | .drainRequests _ | .cancel _ | .select _
  | .kvWait _ | .beginRaises _ | .beginEmpty | .beginPending | .roundRaises => []

variable (cfg : Config) (hash : List Token → Hash) (pop : Finset Hash → Hash)

def logStep (l : Log Token Hash) (op : Op Token) : Option (Log Token Hash) :=
  (step cfg hash pop l.rounds op).map fun s' =>
    ⟨s', l.arrived ++ arrivals op, l.activated ++ activations l.rounds op⟩

def Log.start : Log Token Hash := ⟨PrefixDedup.start, [], []⟩

end Log

section Order

def ofPrompt (prompt : List Token) (reqs : List (Request Token)) : List (Request Token) :=
  reqs.filter (·.promptIds = prompt)

omit [DecidableEq Hash] in
/-- Activated requests, then the wave, then the waiting list. -/
def Log.queue (l : Log Token Hash) : List (Request Token) := l.activated ++ (owners l.rounds ++ l.rounds.waiting)

/-- Requests of one prompt are activated, prefilled and waiting in the order in which they arrived. -/
def InOrder (l : Log Token Hash) : Prop :=
  ∀ prompt, (ofPrompt prompt l.queue).Sublist (ofPrompt prompt l.arrived)

/-- A wave is torn down for the cancelled requests only where at most one other request is in it, and a
warm continuation passes no request of its own prompt. -/
def Keeps (s : State Token Hash) : Op Token → Prop
  | .cancel ids =>
    s.pendingPrefillReqs.any (·.requestId ∈ ids) = true →
      (s.pendingPrefillReqs.filter (·.requestId ∉ ids)).length ≤ 1
  | .warmContinue req continued =>
    s.waiting.find? (·.promptIds = req.promptIds) = some req ∧
      (continued = true → ∀ other ∈ s.pendingPrefillReqs, other.promptIds ≠ req.promptIds)
  | .drainRequests _ | .prefillStep _ | .select _ | .kvWait _ | .beginRaises _ | .beginEmpty | .beginDone
  | .beginPending | .roundRaises => True

instance (s : State Token Hash) (op : Op Token) : Decidable (Keeps s op) := by
  cases op <;> unfold Keeps <;> infer_instance

/-- The same for the requests of `p`, whatever their prompts. -/
def KeepsOf (p : Request Token → Bool) (s : State Token Hash) : Op Token → Prop
  | .warmContinue req continued => p req = true →
      s.waiting.find? p = some req ∧ (continued = true → ∀ other ∈ s.pendingPrefillReqs, p other = false)
  | .cancel ids => Keeps s (.cancel ids)
  | _ => True

instance (p : Request Token → Bool) (s : State Token Hash) (op : Op Token) : Decidable (KeepsOf p s op) := by
  cases op <;> unfold KeepsOf <;> infer_instance

/-- A request without a key of its own: only the limit of a wave holds it back. -/
def unkeyed (cfg : Config) (req : Request Token) : Bool := !decide (Aligned cfg req)

omit [DecidableEq Hash] in
theorem Keeps.of_prompt {s : State Token Hash} {op : Op Token} (h : Keeps s op) (prompt : List Token) :
    KeepsOf (fun req => req.promptIds = prompt) s op := by
  cases op with
  | warmContinue req continued =>
    intro hprompt
    obtain rfl := of_decide_eq_true hprompt
    exact ⟨h.1, fun hcontinued other hmem => decide_eq_false (h.2 hcontinued other hmem)⟩
  | cancel ids => exact h
  | _ => trivial

end Order

section ListFacts

/-- The first waiting request of a class moves to the front without passing another of it. -/
theorem filter_toFront {p : Request Token → Bool} {waiting : List (Request Token)} {req : Request Token}
    (hfirst : waiting.find? p = some req) : (req :: waiting.erase req).filter p = waiting.filter p := by
  obtain ⟨hreq, before, after, rfl, hbefore⟩ := find?_eq_some_iff_append.mp hfirst
  have hnone : before.filter p = [] := filter_eq_nil_iff.mpr fun other hmem => by simpa using hbefore other hmem
  have hnot : req ∉ before := fun hmem => filter_eq_nil_iff.mp hnone req hmem hreq
  rw [erase_append_right _ hnot, erase_cons_head, filter_cons_of_pos hreq, filter_append, filter_append, hnone,
    filter_cons_of_pos hreq]
  rfl

theorem reverse_of_length_le_one {α : Type} {xs : List α} (h : xs.length ≤ 1) : xs.reverse = xs := by
  match xs with
  | [] | [_] => rfl
  | _ :: _ :: _ => simp at h

/-- Only a list of at most one entry reads the same in both directions without a repetition. -/
theorem reverse_eq_self_iff {α : Type} {xs : List α} (hnodup : xs.Nodup) : xs.reverse = xs ↔ xs.length ≤ 1 := by
  constructor
  · intro hreverse
    by_contra hlong
    obtain ⟨first, rest, rfl⟩ := exists_cons_of_length_pos (show 0 < xs.length by omega)
    rw [reverse_cons] at hreverse
    cases hrest : rest.reverse with
    | nil =>
      obtain rfl := reverse_eq_nil_iff.mp hrest
      exact hlong (le_refl 1)
    | cons last middle =>
      rw [hrest, cons_append] at hreverse
      have hlast : last ∈ rest := mem_reverse.mp (hrest ▸ mem_cons_self)
      have heq : last = first := (List.cons.inj hreverse).1
      exact (nodup_cons.mp hnodup).1 (heq ▸ hlast)
  · exact reverse_of_length_le_one

/-- Of two entries of a list without repetitions, only one order is a sublist. -/
theorem not_sublist_swap {α : Type} {xs : List α} {a b : α} (hnodup : xs.Nodup) (hab : [a, b].Sublist xs) :
    ¬ [b, a].Sublist xs := by
  induction xs with
  | nil => cases hab
  | cons x xs ih =>
    intro hba
    have ⟨hnot, hrest⟩ := nodup_cons.mp hnodup
    cases hab with
    | cons _ hab =>
      cases hba with
      | cons _ hba => exact ih hrest hab hba
      | cons_cons _ hba => exact hnot (hab.subset (by simp))
    | cons_cons _ hab =>
      cases hba with
      | cons _ hba => exact hnot (hba.subset (by simp))
      | cons_cons _ _ => exact hnot (hab.subset (by simp))

end ListFacts

section SelectionOrder

variable {cfg : Config} {hash : List Token → Hash} {limit : Nat} {published : Finset Hash}
  {inflightAtStart : Finset (List Token)}

omit [DecidableEq Token] [DecidableEq Hash] in
/-- Whether the loop selects a request depends on its prompt only. -/
theorem Selects.congr {acc : Selection Token} {req other : Request Token} (heq : req.promptIds = other.promptIds)
    (h : Selects cfg hash limit published inflightAtStart acc req) :
    Selects cfg hash limit published inflightAtStart acc other := by
  obtain ⟨hlimit, hinflight, hselected⟩ := h
  have haligned : Aligned cfg other → Aligned cfg req := fun h => h.congr heq.symm
  unfold DuplicateInflight at hinflight
  unfold DuplicateSelected at hselected
  rw [heq] at hinflight hselected
  have hin : ¬ DuplicateInflight cfg inflightAtStart other := fun h => hinflight ⟨haligned h.1, h.2⟩
  have hsel : ¬ DuplicateSelected cfg hash published acc other := fun h => hselected ⟨haligned h.1, h.2⟩
  exact ⟨hlimit, hin, hsel⟩

/-- Whether the loop selects a request of `p` depends on the class only. -/
def Uniform (cfg : Config) (hash : List Token → Hash) (p : Request Token → Bool) : Prop :=
  ∀ limit published inflightAtStart acc req other, p req = true → p other = true →
    Selects cfg hash limit published inflightAtStart acc req → Selects cfg hash limit published inflightAtStart acc other

omit [DecidableEq Hash] in
theorem uniform_prompt (prompt : List Token) : Uniform cfg hash fun req => req.promptIds = prompt :=
  fun _ _ _ _ _ _ hreq hother => Selects.congr ((of_decide_eq_true hreq).trans (of_decide_eq_true hother).symm)

omit [DecidableEq Token] [DecidableEq Hash] in
theorem uniform_unkeyed : Uniform cfg hash (unkeyed cfg) := by
  intro limit published inflightAtStart acc req other _ hother hselects
  have hkey : ¬ Aligned cfg other := by simpa [unkeyed] using hother
  exact ⟨hselects.1, fun h => hkey h.1, fun h => hkey h.1⟩

/-- What the loop would select later it would have selected before. -/
theorem Selects.before {acc : Selection Token} {req other : Request Token}
    (h : Selects cfg hash limit published inflightAtStart
      (consider cfg hash limit published inflightAtStart acc other) req) :
    Selects cfg hash limit published inflightAtStart acc req := by
  obtain ⟨hlimit, hinflight, hselected⟩ := h
  unfold consider at hlimit hselected
  split at hlimit
  · rename_i hselects
    rw [if_pos hselects] at hselected
    refine ⟨hselects.1, hinflight, fun hdup => hselected ⟨hdup.1, ?_, hdup.2.2⟩⟩
    dsimp only
    split
    · exact Finset.mem_insert_of_mem hdup.2.1
    · exact hdup.2.1
  · rename_i hselects
    rw [if_neg hselects] at hselected
    exact ⟨hlimit, hinflight, hselected⟩

/-- Selected and deferred requests of a class are the seen ones, and once one of them is deferred the
loop selects no other. -/
structure InTurn (cfg : Config) (hash : List Token → Hash) (limit : Nat) (published : Finset Hash)
    (inflightAtStart : Finset (List Token)) (p : Request Token → Bool) (seen : List (Request Token))
    (acc : Selection Token) : Prop where
  split : (acc.selected ++ acc.deferred).filter p = seen.filter p
  closed : ∀ req ∈ acc.deferred, ¬ Selects cfg hash limit published inflightAtStart acc req

variable {p : Request Token → Bool} (huniform : Uniform cfg hash p)
include huniform

theorem consider_inTurn (seen : List (Request Token)) (acc : Selection Token) (req : Request Token)
    (h : InTurn cfg hash limit published inflightAtStart p seen acc) :
    InTurn cfg hash limit published inflightAtStart p (seen ++ [req])
      (consider cfg hash limit published inflightAtStart acc req) := by
  have hclosed : ∀ other ∈ acc.deferred,
      ¬ Selects cfg hash limit published inflightAtStart
        (consider cfg hash limit published inflightAtStart acc req) other :=
    fun other hmem hselects => h.closed other hmem hselects.before
  by_cases hselects : Selects cfg hash limit published inflightAtStart acc req
  · have hselected : (consider cfg hash limit published inflightAtStart acc req).selected = acc.selected ++ [req] := by
      rw [consider, if_pos hselects]
    have hdeferred : (consider cfg hash limit published inflightAtStart acc req).deferred = acc.deferred := by
      rw [consider, if_pos hselects]
    refine ⟨?_, hdeferred ▸ hclosed⟩
    rw [hselected, hdeferred, filter_append, filter_append, filter_append, ← h.split, filter_append]
    by_cases hreq : p req = true
    · -- A deferred request of this class would have kept the loop from selecting this one.
      have hnone : acc.deferred.filter p = [] := filter_eq_nil_iff.mpr fun other hmem hother =>
        h.closed other hmem (huniform _ _ _ _ _ _ hreq hother hselects)
      rw [hnone, append_nil, append_nil]
    · rw [filter_cons_of_neg hreq, filter_nil, append_nil, append_nil]
  · have hselected : (consider cfg hash limit published inflightAtStart acc req).selected = acc.selected := by
      rw [consider, if_neg hselects]
    have hdeferred : (consider cfg hash limit published inflightAtStart acc req).deferred = acc.deferred ++ [req] := by
      rw [consider, if_neg hselects]
    refine ⟨?_, fun other hmem => ?_⟩
    · rw [hselected, hdeferred, ← append_assoc, filter_append, h.split, filter_append]
    · rw [hdeferred, mem_append, mem_singleton] at hmem
      cases hmem with
      | inl hold => exact hclosed other hold
      | inr hnew => exact hnew.symm ▸ fun hlater => hselects hlater.before

theorem selectionLoop_inTurn (waiting : List (Request Token)) :
    InTurn cfg hash limit published inflightAtStart p waiting
      (selectionLoop cfg hash limit published inflightAtStart waiting) :=
  selectionLoop_induction ⟨rfl, fun _ h => absurd h not_mem_nil⟩ (consider_inTurn huniform) waiting

variable (cfg hash) in
/-- A selection keeps the requests of a class in order. -/
theorem selectAdmissionRequests_inOrder (limit : Int) (s : State Token Hash) :
    ((selectAdmissionRequests cfg hash limit s).1 ++ (selectAdmissionRequests cfg hash limit s).2.waiting).filter p =
      s.waiting.filter p := by
  unfold selectAdmissionRequests
  by_cases hnone : limit ≤ 0 ∨ s.waiting = []
  · rw [if_pos hnone, nil_append]
  · rw [if_neg hnone]
    cases cfg.dedupEnabled with
    | false =>
      change (s.waiting.take limit.toNat ++ s.waiting.drop limit.toNat).filter p = _
      rw [take_append_drop]
    | true =>
      have hturn : InTurn cfg hash limit.toNat s.published s.inflight p s.waiting
          (selectionLoop cfg hash limit.toNat s.published s.inflight s.waiting) := selectionLoop_inTurn huniform s.waiting
      exact hturn.split

end SelectionOrder

section Steps

variable {cfg : Config} {hash : List Token → Hash} {pop : Finset Hash → Hash}
variable {s : State Token Hash}

theorem releasePrefixDedupKeys_waiting (published : Bool) (requests : List (Request Token)) (s : State Token Hash) :
    (releasePrefixDedupKeys cfg hash pop requests published s).waiting = s.waiting := by
  unfold releasePrefixDedupKeys
  induction requests generalizing s with
  | nil => rfl
  | cons req requests ih =>
    rw [foldl_cons, ih]
    unfold releaseKey
    split <;> rfl

section

variable {ids : List Nat} (h : s.pendingPrefillReqs.any (·.requestId ∈ ids) = true)
include h

/-- A wave that is torn down goes back in front in the reverse of its order. -/
theorem cancelPending_waiting : (cancelPending cfg hash pop ids s).waiting =
      (s.pendingPrefillReqs.filter (·.requestId ∉ ids)).reverse ++ s.waiting := by
  unfold cancelPending
  rw [if_pos h]
  exact foldl_flip_cons_eq_append'

theorem cancelPending_pendingPrefillReqs : (cancelPending cfg hash pop ids s).pendingPrefillReqs = [] := by
  unfold cancelPending
  rw [if_pos h]

end

theorem cancelPending_admitting (ids : List Nat) (s : State Token Hash) :
    (cancelPending cfg hash pop ids s).admitting = s.admitting := by
  unfold cancelPending
  dsimp only
  split
  · exact (releasePrefixDedupKeys_frame cfg hash pop false s.pendingPrefillReqs s).2.2
  · rfl

variable (cfg hash pop) in
/-- A cancellation that meets the condition loses requests, but moves none. -/
theorem cancel_sublist {ids : List Nat} (hnone : s.admitting = none)
    (hkeeps : Keeps s (.cancel ids)) :
    let s' := cancelPending cfg hash pop ids { s with waiting := s.waiting.filter (·.requestId ∉ ids) }
    (owners s' ++ s'.waiting).Sublist (owners s ++ s.waiting) := by
  intro s'
  let left : State Token Hash := { s with waiting := s.waiting.filter (·.requestId ∉ ids) }
  have howners : owners s = s.pendingPrefillReqs := by rw [owners, hnone]; rfl
  have howners' : owners s' = s'.pendingPrefillReqs := by
    rw [owners, cancelPending_admitting]
    change s.admitting.getD _ = _
    rw [hnone]
    rfl
  rw [howners, howners']
  by_cases htorn : left.pendingPrefillReqs.any (·.requestId ∈ ids) = true
  · have hwaiting : s'.waiting = (s.pendingPrefillReqs.filter (·.requestId ∉ ids)).reverse ++ left.waiting :=
      cancelPending_waiting htorn
    rw [cancelPending_pendingPrefillReqs htorn, hwaiting, reverse_of_length_le_one (hkeeps htorn), nil_append]
    exact Sublist.append filter_sublist filter_sublist
  · have hsame : s' = left := if_neg htorn
    rw [hsame]
    exact Sublist.append_left filter_sublist _

/-- A wave that fails leaves the queue; nothing else of it moves. -/
theorem failWave_sublist (wave : List (Request Token)) (fatal : Bool) (s : State Token Hash) :
    (owners (failWave cfg hash pop wave fatal s) ++ (failWave cfg hash pop wave fatal s).waiting).Sublist
      s.waiting := by
  unfold failWave
  cases fatal with
  | true => exact nil_sublist _
  | false =>
    change (releasePrefixDedupKeys cfg hash pop wave false s).waiting.Sublist s.waiting
    rw [releasePrefixDedupKeys_waiting]

/-- The owners of the keys after a release, where no admission is under way. -/
theorem owners_release (hnone : s.admitting = none) (published : Bool)
    (requests reqs : List (Request Token)) (pending : Bool) :
    owners { releasePrefixDedupKeys cfg hash pop requests published s with
      pendingPrefill := pending, pendingPrefillReqs := reqs } = reqs := by
  have hframe := (releasePrefixDedupKeys_frame cfg hash pop published requests s).2.2
  unfold owners
  rw [hframe, hnone]
  rfl

/-- A step that meets the condition activates and queues the requests of a class in the order of the queue
before it, with what arrives behind. -/
theorem step_inOrder {p : Request Token → Bool} {s' : State Token Hash} {op : Op Token} (huniform : Uniform cfg hash p)
    (hs : Sound cfg s) (hkeeps : KeepsOf p s op) (hstep : step cfg hash pop s op = some s') :
    ((activations s op ++ (owners s' ++ s'.waiting)).filter p).Sublist
      ((owners s ++ (s.waiting ++ arrivals op)).filter p) := by
  obtain ⟨waiting, pending, reqs, admitting, inflight, published, deferrals⟩ := s
  cases admitting with
  | none =>
    cases op with
    | drainRequests arrived =>
      obtain rfl := Option.some.inj hstep
      exact Sublist.refl _
    | cancel ids =>
      obtain rfl := Option.some.inj hstep
      have hsub := cancel_sublist cfg hash pop rfl hkeeps
      dsimp only [activations, arrivals]
      rw [append_nil]
      exact hsub.filter p
    | warmContinue req continued =>
      simp only [step, Option.ite_none_right_eq_some] at hstep
      obtain rfl := Option.some.inj hstep.2
      dsimp only [arrivals]
      rw [append_nil]
      by_cases hreq : p req = true
      · have hfront := filter_toFront (hkeeps hreq).1
        dsimp only at hfront
        cases continued with
        | true =>
          have hnone : reqs.filter p = [] := filter_eq_nil_iff.mpr fun other hmem => by simp [(hkeeps hreq).2 rfl other hmem]
          change (([req] ++ (reqs ++ waiting.erase req)).filter p).Sublist ((reqs ++ waiting).filter p)
          rw [filter_append, filter_append, filter_append, hnone, nil_append, nil_append, ← hfront, ← filter_append]
          exact Sublist.refl _
        | false =>
          change ((reqs ++ (req :: waiting.erase req)).filter p).Sublist ((reqs ++ waiting).filter p)
          rw [filter_append, hfront, filter_append]
      · have hrest : ((waiting.erase req).filter p).Sublist (waiting.filter p) := erase_sublist.filter p
        cases continued with
        | true =>
          change ((req :: (reqs ++ waiting.erase req)).filter p).Sublist ((reqs ++ waiting).filter p)
          rw [filter_cons_of_neg hreq, filter_append, filter_append]
          exact hrest.append_left _
        | false =>
          change ((reqs ++ (req :: waiting.erase req)).filter p).Sublist ((reqs ++ waiting).filter p)
          rw [filter_append, filter_cons_of_neg hreq, filter_append]
          exact hrest.append_left _
    | prefillStep outcome =>
      simp only [step, Option.ite_none_right_eq_some] at hstep
      obtain ⟨-, hstep⟩ := hstep
      dsimp only [arrivals]
      rw [append_nil]
      cases outcome with
      | more =>
        obtain rfl := Option.some.inj hstep
        exact Sublist.refl _
      | done =>
        obtain rfl := Option.some.inj hstep
        rw [owners_release rfl]
        dsimp only [activations]
        rw [releasePrefixDedupKeys_waiting]
        exact Sublist.refl _
      | raises fatal =>
        obtain rfl := Option.some.inj hstep
        exact ((failWave_sublist reqs fatal _).trans (sublist_append_right _ _)).filter p
    | select limit =>
      simp only [step, Option.ite_none_right_eq_some] at hstep
      obtain ⟨⟨hpending, -⟩, hstep⟩ := hstep
      obtain rfl := Option.some.inj hstep
      obtain rfl : reqs = [] := hs.reqs hpending
      dsimp only [arrivals, activations]
      rw [append_nil]
      have horder := selectAdmissionRequests_inOrder cfg hash huniform limit
        ⟨waiting, pending, [], none, inflight, published, deferrals⟩
      exact Sublist.trans (Sublist.refl _) (horder ▸ Sublist.refl _)
    | roundRaises =>
      obtain rfl := Option.some.inj hstep
      exact nil_sublist _
    | _ => cases hstep
  | some wave =>
    have hnil : reqs = [] := hs.reqs (hs.admitting rfl)
    cases op with
    | kvWait firstWait =>
      simp only [step, Option.ite_none_right_eq_some] at hstep
      obtain rfl := Option.some.inj hstep.2
      change ((wave.take firstWait ++ (wave.drop firstWait ++ waiting)).filter p).Sublist
        ((wave ++ (waiting ++ [])).filter p)
      rw [append_nil, ← append_assoc, take_append_drop]
    | beginRaises fatal =>
      obtain rfl := Option.some.inj hstep
      dsimp only [arrivals]
      rw [append_nil]
      exact ((failWave_sublist wave fatal _).trans (sublist_append_right _ _)).filter p
    | beginEmpty =>
      simp only [step, Option.ite_none_right_eq_some] at hstep
      obtain ⟨rfl, hstep⟩ := hstep
      obtain rfl := Option.some.inj hstep
      subst hnil
      exact (sublist_append_left _ _).filter p
    | beginDone =>
      simp only [step, Option.ite_none_right_eq_some] at hstep
      obtain rfl := Option.some.inj hstep.2
      subst hnil
      have howners : owners { releasePrefixDedupKeys cfg hash pop wave true
          (⟨waiting, pending, [], some wave, inflight, published, deferrals⟩ : State Token Hash) with admitting := none } = [] :=
        (releasePrefixDedupKeys_frame cfg hash pop true wave _).2.1
      dsimp only [activations, arrivals]
      rw [howners, releasePrefixDedupKeys_waiting]
      exact (Sublist.append_left (sublist_append_left _ _) _).filter p
    | beginPending =>
      simp only [step, Option.ite_none_right_eq_some] at hstep
      obtain rfl := Option.some.inj hstep.2
      change ((wave ++ waiting).filter p).Sublist ((wave ++ (waiting ++ [])).filter p)
      rw [append_nil]
    | roundRaises =>
      obtain rfl := Option.some.inj hstep
      exact nil_sublist _
    | _ => cases hstep

variable (cfg hash pop) in
theorem logStep_inOrder {p : Request Token → Bool} (huniform : Uniform cfg hash p) (l : Log Token Hash) (op : Op Token)
    (l' : Log Token Hash) (h : Sound cfg l.rounds ∧ (l.queue.filter p).Sublist (l.arrived.filter p))
    (hkeeps : KeepsOf p l.rounds op) (hstep : logStep cfg hash pop l op = some l') :
    Sound cfg l'.rounds ∧ (l'.queue.filter p).Sublist (l'.arrived.filter p) := by
  obtain ⟨hs, hl⟩ := h
  obtain ⟨s', hs', rfl⟩ := Option.map_eq_some_iff.mp hstep
  refine ⟨step_sound l.rounds op s' hs hs', ?_⟩
  have hmoved := step_inOrder huniform hs hkeeps hs'
  have hqueue := hl.append (Sublist.refl ((arrivals op).filter p))
  unfold Log.queue at hqueue ⊢
  simp only [filter_append, append_assoc] at hmoved hqueue ⊢
  exact (Sublist.append_left hmoved _).trans hqueue

end Steps

section Runs

open StepRun

variable (cfg : Config) (hash : List Token → Hash) (pop : Finset Hash → Hash)

/-- The rest of a torn wave is put back in front of the waiting list in its order. -/
def PutBack (ids : List Nat) (s : State Token Hash) : Prop :=
  (cancelPending cfg hash pop ids s).waiting = s.pendingPrefillReqs.filter (·.requestId ∉ ids) ++ s.waiting

variable {cfg hash pop} in
theorem run_inOrder {p : Request Token → Bool} (huniform : Uniform cfg hash p) {ops : List (Op Token)}
    {l : Log Token Hash}
    (hrun : run (logStep cfg hash pop) .start ops = some l)
    (hkeeps : Along (logStep cfg hash pop) (fun l op => KeepsOf p l.rounds op) .start ops) :
    (l.queue.filter p).Sublist (l.arrived.filter p) :=
  (invariant_of_steps (logStep_inOrder cfg hash pop huniform) ⟨start_sound, Sublist.refl _⟩ hkeeps hrun).2

omit [DecidableEq Token] in
/-- Then no request is activated, or ahead in the queue, before an earlier one of its class. -/
theorem not_overtaken {p : Request Token → Bool} {queue arrived : List (Request Token)}
    (h : (queue.filter p).Sublist (arrived.filter p)) (hnodup : arrived.Nodup) {earlier later : Request Token}
    (harrived : [earlier, later].Sublist arrived) (hearlier : p earlier = true) (hlater : p later = true) :
    ¬ [later, earlier].Sublist queue := by
  intro hqueue
  have hpair : [later, earlier].filter p = [later, earlier] := by simp [hearlier, hlater]
  have hsub : [later, earlier].Sublist arrived := by
    rw [← hpair]
    exact ((hqueue.filter p).trans h).trans filter_sublist
  exact not_sublist_swap hnodup harrived hsub

/-- The rest of a torn wave keeps its order exactly where at most one request is left of it, a deferral always
does, and in a run under the condition no request passes an earlier one of its prompt, or an unkeyed one an
earlier unkeyed one. -/
theorem requeue_keepsOrder :
    (∀ (ids : List Nat) (s : State Token Hash), s.pendingPrefillReqs.Nodup →
      s.pendingPrefillReqs.any (·.requestId ∈ ids) = true →
      (PutBack cfg hash pop ids s ↔ (s.pendingPrefillReqs.filter (·.requestId ∉ ids)).length ≤ 1)) ∧
    (∀ (s s' : State Token Hash) (firstWait : Nat), step cfg hash pop s (.kvWait firstWait) = some s' →
      owners s' ++ s'.waiting = owners s ++ s.waiting) ∧
    (∀ (ops : List (Op Token)) (l : Log Token Hash), run (logStep cfg hash pop) .start ops = some l →
      Along (logStep cfg hash pop) (fun l op => Keeps l.rounds op) .start ops →
      InOrder l ∧ (l.arrived.Nodup → ∀ earlier later, [earlier, later].Sublist l.arrived →
        earlier.promptIds = later.promptIds → ¬ [later, earlier].Sublist l.queue)) ∧
    ∀ (ops : List (Op Token)) (l : Log Token Hash), run (logStep cfg hash pop) .start ops = some l →
      Along (logStep cfg hash pop) (fun l op => KeepsOf (unkeyed cfg) l.rounds op) .start ops →
      (l.queue.filter (unkeyed cfg)).Sublist (l.arrived.filter (unkeyed cfg)) ∧
        (l.arrived.Nodup → ∀ earlier later, [earlier, later].Sublist l.arrived →
          ¬ Aligned cfg earlier → ¬ Aligned cfg later → ¬ [later, earlier].Sublist l.queue) := by
  refine ⟨fun ids s hnodup htorn => ?_, fun s s' firstWait hstep => ?_, fun ops l hrun hkeeps => ?_,
    fun ops l hrun hkeeps => ?_⟩
  · have hleft : (s.pendingPrefillReqs.filter (·.requestId ∉ ids)).Nodup := hnodup.filter _
    unfold PutBack
    rw [cancelPending_waiting htorn, append_left_inj]
    exact reverse_eq_self_iff hleft
  · obtain ⟨waiting, pending, reqs, admitting, inflight, published, deferrals⟩ := s
    cases admitting with
    | none => cases hstep
    | some wave =>
      simp only [step, Option.ite_none_right_eq_some] at hstep
      obtain rfl := Option.some.inj hstep.2
      change wave.take firstWait ++ (wave.drop firstWait ++ waiting) = wave ++ waiting
      rw [← append_assoc, take_append_drop]
  · have horder : InOrder l := fun prompt => run_inOrder (uniform_prompt prompt) hrun
      (along_mono (fun _ _ hkeeps => hkeeps.of_prompt prompt) hkeeps)
    exact ⟨horder, fun hnodup earlier later harrived hprompt =>
      not_overtaken (horder later.promptIds) hnodup harrived (decide_eq_true hprompt) (decide_eq_true rfl)⟩
  · have horder := run_inOrder uniform_unkeyed hrun hkeeps
    exact ⟨horder, fun hnodup earlier later harrived hearlier hlater =>
      not_overtaken horder hnodup harrived (by simpa [unkeyed] using hearlier) (by simpa [unkeyed] using hlater)⟩

/-- Of three requests with one short prompt the first is cancelled, and the KV pool then holds one. -/
def cancelledOps : List (Op Nat) :=
  [.drainRequests [⟨0, [1]⟩, ⟨1, [1]⟩, ⟨2, [1]⟩], .select 3, .beginPending, .cancel [0], .select 3, .kvWait 1, .beginDone]

def twoTokens : Config := ⟨2, true, Nat.two_pos⟩

/-- One request is left of a wave of two, and the next wave is cut by the KV pool. -/
def survivorOps : List (Op Nat) :=
  [.drainRequests [⟨0, [1]⟩, ⟨1, [1]⟩], .select 2, .beginPending, .cancel [0], .drainRequests [⟨2, [1]⟩, ⟨3, [5]⟩],
    .select 3,
    .kvWait 1, .beginDone]

/-- With one survivor the queue stays in order, also among different short prompts. -/
theorem requeue_keepsOrder_one :
    let wave : State Nat Nat := ⟨[⟨3, [1]⟩], true, [⟨0, [1]⟩, ⟨1, [1]⟩], none, ∅, ∅, 0⟩
    PutBack twoTokens List.sum (fun _ => 0) [0] wave ∧
      ∃ l, run (logStep twoTokens List.sum fun _ => (0 : Nat)) .start survivorOps = some l ∧
        l.activated = [⟨1, [1]⟩] ∧ InOrder l ∧ ¬ [⟨2, [1]⟩, ⟨1, [1]⟩].Sublist l.queue ∧
          ¬ [⟨3, [5]⟩, ⟨2, [1]⟩].Sublist l.queue := by
  intro wave
  obtain ⟨hputBack, -, hrun, hunkeyed⟩ := requeue_keepsOrder twoTokens List.sum fun _ => (0 : Nat)
  obtain ⟨hinOrder, hnot⟩ := hrun survivorOps ⟨⟨[⟨2, [1]⟩, ⟨3, [5]⟩], false, [], none, ∅, ∅, 0⟩,
    [⟨0, [1]⟩, ⟨1, [1]⟩, ⟨2, [1]⟩, ⟨3, [5]⟩], [⟨1, [1]⟩]⟩ rfl (by decide)
  obtain ⟨-, hnotUnkeyed⟩ := hunkeyed survivorOps _ rfl (by decide)
  exact ⟨(hputBack [0] wave (by decide) (by decide)).mpr (by decide), _, rfl, rfl, hinOrder,
    hnot (by decide) _ _ (by decide) rfl, hnotUnkeyed (by decide) _ _ (by decide) (by decide) (by decide)⟩

/-- With two survivors the later one is admitted while the earlier one waits. -/
theorem requeue_reversed :
    ∃ l, run (logStep twoTokens List.sum fun _ => (0 : Nat)) .start cancelledOps = some l ∧
      [⟨1, [1]⟩, ⟨2, [1]⟩].Sublist l.arrived ∧ l.activated = [⟨2, [1]⟩] ∧
      l.rounds.waiting = [⟨1, [1]⟩] ∧ ¬ InOrder l := by
  refine ⟨_, rfl, by decide, rfl, rfl, fun h => ?_⟩
  have hsub := h [1]
  revert hsub
  decide

end Runs

end PrefixDedup
