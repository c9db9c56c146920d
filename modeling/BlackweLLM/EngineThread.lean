import BlackweLLM.StepRun

/-!
# The engine thread and its callers

`server/engine.py`: `_enqueue_request`, `cancel` and `stop`, which any thread may call,
beside `_engine_thread_main` and `_step_sync`. A step is one line of one thread. What
the GPU rounds do to the requests is left open; every outcome that the code has a branch
for is a step.
-/

namespace EngineThread

structure Config where
  capacity : Nat
  maxPendingRequests : Nat
  coalesce : Bool
  pipeCapacity : Nat
  pipe_pos : 0 < pipeCapacity

inductive Call (Req : Type) where
  | idle
  /-- `_enqueue_request` has found no fatal error; in `append` also no stop. -/
  | readStop (req : Req)
  | append (req : Req)
  /-- The request, the cancellation or the flag is set, the wakeup byte is not yet written. -/
  | wakeRequest (req : Req)
  | wakeCancel (id : Req)
  | wakeStop
  deriving DecidableEq, Repr

inductive Line (Req : Type) where
  | loadModel
  /-- `while not self._stop`. -/
  | head
  | drainRequests
  | drainPipe
  /-- `_coalesce_admission_wave`: the drain of the deque, the wait, the drain of the pipe. -/
  | coalesceRequests
  | coalesceWait
  | coalescePipe
  | takeCancels
  | dropCancelled (ids : List Req)
  /-- The warm continuations. Only the local `req` holds the request of one. -/
  | warm (batch : List Req)
  /-- `prefill_chunked_step` and the activation of its requests. -/
  | prefill
  | activatePrefill (batch : List Req)
  | admission
  /-- The requests of a wave, which only the local `admission_reqs` and `admit_now` hold. -/
  | prefillBegin (batch : List Req)
  | activate (batch : List Req)
  | idle
  | redrain
  | read
  | woken
  | wokenRequests
  | wokenPipe
  | decode
  /-- The handler of an exception that left `_step_sync`. -/
  | raised (fatal : Bool)
  | setStop
  | failFatal
  | final
  | exited
  deriving DecidableEq, Repr

structure State (Req : Type) where
  line : Line Req
  calls : Nat → Call Req
  stop : Bool
  fatal : Bool
  pipe : Nat
  deque : List Req
  cancelSet : List Req
  waiting : List Req
  active : List Req
  pendingPrefill : List Req
  /-- The requests that `_enqueue_request` took, kept for the statements and the budget. -/
  accepted : List Req
  settled : List Req

variable {Req : Type} [DecidableEq Req] (cfg : Config)

/-- `_request_count`: every request is released once. -/
def requestCount (s : State Req) : Nat := (s.accepted.filter fun r => r ∉ s.settled).length

/-- `os.write` of one byte. A full pipe takes none. -/
def wake (s : State Req) : State Req := { s with pipe := min (s.pipe + 1) cfg.pipeCapacity }

def settle (rs : List Req) (s : State Req) : State Req := { s with settled := s.settled ++ rs }

def drainRequests (s : State Req) : State Req := { s with waiting := s.waiting ++ s.deque, deque := [] }

/-- `_fail_pending_requests`: everything outside `active`. -/
def failPendingRequests (s : State Req) : State Req :=
  { settle (s.deque ++ s.waiting ++ s.pendingPrefill) s with deque := [], waiting := [], pendingPrefill := [] }

def failActive (s : State Req) : State Req := { settle s.active s with active := [] }

/-- `_activate_slot` places the request in `active`, or completes it at its anchor. -/
def place (finished : Bool) (r : Req) (s : State Req) : State Req :=
  if finished then settle [r] s else { s with active := s.active ++ [r] }

/-- The cancellations of a round. A pending prefill that loses a request starts over. -/
def dropCancelled (ids : List Req) (s : State Req) : State Req :=
  let gone (rs : List Req) := rs.filter fun r => r ∈ ids
  let kept (rs : List Req) := rs.filter fun r => r ∉ ids
  let s := { settle (gone s.active ++ gone s.waiting ++ gone s.deque) s with
    active := kept s.active
    waiting := kept s.waiting
    deque := kept s.deque }
  if gone s.pendingPrefill = [] then s
  else
    { settle (gone s.pendingPrefill) s with
      waiting := (kept s.pendingPrefill).reverse ++ s.waiting
      pendingPrefill := [] }

inductive Op (Req : Type) where
  /-- `_enqueue_request` reads `_fatal_error`, then `_stop`, then appends under the budget. -/
  | enqueue (c : Nat) (req : Req)
  | readStop (c : Nat)
  | append (c : Nat)
  | cancel (c : Nat) (id : Req)
  | stop (c : Nat)
  | write (c : Nat)
  | load (ok : Bool)
  /-- The next line of the engine thread, where it has one outcome. -/
  | engine
  /-- The coalescing wait finds the pipe readable, or ends. -/
  | readable
  | timeout
  /-- A request whose session is retained, until it is activated or has to start cold. -/
  | warmTake (req : Req)
  | warmBack
  | warmEnds
  /-- The pending prefill goes on, fails or is done. -/
  | prefillGoesOn
  | prefillFails (fatal : Bool)
  | prefillDone
  | skipAdmission
  | select (batch : List Req)
  /-- Slots without KV room go back to `waiting`. -/
  | defer (kept : Nat)
  | beginFails (fatal : Bool)
  | beginLong
  | beginDone
  /-- `_activate_slot` of the next request, which may end with its anchor. -/
  | activate (finished : Bool)
  | decode (finished : List Req)
  /-- An exception leaves `_step_sync`. -/
  | raise (fatal : Bool)

def callNext (s : State Req) (c : Nat) (call : Call Req) : State Req :=
  { s with calls := Function.update s.calls c call }

def engineNext (s : State Req) : Option (State Req) :=
  match s.line with
  | .head => some { s with line := if s.stop then .final else .drainRequests }
  | .drainRequests => some { drainRequests s with line := .drainPipe }
  | .drainPipe => some { s with pipe := 0, line := if cfg.coalesce then .coalesceRequests else .takeCancels }
  | .coalesceRequests => some { drainRequests s with line := .coalesceWait }
  | .coalescePipe => some { s with pipe := 0, line := .coalesceRequests }
  | .takeCancels =>
    some { s with
      cancelSet := []
      line := if s.cancelSet = [] then .warm [] else .dropCancelled s.cancelSet }
  | .dropCancelled ids => some { dropCancelled ids s with line := .warm [] }
  | .prefill => if s.pendingPrefill = [] then some { s with line := .admission } else none
  | .activatePrefill [] => some { s with pendingPrefill := [], line := .admission }
  | .activate [] => some { s with line := .idle }
  | .idle =>
    some { s with
      line :=
        if s.active = [] ∧ s.pendingPrefill = [] then if s.waiting = [] then .redrain else .head
        else .decode }
  | .redrain =>
    let s := drainRequests s
    some { s with line := if s.waiting = [] then .read else .head }
  | .read => if s.pipe = 0 then none else some { s with pipe := s.pipe - 1, line := .woken }
  | .woken => some { s with line := if s.stop then .head else .wokenRequests }
  | .wokenRequests => some { drainRequests s with line := .wokenPipe }
  | .wokenPipe => some { s with pipe := 0, line := .head }
  | .raised false => some { failPendingRequests (failActive s) with line := .head }
  | .raised true => some { s with fatal := true, line := .setStop }
  | .setStop => some { s with stop := true, line := .failFatal }
  | .failFatal => some { failPendingRequests (failActive s) with line := .final }
  | .final => some { failPendingRequests s with line := .exited }
  | _ => none

/-- The lines of `_step_sync` outside its own handlers that call the backend. -/
def Line.mayRaise : Line Req → Bool
  | .warm _ | .activatePrefill _ | .prefillBegin _ | .activate _ | .decode => true
  | _ => false

def next (s : State Req) : Op Req → Option (State Req)
  | .enqueue c req =>
    if s.calls c = .idle ∧ req ∉ s.accepted then
      some (callNext s c (if s.fatal then .idle else .readStop req))
    else none
  | .readStop c =>
    match s.calls c with
    | .readStop req => some (callNext s c (if s.stop then .idle else .append req))
    | _ => none
  | .append c =>
    match s.calls c with
    | .append req =>
      if req ∈ s.accepted then none
      else if cfg.maxPendingRequests ≤ requestCount s then some (callNext s c .idle)
      else some (callNext { s with deque := s.deque ++ [req], accepted := s.accepted ++ [req] } c (.wakeRequest req))
    | _ => none
  | .cancel c id =>
    if s.calls c = .idle then some (callNext { s with cancelSet := s.cancelSet ++ [id] } c (.wakeCancel id)) else none
  | .stop c => if s.calls c = .idle then some (callNext { s with stop := true } c .wakeStop) else none
  | .write c =>
    match s.calls c with
    | .wakeRequest _ | .wakeCancel _ | .wakeStop => some (callNext (wake cfg s) c .idle)
    | _ => none
  | .load ok => if s.line = .loadModel then some { s with line := if ok then .head else .exited } else none
  | .engine => engineNext cfg s
  | .readable =>
    if s.line = .coalesceWait ∧ s.active = [] ∧ s.pendingPrefill = [] ∧ s.waiting ≠ [] ∧
        s.waiting.length < cfg.capacity ∧ 0 < s.pipe then
      some { s with line := .coalescePipe }
    else none
  | .timeout => if s.line = .coalesceWait then some { s with line := .takeCancels } else none
  | .warmTake req =>
    if s.line = .warm [] ∧ req ∈ s.waiting then some { s with waiting := s.waiting.erase req, line := .warm [req] }
    else none
  | .warmBack =>
    match s.line with
    | .warm batch => some { s with waiting := batch ++ s.waiting, line := .warm [] }
    | _ => none
  | .warmEnds => if s.line = .warm [] then some { s with line := .prefill } else none
  | .prefillGoesOn =>
    if s.line = .prefill ∧ s.pendingPrefill ≠ [] then some { s with line := .admission } else none
  | .prefillFails fatal =>
    if s.line = .prefill ∧ s.pendingPrefill ≠ [] then
      some { settle s.pendingPrefill s with
        pendingPrefill := []
        line := if fatal then .raised true else .admission }
    else none
  | .prefillDone =>
    if s.line = .prefill ∧ s.pendingPrefill ≠ [] then some { s with line := .activatePrefill s.pendingPrefill } else none
  | .skipAdmission => if s.line = .admission then some { s with line := .idle } else none
  | .select batch =>
    if s.line = .admission ∧ s.pendingPrefill = [] ∧ batch.Sublist s.waiting then
      some { s with waiting := s.waiting.filter (fun r => r ∉ batch), line := .prefillBegin batch }
    else none
  | .defer kept =>
    match s.line with
    | .prefillBegin batch =>
      some { s with waiting := batch.drop kept ++ s.waiting, line := .prefillBegin (batch.take kept) }
    | _ => none
  | .beginFails fatal =>
    match s.line with
    | .prefillBegin batch => some { settle batch s with line := if fatal then .raised true else .idle }
    | _ => none
  | .beginLong =>
    match s.line with
    | .prefillBegin batch => some { s with pendingPrefill := batch, line := .idle }
    | _ => none
  | .beginDone =>
    match s.line with
    | .prefillBegin batch => some { s with line := .activate batch }
    | _ => none
  | .activate finished =>
    match s.line with
    | .warm (r :: rest) => some { place finished r s with line := .warm rest }
    | .activatePrefill (r :: rest) => some { place finished r s with line := .activatePrefill rest }
    | .activate (r :: rest) => some { place finished r s with line := .activate rest }
    | _ => none
  | .decode finished =>
    if s.line = .decode then
      some { settle finished s with active := s.active.filter (fun r => r ∉ finished), line := .head }
    else none
  | .raise fatal => if s.line.mayRaise then some { s with line := .raised fatal } else none

/-- The engine thread is about to load the model, and nobody has called yet. -/
def start : State Req where
  line := .loadModel
  calls _ := .idle
  stop := false
  fatal := false
  pipe := 0
  deque := []
  cancelSet := []
  waiting := []
  active := []
  pendingPrefill := []
  accepted := []
  settled := []

section Inversion

variable {cfg} {s s' : State Req} {c : Nat}

theorem next_readStop (hnext : next cfg s (.readStop c) = some s') :
    ∃ req, s.calls c = .readStop req ∧ s' = callNext s c (if s.stop then .idle else .append req) := by
  unfold next at hnext
  cases hcall : s.calls c with
  | readStop req =>
    simp only [hcall] at hnext
    exact ⟨req, rfl, (Option.some.inj hnext).symm⟩
  | _ =>
    simp only [hcall] at hnext
    cases hnext

theorem next_append (hnext : next cfg s (.append c) = some s') :
    ∃ req, s.calls c = .append req ∧ req ∉ s.accepted ∧
      (cfg.maxPendingRequests ≤ requestCount s ∧ s' = callNext s c .idle ∨
        requestCount s < cfg.maxPendingRequests ∧
          s' = callNext { s with deque := s.deque ++ [req], accepted := s.accepted ++ [req] } c (.wakeRequest req)) := by
  unfold next at hnext
  cases hcall : s.calls c with
  | append req =>
    simp only [hcall] at hnext
    obtain ⟨hnew, heq⟩ := Option.ite_none_left_eq_some.mp hnext
    split_ifs at heq with hfull
    · exact ⟨req, rfl, hnew, .inl ⟨hfull, (Option.some.inj heq).symm⟩⟩
    · exact ⟨req, rfl, hnew, .inr ⟨Nat.lt_of_not_le hfull, (Option.some.inj heq).symm⟩⟩
  | _ =>
    simp only [hcall] at hnext
    cases hnext

theorem next_write (hnext : next cfg s (.write c) = some s') : s' = callNext (wake cfg s) c .idle := by
  unfold next at hnext
  cases hcall : s.calls c with
  | wakeRequest | wakeCancel | wakeStop =>
    simp only [hcall] at hnext
    exact (Option.some.inj hnext).symm
  | _ =>
    simp only [hcall] at hnext
    cases hnext

theorem next_warmBack (hnext : next cfg s .warmBack = some s') :
    ∃ batch, s.line = .warm batch ∧ s' = { s with waiting := batch ++ s.waiting, line := .warm [] } := by
  unfold next at hnext
  cases hline : s.line with
  | warm batch =>
    simp only [hline] at hnext
    exact ⟨batch, rfl, (Option.some.inj hnext).symm⟩
  | _ =>
    simp only [hline] at hnext
    cases hnext

omit [DecidableEq Req] in
theorem at_prefillBegin {f : List Req → State Req} (hnext : (match s.line with
    | .prefillBegin batch => some (f batch)
    | _ => none) = some s') : ∃ batch, s.line = .prefillBegin batch ∧ s' = f batch := by
  cases hline : s.line with
  | prefillBegin batch =>
    simp only [hline] at hnext
    exact ⟨batch, rfl, (Option.some.inj hnext).symm⟩
  | _ =>
    simp only [hline] at hnext
    cases hnext

theorem next_defer {kept : Nat} (hnext : next cfg s (.defer kept) = some s') :
    ∃ batch, s.line = .prefillBegin batch ∧
      s' = { s with waiting := batch.drop kept ++ s.waiting, line := .prefillBegin (batch.take kept) } :=
  at_prefillBegin hnext

theorem next_beginFails {fatal : Bool} (hnext : next cfg s (.beginFails fatal) = some s') :
    ∃ batch, s.line = .prefillBegin batch ∧
      s' = { settle batch s with line := if fatal then .raised true else .idle } :=
  at_prefillBegin hnext

theorem next_beginLong (hnext : next cfg s .beginLong = some s') :
    ∃ batch, s.line = .prefillBegin batch ∧ s' = { s with pendingPrefill := batch, line := .idle } :=
  at_prefillBegin hnext

theorem next_beginDone (hnext : next cfg s .beginDone = some s') :
    ∃ batch, s.line = .prefillBegin batch ∧ s' = { s with line := .activate batch } :=
  at_prefillBegin hnext

theorem next_activate {finished : Bool} (hnext : next cfg s (.activate finished) = some s') :
    ∃ r rest, s.line = .warm (r :: rest) ∧ s' = { place finished r s with line := .warm rest } ∨
      s.line = .activatePrefill (r :: rest) ∧ s' = { place finished r s with line := .activatePrefill rest } ∨
      s.line = .activate (r :: rest) ∧ s' = { place finished r s with line := .activate rest } := by
  unfold next at hnext
  cases hline : s.line with
  | warm batch | activatePrefill batch | activate batch =>
    cases batch with
    | nil =>
      simp only [hline] at hnext
      cases hnext
    | cons r rest =>
      simp only [hline] at hnext
      obtain rfl := Option.some.inj hnext
      exact ⟨r, rest, by simp⟩
  | _ =>
    simp only [hline] at hnext
    cases hnext

end Inversion

end EngineThread
