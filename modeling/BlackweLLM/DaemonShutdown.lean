import BlackweLLM.StepRun
import Mathlib.Data.List.Nodup
import Mathlib.Data.List.ReduceOption

/-!
# Shutdown of the warm daemon

The threads of `bfdiag/daemon/server.py`: the accept loop, a thread for every
connection, the worker that runs the queued jobs and the idle watchdog. Jobs and
stop sentinels travel through one queue. A job has the name of the connection
that waits for it.
-/

namespace DaemonShutdown

open List Function StepRun

/-- What a connection asks for. -/
inductive Request where
  | exec
  | reset
  | shutdown
  /-- `ping`, `status`, or a request that the protocol refuses. -/
  | immediate
  deriving DecidableEq, Repr

def Request.queued : Request → Bool
  | .exec | .reset => true
  | .shutdown | .immediate => false

/-- How `_execute_job` ends: with a response, with an `Exception`, or with what `except Exception` lets through. -/
inductive Outcome where
  | returned
  | raised
  | escaped
  deriving DecidableEq, Repr

structure Config where
  request : Nat → Request
  outcome : Nat → Outcome

inductive Answer where
  | response
  | internalError
  | noResponse
  | immediate
  deriving DecidableEq, Repr

/-- Where a connection thread is. -/
inductive Handler where
  | absent
  | received
  /-- `job.done.wait()` -/
  | waiting
  /-- The shutdown event is set, the sentinel not yet put. -/
  | signalling
  | answered
  deriving DecidableEq, Repr

inductive Worker where
  | idle
  | running (job : Nat)
  | ended
  deriving DecidableEq, Repr

def Worker.jobs : Worker → List Nat
  | .running job => [job]
  | .idle | .ended => []

/-- Where the accept loop is. -/
inductive Accept where
  /-- `while not self._shutdown_event.is_set()` -/
  | checking
  | accepting
  /-- `_stop` before its sentinel. -/
  | stopping
  /-- `self._worker_thread.join(timeout=5.0)` -/
  | joining
  | stopped
  /-- `serve_forever` has returned and the process is gone, its daemon threads with it. -/
  | exited
  deriving DecidableEq, Repr

inductive Watchdog where
  | polling
  /-- The provider is unloaded, the event not yet set. -/
  | unloaded
  | signalling
  | over
  deriving DecidableEq, Repr

structure State where
  accept : Accept
  handlers : Nat → Handler
  /-- `_jobs`; the sentinel is `None`. -/
  queue : List (Option Nat)
  worker : Worker
  watchdog : Watchdog
  shutdownEvent : Bool
  busy : Bool
  response : Nat → Option Answer
  sets : Nat → Nat
  sent : Nat → List Answer
  submitted : List Nat
  executed : List Nat

def start : State where
  accept := .checking
  handlers _ := .absent
  queue := []
  worker := .idle
  watchdog := .polling
  shutdownEvent := false
  busy := false
  response _ := none
  sets _ := 0
  sent _ := []
  submitted := []
  executed := []

inductive Op where
  /-- The accept loop tests the event. -/
  | check
  | accept (client : Nat)
  /-- `accept` returns without a connection: its timeout, or `OSError`. -/
  | timeout
  | acceptFails
  /-- `_stop` goes on: the sentinel, then the join returns, in time or not. -/
  | stop
  | exit
  /-- The connection thread goes on. -/
  | handle (client : Nat)
  | worker
  /-- The running job sets `BUSY`. -/
  | busy
  | watchdog
  deriving DecidableEq, Repr

variable (cfg : Config)

/-- `_safe_write`, the last line of a connection thread. -/
def answer (s : State) (client : Nat) (a : Answer) : State :=
  { s with
    handlers := update s.handlers client .answered
    sent := update s.sent client (s.sent client ++ [a]) }

def handleNext (s : State) (client : Nat) : Option State :=
  match s.handlers client with
  | .absent => none
  | .answered => none
  | .received =>
    match cfg.request client with
    | .immediate => some (answer s client .immediate)
    | .shutdown => some { s with
        shutdownEvent := true
        handlers := update s.handlers client .signalling }
    | .exec | .reset => some { s with
        queue := s.queue ++ [some client]
        submitted := s.submitted ++ [client]
        handlers := update s.handlers client .waiting }
  | .signalling => some (answer { s with queue := s.queue ++ [none] } client .immediate)
  | .waiting => if 0 < s.sets client then some (answer s client ((s.response client).getD .noResponse)) else none

/-- What the worker leaves in `job.response`. -/
def Outcome.answer : Outcome → Option Answer
  | .returned => some .response
  | .raised => some .internalError
  | .escaped => none

def workerNext (s : State) : Option State :=
  match s.worker with
  | .ended => none
  | .idle =>
    match s.queue with
    | [] => none
    | none :: rest => some { s with queue := rest, worker := .ended }
    | some job :: rest => some { s with queue := rest, worker := .running job }
  | .running job => some { s with
      response := update s.response job (cfg.outcome job).answer
      sets := update s.sets job (s.sets job + 1)
      executed := s.executed ++ [job]
      -- an exception leaves the state where it is
      busy := s.busy && cfg.outcome job != .returned
      worker := if cfg.outcome job = .escaped then .ended else .idle }

def watchdogNext (s : State) : Option State :=
  match s.watchdog with
  | .polling =>
    if s.shutdownEvent then some { s with watchdog := .over }
    else if s.busy then none
    else some { s with watchdog := .unloaded }
  | .unloaded => some { s with shutdownEvent := true, watchdog := .signalling }
  | .signalling => some { s with queue := s.queue ++ [none], watchdog := .over }
  | .over => none

def stopNext (s : State) : Option State :=
  match s.accept with
  | .stopping => some { s with queue := s.queue ++ [none], accept := .joining }
  | .joining => some { s with accept := .stopped }
  | _ => none

def next (s : State) (op : Op) : Option State :=
  if s.accept = .exited then none
  else match op with
    | .check =>
      if s.accept = .checking then some { s with accept := if s.shutdownEvent then .stopping else .accepting } else none
    | .accept client =>
      if s.accept = .accepting ∧ s.handlers client = .absent then
        some { s with accept := .checking, handlers := update s.handlers client .received }
      else none
    | .timeout => if s.accept = .accepting then some { s with accept := .checking } else none
    | .acceptFails => if s.accept = .accepting then some { s with accept := .stopping } else none
    | .stop => stopNext s
    | .exit => if s.accept = .stopped then some { s with accept := .exited } else none
    | .handle client => handleNext cfg s client
    | .worker => workerNext cfg s
    | .busy =>
      match s.worker with
      | .running job => if cfg.request job = .exec then some { s with busy := true } else none
      | _ => none
    | .watchdog => watchdogNext s

/-- Every job on the queue is done once, and its client has one answer. -/
def Answered (s : State) : Prop := ∀ c ∈ s.submitted, s.sets c = 1 ∧ (s.sent c).length = 1

def Own (s : State) (op : Op) : Prop := op = .worker ∨ ∃ c, op = .handle c ∧ s.handlers c = .waiting

/-- None of these can be taken. -/
def Still (s : State) : Prop := ∀ op, Own s op → next cfg s op = none

/-- The steps that the worker and the waiting connections have left. -/
def work (s : State) : Nat :=
  2 * s.queue.length + s.worker.jobs.length + (s.submitted.filter fun c => s.handlers c = .waiting).length

/-- No job is put behind a sentinel, the worker does not die in front of one, and the process does not go while a
connection waits. -/
def Prompt (s : State) : Op → Prop
  | .handle c => s.handlers c = .received → (cfg.request c).queued = true → none ∉ s.queue ∧ s.worker ≠ .ended
  | .worker => ∀ job, s.worker = .running job → cfg.outcome job = .escaped → s.queue.reduceOption = []
  | .exit => ∀ c ∈ s.submitted, s.handlers c ≠ .waiting
  | _ => True

/-- What holds as long as the steps are prompt. -/
structure Orderly (s : State) : Prop where
  in_order : s.submitted = s.executed ++ (s.worker.jobs ++ s.queue.reduceOption)
  nodup : s.submitted.Nodup
  waiting_submitted : ∀ c, s.handlers c = .waiting → c ∈ s.submitted
  submitted_waits : ∀ c ∈ s.submitted, s.handlers c = .waiting ∨ s.handlers c = .answered ∧ c ∈ s.executed
  sets_eq : ∀ c, s.sets c = s.executed.count c
  unsent : ∀ c, s.handlers c ≠ .answered → s.sent c = []
  sent_once : ∀ c, s.handlers c = .answered → (s.sent c).length = 1
  none_behind : ∃ (jobs : List Nat) (n : Nat), s.queue = jobs.map some ++ replicate n none
  ended_empty : s.worker = .ended → s.queue.reduceOption = []
  exited_silent : s.accept = .exited → ∀ c, s.handlers c ≠ .waiting

variable {cfg} {s s' : State}

section Steps

theorem orderly_start : Orderly start where
  in_order := rfl
  nodup := nodup_nil
  waiting_submitted _ h := nomatch h
  submitted_waits _ h := nomatch h
  sets_eq _ := rfl
  unsent _ _ := rfl
  sent_once _ h := nomatch h
  none_behind := ⟨[], 0, rfl⟩
  ended_empty _ := rfl
  exited_silent h := nomatch h

section

variable (h : Orderly s)
include h

theorem Orderly.frame (accept : Accept) (watchdog : Watchdog) (event busy : Bool)
    (haccept : accept ≠ .exited) :
    Orderly { s with accept := accept, watchdog := watchdog, shutdownEvent := event, busy := busy } where
  __ := h
  exited_silent hexit := absurd hexit haccept

theorem Orderly.sentinel : Orderly { s with queue := s.queue ++ [none] } where
  in_order := by
    simp only [reduceOption_append, reduceOption_cons_of_none, reduceOption_nil, append_nil]
    exact h.in_order
  __ := h
  none_behind := by
    obtain ⟨jobs, n, hqueue⟩ := h.none_behind
    exact ⟨jobs, n + 1, by rw [hqueue, append_assoc, ← replicate_succ']⟩
  ended_empty hended := by
    simp only [reduceOption_append, reduceOption_cons_of_none, reduceOption_nil, append_nil]
    exact h.ended_empty hended

variable {client : Nat}

theorem Orderly.move {handler : Handler} (hclient : client ∉ s.submitted)
    (hbefore : s.handlers client ≠ .answered) (hwait : handler ≠ .waiting) (hafter : handler ≠ .answered) :
    Orderly { s with handlers := update s.handlers client handler } where
  __ := h
  waiting_submitted c hc := by
    dsimp only at hc
    by_cases heq : c = client
    · rw [heq, update_self] at hc
      exact absurd hc hwait
    · rw [update_of_ne heq] at hc
      exact h.waiting_submitted c hc
  submitted_waits c hc := by
    dsimp only
    rw [update_of_ne (ne_of_mem_of_not_mem hc hclient)]
    exact h.submitted_waits c hc
  unsent c hc := by
    dsimp only at hc
    by_cases heq : c = client
    · exact heq ▸ h.unsent client hbefore
    · rw [update_of_ne heq] at hc
      exact h.unsent c hc
  sent_once c hc := by
    dsimp only at hc
    by_cases heq : c = client
    · rw [heq, update_self] at hc
      exact absurd hc hafter
    · rw [update_of_ne heq] at hc
      exact h.sent_once c hc
  exited_silent hexit c hc := by
    dsimp only at hc
    by_cases heq : c = client
    · rw [heq, update_self] at hc
      exact hwait hc
    · rw [update_of_ne heq] at hc
      exact h.exited_silent hexit c hc

theorem Orderly.answer (a : Answer) (hbefore : s.handlers client ≠ .answered)
    (hdone : client ∈ s.submitted → client ∈ s.executed) : Orderly (answer s client a) where
  __ := h
  waiting_submitted c hc := by
    simp only [DaemonShutdown.answer] at hc
    by_cases heq : c = client
    · rw [heq, update_self] at hc
      cases hc
    · rw [update_of_ne heq] at hc
      exact h.waiting_submitted c hc
  submitted_waits c hc := by
    by_cases heq : c = client
    · subst heq
      exact .inr ⟨update_self .., hdone hc⟩
    · simp only [DaemonShutdown.answer, update_of_ne heq]
      exact h.submitted_waits c hc
  unsent c hc := by
    simp only [DaemonShutdown.answer] at hc ⊢
    by_cases heq : c = client
    · rw [heq, update_self] at hc
      exact absurd rfl hc
    · rw [update_of_ne heq] at hc ⊢
      exact h.unsent c hc
  sent_once c hc := by
    simp only [DaemonShutdown.answer] at hc ⊢
    by_cases heq : c = client
    · rw [heq, update_self, h.unsent client hbefore]
      rfl
    · rw [update_of_ne heq] at hc ⊢
      exact h.sent_once c hc
  exited_silent hexit c hc := by
    simp only [DaemonShutdown.answer] at hc
    by_cases heq : c = client
    · rw [heq, update_self] at hc
      cases hc
    · rw [update_of_ne heq] at hc
      exact h.exited_silent hexit c hc

theorem Orderly.not_submitted (hwait : s.handlers client ≠ .waiting)
    (hanswered : s.handlers client ≠ .answered) : client ∉ s.submitted := by
  intro hmem
  obtain hw | ⟨ha, -⟩ := h.submitted_waits client hmem
  · exact hwait hw
  · exact hanswered ha

theorem Orderly.put (hreceived : s.handlers client = .received) (hnone : none ∉ s.queue)
    (hworker : s.worker ≠ .ended) (haccept : s.accept ≠ .exited) :
    Orderly { s with
      queue := s.queue ++ [some client]
      submitted := s.submitted ++ [client]
      handlers := update s.handlers client .waiting } := by
  have hnew : client ∉ s.submitted := h.not_submitted (by rw [hreceived]; decide) (by rw [hreceived]; decide)
  exact {
    in_order := by
      simp only [reduceOption_append, reduceOption_cons_of_some, reduceOption_nil]
      rw [h.in_order]
      simp only [append_assoc]
    nodup := by
      rw [nodup_append]
      exact ⟨h.nodup, nodup_singleton _, fun a ha b hb => by
        rw [mem_singleton.mp hb]
        exact ne_of_mem_of_not_mem ha hnew⟩
    waiting_submitted := fun c hc => by
      dsimp only at hc
      by_cases heq : c = client
      · rw [heq]
        exact mem_append_right _ (mem_singleton_self _)
      · rw [update_of_ne heq] at hc
        exact mem_append_left _ (h.waiting_submitted c hc)
    submitted_waits := fun c hc => by
      dsimp only
      by_cases heq : c = client
      · rw [heq, update_self]
        exact .inl rfl
      · rw [update_of_ne heq]
        obtain hc | hc := mem_append.mp hc
        · exact h.submitted_waits c hc
        · exact absurd (mem_singleton.mp hc) heq
    sets_eq := h.sets_eq
    unsent := fun c hc => by
      dsimp only at hc
      by_cases heq : c = client
      · exact heq ▸ h.unsent client (by rw [hreceived]; decide)
      · rw [update_of_ne heq] at hc
        exact h.unsent c hc
    sent_once := fun c hc => by
      dsimp only at hc
      by_cases heq : c = client
      · rw [heq, update_self] at hc
        cases hc
      · rw [update_of_ne heq] at hc
        exact h.sent_once c hc
    none_behind := by
      obtain ⟨jobs, n, hqueue⟩ := h.none_behind
      cases n with
      | zero => exact ⟨jobs ++ [client], 0, by simp [hqueue]⟩
      | succ n => exact absurd (by simp [hqueue]) hnone
    ended_empty := fun hended => absurd hended hworker
    exited_silent := fun hexit => absurd hexit haccept }

theorem Orderly.get {job : Nat} {rest : List (Option Nat)} (hidle : s.worker = .idle)
    (hqueue : s.queue = some job :: rest) : Orderly { s with queue := rest, worker := .running job } where
  in_order := by
    rw [h.in_order, hidle, hqueue]
    rfl
  __ := h
  none_behind := by
    obtain ⟨jobs, n, hsplit⟩ := h.none_behind
    rw [hqueue] at hsplit
    cases jobs with
    | nil => cases n <;> cases hsplit
    | cons first jobs => exact ⟨jobs, n, (List.cons.inj hsplit).2⟩
  ended_empty := nofun

/-- Behind the sentinel that stops the worker there is no job. -/
theorem Orderly.last {rest : List (Option Nat)} (hidle : s.worker = .idle)
    (hqueue : s.queue = none :: rest) : Orderly { s with queue := rest, worker := .ended } := by
  have hrest : ∃ n, rest = replicate n none := by
    obtain ⟨jobs, n, hsplit⟩ := h.none_behind
    rw [hqueue] at hsplit
    cases jobs with
    | nil =>
      cases n with
      | zero => cases hsplit
      | succ n => exact ⟨n, (List.cons.inj hsplit).2⟩
    | cons first jobs => cases hsplit
  obtain ⟨n, rfl⟩ := hrest
  exact {
    in_order := by
      rw [h.in_order, hidle, hqueue]
      rfl
    __ := h
    none_behind := ⟨[], n, rfl⟩
    ended_empty := fun _ => reduceOption_replicate_none
    exited_silent := h.exited_silent }

theorem Orderly.finish {job : Nat} {worker : Worker} (hrunning : s.worker = .running job)
    (hworker : worker = .idle ∨ worker = .ended ∧ s.queue.reduceOption = []) (response : Nat → Option Answer)
    (busy : Bool) :
    Orderly { s with
      response := response
      sets := update s.sets job (s.sets job + 1)
      executed := s.executed ++ [job]
      busy := busy
      worker := worker } where
  in_order := by
    have hnone : worker.jobs = [] := by
      obtain rfl | ⟨rfl, -⟩ := hworker <;> rfl
    rw [h.in_order, hrunning, hnone]
    simp [Worker.jobs]
  __ := h
  submitted_waits c hc := (h.submitted_waits c hc).imp_right fun ⟨ha, he⟩ => ⟨ha, mem_append_left _ he⟩
  sets_eq c := by
    dsimp only
    by_cases heq : c = job
    · rw [heq, update_self, h.sets_eq, count_append, count_singleton_self]
    · rw [update_of_ne heq, h.sets_eq, count_append, count_singleton, if_neg (by simpa using Ne.symm heq),
        Nat.add_zero]
  ended_empty hended := by
    obtain rfl | ⟨-, hempty⟩ := hworker
    · cases hended
    · exact hempty

theorem Orderly.handle (hlive : s.accept ≠ .exited) (hp : Prompt cfg s (.handle client))
    (hnext : handleNext cfg s client = some s') : Orderly s' := by
  unfold handleNext at hnext
  cases hhandler : s.handlers client with
  | absent => simp [hhandler] at hnext
  | answered => simp [hhandler] at hnext
  | received =>
    have hnew : client ∉ s.submitted := h.not_submitted (by rw [hhandler]; decide) (by rw [hhandler]; decide)
    have hbefore : s.handlers client ≠ .answered := by rw [hhandler]; decide
    have hput (hqueued : (cfg.request client).queued = true) :=
      h.put hhandler (hp hhandler hqueued).1 (hp hhandler hqueued).2 hlive
    cases hrequest : cfg.request client with
    | immediate =>
      simp only [hhandler, hrequest, Option.some.injEq] at hnext
      exact hnext ▸ h.answer .immediate hbefore fun hmem => absurd hmem hnew
    | shutdown =>
      simp only [hhandler, hrequest, Option.some.injEq] at hnext
      have hmoved := @Orderly.move _ h _ .signalling hnew hbefore nofun nofun
      exact hnext ▸ hmoved.frame s.accept s.watchdog true s.busy hlive
    | exec =>
      simp only [hhandler, hrequest, Option.some.injEq] at hnext
      exact hnext ▸ hput (by rw [hrequest]; rfl)
    | reset =>
      simp only [hhandler, hrequest, Option.some.injEq] at hnext
      exact hnext ▸ hput (by rw [hrequest]; rfl)
  | signalling =>
    have hnew : client ∉ s.submitted := h.not_submitted (by rw [hhandler]; decide) (by rw [hhandler]; decide)
    simp only [hhandler, Option.some.injEq] at hnext
    exact hnext ▸ h.sentinel.answer .immediate (by rw [hhandler]; decide) fun hmem => absurd hmem hnew
  | waiting =>
    simp only [hhandler] at hnext
    split at hnext
    · rename_i hset
      cases hnext
      refine h.answer _ (by rw [hhandler]; decide) fun _ => ?_
      rw [h.sets_eq] at hset
      exact count_pos_iff.mp hset
    · cases hnext

theorem Orderly.worker (hp : Prompt cfg s .worker) (hnext : workerNext cfg s = some s') : Orderly s' := by
  unfold workerNext at hnext
  cases hworker : s.worker with
  | ended => simp [hworker] at hnext
  | idle =>
    simp only [hworker] at hnext
    split at hnext
    · cases hnext
    · rename_i rest hqueue
      cases hnext
      exact h.last hworker hqueue
    · rename_i job rest hqueue
      cases hnext
      exact h.get hworker hqueue
  | running job =>
    simp only [hworker, Option.some.injEq] at hnext
    subst hnext
    refine h.finish hworker ?_ _ _
    split
    · rename_i hescaped
      exact .inr ⟨rfl, hp job hworker hescaped⟩
    · exact .inl rfl

theorem Orderly.next {op : Op} (hp : Prompt cfg s op) (hnext : next cfg s op = some s') : Orderly s' := by
  unfold DaemonShutdown.next at hnext
  split at hnext
  · cases hnext
  rename_i hlive
  cases op with
  | check =>
    dsimp only at hnext
    split at hnext
    · cases hnext
      exact h.frame _ s.watchdog s.shutdownEvent s.busy (by split <;> decide)
    · cases hnext
  | accept client =>
    dsimp only at hnext
    split at hnext
    · rename_i haccept
      cases hnext
      have hnew : client ∉ s.submitted := h.not_submitted (by rw [haccept.2]; decide) (by rw [haccept.2]; decide)
      have hmoved := @Orderly.move _ h _ .received hnew (by rw [haccept.2]; decide) nofun nofun
      exact hmoved.frame .checking s.watchdog s.shutdownEvent s.busy nofun
    · cases hnext
  | timeout =>
    dsimp only at hnext
    split at hnext
    · cases hnext
      exact h.frame .checking s.watchdog s.shutdownEvent s.busy nofun
    · cases hnext
  | acceptFails =>
    dsimp only at hnext
    split at hnext
    · cases hnext
      exact h.frame .stopping s.watchdog s.shutdownEvent s.busy nofun
    · cases hnext
  | stop =>
    dsimp only [stopNext] at hnext
    split at hnext
    · cases hnext
      exact h.sentinel.frame .joining s.watchdog s.shutdownEvent s.busy nofun
    · cases hnext
      exact h.frame .stopped s.watchdog s.shutdownEvent s.busy nofun
    · cases hnext
  | exit =>
    dsimp only at hnext
    split at hnext
    · cases hnext
      exact { h with exited_silent := fun _ c hc => hp c (h.waiting_submitted c hc) hc }
    · cases hnext
  | handle client => exact h.handle hlive hp hnext
  | worker => exact h.worker hp hnext
  | busy =>
    dsimp only at hnext
    split at hnext
    · split at hnext
      · cases hnext
        exact h.frame s.accept s.watchdog s.shutdownEvent true hlive
      · cases hnext
    · cases hnext
  | watchdog =>
    dsimp only [watchdogNext] at hnext
    split at hnext
    · split at hnext
      · cases hnext
        exact h.frame s.accept .over s.shutdownEvent s.busy hlive
      · split at hnext
        · cases hnext
        · cases hnext
          exact h.frame s.accept .unloaded s.shutdownEvent s.busy hlive
    · cases hnext
      exact h.frame s.accept .signalling true s.busy hlive
    · cases hnext
      exact h.sentinel.frame s.accept .over s.shutdownEvent s.busy hlive
    · cases hnext

end

end Steps

section Runs

/-- Where nothing is left to do, nobody waits. -/
theorem Orderly.answered (h : Orderly s) (hstill : Still cfg s) : Answered s := by
  have hsilent (c : Nat) : s.handlers c ≠ .waiting := by
    intro hc
    have hlive : s.accept ≠ .exited := fun hexit => h.exited_silent hexit c hc
    have hworker := hstill .worker (.inl rfl)
    have hwake := hstill (.handle c) (.inr ⟨c, rfl, hc⟩)
    simp only [DaemonShutdown.next, if_neg hlive, workerNext] at hworker
    simp only [DaemonShutdown.next, if_neg hlive, handleNext, hc] at hwake
    have hqueue : s.worker.jobs = [] ∧ s.queue.reduceOption = [] := by
      cases hw : s.worker with
      | ended => exact ⟨rfl, h.ended_empty hw⟩
      | running job => simp [hw] at hworker
      | idle =>
        cases hq : s.queue with
        | nil => exact ⟨rfl, rfl⟩
        | cons first rest => cases first <;> simp [hw, hq] at hworker
    have hsubmitted := h.in_order
    rw [hqueue.1, hqueue.2, append_nil, append_nil] at hsubmitted
    have hexecuted : c ∈ s.executed := hsubmitted ▸ h.waiting_submitted c hc
    rw [h.sets_eq, if_pos (count_pos_iff.mpr hexecuted)] at hwake
    cases hwake
  intro c hc
  obtain hwait | ⟨hanswered, hexecuted⟩ := h.submitted_waits c hc
  · exact absurd hwait (hsilent c)
  · have hnodup : s.executed.Nodup := by
      have := h.nodup
      rw [h.in_order] at this
      exact this.of_append_left
    exact ⟨by rw [h.sets_eq, count_eq_one_of_mem hnodup hexecuted], h.sent_once c hanswered⟩

theorem filter_update_lt {l : List Nat} {handlers : Nat → Handler} {c : Nat} (hc : c ∈ l)
    (hwait : handlers c = .waiting) :
    (l.filter fun d => update handlers c .answered d = .waiting).length <
      (l.filter fun d => handlers d = .waiting).length := by
  have hsub : (l.filter fun d => update handlers c .answered d = .waiting) =
      (l.filter fun d => handlers d = .waiting).filter fun d => d ≠ c := by
    rw [filter_filter]
    refine filter_congr fun d _ => ?_
    by_cases heq : d = c
    · simp [heq]
    · simp [heq]
  rw [hsub, length_filter_lt_length_iff_exists]
  exact ⟨c, mem_filter.mpr ⟨hc, by simpa using hwait⟩, by simp⟩

theorem Orderly.work_lt (h : Orderly s) {op : Op} (hown : Own s op) (hnext : DaemonShutdown.next cfg s op = some s') :
    work s' < work s := by
  unfold DaemonShutdown.next at hnext
  split at hnext
  · cases hnext
  obtain rfl | ⟨c, rfl, hc⟩ := hown
  · dsimp only [workerNext] at hnext
    split at hnext
    · cases hnext
    · rename_i hworker
      split at hnext
      · cases hnext
      all_goals
        rename_i hqueue
        cases hnext
        simp only [work, hworker, hqueue, Worker.jobs, length_cons, length_nil]
        omega
    · rename_i job hworker
      cases hnext
      have hjobs : (if cfg.outcome job = .escaped then Worker.ended else Worker.idle).jobs = [] := by split <;> rfl
      simp only [work, hjobs, hworker, length_nil]
      exact Nat.add_lt_add_right (Nat.lt_succ_self _) _
  · simp only [handleNext, hc] at hnext
    split at hnext
    · cases hnext
      have hlt := filter_update_lt (h.waiting_submitted c hc) hc
      exact Nat.add_lt_add_left hlt _
    · cases hnext

instance (s : State) : (op : Op) → Decidable (Prompt cfg s op)
  | .handle c => inferInstanceAs (Decidable (s.handlers c = .received → _))
  | .worker =>
    match hworker : s.worker with
    | .running job => decidable_of_iff (cfg.outcome job = .escaped → s.queue.reduceOption = [])
      (by simp [Prompt, hworker])
    | .idle | .ended => isTrue (by simp [Prompt, hworker])
  | .exit => inferInstanceAs (Decidable (∀ c ∈ s.submitted, _))
  | .check | .accept _ | .timeout | .acceptFails | .stop | .busy | .watchdog => isTrue trivial

def twoClients : Config where
  request c := if c = 0 then .exec else .shutdown
  outcome _ := .returned

def acceptBoth : List Op := [.check, .accept 0, .check, .accept 1]

def servedRun : List Op :=
  acceptBoth ++ [.handle 0, .worker, .busy, .worker, .handle 1, .handle 0, .handle 1, .check, .worker, .stop, .stop, .exit]

/-- A connection whose job nobody will do. -/
def Stranded (c : Nat) (s : State) : Prop :=
  s.worker = .ended ∧ s.sets c = 0 ∧ s.handlers c = .waiting ∧ s.sent c = []

theorem Stranded.answer {c client : Nat} (h : Stranded c s) (hne : client ≠ c) (a : Answer) :
    Stranded c (answer s client a) := by
  obtain ⟨hworker, hsets, hhandler, hsent⟩ := h
  exact ⟨hworker, hsets, (update_of_ne hne.symm _ _).trans hhandler,
    (update_of_ne hne.symm _ _).trans hsent⟩

theorem Stranded.move {c client : Nat} (h : Stranded c s) (hne : client ≠ c) (handler : Handler) :
    Stranded c { s with handlers := update s.handlers client handler } := by
  obtain ⟨hworker, hsets, hhandler, hsent⟩ := h
  exact ⟨hworker, hsets, (update_of_ne hne.symm _ _).trans hhandler, hsent⟩

/-- No step of any thread helps it. -/
theorem Stranded.next {c : Nat} {op : Op} (h : Stranded c s) (hnext : next cfg s op = some s') : Stranded c s' := by
  unfold DaemonShutdown.next at hnext
  split at hnext
  · cases hnext
  cases op with
  | accept client =>
    dsimp only at hnext
    split at hnext
    · rename_i haccept
      cases hnext
      have hne : client ≠ c := by
        rintro rfl
        rw [h.2.2.1] at haccept
        cases haccept.2
      exact h.move hne .received
    · cases hnext
  | handle client =>
    dsimp only [handleNext] at hnext
    by_cases hclient : client = c
    · simp [hclient, h.2.2.1, h.2.1] at hnext
    · split at hnext
      · cases hnext
      · cases hnext
      · split at hnext <;> cases hnext
        · exact h.answer hclient _
        · exact h.move hclient _
        · exact h.move hclient _
        · exact h.move hclient _
      · cases hnext
        exact Stranded.answer (s := { s with queue := s.queue ++ [none] }) h hclient _
      · split at hnext <;> cases hnext
        exact h.answer hclient _
  | worker => simp [workerNext, h.1] at hnext
  | busy => simp [h.1] at hnext
  | stop =>
    dsimp only [stopNext] at hnext
    split at hnext <;> cases hnext <;> exact h
  | watchdog =>
    dsimp only [watchdogNext] at hnext
    split at hnext
    · split at hnext
      · cases hnext
        exact h
      · split at hnext <;> cases hnext
        exact h
    all_goals
      cases hnext
      try exact h
  | _ =>
    dsimp only at hnext
    split at hnext <;> cases hnext
    exact h

/-- The job is put between the sentinel of a shutdown and the end of the worker. -/
def behindSentinel : List Op := acceptBoth ++ [.handle 1, .handle 1, .handle 0, .worker]

/-- The job runs for longer than `_stop` joins the worker, and the process goes. -/
def joinTimesOut : List Op :=
  acceptBoth ++ [.handle 0, .worker, .busy, .handle 1, .handle 1, .check, .stop, .stop, .exit]

end Runs

end DaemonShutdown
