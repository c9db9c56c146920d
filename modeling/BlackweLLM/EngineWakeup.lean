import BlackweLLM.EngineThread

/-!
# No lost wake-up

While the engine waits on an empty pipe, everything that could wake it still has
its byte to write. Each kind of event is covered from the line on where the
engine last looked for it: the flag from the head of the loop, cancellations
from the copy of the cancel set, requests from the second drain.
-/

namespace EngineThread

open List Function StepRun

variable {Req : Type} {cfg : Config} {s s' : State Req}

/-- What a call has announced without its byte. -/
def Outstanding (s : State Req) (call : Call Req) : Prop := ∃ c, s.calls c = call

/-- The engine does not wait for an event whose byte is written. -/
def NoLostWakeup (s : State Req) : Prop :=
  s.line = .read → s.pipe = 0 →
    (∀ r ∈ s.deque, Outstanding s (.wakeRequest r)) ∧ (∀ id ∈ s.cancelSet, Outstanding s (.wakeCancel id)) ∧
      (s.stop = true → Outstanding s .wakeStop)

/-- The lines behind the head of the loop, up to the blocking read. -/
def Line.inRound : Line Req → Bool
  | .drainRequests | .drainPipe | .coalesceRequests | .coalesceWait | .coalescePipe | .takeCancels
  | .dropCancelled _ | .warm _ | .prefill | .activatePrefill _ | .admission | .prefillBegin _ | .activate _ | .idle
  | .redrain | .read => true
  | _ => false

/-- Those behind the copy of the cancel set. -/
def Line.afterCancels : Line Req → Bool
  | .dropCancelled _ | .warm _ | .prefill | .activatePrefill _ | .admission | .prefillBegin _ | .activate _ | .idle
  | .redrain | .read => true
  | _ => false

/-- The byte of an announced event is in the pipe or still to be written. -/
def Covered (s : State Req) (call : Call Req) : Prop := 0 < s.pipe ∨ Outstanding s call

structure Covers (s : State Req) : Prop where
  stop : s.line.inRound → s.stop = true → Covered s .wakeStop
  cancels : s.line.afterCancels → ∀ id ∈ s.cancelSet, Covered s (.wakeCancel id)
  requests : s.line = .read → ∀ r ∈ s.deque, Covered s (.wakeRequest r)

theorem Covers.noLostWakeup (h : Covers s) : NoLostWakeup s := by
  intro hline hpipe
  have hout : ∀ {call : Call Req}, Covered s call → Outstanding s call := fun hcovered =>
    hcovered.resolve_left (by omega)
  refine ⟨fun r hr => hout (h.requests hline r hr), fun id hid => hout (h.cancels ?_ id hid),
    fun hstop => hout (h.stop ?_ hstop)⟩
  · rw [hline]
    rfl
  · rw [hline]
    rfl

theorem Line.inRound_of_afterCancels {l : Line Req} (h : l.afterCancels = true) : l.inRound = true := by
  cases l <;> first | rfl | cases h

section Callers

variable {c : Nat} {call : Call Req}

/-- A call that is not about to write covers nothing. -/
def Call.silent : Call Req → Bool
  | .wakeRequest _ | .wakeCancel _ | .wakeStop => false
  | _ => true

theorem Outstanding.callNext {other : Call Req} (h : Outstanding s other) (hsilent : (s.calls c).silent = true)
    (hother : other.silent = false) : Outstanding (callNext s c call) other := by
  obtain ⟨c', hc'⟩ := h
  refine ⟨c', ?_⟩
  have hne : c' ≠ c := by
    rintro rfl
    rw [hc', hother] at hsilent
    cases hsilent
  exact (update_of_ne hne _ _).trans hc'

theorem outstanding_callNext : Outstanding (callNext s c call) call := ⟨c, update_self _ _ _⟩

section

variable (h : Covers s) (hsilent : (s.calls c).silent = true)
include h hsilent

/-- A caller's line that announces nothing. -/
theorem Covers.silent : Covers (callNext s c call) where
  stop hline hstop := (h.stop hline hstop).imp_right fun hout => hout.callNext hsilent rfl
  cancels hline id hid := (h.cancels hline id hid).imp_right fun hout => hout.callNext hsilent rfl
  requests hline r hr := (h.requests hline r hr).imp_right fun hout => hout.callNext hsilent rfl

theorem Covers.append {req : Req} {accepted : List Req} :
    Covers (callNext { s with deque := s.deque ++ [req], accepted := accepted } c (.wakeRequest req)) where
  stop hline hstop := (h.stop hline hstop).imp_right fun hout => hout.callNext hsilent rfl
  cancels hline id hid := (h.cancels hline id hid).imp_right fun hout => hout.callNext hsilent rfl
  requests hline r hr := by
    rcases mem_append.mp hr with hr | hr
    · exact (h.requests hline r hr).imp_right fun hout => hout.callNext hsilent rfl
    · rw [mem_singleton.mp hr]
      exact .inr outstanding_callNext

theorem Covers.cancel {id : Req} :
    Covers (callNext { s with cancelSet := s.cancelSet ++ [id] } c (.wakeCancel id)) where
  stop hline hstop := (h.stop hline hstop).imp_right fun hout => hout.callNext hsilent rfl
  cancels hline id' hid := by
    rcases mem_append.mp hid with hid | hid
    · exact (h.cancels hline id' hid).imp_right fun hout => hout.callNext hsilent rfl
    · rw [mem_singleton.mp hid]
      exact .inr outstanding_callNext
  requests hline r hr := (h.requests hline r hr).imp_right fun hout => hout.callNext hsilent rfl

theorem Covers.stopped : Covers (callNext { s with stop := true } c .wakeStop) where
  stop _ _ := .inr outstanding_callNext
  cancels hline id hid := (h.cancels hline id hid).imp_right fun hout => hout.callNext hsilent rfl
  requests hline r hr := (h.requests hline r hr).imp_right fun hout => hout.callNext hsilent rfl

end

theorem Covers.write (cfg : Config) : Covers (callNext (wake cfg s) c .idle) := by
  have hpipe : 0 < min (s.pipe + 1) cfg.pipeCapacity := Nat.lt_min.mpr ⟨Nat.succ_pos _, cfg.pipe_pos⟩
  exact ⟨fun _ _ => .inl hpipe, fun _ _ _ => .inl hpipe, fun _ _ _ => .inl hpipe⟩

end Callers

/-- A line of the engine that leaves the pipe and the callers alone and looks away from nothing. -/
structure Steady (s s' : State Req) : Prop where
  calls : s'.calls = s.calls
  pipe : s'.pipe = s.pipe
  stop : s'.line.inRound = true → s'.stop = s.stop ∧ s.line.inRound = true
  cancels : s'.line.afterCancels = true → s'.cancelSet = s.cancelSet ∧ s.line.afterCancels = true
  requests : s'.line = .read → s'.deque = []

theorem Steady.covered (h : Steady s s') {call : Call Req} (hcovered : Covered s call) : Covered s' call := by
  unfold Covered Outstanding
  rw [h.calls, h.pipe]
  exact hcovered

theorem Covers.steady (h : Covers s) (hsteady : Steady s s') : Covers s' where
  stop hline hstop := by
    obtain ⟨hsame, hround⟩ := hsteady.stop hline
    exact hsteady.covered (h.stop hround (hsame ▸ hstop))
  cancels hline id hid := by
    obtain ⟨hsame, hround⟩ := hsteady.cancels hline
    exact hsteady.covered (h.cancels hround id (hsame ▸ hid))
  requests hline r hr := by
    rw [hsteady.requests hline] at hr
    exact absurd hr not_mem_nil

/-- Behind the copy of the cancel set the engine moves on in the round, or leaves it. -/
theorem Covers.move (h : Covers s) (hline : s.line.afterCancels = true) (hcalls : s'.calls = s.calls)
    (hpipe : s'.pipe = s.pipe) (hstop : s'.stop = s.stop) (hcancels : s'.cancelSet = s.cancelSet)
    (hread : s'.line ≠ .read) : Covers s' :=
  h.steady
    { calls := hcalls
      pipe := hpipe
      stop := fun _ => ⟨hstop, Line.inRound_of_afterCancels hline⟩
      cancels := fun _ => ⟨hcancels, hline⟩
      requests := fun hr => absurd hr hread }

/-- A line from which the loop looks at everything again. -/
theorem covers_of_outside (hline : s.line.inRound = false) : Covers s where
  stop hround _ := nomatch hline.symm.trans hround
  cancels hround _ _ := nomatch hline.symm.trans (Line.inRound_of_afterCancels hround)
  requests hread _ _ := by
    rw [hread] at hline
    cases hline

/-- A drain of the pipe in front of the copy of the cancel set. -/
theorem Covers.drained (hline : s'.line.afterCancels = false) (hstop : s'.stop = true → Outstanding s' .wakeStop) :
    Covers s' where
  stop _ h := .inr (hstop h)
  cancels hround _ _ := nomatch hline.symm.trans hround
  requests hread _ _ := by
    rw [hread] at hline
    cases hline

variable [DecidableEq Req]

theorem dropCancelled_frame (ids : List Req) (s : State Req) :
    (dropCancelled ids s).calls = s.calls ∧ (dropCancelled ids s).pipe = s.pipe ∧
      (dropCancelled ids s).stop = s.stop ∧ (dropCancelled ids s).cancelSet = s.cancelSet := by
  unfold dropCancelled
  dsimp only
  split_ifs <;> exact ⟨rfl, rfl, rfl, rfl⟩

/-- No drain in front of the copy of the cancel set takes the byte of a stop. -/
def KeepsStop (s : State Req) : Op Req → Prop
  | .engine => s.line = .drainPipe ∨ s.line = .coalescePipe → s.stop = true → Outstanding s .wakeStop
  | _ => True

theorem Covers.engine (h : Covers s) (hkeeps : KeepsStop s .engine) (hnext : engineNext cfg s = some s') :
    Covers s' := by
  unfold engineNext at hnext
  cases hline : s.line with
  | head =>
    simp only [hline] at hnext
    obtain rfl := Option.some.inj hnext
    by_cases hstop : s.stop = true
    · exact covers_of_outside (by simp only [hstop, if_true]; rfl)
    · apply Covers.drained
      · simp only [hstop]
        rfl
      · exact fun hset => absurd hset hstop
  | drainRequests | coalesceRequests =>
    simp only [hline] at hnext
    obtain rfl := Option.some.inj hnext
    exact h.steady ⟨rfl, rfl, fun _ => ⟨rfl, by rw [hline]; rfl⟩, nofun, nofun⟩
  | drainPipe =>
    simp only [hline] at hnext
    obtain rfl := Option.some.inj hnext
    apply Covers.drained
    · dsimp only
      split_ifs <;> rfl
    · exact hkeeps (.inl hline)
  | coalescePipe =>
    simp only [hline] at hnext
    obtain rfl := Option.some.inj hnext
    exact Covers.drained rfl (hkeeps (.inr hline))
  | takeCancels =>
    simp only [hline] at hnext
    obtain rfl := Option.some.inj hnext
    constructor
    · exact fun _ hstop => h.stop (by rw [hline]; rfl) hstop
    · exact fun _ id hid => absurd hid not_mem_nil
    · intro hread
      dsimp only at hread
      split_ifs at hread
  | dropCancelled ids =>
    simp only [hline] at hnext
    obtain rfl := Option.some.inj hnext
    obtain ⟨hcalls, hpipe, hstop, hcancels⟩ := dropCancelled_frame ids s
    exact h.move (by rw [hline]; rfl) hcalls hpipe hstop hcancels nofun
  | prefill =>
    simp only [hline] at hnext
    obtain ⟨-, rfl⟩ := eq_of_guard hnext
    exact h.move (by rw [hline]; rfl) rfl rfl rfl rfl nofun
  | activatePrefill batch | activate batch =>
    cases batch with
    | nil =>
      simp only [hline] at hnext
      obtain rfl := Option.some.inj hnext
      exact h.move (by rw [hline]; rfl) rfl rfl rfl rfl nofun
    | cons r rest =>
      simp only [hline] at hnext
      cases hnext
  | idle =>
    simp only [hline] at hnext
    obtain rfl := Option.some.inj hnext
    split_ifs
    · exact h.move (by rw [hline]; rfl) rfl rfl rfl rfl nofun
    · exact covers_of_outside rfl
    · exact covers_of_outside rfl
  | redrain =>
    simp only [hline] at hnext
    obtain rfl := Option.some.inj hnext
    split_ifs
    · exact h.steady ⟨rfl, rfl, fun _ => ⟨rfl, by rw [hline]; rfl⟩, fun _ => ⟨rfl, by rw [hline]; rfl⟩, fun _ => rfl⟩
    · exact covers_of_outside rfl
  | read =>
    simp only [hline] at hnext
    obtain ⟨-, heq⟩ := Option.ite_none_left_eq_some.mp hnext
    obtain rfl := Option.some.inj heq
    exact covers_of_outside rfl
  | woken =>
    simp only [hline] at hnext
    obtain rfl := Option.some.inj hnext
    split_ifs <;> exact covers_of_outside rfl
  | wokenRequests | wokenPipe | setStop | failFatal | final =>
    simp only [hline] at hnext
    obtain rfl := Option.some.inj hnext
    exact covers_of_outside rfl
  | raised fatal =>
    cases fatal <;>
    · simp only [hline] at hnext
      obtain rfl := Option.some.inj hnext
      exact covers_of_outside rfl
  | loadModel | coalesceWait | warm | admission | prefillBegin | decode | exited =>
    simp only [hline] at hnext
    cases hnext

theorem Covers.next {op : Op Req} (h : Covers s) (hkeeps : KeepsStop s op) (hnext : next cfg s op = some s') :
    Covers s' := by
  cases op with
  | enqueue c req =>
    obtain ⟨⟨hidle, -⟩, rfl⟩ := eq_of_guard hnext
    exact h.silent (by rw [hidle]; rfl)
  | readStop c =>
    obtain ⟨req, hcall, rfl⟩ := next_readStop hnext
    exact h.silent (by rw [hcall]; rfl)
  | append c =>
    obtain ⟨req, hcall, -, ⟨-, rfl⟩ | ⟨-, rfl⟩⟩ := next_append hnext
    · exact h.silent (by rw [hcall]; rfl)
    · exact h.append (by rw [hcall]; rfl)
  | cancel c id =>
    obtain ⟨hidle, rfl⟩ := eq_of_guard hnext
    exact h.cancel (by rw [hidle]; rfl)
  | stop c =>
    obtain ⟨hidle, rfl⟩ := eq_of_guard hnext
    exact h.stopped (by rw [hidle]; rfl)
  | write c =>
    obtain rfl := next_write hnext
    exact Covers.write cfg
  | load ok =>
    obtain ⟨-, rfl⟩ := eq_of_guard hnext
    cases ok <;> exact covers_of_outside rfl
  | engine => exact h.engine hkeeps hnext
  | readable =>
    obtain ⟨⟨hline, -⟩, rfl⟩ := eq_of_guard hnext
    exact h.steady ⟨rfl, rfl, fun _ => ⟨rfl, by rw [hline]; rfl⟩, nofun, nofun⟩
  | timeout =>
    obtain ⟨hline, rfl⟩ := eq_of_guard hnext
    exact h.steady ⟨rfl, rfl, fun _ => ⟨rfl, by rw [hline]; rfl⟩, nofun, nofun⟩
  | warmTake _ | prefillGoesOn | prefillDone | select _ =>
    obtain ⟨⟨hline, -⟩, rfl⟩ := eq_of_guard hnext
    exact h.move (by rw [hline]; rfl) rfl rfl rfl rfl nofun
  | warmBack =>
    obtain ⟨batch, hline, rfl⟩ := next_warmBack hnext
    exact h.move (by rw [hline]; rfl) rfl rfl rfl rfl nofun
  | warmEnds | skipAdmission =>
    obtain ⟨hline, rfl⟩ := eq_of_guard hnext
    exact h.move (by rw [hline]; rfl) rfl rfl rfl rfl nofun
  | prefillFails fatal =>
    obtain ⟨⟨hline, -⟩, rfl⟩ := eq_of_guard hnext
    exact h.move (by rw [hline]; rfl) rfl rfl rfl rfl (by cases fatal <;> nofun)
  | defer kept =>
    obtain ⟨batch, hline, rfl⟩ := next_defer hnext
    exact h.move (by rw [hline]; rfl) rfl rfl rfl rfl nofun
  | beginFails fatal =>
    obtain ⟨batch, hline, rfl⟩ := next_beginFails hnext
    exact h.move (by rw [hline]; rfl) rfl rfl rfl rfl (by cases fatal <;> nofun)
  | beginLong =>
    obtain ⟨batch, hline, rfl⟩ := next_beginLong hnext
    exact h.move (by rw [hline]; rfl) rfl rfl rfl rfl nofun
  | beginDone =>
    obtain ⟨batch, hline, rfl⟩ := next_beginDone hnext
    exact h.move (by rw [hline]; rfl) rfl rfl rfl rfl nofun
  | activate finished =>
    obtain ⟨r, rest, ⟨hline, rfl⟩ | ⟨hline, rfl⟩ | ⟨hline, rfl⟩⟩ := next_activate hnext
    all_goals cases finished <;> exact h.move (by rw [hline]; rfl) rfl rfl rfl rfl nofun
  | decode _ | raise _ =>
    obtain ⟨-, rfl⟩ := eq_of_guard hnext
    exact covers_of_outside rfl

omit [DecidableEq Req] in
theorem covers_start : Covers (start : State Req) := covers_of_outside rfl

/-- While the drains of the rounds leave the byte of a stop alone, no wake-up is lost. -/
theorem noLostWakeup_of_run (cfg : Config) (ops : List (Op Req)) (s : State Req)
    (hkeeps : Along (next cfg) KeepsStop start ops) (hrun : run (next cfg) start ops = some s) :
    NoLostWakeup s := by
  have hstep : ∀ (s₁ : State Req) (op : Op Req) (s₂ : State Req), Covers s₁ → KeepsStop s₁ op →
      next cfg s₁ op = some s₂ → Covers s₂ :=
    fun _ _ _ h hkeeps hnext => h.next hkeeps hnext
  exact (invariant_of_steps hstep covers_start hkeeps hrun).noLostWakeup

theorem pipe_pos : 0 < 65536 := by decide

def idleServer : Config where
  capacity := 4
  maxPendingRequests := 8
  coalesce := true
  pipeCapacity := 65536
  pipe_pos := pipe_pos

/-- From the head of the loop to the blocking read, with nothing to do. -/
def idleRound : List (Op Nat) :=
  [.engine, .engine, .engine, .engine, .timeout, .engine, .warmEnds, .engine, .skipAdmission, .engine, .engine]

def lateAppend : List (Op Nat) := .load true :: idleRound ++ [.enqueue 0 7, .readStop 0, .append 0]

/-- A request between its append and its byte: the engine waits for the byte. -/
theorem noLostWakeup_of_run_lateAppend :
    ∃ s, run (next idleServer) start lateAppend = some s ∧ s.line = .read ∧ s.pipe = 0 ∧ s.deque = [7] ∧
      NoLostWakeup s := by
  have hstop : Along (next idleServer) (fun (s : State Nat) _ => s.stop = false) start lateAppend := by decide
  have hkeeps : Along (next idleServer) KeepsStop start lateAppend := by
    have hQ : ∀ (s : State Nat) op, True → s.stop = false → KeepsStop s op := by
      intro s op _ hs
      cases op with
      | engine => exact fun _ hset => nomatch hs.symm.trans hset
      | _ => exact trivial
    exact along_of_steps (fun _ _ _ _ _ _ => trivial) hQ trivial hstop
  exact ⟨_, rfl, rfl, rfl, rfl, noLostWakeup_of_run idleServer lateAppend _ hkeeps rfl⟩

/-- A stop between the head of the loop and the first drain of the pipe. -/
def swallowedStop : List (Op Nat) :=
  [.load true, .engine, .stop 0, .write 0] ++ idleRound.tail

theorem stop_swallowed :
    ∃ s, run (next idleServer) start swallowedStop = some s ∧ s.line = .read ∧ s.pipe = 0 ∧ s.stop = true ∧
      (∀ c, s.calls c = .idle) ∧ next idleServer s .engine = none ∧ ¬ NoLostWakeup s := by
  refine ⟨_, rfl, rfl, rfl, rfl, ?_, rfl, ?_⟩
  · intro c
    cases c <;> rfl
  · intro h
    obtain ⟨c, hc⟩ := (h rfl rfl).2.2 rfl
    cases c <;> cases hc

end EngineThread
