import BlackweLLM.EngineThread

/-!
# What is left when the engine thread has exited

Every accepted request is settled or lies where some thread can still reach it:
in the deque, `waiting`, the pending prefill, `active`, or the local of the line
that moves it. The last cleanup of the thread reaches the first three. The
condition on the steps names what it does not reach.
-/

namespace EngineThread

open List StepRun

variable {Req : Type} {cfg : Config} {s s' : State Req} {r : Req}

/-- Behind the exit of the engine thread every accepted request was completed or failed. -/
def NothingStranded (s : State Req) : Prop :=
  s.line = .exited → s.deque = [] ∧ ∀ r ∈ s.accepted, r ∈ s.settled

/-- The requests that only a local of the engine thread holds. -/
def Line.batch : Line Req → List Req
  | .warm batch | .prefillBegin batch | .activate batch => batch
  | _ => []

def Held (s : State Req) (r : Req) : Prop :=
  r ∈ s.settled ∨ r ∈ s.deque ∨ r ∈ s.waiting ∨ r ∈ s.pendingPrefill ∨ r ∈ s.active ∨ r ∈ s.line.batch

structure Accounted (s : State Req) : Prop where
  held : ∀ r ∈ s.accepted, Held s r
  loading : s.line = .loadModel → s.waiting = [] ∧ s.pendingPrefill = [] ∧ s.active = []
  placed : ∀ batch, s.line = .activatePrefill batch →
    ∀ r ∈ s.pendingPrefill, r ∈ batch ∨ r ∈ s.active ∨ r ∈ s.settled
  begun : ∀ batch, s.line = .prefillBegin batch → s.pendingPrefill = []
  final : s.line = .final → s.active = []
  exited : NothingStranded s

/-- The lines at which only the requests have to be found again. -/
def Line.plain : Line Req → Bool
  | .loadModel | .activatePrefill _ | .prefillBegin _ | .final | .exited => false
  | _ => true

theorem Accounted.plain (h : Accounted s) (hline : s'.line.plain = true) (haccepted : s'.accepted = s.accepted)
    (hheld : ∀ r, Held s r → Held s' r) : Accounted s' where
  held r hr := hheld r (h.held r (haccepted ▸ hr))
  loading hload := by
    rw [hload] at hline
    cases hline
  placed _ hplaced := by
    rw [hplaced] at hline
    cases hline
  begun _ hbegun := by
    rw [hbegun] at hline
    cases hline
  final hfinal := by
    rw [hfinal] at hline
    cases hline
  exited hexited := by
    rw [hexited] at hline
    cases hline

/-- The line of `prefill_chunked_begin`, which starts the next pending prefill. -/
theorem Accounted.beginning {batch : List Req} (h : Accounted s) (hline : s'.line = .prefillBegin batch)
    (hpending : s'.pendingPrefill = []) (haccepted : s'.accepted = s.accepted) (hheld : ∀ r, Held s r → Held s' r) :
    Accounted s' where
  held r hr := hheld r (h.held r (haccepted ▸ hr))
  loading hload := nomatch hline.symm.trans hload
  placed _ hplaced := nomatch hline.symm.trans hplaced
  begun _ _ := hpending
  final hfinal := nomatch hline.symm.trans hfinal
  exited hexited := nomatch hline.symm.trans hexited

/-- A caller's line that takes no request. -/
theorem Accounted.caller (h : Accounted s) (hline : s'.line = s.line) (haccepted : s'.accepted = s.accepted)
    (hdeque : s'.deque = s.deque) (hwaiting : s'.waiting = s.waiting) (hpending : s'.pendingPrefill = s.pendingPrefill)
    (hactive : s'.active = s.active) (hsettled : s'.settled = s.settled) : Accounted s' := by
  constructor
  · unfold Held
    rw [hline, haccepted, hdeque, hwaiting, hpending, hactive, hsettled]
    exact h.held
  · rw [hline, hwaiting, hpending, hactive]
    exact h.loading
  · rw [hline, hpending, hactive, hsettled]
    exact h.placed
  · rw [hline, hpending]
    exact h.begun
  · rw [hline, hactive]
    exact h.final
  · unfold NothingStranded
    rw [hline, haccepted, hdeque, hsettled]
    exact h.exited

section

variable {line : Line Req} (h : Held s r) (hbatch : s.line.batch = [])
include h hbatch

/-- A drain of the deque moves its requests to `waiting`. -/
theorem held_drainRequests : Held { drainRequests s with line := line } r := by
  unfold Held drainRequests at *
  rw [hbatch] at h
  grind

/-- Another line with the same requests. -/
theorem held_line {stop fatal : Bool} {pipe : Nat} {cancelSet : List Req} :
    Held { s with line := line, stop := stop, fatal := fatal, pipe := pipe, cancelSet := cancelSet } r := by
  unfold Held at *
  rw [hbatch] at h
  grind

/-- The cleanup of a failed round leaves only what a local holds. -/
theorem held_failRound : Held { failPendingRequests (failActive s) with line := line } r := by
  unfold Held failPendingRequests failActive settle at *
  rw [hbatch] at h
  grind

end

theorem settled_failPendingRequests (h : Held s r) (hbatch : s.line.batch = []) (hactive : s.active = []) :
    r ∈ (failPendingRequests s).settled := by
  unfold Held failPendingRequests settle at *
  rw [hbatch, hactive] at h
  grind

/-- The deque takes a request while the thread still runs. -/
theorem Accounted.append {c : Nat} {req : Req} (h : Accounted s) (hline : s.line ≠ .exited) :
    Accounted
      (callNext { s with deque := s.deque ++ [req], accepted := s.accepted ++ [req] } c (.wakeRequest req)) where
  held r hr := by
    rcases mem_append.mp hr with hr | hr
    · have hheld := h.held r hr
      unfold Held callNext at *
      grind
    · exact .inr (.inl (mem_append_right _ hr))
  __ := h
  exited hexited := absurd hexited hline

theorem accounted_start : Accounted (start : State Req) where
  held := nofun
  loading _ := ⟨rfl, rfl, rfl⟩
  placed := nofun
  begun := nofun
  final _ := rfl
  exited := nofun

variable [DecidableEq Req]

/-- The steps that leave no request behind: no append behind the last cleanup, no graceful stop with
active requests, no failed load with queued ones, and no exception over a request that only a local holds. -/
def LeavesNone (cfg : Config) (s : State Req) : Op Req → Prop
  | .append _ => s.line = .exited → cfg.maxPendingRequests ≤ requestCount s
  | .engine => s.line = .head → s.stop = true → s.active = []
  | .load ok => ok = false → s.deque = []
  | .raise _ => s.line.batch = []
  | _ => True

theorem held_dropCancelled {ids : List Req} (h : Held s r) (hbatch : s.line.batch = []) :
    Held { dropCancelled ids s with line := .warm [] } r := by
  unfold Held dropCancelled settle at *
  rw [hbatch] at h
  dsimp only
  split_ifs <;> grind

theorem Accounted.engine (h : Accounted s) (hleaves : LeavesNone cfg s .engine) (hnext : engineNext cfg s = some s') :
    Accounted s' := by
  unfold engineNext at hnext
  cases hline : s.line with
  | head =>
    simp only [hline] at hnext
    obtain rfl := Option.some.inj hnext
    have hbatch : s.line.batch = [] := by
      rw [hline]
      rfl
    by_cases hstop : s.stop = true
    · rw [if_pos hstop]
      constructor
      · exact fun r hr => held_line (h.held r hr) hbatch
      · exact nofun
      · exact nofun
      · exact nofun
      · exact fun _ => hleaves hline hstop
      · exact nofun
    · rw [if_neg hstop]
      exact h.plain rfl rfl fun r hr => held_line hr hbatch
  | drainRequests | coalesceRequests | wokenRequests =>
    simp only [hline] at hnext
    obtain rfl := Option.some.inj hnext
    exact h.plain rfl rfl fun r hr => held_drainRequests hr (by rw [hline]; rfl)
  | drainPipe | coalescePipe | takeCancels | woken | wokenPipe | setStop =>
    simp only [hline] at hnext
    obtain rfl := Option.some.inj hnext
    apply h.plain
    · dsimp only
      try split_ifs
      all_goals rfl
    · rfl
    · exact fun r hr => held_line hr (by rw [hline]; rfl)
  | dropCancelled ids =>
    simp only [hline] at hnext
    obtain rfl := Option.some.inj hnext
    apply h.plain rfl
    · unfold dropCancelled settle
      dsimp only
      split_ifs <;> rfl
    · exact fun r hr => held_dropCancelled hr (by rw [hline]; rfl)
  | prefill =>
    simp only [hline] at hnext
    obtain ⟨-, rfl⟩ := eq_of_guard hnext
    exact h.plain rfl rfl fun r hr => held_line hr (by rw [hline]; rfl)
  | activatePrefill batch =>
    cases batch with
    | nil =>
      simp only [hline] at hnext
      obtain rfl := Option.some.inj hnext
      have hplaced := h.placed [] hline
      refine h.plain rfl rfl fun r hr => ?_
      simp only [Held, hline, Line.batch] at hr ⊢
      grind
    | cons r rest =>
      simp only [hline] at hnext
      cases hnext
  | activate batch =>
    cases batch with
    | nil =>
      simp only [hline] at hnext
      obtain rfl := Option.some.inj hnext
      exact h.plain rfl rfl fun r hr => held_line hr (by rw [hline]; rfl)
    | cons r rest =>
      simp only [hline] at hnext
      cases hnext
  | idle =>
    simp only [hline] at hnext
    obtain rfl := Option.some.inj hnext
    split_ifs <;> exact h.plain rfl rfl fun r hr => held_line hr (by rw [hline]; rfl)
  | redrain =>
    simp only [hline] at hnext
    obtain rfl := Option.some.inj hnext
    split_ifs <;> exact h.plain rfl rfl fun r hr => held_drainRequests hr (by rw [hline]; rfl)
  | read =>
    simp only [hline] at hnext
    obtain ⟨-, heq⟩ := Option.ite_none_left_eq_some.mp hnext
    obtain rfl := Option.some.inj heq
    exact h.plain rfl rfl fun r hr => held_line hr (by rw [hline]; rfl)
  | raised fatal =>
    cases fatal with
    | false =>
      simp only [hline] at hnext
      obtain rfl := Option.some.inj hnext
      exact h.plain rfl rfl fun r hr => held_failRound hr (by rw [hline]; rfl)
    | true =>
      simp only [hline] at hnext
      obtain rfl := Option.some.inj hnext
      exact h.plain rfl rfl fun r hr => held_line hr (by rw [hline]; rfl)
  | failFatal =>
    simp only [hline] at hnext
    obtain rfl := Option.some.inj hnext
    constructor
    · exact fun r hr => held_failRound (h.held r hr) (by rw [hline]; rfl)
    · exact nofun
    · exact nofun
    · exact nofun
    · exact fun _ => rfl
    · exact nofun
  | final =>
    simp only [hline] at hnext
    obtain rfl := Option.some.inj hnext
    have hsettled : ∀ r ∈ s.accepted, r ∈ (failPendingRequests s).settled := fun r hr =>
      settled_failPendingRequests (h.held r hr) (by rw [hline]; rfl) (h.final hline)
    constructor
    · exact fun r hr => .inl (hsettled r hr)
    · exact nofun
    · exact nofun
    · exact nofun
    · exact nofun
    · exact fun _ => ⟨rfl, hsettled⟩
  | loadModel | coalesceWait | warm | admission | prefillBegin | decode | exited =>
    simp only [hline] at hnext
    cases hnext

theorem Accounted.activate {finished : Bool} (h : Accounted s) (hnext : next cfg s (.activate finished) = some s') :
    Accounted s' := by
  obtain ⟨r, rest, ⟨hline, rfl⟩ | ⟨hline, rfl⟩ | ⟨hline, rfl⟩⟩ := next_activate hnext
  · cases finished <;>
    · refine h.plain rfl rfl fun r' hr => ?_
      simp only [Held, hline, Line.batch, place, settle] at hr ⊢
      grind
  · have hplaced := h.placed _ hline
    have haccepted : (place finished r s).accepted = s.accepted := by cases finished <;> rfl
    constructor
    · intro r' hr
      have hheld := h.held r' (haccepted ▸ hr)
      simp only [Held, hline, Line.batch] at hheld ⊢
      cases finished <;> grind [place, settle]
    · exact nofun
    · rintro batch ⟨⟩ r' hr
      cases finished <;> grind [place, settle]
    · exact nofun
    · exact nofun
    · exact nofun
  · cases finished <;>
    · refine h.plain rfl rfl fun r' hr => ?_
      simp only [Held, hline, Line.batch, place, settle] at hr ⊢
      grind

theorem Accounted.next {op : Op Req} (h : Accounted s) (hleaves : LeavesNone cfg s op)
    (hnext : next cfg s op = some s') : Accounted s' := by
  cases op with
  | enqueue _ _ | cancel _ _ | stop _ =>
    obtain ⟨-, rfl⟩ := eq_of_guard hnext
    exact h.caller rfl rfl rfl rfl rfl rfl rfl
  | readStop c =>
    obtain ⟨req, -, rfl⟩ := next_readStop hnext
    exact h.caller rfl rfl rfl rfl rfl rfl rfl
  | append c =>
    obtain ⟨req, -, -, ⟨-, rfl⟩ | ⟨hroom, rfl⟩⟩ := next_append hnext
    · exact h.caller rfl rfl rfl rfl rfl rfl rfl
    · exact h.append fun hline => absurd (hleaves hline) (Nat.not_le_of_lt hroom)
  | write c =>
    obtain rfl := next_write hnext
    exact h.caller rfl rfl rfl rfl rfl rfl rfl
  | load ok =>
    obtain ⟨hline, rfl⟩ := eq_of_guard hnext
    have hbatch : s.line.batch = [] := by
      rw [hline]
      rfl
    cases ok with
    | true => exact h.plain rfl rfl fun r hr => held_line hr hbatch
    | false =>
      obtain ⟨hwaiting, hpending, hactive⟩ := h.loading hline
      have hdeque : s.deque = [] := hleaves rfl
      have hsettled : ∀ r ∈ s.accepted, r ∈ s.settled := by
        intro r hr
        have hheld := h.held r hr
        simpa [Held, hwaiting, hpending, hactive, hdeque, hbatch] using hheld
      constructor
      · exact fun r hr => .inl (hsettled r hr)
      · exact nofun
      · exact nofun
      · exact nofun
      · exact nofun
      · exact fun _ => ⟨hdeque, hsettled⟩
  | engine => exact h.engine hleaves hnext
  | readable | prefillGoesOn =>
    obtain ⟨⟨hline, -⟩, rfl⟩ := eq_of_guard hnext
    exact h.plain rfl rfl fun r hr => held_line hr (by rw [hline]; rfl)
  | timeout | warmEnds | skipAdmission =>
    obtain ⟨hline, rfl⟩ := eq_of_guard hnext
    exact h.plain rfl rfl fun r hr => held_line hr (by rw [hline]; rfl)
  | warmTake req =>
    obtain ⟨⟨hline, hreq⟩, rfl⟩ := eq_of_guard hnext
    refine h.plain rfl rfl fun r hr => ?_
    simp only [Held, hline, Line.batch] at hr ⊢
    by_cases hsame : r = req
    · grind
    · have herase : r ∈ s.waiting.erase req ↔ r ∈ s.waiting := mem_erase_of_ne hsame
      grind
  | warmBack =>
    obtain ⟨batch, hline, rfl⟩ := next_warmBack hnext
    refine h.plain rfl rfl fun r hr => ?_
    simp only [Held, hline, Line.batch] at hr ⊢
    grind
  | prefillFails fatal =>
    obtain ⟨⟨hline, -⟩, rfl⟩ := eq_of_guard hnext
    cases fatal <;>
    · refine h.plain rfl rfl fun r hr => ?_
      simp only [Held, hline, Line.batch, settle] at hr ⊢
      grind
  | prefillDone =>
    obtain ⟨⟨hline, -⟩, rfl⟩ := eq_of_guard hnext
    constructor
    · exact fun r hr => held_line (h.held r hr) (by rw [hline]; rfl)
    · exact nofun
    · rintro batch ⟨⟩ r hr
      exact .inl hr
    · exact nofun
    · exact nofun
    · exact nofun
  | select batch =>
    obtain ⟨⟨hline, hpending, -⟩, rfl⟩ := eq_of_guard hnext
    refine h.beginning rfl hpending rfl fun r hr => ?_
    simp only [Held, hline, Line.batch] at hr ⊢
    by_cases hr : r ∈ batch <;> grind
  | defer kept =>
    obtain ⟨batch, hline, rfl⟩ := next_defer hnext
    refine h.beginning rfl (h.begun batch hline) rfl fun r hr => ?_
    have hsplit : r ∈ batch ↔ r ∈ batch.take kept ∨ r ∈ batch.drop kept := by
      rw [← mem_append, take_append_drop]
    simp only [Held, hline, Line.batch] at hr ⊢
    grind
  | beginFails fatal =>
    obtain ⟨batch, hline, rfl⟩ := next_beginFails hnext
    cases fatal <;>
    · refine h.plain rfl rfl fun r hr => ?_
      simp only [Held, hline, Line.batch, settle] at hr ⊢
      grind
  | beginLong =>
    obtain ⟨batch, hline, rfl⟩ := next_beginLong hnext
    refine h.plain rfl rfl fun r hr => ?_
    simp only [Held, hline, h.begun batch hline, Line.batch] at hr ⊢
    grind
  | beginDone =>
    obtain ⟨batch, hline, rfl⟩ := next_beginDone hnext
    refine h.plain rfl rfl fun r hr => ?_
    simp only [Held, hline, Line.batch] at hr ⊢
    grind
  | activate finished => exact h.activate hnext
  | decode finished =>
    obtain ⟨hline, rfl⟩ := eq_of_guard hnext
    refine h.plain rfl rfl fun r hr => ?_
    simp only [Held, hline, Line.batch, settle] at hr ⊢
    grind
  | raise fatal =>
    obtain ⟨-, rfl⟩ := eq_of_guard hnext
    exact h.plain rfl rfl fun r hr => held_line hr hleaves

/-- A thread whose steps leave no request behind exits with every accepted request answered. -/
theorem nothingStranded_of_run (cfg : Config) (ops : List (Op Req)) (s : State Req)
    (hleaves : Along (next cfg) (LeavesNone cfg) start ops) (hrun : run (next cfg) start ops = some s) :
    NothingStranded s := by
  have hstep : ∀ (s₁ : State Req) (op : Op Req) (s₂ : State Req), Accounted s₁ → LeavesNone cfg s₁ op →
      next cfg s₁ op = some s₂ → Accounted s₂ :=
    fun _ _ _ h hleaves hnext => h.next hleaves hnext
  exact (invariant_of_steps hstep accounted_start hleaves hrun).exited

instance decidableLeavesNone (cfg : Config) (s : State Req) : (op : Op Req) → Decidable (LeavesNone cfg s op)
  | .append _ => inferInstanceAs (Decidable (s.line = .exited → cfg.maxPendingRequests ≤ requestCount s))
  | .engine => inferInstanceAs (Decidable (s.line = .head → s.stop = true → s.active = []))
  | .load ok => inferInstanceAs (Decidable (ok = false → s.deque = []))
  | .raise _ => inferInstanceAs (Decidable (s.line.batch = []))
  | .enqueue .. | .readStop _ | .cancel .. | .stop _ | .write _ | .readable | .timeout | .warmTake _ | .warmBack
  | .warmEnds | .prefillGoesOn | .prefillFails _ | .prefillDone | .skipAdmission | .select _ | .defer _
  | .beginFails _ | .beginLong | .beginDone | .activate _ | .decode _ => isTrue trivial

def oneSlotServer : Config where
  capacity := 1
  maxPendingRequests := 8
  coalesce := false
  pipeCapacity := 65536
  pipe_pos := by decide

def acceptOne : List (Op Nat) := [.enqueue 0 7, .readStop 0, .append 0, .write 0, .load true]

def selectOne : List (Op Nat) :=
  [.engine, .engine, .engine, .engine, .warmEnds, .engine, .select [7]]

def servedRun : List (Op Nat) :=
  acceptOne ++ selectOne ++ [.beginDone, .activate false, .engine, .engine, .decode [7], .stop 1, .write 1, .engine,
    .engine]

theorem nothingStranded_of_run_served :
    ∃ s, run (next oneSlotServer) start servedRun = some s ∧ s.line = .exited ∧ s.accepted = [7] ∧
      NothingStranded s :=
  ⟨_, rfl, rfl, rfl, nothingStranded_of_run oneSlotServer servedRun _ (by decide) rfl⟩

/-- The request passes both checks, and the thread exits before it is appended. -/
def appendBehindExit : List (Op Nat) :=
  [.load true, .enqueue 0 7, .readStop 0, .stop 1, .engine, .engine, .append 0, .write 0, .write 1]

def stopWhileActive : List (Op Nat) :=
  acceptOne ++ selectOne ++ [.beginDone, .activate false, .engine, .stop 1, .engine, .decode [], .engine, .engine]

/-- `_activate_slot` raises, and the server is stopped later. -/
def raiseWhileActivating : List (Op Nat) :=
  acceptOne ++ selectOne ++ [.beginDone, .raise false, .engine, .stop 1, .engine, .engine]

theorem stranded :
    (∃ s, run (next oneSlotServer) start appendBehindExit = some s ∧ s.deque = [7] ∧ ¬ NothingStranded s) ∧
      (∃ s, run (next oneSlotServer) start stopWhileActive = some s ∧ s.active = [7] ∧ ¬ NothingStranded s) ∧
      ∃ s, run (next oneSlotServer) start raiseWhileActivating = some s ∧ s.accepted = [7] ∧ s.settled = [] ∧
        ¬ NothingStranded s := by
  refine ⟨⟨_, rfl, rfl, ?_⟩, ⟨_, rfl, rfl, ?_⟩, ⟨_, rfl, rfl, rfl, ?_⟩⟩
  · exact fun h => nomatch (h rfl).1
  · exact fun h => nomatch (h rfl).2 7 (mem_singleton_self 7)
  · exact fun h => nomatch (h rfl).2 7 (mem_singleton_self 7)

end EngineThread
