import BlackweLLM.FairRun

/-!
# The stream channel between two threads

`StreamChannel` of `server/engine.py`: the engine thread appends to a deque and
schedules the set of an event; the consumer on the asyncio thread pops, and clears the
event before it waits. The steps are the single reads and writes of the two threads, and
they interleave freely; callbacks of the event loop run while the consumer is suspended.
-/

namespace StreamChannel

open List FairRun

/-- What the engine thread calls. -/
inductive Call (Item : Type) where
  | put (item : Item)
  | close
  deriving DecidableEq, Repr

/-- Where the engine thread is: between two calls, or before the named line of one. -/
inductive Engine where
  | idle
  /-- `self._closed = True` -/
  | mark
  /-- `self._buf.append(None)` -/
  | appendEnd
  /-- `if self._event is not None` -/
  | check
  /-- `loop.call_soon_threadsafe(self._event.set)` -/
  | schedule
  deriving DecidableEq, Repr

/-- Where the consumer is: between two calls of `get`, or before the named line of one. -/
inductive Consumer where
  | outside
  /-- `while not self._buf` -/
  | test
  /-- `if self._event is None` -/
  | create
  | clear
  /-- `if self._buf: continue` -/
  | retest
  /-- `await self._event.wait()`; it returns at once where the event is set. -/
  | wait
  | suspended
  /-- The waiter's future is resolved and the consumer not yet resumed. -/
  | woken
  /-- `return self._buf.popleft()` -/
  | pop
  /-- The end marker was received. -/
  | done
  deriving DecidableEq, Repr

structure State (Item : Type) where
  /-- `_buf`; the end marker is `None`. -/
  buf : List (Option Item)
  event : Option Bool
  closed : Bool
  pending : Nat
  engine : Engine
  consumer : Consumer
  calls : List (Call Item)
  received : List (Option Item)
  deriving DecidableEq, Repr

variable {Item : Type}

def start : State Item := ⟨[], none, false, 0, .idle, .outside, [], []⟩

inductive Op (Item : Type) where
  /-- The engine thread enters a call. -/
  | call (call : Call Item)
  /-- The engine thread goes on inside its call. -/
  | engine
  /-- The event loop runs a callback. -/
  | callback
  | consumer
  deriving DecidableEq, Repr

def enter (s : State Item) : Call Item → State Item
  | .put item => { s with buf := s.buf ++ [some item], engine := .check, calls := s.calls ++ [.put item] }
  | .close =>
    let s := { s with calls := s.calls ++ [.close] }
    if s.closed then s else { s with engine := .mark }

def engineNext (s : State Item) : Option (State Item) :=
  match s.engine with
  | .idle => none
  | .mark => some { s with closed := true, engine := .appendEnd }
  | .appendEnd => some { s with buf := s.buf ++ [none], engine := .check }
  | .check => some { s with engine := if s.event.isSome then .schedule else .idle }
  | .schedule => some { s with pending := s.pending + 1, engine := .idle }

/-- `Event.set`: a waiting consumer is woken. -/
def setEvent (s : State Item) : State Item :=
  { s with event := some true, consumer := if s.consumer = .suspended then .woken else s.consumer }

def loopFree : Consumer → Bool
  | .outside | .suspended | .woken | .done => true
  | .test | .create | .clear | .retest | .wait | .pop => false

def callbackNext (s : State Item) : Option (State Item) :=
  if loopFree s.consumer = true ∧ 0 < s.pending then some (setEvent { s with pending := s.pending - 1 }) else none

def consumerNext (s : State Item) : Option (State Item) :=
  match s.consumer with
  | .outside => some { s with consumer := .test }
  | .test => some { s with consumer := if s.buf = [] then .create else .pop }
  | .create => some { s with event := some (s.event.getD false), consumer := .clear }
  | .clear => some { s with event := some false, consumer := .retest }
  | .retest => some { s with consumer := if s.buf = [] then .wait else .test }
  | .wait => some { s with consumer := if s.event = some true then .test else .suspended }
  | .suspended => none
  | .woken => some { s with consumer := .test }
  | .pop =>
    match s.buf with
    | [] => none
    | item :: rest =>
      some { s with
        buf := rest
        received := s.received ++ [item]
        consumer := if item.isNone then .done else .outside }
  | .done => none

def step (s : State Item) : Op Item → Option (State Item)
  | .call call => if s.engine = .idle then some (enter s call) else none
  | .engine => engineNext s
  | .callback => callbackNext s
  | .consumer => consumerNext s

/-- A scheduled step that is not possible changes nothing. -/
def next (s : State Item) (op : Op Item) : State Item := (step s op).getD s

section Items

/-- What the calls append, after a close or before one: the first close leaves the end marker. -/
def appendedBy (closed : Bool) : List (Call Item) → List (Option Item)
  | [] => []
  | .put item :: calls => some item :: appendedBy closed calls
  | .close :: calls => if closed then appendedBy true calls else none :: appendedBy true calls

def hasClose : List (Call Item) → Bool
  | [] => false
  | .put _ :: calls => hasClose calls
  | .close :: _ => true

@[simp] theorem hasClose_put (calls : List (Call Item)) (item : Item) :
    hasClose (calls ++ [.put item]) = hasClose calls := by
  induction calls with
  | nil => rfl
  | cons call calls ih =>
    cases call with
    | put other => exact ih
    | close => rfl

@[simp] theorem hasClose_close (calls : List (Call Item)) : hasClose (calls ++ [.close]) = true := by
  induction calls with
  | nil => rfl
  | cons call calls ih =>
    cases call with
    | put other => exact ih
    | close => rfl

theorem appendedBy_put (closed : Bool) (calls : List (Call Item)) (item : Item) :
    appendedBy closed (calls ++ [.put item]) = appendedBy closed calls ++ [some item] := by
  induction calls generalizing closed with
  | nil => rfl
  | cons call calls ih =>
    cases call with
    | put other => simp only [cons_append, appendedBy, ih]
    | close => cases closed <;> simp [appendedBy, ih]

theorem appendedBy_close (closed : Bool) (calls : List (Call Item)) :
    appendedBy closed (calls ++ [.close]) =
      appendedBy closed calls ++ if (closed || hasClose calls) then [] else [none] := by
  induction calls generalizing closed with
  | nil => cases closed <;> rfl
  | cons call calls ih =>
    cases call with
    | put other => simp [appendedBy, hasClose, ih]
    | close => cases closed <;> simp [appendedBy, hasClose, ih]

def batches : List (Call Item) → List Item
  | [] => []
  | .put item :: calls => item :: batches calls
  | .close :: calls => batches calls

/-- No batch is put behind a close. -/
def ClosesLast : List (Call Item) → Prop
  | [] => True
  | .put _ :: calls => ClosesLast calls
  | .close :: calls => batches calls = []

/-- What a consumer is to receive: the batches up to the first close, and behind them the end marker. -/
def delivered : List (Call Item) → List (Option Item)
  | [] => []
  | .put item :: calls => some item :: delivered calls
  | .close :: _ => [none]

theorem delivered_isPrefix_appendedBy (calls : List (Call Item)) : delivered calls <+: appendedBy false calls := by
  induction calls with
  | nil => exact prefix_rfl
  | cons call calls ih =>
    cases call with
    | put item => exact (prefix_cons_inj _).mpr ih
    | close => exact ⟨appendedBy true calls, rfl⟩

theorem delivered_isPrefix {calls calls' : List (Call Item)} (h : calls <+: calls') :
    delivered calls <+: delivered calls' := by
  obtain ⟨more, rfl⟩ := h
  induction calls with
  | nil => exact nil_prefix
  | cons call calls ih =>
    cases call with
    | put item => exact (prefix_cons_inj _).mpr ih
    | close => exact prefix_rfl

variable {calls : List (Call Item)}

theorem isPrefix_delivered {received : List (Option Item)}
    (h : received <+: appendedBy false calls) (hlast : none ∉ received.dropLast) : received <+: delivered calls := by
  induction calls generalizing received with
  | nil => exact h
  | cons call calls ih =>
    cases received with
    | nil => exact nil_prefix
    | cons item received =>
      cases call with
      | put other =>
        obtain ⟨rfl, hrest⟩ := cons_prefix_cons.mp h
        refine (prefix_cons_inj _).mpr (ih hrest fun hend => hlast ?_)
        cases received with
        | nil => cases hend
        | cons second received => exact mem_cons_of_mem _ hend
      | close =>
        obtain ⟨rfl, hrest⟩ := cons_prefix_cons.mp h
        -- the end marker is received, so nothing follows it
        cases received with
        | nil => exact prefix_rfl
        | cons second received => exact absurd mem_cons_self hlast

theorem eq_delivered_of_none_mem {received : List (Option Item)}
    (h : received <+: delivered calls) (hend : none ∈ received) : received = delivered calls := by
  induction calls generalizing received with
  | nil => exact prefix_nil.mp h
  | cons call calls ih =>
    cases received with
    | nil => cases hend
    | cons item received =>
      cases call with
      | put other =>
        obtain ⟨rfl, hrest⟩ := cons_prefix_cons.mp h
        have htail : none ∈ received := by simpa using hend
        rw [ih hrest htail]
        rfl
      | close =>
        obtain ⟨rfl, hrest⟩ := cons_prefix_cons.mp h
        rw [prefix_nil.mp hrest]
        rfl

theorem none_mem_delivered (h : hasClose calls = true) : none ∈ delivered calls := by
  induction calls with
  | nil => cases h
  | cons call calls ih =>
    cases call with
    | put item => exact mem_cons_of_mem _ (ih h)
    | close => exact mem_cons_self

theorem delivered_of_closesLast (h : ClosesLast calls) :
    delivered calls = (batches calls).map some ++ if hasClose calls then [none] else [] := by
  induction calls with
  | nil => rfl
  | cons call calls ih =>
    cases call with
    | put item =>
      simp only [delivered, batches, hasClose, ih h]
      rfl
    | close =>
      have hnil : batches calls = [] := h
      simp [delivered, batches, hasClose, hnil]

end Items

section Invariant

variable {s s' : State Item}

/-- The end marker of a close that has not come to its append. -/
def unwritten : Engine → List (Option Item)
  | .mark | .appendEnd => [none]
  | .idle | .check | .schedule => []

/-- A call that has appended will still look for the event. -/
def Signals (s : State Item) : Prop := 0 < s.pending ∨ s.engine = .check ∨ s.engine = .schedule

structure Sound (s : State Item) : Prop where
  items : s.received ++ s.buf ++ unwritten s.engine = appendedBy false s.calls
  closing : hasClose s.calls = true ↔ s.closed = true ∨ s.engine = .mark
  open_ : s.engine = .mark → s.closed = false
  marked : s.engine = .appendEnd → s.closed = true
  ended : s.consumer = .done ↔ none ∈ s.received
  created : s.consumer = .clear → s.event.isSome = true
  cleared : s.consumer = .retest ∨ s.consumer = .wait ∨ s.consumer = .suspended → s.event = some false
  popping : s.consumer = .pop → s.buf ≠ []
  last : none ∉ s.received.dropLast
  signals : s.consumer = .wait ∨ s.consumer = .suspended → s.buf ≠ [] → Signals s

theorem sound_start : Sound (start : State Item) := by
  constructor <;> simp [start, unwritten, appendedBy, hasClose]

section

variable (h : Sound s) (hidle : s.engine = .idle)
include h hidle

theorem Sound.put (item : Item) : Sound (enter s (.put item)) := by
  have hitems := h.items
  have hclosing := h.closing
  rw [hidle] at hitems hclosing
  have hnonempty : s.buf ++ [some item] ≠ [] := append_ne_nil_of_right_ne_nil _ (cons_ne_nil _ _)
  constructor
  case items =>
    change s.received ++ (s.buf ++ [some item]) ++ [] = appendedBy false (s.calls ++ [.put item])
    rw [appendedBy_put, ← hitems]
    simp [unwritten]
  case closing => simpa [StreamChannel.enter] using hclosing
  case open_ => intro hmark; cases hmark
  case marked => intro hmark; cases hmark
  case ended => exact h.ended
  case created => exact h.created
  case cleared => exact h.cleared
  case popping => exact fun _ => hnonempty
  case last => exact h.last
  case signals => exact fun _ _ => .inr (.inl rfl)

theorem Sound.close_again (hclosed : s.closed = true) : Sound { s with calls := s.calls ++ [.close] } := by
  have hhas : hasClose s.calls = true := h.closing.mpr (.inl hclosed)
  refine { h with items := ?items, closing := ?closing, open_ := ?open_, marked := ?marked }
  case items =>
    change s.received ++ s.buf ++ unwritten s.engine = appendedBy false (s.calls ++ [.close])
    rw [appendedBy_close, h.items, hhas]
    simp
  case closing => simp [hclosed]
  case open_ =>
    intro hmark
    cases hidle.symm.trans hmark
  case marked => exact fun _ => hclosed

theorem Sound.close_first (hclosed : s.closed = false) :
    Sound { s with calls := s.calls ++ [.close], engine := .mark } := by
  have hhas : hasClose s.calls = false := by
    cases hcalls : hasClose s.calls with
    | false => rfl
    | true =>
      rcases h.closing.mp hcalls with hopen | hmark
      · cases hclosed.symm.trans hopen
      · cases hidle.symm.trans hmark
  constructor
  case items =>
    change s.received ++ s.buf ++ [none] = appendedBy false (s.calls ++ [.close])
    rw [appendedBy_close, ← h.items, hhas, hidle]
    simp [unwritten]
  case closing => simp
  case open_ => exact fun _ => hclosed
  case marked => intro hmark; cases hmark
  case ended => exact h.ended
  case created => exact h.created
  case cleared => exact h.cleared
  case popping => exact h.popping
  case last => exact h.last
  case signals =>
    intro hwait hbuf
    rcases h.signals hwait hbuf with hpending | hcheck | hschedule
    · exact .inl hpending
    · cases hidle.symm.trans hcheck
    · cases hidle.symm.trans hschedule

theorem Sound.close : Sound (enter s .close) := by
  cases hclosed : s.closed with
  | true =>
    have henter : enter s .close = { s with calls := s.calls ++ [.close] } := by
      simp [StreamChannel.enter, hclosed]
    rw [henter]
    exact h.close_again hidle hclosed
  | false =>
    have henter : enter s .close = { s with calls := s.calls ++ [.close], engine := .mark } := by
      simp [StreamChannel.enter, hclosed]
    rw [henter]
    exact h.close_first hidle hclosed

end

theorem Sound.engine (h : Sound s) (hs : engineNext s = some s') : Sound s' := by
  have hitems := h.items
  have hclosing := h.closing
  have hsignals := h.signals
  unfold engineNext at hs
  cases hengine : s.engine with
  | idle => simp [hengine] at hs
  | mark =>
    simp only [hengine, Option.some.injEq] at hs
    subst hs
    rw [hengine] at hitems hclosing
    constructor
    case items => exact hitems
    case closing => simpa using hclosing
    case open_ => intro hmark; cases hmark
    case marked => exact fun _ => rfl
    case ended => exact h.ended
    case created => exact h.created
    case cleared => exact h.cleared
    case popping => exact h.popping
    case last => exact h.last
    case signals =>
      intro hwait hbuf
      simpa [Signals, hengine] using hsignals hwait hbuf
  | appendEnd =>
    simp only [hengine, Option.some.injEq] at hs
    subst hs
    rw [hengine] at hitems hclosing
    constructor
    case items =>
      change s.received ++ (s.buf ++ [none]) ++ [] = appendedBy false s.calls
      rw [← hitems]
      simp [unwritten]
    case closing => simpa using hclosing
    case open_ => intro hmark; cases hmark
    case marked => intro hmark; cases hmark
    case ended => exact h.ended
    case created => exact h.created
    case cleared => exact h.cleared
    case popping => exact fun _ => append_ne_nil_of_right_ne_nil _ (cons_ne_nil _ _)
    case last => exact h.last
    case signals => exact fun _ _ => .inr (.inl rfl)
  | check =>
    simp only [hengine, Option.some.injEq] at hs
    subst hs
    rw [hengine] at hitems hclosing
    constructor
    case items =>
      change s.received ++ s.buf ++ unwritten (if s.event.isSome then .schedule else .idle) = _
      rw [← hitems]
      split <;> rfl
    case closing =>
      change _ ↔ s.closed = true ∨ (if s.event.isSome then Engine.schedule else .idle) = .mark
      rw [hclosing]
      split <;> simp
    case open_ => intro hmark; dsimp only at hmark; split at hmark <;> cases hmark
    case marked => intro hmark; dsimp only at hmark; split at hmark <;> cases hmark
    case ended => exact h.ended
    case created => exact h.created
    case cleared => exact h.cleared
    case popping => exact h.popping
    case last => exact h.last
    case signals =>
      -- a consumer at its wait has created the event, so the call goes on to schedule the set
      intro hwait hbuf
      have hevent : s.event = some false := h.cleared (.inr hwait)
      exact .inr (.inr (by simp [hevent]))
  | schedule =>
    simp only [hengine, Option.some.injEq] at hs
    subst hs
    rw [hengine] at hitems hclosing
    constructor
    case items => exact hitems
    case closing => simpa using hclosing
    case open_ => intro hmark; cases hmark
    case marked => intro hmark; cases hmark
    case ended => exact h.ended
    case created => exact h.created
    case cleared => exact h.cleared
    case popping => exact h.popping
    case last => exact h.last
    case signals => exact fun _ _ => .inl (Nat.succ_pos _)

theorem callbackNext_eq (hs : callbackNext s = some s') :
    loopFree s.consumer = true ∧ 0 < s.pending ∧ s' = setEvent { s with pending := s.pending - 1 } := by
  unfold callbackNext at hs
  split at hs
  · rename_i h
    cases hs
    exact ⟨h.1, h.2, rfl⟩
  · cases hs

section

variable (h : Sound s)
include h

theorem Sound.callback (hs : callbackNext s = some s') : Sound s' := by
  obtain ⟨hfree, -, rfl⟩ := callbackNext_eq hs
  have hended := h.ended
  have hcreated := h.created
  constructor
  case items => exact h.items
  case closing => exact h.closing
  case open_ => exact h.open_
  case marked => exact h.marked
  case ended =>
    change (if s.consumer = .suspended then .woken else s.consumer) = .done ↔ none ∈ s.received
    rw [← hended]
    split
    · rename_i hsuspended
      simp [hsuspended]
    · rfl
  case created => exact fun _ => rfl
  case last => exact h.last
  all_goals
    -- the loop is free, so the consumer is at none of these lines afterwards
    intro hconsumer
    simp only [setEvent] at hconsumer
    revert hfree hconsumer
    cases s.consumer <;> simp [loopFree]

/-- A line of `get` that only moves the consumer or writes the event keeps the books of the buffer. -/
theorem Sound.move (hrunning : s.consumer ≠ .done) (event : Option Bool)
    (consumer : Consumer) (hdone : consumer ≠ .done)
    (hcreated : consumer = .clear → event.isSome = true)
    (hcleared : consumer = .retest ∨ consumer = .wait ∨ consumer = .suspended → event = some false)
    (hpopping : consumer = .pop → s.buf ≠ [])
    (hsignals : consumer = .wait ∨ consumer = .suspended → s.buf ≠ [] → Signals s) :
    Sound { s with event, consumer } where
  __ := h
  ended := ⟨fun hend => absurd hend hdone, fun hend => absurd (h.ended.mpr hend) hrunning⟩
  created := hcreated
  cleared := hcleared
  popping := hpopping
  signals := hsignals

/-- `popleft` hands out the oldest item, and the end marker ends the consumer. -/
theorem Sound.pop (hrunning : s.consumer ≠ .done) {item : Option Item}
    {rest : List (Option Item)} (hbuf : s.buf = item :: rest) :
    Sound { s with
      buf := rest
      received := s.received ++ [item]
      consumer := if item.isNone then .done else .outside } := by
  have hopen : none ∉ s.received := fun hend => hrunning (h.ended.mpr hend)
  constructor
  case items =>
    change s.received ++ [item] ++ rest ++ unwritten s.engine = appendedBy false s.calls
    rw [← h.items, hbuf]
    simp
  case closing => exact h.closing
  case open_ => exact h.open_
  case marked => exact h.marked
  case ended => cases item <;> simp [hopen]
  case last => simpa using hopen
  all_goals
    intro hconsumer
    cases item <;> simp at hconsumer

theorem Sound.consumer (hs : consumerNext s = some s') : Sound s' := by
  have hcleared := h.cleared
  unfold consumerNext at hs
  cases hconsumer : s.consumer with
  | outside | create | clear | woken =>
    simp only [hconsumer, Option.some.injEq] at hs
    subst hs
    exact h.move (by simp [hconsumer]) _ _ (by simp) (by simp) (by simp) (by simp) (by simp)
  | test =>
    simp only [hconsumer, Option.some.injEq] at hs
    subst hs
    by_cases hbuf : s.buf = []
    · exact h.move (by simp [hconsumer]) _ _ (by simp [hbuf]) (by simp [hbuf]) (by simp [hbuf]) (by simp [hbuf])
        (by simp [hbuf])
    · exact h.move (by simp [hconsumer]) _ _ (by simp [hbuf]) (by simp [hbuf]) (by simp [hbuf]) (by simp [hbuf])
        (by simp [hbuf])
  | retest =>
    simp only [hconsumer, Option.some.injEq] at hs
    subst hs
    -- the recheck: only an empty buffer goes on to the wait
    have hevent : s.event = some false := hcleared (.inl hconsumer)
    by_cases hbuf : s.buf = []
    · exact h.move (by simp [hconsumer]) _ _ (by simp [hbuf]) (by simp [hbuf]) (fun _ => hevent) (by simp [hbuf])
        (by simp [hbuf])
    · exact h.move (by simp [hconsumer]) _ _ (by simp [hbuf]) (by simp [hbuf]) (fun _ => hevent) (by simp [hbuf])
        (by simp [hbuf])
  | wait =>
    simp only [hconsumer, Option.some.injEq] at hs
    subst hs
    have hevent : s.event = some false := hcleared (.inr (.inl hconsumer))
    exact h.move (by simp [hconsumer]) _ _ (by simp [hevent]) (by simp [hevent]) (fun _ => hevent) (by simp [hevent])
      (fun _ => h.signals (.inl hconsumer))
  | pop =>
    cases hbuf : s.buf with
    | nil => exact absurd hbuf (h.popping hconsumer)
    | cons item rest =>
      simp only [hconsumer, hbuf, Option.some.injEq] at hs
      subst hs
      exact h.pop (by simp [hconsumer]) hbuf
  | suspended => simp [hconsumer] at hs
  | done => simp [hconsumer] at hs

theorem Sound.step {op : Op Item} (hs : StreamChannel.step s op = some s') : Sound s' := by
  cases op with
  | call call =>
    unfold StreamChannel.step at hs
    dsimp only at hs
    split at hs
    · rename_i hidle
      cases hs
      cases call with
      | put item => exact h.put hidle item
      | close => exact h.close hidle
    · cases hs
  | engine => exact h.engine hs
  | callback => exact h.callback hs
  | consumer => exact h.consumer hs

theorem Sound.next (op : Op Item) : Sound (StreamChannel.next s op) := by
  unfold StreamChannel.next
  cases hs : StreamChannel.step s op with
  | none => exact h
  | some s' => exact h.step hs

end

end Invariant

section Progress

variable {s s' : State Item} {k : ℕ}

def Unread (s : State Item) : Prop := s.buf ≠ [] ∨ s.engine = .mark ∨ s.engine = .appendEnd

/-- How far the consumer is from its pop while the buffer holds something. -/
def consumerRank : Consumer → ℕ
  | .pop | .done => 0
  | .test => 1
  | .outside | .woken | .retest => 2
  | .suspended => 3
  | .wait => 6
  | .clear => 7
  | .create => 8

/-- How far the engine thread is from a scheduled set. -/
def signalRank (s : State Item) : ℕ :=
  if 0 < s.pending then 0
  else match s.engine with
  | .schedule => 1
  | .idle | .mark | .appendEnd | .check => 2

def engineRank : Engine → ℕ
  | .mark => 12
  | .appendEnd => 11
  | .idle | .check | .schedule => 0

def rank (s : State Item) : ℕ :=
  if s.buf = [] then engineRank s.engine
  else consumerRank s.consumer + if s.consumer = .suspended then signalRank s else 0

/-- The thread whose step brings the next pop closer. -/
def helpful (s : State Item) : Op Item :=
  if s.buf = [] then .engine
  else if s.consumer ≠ .suspended then .consumer
  else if 0 < s.pending then .callback
  else .engine

/-- Nothing was received since the count, and something can be. -/
structure Awaiting (k : ℕ) (s : State Item) : Prop where
  sound : Sound s
  running : s.consumer ≠ .done
  unread : Unread s
  received : s.received.length = k

def Advanced (k : ℕ) (s : State Item) : Prop := s.consumer = .done ∨ k < s.received.length

theorem rank_le_of_ne_nil (h : s.buf ≠ []) : rank s ≤ 8 := by
  unfold rank
  rw [if_neg h]
  unfold signalRank
  cases s.consumer <;> simp [consumerRank]
  split
  · omega
  · cases s.engine <;> simp

theorem next_of_step {op : Op Item} (h : step s op = some s') : next s op = s' := by
  simp [StreamChannel.next, h]

theorem next_of_none {op : Op Item} (h : step s op = none) : next s op = s := by
  simp [StreamChannel.next, h]

/-- While the buffer holds something, the rank looks at the consumer, and at the signal only of one that waits. -/
theorem same_of_frame (hbuf : s.buf ≠ []) (hbuf' : s'.buf ≠ []) (hconsumer : s'.consumer = s.consumer)
    (hpending : s.consumer = .suspended → 0 < s.pending ∧ 0 < s'.pending) :
    rank s' = rank s ∧ helpful s' = helpful s := by
  by_cases hsuspended : s.consumer = .suspended
  · obtain ⟨hp, hp'⟩ := hpending hsuspended
    simp [rank, helpful, signalRank, hbuf, hbuf', hconsumer, hsuspended, hp, hp']
  · simp [rank, helpful, hbuf, hbuf', hconsumer, hsuspended]

theorem Awaiting.of_frame (h : Awaiting k s) (hsound : Sound s')
    (hconsumer : s'.consumer = s.consumer) (hreceived : s'.received = s.received) (hunread : Unread s') :
    Awaiting k s' :=
  ⟨hsound, hconsumer ▸ h.running, hunread, hreceived ▸ h.received⟩

theorem Awaiting.call (h : Awaiting k s) (call : Call Item) :
    Approaches StreamChannel.next (Awaiting k) (Advanced k) rank helpful s (.call call) := by
  have hother : Op.call call ≠ helpful s := by
    unfold helpful
    split_ifs <;> simp
  right
  by_cases hidle : s.engine = .idle
  · have hnext : StreamChannel.next s (.call call) = enter s call := next_of_step (by simp [step, hidle])
    have hbuf : s.buf ≠ [] := by
      rcases h.unread with hbuf | hmark | happend
      · exact hbuf
      · cases hidle.symm.trans hmark
      · cases hidle.symm.trans happend
    have hframe : (enter s call).buf ≠ [] ∧ (enter s call).consumer = s.consumer ∧
        (enter s call).received = s.received ∧ (enter s call).pending = s.pending := by
      cases call with
      | put item => exact ⟨append_ne_nil_of_left_ne_nil hbuf _, rfl, rfl, rfl⟩
      | close => cases hclosed : s.closed <;> simp [enter, hclosed, hbuf]
    obtain ⟨hbuf', hconsumer, hreceived, hpending⟩ := hframe
    have hsound : Sound (enter s call) := hnext ▸ h.sound.next (.call call)
    have hsame := same_of_frame hbuf hbuf' hconsumer fun hsuspended => by
      -- an idle engine thread leaves a waiting consumer only with a callback behind it
      rcases h.sound.signals (.inr hsuspended) hbuf with hp | hcheck | hschedule
      · exact ⟨hp, hpending.symm ▸ hp⟩
      · cases hidle.symm.trans hcheck
      · cases hidle.symm.trans hschedule
    rw [hnext]
    exact ⟨h.of_frame hsound hconsumer hreceived (.inl hbuf'), .inr ⟨hother, hsame⟩⟩
  · have hnext : StreamChannel.next s (.call call) = s := next_of_none (by simp [step, hidle])
    rw [hnext]
    exact ⟨h, .inr ⟨hother, rfl, rfl⟩⟩

theorem engineNext_frame (hs : engineNext s = some s') :
    s'.consumer = s.consumer ∧ s'.received = s.received ∧ s.pending ≤ s'.pending ∧ (s.buf ≠ [] → s'.buf ≠ []) := by
  unfold engineNext at hs
  cases hengine : s.engine with
  | idle => simp [hengine] at hs
  | mark | appendEnd | check | schedule =>
    simp only [hengine, Option.some.injEq] at hs
    subst hs
    simp

theorem Awaiting.engine (h : Awaiting k s) :
    Approaches StreamChannel.next (Awaiting k) (Advanced k) rank helpful s .engine := by
  right
  have hsound := h.sound.next .engine
  by_cases hbuf : s.buf = []
  · -- only the append of a close is missing, and it is the engine thread's next step but one
    rcases h.unread with hfull | hmark | happend
    · exact absurd hbuf hfull
    · have hnext : StreamChannel.next s .engine = { s with closed := true, engine := .appendEnd } :=
        next_of_step (by simp [step, engineNext, hmark])
      rw [hnext] at hsound ⊢
      exact ⟨h.of_frame hsound rfl rfl (.inr (.inr rfl)), .inl (by simp [rank, engineRank, hbuf, hmark])⟩
    · have hnext : StreamChannel.next s .engine = { s with buf := s.buf ++ [none], engine := .check } :=
        next_of_step (by simp [step, engineNext, happend])
      have hbuf' : s.buf ++ [none] ≠ [] := append_ne_nil_of_right_ne_nil _ (cons_ne_nil _ _)
      rw [hnext] at hsound ⊢
      have hrank : rank s = 11 := by simp [rank, engineRank, hbuf, happend]
      have hrank' := rank_le_of_ne_nil (s := { s with buf := s.buf ++ [none], engine := .check }) hbuf'
      exact ⟨h.of_frame hsound rfl rfl (.inl hbuf'), .inl (by omega)⟩
  · by_cases hfar : s.consumer = .suspended ∧ s.pending = 0
    · -- the consumer waits and no callback is under way: the engine thread is on its way to one
      obtain ⟨hsuspended, hzero⟩ := hfar
      rcases h.sound.signals (.inr hsuspended) hbuf with hp | hcheck | hschedule
      · omega
      · have hevent : s.event = some false := h.sound.cleared (.inr (.inr hsuspended))
        have hnext : StreamChannel.next s .engine = { s with engine := .schedule } :=
          next_of_step (by simp [step, engineNext, hcheck, hevent])
        rw [hnext] at hsound ⊢
        exact ⟨h.of_frame hsound rfl rfl (.inl hbuf),
          .inl (by simp [rank, signalRank, hbuf, hsuspended, hzero, hcheck])⟩
      · have hnext : StreamChannel.next s .engine = { s with pending := s.pending + 1, engine := .idle } :=
          next_of_step (by simp [step, engineNext, hschedule])
        rw [hnext] at hsound ⊢
        exact ⟨h.of_frame hsound rfl rfl (.inl hbuf),
          .inl (by simp [rank, signalRank, hbuf, hsuspended, hzero, hschedule])⟩
    · have hother : Op.engine ≠ helpful s := by
        unfold helpful
        rw [if_neg hbuf]
        split_ifs with hsuspended hp
        · simp
        · simp
        · exact absurd ⟨not_not.mp hsuspended, by omega⟩ hfar
      cases hs : engineNext s with
      | none =>
        have hnext : StreamChannel.next s .engine = s := next_of_none hs
        rw [hnext]
        exact ⟨h, .inr ⟨hother, rfl, rfl⟩⟩
      | some s' =>
        have hnext : StreamChannel.next s .engine = s' := next_of_step hs
        obtain ⟨hconsumer, hreceived, hpending, hkeep⟩ := engineNext_frame hs
        have hsame := same_of_frame hbuf (hkeep hbuf) hconsumer fun hsuspended => by
          have hp : s.pending ≠ 0 := fun hzero => hfar ⟨hsuspended, hzero⟩
          omega
        rw [hnext] at hsound ⊢
        exact ⟨h.of_frame hsound hconsumer hreceived (.inl (hkeep hbuf)), .inr ⟨hother, hsame⟩⟩

theorem Awaiting.callback (h : Awaiting k s) :
    Approaches StreamChannel.next (Awaiting k) (Advanced k) rank helpful s .callback := by
  right
  have hsound := h.sound.next .callback
  cases hs : callbackNext s with
  | none =>
    have hnext : StreamChannel.next s .callback = s := next_of_none hs
    have hother : Op.callback ≠ helpful s := by
      unfold helpful
      split_ifs with hbuf hsuspended hp
      · simp
      · simp
      · -- a waiting consumer leaves the loop free
        simp [callbackNext, not_not.mp hsuspended, loopFree, hp] at hs
      · simp
    rw [hnext]
    exact ⟨h, .inr ⟨hother, rfl, rfl⟩⟩
  | some s' =>
    have hnext : StreamChannel.next s .callback = s' := next_of_step hs
    obtain ⟨-, -, rfl⟩ := callbackNext_eq hs
    have hrunning := h.running
    have hunread : Unread (setEvent { s with pending := s.pending - 1 }) := h.unread
    have hawaiting : Awaiting k (setEvent { s with pending := s.pending - 1 }) := by
      refine ⟨hnext ▸ hsound, ?_, hunread, h.received⟩
      change (if s.consumer = .suspended then .woken else s.consumer) ≠ .done
      split
      · simp
      · exact hrunning
    rw [hnext]
    refine ⟨hawaiting, ?_⟩
    by_cases hbuf : s.buf = []
    · exact .inr ⟨by simp [helpful, hbuf], by simp [rank, setEvent, hbuf], by simp [helpful, setEvent, hbuf]⟩
    · by_cases hsuspended : s.consumer = .suspended
      · left
        simp only [rank, setEvent, hbuf, hsuspended, consumerRank, if_true, if_false, reduceCtorEq]
        omega
      · exact .inr ⟨by simp [helpful, hbuf, hsuspended], by simp [rank, setEvent, hbuf, hsuspended],
          by simp [helpful, setEvent, hbuf, hsuspended]⟩

theorem consumerNext_rank (h : Sound s) (hbuf : s.buf ≠ []) (hpop : s.consumer ≠ .pop)
    (hs : consumerNext s = some s') : rank s' < rank s := by
  have hbound := rank_le_of_ne_nil hbuf
  have hcleared := h.cleared
  unfold consumerNext at hs
  cases hconsumer : s.consumer with
  | outside | test | create | clear | retest | woken =>
    simp only [hconsumer, Option.some.injEq] at hs
    subst hs
    simp [rank, consumerRank, hbuf, hconsumer]
  | wait =>
    simp only [hconsumer, Option.some.injEq] at hs
    subst hs
    have hevent : s.event = some false := hcleared (.inr (.inl hconsumer))
    simp only [rank, consumerRank, hbuf, hconsumer, hevent, signalRank]
    cases s.engine <;> simp <;> split <;> omega
  | pop => exact absurd hconsumer hpop
  | suspended => simp [hconsumer] at hs
  | done => simp [hconsumer] at hs

theorem consumerNext_frame (hpop : s.consumer ≠ .pop) (hs : consumerNext s = some s') :
    s'.buf = s.buf ∧ s'.engine = s.engine ∧ s'.received = s.received ∧ s'.consumer ≠ .done := by
  unfold consumerNext at hs
  cases hconsumer : s.consumer with
  | outside | create | clear | woken =>
    simp only [hconsumer, Option.some.injEq] at hs
    subst hs
    simp
  | test | retest | wait =>
    simp only [hconsumer, Option.some.injEq] at hs
    subst hs
    refine ⟨rfl, rfl, rfl, ?_⟩
    dsimp only
    split <;> simp
  | pop => exact absurd hconsumer hpop
  | suspended => simp [hconsumer] at hs
  | done => simp [hconsumer] at hs

theorem Awaiting.consumer (h : Awaiting k s) :
    Approaches StreamChannel.next (Awaiting k) (Advanced k) rank helpful s .consumer := by
  have hsound := h.sound.next .consumer
  by_cases hpop : s.consumer = .pop
  · cases hbuf : s.buf with
    | nil => exact absurd hbuf (h.sound.popping hpop)
    | cons item rest =>
      have hs : step s .consumer = some { s with
          buf := rest
          received := s.received ++ [item]
          consumer := if item.isNone then .done else .outside } := by
        simp only [step, consumerNext, hpop, hbuf]
      rw [Approaches, next_of_step hs]
      left
      right
      simp [h.received]
  · right
    cases hs : consumerNext s with
    | none =>
      have hnext : StreamChannel.next s .consumer = s := next_of_none hs
      have hother : Op.consumer ≠ helpful s := by
        unfold helpful
        split_ifs with hbuf hrun hp
        · simp
        · -- only a waiting consumer, or one that is done, takes no step
          have hrunning := h.running
          unfold consumerNext at hs
          cases hconsumer : s.consumer <;> simp_all
        · simp
        · simp
      rw [hnext]
      exact ⟨h, .inr ⟨hother, rfl, rfl⟩⟩
    | some s' =>
      have hnext : StreamChannel.next s .consumer = s' := next_of_step hs
      obtain ⟨hbufs, hengine, hreceived, hdone⟩ := consumerNext_frame hpop hs
      have hunread : Unread s' := by
        rw [Unread, hbufs, hengine]
        exact h.unread
      rw [hnext] at hsound ⊢
      refine ⟨⟨hsound, hdone, hunread, hreceived ▸ h.received⟩, ?_⟩
      by_cases hbuf : s.buf = []
      · have hbuf' : s'.buf = [] := hbufs.trans hbuf
        exact .inr ⟨by simp [helpful, hbuf], by simp [rank, hbuf, hbuf', hengine], by simp [helpful, hbuf, hbuf']⟩
      · exact .inl (consumerNext_rank h.sound hbuf hpop hs)

theorem Awaiting.approaches (h : Awaiting k s) (op : Op Item) :
    Approaches StreamChannel.next (Awaiting k) (Advanced k) rank helpful s op := by
  cases op with
  | call call => exact h.call call
  | engine => exact h.engine
  | callback => exact h.callback
  | consumer => exact h.consumer

end Progress

section Delivery

variable {s : State Item}

theorem next_isPrefix (s : State Item) (op : Op Item) :
    s.calls <+: (StreamChannel.next s op).calls ∧ s.received <+: (StreamChannel.next s op).received := by
  unfold StreamChannel.next
  cases hs : step s op with
  | none => exact ⟨prefix_rfl, prefix_rfl⟩
  | some s' =>
    cases op with
    | call call =>
      simp only [step] at hs
      split at hs
      · cases hs
        cases call with
        | put item => exact ⟨prefix_append _ _, prefix_rfl⟩
        | close => cases hclosed : s.closed <;> simp [enter, hclosed]
      · cases hs
    | engine =>
      simp only [step, engineNext] at hs
      cases hengine : s.engine <;> simp only [hengine, Option.some.injEq, reduceCtorEq] at hs <;> subst hs <;>
        exact ⟨prefix_rfl, prefix_rfl⟩
    | callback =>
      obtain ⟨-, -, rfl⟩ := callbackNext_eq hs
      exact ⟨prefix_rfl, prefix_rfl⟩
    | consumer =>
      simp only [step, consumerNext] at hs
      split at hs
      case h_9 =>
        split at hs
        · cases hs
        · cases hs
          exact ⟨prefix_rfl, prefix_append _ _⟩
      all_goals
        cases hs
        try exact ⟨prefix_rfl, prefix_rfl⟩

theorem Sound.received_isPrefix (h : Sound s) : s.received <+: delivered s.calls := by
  refine isPrefix_delivered ?_ h.last
  rw [← h.items, append_assoc]
  exact prefix_append _ _

theorem Sound.received_of_done (h : Sound s) (hdone : s.consumer = .done) :
    s.received = delivered s.calls :=
  eq_delivered_of_none_mem h.received_isPrefix (h.ended.mp hdone)

theorem Sound.received_of_read (h : Sound s) (hread : ¬Unread s) :
    delivered s.calls <+: s.received := by
  have hbuf : s.buf = [] := by
    by_contra hbuf
    exact hread (.inl hbuf)
  have hwritten : (unwritten s.engine : List (Option Item)) = [] := by
    cases hengine : s.engine with
    | mark => exact absurd (.inr (.inl hengine)) hread
    | appendEnd => exact absurd (.inr (.inr hengine)) hread
    | idle | check | schedule => rfl
  have hitems := h.items
  rw [hbuf, hwritten, append_nil, append_nil] at hitems
  exact hitems ▸ delivered_isPrefix_appendedBy s.calls

theorem Sound.unread_of_closed (h : Sound s) (hclosed : s.closed = true) (hrunning : s.consumer ≠ .done) :
    Unread s := by
  by_contra hread
  have hhas : hasClose s.calls = true := h.closing.mpr (.inl hclosed)
  exact hrunning (h.ended.mpr ((h.received_of_read hread).subset (none_mem_delivered hhas)))

/-- Each thread and the event loop get their turn again and again. -/
structure Fair (schedule : ℕ → Op Item) : Prop where
  engine : Recurs schedule .engine
  callback : Recurs schedule .callback
  consumer : Recurs schedule .consumer

variable {schedule : ℕ → Op Item}

theorem Fair.helpful (h : Fair schedule) (s : State Item) : Recurs schedule (StreamChannel.helpful s) := by
  unfold StreamChannel.helpful
  split_ifs
  · exact h.engine
  · exact h.consumer
  · exact h.callback
  · exact h.engine

theorem sound_stateAt (n : ℕ) : Sound (stateAt StreamChannel.next start schedule n) :=
  FairRun.invariant (fun _ op h => h.next op) sound_start n

theorem calls_isPrefix {n m : ℕ} (hle : n ≤ m) :
    (stateAt StreamChannel.next start schedule n).calls <+: (stateAt StreamChannel.next start schedule m).calls :=
  extends_of_le (R := fun s s' => s.calls <+: s'.calls) (fun _ => prefix_rfl) (fun _ _ _ => List.IsPrefix.trans)
    (fun s op => (next_isPrefix s op).1) hle

theorem Fair.advances (h : Fair schedule) (n : ℕ)
    (hrunning : (stateAt StreamChannel.next start schedule n).consumer ≠ .done)
    (hunread : Unread (stateAt StreamChannel.next start schedule n)) :
    ∃ m, n < m ∧ Advanced (stateAt StreamChannel.next start schedule n).received.length
      (stateAt StreamChannel.next start schedule m) :=
  have hawaiting : Awaiting (stateAt StreamChannel.next start schedule n).received.length
      (stateAt StreamChannel.next start schedule n) := ⟨sound_stateAt n, hrunning, hunread, rfl⟩
  reaches (fun _ op h => Awaiting.approaches h op) h.helpful n hawaiting

/-- What is to be received at one time is received at a later one. The induction is on how much of it is missing. -/
theorem Fair.receives (h : Fair schedule) {due : List (Option Item)} (missing n : ℕ)
    (hdue : due <+: delivered (stateAt StreamChannel.next start schedule n).calls)
    (hmissing : due.length ≤ (stateAt StreamChannel.next start schedule n).received.length + missing) :
    ∃ m, n ≤ m ∧ due <+: (stateAt StreamChannel.next start schedule m).received := by
  induction missing generalizing n with
  | zero => exact ⟨n, (Nat.le_refl _), prefix_of_prefix_length_le hdue (sound_stateAt n).received_isPrefix hmissing⟩
  | succ missing ih =>
    by_cases hdone : (stateAt StreamChannel.next start schedule n).consumer = .done
    · exact ⟨n, (Nat.le_refl _), (sound_stateAt n).received_of_done hdone ▸ hdue⟩
    by_cases hunread : Unread (stateAt StreamChannel.next start schedule n)
    · obtain ⟨m, hm, hadvanced⟩ := h.advances n hdone hunread
      have hdue' : due <+: delivered (stateAt StreamChannel.next start schedule m).calls :=
        hdue.trans (delivered_isPrefix (calls_isPrefix (Nat.le_of_lt hm)))
      rcases hadvanced with hdone' | hmore
      · exact ⟨m, (Nat.le_of_lt hm), (sound_stateAt m).received_of_done hdone' ▸ hdue'⟩
      · obtain ⟨m', hm', hreceived⟩ := ih m hdue' (by omega)
        exact ⟨m', Nat.le_trans (Nat.le_of_lt hm) hm', hreceived⟩
    · exact ⟨n, (Nat.le_refl _), hdue.trans ((sound_stateAt n).received_of_read hunread)⟩

theorem received_of_suspended {n m : ℕ} (hle : n ≤ m)
    (hwaits : ∀ k, n ≤ k → (stateAt StreamChannel.next start schedule k).consumer = .suspended) :
    (stateAt StreamChannel.next start schedule m).received =
      (stateAt StreamChannel.next start schedule n).received := by
  induction hle with
  | refl => rfl
  | @step m hle ih =>
    rw [← ih]
    have hsuspended := hwaits m hle
    change (StreamChannel.next _ (schedule m)).received = _
    revert hsuspended
    generalize stateAt StreamChannel.next start schedule m = s
    intro hsuspended
    unfold StreamChannel.next
    cases hs : step s (schedule m) with
    | none => rfl
    | some s' =>
      cases hop : schedule m with
      | call call =>
        rw [hop] at hs
        simp only [step] at hs
        split at hs
        · cases hs
          cases call with
          | put item => rfl
          | close => cases hclosed : s.closed <;> simp [enter, hclosed]
        · cases hs
      | engine =>
        rw [hop] at hs
        exact (engineNext_frame hs).2.1
      | callback =>
        rw [hop] at hs
        obtain ⟨-, -, rfl⟩ := callbackNext_eq hs
        rfl
      | consumer =>
        rw [hop] at hs
        simp [step, consumerNext, hsuspended] at hs

theorem Fair.wakes (h : Fair schedule) (n : ℕ)
    (hdue : (stateAt StreamChannel.next start schedule n).buf ≠ [] ∨
      (stateAt StreamChannel.next start schedule n).closed = true) :
    ∃ m, n ≤ m ∧ (stateAt StreamChannel.next start schedule m).consumer ≠ .suspended := by
  by_contra hwaits
  have hsuspended : ∀ k, n ≤ k → (stateAt StreamChannel.next start schedule k).consumer = .suspended := by
    intro k hk
    by_contra hwoken
    exact hwaits ⟨k, hk, hwoken⟩
  have hrunning : (stateAt StreamChannel.next start schedule n).consumer ≠ .done := by simp [hsuspended n (Nat.le_refl _)]
  have hunread : Unread (stateAt StreamChannel.next start schedule n) := by
    rcases hdue with hbuf | hclosed
    · exact .inl hbuf
    · exact (sound_stateAt n).unread_of_closed hclosed hrunning
  obtain ⟨m, hm, hdone | hmore⟩ := h.advances n hrunning hunread
  · simp [hsuspended m (Nat.le_of_lt hm)] at hdone
  · rw [received_of_suspended (Nat.le_of_lt hm) hsuspended] at hmore
    omega

/-- Under every fair interleaving, at every time: the start of what the calls put has been received in order,
the rest is received later, and a wait with something to take ends. -/
theorem get_delivers (schedule : ℕ → Op Item) (hfair : Fair schedule) (n : ℕ) :
    let s := stateAt StreamChannel.next start schedule n
    s.received <+: delivered s.calls ∧
      (∃ m, n ≤ m ∧ delivered s.calls <+: (stateAt StreamChannel.next start schedule m).received) ∧
      (ClosesLast s.calls → delivered s.calls = (batches s.calls).map some ++ if hasClose s.calls then [none] else []) ∧
      (s.buf ≠ [] ∨ s.closed = true →
        ∃ m, n ≤ m ∧ (stateAt StreamChannel.next start schedule m).consumer ≠ .suspended) :=
  ⟨(sound_stateAt n).received_isPrefix, hfair.receives _ n prefix_rfl (Nat.le_add_left _ _),
    delivered_of_closesLast, hfair.wakes n⟩

def oneBatch : ℕ → Op ℕ
  | 0 => .call (.put 7)
  | 1 => .engine
  | 2 => .call .close
  | n + 3 => if n % 3 = 0 then .engine else if n % 3 = 1 then .callback else .consumer

theorem oneBatch_fair : Fair oneBatch where
  engine n := ⟨3 * n + 3, by omega, by simp [oneBatch]⟩
  callback n := ⟨3 * n + 1 + 3, by omega, by simp [oneBatch, Nat.add_mod]⟩
  consumer n := ⟨3 * n + 2 + 3, by omega, by simp [oneBatch, Nat.add_mod]⟩

theorem get_delivers_oneBatch :
    ∃ m, [some 7, none] <+: (stateAt StreamChannel.next start oneBatch m).received :=
  have ⟨m, _, hreceived⟩ := (get_delivers oneBatch oneBatch_fair 3).2.1
  ⟨m, hreceived⟩

end Delivery

end StreamChannel
