import BlackweLLM.ContentDrain
import BlackweLLM.StopSequences

/-!
# The engine's commit loop

`server/engine.py`: how generated tokens become the committed tokens of a
request and the chunks of its stream. The anchor of `_activate_slot`, the plain
round and the speculative round of `_step_sync` are three copies of one loop;
each is modelled on its own.
-/

namespace CommitLoop

open PythonText StopSequences StreamProcessor ToolCalls

variable {τ Call Lp : Type}

structure GenerationRequest where
  maxTokens : Int
  stopSequences : List Text
  stopOnToolCall : Bool
  streaming : Bool
  logprobs : Bool
  deriving DecidableEq, Repr

/-- The parts of the engine that the loop reads. -/
structure Engine (τ Call : Type) where
  eosTokenIds : List τ
  toolParser : ToolCallParser Call

inductive FinishReason where
  | stop | length | toolCalls
  deriving DecidableEq, Repr

inductive FinishSource where
  | eos | stopSequence | length | toolCall
  deriving DecidableEq, Repr

/-- The slot's stop entries, present when the request configures stop sequences. -/
structure StopState (tok : Tokenizer τ) (Call : Type) where
  stopSequences : List Text
  stopTracker : Processor tok Call
  stopPendingIds : List τ
  stopPendingText : Text

/-- The entry of `self.active` that the loop reads and writes. -/
structure SlotState (tok : Tokenizer τ) (Call Lp : Type) where
  committedTokens : List τ
  stream : List (List τ)
  stop : Option (StopState tok Call)
  toolTracker : Option (Processor tok Call)
  logprobsAcc : Option (List Lp)

structure Result (τ Lp : Type) where
  committedTokenIds : List τ
  stream : List (List τ)
  finishReason : FinishReason
  matchedStopSequence : Option Text
  terminalTokenId : Option τ
  finishSource : FinishSource
  logprobs : Option (List Lp)

inductive Phase (tok : Tokenizer τ) (Call Lp : Type) where
  | running (st : SlotState tok Call Lp)
  | finished (r : Result τ Lp)

variable {tok : Tokenizer τ}

def streamPut (req : GenerationRequest) (st : SlotState tok Call Lp) (ids : List τ) :
    SlotState tok Call Lp :=
  if req.streaming then { st with stream := st.stream ++ [ids] } else st

def flushStopPending (req : GenerationRequest) (st : SlotState tok Call Lp) : SlotState tok Call Lp :=
  match st.stop with
  | none => st
  | some s =>
    if s.stopPendingIds.isEmpty then st
    else { streamPut req st s.stopPendingIds with
      stop := some { s with stopPendingIds := [], stopPendingText := [] } }

/-- With stop sequences only `flushStopPending` puts tokens on the stream. -/
def putUnlessStop (req : GenerationRequest) (st : SlotState tok Call Lp) (ids : List τ) :
    SlotState tok Call Lp :=
  if st.stop.isSome then st else streamPut req st ids

/-- The token reaches the tracker and the pending buffers. -/
def StopState.feed (s : StopState tok Call) (t : τ) : StopState tok Call :=
  let drained := (s.stopTracker.addTokens [t]).drainContent
  { s with
    stopTracker := drained.2
    stopPendingIds := s.stopPendingIds ++ [t]
    stopPendingText := s.stopPendingText ++ drained.1.flatten }

inductive StopVerdict where
  | matched (seq : Text)
  | flush
  | withhold
  deriving DecidableEq, Repr

/-- What the buffered text says: a match, nothing to wait for, or a match that may be starting. -/
def StopState.verdict (s : StopState tok Call) : StopVerdict :=
  if s.stopTracker.thinkingDone then
    match findEarliestStopMatch s.stopPendingText s.stopSequences with
    | some (_, seq) => .matched seq
    | none =>
      if trimAmbiguousStopTail s.stopPendingText s.stopSequences = s.stopPendingText then .flush
      else .withhold
  else .flush

/-- `_stop_check_token`, guarded by `if stop_sequences` as at every call. -/
def stopCheckToken (req : GenerationRequest) (st : SlotState tok Call Lp) (t : τ) :
    Option Text × SlotState tok Call Lp :=
  match st.stop with
  | none => (none, st)
  | some s =>
    let st := { st with stop := some (s.feed t) }
    match (s.feed t).verdict with
    | .matched seq => (some seq, st)
    | .flush => (none, flushStopPending req st)
    | .withhold => (none, st)

/-- `del xs[-n:]`; for `n = 0` that is the whole list. -/
def delLast {α : Type} (xs : List α) (n : Nat) : List α :=
  if n = 0 then [] else xs.take (xs.length - n)

def dropStopPendingFromCommitted (st : SlotState tok Call Lp) : SlotState tok Call Lp :=
  match st.stop with
  | none => st
  | some s =>
    { st with
      committedTokens := delLast st.committedTokens s.stopPendingIds.length
      logprobsAcc := st.logprobsAcc.map fun acc =>
        if acc.isEmpty then acc else delLast acc s.stopPendingIds.length
      stop := some { s with stopPendingIds := [], stopPendingText := [] } }

/-- Feed one token to the tool tracker and report a newly complete parsed call. -/
def toolCallCheckToken (st : SlotState tok Call Lp) (t : τ) : Bool × SlotState tok Call Lp :=
  match st.toolTracker with
  | none => (false, st)
  | some tracker =>
    let tracker := tracker.addTokens [t]
    (!tracker.completeToolCalls.isEmpty, { st with toolTracker := some tracker })

def finishRequest (st : SlotState tok Call Lp) (reason : FinishReason) (source : FinishSource)
    (terminal : Option τ) (matched : Option Text) : Phase tok Call Lp :=
  .finished
    { committedTokenIds := st.committedTokens
      stream := st.stream
      finishReason := reason
      matchedStopSequence := matched
      terminalTokenId := terminal
      finishSource := source
      logprobs := st.logprobsAcc }

def lengthReached (req : GenerationRequest) (st : SlotState tok Call Lp) : Prop :=
  req.maxTokens ≤ st.committedTokens.length

instance (req : GenerationRequest) (st : SlotState tok Call Lp) : Decidable (lengthReached req st) :=
  inferInstanceAs (Decidable (_ ≤ _))

def appendCommitted (st : SlotState tok Call Lp) (t : τ) : SlotState tok Call Lp :=
  { st with committedTokens := st.committedTokens ++ [t] }

def freshSlot (tok : Tokenizer τ) (engine : Engine τ Call) (req : GenerationRequest) :
    SlotState tok Call Lp where
  committedTokens := []
  stream := []
  stop :=
    if req.stopSequences = [] then none
    else some
      { stopSequences := req.stopSequences
        stopTracker := new tok false engine.toolParser
        stopPendingIds := []
        stopPendingText := [] }
  toolTracker := if req.stopOnToolCall then some (new tok false engine.toolParser) else none
  logprobsAcc := none

variable [DecidableEq τ] (tok) (engine : Engine τ Call) (req : GenerationRequest)

/-- `_activate_slot`: the anchor is the request's first generated token. -/
def activateSlot (anchor : τ) : Phase tok Call Lp :=
  if anchor ∈ engine.eosTokenIds then
    .finished
      { committedTokenIds := []
        stream := []
        finishReason := .stop
        matchedStopSequence := none
        terminalTokenId := some anchor
        finishSource := .eos
        logprobs := none }
  else
    let checked := stopCheckToken req (appendCommitted (freshSlot tok engine req) anchor) anchor
    match checked.1 with
    | some seq =>
      finishRequest (dropStopPendingFromCommitted checked.2) .stop .stopSequence (some anchor) (some seq)
    | none =>
      let tool := toolCallCheckToken checked.2 anchor
      if tool.1 then
        let st := putUnlessStop req (flushStopPending req tool.2) [anchor]
        finishRequest st .toolCalls .toolCall (some anchor) none
      else
        let st := putUnlessStop req tool.2 [anchor]
        if lengthReached req st then finishRequest (flushStopPending req st) .length .length none none
        else .running st

variable {tok}

def logToken (st : SlotState tok Call Lp) : Option Lp → SlotState tok Call Lp
  | some lp =>
    if req.logprobs then { st with logprobsAcc := some (st.logprobsAcc.getD [] ++ [lp]) } else st
  | none => st

/-- The plain round behind a stop check without a match. -/
def plainTail (st : SlotState tok Call Lp) (t : τ) : Phase tok Call Lp :=
  let st := putUnlessStop req st [t]
  let tool := toolCallCheckToken st t
  if tool.1 then finishRequest (flushStopPending req tool.2) .toolCalls .toolCall (some t) none
  else if lengthReached req tool.2 then
    finishRequest (flushStopPending req tool.2) .length .length none none
  else .running tool.2

def plainRound (st : SlotState tok Call Lp) (t : τ) (lp : Option Lp) : Phase tok Call Lp :=
  if lengthReached req st then finishRequest (flushStopPending req st) .length .length none none
  else if t ∈ engine.eosTokenIds then
    finishRequest (flushStopPending req st) .stop .eos (some t) none
  else
    let checked := stopCheckToken req (logToken req (appendCommitted st t) lp) t
    match checked.1 with
    | some seq =>
      finishRequest (dropStopPendingFromCommitted checked.2) .stop .stopSequence (some t) (some seq)
    | none => plainTail req checked.2 t

/-- How the loop over the tokens of a speculative round was left. -/
inductive LoopEnd (τ : Type) where
  | exhausted
  | length
  | eos (t : τ)
  | stopSequence (t : τ) (seq : Text)
  | toolCall (t : τ)
  deriving DecidableEq, Repr

/-- The loop over `decision["committed"]`: the slot state and the kept tokens when it is left. -/
def speculativeLoop : SlotState tok Call Lp → List τ → List τ → SlotState tok Call Lp × List τ × LoopEnd τ
  | st, kept, [] => (st, kept, .exhausted)
  | st, kept, t :: ts =>
    if lengthReached req st then (st, kept, .length)
    else if t ∈ engine.eosTokenIds then (st, kept, .eos t)
    else
      let checked := stopCheckToken req (appendCommitted st t) t
      match checked.1 with
      | some seq => (checked.2, kept ++ [t], .stopSequence t seq)
      | none =>
        let tool := toolCallCheckToken checked.2 t
        if tool.1 then (tool.2, kept ++ [t], .toolCall t)
        else speculativeLoop tool.2 (kept ++ [t]) ts

def streamKept (st : SlotState tok Call Lp) (kept : List τ) : SlotState tok Call Lp :=
  if kept.isEmpty then st else putUnlessStop req st kept

def speculativeEnd (st : SlotState tok Call Lp) (kept : List τ) (ending : LoopEnd τ) :
    Phase tok Call Lp :=
  let st := match ending with
    | .stopSequence _ _ => dropStopPendingFromCommitted st
    | .toolCall _ => streamKept req (flushStopPending req st) kept
    | _ => streamKept req st kept
  match ending with
  | .exhausted =>
    if lengthReached req st then finishRequest (flushStopPending req st) .length .length none none
    else .running st
  | .length => finishRequest (flushStopPending req st) .length .length none none
  | .eos t => finishRequest (flushStopPending req st) .stop .eos (some t) none
  | .stopSequence t seq => finishRequest st .stop .stopSequence (some t) (some seq)
  | .toolCall t => finishRequest (flushStopPending req st) .toolCalls .toolCall (some t) none

def logTokens (st : SlotState tok Call Lp) : Option (List Lp) → SlotState tok Call Lp
  | some lps =>
    if req.logprobs then { st with logprobsAcc := some (st.logprobsAcc.getD [] ++ lps) } else st
  | none => st

def speculativeRound (st : SlotState tok Call Lp) (newTokens : List τ) (lps : Option (List Lp)) :
    Phase tok Call Lp :=
  let looped := speculativeLoop engine req (logTokens req st lps) [] newTokens
  speculativeEnd req looped.1 looped.2.1 looped.2.2

/-- What the backend hands the loop for a slot: one sampled token, or an accepted run of them. -/
inductive Round (τ Lp : Type) where
  | plain (token : τ) (lp : Option Lp)
  | speculative (tokens : List τ) (lps : Option (List Lp))
  deriving DecidableEq, Repr

def Round.tokens : Round τ Lp → List τ
  | .plain t _ => [t]
  | .speculative ts _ => ts

/-- A finished request has left its slot; later rounds do not reach it. -/
def step : Phase tok Call Lp → Round τ Lp → Phase tok Call Lp
  | .finished r, _ => .finished r
  | .running st, .plain t lp => plainRound engine req st t lp
  | .running st, .speculative ts lps => speculativeRound engine req st ts lps

variable (tok)

def serve (anchor : τ) (rounds : List (Round τ Lp)) : Phase tok Call Lp :=
  rounds.foldl (step engine req) (activateSlot tok engine req anchor)

def charEngine : Engine Char Text := ⟨['#'], .verbatim⟩

/-- A streaming request with the given stop sequences and nothing else that could end it early. -/
def stopRequest (stops : List Text) : GenerationRequest := ⟨64, stops, false, true, false⟩

end CommitLoop
