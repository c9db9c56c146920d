import BlackweLLM.CausalModel
import BlackweLLM.LagunaReplay

/-!
# Laguna same-slot prefix reuse

The admission waves, decode rounds and resets of `server/engine.py` over the
slots of `runtime/backends/laguna.py`. A slot keeps its KV rows and the token
history of the request before; a prompt that agrees with such a history skips
the rows it would compute again.

A row is a function of its token and of the rows in front of it.
-/

namespace LagunaSlotReuse

open Function CausalModel LagunaReplay

structure Config (Tok Row Hid : Type) where
  model : CausalModel Tok Row Unit Hid
  blockSize : Nat
  window : Nat
  numSlots : Nat

structure SlotState (Tok Row : Type) where
  kv : Nat → Row
  kvLen : Nat
  committed : List Tok
  saved : Option (List Tok × Nat)

structure Server (Tok Row : Type) where
  slots : Nat → SlotState Tok Row
  pending : Nat → Option Nat
  freeSlots : List Nat
  /-- What the next round of an active slot feeds: `last_token` of a request that decodes, `anchor`
  of one that drafts. -/
  active : Nat → Option Tok
  /-- The rows that prefills found at the positions they skipped and the tokens they skipped them
  for, kept for the statements only. -/
  reused : List (List Row × List Tok)

/-- The slot with the longest hit, the first of them; `first` where nothing hits. -/
def bestSlot (hit : Nat → Nat) (first : Nat) (slots : List Nat) : Nat × Nat :=
  slots.foldl (fun best s => if best.2 < hit s then (s, hit s) else best) (first, 0)

variable {Tok Row Hid : Type} (cfg : Config Tok Row Hid)

def Config.rowsOf (ts : List Tok) : List Row := (cfg.model.after ts).rows

def forwardKv (kv : Nat → Row) (start : Nat) (ts : List Tok) : Nat → Row :=
  writeRows kv start ((cfg.model.forward ⟨readRows kv start, ()⟩ ts).map (·.1))

/-- `reset_slot`. A fresh slot keeps the history it has. -/
def resetSlot (s : SlotState Tok Row) : SlotState Tok Row where
  kv := s.kv
  kvLen := 0
  committed := []
  saved := if s.committed.isEmpty ∨ s.kvLen = 0 then s.saved else some (s.committed, s.kvLen)

/-- Round a hit that leaves no token to prefill down to the block before. -/
def leaveOne (promptLen hit : Nat) : Nat :=
  if promptLen ≤ hit then (promptLen - 1) / cfg.blockSize * cfg.blockSize else hit

def resetWave (wave : List (Nat × List Tok)) (s : Server Tok Row) : Server Tok Row :=
  wave.foldl (fun s a => { s with slots := update s.slots a.1 (resetSlot (s.slots a.1)) }) s

/-- The hit that `prefill_chunked_begin` takes for a slot. -/
def takenHit (s : Server Tok Row) (slot : Nat) (prompt : List Tok) : Nat :=
  leaveOne cfg prompt.length ((s.pending slot).getD 0)

/-- Where a prefill begins to write: behind the hit, or in front of it to rebuild the window. -/
def prefillStart (hit : Nat) : Nat := hit - min cfg.window hit

/-- One slot of `prefill_chunked_begin`, up to its first `written` rows. -/
def beginPrefill (s : Server Tok Row) (slot : Nat) (prompt : List Tok) (written : Nat) : Server Tok Row :=
  let hit := takenHit cfg s slot prompt
  let start := prefillStart cfg hit
  let st := s.slots slot
  { s with
    slots := update s.slots slot
      { st with kv := forwardKv cfg st.kv start ((prompt.drop start).take written) }
    pending := update s.pending slot none
    reused := if 0 < hit then s.reused ++ [(readRows st.kv hit, prompt.take hit)] else s.reused }

def prefillSlot (s : Server Tok Row) (slot : Nat) (prompt : List Tok) (first : Tok) : Server Tok Row :=
  let s := beginPrefill cfg s slot prompt prompt.length
  let st := { s.slots slot with kvLen := prompt.length, committed := prompt ++ [first] }
  { s with slots := update s.slots slot st }

def prefillAll (wave : List (Nat × List Tok)) (firsts : List Tok) (s : Server Tok Row) : Server Tok Row :=
  (wave.zip firsts).foldl (fun s a => prefillSlot cfg s a.1.1 a.1.2 a.2) s

/-- `_activate_slot` for each request of the wave. -/
def activateAll (wave : List (Nat × List Tok)) (firsts : List Tok) (s : Server Tok Row) : Server Tok Row :=
  (wave.zip firsts).foldl (fun s a => { s with active := update s.active a.1.1 (some a.2) }) s

variable [DecidableEq Tok]

def hitLength (prompt : List Tok) : Option (List Tok × Nat) → Nat
  | none => 0
  | some (cached, len) =>
    leaveOne cfg prompt.length (min (matchLength cached prompt) len / cfg.blockSize * cfg.blockSize)

def findBestSlotForPrompt (s : Server Tok Row) (prompt : List Tok) (free : List Nat) : Nat × Nat :=
  bestSlot (fun slot => hitLength cfg prompt (s.slots slot).saved) (free.headD 0) free

/-- The search of `reconcile_prefix_hit`, over every slot of the backend. -/
def findBestHistory (s : Server Tok Row) (prompt : List Tok) : Nat × Nat :=
  bestSlot (fun slot => hitLength cfg prompt (s.slots slot).saved) 0 (List.range cfg.numSlots)

def reconcilePrefixHit (s : Server Tok Row) (prompt : List Tok) : Server Tok Row :=
  let best := findBestHistory cfg s prompt
  if 0 < best.2 then { s with pending := update s.pending best.1 (some best.2) } else s

/-- The slots of a wave, one prompt after the other, and the slots that stay free. -/
def assignSlots (s : Server Tok Row) : List Nat → List (List Tok) → List (Nat × List Tok) × List Nat
  | free, [] => ([], free)
  | free, prompt :: prompts =>
    let best := (findBestSlotForPrompt cfg s prompt free).1
    let rest := assignSlots s (free.erase best) prompts
    ((best, prompt) :: rest.1, rest.2)

/-- Everything an admission does in front of `prefill_chunked_begin`. -/
def prepareWave (wave : List (Nat × List Tok)) (s : Server Tok Row) : Server Tok Row :=
  (wave.map Prod.snd).foldl (reconcilePrefixHit cfg) (resetWave wave s)

inductive Op (Tok : Type) where
  /-- A wave whose prefill selects these first tokens. -/
  | wave (prompts : List (List Tok)) (firsts : List Tok)
  /-- A wave whose prefill raises in the slot behind these first tokens, with some rows written. -/
  | waveFailed (prompts : List (List Tok)) (firsts : List Tok) (written : Nat)
  | decode (slot : Nat) (next : Tok)
  /-- A speculative round: the drafts, how many are accepted and the token behind them. -/
  | verify (slot : Nat) (drafts : List Tok) (accepted : Nat) (recovery : Tok)
  /-- The request of a slot ends, is cancelled or times out. -/
  | finish (slot : Nat)

/-- A forward of `ts` behind the KV length of an active slot, of which `kept` rows stay. -/
def advance (s : Server Tok Row) (slot : Nat) (ts : List Tok) (kept : Nat) (committed : List Tok) (next : Tok) :
    Server Tok Row :=
  let st := s.slots slot
  { s with
    slots := update s.slots slot
      { st with
        kv := forwardKv cfg st.kv st.kvLen ts
        kvLen := st.kvLen + kept
        committed := st.committed ++ committed }
    active := update s.active slot (some next) }

def next (s : Server Tok Row) : Op Tok → Option (Server Tok Row)
  | .wave prompts firsts =>
    let wave := assignSlots cfg s s.freeSlots prompts
    if prompts.length ≤ s.freeSlots.length ∧ firsts.length = prompts.length ∧ [] ∉ prompts then
      some (activateAll wave.1 firsts
        { prefillAll cfg wave.1 firsts (prepareWave cfg wave.1 s) with
          pending := fun _ => none
          freeSlots := wave.2 })
    else none
  | .waveFailed prompts firsts written =>
    let wave := assignSlots cfg s s.freeSlots prompts
    if prompts.length ≤ s.freeSlots.length ∧ [] ∉ prompts.take firsts.length then
      match wave.1[firsts.length]? with
      | none => none
      | some failing =>
        some (resetWave wave.1
          { beginPrefill cfg (prefillAll cfg wave.1 firsts (prepareWave cfg wave.1 s)) failing.1 failing.2 written with
            freeSlots := wave.2 ++ wave.1.map Prod.fst })
    else none
  | .decode slot next =>
    match s.active slot with
    | none => none
    -- the token that was fed is appended, not the selected one
    | some fed => some (advance cfg s slot [fed] 1 [fed] next)
  | .verify slot drafts accepted recovery =>
    match s.active slot with
    | none => none
    | some anchor =>
      if accepted ≤ drafts.length then
        some (advance cfg s slot (anchor :: drafts) (accepted + 1) (drafts.take accepted ++ [recovery]) recovery)
      else none
  | .finish slot =>
    match s.active slot with
    | none => none
    | some _ =>
      some { s with
        slots := update s.slots slot (resetSlot (s.slots slot))
        freeSlots := s.freeSlots ++ [slot]
        active := update s.active slot none }

/-- A server behind `_load_model`: no history, the first slots free. -/
def start (kv : Nat → Nat → Row) (capacity : Nat) : Server Tok Row where
  slots slot := ⟨kv slot, 0, [], none⟩
  pending _ := none
  freeSlots := List.range capacity
  active _ := none
  reused := []

/-- Every prefill found at the skipped positions the rows of exactly the tokens it skipped. -/
def ReuseSound (s : Server Tok Row) : Prop := ∀ e ∈ s.reused, e.1 = cfg.rowsOf e.2

end LagunaSlotReuse
