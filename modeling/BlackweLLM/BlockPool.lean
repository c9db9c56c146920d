import BlackweLLM.LinkedQueue
import BlackweLLM.RaisingState
import BlackweLLM.StepRun

/-!
# The block pool

`BlockPool` and its `FreeBlockQueue` of `runtime/block_pool.py`: reference
counts, the queue of free blocks between two sentinels, and the index from a
published hash to its block. A negative id is below the reserved ones as well.
-/

namespace BlockPool

open List Function LinkedQueue RaisingState

structure BlockHash where
  value : Nat
  numTokens : Nat
  deriving DecidableEq, Repr

/-- A sentinel of the queue, or a block. -/
inductive Node where
  | head
  | tail
  | block (id : Nat)
  deriving DecidableEq, Repr

inductive Verb where
  | free
  | reference
  | touch
  | publish
  deriving DecidableEq, Repr

inductive PoolError where
  | alreadyLinked (id : Nat)
  | brokenQueue
  | notQueued (id : Nat)
  | emptyQueue
  | negativeCount (n : Int)
  | exhausted (requested : Int) (free : Nat)
  | reservedQueued (id : Nat)
  | liveQueued (id refCnt : Nat)
  | duplicateIds (ids : List Nat)
  | reserved (verb : Verb) (id : Nat)
  | outOfRange (id : Nat)
  | doubleFree (id : Nat)
  deriving DecidableEq, Repr

structure Config where
  numBlocks : Nat
  reserved : Nat
  reserved_pos : 1 ≤ reserved
  reserved_lt : reserved < numBlocks

structure Pool where
  config : Config
  refCnt : Nat → Nat
  blockHash : Nat → Option BlockHash
  queue : Links Node
  len : Nat
  hashToBlock : Nat → Option Nat
  evictions : List Nat

abbrev PoolM := EStateM PoolError Pool

section Queue

/-- A block enters the queue between two neighbours. -/
def park (id : Nat) (prev next : Option Node) : PoolM Unit := do
  let p ← get
  raiseIf (p.queue.prev (.block id) ≠ none ∨ p.queue.next (.block id) ≠ none) (.alreadyLinked id)
  raiseIf (prev = none ∨ next = none) .brokenQueue
  set { p with queue := p.queue.insert prev (.block id) next, len := p.len + 1 }

def append (id : Nat) : PoolM Unit := do
  let p ← get
  park id (p.queue.prev .tail) (some .tail)

def appendleft (id : Nat) : PoolM Unit := do
  let p ← get
  park id (some .head) (p.queue.next .head)

/-- `remove`, and `_unlink` with its assertion. -/
def remove (id : Nat) : PoolM Unit := do
  let p ← get
  raiseIf (p.queue.prev (.block id) = none ∨ p.queue.next (.block id) = none) (.notQueued id)
  set { p with queue := p.queue.remove (.block id), len := p.len - 1 }

def popleft : PoolM Nat := do
  let p ← get
  match p.queue.next .head with
  | some (.block id) => do
    remove id
    pure id
  | _ => throw .emptyQueue

end Queue

/-- The sentinels without a block between them, and no reference and no hash. -/
def bare (c : Config) : Pool where
  config := c
  refCnt := fun _ => 0
  blockHash := fun _ => none
  queue := ⟨update (fun _ => none) .tail (some .head), update (fun _ => none) .head (some .tail), some .head, some .tail⟩
  len := 0
  hashToBlock := fun _ => none
  evictions := []

def start (c : Config) : Pool := endState ((forM (range' c.reserved (c.numBlocks - c.reserved)) append) (bare c))

section Operations

/-- The front of the queue, without its hash. -/
def evictOne : PoolM Nat := do
  let id ← popleft
  let p ← get
  match p.blockHash id with
  | none => pure id
  | some key => do
    set { p with
      hashToBlock := update p.hashToBlock key.value none
      blockHash := update p.blockHash id none
      evictions := p.evictions ++ [id] }
    pure id

def handOut : PoolM Nat := do
  let id ← evictOne
  let p ← get
  raiseIf (id < p.config.reserved) (.reservedQueued id)
  raiseIf (p.refCnt id ≠ 0) (.liveQueued id (p.refCnt id))
  set { p with refCnt := update p.refCnt id 1 }
  pure id

def handOutMany : Nat → PoolM (List Nat)
  | 0 => pure []
  | n + 1 => do
    let id ← handOut
    let ids ← handOutMany n
    pure (id :: ids)

def allocate (n : Int) : PoolM (List Nat) := do
  let p ← get
  raiseIf (n < 0) (.negativeCount n)
  raiseIf ((p.len : Int) < n) (.exhausted n p.len)
  let ids ← handOutMany n.toNat
  raiseIf (¬ids.Nodup) (.duplicateIds ids)
  pure ids

def checkId (verb : Verb) (id : Nat) : PoolM Unit := do
  let p ← get
  raiseIf (id < p.config.reserved) (.reserved verb id)
  raiseIf (p.config.numBlocks ≤ id) (.outOfRange id)

def freeOne (id : Nat) : PoolM Unit := do
  checkId .free id
  let p ← get
  raiseIf (p.refCnt id = 0) (.doubleFree id)
  let p := { p with refCnt := update p.refCnt id (p.refCnt id - 1) }
  set p
  if p.refCnt id = 0 then (if (p.blockHash id).isSome then append id else appendleft id) else pure ⟨⟩

def free (ids : List Nat) : PoolM Unit := forM ids freeOne

/-- One turn of `reference` and of `touch`: a block without references leaves the queue. -/
def addReference (verb : Verb) (id : Nat) : PoolM Unit := do
  checkId verb id
  let p ← get
  if p.refCnt id = 0 then remove id else pure ⟨⟩
  modify fun p => { p with refCnt := update p.refCnt id (p.refCnt id + 1) }

def reference (ids : List Nat) : PoolM Unit := forM ids (addReference .reference)
def touch (ids : List Nat) : PoolM Unit := forM ids (addReference .touch)

def cacheBlock (id : Nat) (blockHash : BlockHash) : PoolM Unit := do
  checkId .publish id
  let p ← get
  if (p.hashToBlock blockHash.value).isSome then pure ⟨⟩
  else set { p with
    blockHash := update p.blockHash id (some blockHash)
    hashToBlock := update p.hashToBlock blockHash.value (some id) }

def getCachedBlock (hashValue : Nat) (p : Pool) : Option Nat := p.hashToBlock hashValue

inductive Call where
  | allocate (n : Int)
  | free (ids : List Nat)
  | reference (ids : List Nat)
  | touch (ids : List Nat)
  | cacheBlock (id : Nat) (blockHash : BlockHash)
  | getCachedBlock (hashValue : Nat)

def call (p : Pool) : Call → Pool
  | .allocate n => endState (allocate n p)
  | .free ids => endState (free ids p)
  | .reference ids => endState (reference ids p)
  | .touch ids => endState (touch ids p)
  | .cacheBlock id blockHash => endState (cacheBlock id blockHash p)
  | .getCachedBlock _ => p

def step (p : Pool) (c : Call) : Option Pool := some (call p c)

end Operations

variable {p p' : Pool} {ids as bs : List Nat} {id : Nat}

/-- The queue from sentinel to sentinel. -/
def chain (ids : List Nat) : List Node := (.head :: ids.map .block) ++ [.tail]

def Usable (p : Pool) (id : Nat) : Prop := p.config.reserved ≤ id ∧ id < p.config.numBlocks

section Links

theorem chain_split (as bs : List Nat) :
    chain (as ++ id :: bs) = (.head :: as.map .block) ++ .block id :: (bs.map .block ++ [.tail]) := by simp [chain]

theorem chain_append (as bs : List Nat) :
    chain (as ++ bs) = (.head :: as.map .block) ++ (bs.map .block ++ [.tail]) := by
  simp [chain]

theorem block_mem_chain : Node.block id ∈ chain ids ↔ id ∈ ids := by simp [chain]

/-- A block between the two parts of the queue. -/
theorem park_ok (h : p.queue.Represents (chain (as ++ bs))) (hid : id ∉ as ++ bs) : ∃ q : Links Node,
    park id (Node.head :: as.map .block).getLast? (bs.map Node.block ++ [Node.tail]).head? p =
      .ok ⟨⟩ { p with queue := q, len := p.len + 1 } ∧ q.Represents (chain (as ++ id :: bs)) := by
  have hoff := h.off (.block id) (mt block_mem_chain.mp hid)
  have hlinks : ¬((Node.head :: as.map .block).getLast? = none ∨ (bs.map Node.block ++ [Node.tail]).head? = none) := by
    cases bs <;> simp
  refine ⟨p.queue.insert (Node.head :: as.map .block).getLast? (.block id) (bs.map Node.block ++ [Node.tail]).head?,
    ?_, ?_⟩
  · have hunlinked : ¬(p.queue.prev (.block id) ≠ none ∨ p.queue.next (.block id) ≠ none) := by simp [hoff]
    simp only [park, bind_of_ok (get_apply p), bind_of_ok (raiseIf_of_not hunlinked p),
      bind_of_ok (raiseIf_of_not hlinks p), set_apply]
  · rw [chain_split]
    rw [chain_append] at h
    exact h.insert (by simpa using hid)

theorem append_ok (h : p.queue.Represents (chain ids)) (hid : id ∉ ids) : ∃ q : Links Node,
    append id p = .ok ⟨⟩ { p with queue := q, len := p.len + 1 } ∧ q.Represents (chain (ids ++ [id])) := by
  have hlast := (h.link (.head :: ids.map .block) .tail [] rfl).1
  rw [append, bind_of_ok (get_apply p), hlast]
  have hchain : p.queue.Represents (chain (ids ++ [])) := by simpa using h
  exact park_ok hchain (by simpa using hid)

theorem appendleft_ok (h : p.queue.Represents (chain ids)) (hid : id ∉ ids) : ∃ q : Links Node,
    appendleft id p = .ok ⟨⟩ { p with queue := q, len := p.len + 1 } ∧ q.Represents (chain (id :: ids)) := by
  have hfirst := (h.link [] .head (ids.map .block ++ [.tail]) rfl).2
  rw [appendleft, bind_of_ok (get_apply p), hfirst]
  have hchain : p.queue.Represents (chain ([] ++ ids)) := h
  exact park_ok hchain hid

theorem remove_ok (h : p.queue.Represents (chain (as ++ id :: bs))) : ∃ q : Links Node,
    remove id p = .ok ⟨⟩ { p with queue := q, len := p.len - 1 } ∧ q.Represents (chain (as ++ bs)) := by
  rw [chain_split] at h
  obtain ⟨hprev, hnext⟩ := h.link _ _ _ rfl
  have hlinks : ¬(p.queue.prev (.block id) = none ∨ p.queue.next (.block id) = none) := by
    rw [hprev, hnext]
    cases bs <;> simp
  refine ⟨p.queue.remove (.block id), ?_, ?_⟩
  · simp only [remove, bind_of_ok (get_apply p), bind_of_ok (raiseIf_of_not hlinks p), set_apply]
  · rw [chain_append]
    exact h.remove

end Links

/-- The queue holds `ids`, which are the usable blocks without references, and the
index and the hashes of the blocks are inverse to each other. -/
structure Sound (p : Pool) (ids : List Nat) : Prop where
  links : p.queue.Represents (chain ids)
  len : p.len = ids.length
  mem_iff : ∀ id, id ∈ ids ↔ Usable p id ∧ p.refCnt id = 0
  index : ∀ value id, p.hashToBlock value = some id ↔ ∃ key, p.blockHash id = some key ∧ key.value = value

def Good (p : Pool) : Prop := ∃ ids, Sound p ids

theorem Sound.nodup (h : Sound p ids) : ids.Nodup := by
  have hnodup := h.links.nodup
  rw [chain, nodup_append, nodup_cons] at hnodup
  exact (nodup_map_iff (fun _ _ => Node.block.inj)).mp hnodup.1.2

theorem sound_start (c : Config) : Sound (start c) (range' c.reserved (c.numBlocks - c.reserved)) := by
  have hloop := ends_forM (g := append) (l := range' c.reserved (c.numBlocks - c.reserved)) (s := bare c)
    (I := fun done p => p.queue.Represents (chain done) ∧ p = { bare c with queue := p.queue, len := done.length })
    (E := fun _ => False) ?_ ⟨?_, rfl⟩
  · obtain ⟨⟨⟩, p, hrun, hlinks, hp⟩ := hloop.returns
    rw [start, hrun]
    have hlt := c.reserved_lt
    refine ⟨hlinks, by rw [endState, hp], fun id => ?_, fun value id => ?_⟩
    · rw [endState, hp, mem_range'_1, Usable]
      change _ ↔ (c.reserved ≤ id ∧ id < c.numBlocks) ∧ 0 = 0
      omega
    · rw [endState, hp, bare]
      simp
  · intro done id rest p hsplit ⟨hlinks, hp⟩
    have hnew : id ∉ done := by
      have hnodup : (range' c.reserved (c.numBlocks - c.reserved)).Nodup := nodup_range'
      rw [hsplit, nodup_middle, nodup_cons] at hnodup
      exact fun hmem => hnodup.1 (mem_append_left rest hmem)
    obtain ⟨q, hrun, hq⟩ := append_ok hlinks hnew
    rw [hrun]
    refine ⟨hq, ?_⟩
    rw [hp]
    simp [bare]
  · refine ⟨by simp [chain], rfl, rfl, fun as x bs hsplit => ?_, fun x hx => ?_⟩
    · obtain ⟨rfl, rfl, rfl⟩ | ⟨rfl, rfl, rfl⟩ : (as = [] ∧ x = .head ∧ bs = [.tail]) ∨ (as = [.head] ∧ x = .tail ∧ bs = []) := by
        rcases as with - | ⟨a, - | ⟨b, as⟩⟩ <;> simp_all [chain]
      · simp [bare]
      · simp [bare]
    · simp only [chain, map_nil, mem_append, mem_singleton, not_or] at hx
      simp [bare, hx.1, hx.2]

section Allocation

/-- What is handed out: the blocks lose their hashes, and each hash calls the callback. -/
structure Given (p : Pool) (taken : List Nat) (p' : Pool) : Prop where
  blockHash : ∀ id, p'.blockHash id = if id ∈ taken then none else p.blockHash id
  evictions : p'.evictions = p.evictions ++ taken.filter fun id => (p.blockHash id).isSome

theorem evictOne_ok (h : Sound p (id :: ids)) : ∃ p₁, evictOne p = .ok id p₁ ∧ Given p [id] p₁ ∧
    p₁.queue.Represents (chain ids) ∧ p₁.len = ids.length ∧ p₁.config = p.config ∧ p₁.refCnt = p.refCnt ∧
    ∀ value b, p₁.hashToBlock value = some b ↔ ∃ key, p₁.blockHash b = some key ∧ key.value = value := by
  have hchain : p.queue.Represents (chain ([] ++ id :: ids)) := h.links
  obtain ⟨q, hrun, hq⟩ := remove_ok hchain
  have hpop : popleft p = .ok id { p with queue := q, len := p.len - 1 } := by
    have hfirst : p.queue.next .head = some (.block id) := (h.links.link [] .head _ rfl).2
    simp only [popleft, bind_of_ok (get_apply p), hfirst, bind_of_ok hrun, pure_apply]
  have hlen : p.len - 1 = ids.length := by rw [h.len, length_cons, Nat.add_sub_cancel]
  simp only [evictOne, bind_of_ok hpop, bind_of_ok (get_apply _)]
  cases hhash : p.blockHash id with
  | none =>
    refine ⟨_, rfl, ⟨fun b => ?_, by simp [hhash]⟩, hq, hlen, rfl, rfl, h.index⟩
    by_cases hb : b = id <;> simp [hb, hhash]
  | some key =>
    refine ⟨_, rfl, ⟨fun b => ?_, by simp [hhash]⟩, hq, hlen, rfl, rfl, fun value b => ?_⟩
    · simp [update_apply]
    · have hindex := h.index value b
      have hkey := (h.index key.value id).mpr ⟨key, hhash, rfl⟩
      simp only [update_apply]
      by_cases hb : b = id
      · subst hb
        by_cases hvalue : value = key.value
        · simp [hvalue]
        · simpa [hvalue, hhash, eq_comm] using hindex
      · by_cases hvalue : value = key.value
        · subst hvalue
          rw [hkey] at hindex
          simpa [hb, Ne.symm hb] using hindex
        · simpa [hb, hvalue] using hindex

theorem handOut_ok (h : Sound p (id :: ids)) : ∃ p', handOut p = .ok id p' ∧ Given p [id] p' ∧ Sound p' ids := by
  obtain ⟨p₁, hrun, hgiven, hlinks, hlen, hconfig, hrefs, hindex⟩ := evictOne_ok h
  obtain ⟨husable, hfree⟩ := (h.mem_iff id).mp (by simp)
  have hreserved : ¬id < p₁.config.reserved := by
    rw [hconfig]
    exact Nat.not_lt.mpr husable.1
  have hcount : ¬p₁.refCnt id ≠ 0 := by
    rw [hrefs]
    exact not_not.mpr hfree
  refine ⟨{ p₁ with refCnt := update p₁.refCnt id 1 }, ?_, ⟨hgiven.blockHash, hgiven.evictions⟩,
    hlinks, hlen, fun b => ?_, hindex⟩
  · simp only [handOut, bind_of_ok hrun, bind_of_ok (get_apply p₁), bind_of_ok (raiseIf_of_not hreserved p₁),
      bind_of_ok (raiseIf_of_not hcount p₁), bind_of_ok (set_apply _ _), pure_apply]
  · have hmem := h.mem_iff b
    simp only [Usable, hconfig, hrefs, update_apply] at hmem ⊢
    by_cases hb : b = id
    · simp [hb, (nodup_cons.mp h.nodup).1]
    · simpa [hb] using hmem

theorem handOutMany_ok (n : Nat) (h : Sound p ids) (hn : n ≤ ids.length) :
    ∃ p', handOutMany n p = .ok (ids.take n) p' ∧ Given p (ids.take n) p' ∧ Sound p' (ids.drop n) := by
  induction n generalizing p ids with
  | zero => exact ⟨p, rfl, ⟨by simp, by simp⟩, h⟩
  | succ n ih =>
    cases ids with
    | nil => simp at hn
    | cons id ids =>
      obtain ⟨p₁, hrun, hgiven, hsound⟩ := handOut_ok h
      obtain ⟨p', hmany, hgiven', hsound'⟩ := ih hsound (by simpa using hn)
      have hnew : id ∉ ids.take n := fun hmem => (nodup_cons.mp h.nodup).1 (mem_of_mem_take hmem)
      refine ⟨p', ?_, ⟨fun b => ?_, ?_⟩, hsound'⟩
      · simp only [handOutMany, bind_of_ok hrun, bind_of_ok hmany, pure_apply, take_succ_cons]
      · rw [hgiven'.blockHash, hgiven.blockHash, take_succ_cons]
        by_cases hb : b = id <;> simp [hb]
      · have hsame : (ids.take n).filter (fun b => (p₁.blockHash b).isSome) =
            (ids.take n).filter fun b => (p.blockHash b).isSome := by
          refine filter_congr fun b hb => ?_
          have hne : b ≠ id := fun heq => hnew (heq ▸ hb)
          rw [hgiven.blockHash, if_neg (by simpa using hne)]
        rw [hgiven'.evictions, hgiven.evictions, hsame, take_succ_cons, append_assoc, ← filter_append]
        rfl

/-- An allocation that raises changes nothing. -/
theorem allocate_ends (h : Sound p ids) (n : Int) :
    Ends (fun taken p' => taken.Nodup ∧ Given p taken p' ∧ Good p') (· = p) (allocate n p) := by
  refine ends_get_bind (ends_raiseIf_bind (fun _ => rfl) fun hneg => ends_raiseIf_bind (fun _ => rfl) fun hfree => ?_)
  obtain ⟨p', hrun, hgiven, hsound⟩ := handOutMany_ok n.toNat h (by rw [← h.len]; omega)
  have hnodup : (ids.take n.toNat).Nodup := h.nodup.sublist (take_sublist _ _)
  simp only [bind_of_ok hrun, bind_of_ok (raiseIf_of_not (not_not.mpr hnodup) p'), pure_apply]
  exact ⟨hnodup, hgiven, _, hsound⟩

end Allocation

section References

theorem ends_checkId {verb : Verb} {Q : Unit → Pool → Prop} {f : Unit → PoolM Unit} (hp : Good p)
    (h : Usable p id → Ends Q Good (f ⟨⟩ p)) : Ends Q Good ((checkId verb id >>= f) p) := by
  simp only [checkId, bind_assoc]
  refine ends_get_bind (ends_raiseIf_bind (fun _ => hp) fun hlo => ends_raiseIf_bind (fun _ => hp) fun hhi => ?_)
  exact h ⟨Nat.not_lt.mp hlo, Nat.not_le.mp hhi⟩

/-- The queue gains or loses the block whose count reaches or leaves zero. -/
theorem Sound.recount (h : Sound p ids) (husable : Usable p id) {n : Nat} {bs : List Nat} {q : Links Node} {len : Nat}
    (hlinks : q.Represents (chain bs)) (hlen : len = bs.length) (hid : id ∈ bs ↔ n = 0)
    (hother : ∀ b, b ≠ id → (b ∈ bs ↔ b ∈ ids)) :
    Sound { p with queue := q, len := len, refCnt := update p.refCnt id n } bs := by
  refine ⟨hlinks, hlen, fun b => ?_, h.index⟩
  by_cases hb : b = id
  · subst hb
    simp only [update_self, hid]
    exact ⟨fun hn => ⟨husable, hn⟩, fun h => h.2⟩
  · rw [hother b hb, h.mem_iff b]
    simp [hb, Usable]

theorem freeOne_good (hp : Good p) (id : Nat) : Ends (fun _ => Good) Good (freeOne id p) := by
  refine ends_checkId hp fun husable => ends_get_bind (ends_raiseIf_bind (fun _ => hp) fun hlive => ?_)
  obtain ⟨ids, h⟩ := hp
  have hnot : id ∉ ids := fun hmem => hlive ((h.mem_iff id).mp hmem).2
  refine ends_set_bind ?_
  simp only [update_self]
  by_cases hzero : p.refCnt id - 1 = 0
  · rw [if_pos hzero, hzero]
    cases (p.blockHash id).isSome with
    | true =>
      obtain ⟨q, hrun, hq⟩ := append_ok (p := { p with refCnt := update p.refCnt id 0 }) h.links hnot
      rw [if_pos rfl, hrun]
      exact ⟨_, h.recount husable hq (by simp [h.len]) (by simp) fun b hb => by simp [hb]⟩
    | false =>
      obtain ⟨q, hrun, hq⟩ := appendleft_ok (p := { p with refCnt := update p.refCnt id 0 }) h.links hnot
      rw [if_neg Bool.false_ne_true, hrun]
      exact ⟨_, h.recount husable hq (by simp [h.len]) (by simp) fun b hb => by simp [hb]⟩
  · rw [if_neg hzero]
    exact ⟨ids, h.recount husable h.links h.len (by simp [hnot, hzero]) fun b _ => Iff.rfl⟩

theorem addReference_good (hp : Good p) (verb : Verb) (id : Nat) :
    Ends (fun _ => Good) Good (addReference verb id p) := by
  refine ends_checkId hp fun husable => ends_get_bind ?_
  obtain ⟨ids, h⟩ := hp
  by_cases hfree : p.refCnt id = 0
  · obtain ⟨as, bs, rfl⟩ := append_of_mem ((h.mem_iff id).mpr ⟨husable, hfree⟩)
    obtain ⟨q, hrun, hq⟩ := remove_ok h.links
    rw [if_pos hfree, bind_of_ok hrun]
    have hnodup := nodup_middle.mp h.nodup
    refine ⟨as ++ bs, h.recount husable hq ?_ (by simp [(nodup_cons.mp hnodup).1]) fun b hb => by simp [hb]⟩
    simp [h.len]
  · rw [if_neg hfree]
    refine ⟨ids, h.recount husable h.links h.len ?_ fun b _ => Iff.rfl⟩
    simp [h.mem_iff, hfree]

theorem forM_good {f : Nat → PoolM Unit} (hf : ∀ {p : Pool}, Good p → ∀ id, Ends (fun _ => Good) Good (f id p))
    (hp : Good p) (ids : List Nat) : Good (endState ((forM ids f) p)) :=
  (ends_forM (I := fun _ => Good) (fun _ id _ _ _ hp => hf hp id) hp).endState (fun _ _ h => h) fun _ h => h

end References

section Runs

/-- A block that is published carries no hash yet, unless the call publishes nothing. -/
def Keeps (p : Pool) : Call → Prop
  | .cacheBlock id blockHash => Usable p id → p.blockHash id = none ∨ (p.hashToBlock blockHash.value).isSome
  | _ => True

theorem cacheBlock_good (hp : Good p) {key : BlockHash} (hkeep : Keeps p (.cacheBlock id key)) :
    Ends (fun _ => Good) Good (cacheBlock id key p) := by
  refine ends_checkId hp fun husable => ends_get_bind ?_
  cases hindexed : p.hashToBlock key.value with
  | some b => exact hp
  | none =>
    obtain ⟨ids, h⟩ := hp
    have hbare : p.blockHash id = none := by simpa [hindexed] using hkeep husable
    refine ⟨ids, h.links, h.len, h.mem_iff, fun value b => ?_⟩
    have hindex := h.index value b
    simp only [update_apply]
    by_cases hvalue : value = key.value
    · subst hvalue
      rw [hindexed] at hindex
      by_cases hb : b = id
      · simp [hb]
      · simpa [hb, Ne.symm hb] using hindex
    · by_cases hb : b = id
      · subst hb
        simpa [hvalue, hbare, eq_comm] using hindex
      · simpa [hvalue, hb] using hindex

theorem call_good {c : Call} (hp : Good p) (hkeep : Keeps p c) : Good (call p c) := by
  cases c with
  | allocate n =>
    obtain ⟨ids, h⟩ := hp
    exact (allocate_ends h n).endState (fun _ _ h => h.2.2) fun p' heq => heq ▸ ⟨ids, h⟩
  | free ids => exact forM_good freeOne_good hp ids
  | reference ids => exact forM_good (addReference_good · .reference) hp ids
  | touch ids => exact forM_good (addReference_good · .touch) hp ids
  | cacheBlock id key => exact (cacheBlock_good hp hkeep).endState (fun _ _ h => h) fun _ h => h
  | getCachedBlock value => exact hp

/-- The queue is the list of the free blocks, a hash is found at the block that carries it
and nowhere else, and a block that is handed out is found under no hash and was evicted once
if it was cached. -/
structure Serves (p : Pool) : Prop where
  queue : ∃ ids, p.queue.Represents (chain ids) ∧ p.len = ids.length ∧ ids.Nodup ∧
    ∀ id, id ∈ ids ↔ Usable p id ∧ p.refCnt id = 0
  index : ∀ value id, getCachedBlock value p = some id ↔ ∃ key, p.blockHash id = some key ∧ key.value = value
  allocation : ∀ n, Ends (fun taken p' => taken.Nodup ∧ (∀ id ∈ taken, ∀ value, getCachedBlock value p' ≠ some id) ∧
    p'.evictions = p.evictions ++ taken.filter fun id => (p.blockHash id).isSome) (· = p) (allocate n p)

theorem Good.serves (hp : Good p) : Serves p := by
  obtain ⟨ids, h⟩ := hp
  refine ⟨⟨ids, h.links, h.len, h.nodup, h.mem_iff⟩, h.index, fun n => (allocate_ends h n).mono ?_ fun _ => id⟩
  rintro taken p' ⟨hnodup, hgiven, ids', h'⟩
  refine ⟨hnodup, fun id hid value hfound => ?_, hgiven.evictions⟩
  obtain ⟨key, hkey, -⟩ := (h'.index value id).mp hfound
  rw [hgiven.blockHash, if_pos hid] at hkey
  cases hkey

theorem serves_of_run (c : Config) {calls : List Call} (hkeep : StepRun.Along step Keeps (start c) calls)
    (hrun : StepRun.run step (start c) calls = some p) : Serves p := by
  have hgood : Good p := by
    refine StepRun.invariant_of_steps (fun s a s' hs hkeep hstep => ?_) ⟨_, sound_start c⟩ hkeep hrun
    cases hstep
    exact call_good hs hkeep
  exact hgood.serves

def twoBlocks : Config := ⟨2, 1, by decide, by decide⟩

theorem serves_of_run_twoBlocks : Serves
    (call (call (call (start twoBlocks) (.allocate 1)) (.cacheBlock 1 ⟨7, 16⟩)) (.free [1])) :=
  @serves_of_run _ twoBlocks [.allocate 1, .cacheBlock 1 ⟨7, 16⟩, .free [1]]
    ⟨trivial, by rintro _ ⟨⟩; exact ⟨fun _ => .inl (by decide), by rintro _ ⟨⟩; exact ⟨trivial, fun _ _ => trivial⟩⟩⟩ rfl

/-- A block that is published again is still found under its first hash. -/
theorem stale_index : ¬∀ (c : Config) (calls : List Call) (p : Pool),
    StepRun.run step (start c) calls = some p → Serves p := by
  intro h
  have hserves := h twoBlocks [.allocate 1, .cacheBlock 1 ⟨7, 16⟩, .cacheBlock 1 ⟨8, 16⟩] _ rfl
  obtain ⟨key, hkey, hvalue⟩ := (hserves.index 7 1).mp (by decide)
  have hnow : (call (call (call (start twoBlocks) (.allocate 1)) (.cacheBlock 1 ⟨7, 16⟩)) (.cacheBlock 1 ⟨8, 16⟩)).blockHash 1 =
      some ⟨8, 16⟩ := by decide
  rw [show key = ⟨8, 16⟩ from Option.some.inj (hkey.symm.trans hnow)] at hvalue
  exact absurd hvalue (by decide)

end Runs

end BlockPool
