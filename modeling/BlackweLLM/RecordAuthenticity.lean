import BlackweLLM.CommittedRecord

/-!
# What the record authenticates

The record of a slot names what its cache and its recurrence have consumed, as
long as every plain decode feeds the token that the record already has next.
Checkpoints, block keys and persistent entries then name their content.
-/

namespace CommittedRecord

open List Function CausalModel KeyedLoop MtpAccept MtpEngine

variable {Tok Kv Gdn Hid Cache : Type}

/-- The first `kvLen` tokens of the record are those whose rows and state the slot has. -/
structure Authentic (E : Engine Tok Kv Gdn Hid Cache) (s : E.SlotOf) : Prop where
  le : s.kvLen ≤ s.committedTokens.length
  target : TargetAt E (s.committedTokens.take s.kvLen) s
  fresh : s.kvLen = 0 → s.committedTokens = []

/-- The token fed is the one that the record has, or gets, at the position it is written to. -/
def Feeds {E : Engine Tok Kv Gdn Hid Cache} (s : E.SlotOf) (token : Tok) : Prop :=
  (s.committedTokens ++ [token])[s.kvLen]? = some token

variable {E : Engine Tok Kv Gdn Hid Cache} {s s' : E.SlotOf}

theorem Authentic.length_take (h : Authentic E s) : (s.committedTokens.take s.kvLen).length = s.kvLen :=
  length_take_of_le h.le

theorem Authentic.rows_take (h : Authentic E s) {n : Nat} (hn : n ≤ s.kvLen) :
    readRows s.kv n = (E.model.after (s.committedTokens.take n)).rows := by
  have hrows := h.target.rows
  rw [h.length_take] at hrows
  have htake := congrArg (take n) hrows
  rwa [take_readRows _ hn, take_rows_after, take_take, Nat.min_eq_left hn] at htake

section Decode

variable {row : DecodeRow Tok}
variable {rows : List (Nat × DecodeRow Tok)}

theorem take_succ_of_feeds {record : List Tok} {token : Tok} {n : Nat} (hle : n ≤ record.length)
    (h : (record ++ [token])[n]? = some token) : (record ++ [token]).take (n + 1) = record.take n ++ [token] := by
  obtain ⟨hlt, hget⟩ := List.getElem?_eq_some_iff.mp h
  rw [take_succ_eq_append_getElem hlt, hget, take_append_of_le_length hle]

theorem decodeRow_authentic (h : Authentic E s) (hfeeds : Feeds s row.token) (hzero : s.active = 0) :
    Authentic E (decodeRow E row (advance E row s)) := by
  have hlen := h.length_take
  have hcontext := h.target.context
  rw [hlen, hzero] at hcontext
  have htake := take_succ_of_feeds h.le hfeeds
  have hrow : E.model.step (readRows s.kv s.kvLen) (s.columns 0) row.token =
      E.model.step (E.model.after (s.committedTokens.take s.kvLen)).rows
        (E.model.after (s.committedTokens.take s.kvLen)).gdn row.token := by
    rw [← hcontext]
  refine ⟨?_, ?_, fun hzero => absurd hzero (Nat.succ_ne_zero _)⟩
  · change s.kvLen + 1 ≤ (s.committedTokens ++ [row.token]).length
    simpa using h.le
  · change TargetAt E ((s.committedTokens ++ [row.token]).take (s.kvLen + 1)) _
    rw [htake]
    refine ⟨?_, ?_, ?_, h.target.active, h.target.col, ?_⟩
    · simp [decodeRow, advance, hlen]
    · simp [decodeRow, advance, hlen]
    · simp only [decodeRow, advance, Nat.add_sub_cancel, hrow, length_append, hlen, length_singleton]
      rw [readRows_writeRows _ _ _ (by simp), h.rows_take (Nat.le_refl _), after_append]
      rfl
    · simp only [decodeRow, advance, Nat.add_sub_cancel, hrow, hzero, update_self]
      rw [after_append]
      rfl

theorem decodeSerialRow_authentic (h : Authentic E s) (hfeeds : Feeds s row.token) {hiddens : List Hid}
    (hok : decodeSerialRow E row s = .ok (s', hiddens)) : Authentic E s' := by
  simp only [decodeSerialRow] at hok
  cases hforward : prefillSerial E [row.token] s with
  | error e => simp [hforward, Except.map] at hok
  | ok out =>
    obtain ⟨s₁, hiddens₁⟩ := out
    obtain ⟨htarget, -, -, hkvLen, hrecord, -⟩ := prefillSerial_spec h.target hforward
    simp only [hforward, Except.map, Except.ok.injEq, Prod.mk.injEq, hkvLen, hrecord] at hok
    obtain ⟨rfl, rfl⟩ := hok
    refine ⟨?_, ?_, fun hzero => absurd hzero (Nat.succ_ne_zero _)⟩
    · simpa using h.le
    · simp only [take_succ_of_feeds h.le hfeeds]
      exact ⟨htarget.seen, htarget.attn, htarget.rows, htarget.active, htarget.col, htarget.gdn⟩

/-- A speculative round, whatever its accept rule keeps. -/
theorem specRound_authentic (h : Authentic E s) {anchor bonus : Tok} {drafts : List Tok} {numAccepted : Nat}
    (hdrafts : drafts.length ≤ E.k) (hkept : numAccepted ≤ drafts.length)
    (hpending : s.committedTokens.drop s.kvLen = [anchor])
    (hok : specRound E anchor drafts numAccepted bonus s = .ok s') : Authentic E s' := by
  have hrecord : s.committedTokens = s.committedTokens.take s.kvLen ++ [anchor] := by
    rw [← hpending, take_append_drop]
  have hlen := h.length_take
  have hseen := h.target.seen
  by_cases hfull : E.maxSeqLen < (s.committedTokens.take s.kvLen).length + (anchor :: drafts).length
  · obtain ⟨e, he⟩ := verifyForward_full h.target hfull
    simp [specRound, he] at hok
  · obtain ⟨kv, attnSeqLen, columns, snapshots, hforward, hcand⟩ :=
      verifyForward_eq h.target (anchor :: drafts) (Nat.not_lt.mp hfull)
    obtain ⟨s₁, hcommit, htarget, hkvLen, -, hcommitted⟩ := commitRequest_eq hcand hdrafts
      ((E.model.forward (E.model.after (s.committedTokens.take s.kvLen)) (anchor :: drafts)).map (·.2.2)) none
      hkept (rfl : drafts.take numAccepted ++ [bonus] = _ ++ [bonus])
    simp only [specRound, hforward] at hok
    rw [hseen] at hok hcommit
    simp only [hcommit, Except.map, Except.ok.injEq] at hok
    subst hok
    have hextended : s₁.committedTokens =
        s.committedTokens.take s.kvLen ++ (anchor :: drafts).take (numAccepted + 1) ++ [bonus] := by
      rw [hcommitted, take_succ_cons]
      conv_lhs => rw [hrecord]
      simp
    have htaken : s₁.committedTokens.take s₁.kvLen =
        s.committedTokens.take s.kvLen ++ (anchor :: drafts).take (numAccepted + 1) := by
      rw [hextended, hkvLen, take_left']
      simp [hkept]
    refine ⟨?_, ?_, fun hzero => absurd hzero (by simp [hkvLen])⟩
    · rw [hextended, hkvLen]
      simp [hkept]
    · rw [htaken]
      exact htarget

section

variable {refuses : Nat → Bool} {table : Nat → E.SlotOf} (hnodup : (rows.map Prod.fst).Nodup)
include hnodup

/-- Where every slot of the batch has room, the loop advances all of them. -/
theorem buildDecodeBatch_done (hroom : ∀ r ∈ rows, (table r.1).kvLen < E.maxSeqLen ∧ refuses r.1 = false) :
    buildDecodeBatch E refuses rows table = .done (eachEntry (advance E) rows table) := by
  induction rows generalizing table with
  | nil => rfl
  | cons r rest ih =>
    simp only [map_cons, nodup_cons] at hnodup
    obtain ⟨hlt, hfree⟩ := hroom r (by simp)
    have hrest : ∀ q ∈ rest, (update table r.1 (advance E r.2 (table r.1)) q.1).kvLen < E.maxSeqLen ∧
        refuses q.1 = false := by
      intro q hq
      have hne : q.1 ≠ r.1 := fun heq => hnodup.1 (heq ▸ mem_map_of_mem hq)
      rw [update_of_ne hne]
      exact hroom q (by simp [hq])
    rw [buildDecodeBatch, if_neg (by simp [hfree, hlt])]
    exact ih hnodup.2 hrest

theorem decodeForwardBatched_authentic
    (hrows : ∀ r ∈ rows, Authentic E (table r.1) ∧ Feeds (table r.1) r.2.token ∧ (table r.1).active = 0 ∧
      (table r.1).kvLen < E.maxSeqLen ∧ refuses r.1 = false) :
    ∃ table', decodeForwardBatched E refuses rows table = .done table' ∧
      ∀ slot, table' slot = table slot ∨ slot ∈ rows.map Prod.fst ∧ Authentic E (table' slot) := by
  have hroom : ∀ r ∈ rows, (table r.1).kvLen < E.maxSeqLen ∧ refuses r.1 = false :=
    fun r hr => (hrows r hr).2.2.2
  refine ⟨_, by rw [decodeForwardBatched, buildDecodeBatch_done hnodup hroom], fun slot => ?_⟩
  by_cases hslot : slot ∈ rows.map Prod.fst
  · obtain ⟨r, hr, rfl⟩ := mem_map.mp hslot
    obtain ⟨hauthentic, hfeeds, hzero, -⟩ := hrows r hr
    rw [eachEntry_of_mem hnodup hr, eachEntry_of_mem hnodup hr]
    exact .inr ⟨hslot, decodeRow_authentic hauthentic hfeeds hzero⟩
  · rw [eachEntry_of_notMem hslot, eachEntry_of_notMem hslot]
    exact .inl rfl

end

theorem decodeSerial_authentic {table table' : Nat → E.SlotOf}
    {outs : List (List Hid)} (hnodup : (rows.map Prod.fst).Nodup)
    (hrows : ∀ r ∈ rows, Authentic E (table r.1) ∧ Feeds (table r.1) r.2.token)
    (hok : eachRequest (decodeSerialRow E) rows table = .ok (table', outs)) :
    ∀ slot, table' slot = table slot ∨ slot ∈ rows.map Prod.fst ∧ Authentic E (table' slot) := by
  intro slot
  rcases (Pointwise.of_eachRequest hnodup hok).lookup slot with ⟨-, hsame⟩ | ⟨row, hiddens, hmem, -, hone⟩
  · exact .inl hsame
  · obtain ⟨hauthentic, hfeeds⟩ := hrows _ hmem
    exact .inr ⟨mem_map_of_mem hmem, decodeSerialRow_authentic hauthentic hfeeds hone⟩

end Decode

section Names

variable {cfg : Config} {b : Backend E} {slot : Nat}
variable {tokens : List Tok} {exact budget : Bool}

structure NamesContent (b : Backend E) : Prop where
  checkpoint : ∀ slot c, b.checkpoints slot = some c → c.state = (E.model.after c.tokens).gdn
  registered : ∀ c ∈ b.registered, c.state = (E.model.after c.tokens).gdn
  published : ∀ key ∈ b.published, key.2 = (E.model.after key.1).rows
  retained : ∀ key ∈ b.retained, key.2 = (E.model.after key.1).rows
  persistent : ∀ entry ∈ b.persistent, entry.rows = (E.model.after entry.tokenIds).rows ∧
    entry.checkpoint = (E.model.after entry.tokenIds).gdn

theorem NamesContent.evictCheckpoint (h : NamesContent b) : NamesContent (evictCheckpoint slot b) where
  checkpoint := by
    intro other c hc
    rcases eq_or_ne other slot with rfl | hne
    · simp [CommittedRecord.evictCheckpoint] at hc
    · simp only [CommittedRecord.evictCheckpoint, update_of_ne hne] at hc
      exact h.checkpoint other c hc
  __ := h

theorem mem_blockBoundaries_le {kvLen bound : Nat} {includePartial : Bool}
    (h : bound ∈ blockBoundaries cfg kvLen includePartial) : bound ≤ kvLen := by
  rcases mem_append.mp h with hfull | hpartial
  · obtain ⟨i, hi, rfl⟩ := mem_map.mp hfull
    have hlt := mem_range.mp hi
    exact (Nat.le_div_iff_mul_le (Nat.pos_of_ne_zero fun h0 => by simp [h0] at hlt)).mp hlt
  · split_ifs at hpartial with hrest
    · exact Nat.le_of_eq (mem_singleton.mp hpartial)
    · simp at hpartial

theorem chainedBlockKeys_content (cfg : Config) (hslot : Authentic E s) {kvLen : Nat} (hle : kvLen ≤ s.kvLen)
    (includePartial : Bool) (n : Nat) :
    ∀ key ∈ (chainedBlockKeys cfg s.committedTokens kvLen includePartial s).take n,
      key.2 = (E.model.after key.1).rows := by
  intro key hkey
  obtain ⟨bound, hbound, rfl⟩ := mem_map.mp (mem_of_mem_take hkey)
  exact hslot.rows_take (Nat.le_trans (mem_blockBoundaries_le hbound) hle)

theorem NamesContent.publish (h : NamesContent b) {keys : List (List Tok × List Kv)}
    (hkeys : ∀ key ∈ keys, key.2 = (E.model.after key.1).rows) :
    NamesContent { b with published := b.published ++ keys } where
  __ := h
  published := by
    intro key hkey
    rcases mem_append.mp hkey with hkey | hkey
    · exact h.published key hkey
    · exact hkeys key hkey

theorem NamesContent.retain (h : NamesContent b) {rows : List Kv}
    (hrows : rows = (E.model.after tokens).rows) :
    NamesContent { b with retained := b.retained ++ [(tokens, rows)] } where
  __ := h
  retained := by
    intro key hkey
    rcases mem_append.mp hkey with hkey | hkey
    · exact h.retained key hkey
    · cases mem_singleton.mp hkey
      exact hrows

theorem NamesContent.persist (h : NamesContent b) {entry : PersistentEntry Tok Kv Gdn}
    (hrows : entry.rows = (E.model.after entry.tokenIds).rows)
    (hstate : entry.checkpoint = (E.model.after entry.tokenIds).gdn) :
    NamesContent { b with persistent := b.persistent ++ [entry] } where
  __ := h
  persistent := by
    intro other hother
    rcases mem_append.mp hother with hother | hother
    · exact h.persistent other hother
    · cases mem_singleton.mp hother
      exact ⟨hrows, hstate⟩

theorem storeEntry_slots {publishes : Nat} {c : Checkpoint Tok Gdn} :
    (storeEntry cfg exact slot publishes budget c b).slots = b.slots ∧
      (storeEntry cfg exact slot publishes budget c b).inFlight = b.inFlight := by
  simp only [storeEntry]
  split_ifs <;> exact ⟨rfl, rfl⟩

/-- Rows that some name of `tokens`, or of a text that goes on behind them, stands for. -/
def Backend.RowsNamed (b : Backend E) (tokens : List Tok) (rows : List Kv) : Prop :=
  ∃ key ∈ b.published ++ b.retained ++ b.persistent.map fun entry => (entry.tokenIds, entry.rows),
    tokens = key.1.take tokens.length ∧ rows = key.2.take tokens.length

/-- A checkpoint that was taken, or stored, under the name of `tokens`. -/
def Backend.StateNamed (b : Backend E) (tokens : List Tok) (state : Gdn) : Prop :=
  (∃ c ∈ b.registered, c.tokens = tokens ∧ c.state = state) ∨
    ∃ entry ∈ b.persistent, entry.tokenIds = tokens ∧ entry.checkpoint = state

theorem NamesContent.rows_of_named (h : NamesContent b) {rows : List Kv}
    (hnamed : b.RowsNamed tokens rows) : rows = (E.model.after tokens).rows := by
  obtain ⟨key, hkey, htokens, hrows⟩ := hnamed
  have hcontent : key.2 = (E.model.after key.1).rows := by
    rcases mem_append.mp hkey with hkey | hkey
    · rcases mem_append.mp hkey with hkey | hkey
      · exact h.published key hkey
      · exact h.retained key hkey
    · obtain ⟨entry, hentry, rfl⟩ := mem_map.mp hkey
      exact (h.persistent entry hentry).1
  rw [hrows, hcontent, take_rows_after, ← htokens]

theorem NamesContent.state_of_named (h : NamesContent b) {state : Gdn}
    (hnamed : b.StateNamed tokens state) : state = (E.model.after tokens).gdn := by
  rcases hnamed with ⟨c, hc, rfl, rfl⟩ | ⟨entry, hentry, rfl, rfl⟩
  · exact h.registered c hc
  · exact (h.persistent entry hentry).2

/-- What a restore of named content leaves in a fresh slot. -/
theorem restorePrefix_target {rows : List Kv} {checkpoint : Gdn}
    (h : Authentic E s) (hrows : rows = (E.model.after tokens).rows)
    (hstate : checkpoint = (E.model.after tokens).gdn) : TargetAt E tokens (restorePrefix E rows checkpoint s) := by
  have hlen : rows.length = tokens.length := by rw [hrows, length_rows_after]
  refine ⟨hlen, hlen, ?_, h.target.active, h.target.col, ?_⟩
  · have hread := readRows_writeRows s.kv 0 rows (Nat.le_refl _)
    rw [Nat.zero_add, take_length, hlen] at hread
    rw [← hrows]
    simpa only [readRows, restorePrefix, range_zero, map_nil, nil_append] using hread
  · simp [restorePrefix, hstate]

variable [DecidableEq Tok]

@[simp] theorem maybeCheckpoint_slots (force : Bool) : (maybeCheckpoint cfg force slot b).slots = b.slots := by
  simp only [maybeCheckpoint]
  split_ifs <;> rfl
@[simp] theorem maybeCheckpoint_inFlight (force : Bool) :
    (maybeCheckpoint cfg force slot b).inFlight = b.inFlight := by
  simp only [maybeCheckpoint]
  split_ifs <;> rfl

theorem NamesContent.maybeCheckpoint (h : NamesContent b) (hslot : Authentic E (b.slots slot)) (force : Bool) :
    NamesContent (maybeCheckpoint cfg force slot b) := by
  have hstate := hslot.target.gdn
  simp only [CommittedRecord.maybeCheckpoint]
  split_ifs
  · exact h
  · exact h
  · exact h
  · exact h
  · exact h.evictCheckpoint
  · refine ⟨fun other c hc => ?_, fun c hc => ?_, h.published, h.retained, h.persistent⟩
    · rcases eq_or_ne other slot with rfl | hne
      · simp only [update_self] at hc
        cases hc
        exact hstate
      · simp only [update_of_ne hne] at hc
        exact h.checkpoint other c hc
    · rcases mem_append.mp hc with hc | hc
      · exact h.registered c hc
      · cases mem_singleton.mp hc
        exact hstate

/-- A checkpoint of the slot is an old one, or it was taken behind the record. -/
theorem maybeCheckpoint_checkpoint {force : Bool} {c : Checkpoint Tok Gdn}
    (hc : (maybeCheckpoint cfg force slot b).checkpoints slot = some c) :
    b.checkpoints slot = some c ∨ c.len = (b.slots slot).kvLen ∧
      c.tokens = (b.slots slot).committedTokens.take (b.slots slot).kvLen := by
  simp only [maybeCheckpoint] at hc
  split_ifs at hc
  · exact .inl hc
  · exact .inl hc
  · exact .inl hc
  · exact .inl hc
  · simp [evictCheckpoint] at hc
  · simp only [update_self] at hc
    cases hc
    exact .inr ⟨rfl, rfl⟩

theorem storePersistentPrefix_cases (cfg : Config) (exact : Bool) (slot publishes : Nat) (budget : Bool)
    (b : Backend E) :
    storePersistentPrefix cfg exact slot publishes budget b = b ∨
      ∃ c, b.checkpoints slot = some c ∧ storeSkips exact (b.slots slot) c b.persistent = false ∧
        storePersistentPrefix cfg exact slot publishes budget b =
          storeEntry cfg exact slot publishes budget c b := by
  simp only [storePersistentPrefix]
  split_ifs
  · exact .inl rfl
  · cases hc : b.checkpoints slot with
    | none => exact .inl rfl
    | some c =>
      by_cases hskip : storeSkips exact (b.slots slot) c b.persistent = true
      · exact .inl (by simp [hskip])
      · exact .inr ⟨c, rfl, by simpa using hskip, by simp [hskip]⟩

@[simp] theorem storePersistentPrefix_slots {publishes : Nat} :
    (storePersistentPrefix cfg exact slot publishes budget b).slots = b.slots := by
  rcases storePersistentPrefix_cases cfg exact slot publishes budget b with h | ⟨c, -, -, h⟩
  · rw [h]
  · rw [h, storeEntry_slots.1]
@[simp] theorem storePersistentPrefix_inFlight {publishes : Nat} :
    (storePersistentPrefix cfg exact slot publishes budget b).inFlight = b.inFlight := by
  rcases storePersistentPrefix_cases cfg exact slot publishes budget b with h | ⟨c, -, -, h⟩
  · rw [h]
  · rw [h, storeEntry_slots.2]

/-- The checkpoint that the store takes over must be one of this record. -/
theorem NamesContent.storePersistentPrefix (h : NamesContent b) (hslot : Authentic E (b.slots slot))
    (cfg : Config) (exact : Bool) (publishes : Nat) (budget : Bool)
    (hown : ∀ c, b.checkpoints slot = some c → (exact = true → c.len = (b.slots slot).kvLen) →
      c.len ≤ (b.slots slot).committedTokens.length →
      c.tokens = (b.slots slot).committedTokens.take c.len ∧ c.len ≤ (b.slots slot).kvLen) :
    NamesContent (storePersistentPrefix cfg exact slot publishes budget b) := by
  rcases storePersistentPrefix_cases cfg exact slot publishes budget b with hsame | ⟨c, hc, hskip, hstored⟩
  · rw [hsame]
    exact h
  · simp only [storeSkips, Bool.or_eq_false_iff, Bool.and_eq_false_iff, decide_eq_false_iff_not] at hskip
    obtain ⟨⟨⟨⟨hexact, -⟩, hlen⟩, -⟩, -⟩ := hskip
    have hboundary : exact = true → c.len = (b.slots slot).kvLen := by
      intro he
      rcases hexact with hne | ⟨heq, -⟩
      · simp [he] at hne
      · exact (Classical.not_not.mp heq).symm
    obtain ⟨htokens, hkvLen⟩ := hown c hc hboundary (Nat.not_lt.mp hlen)
    rw [hstored, storeEntry]
    have hkeys : ∀ key ∈ (if exact = true ∧ cfg.dynamicArena = true then
        chainedBlockKeys cfg (b.slots slot).committedTokens c.len true (b.slots slot) else []).take publishes,
        key.2 = (E.model.after key.1).rows := by
      split_ifs
      · exact chainedBlockKeys_content cfg hslot hkvLen true publishes
      · simp
    generalize (if exact = true ∧ cfg.dynamicArena = true then
      chainedBlockKeys cfg (b.slots slot).committedTokens c.len true (b.slots slot) else []) = keys at hkeys ⊢
    have hpublished := h.publish hkeys
    simp only
    split_ifs
    · exact hpublished
    · exact hpublished.evictCheckpoint
    · apply hpublished.evictCheckpoint.persist
      · exact hslot.rows_take hkvLen
      · rw [h.checkpoint slot c hc, htokens]

end Names

section Step

variable {cfg : Config} {b b' : Backend E} {slot : Nat}
variable {s : E.SlotOf} {rows : List (Nat × DecodeRow Tok)}

/-- Between calls: names name their content, and a slot without a prefill in flight is authentic. -/
structure Sound (b : Backend E) : Prop extends NamesContent b where
  slot : ∀ slot, b.inFlight slot = none → Authentic E (b.slots slot)
  flight : ∀ slot prompt rest, b.inFlight slot = some (prompt, rest) →
    prompt ≠ [] ∧ (b.slots slot).committedTokens = [] ∧
      ∃ consumed, prompt = consumed ++ rest ∧ TargetAt E consumed (b.slots slot)

/-- When a call keeps the record honest: decodes feed what the record has next, rounds start from its anchor,
and entries and prefix hits bring checkpoints and rows of the same tokens. -/
def Faithful (cfg : Config) (b : Backend E) : Op Tok Kv Gdn → Prop
  | .decodeBatched rows refuses _ =>
    (∃ r ∈ rows.head?, E.maxSeqLen ≤ (b.slots r.1).kvLen ∨ refuses r.1) ∨
      ∀ r ∈ rows, Feeds (b.slots r.1) r.2.token ∧ (b.slots r.1).active = 0 ∧
        (b.slots r.1).kvLen < E.maxSeqLen ∧ refuses r.1 = false
  | .decodeSerial rows _ => ∀ r ∈ rows, Feeds (b.slots r.1) r.2.token
  | .specRound slot anchor _ _ _ => (b.slots slot).committedTokens.drop (b.slots slot).kvLen = [anchor]
  | .prefillBegin slot prompt (some (rows, checkpoint)) => (b.slots slot).kvLen = 0 ∧
      b.RowsNamed (prompt.take rows.length) rows ∧ b.StateNamed (prompt.take rows.length) checkpoint
  | .prefillStep slot _ _ _ _ _ => ∀ flight ∈ b.inFlight slot, ∀ c ∈ b.checkpoints slot,
      c.len = flight.1.length → c.tokens = flight.1
  | .resetSlot slot _ _ => cfg.dynamicArena = false → ∀ c ∈ b.checkpoints slot,
      c.len ≤ (b.slots slot).committedTokens.length →
      c.tokens = (b.slots slot).committedTokens.take c.len ∧ c.len ≤ (b.slots slot).kvLen
  | _ => True

/-- A slot takes an authentic state, and its prefill, if any, is over. -/
theorem Sound.replace (hb : Sound b) (h : NamesContent b') (hs : Authentic E s)
    (hslots : b'.slots = update b.slots slot s)
    (hflight : b'.inFlight = update b.inFlight slot none) : Sound b' := by
  refine ⟨h, fun other hother => ?_, fun other prompt rest hother => ?_⟩
  · rw [hslots]
    rcases eq_or_ne other slot with rfl | hne
    · simpa only [update_self] using hs
    · rw [hflight, update_of_ne hne] at hother
      rw [update_of_ne hne]
      exact hb.slot other hother
  · have hne : other ≠ slot := by
      rintro rfl
      simp [hflight] at hother
    rw [hflight, update_of_ne hne] at hother
    rw [hslots, update_of_ne hne]
    exact hb.flight other prompt rest hother

theorem Sound.setSlot (h : Sound b) (hs : Authentic E s) (hidle : b.inFlight slot = none) :
    Sound (b.setSlot slot s) :=
  h.replace { h.toNamesContent with } hs rfl (update_eq_self_iff.mpr hidle.symm).symm

theorem Sound.setSlots (h : Sound b) {table : Nat → E.SlotOf}
    (htable : ∀ slot, table slot = b.slots slot ∨ b.inFlight slot = none ∧ Authentic E (table slot)) :
    Sound (setSlots b table) := by
  refine ⟨{ h.toNamesContent with }, fun slot hslot => ?_,
    fun slot prompt rest hslot => ?_⟩
  · rcases htable slot with hsame | ⟨-, hauthentic⟩
    · simp only [CommittedRecord.setSlots, hsame]
      exact h.slot slot hslot
    · exact hauthentic
  · rcases htable slot with hsame | ⟨hidle, -⟩
    · simp only [CommittedRecord.setSlots, hsame]
      exact h.flight slot prompt rest hslot
    · simp [CommittedRecord.setSlots, hidle] at hslot

theorem Sound.continuePrefill (h : Sound b) {prompt consumed rest : List Tok}
    (hne : prompt ≠ []) (hprompt : prompt = consumed ++ rest) (htarget : TargetAt E consumed s)
    (hrecord : s.committedTokens = []) :
    Sound { b.setSlot slot s with inFlight := update b.inFlight slot (some (prompt, rest)) } := by
  refine ⟨{ h.toNamesContent with }, fun other hother => ?_,
    fun other prompt' rest' hother => ?_⟩
  · have hne : other ≠ slot := by
      rintro rfl
      simp at hother
    simp only [Backend.setSlot, update_of_ne hne] at hother ⊢
    exact h.slot other hother
  · rcases eq_or_ne other slot with rfl | hne
    · simp only [update_self, Option.some.injEq, Prod.mk.injEq] at hother
      obtain ⟨rfl, rfl⟩ := hother
      simp only [Backend.setSlot, update_self]
      exact ⟨hne, hrecord, consumed, hprompt, htarget⟩
    · simp only [update_of_ne hne] at hother
      simp only [Backend.setSlot, update_of_ne hne]
      exact h.flight other prompt' rest' hother

theorem authentic_resetSlot (s : E.SlotOf) : Authentic E (MtpEngine.resetSlot E s) where
  le := Nat.le_refl _
  target := ⟨rfl, rfl, rfl, Nat.zero_le _, rfl, rfl⟩
  fresh := fun _ => rfl

variable [DecidableEq Tok]

theorem Sound.maybeCheckpoint (h : Sound b) (cfg : Config) (hidle : b.inFlight slot = none) (force : Bool) :
    Sound (maybeCheckpoint cfg force slot b) := by
  refine ⟨h.toNamesContent.maybeCheckpoint (h.slot slot hidle) force, ?_, ?_⟩
  · simpa using h.slot
  · simpa using h.flight

theorem Sound.checkpointEach (h : Sound b)
    (hidle : ∀ r ∈ rows, b.inFlight r.1 = none) : Sound (checkpointEach cfg rows b) := by
  induction rows generalizing b with
  | nil => exact h
  | cons r rest ih =>
    apply ih (h.maybeCheckpoint cfg (hidle r (by simp)) false)
    intro q hq
    simpa using hidle q (by simp [hq])

theorem Sound.resetSlot (h : Sound b) {publishes : Nat} {budget : Bool}
    (hfaithful : Faithful cfg b (.resetSlot slot publishes budget)) :
    Sound (resetSlot cfg slot publishes budget b) := by
  have hauthentic : (b.slots slot).committedTokens ≠ [] → Authentic E (b.slots slot) := by
    intro hrecord
    cases hflight : b.inFlight slot with
    | none => exact h.slot slot hflight
    | some pair =>
      exact absurd (h.flight slot pair.1 pair.2 hflight).2.1 hrecord
  have hreset := authentic_resetSlot (b.slots slot)
  simp only [CommittedRecord.resetSlot]
  split_ifs with hlive harena
  · have hretained := h.toNamesContent.retain ((hauthentic hlive.1).rows_take (Nat.le_refl _))
    have hkeys := chainedBlockKeys_content cfg (hauthentic hlive.1) (Nat.le_refl _) false publishes
    have hnames := hretained.publish hkeys
    exact h.replace { hnames with } hreset rfl rfl
  · have hretained := h.toNamesContent.retain ((hauthentic hlive.1).rows_take (Nat.le_refl _))
    have hnames := hretained.storePersistentPrefix (hauthentic hlive.1) cfg false publishes budget
      (fun c hc _ hle => hfaithful (by simpa using harena) c hc hle)
    exact h.replace { hnames with } hreset (by rw [storePersistentPrefix_slots]) (by rw [storePersistentPrefix_inFlight])
  · exact h.replace { h.toNamesContent with } hreset rfl rfl

theorem Sound.finishPrefill (h : Sound b) {prompt : List Tok} {firstToken : Tok}
    {publishes : Nat} {budget : Bool} (hne : prompt ≠ []) (htarget : TargetAt E prompt s)
    (hown : ∀ c, b.checkpoints slot = some c → c.len = prompt.length → c.tokens = prompt) :
    Sound (storePersistentPrefix cfg true slot publishes budget (commitPrefill cfg slot prompt firstToken
      { b.setSlot slot s with inFlight := update b.inFlight slot none })) := by
  set done : E.SlotOf := { s with kvLen := prompt.length, committedTokens := prompt ++ [firstToken] } with hdone
  have hauthentic : Authentic E done := by
    refine ⟨?_, ?_, fun hzero => absurd (eq_nil_of_length_eq_zero hzero) hne⟩
    · simp [hdone]
    · simp only [hdone, take_left']
      exact ⟨htarget.seen, htarget.attn, htarget.rows, htarget.active, htarget.col, htarget.gdn⟩
  set b₁ : Backend E := { b with
    slots := update b.slots slot done, inFlight := update b.inFlight slot none } with hb₁
  have hsound : Sound b₁ := h.replace { h.toNamesContent with } hauthentic rfl rfl
  have hcommit : commitPrefill cfg slot prompt firstToken
      { b.setSlot slot s with inFlight := update b.inFlight slot none } =
      CommittedRecord.maybeCheckpoint cfg (cfg.enablePersistentPrefixCache && cfg.dynamicArena) slot b₁ := by
    simp [commitPrefill, Backend.setSlot, hb₁, hdone]
  rw [hcommit]
  have hidle : b₁.inFlight slot = none := by simp [hb₁]
  have hchecked := hsound.maybeCheckpoint cfg (hidle : b₁.inFlight slot = none)
    (cfg.enablePersistentPrefixCache && cfg.dynamicArena)
  have hslot : b₁.slots slot = done := by simp [hb₁]
  refine ⟨hchecked.toNamesContent.storePersistentPrefix (by rwa [maybeCheckpoint_slots, hslot]) cfg true
    publishes budget ?_, ?_, ?_⟩
  · intro c hc hlen hle
    rw [maybeCheckpoint_slots, hslot] at hlen hle ⊢
    have hlen := hlen rfl
    refine ⟨?_, Nat.le_of_eq hlen⟩
    rcases maybeCheckpoint_checkpoint hc with hold | ⟨-, htokens⟩
    · rw [hown c hold hlen, hlen]
      simp [hdone]
    · rw [htokens, hslot, hlen]
  · simpa using hchecked.slot
  · simpa using hchecked.flight

omit [DecidableEq Tok] in
theorem idle_of_not_busy
    (h : ¬((!lengthsAgree rows b) = true ∨ (rows.any fun r => (b.inFlight r.1).isSome) = true)) :
    ∀ r ∈ rows, b.inFlight r.1 = none := by
  simp only [not_or, any_eq_true, not_exists, not_and, Option.not_isSome_iff_eq_none] at h
  exact h.2

omit [DecidableEq Tok] in
theorem idle_of_mem (hidle : ∀ r ∈ rows, b.inFlight r.1 = none)
    (h : slot ∈ rows.map Prod.fst) : b.inFlight slot = none := by
  obtain ⟨r, hr, rfl⟩ := mem_map.mp h
  exact hidle r hr

theorem step_sound (h : Sound b) {op : Op Tok Kv Gdn} (hfaithful : Faithful cfg b op)
    (hnext : next cfg b op = some b') :
    Sound b' := by
  cases op with
  | resetSlot slot publishes budget =>
    cases hnext
    exact h.resetSlot hfaithful
  | prefillBegin slot prompt hit =>
    cases hit with
    | none =>
      simp only [next, step] at hnext
      split_ifs at hnext with hbusy
      · cases hnext
        exact h
      · cases hnext
        simp only [not_or, Classical.not_not] at hbusy
        obtain ⟨hkvLen, hflight, hne⟩ := hbusy
        have hslot := h.slot slot (by simpa using hflight)
        have htarget : TargetAt E [] (b.slots slot) := by simpa [hkvLen] using hslot.target
        have hsame : b = b.setSlot slot (b.slots slot) := by simp [Backend.setSlot]
        rw [hsame]
        exact h.continuePrefill hne rfl htarget (hslot.fresh hkvLen)
    | some hit =>
      obtain ⟨rows, checkpoint⟩ := hit
      obtain ⟨hkvLen, hrows, hstate⟩ := hfaithful
      simp only [next, step] at hnext
      split_ifs at hnext with hbusy
      · cases hnext
        exact h
      · cases hnext
        simp only [not_or] at hbusy
        have hslot := h.slot slot (by simpa using hbusy.1)
        have htarget := restorePrefix_target hslot (h.rows_of_named hrows) (h.state_of_named hstate)
        exact h.continuePrefill hbusy.2 (take_append_drop rows.length prompt).symm htarget
          (hslot.fresh hkvLen)
  | prefillStep slot size batched firstToken publishes budget =>
    simp only [next, step] at hnext
    cases hflight : b.inFlight slot with
    | none =>
      simp only [hflight] at hnext
      cases hnext
      exact h
    | some pair =>
      obtain ⟨prompt, rest⟩ := pair
      obtain ⟨hne, hrecord, consumed, hprompt, htarget⟩ := h.flight slot prompt rest hflight
      simp only [hflight] at hnext
      cases hforward : prefillForward E batched (rest.take size) (b.slots slot) with
      | error e => simp [hforward, Outcome.state] at hnext
      | ok out =>
        obtain ⟨s, hiddens⟩ := out
        obtain ⟨hchunk, -, -, hkept, -⟩ := prefillForward_spec htarget hforward
        simp only [hforward] at hnext
        have hsplit : prompt = consumed ++ rest.take size ++ rest.drop size := by
          rw [append_assoc, take_append_drop, hprompt]
        split_ifs at hnext with hlast
        · cases hnext
          rw [hlast, append_nil] at hsplit
          rw [← hsplit] at hchunk
          exact h.finishPrefill hne hchunk fun c hc hlen => hfaithful _ hflight c hc hlen
        · cases hnext
          exact h.continuePrefill hne hsplit hchunk (hkept.trans hrecord)
  | decodeBatched rows refuses distinct =>
    simp only [next, step] at hnext
    split_ifs at hnext with hbusy
    · cases hnext
      exact h
    · have hidle := idle_of_not_busy hbusy
      rcases hfaithful with ⟨r, hr, hrefused⟩ | hrows
      · obtain ⟨rest, rfl⟩ := head?_eq_some_iff.mp hr
        simp only [decodeForwardBatched, buildDecodeBatch, if_pos hrefused] at hnext
        cases hnext
        exact h
      · obtain ⟨table, hdecoded, htable⟩ := decodeForwardBatched_authentic distinct
          fun r hr => ⟨h.slot r.1 (hidle r hr), hrows r hr⟩
        simp only [hdecoded] at hnext
        cases hnext
        exact (h.setSlots fun slot => (htable slot).imp_right fun ⟨hmem, hs⟩ =>
          ⟨idle_of_mem hidle hmem, hs⟩).checkpointEach hidle
  | decodeSerial rows distinct =>
    simp only [next, step] at hnext
    split_ifs at hnext with hbusy
    · cases hnext
      exact h
    · have hidle := idle_of_not_busy hbusy
      cases hdecoded : eachRequest (decodeSerialRow E) rows b.slots with
      | error e => simp [hdecoded, Outcome.state] at hnext
      | ok out =>
        obtain ⟨table, hiddens⟩ := out
        have htable := decodeSerial_authentic distinct
          (fun r hr => ⟨h.slot r.1 (hidle r hr), hfaithful r hr⟩) hdecoded
        simp only [hdecoded] at hnext
        cases hnext
        exact (h.setSlots fun slot => (htable slot).imp_right fun ⟨hmem, hs⟩ =>
          ⟨idle_of_mem hidle hmem, hs⟩).checkpointEach hidle
  | specRound slot anchor drafts numAccepted bonus =>
    simp only [next, step] at hnext
    split_ifs at hnext with hbusy
    · cases hnext
      exact h
    · simp only [not_or, Nat.not_lt] at hbusy
      obtain ⟨hdrafts, hkept, hflight⟩ := hbusy
      have hidle : b.inFlight slot = none := by simpa using hflight
      cases hround : specRound E anchor drafts numAccepted bonus (b.slots slot) with
      | error e => simp [hround, Outcome.state] at hnext
      | ok s =>
        simp only [hround] at hnext
        cases hnext
        have hs := specRound_authentic (h.slot slot hidle) hdrafts hkept hfaithful hround
        exact (h.setSlot hs hidle).maybeCheckpoint cfg hidle false
  | evictCheckpoint slot =>
    cases hnext
    exact ⟨h.toNamesContent.evictCheckpoint, h.slot, h.flight⟩
  | evictPersistent tokens =>
    cases hnext
    refine ⟨{ h.toNamesContent with persistent := fun entry hentry => ?_ }, h.slot, h.flight⟩
    exact h.persistent entry (mem_of_mem_filter hentry)

end Step

section Run

variable [DecidableEq Tok] {cfg : Config} {b : Backend E}

instance (s : E.SlotOf) (token : Tok) : Decidable (Feeds s token) :=
  inferInstanceAs (Decidable (_ = _))

instance [DecidableEq Kv] (b : Backend E) (tokens : List Tok) (rows : List Kv) :
    Decidable (b.RowsNamed tokens rows) :=
  inferInstanceAs (Decidable (∃ key ∈ _, _ ∧ _))

instance [DecidableEq Gdn] (b : Backend E) (tokens : List Tok) (state : Gdn) :
    Decidable (b.StateNamed tokens state) :=
  inferInstanceAs (Decidable ((∃ c ∈ _, _ ∧ _) ∨ ∃ entry ∈ _, _ ∧ _))

instance [DecidableEq Kv] [DecidableEq Gdn] (b : Backend E) : (op : Op Tok Kv Gdn) → Decidable (Faithful cfg b op)
  | .decodeBatched .. => inferInstanceAs (Decidable ((∃ r ∈ _, _ ∨ _) ∨ ∀ r ∈ _, _ ∧ _ ∧ _ ∧ _))
  | .decodeSerial .. => inferInstanceAs (Decidable (∀ r ∈ _, Feeds _ _))
  | .specRound .. => inferInstanceAs (Decidable (_ = _))
  | .prefillBegin _ _ (some (_, _)) => inferInstanceAs (Decidable (_ ∧ _ ∧ _))
  | .prefillBegin _ _ none => isTrue trivial
  | .prefillStep .. => inferInstanceAs (Decidable (∀ flight ∈ _, ∀ c ∈ _, _ → _))
  | .resetSlot .. => inferInstanceAs (Decidable (_ → ∀ c ∈ _, _ → _ ∧ _))
  | .evictCheckpoint _ => isTrue trivial
  | .evictPersistent _ => isTrue trivial

/-- The record of every slot names what the slot has consumed, and every name that was taken from a record
names its content. A prefill that is not complete has no record. -/
structure Authenticated (b : Backend E) : Prop extends NamesContent b where
  le : ∀ slot, b.inFlight slot = none → (b.slots slot).kvLen ≤ (b.slots slot).committedTokens.length
  rows : ∀ slot, b.inFlight slot = none → readRows (b.slots slot).kv (b.slots slot).kvLen =
    (E.model.after ((b.slots slot).committedTokens.take (b.slots slot).kvLen)).rows
  state : ∀ slot, b.inFlight slot = none → (b.slots slot).columns (b.slots slot).active =
    (E.model.after ((b.slots slot).committedTokens.take (b.slots slot).kvLen)).gdn
  unrecorded : ∀ slot, (b.inFlight slot).isSome → (b.slots slot).committedTokens = []

omit [DecidableEq Tok] in
theorem start_sound (slots : Nat → E.SlotOf) : Sound (Backend.start (E := E) slots) where
  checkpoint := by simp [Backend.start]
  registered := by simp [Backend.start]
  published := by simp [Backend.start]
  retained := by simp [Backend.start]
  persistent := by simp [Backend.start]
  slot := fun slot _ => authentic_resetSlot (slots slot)
  flight := by simp [Backend.start]

omit [DecidableEq Tok] in
theorem Sound.authenticated (h : Sound b) : Authenticated b where
  toNamesContent := h.toNamesContent
  le := fun slot hidle => (h.slot slot hidle).le
  rows := fun slot hidle => (h.slot slot hidle).rows_take (Nat.le_refl _)
  state := fun slot hidle => (h.slot slot hidle).target.gdn
  unrecorded := by
    intro slot hflight
    obtain ⟨pair, hpair⟩ := Option.isSome_iff_exists.mp hflight
    exact (h.flight slot pair.1 pair.2 hpair).2.1

/-- In every run of faithful calls the record authenticates the caches. -/
theorem run_authenticated {slots : Nat → E.SlotOf} {ops : List (Op Tok Kv Gdn)}
    (hfaithful : StepRun.Along (next cfg) (Faithful cfg) (Backend.start slots) ops)
    (hrun : StepRun.run (next cfg) (Backend.start slots) ops = some b) : Authenticated b := by
  have hstep : ∀ (b : Backend E) op b', Sound b → Faithful cfg b op → next cfg b op = some b' → Sound b' :=
    fun b op b' h hop hnext => step_sound h hop hnext
  exact (StepRun.invariant_of_steps hstep (start_sound slots) hfaithful hrun).authenticated

/-- A target whose rows are the tokens and whose recurrence is their list. -/
def tracer : Engine Nat Nat (List Nat) Nat Unit where
  model := ⟨[], fun _ seen t => (t, seen ++ [t], t + 1), id⟩
  mtp := ⟨fun _ _ _ _ => ((), 0, 0), fun _ _ _ _ => ((), 0, 0)⟩
  k := 2
  path := .graph
  maxSeqLen := 32

def tracerSlot : tracer.SlotOf :=
  { kv := fun _ => 0, attnSeqLen := 0, numTokensSeen := 0, kvLen := 0, committedTokens := [],
    columns := fun _ => [], active := 0, specStateCol := 0, mtpCache := (), mtpSeqLen := 0, syncLen := 0 }

def arenaConfig : Config := ⟨2, true, true, true⟩

/-- Chunks on both paths, a round, the first plain decode behind it, a reset and a repeat of the prompt. -/
def faithfulOps : List (Op Nat Nat (List Nat)) :=
  [.prefillBegin 0 [1, 2, 3] none, .prefillStep 0 2 true 0 0 false, .prefillStep 0 2 true 4 3 true,
    .specRound 0 4 [5, 9] 1 6, .decodeSerial [(0, ⟨6, 5⟩)] (by decide), .resetSlot 0 3 true,
    .prefillBegin 1 [1, 2, 3, 7] (some ([1, 2, 3], [1, 2, 3])), .prefillStep 1 8 false 8 0 false,
    .decodeBatched [(1, ⟨8, 4⟩)] (fun _ => false) (by decide)]

theorem run_authenticated_tracer :
    ∃ b, StepRun.run (next arenaConfig) (Backend.start fun _ => tracerSlot) faithfulOps = some b ∧
      Authenticated b ∧ (b.slots 1).committedTokens.take (b.slots 1).kvLen = [1, 2, 3, 7, 8] := by
  obtain ⟨b, hrun, htake⟩ : ∃ b,
      StepRun.run (next arenaConfig) (Backend.start fun _ => tracerSlot) faithfulOps = some b ∧
        (b.slots 1).committedTokens.take (b.slots 1).kvLen = [1, 2, 3, 7, 8] :=
    ⟨_, rfl, rfl⟩
  exact ⟨b, hrun, run_authenticated (by decide +kernel) hrun, htake⟩

/-- The second plain decode behind a prefill feeds `7`, which the record has only after a second `6`. -/
def plainOps : List (Op Nat Nat (List Nat)) :=
  [.prefillBegin 0 [5] none, .prefillStep 0 8 true 6 0 false,
    .decodeBatched [(0, ⟨6, 1⟩)] (fun _ => false) (by decide),
    .decodeBatched [(0, ⟨7, 2⟩)] (fun _ => false) (by decide)]

/-- A prompt as long as the checkpoint that the slot still has from the request before. -/
def staleOps : List (Op Nat Nat (List Nat)) :=
  [.prefillBegin 0 [5] none, .prefillStep 0 8 true 6 3 true,
    .decodeBatched [(0, ⟨6, 1⟩)] (fun _ => false) (by decide), .resetSlot 0 1 true,
    .prefillBegin 0 [8, 9] none, .prefillStep 0 8 true 1 3 true]

theorem record_shifted :
    (∃ b, StepRun.run (next arenaConfig) (Backend.start fun _ => tracerSlot) plainOps = some b ∧
      (b.slots 0).kvLen = 3 ∧ readRows (b.slots 0).kv 3 = [5, 6, 7] ∧
      (b.slots 0).committedTokens.take 3 = [5, 6, 6] ∧ ¬Authenticated b) ∧
    ∃ b, StepRun.run (next arenaConfig) (Backend.start fun _ => tracerSlot) staleOps = some b ∧
      b.persistent[1]? = some ⟨[8, 9], [8, 9], [5, 6], true⟩ ∧ ¬Authenticated b := by
  constructor
  · refine ⟨_, rfl, rfl, rfl, rfl, fun h => ?_⟩
    have hrows := h.rows 0 rfl
    revert hrows
    decide +kernel
  · obtain ⟨b, hrun, hentry⟩ : ∃ b,
        StepRun.run (next arenaConfig) (Backend.start fun _ => tracerSlot) staleOps = some b ∧
          b.persistent[1]? = some ⟨[8, 9], [8, 9], [5, 6], true⟩ := ⟨_, rfl, rfl⟩
    refine ⟨b, hrun, hentry, fun h => ?_⟩
    have hstate := (h.persistent _ (mem_of_getElem? hentry)).2
    revert hstate
    decide

end Run

end CommittedRecord
