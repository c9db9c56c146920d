import BlackweLLM.LagunaReplayExact
import BlackweLLM.LagunaSlotReuse

/-!
# Saved histories and the rows behind them

A slot that serves nothing keeps, below the length of its saved history, the
rows of exactly that history. This holds as long as the history records what
was fed, a hit is taken by the prompt it was found for, and no raising prefill
overwrites rows that its slot still remembers.
-/

namespace LagunaSlotReuse

open List Function CausalModel LagunaReplay StepRun

section Rows

variable {α : Type}

theorem writeRows_nil (mem : Nat → α) (start : Nat) : writeRows mem start [] = mem := by
  funext i
  unfold writeRows
  split_ifs <;> rfl

theorem readRows_writeRows_of_le (mem : Nat → α) (rows : List α) {n start : Nat} (h : n ≤ start) :
    readRows (writeRows mem start rows) n = readRows mem n := by
  unfold readRows
  apply map_congr_left
  intro i hi
  have := mem_range.mp hi
  unfold writeRows
  rw [if_neg (by omega)]

/-- Rows that are written where they stand already change nothing. -/
theorem writeRows_eq_self {mem : Nat → α} {start : Nat} {rows : List α}
    (h : readRows (writeRows mem start rows) (start + rows.length) = readRows mem (start + rows.length)) :
    writeRows mem start rows = mem := by
  funext i
  by_cases hi : i < start + rows.length
  · have hat := congrArg (·[i]?) h
    simpa [readRows, hi] using hat
  · unfold writeRows
    split_ifs
    · rw [getD_eq_getElem?_getD, getElem?_eq_none (by omega), Option.getD_none]
    · rfl

end Rows

variable {Tok Row Hid : Type} {cfg : Config Tok Row Hid} {kv : Nat → Row} {st : SlotState Tok Row}

theorem take_rowsOf (ts : List Tok) (n : Nat) : (cfg.rowsOf ts).take n = cfg.rowsOf (ts.take n) :=
  cfg.model.take_rows_after ts n

/-- A slot holds the rows of a list also below any shorter length. -/
theorem readRows_take {ts : List Tok} {n k : Nat} (h : readRows kv n = cfg.rowsOf (ts.take n)) (hk : k ≤ n) :
    readRows kv k = cfg.rowsOf (ts.take k) := by
  rw [← take_readRows kv hk, h, take_rowsOf, take_take, min_eq_left hk]

/-- A forward behind the rows of `front` leaves the rows of `front` and its own tokens. -/
theorem readRows_forwardKv {front ts : List Tok} {n k : Nat} (h : readRows kv n = cfg.rowsOf front)
    (hk : k ≤ ts.length) : readRows (forwardKv cfg kv n ts) (n + k) = cfg.rowsOf (front ++ ts.take k) := by
  have hcontext : (⟨readRows kv n, ()⟩ : Context Row Unit) = cfg.model.after front := by
    rw [h]
    rfl
  unfold forwardKv
  rw [readRows_writeRows _ _ _ (by rw [length_map, length_forward]; exact hk), hcontext, h]
  exact (cfg.model.rows_after_take front ts k).symm

variable {prompt : List Tok}

/-- A prefill that finds the rows of the tokens it skips leaves those of the whole prompt. -/
theorem readRows_prefill {hit start k : Nat}
    (h : readRows kv hit = cfg.rowsOf (prompt.take hit)) (hstart : start ≤ hit) (hk : start + k ≤ prompt.length)
    {written : Nat} (hwritten : k ≤ written) :
    readRows (forwardKv cfg kv start ((prompt.drop start).take written)) (start + k) =
      cfg.rowsOf (prompt.take (start + k)) := by
  rw [readRows_forwardKv (readRows_take h hstart) (by rw [length_take, length_drop]; omega),
    take_take, min_eq_left hwritten, ← take_add]

/-- The slot remembers a history only if it holds its rows. -/
structure Kept (cfg : Config Tok Row Hid) (st : SlotState Tok Row) : Prop where
  kvLen : st.kvLen = 0
  committed : st.committed = []
  saved : ∀ cached len, st.saved = some (cached, len) →
    len ≤ cached.length ∧ readRows st.kv len = cfg.rowsOf (cached.take len)

/-- A slot in use: its committed tokens are those of its rows and one more. -/
structure Live (cfg : Config Tok Row Hid) (st : SlotState Tok Row) : Prop where
  kvLen : 0 < st.kvLen
  committed : st.committed.length = st.kvLen + 1
  rows : readRows st.kv st.kvLen = cfg.rowsOf (st.committed.take st.kvLen)

theorem Kept.reset_eq (h : Kept cfg st) : resetSlot st = st := by
  have hsaved : (if st.committed.isEmpty ∨ st.kvLen = 0 then st.saved else some (st.committed, st.kvLen)) = st.saved :=
    if_pos (.inr h.kvLen)
  unfold resetSlot
  rw [hsaved, ← h.kvLen, ← h.committed]

theorem Live.reset (h : Live cfg st) : Kept cfg (resetSlot st) where
  kvLen := rfl
  committed := rfl
  saved cached len hsaved := by
    have hlen := h.committed
    have hused : ¬ (st.committed.isEmpty ∨ st.kvLen = 0) := by
      rw [isEmpty_iff_length_eq_zero]
      have := h.kvLen
      omega
    obtain ⟨rfl, rfl⟩ := Prod.mk.inj (Option.some.inj ((if_neg hused).symm.trans hsaved))
    exact ⟨by omega, h.rows⟩

section Histories

theorem leaveOne_lt {promptLen hit : Nat} (h : 0 < leaveOne cfg promptLen hit) :
    leaveOne cfg promptLen hit < promptLen ∧ leaveOne cfg promptLen hit ≤ hit := by
  unfold leaveOne at h ⊢
  split_ifs at h ⊢ with hle
  · have := Nat.div_mul_le_self (promptLen - 1) cfg.blockSize
    omega
  · omega

theorem leaveOne_of_lt {promptLen hit : Nat} (h : hit < promptLen) : leaveOne cfg promptLen hit = hit :=
  if_neg (by omega)

variable [DecidableEq Tok]

/-- A hit is a common prefix of the prompt and the history, and leaves a token. -/
theorem hitLength_spec {saved : Option (List Tok × Nat)} {n : Nat}
    (h : hitLength cfg prompt saved = n) (hn : 0 < n) :
    n < prompt.length ∧ ∃ cached len, saved = some (cached, len) ∧ n ≤ matchLength cached prompt ∧ n ≤ len := by
  cases saved with
  | none =>
    cases h
    exact absurd hn (lt_irrefl 0)
  | some history =>
    obtain ⟨cached, len⟩ := history
    have haligned := Nat.div_mul_le_self (min (matchLength cached prompt) len) cfg.blockSize
    subst h
    obtain ⟨hlt, hle⟩ := leaveOne_lt hn
    refine ⟨hlt, cached, len, rfl, ?_, ?_⟩
    · exact (hle.trans haligned).trans (min_le_left _ _)
    · exact (hle.trans haligned).trans (min_le_right _ _)

/-- The rows behind a hit are those of the prompt. -/
theorem Kept.readRows_hit {n : Nat} (h : Kept cfg st)
    (hhit : hitLength cfg prompt st.saved = n) (hn : 0 < n) :
    readRows st.kv n = cfg.rowsOf (prompt.take n) := by
  obtain ⟨-, cached, len, hsaved, hmatch, hlen⟩ := hitLength_spec hhit hn
  rw [readRows_take (h.saved cached len hsaved).2 hlen, (take_of_le_matchLength hmatch).2.2]

theorem bestSlot_mem (hit : Nat → Nat) (first : Nat) (slots : List Nat) :
    (bestSlot hit first slots).1 = first ∨ (bestSlot hit first slots).1 ∈ slots := by
  unfold bestSlot
  induction slots using reverseRecOn with
  | nil => exact .inl rfl
  | append_singleton slots s ih =>
    rw [foldl_append, foldl_cons, foldl_nil]
    split_ifs
    · exact .inr (mem_append_right _ mem_cons_self)
    · exact ih.imp_right (mem_append_left _)

theorem bestSlot_hit (hit : Nat → Nat) (first : Nat) (slots : List Nat)
    (h : 0 < (bestSlot hit first slots).2) :
    (bestSlot hit first slots).2 = hit (bestSlot hit first slots).1 := by
  unfold bestSlot at h ⊢
  induction slots using reverseRecOn with
  | nil => exact absurd h (lt_irrefl 0)
  | append_singleton slots s ih =>
    rw [foldl_append, foldl_cons, foldl_nil] at h ⊢
    split_ifs at h ⊢
    · rfl
    · exact ih h

/-- The slots of a wave and those that stay free are the free slots. -/
theorem assignSlots_perm (cfg : Config Tok Row Hid) (s : Server Tok Row) (free : List Nat) (prompts : List (List Tok))
    (h : prompts.length ≤ free.length) :
    ((assignSlots cfg s free prompts).1.map Prod.fst ++ (assignSlots cfg s free prompts).2).Perm free ∧
      (assignSlots cfg s free prompts).1.map Prod.snd = prompts := by
  induction prompts generalizing free with
  | nil => exact ⟨List.Perm.refl _, rfl⟩
  | cons prompt prompts ih =>
    unfold assignSlots
    generalize hbest : (findBestSlotForPrompt cfg s prompt free).1 = best
    have hmem : best ∈ free := by
      subst hbest
      cases free with
      | nil => exact absurd h (Nat.not_succ_le_zero _)
      | cons first free =>
        rcases bestSlot_mem (fun slot => hitLength cfg prompt (s.slots slot).saved) first (first :: free) with hfirst | hin
        · exact mem_cons.mpr (.inl hfirst)
        · exact hin
    have hlen := length_erase_of_mem hmem
    obtain ⟨hperm, hprompts⟩ := ih (free.erase best) (by rw [length_cons] at h; omega)
    constructor
    · exact (hperm.cons best).trans (perm_cons_erase hmem).symm
    · exact congrArg (prompt :: ·) hprompts

end Histories

section Waves

variable {s : Server Tok Row} {a : Nat × List Tok}

structure Ready (cfg : Config Tok Row Hid) (s : Server Tok Row) (a : Nat × List Tok) : Prop where
  kept : Kept cfg (s.slots a.1)
  hit_le : takenHit cfg s a.1 a.2 ≤ a.2.length
  rows : readRows (s.slots a.1).kv (takenHit cfg s a.1 a.2) = cfg.rowsOf (a.2.take (takenHit cfg s a.1 a.2))

theorem Ready.congr {s' : Server Tok Row} (h : Ready cfg s a)
    (hslots : s'.slots a.1 = s.slots a.1) (hpending : s'.pending a.1 = s.pending a.1) : Ready cfg s' a := by
  have hhit : takenHit cfg s' a.1 a.2 = takenHit cfg s a.1 a.2 := by
    unfold takenHit
    rw [hpending]
  constructor
  · rw [hslots]
    exact h.kept
  · rw [hhit]
    exact h.hit_le
  · rw [hslots, hhit]
    exact h.rows

theorem takenHit_of_none {slot : Nat} (h : s.pending slot = none) : takenHit cfg s slot prompt = 0 := by
  unfold takenHit leaveOne
  rw [h, Option.getD_none]
  split_ifs with hle
  · rw [Nat.le_zero.mp hle, Nat.zero_sub, Nat.zero_div, zero_mul]
  · rfl

theorem takenHit_of_some {slot n : Nat} (h : s.pending slot = some n)
    (hlt : n < prompt.length) : takenHit cfg s slot prompt = n := by
  unfold takenHit
  rw [h]
  exact leaveOne_of_lt hlt

theorem beginPrefill_reused {written : Nat} (hready : Ready cfg s a)
    (h : ReuseSound cfg s) : ReuseSound cfg (beginPrefill cfg s a.1 a.2 written) := by
  intro e he
  change e ∈ (if 0 < takenHit cfg s a.1 a.2 then _ else s.reused) at he
  split_ifs at he
  · rcases mem_append.mp he with he | he
    · exact h e he
    · rw [mem_singleton.mp he]
      exact hready.rows
  · exact h e he

theorem prefillSlot_live {first : Tok} (hready : Ready cfg s a)
    (hprompt : a.2 ≠ []) : Live cfg ((prefillSlot cfg s a.1 a.2 first).slots a.1) := by
  have hle := hready.hit_le
  have hstart : prefillStart cfg (takenHit cfg s a.1 a.2) ≤ takenHit cfg s a.1 a.2 := Nat.sub_le _ _
  have hkv : ((prefillSlot cfg s a.1 a.2 first).slots a.1) =
      { s.slots a.1 with
        kv := forwardKv cfg (s.slots a.1).kv (prefillStart cfg (takenHit cfg s a.1 a.2))
          ((a.2.drop (prefillStart cfg (takenHit cfg s a.1 a.2))).take a.2.length)
        kvLen := a.2.length
        committed := a.2 ++ [first] } := by
    unfold prefillSlot beginPrefill
    simp only [update_self]
  rw [hkv]
  constructor
  · exact length_pos_iff.mpr hprompt
  · exact length_append
  · have hrows := readRows_prefill hready.rows hstart
      (k := a.2.length - prefillStart cfg (takenHit cfg s a.1 a.2)) (by omega) (Nat.sub_le _ _)
    rw [Nat.add_sub_cancel' (hstart.trans hle)] at hrows
    change readRows _ a.2.length = cfg.rowsOf ((a.2 ++ [first]).take a.2.length)
    rw [take_left, hrows, take_length]

theorem prefillSlot_frame {first : Tok} {slot : Nat} (h : slot ≠ a.1) :
    (prefillSlot cfg s a.1 a.2 first).slots slot = s.slots slot ∧
      (prefillSlot cfg s a.1 a.2 first).pending slot = s.pending slot := by
  unfold prefillSlot beginPrefill
  exact ⟨(update_of_ne h _ _).trans (update_of_ne h _ _), update_of_ne h _ _⟩

structure Prefilled (cfg : Config Tok Row Hid) (done : List (Nat × List Tok)) (s s' : Server Tok Row) : Prop where
  live : ∀ a ∈ done, Live cfg (s'.slots a.1)
  popped : ∀ a ∈ done, s'.pending a.1 = none
  slots : ∀ slot, slot ∉ done.map Prod.fst → s'.slots slot = s.slots slot
  pending : ∀ slot, slot ∉ done.map Prod.fst → s'.pending slot = s.pending slot
  freeSlots : s'.freeSlots = s.freeSlots
  active : s'.active = s.active
  reused : ReuseSound cfg s'

theorem prefillAll_prefilled {done : List (Nat × List Tok)} {firsts : List Tok}
    (hlen : firsts.length = done.length) (hnodup : (done.map Prod.fst).Nodup)
    (hready : ∀ a ∈ done, Ready cfg s a) (hprompts : ∀ a ∈ done, a.2 ≠ []) (hreused : ReuseSound cfg s) :
    Prefilled cfg done s (prefillAll cfg done firsts s) := by
  induction done generalizing firsts s with
  | nil =>
    exact ⟨fun _ h => absurd h not_mem_nil, fun _ h => absurd h not_mem_nil, fun _ _ => rfl,
      fun _ _ => rfl, rfl, rfl, hreused⟩
  | cons a done ih =>
    cases firsts with
    | nil => cases hlen
    | cons first firsts =>
      obtain ⟨hfresh, hrest⟩ := nodup_cons.mp hnodup
      have hframe : ∀ slot, slot ≠ a.1 → (prefillSlot cfg s a.1 a.2 first).slots slot = s.slots slot ∧
          (prefillSlot cfg s a.1 a.2 first).pending slot = s.pending slot := fun slot h => prefillSlot_frame h
      have hown := hready a mem_cons_self
      have hne : ∀ b ∈ done, b.1 ≠ a.1 := fun b hb heq => hfresh (heq ▸ mem_map_of_mem hb)
      have hbegun : ReuseSound cfg (beginPrefill cfg s a.1 a.2 a.2.length) := beginPrefill_reused hown hreused
      have hstep := ih (s := prefillSlot cfg s a.1 a.2 first) (Nat.succ.inj hlen) hrest
        (fun b hb => (hready b (mem_cons_of_mem _ hb)).congr (hframe _ (hne b hb)).1 (hframe _ (hne b hb)).2)
        (fun b hb => hprompts b (mem_cons_of_mem _ hb)) hbegun
      have hpopped : (prefillSlot cfg s a.1 a.2 first).pending a.1 = none := update_self _ _ _
      change Prefilled cfg (a :: done) s (prefillAll cfg done firsts (prefillSlot cfg s a.1 a.2 first))
      constructor
      · intro b hb
        rcases mem_cons.mp hb with rfl | hb
        · rw [hstep.slots _ hfresh]
          exact prefillSlot_live hown (hprompts _ mem_cons_self)
        · exact hstep.live b hb
      · intro b hb
        rcases mem_cons.mp hb with rfl | hb
        · rw [hstep.pending _ hfresh]
          exact hpopped
        · exact hstep.popped b hb
      · intro slot hslot
        obtain ⟨hne, hnot⟩ := not_or.mp (mt mem_cons.mpr hslot)
        rw [hstep.slots slot hnot, (hframe slot hne).1]
      · intro slot hslot
        obtain ⟨hne, hnot⟩ := not_or.mp (mt mem_cons.mpr hslot)
        rw [hstep.pending slot hnot, (hframe slot hne).2]
      · exact hstep.freeSlots
      · exact hstep.active
      · exact hstep.reused

theorem resetWave_of_kept {wave : List (Nat × List Tok)}
    (h : ∀ a ∈ wave, Kept cfg (s.slots a.1)) : resetWave wave s = s := by
  unfold resetWave
  induction wave with
  | nil => rfl
  | cons a wave ih =>
    rw [foldl_cons, (h a mem_cons_self).reset_eq, update_eq_self]
    exact ih fun b hb => h b (mem_cons_of_mem _ hb)

variable [DecidableEq Tok]

/-- Reconciliation only records hits, each for the slot whose history it was found in. -/
theorem reconcile_spec (cfg : Config Tok Row Hid) (prompts : List (List Tok)) (s : Server Tok Row)
    (hpending : ∀ slot, s.pending slot = none) :
    ∃ pending, prompts.foldl (reconcilePrefixHit cfg) s = { s with pending := pending } ∧
      ∀ slot n, pending slot = some n →
        0 < n ∧ ∃ prompt ∈ prompts, findBestHistory cfg s prompt = (slot, n) := by
  induction prompts using reverseRecOn with
  | nil => exact ⟨s.pending, rfl, fun slot n h => nomatch (hpending slot).symm.trans h⟩
  | append_singleton prompts prompt ih =>
    obtain ⟨pending, heq, hfound⟩ := ih
    rw [foldl_append, heq, foldl_cons, foldl_nil]
    have hold : ∀ slot n, pending slot = some n →
        0 < n ∧ ∃ p ∈ prompts ++ [prompt], findBestHistory cfg s p = (slot, n) := by
      intro slot n h
      obtain ⟨hn, p, hp, hbest⟩ := hfound slot n h
      exact ⟨hn, p, mem_append_left _ hp, hbest⟩
    have hsame : findBestHistory cfg { s with pending := pending } prompt = findBestHistory cfg s prompt := rfl
    unfold reconcilePrefixHit
    rw [hsame]
    dsimp only
    split_ifs with hhit
    · refine ⟨_, rfl, fun slot n h => ?_⟩
      by_cases hslot : slot = (findBestHistory cfg s prompt).1
      · subst hslot
        rw [update_self] at h
        cases h
        exact ⟨hhit, prompt, mem_append_right _ mem_cons_self, rfl⟩
      · rw [update_of_ne hslot] at h
        exact hold slot n h
    · exact ⟨pending, rfl, hold⟩

/-- A hit that is found in a slot of the wave is found for that slot's prompt. -/
def OwnHits (cfg : Config Tok Row Hid) (s : Server Tok Row) (wave : List (Nat × List Tok)) : Prop :=
  ∀ a ∈ wave, 0 < (findBestHistory cfg s a.2).2 → (findBestHistory cfg s a.2).1 ∈ wave.map Prod.fst →
    (findBestHistory cfg s a.2).1 = a.1

/-- A prepared wave stands ready, and its hits lie where they were found. -/
structure Prepared (cfg : Config Tok Row Hid) (s : Server Tok Row) (wave : List (Nat × List Tok))
    (s' : Server Tok Row) : Prop where
  ready : ∀ a ∈ wave, Ready cfg s' a
  slots : s'.slots = s.slots
  freeSlots : s'.freeSlots = s.freeSlots
  active : s'.active = s.active
  reused : s'.reused = s.reused
  pending : ∀ slot, s'.pending slot ≠ none → ∃ a ∈ wave, 0 < (findBestHistory cfg s a.2).2 ∧
    (findBestHistory cfg s a.2).1 = slot

theorem prepareWave_prepared {wave : List (Nat × List Tok)}
    (hkept : ∀ a ∈ wave, Kept cfg (s.slots a.1)) (hnodup : (wave.map Prod.fst).Nodup)
    (hpending : ∀ slot, s.pending slot = none) (hown : OwnHits cfg s wave) :
    Prepared cfg s wave (prepareWave cfg wave s) := by
  obtain ⟨pending, heq, hfound⟩ := reconcile_spec cfg (wave.map Prod.snd) s hpending
  have hprepared : prepareWave cfg wave s = { s with pending := pending } := by
    unfold prepareWave
    rw [resetWave_of_kept hkept, heq]
  rw [hprepared]
  have hmatch : ∀ a ∈ wave, ∀ n, pending a.1 = some n → 0 < n ∧ hitLength cfg a.2 (s.slots a.1).saved = n := by
    intro a ha n hn
    obtain ⟨hpos, prompt, hprompt, hbest⟩ := hfound a.1 n hn
    obtain ⟨b, hb, rfl⟩ := mem_map.mp hprompt
    have hfst : (findBestHistory cfg s b.2).1 = a.1 := congrArg Prod.fst hbest
    have hsnd : (findBestHistory cfg s b.2).2 = n := congrArg Prod.snd hbest
    have hslot := hown b hb (hsnd ▸ hpos) (hfst ▸ mem_map_of_mem ha)
    have hab : b = a := inj_on_of_nodup_map hnodup hb ha (hslot.symm.trans hfst)
    subst hab
    have hhit := bestSlot_hit (fun slot => hitLength cfg b.2 (s.slots slot).saved) 0 (range cfg.numSlots)
      (by rw [← hsnd] at hpos; exact hpos)
    refine ⟨hpos, ?_⟩
    rw [← hsnd, ← hfst]
    exact hhit.symm
  constructor
  · intro a ha
    have hkept := hkept a ha
    cases hn : pending a.1 with
    | none =>
      have hhit : takenHit cfg { s with pending := pending } a.1 a.2 = 0 := takenHit_of_none hn
      refine ⟨hkept, ?_, ?_⟩
      · rw [hhit]
        exact Nat.zero_le _
      · rw [hhit]
        rfl
    | some n =>
      obtain ⟨hpos, hlength⟩ := hmatch a ha n hn
      have hlt := (hitLength_spec hlength hpos).1
      have hhit : takenHit cfg { s with pending := pending } a.1 a.2 = n := takenHit_of_some hn hlt
      refine ⟨hkept, ?_, ?_⟩
      · rw [hhit]
        exact hlt.le
      · rw [hhit]
        exact hkept.readRows_hit hlength hpos
  · rfl
  · rfl
  · rfl
  · rfl
  · intro slot hslot
    obtain ⟨n, hn⟩ := Option.ne_none_iff_exists'.mp hslot
    obtain ⟨hpos, prompt, hprompt, hbest⟩ := hfound slot n hn
    obtain ⟨b, hb, rfl⟩ := mem_map.mp hprompt
    exact ⟨b, hb, by rw [hbest]; exact hpos, by rw [hbest]⟩

end Waves

end LagunaSlotReuse
