import Mathlib.Data.List.Induction
import BlackweLLM.RollingHash

/-!
# Rolling checkpoints under lookup

The pool of a slot that is alone with the persistent prefixes holds one key a hash: a
checkpoint leaves before its state becomes a persistent prefix, and none is taken where a
persistent prefix has the hash. A lookup by the hash of a prompt then finds the
checkpoint for as long as it is kept.
-/

namespace RollingHash

open List TokenBytes CheckpointPool RaisingState
open ScratchStore (Key)

section Pools

variable {Key Hash : Type} [DecidableEq Key] [DecidableEq Hash] {p : Pool Key Hash}

/-- Each record is what the index finds under its hash. -/
def Exact (p : Pool Key Hash) : Prop := ∀ record ∈ p.records, p.getByHash record.2.hashValue = some record.1

theorem Exact.without (h : Exact p) (gone : List Key) : Exact (p.without gone) := by
  intro record hrecord
  obtain ⟨hmem, hstays⟩ := mem_filter.mp hrecord
  have hkept : ¬p.Loses gone record.2.hashValue := by
    rintro ⟨other, hother, hgone, hsame⟩
    have hfound := h other hother
    rw [hsame, h record hmem] at hfound
    have hstays' : record.1 ∉ gone := by simpa using hstays
    exact hstays' (Option.some.inj hfound ▸ hgone)
  rw [getByHash_without, if_neg hkept]
  exact h record hmem

omit [DecidableEq Key] in
theorem Exact.register (h : Exact p) {key : Key} {info : CheckpointMeta Hash}
    (hnew : p.getByHash info.hashValue = none) : Exact (p.register key info) := by
  intro record hrecord
  rw [getByHash_register]
  cases mem_append.mp hrecord with
  | inl hold =>
    have hne : record.2.hashValue ≠ info.hashValue := by
      intro heq
      have hfound := h record hold
      rw [heq, hnew] at hfound
      cases hfound
    rw [if_neg hne]
    exact h record hold
  | inr hlast =>
    cases mem_singleton.mp hlast
    exact if_pos rfl

theorem sound_register (h : Sound p) {key : Key} (hkey : ¬p.contains key) (info : CheckpointMeta Hash) :
    Sound (p.register key info) := by
  have hstep := h.step none (.register key info)
  rwa [step_register, if_neg hkey] at hstep

end Pools

variable {State Digest : Type} [DecidableEq Digest] {slot : Nat} {cfg : Config} {h : Hasher State Digest}
  {s s' : Slot State Digest}

section Books

/-- The pool of a slot that is alone: its one checkpoint and the persistent prefixes, each under its own hash. -/
structure Books (slot : Nat) (s : Slot State Digest) : Prop where
  sound : Sound s.pool
  finds : Finds s.pool
  exact_ : Exact s.pool
  rolling : ∀ record ∈ s.pool.records, ∀ other n, record.1 = .rolling other n → other = slot ∧ s.checkpointLen = some n
  unpinned : ∀ other n, Key.rolling other n ∉ s.pool.pinned
  persistent : ∀ record ∈ s.pool.records, ∀ hash, record.1 = .persistent hash →
    record.2.hashValue = hash ∧ hash ∈ s.persistent

section

omit [DecidableEq Digest]

theorem Books.start (slot byteBudget : Nat) : Books slot (start byteBudget : Slot State Digest) where
  sound := Sound.start byteBudget
  finds := (Indexed.start byteBudget).finds
  exact_ := fun _ hmem => absurd hmem not_mem_nil
  rolling := fun _ hmem => absurd hmem not_mem_nil
  unpinned := fun _ _ => not_mem_nil
  persistent := fun _ hmem => absurd hmem not_mem_nil

/-- Only the pool, the checkpoint and the persistent prefixes matter. -/
theorem Books.congr (hbooks : Books slot s) (hpool : s'.pool = s.pool) (hlen : s'.checkpointLen = s.checkpointLen)
    (hpersistent : s'.persistent = s.persistent) : Books slot s' where
  sound := hpool ▸ hbooks.sound
  finds := hpool ▸ hbooks.finds
  exact_ := hpool ▸ hbooks.exact_
  rolling := by
    rw [hpool, hlen]
    exact hbooks.rolling
  unpinned := hpool ▸ hbooks.unpinned
  persistent := by
    rw [hpool, hpersistent]
    exact hbooks.persistent

/-- Without a checkpoint every key is persistent. -/
theorem Books.all_persistent (hbooks : Books slot s) (hnone : s.checkpointLen = none) :
    ∀ record ∈ s.pool.records, ∃ hash, record.1 = .persistent hash := by
  intro record hrecord
  cases hkey : record.1 with
  | persistent hash => exact ⟨hash, rfl⟩
  | rolling other n =>
    have hsome := (hbooks.rolling record hrecord other n hkey).2
    rw [hnone] at hsome
    cases hsome

end

/-- What `_drop_kv_for_checkpoint` does for keys among `gone`. -/
structure Heard (slot : Nat) (gone : List (Key Digest)) (s s' : Slot State Digest) : Prop where
  pool : s'.pool = s.pool
  stays : ∀ hash ∈ s.persistent, .persistent hash ∉ gone → hash ∈ s'.persistent
  from_ : ∀ hash ∈ s'.persistent, hash ∈ s.persistent
  checkpointLen : s'.checkpointLen = s.checkpointLen ∨ s'.checkpointLen = none ∧ ∃ n, .rolling slot n ∈ gone

theorem hear_heard (slot : Nat) {gone : List (Key Digest)} {told : List (Told (Key Digest))}
    (htold : ∀ key, Told.drop key ∈ told → key ∈ gone) (s : Slot State Digest) :
    Heard slot gone s (told.foldl (hear slot) s) := by
  induction told generalizing s with
  | nil => exact ⟨rfl, fun _ hmem _ => hmem, fun _ hmem => hmem, .inl rfl⟩
  | cons first told ih =>
    have hrest := ih (fun key hkey => htold key (mem_cons_of_mem _ hkey)) (hear slot s first)
    have hfirst : Heard slot gone s (hear slot s first) := by
      cases first with
      | ask key => exact ⟨rfl, fun _ hmem _ => hmem, fun _ hmem => hmem, .inl rfl⟩
      | drop key =>
        have hkey := htold key mem_cons_self
        cases key with
        | persistent gone' =>
          refine ⟨rfl, ?_, fun hash hmem => mem_of_mem_filter hmem, .inl rfl⟩
          intro hash hmem hout
          refine mem_filter.mpr ⟨hmem, ?_⟩
          simp only [ne_eq, decide_not, Bool.not_eq_true', decide_eq_false_iff_not]
          rintro rfl
          exact hout hkey
        | rolling other n =>
          rw [hear]
          split_ifs with hother
          · exact ⟨rfl, fun _ hmem _ => hmem, fun _ hmem => hmem, .inr ⟨rfl, n, hother ▸ hkey⟩⟩
          · exact ⟨rfl, fun _ hmem _ => hmem, fun _ hmem => hmem, .inl rfl⟩
    refine ⟨hrest.pool.trans hfirst.pool, ?_, ?_, ?_⟩
    · exact fun hash hmem hout => hrest.stays hash (hfirst.stays hash hmem hout) hout
    · exact fun hash hmem => hfirst.from_ hash (hrest.from_ hash hmem)
    · cases hrest.checkpointLen with
      | inl hsame => exact hsame ▸ hfirst.checkpointLen
      | inr hgone => exact .inr hgone

omit [DecidableEq Digest] in
theorem drop_mem_tell {should : Option (Key Digest → Bool)} {key key' : Key Digest}
    (hmem : Told.drop key' ∈ tell should key) : key' = key := by
  cases should with
  | none => cases hmem
  | some test =>
    simp only [CheckpointPool.tell] at hmem
    split_ifs at hmem <;> simp_all

/-- Keys leave, and none of them is the checkpoint that is noted. -/
theorem Books.without (hbooks : Books slot s) {gone : List (Key Digest)}
    (hheard : Heard slot gone { s with pool := s.pool.without gone } s')
    (hgone : ∀ n, Key.rolling slot n ∉ gone) : Books slot s' := by
  have hlen : s'.checkpointLen = s.checkpointLen := by
    cases hheard.checkpointLen with
    | inl hsame => exact hsame
    | inr hlost =>
      obtain ⟨-, n, hn⟩ := hlost
      exact absurd hn (hgone n)
  constructor
  · rw [hheard.pool]
    exact hbooks.sound.without gone
  · rw [hheard.pool]
    exact hbooks.finds.without gone
  · rw [hheard.pool]
    exact hbooks.exact_.without gone
  · rw [hheard.pool, hlen]
    exact fun record hrecord => hbooks.rolling record (mem_of_mem_filter hrecord)
  · rw [hheard.pool]
    exact fun other n hmem => hbooks.unpinned other n (mem_of_mem_filter hmem)
  · rw [hheard.pool]
    intro record hrecord hash hkey
    obtain ⟨hmem, hstays⟩ := mem_filter.mp hrecord
    obtain ⟨hsame, hold⟩ := hbooks.persistent record hmem hash hkey
    refine ⟨hsame, hheard.stays hash hold ?_⟩
    simpa [hkey] using hstays

end Books

section Evictions

theorem evict_rolling_books {n : Nat} (hbooks : Books slot s) (hn : s.checkpointLen = some n) :
    Ends (fun _ s' => Books slot s' ∧ s'.checkpointLen = none ∧ ∀ hash ∈ s'.persistent, hash ∈ s.persistent)
      (fun _ => False) (evict slot (.rolling slot n) { s with checkpointLen := none }) := by
  have hunpinned := hbooks.unpinned slot n
  -- The pool without the checkpoint, and what its callback leaves.
  have hleft {told : List (Told (Key Digest))} (htold : ∀ key, Told.drop key ∈ told → key ∈ [Key.rolling slot n]) :
      Books slot (told.foldl (hear slot) { s with checkpointLen := none, pool := s.pool.without [.rolling slot n] }) ∧
      (told.foldl (hear slot)
        { s with checkpointLen := none, pool := s.pool.without [.rolling slot n] }).checkpointLen = none ∧
      ∀ hash ∈ (told.foldl (hear slot)
        { s with checkpointLen := none, pool := s.pool.without [.rolling slot n] }).persistent, hash ∈ s.persistent := by
    have hheard := hear_heard slot htold
      { s with checkpointLen := none, pool := s.pool.without [.rolling slot n] }
    have hnone := hheard.checkpointLen.elim id And.left
    refine ⟨?_, hnone, hheard.from_⟩
    constructor
    · rw [hheard.pool]
      exact hbooks.sound.without _
    · rw [hheard.pool]
      exact hbooks.finds.without _
    · rw [hheard.pool]
      exact hbooks.exact_.without _
    · rw [hheard.pool]
      intro record hrecord other m hkey
      obtain ⟨hmem, hstays⟩ := mem_filter.mp hrecord
      obtain ⟨rfl, hm⟩ := hbooks.rolling record hmem other m hkey
      rw [hn] at hm
      cases hm
      simp [hkey] at hstays
    · rw [hheard.pool]
      exact fun other m hmem => hbooks.unpinned other m (mem_of_mem_filter hmem)
    · rw [hheard.pool]
      intro record hrecord hash hkey
      obtain ⟨hsame, hold⟩ := hbooks.persistent record (mem_of_mem_filter hrecord) hash hkey
      exact ⟨hsame, hheard.stays hash hold (by simp)⟩
  rw [evict]
  apply ends_get_bind
  by_cases hkey : s.pool.contains (.rolling slot n)
  · have hcall (should : Option (Key Digest → Bool)) :
        s.pool.evict should (.rolling slot n) = .ok (s.pool.without [.rolling slot n],
          tell should (.rolling slot n)) := by
      rw [Pool.evict, if_neg fun hboth => hunpinned hboth.1, if_pos hkey,
        forget_eq_without hbooks.sound.nodup hkey hunpinned]
    simp only [hcall]
    exact hleft fun key hmem => mem_singleton.mpr (drop_mem_tell hmem)
  · have hcall (should : Option (Key Digest → Bool)) : s.pool.evict should (.rolling slot n) = .ok (s.pool, []) := by
      rw [Pool.evict, if_neg fun hboth => hunpinned hboth.1, if_neg hkey]
    simp only [hcall]
    refine ⟨⟨hbooks.sound, hbooks.finds, hbooks.exact_, ?_, hbooks.unpinned, hbooks.persistent⟩, rfl, fun _ => id⟩
    intro record hrecord other m hrolling
    obtain ⟨rfl, hm⟩ := hbooks.rolling record hrecord other m hrolling
    rw [hn] at hm
    cases hm
    exact absurd ⟨record, hrecord, hrolling⟩ hkey

theorem evictCheckpoint_books (hbooks : Books slot s) :
    Ends (fun _ s' => Books slot s' ∧ s'.checkpointLen = none ∧ ∀ hash ∈ s'.persistent, hash ∈ s.persistent)
      (fun _ => False) (evictCheckpoint slot s) := by
  rw [evictCheckpoint]
  apply ends_get_bind
  cases hlen : s.checkpointLen with
  | none => exact ⟨hbooks, hlen, fun _ => id⟩
  | some n => exact evict_rolling_books hbooks hlen

theorem evictForBudget_books (hbooks : Books slot s) (hnone : s.checkpointLen = none) (incoming : Nat)
    (includePinned : Option (Key Digest → Bool)) :
    Ends (fun _ s' => Books slot s' ∧ s'.checkpointLen = none ∧ ∀ hash ∈ s'.persistent, hash ∈ s.persistent)
      (fun _ => False) (evictForBudget slot incoming includePinned s) := by
  rw [evictForBudget]
  apply ends_get_bind
  rw [evictForBudget_eq _ hbooks.sound]
  set gone := s.pool.victims incoming (includes includePinned) with hgone
  have htold : ∀ key, Told.drop key ∈ gone.flatMap (tell (some (kvIsFree slot s))) → key ∈ gone := by
    intro key hmem
    obtain ⟨victim, hvictim, htell⟩ := mem_flatMap.mp hmem
    exact drop_mem_tell htell ▸ hvictim
  have hheard := hear_heard slot htold { s with pool := s.pool.without gone }
  refine ⟨hbooks.without hheard ?_, hheard.checkpointLen.elim (fun hsame => hsame.trans hnone) And.left, hheard.from_⟩
  intro n hmem
  obtain ⟨record, hrecord, hkey⟩ := contains_of_victims hmem
  obtain ⟨hash, hpersistent⟩ := hbooks.all_persistent hnone record hrecord
  rw [hkey] at hpersistent
  cases hpersistent

end Evictions

section Alone

/-- A checkpoint that is noted behind a call was noted before, and is found where it was found. -/
def Retains (slot : Nat) (s s' : Slot State Digest) : Prop :=
  ∀ n, s'.checkpointLen = some n → s.checkpointLen = some n ∧
    ∀ hash, s.pool.getByHash hash = some (.rolling slot n) → s'.pool.getByHash hash = some (.rolling slot n)

omit [DecidableEq Digest] in
theorem Retains.of_none (hnone : s'.checkpointLen = none) : Retains slot s s' := by
  intro n hn
  rw [hnone] at hn
  cases hn

omit [DecidableEq Digest] in
theorem Retains.of_same (hlen : s'.checkpointLen = s.checkpointLen) (hindex : s'.pool.byHash = s.pool.byHash) :
    Retains slot s s' := by
  intro n hn
  refine ⟨hlen ▸ hn, fun hash hfound => ?_⟩
  rw [Pool.getByHash, hindex]
  exact hfound

/-- What a call that takes no checkpoint leaves of a slot that is alone. -/
def Left (slot : Nat) (s s' : Slot State Digest) : Prop := Books slot s' ∧ Retains slot s s'

/-- A new checkpoint is found under the tokens of the slot. -/
def Fresh (slot : Nat) (h : Hasher State Digest) (s' : Slot State Digest) : Prop :=
  ∃ n, s'.checkpointLen = some n ∧ n ≤ s'.tokens.length ∧ LookupFinds slot h s' n s'.tokens

theorem touch_left (hbooks : Books slot s) (key : Key Digest) :
    Ends (fun _ s' => Left slot s s' ∧ s'.checkpointLen = s.checkpointLen)
      (fun s' => Left slot s s' ∧ s'.checkpointLen = s.checkpointLen) (touch key s) := by
  rw [touch]
  apply ends_get_bind
  by_cases hkey : s.pool.contains key
  · rw [show s.pool.touchKey key = .ok (s.pool.touch key) from if_pos hkey]
    refine ⟨⟨?_, Retains.of_same rfl rfl⟩, rfl⟩
    have hmem (record : Key Digest × CheckpointMeta Digest) :
        record ∈ (s.pool.touch key).records ↔ record ∈ s.pool.records := mem_records_touch key record
    constructor
    · have hsound := hbooks.sound.step none (.touch key)
      rwa [step_touch, if_pos hkey] at hsound
    · intro hash found hfound
      obtain ⟨record, hrecord, hsame⟩ := hbooks.finds hash found hfound
      exact ⟨record, (hmem record).mpr hrecord, hsame⟩
    · exact fun record hrecord => hbooks.exact_ record ((hmem record).mp hrecord)
    · exact fun record hrecord => hbooks.rolling record ((hmem record).mp hrecord)
    · exact hbooks.unpinned
    · exact fun record hrecord => hbooks.persistent record ((hmem record).mp hrecord)
  · rw [show s.pool.touchKey key = .error (.touchUnregistered key) from if_neg hkey]
    exact ⟨⟨hbooks, Retains.of_same rfl rfl⟩, rfl⟩

theorem dropPrefixCache_left (hbooks : Books slot s) :
    Ends (fun _ s' => Left slot s s' ∧ s'.checkpointLen = none) (fun _ => False) (dropPrefixCache slot s) := by
  rw [dropPrefixCache]
  apply ends_modify_bind
  have hforgot : Books slot { s with retained := none } := hbooks.congr rfl rfl rfl
  apply (evictCheckpoint_books hforgot).mono
  · exact fun _ s' hleft => ⟨⟨hleft.1, Retains.of_none hleft.2.1⟩, hleft.2.1⟩
  · exact fun _ => id

theorem maybeCheckpoint_left (hstreams : h.Streams) (hfed : Fed h s) (hbooks : Books slot s) (cfg : Config)
    (force : Bool) : Ends (fun _ s' => Left slot s s' ∨ Books slot s' ∧ Fresh slot h s') (Left slot s)
      (maybeCheckpoint slot cfg h force s) := by
  rw [maybeCheckpoint]
  apply ends_get_bind
  split_ifs with hskip
  · exact .inl ⟨hbooks, Retains.of_same rfl rfl⟩
  · simp only [not_or, not_lt] at hskip
    obtain ⟨-, -, -, -, hlength⟩ := hskip
    have hevict := ((evictCheckpoint_kept slot s).and (evictCheckpoint_books hbooks))
    apply ends_bind (hevict.weaken fun _ hno => hno.2.elim)
    rintro _ s₁ ⟨hfirst, hbooks₁, hnone₁, -⟩
    have hbudget := (evictForBudget_kept slot cfg.checkpointBytes none s₁).and
      (evictForBudget_books hbooks₁ hnone₁ cfg.checkpointBytes none)
    apply ends_bind (hbudget.weaken fun _ hno => hno.2.elim)
    rintro _ s₂ ⟨hsecond, hbooks₂, hnone₂, -⟩
    have hkept := hfirst.trans hsecond
    have hlength₂ : s.kvLen ≤ s₂.tokens.length := by rwa [hkept.tokens]
    apply ends_bind ((rollingPrefixHash_ends hstreams (hfed.kept hkept) cfg hlength₂).weaken
      fun _ heq => heq ▸ ⟨hbooks₂, Retains.of_none hnone₂⟩)
    rintro hash _ ⟨hhash, -, ctx, rfl⟩
    apply ends_get_bind
    split_ifs with hpersistent
    · exact .inl ⟨hbooks₂.congr rfl rfl rfl, Retains.of_none hnone₂⟩
    · -- Nothing is registered under the hash: every key is persistent here.
      have hnew : s₂.pool.getByHash hash = none := by
        cases hfound : s₂.pool.getByHash hash with
        | none => rfl
        | some key =>
          obtain ⟨record, hrecord, rfl, -⟩ := hbooks₂.finds hash _ hfound
          obtain ⟨other, hother⟩ := hbooks₂.all_persistent hnone₂ record hrecord
          simp [hfound, hother, Key.isPersistent] at hpersistent
      apply ends_bind ((register_ends _ _ _).weaken
        fun _ heq => heq ▸ ⟨hbooks₂.congr rfl rfl rfl, Retains.of_none hnone₂⟩)
      rintro _ _ ⟨hkey, rfl⟩
      refine .inr ⟨?_, s.kvLen, rfl, hlength₂, hash, hhash, (getByHash_register _ _ _).trans (if_pos rfl)⟩
      · constructor
        · exact sound_register hbooks₂.sound hkey _
        · exact hbooks₂.finds.register _ _
        · exact hbooks₂.exact_.register hnew
        · intro record hrecord other n hrolling
          cases mem_append.mp hrecord with
          | inl hold =>
            obtain ⟨hash', hpers⟩ := hbooks₂.all_persistent hnone₂ record hold
            rw [hpers] at hrolling
            cases hrolling
          | inr hlast =>
            cases mem_singleton.mp hlast
            cases hrolling
            exact ⟨rfl, rfl⟩
        · exact hbooks₂.unpinned
        · intro record hrecord hash' hpers
          cases mem_append.mp hrecord with
          | inl hold => exact hbooks₂.persistent record hold hash' hpers
          | inr hlast =>
            cases mem_singleton.mp hlast
            cases hpers

section

variable (hbooks : Books slot s)
include hbooks

theorem publishPersistent_left (cfg : Config) {hash : Digest} (hnew : hash ∉ s.persistent)
    (length : Nat) : Ends (fun _ => Left slot s) (Left slot s) (publishPersistent slot cfg hash length s) := by
  rw [publishPersistent]
  apply ends_bind ((evictCheckpoint_books hbooks).weaken fun _ hno => hno.elim)
  rintro _ s₁ ⟨hbooks₁, hnone₁, hfrom₁⟩
  apply ends_bind ((evictForBudget_books hbooks₁ hnone₁ _ _).weaken fun _ hno => hno.elim)
  rintro _ s₂ ⟨hbooks₂, hnone₂, hfrom₂⟩
  apply ends_get_bind
  split_ifs with hbudget
  · exact ⟨hbooks₂, Retains.of_none hnone₂⟩
  · apply ends_bind ((register_ends _ _ _).weaken fun _ heq => heq ▸ ⟨hbooks₂, Retains.of_none hnone₂⟩)
    rintro _ _ ⟨hkey, rfl⟩
    have hfree : s₂.pool.getByHash hash = none := by
      cases hfound : s₂.pool.getByHash hash with
      | none => rfl
      | some key =>
        obtain ⟨record, hrecord, -, hsame⟩ := hbooks₂.finds hash _ hfound
        obtain ⟨other, hother⟩ := hbooks₂.all_persistent hnone₂ record hrecord
        obtain ⟨hown, hmem⟩ := hbooks₂.persistent record hrecord other hother
        rw [← hown, hsame] at hmem
        exact absurd (hfrom₁ _ (hfrom₂ _ hmem)) hnew
    have hin : (s₂.pool.register (.persistent hash) ⟨hash, length, cfg.checkpointBytes⟩).contains (.persistent hash) :=
      ⟨_, mem_append_right _ (mem_singleton_self _), rfl⟩
    refine ⟨?_, Retains.of_none hnone₂⟩
    constructor
    · have hsound := (sound_register hbooks₂.sound hkey ⟨hash, length, cfg.checkpointBytes⟩).step none
        (.pin (.persistent hash))
      rwa [step_pin, if_pos hin] at hsound
    · exact hbooks₂.finds.register _ _
    · exact hbooks₂.exact_.register hfree
    · intro record hrecord other n hrolling
      cases mem_append.mp hrecord with
      | inl hold => exact hbooks₂.rolling record hold other n hrolling
      | inr hlast =>
        cases mem_singleton.mp hlast
        cases hrolling
    · intro other n hpinned
      cases mem_insert_iff.mp hpinned with
      | inl heq => cases heq
      | inr hold => exact hbooks₂.unpinned other n hold
    · intro record hrecord hash' hpers
      cases mem_append.mp hrecord with
      | inl hold =>
        obtain ⟨hsame, hmem⟩ := hbooks₂.persistent record hold hash' hpers
        exact ⟨hsame, mem_append_left _ hmem⟩
      | inr hlast =>
        cases mem_singleton.mp hlast
        cases hpers
        exact ⟨rfl, mem_append_right _ (mem_singleton_self _)⟩

theorem storePersistentPrefix_left (cfg : Config) (h : Hasher State Digest) (hidden allowed : Bool) :
    Ends (fun _ => Left slot s) (Left slot s) (storePersistentPrefix slot cfg h hidden allowed s) := by
  have hsame : Left slot s s := ⟨hbooks, Retains.of_same rfl rfl⟩
  rw [storePersistentPrefix]
  apply ends_get_bind
  cases s.checkpointLen with
  | none => exact hsame
  | some length =>
    dsimp only
    split
    · exact hsame
    · cases prefixHash h s.tokens length with
      | none => exact hsame
      | some hash =>
        dsimp only
        split
        · exact (touch_left hbooks _).mono (fun _ _ hleft => hleft.1) fun _ hleft => hleft.1
        · rename_i hnew
          split
          · exact publishPersistent_left hbooks cfg hnew length
          · exact hsame

theorem restoreOwn_left (h : Hasher State Digest) (prompt : List Int) :
    Ends (fun _ => Left slot s) (Left slot s) (restoreOwn slot h prompt s) := by
  have hsame : Left slot s s := ⟨hbooks, Retains.of_same rfl rfl⟩
  rw [restoreOwn]
  apply ends_get_bind
  cases s.checkpointLen with
  | none => exact hsame
  | some length =>
    dsimp only
    split
    · exact hsame
    · cases prefixHash h prompt length with
      | none => exact hsame
      | some hash =>
        dsimp only
        split
        · exact hsame
        · have hmoved : Books slot { s with kvLen := length } := hbooks.congr rfl rfl rfl
          exact (touch_left hmoved _).mono (fun _ _ hleft => hleft.1) fun _ hleft => hleft.1

theorem restoreOther_left (length : Nat) (hash : Option Digest) :
    Ends (fun _ => Left slot s) (Left slot s) (restoreOther slot length hash s) := by
  rw [restoreOther.eq_def]
  apply ends_bind ((dropPrefixCache_left hbooks).weaken fun _ hno => hno.elim)
  rintro _ s₁ ⟨⟨hbooks₁, -⟩, hnone⟩
  apply ends_modify_bind
  have hmoved : Books slot { s₁ with kvLen := length } := hbooks₁.congr rfl rfl rfl
  cases hash with
  | none => exact ⟨hmoved, Retains.of_none hnone⟩
  | some hash =>
    apply (touch_left hmoved (.persistent hash)).mono
    · exact fun _ s' hleft => ⟨hleft.1.1, Retains.of_none (hleft.2.trans hnone)⟩
    · exact fun s' hleft => ⟨hleft.1.1, Retains.of_none (hleft.2.trans hnone)⟩

theorem resetSlot_left (cfg : Config) (h : Hasher State Digest) (dynamicArena allowed : Bool) :
    Ends (fun _ => Left slot s) (Left slot s) (resetSlot slot cfg h dynamicArena allowed s) := by
  rw [resetSlot]
  apply ends_modify_bind
  apply ends_get_bind
  dsimp only
  split
  · apply ends_set_bind
    have hretained : Books slot { s with hashCtx := none, hashLen := none, retained := some (s.tokens, s.kvLen) } :=
      hbooks.congr rfl rfl rfl
    split
    · apply ends_bind (storePersistentPrefix_left hretained cfg h false allowed)
      exact fun _ s₁ hleft => ⟨hleft.1.congr rfl rfl rfl, hleft.2⟩
    · exact ⟨hretained.congr rfl rfl rfl, Retains.of_same rfl rfl⟩
  · exact ⟨hbooks.congr rfl rfl rfl, Retains.of_same rfl rfl⟩

end

def Op.own : Op Digest → Bool
  | .commitPrefill .. | .extend .. | .checkpoint _ | .storePersistentPrefix .. | .restoreOwn _ | .restoreOther ..
  | .dropPrefixCache | .resetSlot .. => true
  | .others .. => false

/-- What one call preserves of a slot that is alone. -/
theorem call_left (hstreams : h.Streams) (hfed : Fed h s) (hbooks : Books slot s) (cfg : Config) {op : Op Digest}
    (hown : op.own) :
    Ends (fun _ s' => Left slot s s' ∨ Books slot s' ∧ Fresh slot h s')
      (fun s' => Left slot s s' ∨ Books slot s' ∧ Fresh slot h s') (call slot cfg h op s) := by
  have hleft {x : EStateM.Result (HashError Digest) (Slot State Digest) Unit}
      (hx : Ends (fun _ => Left slot s) (Left slot s) x) :
      Ends (fun _ s' => Left slot s s' ∨ Books slot s' ∧ Fresh slot h s')
        (fun s' => Left slot s s' ∨ Books slot s' ∧ Fresh slot h s') x :=
    hx.mono (fun _ _ => .inl) fun _ => .inl
  cases op with
  | commitPrefill prompt firstToken force =>
    set s₀ : Slot State Digest :=
      { s with hashCtx := none, hashLen := none, kvLen := prompt.length, tokens := prompt ++ [firstToken] } with hs₀
    have hempty : Fed h s₀ := Fed.of_none rfl
    have hsame : Books slot s₀ := hbooks.congr rfl rfl rfl
    exact (maybeCheckpoint_left hstreams hempty hsame cfg force).weaken fun _ => .inl
  | extend committed kvLen =>
    have hsame : Books slot { s with tokens := s.tokens ++ committed, kvLen := kvLen } := hbooks.congr rfl rfl rfl
    exact (maybeCheckpoint_left hstreams (hfed.append committed kvLen) hsame cfg false).weaken
      fun _ => .inl
  | checkpoint force =>
    exact (maybeCheckpoint_left hstreams hfed hbooks cfg force).weaken fun _ => .inl
  | storePersistentPrefix hidden allowed => exact hleft (storePersistentPrefix_left hbooks cfg h hidden allowed)
  | restoreOwn prompt => exact hleft (restoreOwn_left hbooks h prompt)
  | restoreOther length hash => exact hleft (restoreOther_left hbooks length hash)
  | dropPrefixCache =>
    exact hleft ((dropPrefixCache_left hbooks).mono (fun _ _ hdone => hdone.1) fun _ hno => hno.elim)
  | resetSlot dynamicArena allowed => exact hleft (resetSlot_left hbooks cfg h dynamicArena allowed)
  | others pool persistent dropped => cases hown

end Alone

section Runs

theorem run_append (slot : Nat) (cfg : Config) (h : Hasher State Digest) (byteBudget : Nat) (ops : List (Op Digest))
    (op : Op Digest) :
    run slot cfg h byteBudget (ops ++ [op]) = after slot cfg h (run slot cfg h byteBudget ops) op := by
  rw [run, run, foldl_append]
  rfl

section

variable (hstreams : h.Streams) (slot : Nat) (cfg : Config) (byteBudget : Nat)
include hstreams

theorem run_fed (ops : List (Op Digest)) : Fed h (run slot cfg h byteBudget ops) := by
  induction ops using reverseRecOn with
  | nil => exact Fed.of_none rfl
  | append_singleton ops op ih =>
    rw [run_append]
    exact (call_ends hstreams ih slot cfg op).endState (fun _ _ hdone => hdone.1) fun _ hdone => hdone.1

/-- The checkpoint of a slot that is alone is found by the prompts that start with the tokens it was taken of. -/
theorem run_found {ops : List (Op Digest)} (hown : ∀ op ∈ ops, op.own) :
    Books slot (run slot cfg h byteBudget ops) ∧
      ∀ n, (run slot cfg h byteBudget ops).checkpointLen = some n → ∃ earlier, earlier <+: ops ∧
        n ≤ (run slot cfg h byteBudget earlier).tokens.length ∧
        LookupFinds slot h (run slot cfg h byteBudget ops) n (run slot cfg h byteBudget earlier).tokens := by
  induction ops using reverseRecOn with
  | nil =>
    refine ⟨Books.start slot byteBudget, ?_⟩
    intro n hn
    cases hn
  | append_singleton ops op ih =>
    obtain ⟨hbooks, hfound⟩ := ih fun op' hop' => hown op' (mem_append_left _ hop')
    have hcall := call_left hstreams (run_fed hstreams slot cfg byteBudget ops) hbooks cfg
      (hown op (mem_append_right _ (mem_singleton_self op)))
    have hdone := hcall.endState (I := fun s' => Left slot (run slot cfg h byteBudget ops) s' ∨
      Books slot s' ∧ Fresh slot h s') (fun _ _ => id) fun _ => id
    rw [run_append]
    cases hdone with
    | inl hleft =>
      refine ⟨hleft.1, ?_⟩
      intro n hn
      obtain ⟨hbefore, hstays⟩ := hleft.2 n hn
      obtain ⟨earlier, hprefix, hlength, hash, hhash, hindex⟩ := hfound n hbefore
      exact ⟨earlier, hprefix.trans (prefix_append ops [op]), hlength, hash, hhash, hstays hash hindex⟩
    | inr hfresh =>
      obtain ⟨hbooks', m, hm, hlength, hlookup⟩ := hfresh
      refine ⟨hbooks', ?_⟩
      intro n hn
      cases hm.symm.trans hn
      refine ⟨ops ++ [op], prefix_rfl, ?_⟩
      rw [run_append]
      exact ⟨hlength, hlookup⟩

end

omit [DecidableEq Digest] in
theorem LookupFinds.prompt {n : Nat} {tokens prompt : List Int} (hfound : LookupFinds slot h s n tokens)
    (hprompt : prompt.take n = tokens.take n) : LookupFinds slot h s n prompt := by
  obtain ⟨hash, hhash, hindex⟩ := hfound
  refine ⟨hash, ?_, hindex⟩
  rw [prefixHash, hprompt]
  exact hhash

/-- After every history of a slot the rolling hash is the hash of the whole prefix, and a checkpoint that is
kept is found by every prompt that starts with its tokens. -/
theorem rollingPrefixHash_agrees (h : Hasher State Digest) (hstreams : h.Streams) (slot : Nat) (cfg : Config)
    (byteBudget : Nat) (ops : List (Op Digest)) :
    (∀ length, returned (rollingPrefixHash cfg h length (run slot cfg h byteBudget ops)) =
      prefixHash h (run slot cfg h byteBudget ops).tokens length) ∧
    (∀ op, Taken slot h (run slot cfg h byteBudget ops) (run slot cfg h byteBudget (ops ++ [op]))) ∧
    ((∀ op ∈ ops, op.own) → ∀ n, (run slot cfg h byteBudget ops).checkpointLen = some n →
      ∃ earlier, earlier <+: ops ∧ n ≤ (run slot cfg h byteBudget earlier).tokens.length ∧
        ∀ prompt : List Int, prompt.take n = (run slot cfg h byteBudget earlier).tokens.take n →
          LookupFinds slot h (run slot cfg h byteBudget ops) n prompt) := by
  have hfed := run_fed hstreams slot cfg byteBudget ops
  refine ⟨?_, ?_, ?_⟩
  · intro length
    rw [rollingPrefixHash_eq hstreams hfed, prefixHash]
    cases pack 4 ((run slot cfg h byteBudget ops).tokens.take length) <;> rfl
  · intro op
    rw [run_append]
    exact (call_ends hstreams hfed slot cfg op).endState (fun _ _ hdone => hdone.2) fun _ hdone => hdone.2
  · intro hown n hn
    obtain ⟨earlier, hprefix, hlength, hfound⟩ := (run_found hstreams slot cfg byteBudget hown).2 n hn
    exact ⟨earlier, hprefix, hlength, fun prompt hprompt => hfound.prompt hprompt⟩

/-- The hasher over the bytes it was fed, with the digests of two messages. -/
def recorded : Hasher (List UInt8) Nat where
  new := []
  update state bytes := state ++ bytes
  hexdigest state :=
    if state = [1, 0, 0, 0, 2, 0, 0, 0] then 0x2cc5e4d47c5f3c5fbe635a5a5b7bb392
    else if state = [1, 0, 0, 0, 2, 0, 0, 0, 3, 0, 0, 0, 4, 0, 0, 0] then 0x5c3887ef44b86da26265cb5c108a056b
    else 0

/-- A prefill of two tokens, two more tokens, and a reset: the second checkpoint fed its tail only. -/
def twoTurns : List (Op Nat) := [.commitPrefill [1, 2] 3 false, .extend [4, 5] 4, .resetSlot false false]

theorem rollingPrefixHash_agrees_twoTurns :
    (run 0 ⟨true, 2, 1⟩ recorded 2 (twoTurns.take 2)).hashLen = some 4 ∧
    (∀ length, returned (rollingPrefixHash ⟨true, 2, 1⟩ recorded length
      (run 0 ⟨true, 2, 1⟩ recorded 2 (twoTurns.take 2))) =
      prefixHash recorded (run 0 ⟨true, 2, 1⟩ recorded 2 (twoTurns.take 2)).tokens length) ∧
    (run 0 ⟨true, 2, 1⟩ recorded 2 twoTurns).checkpointLen = some 4 ∧
    ∃ earlier, earlier <+: twoTurns ∧ 4 ≤ (run 0 ⟨true, 2, 1⟩ recorded 2 earlier).tokens.length ∧
      ∀ prompt : List Int, prompt.take 4 = (run 0 ⟨true, 2, 1⟩ recorded 2 earlier).tokens.take 4 →
        LookupFinds 0 recorded (run 0 ⟨true, 2, 1⟩ recorded 2 twoTurns) 4 prompt := by
  have hstreams : recorded.Streams := fun state first second => append_assoc state first second
  have hlen : (run 0 ⟨true, 2, 1⟩ recorded 2 twoTurns).checkpointLen = some 4 := by decide +kernel
  have hown : ∀ op ∈ twoTurns, op.own := by
    intro op hop
    simp only [twoTurns, mem_cons, not_mem_nil, or_false] at hop
    rcases hop with rfl | rfl | rfl <;> rfl
  refine ⟨by decide +kernel, (rollingPrefixHash_agrees recorded hstreams 0 ⟨true, 2, 1⟩ 2 (twoTurns.take 2)).1, hlen, ?_⟩
  exact (rollingPrefixHash_agrees recorded hstreams 0 ⟨true, 2, 1⟩ 2 twoTurns).2.2 hown 4 hlen

end Runs

end RollingHash
