import BlackweLLM.CommitLoop

/-!
# Stop sequences over a chunked text

The content phase of `_stop_check_token` on its own: each chunk is appended to the
pending text, which is searched, released as a whole or held back. What the chunks
are cut from is searched as if it had never been cut.
-/

namespace StopChunks

open List TextScan PythonText StopSequences CommitLoop

/-- The verdict on the pending text once the reasoning phase is over. -/
def verdict (stops : List Text) (pending : Text) : StopVerdict :=
  match findEarliestStopMatch pending stops with
  | some (_, seq) => .matched seq
  | none => if trimAmbiguousStopTail pending stops = pending then .flush else .withhold

/-- The engine's stop state, once `</think>` has passed. -/
theorem verdict_eq {τ Call : Type} {tok : StreamProcessor.Tokenizer τ} {s : StopState tok Call}
    (hdone : s.stopTracker.thinkingDone) :
    s.verdict = verdict s.stopSequences s.stopPendingText :=
  if_pos hdone

structure Buffer where
  released : Text
  pending : Text
  deriving DecidableEq, Repr

inductive Outcome where
  | running (buffer : Buffer)
  /-- A match at an offset of the whole text, after this many chunks. -/
  | stopped (chunks offset : Nat) (seq : Text) (released : Text)
  deriving DecidableEq, Repr

variable (stops : List Text)

def matchStart (pending : Text) : Nat := ((findEarliestStopMatch pending stops).map Prod.fst).getD 0

/-- One chunk; `chunks` counts those before it. -/
def push (chunks : Nat) (buffer : Buffer) (chunk : Text) : Outcome :=
  let pending := buffer.pending ++ chunk
  match verdict stops pending with
  | .matched seq => .stopped (chunks + 1) (buffer.released.length + matchStart stops pending) seq buffer.released
  | .flush => .running ⟨buffer.released ++ pending, []⟩
  | .withhold => .running ⟨buffer.released, pending⟩

def pushAll (chunks : Nat) (buffer : Buffer) : List Text → Outcome
  | [] => .running buffer
  | chunk :: rest =>
    match push stops chunks buffer chunk with
    | .running next => pushAll (chunks + 1) next rest
    | .stopped n i seq released => .stopped n i seq released

def matchChunks : List Text → Outcome := pushAll stops 0 ⟨[], []⟩

variable {stops}

/-- The buffer holds the whole text, and what it has released can be forgotten. -/
structure Holds (stops : List Text) (text : Text) (buffer : Buffer) : Prop where
  whole : buffer.released ++ buffer.pending = text
  settled : Settled stops buffer.released
  clean : findEarliestStopMatch text stops = none

section

variable {text : Text} {buffer : Buffer} (h : Holds stops text buffer)
include h

/-- What the search in the pending text finds is what a search in the whole text finds. -/
theorem Holds.find_append (chunk : Text) : findEarliestStopMatch (text ++ chunk) stops =
      (findEarliestStopMatch (buffer.pending ++ chunk) stops).map (shift buffer.released.length) := by
  rw [← h.settled.findEarliest_append, ← append_assoc, h.whole]

/-- One chunk: a match of the whole text is reported, or the buffer goes on holding it. -/
theorem push_cases (chunks : Nat) (chunk : Text) :
    (∃ i seq, push stops chunks buffer chunk = .stopped (chunks + 1) i seq buffer.released ∧
      findEarliestStopMatch (text ++ chunk) stops = some (i, seq) ∧ buffer.released.length ≤ i) ∨
    ∃ next, push stops chunks buffer chunk = .running next ∧ Holds stops (text ++ chunk) next ∧
      buffer.released <+: next.released := by
  have hfind := h.find_append chunk
  have hwhole : buffer.released ++ (buffer.pending ++ chunk) = text ++ chunk := by
    rw [← append_assoc, h.whole]
  unfold push verdict
  dsimp only
  generalize buffer.pending ++ chunk = pending at hfind hwhole ⊢
  cases hpending : findEarliestStopMatch pending stops with
  | some hit =>
    have hstart : matchStart stops pending = hit.1 := by rw [matchStart, hpending]; rfl
    rw [hpending] at hfind
    rw [hstart]
    exact .inl ⟨_, _, rfl, hfind, Nat.le_add_right _ _⟩
  | none =>
    rw [hpending] at hfind
    dsimp only
    by_cases htrim : trimAmbiguousStopTail pending stops = pending
    · rw [if_pos htrim]
      have hsettled : Settled stops (buffer.released ++ pending) := by
        refine ⟨?_, (h.settled.trim_append_iff _).mpr htrim⟩
        rw [hwhole, hfind]
        rfl
      exact .inr ⟨_, rfl, ⟨(append_nil _).trans hwhole, hsettled, hfind⟩, prefix_append _ _⟩
    · rw [if_neg htrim]
      exact .inr ⟨_, rfl, ⟨hwhole, h.settled, hfind⟩, prefix_rfl⟩

end

def Clean (stops : List Text) (text : Text) : Prop := ∀ seq ∈ stops, seq ≠ [] → ∀ i, ¬ OccursAt seq text i

theorem clean_iff {text : Text} : Clean stops text ↔ findEarliestStopMatch text stops = none := by
  rw [findEarliest_eq_none_iff]
  exact forall₂_congr fun seq _ => forall_congr' fun hne => (find_eq_none_iff hne).symm

/-- A configured sequence occurs at the offset, and none occurs before it. -/
structure Earliest (stops : List Text) (text : Text) (i : Nat) (seq : Text) : Prop where
  configured : seq ∈ stops
  nonempty : seq ≠ []
  occurs : OccursAt seq text i
  first : ∀ other ∈ stops, other ≠ [] → ∀ j, OccursAt other text j → i ≤ j

theorem earliest_of_find {text : Text} {i : Nat} {seq : Text}
    (h : findEarliestStopMatch text stops = some (i, seq)) : Earliest stops text i seq := by
  obtain ⟨hmem, hne, hfind⟩ := findEarliest_spec h
  exact ⟨hmem, hne, ((find_eq_some_iff hne).mp hfind).1, fun other hother hne' j hj => findEarliest_le h hother hne' hj⟩

/-- How the matcher may end after the chunks `done` and then `rest`. -/
def Exact (stops : List Text) (done rest : List Text) (released : Text) : Outcome → Prop
  | .running buffer => Holds stops (done ++ rest).flatten buffer ∧ released <+: buffer.released
  | .stopped n i seq out =>
    done.length < n ∧ n ≤ (done ++ rest).length ∧
      findEarliestStopMatch ((done ++ rest).take n).flatten stops = some (i, seq) ∧
      (∀ k < n, done.length ≤ k → Clean stops ((done ++ rest).take k).flatten) ∧
      released <+: out ∧ out <+: ((done ++ rest).take n).flatten ∧ out.length ≤ i

/-- The induction is on the chunks that are left. -/
theorem pushAll_exact {done : List Text} {buffer : Buffer} (h : Holds stops done.flatten buffer) (rest : List Text) :
    Exact stops done rest buffer.released (pushAll stops done.length buffer rest) := by
  induction rest generalizing done buffer with
  | nil =>
    rw [← append_nil done] at h
    exact ⟨h, prefix_rfl⟩
  | cons chunk rest ih =>
    have htext : (done ++ [chunk]).flatten = done.flatten ++ chunk := by
      rw [flatten_append, flatten_singleton]
    have hsplit : done ++ chunk :: rest = (done ++ [chunk]) ++ rest := by rw [append_assoc, singleton_append]
    have hlength : (done ++ [chunk]).length = done.length + 1 := length_append
    have hnow : Clean stops ((done ++ chunk :: rest).take done.length).flatten := by
      rw [take_left]
      exact clean_iff.mpr h.clean
    unfold pushAll
    cases push_cases h done.length chunk with
    | inl hstop =>
      obtain ⟨i, seq, hpush, hfind, hle⟩ := hstop
      rw [hpush]
      have htake : (done ++ chunk :: rest).take (done.length + 1) = done ++ [chunk] := by
        rw [hsplit, ← hlength, take_left]
      have hprefix : buffer.released <+: (done ++ [chunk]).flatten := by
        rw [htext, ← h.whole, append_assoc]
        exact prefix_append _ _
      refine ⟨Nat.lt_succ_self _, ?_, ?_, fun k hk hdone => ?_, prefix_rfl, ?_, hle⟩
      · rw [hsplit, length_append, hlength]
        exact Nat.le_add_right _ _
      · rw [htake, htext]
        exact hfind
      · obtain rfl : k = done.length := by omega
        exact hnow
      · rw [htake]
        exact hprefix
    | inr hrun =>
      obtain ⟨next, hpush, hnext, hreleased⟩ := hrun
      rw [hpush]
      have hholds : Holds stops (done ++ [chunk]).flatten next := htext ▸ hnext
      have hrest := ih hholds
      rw [hlength] at hrest
      dsimp only
      cases hout : pushAll stops (done.length + 1) next rest with
      | running last =>
        rw [hout] at hrest
        exact ⟨hsplit ▸ hrest.1, hreleased.trans hrest.2⟩
      | stopped n i seq out =>
        rw [hout] at hrest
        obtain ⟨hlt, hle, hfind, hclean, hout', hprefix, hoffset⟩ := hrest
        rw [hlength] at hlt hclean
        rw [← hsplit] at hle hfind hclean hprefix
        refine ⟨by omega, hle, hfind, fun k hk hdone => ?_, hreleased.trans hout', hprefix, hoffset⟩
        by_cases heq : k = done.length
        · subst heq
          exact hnow
        · exact hclean k hk (by omega)

theorem pushAll_append (chunks : Nat) (buffer : Buffer) (first rest : List Text) :
    pushAll stops chunks buffer (first ++ rest) =
      match pushAll stops chunks buffer first with
      | .running next => pushAll stops (chunks + first.length) next rest
      | .stopped n i seq released => .stopped n i seq released := by
  induction first generalizing chunks buffer with
  | nil => rfl
  | cons chunk first ih =>
    rw [cons_append, pushAll, pushAll]
    cases push stops chunks buffer chunk with
    | running next =>
      dsimp only
      rw [ih, length_cons, Nat.add_assoc, Nat.add_comm 1]
    | stopped n i seq released => rfl

theorem holds_start : Holds stops [].flatten ⟨[], []⟩ := ⟨rfl, settled_nil stops, (settled_nil stops).1⟩

/-- What the matcher may say of the chunks of a text: nothing occurs and every character is released or held, or the
earliest occurrence after the first chunk that completes one, no character of which was ever released. -/
def Correct (stops : List Text) (chunks : List Text) : Outcome → Prop
  | .running buffer => Clean stops chunks.flatten ∧ buffer.released ++ buffer.pending = chunks.flatten
  | .stopped n i seq released =>
    0 < n ∧ n ≤ chunks.length ∧ (∀ k < n, Clean stops (chunks.take k).flatten) ∧
      Earliest stops (chunks.take n).flatten i seq ∧ released <+: (chunks.take n).flatten ∧
      released.length ≤ i ∧
      ∀ k buffer, matchChunks stops (chunks.take k) = .running buffer → buffer.released <+: released

/-- The matcher is exact for every list of stop sequences and every way to cut a text into chunks. -/
theorem matchChunks_correct (stops chunks : List Text) : Correct stops chunks (matchChunks stops chunks) := by
  have hexact : Exact stops [] chunks [] (matchChunks stops chunks) := pushAll_exact holds_start chunks
  cases hout : matchChunks stops chunks with
  | running buffer =>
    rw [hout] at hexact
    exact ⟨clean_iff.mpr hexact.1.clean, hexact.1.whole⟩
  | stopped n i seq released =>
    rw [hout] at hexact
    obtain ⟨hpos, hle, hfind, hclean, -, hprefix, hoffset⟩ := hexact
    refine ⟨hpos, hle, fun k hk => hclean k hk (Nat.zero_le k), earliest_of_find hfind, hprefix, hoffset, ?_⟩
    intro k buffer hrun
    have htaken : Exact stops [] (chunks.take k) [] (matchChunks stops (chunks.take k)) := pushAll_exact holds_start _
    rw [hrun] at htaken
    have hrest := pushAll_exact htaken.1 (chunks.drop k)
    have hjoined : pushAll stops (chunks.take k).length buffer (chunks.drop k) = matchChunks stops chunks := by
      conv_rhs => rw [← take_append_drop k chunks, matchChunks, pushAll_append]
      unfold matchChunks at hrun
      rw [hrun, Nat.zero_add]
    rw [nil_append, hjoined, hout] at hrest
    exact hrest.2.2.2.2.1

/-- The held-back run of one letter belongs to the match in the end. -/
example : matchChunks ["aab".toList, "ba".toList] ["aa".toList, "aa".toList, "ba".toList] =
    .stopped 3 2 "aab".toList [] := by decide

end StopChunks
