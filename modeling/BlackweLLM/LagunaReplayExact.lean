import BlackweLLM.LagunaReplay

/-!
# Exact prefix replay

What a replay needs of a retained slot: the rows in front of the snapshot come
from the regular chunks of the tokens that the slot remembers, and the snapshot
is the ring behind them. A cold prefill of any prompt that starts with these
tokens forwards the same chunks first, so a replay goes on where that prefill
would.
-/

namespace LagunaReplay

open List Function LagunaChunks LagunaRing StepRun

variable {Tok Row Win : Type} {cfg : Config Tok Row Win}

section Chunks

variable {ranges : List (Nat × Nat)}

/-- Two slots hold the same rows in front of `stop` and the same last window. -/
def Agree (cfg : Config Tok Row Win) (s s' : Slot Tok Row Win) (stop : Nat) : Prop :=
  (∀ p, p < stop → s.kv p = s'.kv p) ∧
    ∀ p, p < stop → stop ≤ p + cfg.window → s.ring (p % cfg.ringSlots) = s'.ring (p % cfg.ringSlots)

theorem agree_zero (s s' : Slot Tok Row Win) : Agree cfg s s' 0 :=
  ⟨fun _ hp => absurd hp (Nat.not_lt_zero _), fun _ hp => absurd hp (Nat.not_lt_zero _)⟩

theorem mod_injOn {slots p q stop window : Nat} (hwindow : window ≤ slots) (hp : p < stop) (hp' : stop ≤ p + window)
    (hq : q < stop) (hq' : stop ≤ q + window) (h : p % slots = q % slots) : p = q :=
  LagunaRing.mod_inj h (by omega) (by omega)

/-- The ring behind a chunk holds its last window: the copied overlap and the chunk's own rows. -/
theorem runChunk_ring {tokens : List Tok} {start overlap : Nat} (hoverlap : overlap ≤ start) (s : Slot Tok Row Win)
    {p : Nat}
    (hp : p < start + tokens.length) (hp' : start + tokens.length ≤ p + min cfg.window (overlap + tokens.length)) :
    (runChunk cfg tokens start overlap s).2.ring (p % cfg.ringSlots) =
      if p < start then s.ring (p % cfg.ringSlots)
      else cfg.target.window tokens start ((List.range start).map s.kv)
        ((List.range overlap).map fun i => s.ring ((start - overlap + i) % cfg.ringSlots)) (p - start) := by
  generalize hcopied : ((List.range overlap).map fun i => s.ring ((start - overlap + i) % cfg.ringSlots)) = copied
  generalize hscratch : (fun i => if i < overlap then s.ring ((start - overlap + i) % cfg.ringSlots)
    else cfg.target.window tokens start ((List.range start).map s.kv) copied (i - overlap)) = scratch
  generalize hcount : min cfg.window (overlap + tokens.length) = count at hp'
  have hle : count ≤ overlap + tokens.length := by omega
  have hcountWindow : count ≤ cfg.window := by omega
  have hring : (runChunk cfg tokens start overlap s).2.ring = scatter s.ring ((List.range count).map fun j =>
      ((start + tokens.length - count + j) % cfg.ringSlots, scratch (overlap + tokens.length - count + j))) := by
    subst hcopied hscratch hcount
    rfl
  have hmem : (p % cfg.ringSlots, scratch (p - (start - overlap))) ∈ (List.range count).map fun j =>
      ((start + tokens.length - count + j) % cfg.ringSlots, scratch (overlap + tokens.length - count + j)) := by
    refine mem_map.mpr ⟨p - (start + tokens.length - count), mem_range.mpr (by omega), ?_⟩
    rw [show start + tokens.length - count + (p - (start + tokens.length - count)) = p by omega,
      show overlap + tokens.length - count + (p - (start + tokens.length - count)) = p - (start - overlap) by omega]
  rw [hring, scatter_of_mem s.ring ?_ hmem]
  · subst hscratch
    dsimp only
    by_cases hlt : p < start
    · rw [if_pos (by omega), if_pos hlt, Nat.add_sub_cancel' (by omega)]
    · rw [if_neg (by omega), if_neg hlt]
      congr 1
      omega
  · rw [map_map]
    refine List.Nodup.map_on (fun i hi j hj heq => ?_) nodup_range
    rw [mem_range] at hi hj
    have := mod_injOn (cfg.window_le) (show start + tokens.length - count + i < start + tokens.length by omega)
      (by omega) (show start + tokens.length - count + j < start + tokens.length by omega) (by omega) heq
    omega

theorem runRange_agree {promptIds promptIds' : List Tok} {range : Nat × Nat} {s s' : Slot Tok Row Win}
    (h : Agree cfg s s' range.1) (hlt : range.1 < range.2) (hle : range.2 ≤ promptIds.length)
    (htokens : promptIds.extract range.1 range.2 = promptIds'.extract range.1 range.2) :
    (runRange cfg promptIds range s).1 = (runRange cfg promptIds' range s').1 ∧
      Agree cfg (runRange cfg promptIds range s).2 (runRange cfg promptIds' range s').2 range.2 := by
  have hlen : (promptIds.extract range.1 range.2).length = range.2 - range.1 := by
    simp only [extract_eq_take_drop, length_take, length_drop]
    omega
  have hhistory : (List.range range.1).map s.kv = (List.range range.1).map s'.kv :=
    map_congr_left fun p hp => h.1 p (mem_range.mp hp)
  have hcopied : ((List.range (min cfg.window range.1)).map fun i => s.ring ((range.1 - min cfg.window range.1 + i) % cfg.ringSlots)) =
      (List.range (min cfg.window range.1)).map fun i => s'.ring
        ((range.1 - min cfg.window range.1 + i) % cfg.ringSlots) := by
    refine map_congr_left fun i hi => h.2 _ ?_ ?_ <;> rw [mem_range] at hi <;> omega
  unfold runRange
  rw [← htokens]
  refine ⟨by simp only [runChunk, hhistory, hcopied], fun p hp => ?_, fun p hp hp' => ?_⟩
  · simp only [runChunk, hhistory, hcopied, hlen]
    split
    · rfl
    · exact h.1 p (by omega)
  · rw [runChunk_ring (min_le_right _ _) s (by omega) (by omega),
      runChunk_ring (min_le_right _ _) s' (by omega) (by omega), hhistory, hcopied]
    split
    · exact h.2 p (by omega) (by omega)
    · rfl

theorem runRanges_cons (promptIds : List Tok) (boundary : Option Nat) (range : Nat × Nat) (ranges : List (Nat × Nat))
    (r : Option Tok × Slot Tok Row Win) : runRanges cfg promptIds boundary (range :: ranges) r =
      runRanges cfg promptIds boundary ranges (some (runRange cfg promptIds range r.2).1,
        if boundary = some range.2 then capturePrefixChunkSnapshot range.2 (runRange cfg promptIds range r.2).2
        else (runRange cfg promptIds range r.2).2) := rfl

theorem runRanges_append (promptIds : List Tok) (boundary : Option Nat) (xs ys : List (Nat × Nat))
    (r : Option Tok × Slot Tok Row Win) : runRanges cfg promptIds boundary (xs ++ ys) r =
      runRanges cfg promptIds boundary ys (runRanges cfg promptIds boundary xs r) := foldl_append

theorem Agree.capture {s s' : Slot Tok Row Win} {stop : Nat} (h : Agree cfg s s' stop) (P P' : Prop) [Decidable P]
    [Decidable P']
    (b b' : Nat) : Agree cfg (if P then capturePrefixChunkSnapshot b s else s)
      (if P' then capturePrefixChunkSnapshot b' s' else s') stop := by
  split <;> split <;> exact h

/-- Over one schedule two slots that agree in front of it agree behind it, whatever snapshots they take. -/
theorem runRanges_agree (cfg : Config Tok Row Win) {promptIds promptIds' : List Tok} (boundary boundary' : Option Nat)
    {lo hi : Nat} (htiles : Tiles lo hi ranges) (hle : hi ≤ promptIds.length)
    (htokens : promptIds.take hi = promptIds'.take hi) (r r' : Option Tok × Slot Tok Row Win)
    (h : Agree cfg r.2 r'.2 lo) :
    (lo < hi → (runRanges cfg promptIds boundary ranges r).1 = (runRanges cfg promptIds' boundary' ranges r').1) ∧
      Agree cfg (runRanges cfg promptIds boundary ranges r).2 (runRanges cfg promptIds' boundary' ranges r').2 hi := by
  induction ranges generalizing lo r r' with
  | nil =>
    cases htiles
    exact ⟨fun hlt => absurd hlt (lt_irrefl _), h⟩
  | cons range ranges ih =>
    obtain ⟨rfl, hlt, hrest⟩ := htiles
    have hrange := hrest.le
    have hextract : promptIds.extract range.1 range.2 = promptIds'.extract range.1 range.2 := by
      have htake := congrArg (fun xs => (xs.drop range.1).take (range.2 - range.1)) htokens
      simp only [drop_take, take_take] at htake
      rw [min_eq_left (by omega)] at htake
      simpa only [extract_eq_take_drop] using htake
    obtain ⟨hanchor, hagree⟩ := runRange_agree h hlt (hrange.trans hle) hextract
    rw [runRanges_cons, runRanges_cons]
    cases ranges with
    | nil =>
      cases hrest
      exact ⟨fun _ => congrArg some hanchor, hagree.capture _ _ _ _⟩
    | cons next ranges =>
      have hnext : range.2 < hi := lt_of_lt_of_le (hrest.1 ▸ hrest.2.1) hrest.2.2.le
      refine And.imp (fun hanchor _ => hanchor hnext) id (ih hrest _ _ ?_)
      exact hagree.capture _ _ _ _

theorem capture_if_kv (s : Slot Tok Row Win) (P : Prop) [Decidable P] (b : Nat) :
    (if P then capturePrefixChunkSnapshot b s else s).kv = s.kv ∧
      (if P then capturePrefixChunkSnapshot b s else s).ring = s.ring ∧
      (if P then capturePrefixChunkSnapshot b s else s).origin = s.origin ∧
      (if P then capturePrefixChunkSnapshot b s else s).forwards = s.forwards := by
  split <;> exact ⟨rfl, rfl, rfl, rfl⟩

/-- The chunks write behind `lo` only, every position gets its own chunk, and each chunk is forwarded once. -/
theorem runRanges_frame (cfg : Config Tok Row Win) {promptIds : List Tok} (boundary : Option Nat) {lo hi : Nat}
    (htiles : Tiles lo hi ranges) (hle : hi ≤ promptIds.length) (r : Option Tok × Slot Tok Row Win) :
    (∀ p, p < lo → (runRanges cfg promptIds boundary ranges r).2.kv p = r.2.kv p ∧
      (runRanges cfg promptIds boundary ranges r).2.origin p = r.2.origin p) ∧
    (∀ p, lo ≤ p → p < hi → ∃ range ∈ ranges, (runRanges cfg promptIds boundary ranges r).2.origin p = some range) ∧
    (runRanges cfg promptIds boundary ranges r).2.forwards = r.2.forwards ++ ranges := by
  induction ranges generalizing lo r with
  | nil =>
    cases htiles
    exact ⟨fun _ _ => ⟨rfl, rfl⟩, fun p hlo hhi => absurd hhi (not_lt.mpr hlo), (append_nil _).symm⟩
  | cons range ranges ih =>
    obtain ⟨rfl, hlt, hrest⟩ := htiles
    have hrange := hrest.le
    have hstop : range.1 + (promptIds.extract range.1 range.2).length = range.2 := by
      simp only [extract_eq_take_drop, length_take, length_drop]
      omega
    rw [runRanges_cons]
    obtain ⟨hkv, -, horigin, hforwards⟩ :=
      capture_if_kv (runRange cfg promptIds range r.2).2 (boundary = some range.2) range.2
    generalize (if boundary = some range.2 then capturePrefixChunkSnapshot range.2 (runRange cfg promptIds range r.2).2
      else (runRange cfg promptIds range r.2).2) = s at hkv horigin hforwards
    obtain ⟨hbelow, hinside, hall⟩ := ih hrest (some (runRange cfg promptIds range r.2).1, s)
    refine ⟨fun p hp => ?_, fun p hlo hhi => ?_, ?_⟩
    · have hsame := hbelow p (by omega)
      rw [hsame.1, hsame.2]
      simp only [hkv, horigin, runRange, runChunk]
      rw [if_neg (by omega), if_neg (by omega)]
      exact ⟨rfl, rfl⟩
    · by_cases hin : p < range.2
      · refine ⟨range, mem_cons_self, ?_⟩
        rw [(hbelow p hin).2]
        simp only [horigin, runRange, runChunk]
        rw [if_pos (by omega), hstop]
      · obtain ⟨q, hq, heq⟩ := hinside p (by omega) hhi
        exact ⟨q, mem_cons_of_mem _ hq, heq⟩
    · rw [hall]
      simp only [hforwards, runRange, runChunk, hstop, append_assoc, cons_append, nil_append]

/-- The snapshot is the ring behind the boundary. -/
theorem runRanges_snapshot (cfg : Config Tok Row Win) (promptIds : List Tok) {lo b : Nat} (htiles : Tiles lo b ranges)
    (hlt : lo < b) (r : Option Tok × Slot Tok Row Win) : (runRanges cfg promptIds (some b) ranges r).2.snapshot =
      some (b, (runRanges cfg promptIds (some b) ranges r).2.ring) := by
  induction ranges generalizing lo r with
  | nil => exact absurd htiles (ne_of_lt hlt)
  | cons range ranges ih =>
    obtain ⟨rfl, -, hrest⟩ := htiles
    rw [runRanges_cons]
    cases ranges with
    | nil =>
      cases hrest
      rw [if_pos rfl]
      rfl
    | cons next ranges =>
      exact ih hrest (lt_of_lt_of_le (hrest.1 ▸ hrest.2.1) hrest.2.2.le) _

/-- Chunks that do not end at the boundary leave the snapshot alone. -/
theorem runRanges_snapshot_of_ne (cfg : Config Tok Row Win) (promptIds : List Tok) {boundary : Option Nat}
    (h : ∀ range ∈ ranges, boundary ≠ some range.2) (r : Option Tok × Slot Tok Row Win) :
    (runRanges cfg promptIds boundary ranges r).2.snapshot = r.2.snapshot := by
  induction ranges generalizing r with
  | nil => rfl
  | cons range ranges ih =>
    rw [runRanges_cons, ih (fun q hq => h q (mem_cons_of_mem _ hq)), if_neg (h range mem_cons_self)]
    rfl

end Chunks

section Retained

variable {s : Slot Tok Row Win}

/-- The rows in front of `b` are those of the regular chunks of `promptIds`, whatever the slot held before them. -/
structure Regular (cfg : Config Tok Row Win) (promptIds : List Tok) (s : Slot Tok Row Win) (b : Nat) : Prop where
  agree : ∀ c : Slot Tok Row Win,
    Agree cfg s (runRanges cfg promptIds none (regularRanges 0 b cfg.chunkTokens) (none, c)).2 b
  origin : ∀ p, p < b → ∃ range ∈ regularRanges 0 b cfg.chunkTokens, s.origin p = some range

theorem regular_zero (promptIds : List Tok) (s : Slot Tok Row Win) (hchunk : 0 < cfg.chunkTokens) :
    Regular cfg promptIds s 0 where
  agree c := by
    rw [regularRanges_of_le (le_refl 0) hchunk]
    exact agree_zero _ _
  origin p hp := absurd hp (Nat.not_lt_zero p)

theorem Regular.congr {promptIds promptIds' : List Tok} {s' : Slot Tok Row Win} {b : Nat}
    (h : Regular cfg promptIds s b)
    (hchunk : 0 < cfg.chunkTokens) (hle : b ≤ promptIds.length) (htokens : promptIds.take b = promptIds'.take b)
    (hkv : ∀ p, p < b → s'.kv p = s.kv p ∧ s'.origin p = s.origin p) (hring : s'.ring = s.ring) :
    Regular cfg promptIds' s' b where
  agree c := by
    have hsame : Agree cfg (runRanges cfg promptIds none (regularRanges 0 b cfg.chunkTokens) (none, c)).2
        (runRanges cfg promptIds' none (regularRanges 0 b cfg.chunkTokens) (none, c)).2 b :=
      (runRanges_agree cfg none none (tiles_regularRanges hchunk (Nat.zero_le b)) hle htokens (none, c) (none, c)
        (agree_zero c c)).2
    have hold := h.agree c
    exact ⟨fun p hp => (hkv p hp).1.trans ((hold.1 p hp).trans (hsame.1 p hp)),
      fun p hp hp' => hring ▸ (hold.2 p hp hp').trans (hsame.2 p hp hp')⟩
  origin p hp := by
    obtain ⟨range, hrange, heq⟩ := h.origin p hp
    exact ⟨range, hrange, (hkv p hp).2.trans heq⟩

theorem Regular.extend {promptIds : List Tok} {lo hi : Nat} (h : Regular cfg promptIds s lo)
    (hchunk : 0 < cfg.chunkTokens) (hlo : cfg.chunkTokens ∣ lo) (hle : lo ≤ hi) (hlen : hi ≤ promptIds.length)
    (boundary : Option Nat) (out : Option Tok) :
    Regular cfg promptIds (runRanges cfg promptIds boundary (regularRanges lo hi cfg.chunkTokens) (out, s)).2 hi := by
  obtain ⟨i, hi'⟩ := hlo
  have hsplit := regularRanges_append 0 hi hchunk i (by rw [zero_add, mul_comm, ← hi']; exact hle)
  rw [zero_add, mul_comm, ← hi'] at hsplit
  have htiles : Tiles lo hi (regularRanges lo hi cfg.chunkTokens) := tiles_regularRanges hchunk hle
  obtain ⟨hbelow, hinside, -⟩ := runRanges_frame cfg boundary htiles hlen (out, s)
  refine ⟨fun c => ?_, fun p hp => ?_⟩
  · rw [hsplit, runRanges_append]
    exact (runRanges_agree cfg boundary none htiles hlen rfl _ _ (h.agree c)).2
  · rw [hsplit]
    by_cases hlt : p < lo
    · obtain ⟨range, hrange, heq⟩ := h.origin p hlt
      exact ⟨range, mem_append_left _ hrange, (hbelow p hlt).2.trans heq⟩
    · obtain ⟨range, hrange, heq⟩ := hinside p (not_lt.mp hlt) hp
      exact ⟨range, mem_append_right _ hrange, heq⟩

/-- A slot whose snapshot, if there is one, is the ring behind regular chunks of the tokens it remembers. -/
def Retained (cfg : Config Tok Row Win) (s : Slot Tok Row Win) : Prop :=
  ∀ b ring, s.snapshot = some (b, ring) → 0 < b ∧ 0 < cfg.chunkTokens ∧ cfg.chunkTokens ∣ b ∧ b ≤ s.kvLen ∧
    b ≤ s.committed.length ∧ Regular cfg s.committed { s with ring := ring } b

theorem retained_of_none (h : s.snapshot = none) : Retained cfg s :=
  fun b ring hsome => by
    rw [h] at hsome
    cases hsome

/-- The snapshot of a slot is good for every prompt of more than `b` tokens that starts with `promptIds`. -/
def SnapshotOf (cfg : Config Tok Row Win) (promptIds : List Tok) (s : Slot Tok Row Win) : Prop :=
  ∀ b ring, s.snapshot = some (b, ring) → 0 < b ∧ cfg.chunkTokens ∣ b ∧ b < promptIds.length ∧
    Regular cfg promptIds { s with ring := ring } b

theorem prefixSnapshotBoundary_mem {ranges : List (Nat × Nat)} {promptLen b : Nat}
    (h : prefixSnapshotBoundary cfg ranges promptLen = some b) :
    (∃ range ∈ ranges, range.2 = b) ∧ b < promptLen ∧ cfg.chunkTokens ∣ b := by
  have hmem := mem_of_getLast? h
  rw [mem_filter, mem_map, decide_eq_true_eq] at hmem
  exact ⟨hmem.1, hmem.2.1, Nat.dvd_of_mod_eq_zero hmem.2.2⟩

/-- Going on along a cold schedule from a regular prefix leaves a good snapshot. -/
theorem runRanges_snapshotOf {promptIds : List Tok} {ranges rest : List (Nat × Nat)} {lo : Nat}
    (hranges : prefillChunkRanges 0 promptIds.length cfg.chunkTokens cfg.window = .ok ranges)
    (hsplit : ranges = regularRanges 0 lo cfg.chunkTokens ++ rest) (htiles : Tiles lo promptIds.length rest)
    (hlo : cfg.chunkTokens ∣ lo) (hregular : Regular cfg promptIds s lo) (hsnapshot : SnapshotOf cfg promptIds s)
    (hbelow : ∀ b ring, s.snapshot = some (b, ring) → b ≤ lo) {boundary : Option Nat}
    (hboundary : boundary = none ∨ boundary = prefixSnapshotBoundary cfg ranges promptIds.length) (out : Option Tok) :
    SnapshotOf cfg promptIds (runRanges cfg promptIds boundary rest (out, s)).2 := by
  have hchunk : 0 < cfg.chunkTokens := (prefillChunkRanges_cases hranges).2.1
  have hlen := htiles.le
  -- the snapshot is taken in `rest` or it is the one that was there
  by_cases hnew : ∃ b, boundary = some b ∧ lo < b
  · obtain ⟨b, rfl, hlt⟩ := hnew
    have hb := hboundary.resolve_left (by simp)
    obtain ⟨⟨range, hrange, hend⟩, hbN, hdvd⟩ := prefixSnapshotBoundary_mem hb.symm
    obtain ⟨next, hnext, hstart⟩ := (tiles_prefillChunkRanges hranges).next hrange (by omega)
    obtain ⟨rest', hsplit', htiles', -, -⟩ := schedule_split hranges hdvd ⟨next, hnext, hstart.trans hend⟩
    obtain ⟨i, hi⟩ := hlo
    have hsameFront := regularRanges_append 0 b hchunk i (by rw [zero_add, mul_comm, ← hi]; omega)
    rw [zero_add, mul_comm, ← hi] at hsameFront
    have hrest : rest = regularRanges lo b cfg.chunkTokens ++ rest' := by
      rw [hsplit, hsameFront, append_assoc] at hsplit'
      exact append_cancel_left hsplit'
    have hmid := hregular.extend hchunk ⟨i, hi⟩ hlt.le hbN.le (some b) out
    have htaken := runRanges_snapshot cfg promptIds (tiles_regularRanges hchunk hlt.le) hlt (out, s)
    rw [hrest, runRanges_append]
    generalize hm : runRanges cfg promptIds (some b) (regularRanges lo b cfg.chunkTokens) (out, s) = mid at hmid htaken
    have hlater : ∀ range ∈ rest', some b ≠ some range.2 := fun range hrange heq => by
      have := htiles'.bounds hrange
      have := Option.some.inj heq
      omega
    have hkept := runRanges_snapshot_of_ne cfg promptIds hlater mid
    have hframe := (runRanges_frame cfg (some b) htiles' (le_refl _) mid).1
    intro b' ring hsome
    rw [hkept, htaken] at hsome
    cases hsome
    exact ⟨by omega, hdvd, hbN, hmid.congr hchunk hbN.le rfl (fun p hp => hframe p hp) rfl⟩
  · have hnone : ∀ range ∈ rest, boundary ≠ some range.2 := fun range hrange heq =>
      hnew ⟨range.2, heq, by
        have := htiles.bounds hrange
        omega⟩
    have hkept := runRanges_snapshot_of_ne cfg promptIds hnone (out, s)
    have hframe := (runRanges_frame cfg boundary htiles (le_refl _) (out, s)).1
    intro b ring hsome
    rw [hkept] at hsome
    obtain ⟨hpos, hdvd, hlt, hold⟩ := hsnapshot b ring hsome
    have hle := hbelow b ring hsome
    exact ⟨hpos, hdvd, hlt, hold.congr hchunk hlt.le rfl (fun p hp => hframe p (lt_of_lt_of_le hp hle)) rfl⟩

end Retained

section Prefills

variable {promptIds : List Tok} {out : Tok × Slot Tok Row Win} {s : Slot Tok Row Win}

/-- The slot that a prefill of `promptIds` leaves. -/
theorem commitPrefill_eq {r : Option Tok × Slot Tok Row Win}
    (h : commitPrefill promptIds r = .ok out) :
    r.1 = some out.1 ∧ out.2 = { r.2 with kvLen := promptIds.length, committed := promptIds ++ [out.1] } := by
  obtain ⟨first, s⟩ := r
  cases first with
  | none => cases h
  | some t =>
    cases h
    exact ⟨rfl, rfl⟩

theorem SnapshotOf.retained (h : SnapshotOf cfg promptIds s)
    (hchunk : 0 < cfg.chunkTokens) (t : Tok) :
    Retained cfg { s with kvLen := promptIds.length, committed := promptIds ++ [t] } := by
  intro b ring hsome
  obtain ⟨hpos, hdvd, hlt, hregular⟩ := h b ring hsome
  refine ⟨hpos, hchunk, hdvd, hlt.le, by simp only [length_append]; omega, ?_⟩
  refine hregular.congr hchunk hlt.le ?_ (fun _ _ => ⟨rfl, rfl⟩) rfl
  rw [take_append_of_le_length hlt.le]

theorem coldRanges_ok {promptLen : Nat} {ranges : List (Nat × Nat)} (h : coldRanges cfg promptLen = .ok ranges) :
    prefillChunkRanges 0 promptLen cfg.chunkTokens cfg.window = .ok ranges := by
  unfold coldRanges at h
  split at h
  · rename_i ranges' heq
    rw [heq, Except.ok.inj h]
  · cases h

theorem prefillCold_retained
    (h : prefillCold cfg promptIds s = .ok out) : Retained cfg out.2 := by
  unfold prefillCold at h
  dsimp only at h
  split at h
  · obtain ⟨-, hout⟩ := commitPrefill_eq h
    rw [hout]
    exact retained_of_none (runRanges_snapshot_of_ne cfg promptIds (fun _ _ heq => by cases heq) _)
  · split at h
    · cases h
    · rename_i ranges hranges
      have hok := coldRanges_ok hranges
      obtain ⟨-, hchunk, -, -⟩ := prefillChunkRanges_cases hok
      obtain ⟨-, hout⟩ := commitPrefill_eq h
      rw [hout]
      have hsplit : ranges = regularRanges 0 0 cfg.chunkTokens ++ ranges := by
        rw [regularRanges_of_le (le_refl 0) hchunk, nil_append]
      have hempty : ∀ b ring, ({ s with snapshot := none } : Slot Tok Row Win).snapshot ≠ some (b, ring) :=
        fun _ _ heq => by cases heq
      exact (runRanges_snapshotOf hok hsplit (tiles_prefillChunkRanges hok) (Nat.dvd_zero _)
        (regular_zero promptIds _ hchunk) (fun b ring hsome => absurd hsome (hempty b ring))
        (fun b ring hsome => absurd hsome (hempty b ring)) (.inr rfl) none).retained hchunk out.1

theorem prefillWithPrefixHit_retained {prefixHit : Nat}
    (h : prefillWithPrefixHit cfg promptIds prefixHit s = .ok out) : Retained cfg out.2 := by
  unfold prefillWithPrefixHit at h
  dsimp only at h
  generalize hs : (if cfg.window = 0 then ({ s with snapshot := none } : Slot Tok Row Win) else
    (runChunk cfg (promptIds.extract (prefixHit - min cfg.window prefixHit) prefixHit) (prefixHit - min cfg.window prefixHit) 0
      { s with snapshot := none, ring := fun _ => cfg.target.zeroWindow }).2) = s₁ at h
  have hnone : s₁.snapshot = none := by
    subst hs
    split <;> rfl
  split at h
  · obtain ⟨-, hout⟩ := commitPrefill_eq h
    rw [hout]
    exact retained_of_none ((runRanges_snapshot_of_ne cfg promptIds (fun _ _ heq => by cases heq) _).trans hnone)
  · split at h
    · cases h
    · obtain ⟨-, hout⟩ := commitPrefill_eq h
      rw [hout]
      exact retained_of_none ((runRanges_snapshot_of_ne cfg promptIds (fun _ _ heq => by cases heq) _).trans hnone)

theorem prefillWithAux_retained {prefixHit : Nat}
    (h : prefillWithAux cfg promptIds prefixHit s = .ok out) : Retained cfg out.2 := by
  unfold prefillWithAux at h
  split at h
  · exact prefillWithPrefixHit_retained h
  · exact prefillCold_retained h

theorem resetSlot_retained (s : Slot Tok Row Win) : Retained cfg (resetSlot s) := retained_of_none rfl

theorem round_retained {rows : List (Row × Win)} {contextCount : Nat} {committed : List Tok}
    (h : Retained cfg s) : Retained cfg (round cfg rows contextCount committed s) := by
  intro b ring hsome
  obtain ⟨hpos, hchunk, hdvd, hkvLen, hcommitted, hregular⟩ := h b ring hsome
  refine ⟨hpos, hchunk, hdvd, hkvLen.trans (Nat.le_add_right _ _), by simp only [round, length_append]; omega, ?_⟩
  refine hregular.congr hchunk hcommitted ?_ (fun p hp => ⟨?_, ?_⟩) rfl
  · exact (take_append_of_le_length hcommitted).symm
  · exact scatter_mapIdx_of_ne s.kv (fun i => s.kvLen + i) (fun _ (row : Row × Win) => row.1)
      fun i _ => by omega
  · simp only [round]
    rw [if_neg (by omega)]

end Prefills

section Replays

variable {b matched : Nat} {s : Slot Tok Row Win} {out : Tok × Slot Tok Row Win}

section

variable {ranges rest : List (Nat × Nat)} {stop : Nat} (hfront : Tiles 0 b ranges) (hrest : Tiles b stop rest)
include hfront hrest

theorem filter_start_le : (ranges ++ rest).filter (fun range => b ≤ range.1) = rest := by
  rw [filter_append, filter_eq_nil_iff.mpr, filter_eq_self.mpr, nil_append]
  · exact fun range hrange => decide_eq_true (hrest.bounds hrange).1
  · intro range hrange
    have := hfront.bounds hrange
    simp only [decide_eq_true_eq]
    omega

theorem filter_stop_le : (ranges ++ rest).filter (fun range => range.2 ≤ b) = ranges := by
  rw [filter_append, filter_eq_self.mpr, filter_eq_nil_iff.mpr, append_nil]
  · intro range hrange
    have := hrest.bounds hrange
    simp only [decide_eq_true_eq]
    omega
  · exact fun range hrange => decide_eq_true (hfront.bounds hrange).2.2

end

variable [DecidableEq Tok]

theorem take_of_le_matchLength {xs ys : List Tok} {n : Nat} (h : n ≤ matchLength xs ys) :
    n ≤ xs.length ∧ n ≤ ys.length ∧ xs.take n = ys.take n := by
  induction xs generalizing ys n with
  | nil => simp_all [matchLength]
  | cons x xs ih =>
    cases ys with
    | nil => simp_all [matchLength]
    | cons y ys =>
      unfold matchLength at h
      split at h
      · rename_i heq
        cases n with
        | zero => simp
        | succ n =>
          obtain ⟨hx, hy, htake⟩ := ih (Nat.le_of_succ_le_succ h)
          exact ⟨Nat.succ_le_succ hx, Nat.succ_le_succ hy, by rw [take_succ_cons, take_succ_cons, heq, htake]⟩
      · simp_all

theorem findPrefixMatch_le (promptIds : List Tok) (s : Slot Tok Row Win) :
    findPrefixMatch cfg promptIds s ≤ matchLength s.committed promptIds ∧
    findPrefixMatch cfg promptIds s ≤ s.kvLen := by
  unfold findPrefixMatch
  split
  · exact ⟨Nat.zero_le _, Nat.zero_le _⟩
  · exact ⟨(Nat.min_le_left _ _).trans (Nat.div_mul_le_self _ _), Nat.min_le_right _ _⟩

variable {promptIds : List Tok}

section

omit [DecidableEq Tok]

theorem prepareExactPrefixReplay_eq {s' : Slot Tok Row Win}
    (h : prepareExactPrefixReplay cfg promptIds matched s = .ok (some (b, s'))) :
    ∃ ring ranges, s.snapshot = some (b, ring) ∧ b ≤ matched ∧ coldRanges cfg promptIds.length = .ok ranges ∧
      (∃ range ∈ ranges, range.1 = b) ∧ s' = { s with ring := ring, kvLen := b, committed := promptIds.take b } := by
  unfold prepareExactPrefixReplay exactPrefixReplayBoundary at h
  cases hsnapshot : s.snapshot with
  | none =>
    rw [hsnapshot] at h
    cases h
  | some snapshot =>
    rw [hsnapshot] at h
    dsimp only [Option.map_some] at h
    by_cases hzero : snapshot.1 = 0
    · rw [if_pos hzero] at h
      cases h
    rw [if_neg hzero] at h
    by_cases hle : matched < snapshot.1
    · rw [if_pos hle] at h
      cases h
    rw [if_neg hle] at h
    cases hranges : coldRanges cfg promptIds.length with
    | error e =>
      rw [hranges] at h
      cases h
    | ok ranges =>
      rw [hranges] at h
      dsimp only at h
      by_cases hany : ranges.any (fun range => decide (range.1 = snapshot.1)) = true
      · rw [if_pos hany] at h
        cases h
        obtain ⟨range, hrange, heq⟩ := any_eq_true.mp hany
        exact ⟨snapshot.2, ranges, rfl, not_lt.mp hle, rfl, ⟨range, hrange, of_decide_eq_true heq⟩, rfl⟩
      · rw [if_neg hany] at h
        cases h

/-- A replay runs the cold schedule from its boundary on. -/
theorem continuePrefillWithAux_exact {ranges : List (Nat × Nat)} (s : Slot Tok Row Win)
    (hranges : coldRanges cfg promptIds.length = .ok ranges) (hdvd : cfg.chunkTokens ∣ b)
    (hstart : ∃ range ∈ ranges, range.1 = b) :
    ∃ rest, ranges = regularRanges 0 b cfg.chunkTokens ++ rest ∧ Tiles b promptIds.length rest ∧ b < promptIds.length ∧
      ∃ boundary, (boundary = none ∨ boundary = prefixSnapshotBoundary cfg ranges promptIds.length) ∧
        continuePrefillWithAux cfg promptIds b true s =
          commitPrefill promptIds (runRanges cfg promptIds boundary rest (none, { s with kvLen := b })) := by
  have hok := coldRanges_ok hranges
  have hchunk := (prefillChunkRanges_cases hok).2.1
  obtain ⟨rest, hsplit, htiles, hlt, hshort⟩ := schedule_split hok hdvd hstart
  refine ⟨rest, hsplit, htiles, hlt, ?_⟩
  unfold continuePrefillWithAux
  dsimp only
  rw [if_neg (not_le.mpr hlt)]
  by_cases hsuffix : promptIds.length - b ≤ cfg.chunkTokens
  · rw [if_pos hsuffix, ← hshort (by omega)]
    exact ⟨none, .inl rfl, rfl⟩
  · rw [if_neg hsuffix]
    have hfilter : ranges.filter (fun range => b ≤ range.1) = rest := by
      rw [hsplit]
      exact filter_start_le (tiles_regularRanges hchunk (Nat.zero_le b)) htiles
    have hcontinue : continueRanges cfg promptIds.length b true = .ok rest := by
      unfold continueRanges
      rw [if_pos rfl, hranges]
      dsimp only
      rw [hfilter]
      cases rest with
      | nil => exact absurd htiles (ne_of_lt hlt)
      | cons range rest => rw [if_pos (by rw [head?_cons, Option.map_some, htiles.1])]
    rw [hcontinue, hranges]
    exact ⟨_, .inr rfl, rfl⟩

theorem runRanges_some (cfg : Config Tok Row Win) {boundary : Option Nat} {ranges : List (Nat × Nat)} {lo hi : Nat}
    (htiles : Tiles lo hi ranges) (hlt : lo < hi) (r : Option Tok × Slot Tok Row Win) :
    ∃ t, (runRanges cfg promptIds boundary ranges r).1 = some t := by
  have key : ∀ (ranges : List (Nat × Nat)) t s, ∃ t',
      (runRanges cfg promptIds boundary ranges (some t, s)).1 = some t' := by
    intro ranges
    induction ranges with
    | nil => exact fun t s => ⟨t, rfl⟩
    | cons range ranges ih => exact fun t s => ih _ _
  cases ranges with
  | nil => exact absurd htiles (ne_of_lt hlt)
  | cons range ranges => exact key ranges _ _

end

/-- Whatever `prepare_exact_prefix_replay` finds in the slot replays the cold prefill of the prompt. -/
def ReplaysCold (cfg : Config Tok Row Win) (s : Slot Tok Row Win) : Prop :=
  ∀ promptIds matched b s', matched ≤ findPrefixMatch cfg promptIds s →
    prepareExactPrefixReplay cfg promptIds matched s = .ok (some (b, s')) →
    ∃ ranges, coldSchedule cfg promptIds.length = .ok ranges ∧
      (∀ p, p < b → ∃ range ∈ ranges, s.origin p = some range) ∧
      (∀ c : Slot Tok Row Win, Agree cfg s'
        (runRanges cfg promptIds none (ranges.filter fun range => range.2 ≤ b) (none, c)).2 b) ∧
      ∃ t s'', continuePrefillWithAux cfg promptIds b true s' = .ok (t, s'') ∧
        s''.forwards = s.forwards ++ ranges.filter (fun range => b ≤ range.1) ∧
        ∀ c, ∃ c', prefillWithAux cfg promptIds 0 c = .ok (t, c') ∧ Agree cfg s'' c' promptIds.length

section

variable (h : Retained cfg s)
include h

theorem Retained.prepared {ring : Nat → Win}
    (hmatched : matched ≤ findPrefixMatch cfg promptIds s) (hle : b ≤ matched)
    (hsnapshot : s.snapshot = some (b, ring)) :
    0 < b ∧ 0 < cfg.chunkTokens ∧ cfg.chunkTokens ∣ b ∧
      Regular cfg promptIds { s with ring := ring, kvLen := b, committed := promptIds.take b } b := by
  obtain ⟨hpos, hchunk, hdvd, -, hcommitted, hregular⟩ := h b ring hsnapshot
  obtain ⟨-, -, htake⟩ := take_of_le_matchLength (hle.trans (hmatched.trans (findPrefixMatch_le promptIds s).1))
  exact ⟨hpos, hchunk, hdvd, hregular.congr hchunk hcommitted htake (fun _ _ => ⟨rfl, rfl⟩) rfl⟩

theorem Retained.replaysCold : ReplaysCold cfg s := by
  intro promptIds matched b s' hmatched hprepare
  obtain ⟨ring, ranges, hsnapshot, hle, hranges, hstart, rfl⟩ := prepareExactPrefixReplay_eq hprepare
  obtain ⟨hpos, hchunk, hdvd, hregular⟩ := h.prepared hmatched hle hsnapshot
  generalize hs' : ({ s with ring := ring, kvLen := b, committed := promptIds.take b } : Slot Tok Row Win) =
    s' at hregular ⊢
  obtain ⟨rest, hsplit, htiles, hlt, boundary, -, hcontinue⟩ := continuePrefillWithAux_exact s' hranges hdvd hstart
  have hfront : Tiles 0 b (regularRanges 0 b cfg.chunkTokens) := tiles_regularRanges hchunk (Nat.zero_le b)
  have hlong : ¬ promptIds.length ≤ cfg.chunkTokens := by
    have := Nat.le_of_dvd hpos hdvd
    omega
  refine ⟨ranges, ?_, fun p hp => ?_, fun c => ?_, ?_⟩
  · rw [coldSchedule, if_neg hlong, hranges]
  · obtain ⟨range, hrange, heq⟩ := hregular.origin p hp
    subst hs'
    exact ⟨range, hsplit ▸ mem_append_left _ hrange, heq⟩
  · rw [hsplit, filter_stop_le hfront htiles]
    exact hregular.agree c
  · obtain ⟨t, ht⟩ : ∃ t, (runRanges cfg promptIds boundary rest (none, { s' with kvLen := b })).1 = some t :=
      runRanges_some cfg htiles hlt _
    have hforwards := (runRanges_frame cfg boundary htiles (le_refl _) (none, { s' with kvLen := b })).2.2
    generalize hr : runRanges cfg promptIds boundary rest (none, { s' with kvLen := b }) = r at ht hforwards hcontinue
    refine ⟨t, { r.2 with kvLen := promptIds.length, committed := promptIds ++ [t] }, ?_, ?_, fun c => ?_⟩
    · rw [hcontinue]
      obtain ⟨first, s''⟩ := r
      cases ht
      rfl
    · rw [hsplit, filter_start_le hfront htiles]
      subst hs'
      exact hforwards
    · -- the cold prefill is the regular chunks and then the same rest
      have hwhole := tiles_prefillChunkRanges (coldRanges_ok hranges)
      have hcold := runRanges_agree cfg (prefixSnapshotBoundary cfg ranges promptIds.length) none hwhole (le_refl _) rfl
        (none, { c with snapshot := none }) (none, { c with snapshot := none }) (agree_zero _ _)
      have hreplay := runRanges_agree cfg boundary none htiles (le_refl _) rfl (none, { s' with kvLen := b })
        (runRanges cfg promptIds none (regularRanges 0 b cfg.chunkTokens) (none, { c with snapshot := none }))
        (hregular.agree { c with snapshot := none })
      rw [← runRanges_append, ← hsplit, hr] at hreplay
      generalize hcoldRun : runRanges cfg promptIds (prefixSnapshotBoundary cfg ranges promptIds.length) ranges
        (none, { c with snapshot := none }) = cold at hcold
      have hanchor : cold.1 = some t := (hcold.1 (by omega)).trans ((hreplay.1 hlt).symm.trans ht)
      refine ⟨{ cold.2 with kvLen := promptIds.length, committed := promptIds ++ [t] }, ?_, fun p hp => ?_,
        fun p hp hp' => ?_⟩
      · rw [prefillWithAux, if_neg (lt_irrefl 0), prefillCold]
        dsimp only
        rw [if_neg hlong, hranges]
        dsimp only
        rw [hcoldRun]
        obtain ⟨first, c''⟩ := cold
        cases hanchor
        rfl
      · exact (hreplay.2.1 p hp).trans (hcold.2.1 p hp).symm
      · exact (hreplay.2.2 p hp hp').trans (hcold.2.2 p hp hp').symm

/-- A full hit decodes the prompt's last token again; behind the boundary that leaves the retained chunks alone. -/
theorem Retained.fullHit
    (hfull : promptIds.length ≤ findPrefixMatch cfg promptIds s)
    (hb : ∀ b ∈ s.snapshot.map Prod.fst, b < promptIds.length)
    (hout : continuePrefillWithAux cfg promptIds (findPrefixMatch cfg promptIds s) false s = .ok out) :
    Retained cfg out.2 := by
  obtain ⟨hcommitted, hlen, htake⟩ := take_of_le_matchLength (findPrefixMatch_le promptIds s).1
  have heq : findPrefixMatch cfg promptIds s = promptIds.length := le_antisymm hlen hfull
  rw [heq] at hout htake
  unfold continuePrefillWithAux at hout
  dsimp only at hout
  rw [if_pos (le_refl _)] at hout
  split at hout
  · cases hout
  · cases hout
    intro b ring hsome
    obtain ⟨hpos, hchunk, hdvd, -, hle, hregular⟩ := h b ring hsome
    have hlt : b < promptIds.length := hb b (Option.mem_map.mpr ⟨(b, ring), hsome, rfl⟩)
    have hsameFront : s.committed.take b = promptIds.take b := by
      have := congrArg (List.take b) htake
      rwa [take_take, take_take, min_eq_left hlt.le] at this
    refine ⟨hpos, hchunk, hdvd, hlt.le, by simp only [length_append]; omega, ?_⟩
    refine hregular.congr hchunk hle ?_ (fun p hp => ⟨?_, ?_⟩) rfl
    · rw [take_append_of_le_length hlt.le]
      exact hsameFront
    · exact update_of_ne (by omega) _ _
    · exact update_of_ne (by omega) _ _

theorem Retained.replayOrReset (hmatched : matched ≤ findPrefixMatch cfg promptIds s)
    (hout : replayOrReset cfg promptIds matched s = .ok out) : Retained cfg out.2 := by
  unfold LagunaReplay.replayOrReset at hout
  split at hout
  · cases hout
  · rename_i b s' hprepare
    obtain ⟨ring, ranges, hsnapshot, hle, hranges, hstart, rfl⟩ := prepareExactPrefixReplay_eq hprepare
    obtain ⟨hpos, hchunk, hdvd, hregular⟩ := h.prepared hmatched hle hsnapshot
    obtain ⟨rest, hsplit, htiles, hlt, boundary, hboundary, hcontinue⟩ :=
      continuePrefillWithAux_exact { s with ring := ring, kvLen := b, committed := promptIds.take b } hranges hdvd hstart
    obtain ⟨-, hcommit⟩ := commitPrefill_eq (hcontinue.symm.trans hout)
    rw [hcommit]
    refine (runRanges_snapshotOf (coldRanges_ok hranges) hsplit htiles hdvd
      (hregular.congr hchunk hlt.le rfl (fun _ _ => ⟨rfl, rfl⟩) rfl) (fun b' ring' hsome => ?_) (fun b' ring' hsome => ?_)
      hboundary none).retained hchunk out.1
    · cases hsnapshot.symm.trans hsome
      exact ⟨hpos, hdvd, hlt, hregular.congr hchunk hlt.le rfl (fun _ _ => ⟨rfl, rfl⟩) rfl⟩
    · cases hsnapshot.symm.trans hsome
      exact le_refl _
  · exact prefillWithAux_retained hout

end

/-- No full hit takes a prompt that ends at or in front of the slot's snapshot boundary. -/
def Admissible (cfg : Config Tok Row Win) (s : Slot Tok Row Win) : Op Tok Row Win → Prop
  | .generate promptIds =>
    promptIds.length ≤ findPrefixMatch cfg promptIds s →
      ringPrefixReuseIsSafe cfg s.kvLen (findPrefixMatch cfg promptIds s) = true →
        ∀ b ∈ s.snapshot.map Prod.fst, b < promptIds.length
  | _ => True

instance (s : Slot Tok Row Win) : (op : Op Tok Row Win) → Decidable (Admissible cfg s op)
  | .generate _ => inferInstanceAs (Decidable (_ → _ → _))
  | .round .. => isTrue trivial
  | .prefill .. => isTrue trivial
  | .reset => isTrue trivial

theorem Retained.generatePrefill (h : Retained cfg s) (hadmissible : Admissible cfg s (.generate promptIds))
    (hout : generatePrefill cfg promptIds s = .ok out) : Retained cfg out.2 := by
  unfold LagunaReplay.generatePrefill at hout
  dsimp only at hout
  split at hout
  · exact h.replayOrReset (le_refl _) hout
  · split at hout
    · rename_i hfull
      split at hout
      · rename_i hsafe
        exact h.fullHit hfull (hadmissible hfull hsafe) hout
      · exact h.replayOrReset hfull hout
    · exact prefillWithAux_retained hout

omit [DecidableEq Tok] in
theorem ok_of_toOption {x : Except ReplayError (Tok × Slot Tok Row Win)}
    (h : x.toOption = some out) : x = .ok out := by
  cases x with
  | error e => cases h
  | ok y => exact congrArg Except.ok (Option.some.inj h)

/-- What one operation preserves. -/
theorem Retained.next {s' : Slot Tok Row Win} {op : Op Tok Row Win} (h : Retained cfg s)
    (hadmissible : Admissible cfg s op)
    (hnext : next cfg s op = some s') : Retained cfg s' := by
  cases op with
  | generate promptIds =>
    obtain ⟨out, hout, rfl⟩ := Option.map_eq_some_iff.mp hnext
    exact h.generatePrefill hadmissible (ok_of_toOption hout)
  | round rows contextCount committed =>
    obtain ⟨-, heq⟩ := Option.ite_none_right_eq_some.mp hnext
    cases heq
    exact round_retained h
  | prefill promptIds prefixHit =>
    obtain ⟨out, hout, rfl⟩ := Option.map_eq_some_iff.mp hnext
    exact prefillWithAux_retained (ok_of_toOption hout)
  | reset =>
    cases hnext
    exact resetSlot_retained s

/-- What a slot has after any operations whose full hits end behind its snapshot boundaries. -/
theorem replaysCold_of_run (cfg : Config Tok Row Win) {kv : Nat → Row} {ring : Nat → Win} {ops : List (Op Tok Row Win)}
    {s : Slot Tok Row Win} (halong : Along (next cfg) (Admissible cfg) (fresh kv ring) ops)
    (hrun : run (next cfg) (fresh kv ring) ops = some s) : ReplaysCold cfg s :=
  (invariant_of_steps (fun _ _ _ h hadmissible hnext => Retained.next h hadmissible hnext)
    (retained_of_none rfl) halong hrun : Retained cfg s).replaysCold

end Replays

section Shaped

/-- A target whose decode leaves other bits than its prefill. -/
def shaped : Target Nat Nat Nat where
  row _ _ _ _ _ := 0
  window _ _ _ _ _ := 0
  anchor _ _ _ _ := 7
  decodeRow _ _ _ _ := 1
  decodeWindow _ _ _ _ := 1
  decodeToken _ _ _ _ := 7
  zeroWindow := 0

def shapedConfig : Config Nat Nat Nat := ⟨shaped, 128, 64, 1, 128, 640, 512, by decide⟩

/-- The slot that a prompt of 192 tokens, and a turn that goes on from it, leave to the next turn. -/
theorem replaysCold_of_turns : ∃ s, run (next shapedConfig) (fresh (fun _ => 0) (fun _ => 0))
      [.generate (replicate 192 5), .round [(1, 1), (1, 1)] 2 [6, 6]] = some s ∧
    ReplaysCold shapedConfig s := by
  have hrun : (run (next shapedConfig) (fresh (fun _ => 0) (fun _ => 0))
      [.generate (replicate 192 5), .round [(1, 1), (1, 1)] 2 [6, 6]]).isSome = true := by decide +kernel
  obtain ⟨s, hs⟩ := Option.isSome_iff_exists.mp hrun
  exact ⟨s, hs, replaysCold_of_run shapedConfig (by decide +kernel) hs⟩

/-- A prompt of 192 tokens, then its first 128 again: the full hit decodes position 127 in front of the kept
snapshot. -/
theorem not_replaysCold_of_rewind : ∃ s, run (next shapedConfig) (fresh (fun _ => 0) (fun _ => 0))
      [.generate (replicate 192 5), .generate (replicate 128 5)] = some s ∧ ¬ ReplaysCold shapedConfig s := by
  have hrun : ((run (next shapedConfig) (fresh (fun _ => 0) (fun _ => 0))
      [.generate (replicate 192 5), .generate (replicate 128 5)]).any fun s =>
        decide (128 ≤ findPrefixMatch shapedConfig (replicate 128 5 ++ replicate 64 6) s) &&
          ((prepareExactPrefixReplay shapedConfig (replicate 128 5 ++ replicate 64 6) 128 s).toOption.join.any
            fun r => r.1 == 128) &&
          (s.origin 127).isNone) = true := by decide +kernel
  obtain ⟨s, hs, hfacts⟩ := (Option.any_eq_true _ _).mp hrun
  rw [Bool.and_eq_true, Bool.and_eq_true, decide_eq_true_eq] at hfacts
  obtain ⟨⟨hmatched, hprepare⟩, horigin⟩ := hfacts
  refine ⟨s, hs, fun h => ?_⟩
  cases hrun : prepareExactPrefixReplay shapedConfig (replicate 128 5 ++ replicate 64 6) 128 s with
  | error e =>
    rw [hrun] at hprepare
    exact absurd hprepare Bool.false_ne_true
  | ok result =>
    rw [hrun] at hprepare
    obtain _ | ⟨b, s'⟩ := result
    · exact absurd hprepare Bool.false_ne_true
    · have hb : (b == 128) = true := hprepare
      obtain ⟨ranges, -, hall, -⟩ := h _ 128 b s' hmatched hrun
      obtain ⟨range, -, hsome⟩ := hall 127 (by rw [beq_iff_eq.mp hb]; decide)
      rw [hsome] at horigin
      cases horigin

end Shaped

end LagunaReplay
