import Mathlib.Data.List.Basic
import Mathlib.Data.List.Induction

/-!
# Laguna prefill chunks

`_prefill_chunk_ranges` of `runtime/backends/laguna.py`. A range is cut into
chunks of a fixed size; the last boundary moves back when the final chunk would
be shorter than the sliding window.
-/

namespace LagunaChunks

open List

variable {a b start stop chunk minFinal : Nat} {xs ranges : List (Nat × Nat)}

/-- A list of half-open ranges that tile `[a, b)`, none of them empty. -/
def Tiles (a b : Nat) : List (Nat × Nat) → Prop
  | [] => a = b
  | r :: rest => r.1 = a ∧ r.1 < r.2 ∧ Tiles r.2 b rest

@[simp] theorem tiles_nil : Tiles a b [] ↔ a = b := Iff.rfl
@[simp] theorem tiles_cons (r : Nat × Nat) (rest : List (Nat × Nat)) :
    Tiles a b (r :: rest) ↔ r.1 = a ∧ r.1 < r.2 ∧ Tiles r.2 b rest := Iff.rfl

theorem tiles_append (xs ys : List (Nat × Nat)) :
    Tiles a b (xs ++ ys) ↔ ∃ c, Tiles a c xs ∧ Tiles c b ys := by
  induction xs generalizing a with
  | nil => simp
  | cons r xs ih => simp [ih, and_assoc]

theorem Tiles.le (h : Tiles a b xs) : a ≤ b := by
  induction xs generalizing a with
  | nil => exact Nat.le_of_eq h
  | cons r xs ih =>
    obtain ⟨rfl, hlt, hrest⟩ := h
    exact Nat.le_trans (Nat.le_of_lt hlt) (ih hrest)

theorem Tiles.bounds (h : Tiles a b xs) {r : Nat × Nat} (hr : r ∈ xs) :
    a ≤ r.1 ∧ r.1 < r.2 ∧ r.2 ≤ b := by
  induction xs generalizing a with
  | nil => cases hr
  | cons q xs ih =>
    obtain ⟨rfl, hlt, hrest⟩ := h
    cases hr with
    | head => exact ⟨Nat.le_refl _, hlt, hrest.le⟩
    | tail _ hr =>
      have hin := ih hrest hr
      exact ⟨Nat.le_trans (Nat.le_of_lt hlt) hin.1, hin.2⟩

/-- A range that does not end the tiling has a successor. -/
theorem Tiles.next (h : Tiles a b xs) {r : Nat × Nat} (hr : r ∈ xs) (hlt : r.2 < b) :
    ∃ q ∈ xs, q.1 = r.2 := by
  induction xs generalizing a with
  | nil => cases hr
  | cons q xs ih =>
    obtain ⟨-, -, hrest⟩ := h
    cases hr with
    | head =>
      cases xs with
      | nil => exact absurd hrest (Nat.ne_of_lt hlt)
      | cons next xs => exact ⟨next, by simp, hrest.1⟩
    | tail _ hr =>
      obtain ⟨q', hq', heq⟩ := ih hrest hr
      exact ⟨q', mem_cons_of_mem _ hq', heq⟩

/-- The `ValueError`s of `_prefill_chunk_ranges`. -/
inductive RangeError where
  | invalidRange (start stop : Nat)
  | chunkTokens
  | minFinalTokens (minFinalTokens chunkTokens : Nat)
  | finalTail (start stop chunkTokens minFinalTokens : Nat)
  deriving DecidableEq, Repr

/-- The chunks of `range(start, end, chunk_tokens)`. -/
def regularRanges (start stop chunkTokens : Nat) : List (Nat × Nat) :=
  (range ((stop - start + chunkTokens - 1) / chunkTokens)).map
    fun i => (start + i * chunkTokens, min (start + i * chunkTokens + chunkTokens) stop)

def prefillChunkRanges (start stop chunkTokens minFinalTokens : Nat) : Except RangeError (List (Nat × Nat)) :=
  if stop < start then .error (.invalidRange start stop)
  else if chunkTokens = 0 then .error .chunkTokens
  else if chunkTokens < minFinalTokens then .error (.minFinalTokens minFinalTokens chunkTokens)
  else if start = stop then .ok []
  else
    let ranges := regularRanges start stop chunkTokens
    match ranges.reverse with
    | (finalStart, finalEnd) :: (previousStart, previousEnd) :: before =>
      if minFinalTokens = 0 then .ok ranges
      else if minFinalTokens ≤ finalEnd - finalStart then .ok ranges
      else
        let newBoundary := previousEnd - (minFinalTokens - (finalEnd - finalStart))
        if newBoundary ≤ previousStart then .error (.finalTail start stop chunkTokens minFinalTokens)
        else .ok (before.reverse ++ [(previousStart, newBoundary), (newBoundary, finalEnd)])
    | _ => .ok ranges

theorem regularRanges_of_le (h : stop ≤ start) (hchunk : 0 < chunk) :
    regularRanges start stop chunk = [] := by
  have hcount : (stop - start + chunk - 1) / chunk = 0 := Nat.div_eq_of_lt (by omega)
  simp [regularRanges, hcount]

theorem regularRanges_of_lt (h : start < stop) (hchunk : 0 < chunk) :
    regularRanges start stop chunk =
      (start, min (start + chunk) stop) :: regularRanges (start + chunk) stop chunk := by
  have hcount : (stop - start + chunk - 1) / chunk = (stop - (start + chunk) + chunk - 1) / chunk + 1 := by
    rw [← Nat.add_div_right _ hchunk]
    by_cases hle : stop ≤ start + chunk
    · have hleft : (stop - start + chunk - 1) / chunk = 1 :=
        Nat.div_eq_of_lt_le (by omega) (by omega)
      have hright : (stop - (start + chunk) + chunk - 1 + chunk) / chunk = 1 :=
        Nat.div_eq_of_lt_le (by omega) (by omega)
      rw [hleft, hright]
    · congr 1
      omega
  unfold regularRanges
  rw [hcount, range_succ_eq_map, map_cons, map_map]
  simp only [Nat.zero_mul, Nat.add_zero]
  congr 1
  refine map_congr_left fun i _ => ?_
  simp only [Function.comp, Nat.succ_mul]
  rw [Nat.add_comm (i * chunk) chunk, ← Nat.add_assoc]

theorem mem_regularRanges (hchunk : 0 < chunk) {r : Nat × Nat} :
    r ∈ regularRanges start stop chunk ↔
      ∃ i, start + i * chunk < stop ∧ r = (start + i * chunk, min (start + i * chunk + chunk) stop) := by
  simp only [regularRanges, mem_map, mem_range]
  constructor
  · rintro ⟨i, hi, rfl⟩
    have hmul := (Nat.le_div_iff_mul_le hchunk).mp (Nat.succ_le_of_lt hi)
    rw [Nat.succ_mul] at hmul
    exact ⟨i, by omega, rfl⟩
  · rintro ⟨i, hi, rfl⟩
    refine ⟨i, Nat.lt_of_succ_le ((Nat.le_div_iff_mul_le hchunk).mpr ?_), rfl⟩
    rw [Nat.succ_mul]
    omega

theorem tiles_regularRanges (hchunk : 0 < chunk) (h : start ≤ stop) :
    Tiles start stop (regularRanges start stop chunk) := by
  generalize hmeasure : stop - start = n
  induction n using Nat.strongRecOn generalizing start with
  | ind n ih =>
    by_cases hlt : start < stop
    · rw [regularRanges_of_lt hlt hchunk]
      by_cases hle : start + chunk ≤ stop
      · rw [Nat.min_eq_left hle]
        exact ⟨rfl, Nat.lt_add_of_pos_right hchunk, ih (stop - (start + chunk)) (by omega) hle rfl⟩
      · rw [Nat.min_eq_right (by omega), regularRanges_of_le (by omega) hchunk]
        exact ⟨rfl, hlt, rfl⟩
    · rw [regularRanges_of_le (Nat.not_lt.mp hlt) hchunk]
      exact Nat.le_antisymm h (Nat.not_lt.mp hlt)

/-- The regular chunks split at a chunk boundary. -/
theorem regularRanges_append (start stop : Nat) (hchunk : 0 < chunk) (i : Nat) (h : start + i * chunk ≤ stop) :
    regularRanges start stop chunk =
      regularRanges start (start + i * chunk) chunk ++ regularRanges (start + i * chunk) stop chunk := by
  induction i generalizing start with
  | zero => simp [regularRanges_of_le (Nat.le_refl start) hchunk]
  | succ i ih =>
    have hstep : start + (i + 1) * chunk = start + chunk + i * chunk := by rw [Nat.succ_mul]; omega
    have hle : start + chunk ≤ start + chunk + i * chunk := Nat.le_add_right _ _
    rw [hstep] at h ⊢
    rw [regularRanges_of_lt (show start < stop by omega) hchunk, ih (start + chunk) h,
      regularRanges_of_lt (show start < start + chunk + i * chunk by omega) hchunk, Nat.min_eq_left (by omega),
      Nat.min_eq_left hle, cons_append]

/-- Every chunk is at most `chunk_tokens` long. -/
def Within (chunkTokens : Nat) (ranges : List (Nat × Nat)) : Prop := ∀ r ∈ ranges, r.2 ≤ r.1 + chunkTokens

theorem within_regularRanges (hchunk : 0 < chunk) :
    Within chunk (regularRanges start stop chunk) := by
  intro r hr
  obtain ⟨i, _, rfl⟩ := (mem_regularRanges hchunk).mp hr
  exact Nat.min_le_left _ _

/-- A chunk with another behind it is a whole one. -/
theorem regularRanges_lastTwo (hchunk : 0 < chunk) (hle : start ≤ stop)
    {before : List (Nat × Nat)} {previousStart previousEnd finalStart finalEnd : Nat}
    (h : regularRanges start stop chunk = before ++ [(previousStart, previousEnd), (finalStart, finalEnd)]) :
    Tiles start previousStart before ∧ previousEnd = finalStart ∧ finalStart = previousStart + chunk ∧
      finalStart < finalEnd ∧ finalEnd = stop ∧ finalEnd ≤ finalStart + chunk := by
  have htiles : Tiles start stop (regularRanges start stop chunk) := tiles_regularRanges hchunk hle
  rw [h, tiles_append] at htiles
  obtain ⟨_, hbefore, hps, -, hfs, hlast, hfe⟩ := htiles
  have hfe : finalEnd = stop := hfe
  dsimp only at hps hfs hlast
  have hwithin : Within chunk (regularRanges start stop chunk) := within_regularRanges hchunk
  have hfinal := hwithin (finalStart, finalEnd) (by simp [h])
  have hmem : (previousStart, previousEnd) ∈ regularRanges start stop chunk := by simp [h]
  obtain ⟨i, -, hprevious⟩ := (mem_regularRanges hchunk).mp hmem
  simp only [Prod.mk.injEq] at hprevious
  dsimp only at hfinal
  have hwhole : finalStart = previousStart + chunk := by
    cases Nat.le_total (start + i * chunk + chunk) stop with
    | inl hmin =>
      rw [Nat.min_eq_left hmin] at hprevious
      omega
    | inr hmin =>
      rw [Nat.min_eq_right hmin] at hprevious
      omega
  exact ⟨hps ▸ hbefore, hfs.symm, hwhole, hlast, hfe, hfinal⟩

section

variable (h : prefillChunkRanges start stop chunk minFinal = .ok ranges)
include h

/-- What `_prefill_chunk_ranges` returns: the regular chunks, or these with the last boundary moved back. -/
theorem prefillChunkRanges_cases :
    start ≤ stop ∧ 0 < chunk ∧ minFinal ≤ chunk ∧ (ranges = regularRanges start stop chunk ∨
      ∃ before previousStart previousEnd finalStart finalEnd newBoundary,
        regularRanges start stop chunk = before ++ [(previousStart, previousEnd), (finalStart, finalEnd)] ∧
        newBoundary = previousEnd - (minFinal - (finalEnd - finalStart)) ∧ previousStart < newBoundary ∧
        finalEnd - finalStart < minFinal ∧
        ranges = before ++ [(previousStart, newBoundary), (newBoundary, finalEnd)]) := by
  unfold prefillChunkRanges at h
  split at h
  · cases h
  split at h
  · cases h
  split at h
  · cases h
  rename_i hle hchunk hmin
  refine ⟨Nat.not_lt.mp hle, Nat.pos_of_ne_zero hchunk, Nat.not_lt.mp hmin, ?_⟩
  split at h
  · rename_i heq
    cases h
    exact .inl (regularRanges_of_le (Nat.le_of_eq heq.symm) (Nat.pos_of_ne_zero hchunk)).symm
  dsimp only at h
  split at h
  · rename_i finalStart finalEnd previousStart previousEnd before hreverse
    split at h
    · exact .inl (Except.ok.inj h).symm
    split at h
    · exact .inl (Except.ok.inj h).symm
    split at h
    · cases h
    · rename_i hfinal hboundary
      have hlist : regularRanges start stop chunk =
          before.reverse ++ [(previousStart, previousEnd), (finalStart, finalEnd)] := by
        rw [← reverse_reverse (regularRanges start stop chunk), hreverse]
        simp
      exact .inr ⟨before.reverse, previousStart, previousEnd, finalStart, finalEnd, _, hlist, rfl,
        Nat.not_le.mp hboundary, Nat.not_le.mp hfinal, (Except.ok.inj h).symm⟩
  · exact .inl (Except.ok.inj h).symm

theorem tiles_prefillChunkRanges : Tiles start stop ranges := by
  obtain ⟨hle, hchunk, -, rfl | ⟨before, ps, pe, fs, fe, nb, hregular, hnb, hlt, -, rfl⟩⟩ := prefillChunkRanges_cases h
  · exact tiles_regularRanges hchunk hle
  · obtain ⟨hbefore, rfl, hfs, hlast, rfl, -⟩ := regularRanges_lastTwo hchunk hle hregular
    exact (tiles_append _ _).mpr ⟨_, hbefore, rfl, hlt, rfl, by dsimp only; omega, rfl⟩

end

/-- The checks of `_prefill_chunk_ranges` are all that it can fail on. -/
theorem prefillChunkRanges_ok (h : start ≤ stop) (hchunk : 0 < chunk)
    (hmin : minFinal ≤ chunk) : ∃ ranges, prefillChunkRanges start stop chunk minFinal = .ok ranges := by
  unfold prefillChunkRanges
  rw [if_neg (Nat.not_lt.mpr h), if_neg (Nat.ne_of_gt hchunk), if_neg (Nat.not_lt.mpr hmin)]
  split
  · exact ⟨_, rfl⟩
  dsimp only
  split
  · rename_i fs fe ps pe before hreverse
    split
    · exact ⟨_, rfl⟩
    split
    · exact ⟨_, rfl⟩
    · have hlist : regularRanges start stop chunk = before.reverse ++ [(ps, pe), (fs, fe)] := by
        rw [← reverse_reverse (regularRanges start stop chunk), hreverse]
        simp
      obtain ⟨-, rfl, hfs, hlast, -, -⟩ := regularRanges_lastTwo hchunk h hlist
      -- the deficit is shorter than a chunk, so the boundary stays behind the previous start
      rw [if_neg (by omega)]
      exact ⟨_, rfl⟩
  · exact ⟨_, rfl⟩

/-- Below a chunk-aligned start the schedule is the regular one, whatever the prompt's length. -/
theorem schedule_split
    (h : prefillChunkRanges 0 stop chunk minFinal = .ok ranges) (hb : chunk ∣ b) (hstart : ∃ r ∈ ranges, r.1 = b) :
    ∃ rest, ranges = regularRanges 0 b chunk ++ rest ∧ Tiles b stop rest ∧ b < stop ∧
      (stop ≤ b + chunk → rest = [(b, stop)]) := by
  have htiles := tiles_prefillChunkRanges h
  obtain ⟨r, hr, hrb⟩ := hstart
  have hbounds := htiles.bounds hr
  obtain ⟨i, rfl⟩ := hb
  rw [Nat.mul_comm] at hrb ⊢
  obtain ⟨-, hchunk, -, rfl | ⟨before, ps, pe, fs, fe, nb, hregular, hnb, hlt, hfinal, rfl⟩⟩ := prefillChunkRanges_cases h
  · have hsplit := regularRanges_append 0 stop hchunk i (by omega)
    rw [Nat.zero_add] at hsplit
    refine ⟨_, hsplit, tiles_regularRanges hchunk (by omega), by omega, fun hshort => ?_⟩
    rw [regularRanges_of_lt (by omega) hchunk, Nat.min_eq_right hshort, regularRanges_of_le (by omega) hchunk]
  · obtain ⟨htilesBefore, rfl, hfs, hlast, rfl, hfe⟩ := regularRanges_lastTwo hchunk (Nat.zero_le _) hregular
    have hmem : (ps, pe) ∈ regularRanges 0 fe chunk := by simp [hregular]
    obtain ⟨j, hj, hpair⟩ := (mem_regularRanges hchunk).mp hmem
    have hps : ps = j * chunk := by
      have := congrArg Prod.fst hpair
      dsimp only at this
      omega
    -- what lies in front of the last two chunks is regular
    have hbefore : before = regularRanges 0 ps chunk := by
      have hsplit := regularRanges_append 0 fe hchunk j (by omega)
      rw [Nat.zero_add, ← hps, regularRanges_of_lt (show ps < fe by omega) hchunk,
        regularRanges_of_lt (show ps + chunk < fe by omega) hchunk,
        regularRanges_of_le (show fe ≤ ps + chunk + chunk by omega) hchunk, Nat.min_eq_left (by omega), ← hfs,
        Nat.min_eq_right (by omega), hregular] at hsplit
      exact append_cancel_right hsplit
    by_cases hle : i * chunk ≤ ps
    · have hsplit := regularRanges_append 0 ps hchunk i (by omega)
      rw [Nat.zero_add] at hsplit
      refine ⟨regularRanges (i * chunk) ps chunk ++ [(ps, nb), (nb, fe)], ?_, ?_, by omega, fun hshort => by omega⟩
      · rw [hbefore, hsplit, append_assoc]
      · exact (tiles_append _ _).mpr ⟨ps, tiles_regularRanges hchunk hle, rfl, hlt, rfl, by dsimp only; omega, rfl⟩
    · -- the moved boundary is not aligned
      exfalso
      simp only [mem_append, mem_cons, not_mem_nil, or_false] at hr
      obtain hr | rfl | rfl := hr
      · have := htilesBefore.bounds hr
        omega
      · exact hle (Nat.le_of_eq hrb.symm)
      · dsimp only at hrb
        have hlow : j * chunk < i * chunk := by omega
        have hhigh : i * chunk < (j + 1) * chunk := by rw [Nat.succ_mul]; omega
        have := Nat.lt_of_mul_lt_mul_right hlow
        have := Nat.lt_of_mul_lt_mul_right hhigh
        omega

end LagunaChunks
