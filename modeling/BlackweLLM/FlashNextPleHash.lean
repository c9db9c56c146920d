import BlackweLLM.FlashNextVerify
import Mathlib.Data.List.Flatten

/-!
# The n-gram hash of the PLE layer

The ids of a token hash the tokens behind it, up to the last EOS. A prefill takes
them from the token list, a decode step from the rolling window and a verify block
from the window and its candidates.
-/

namespace FlashNext

open List

/-- `FlashNextPleHasher`, with the constants of the checkpoint. -/
structure PleHasher where
  multipliers : List Int64
  headSizes : List ℤ
  headOffsets : List ℤ
  ngramHeads : ℕ
  eos : ℕ
  ngramSize : ℕ
  two_le : 2 ≤ ngramSize

def cummax : List ℤ → List ℤ
  | [] => []
  | x :: xs => xs.scanl max x

namespace PleHasher

variable (H : PleHasher)

def headsPerNgram : ℕ := H.ngramHeads / (H.ngramSize - 1)

/-- `_shift`: the tokens `n` steps back, EOS before the segment starts. -/
def shiftTokens (n : ℕ) (tokens : List ℕ) : List ℕ :=
  if n = 0 then tokens
  else
    let eosPos : List ℤ := tokens.mapIdx fun i token => if token = H.eos then (i : ℤ) else -1
    let prev := -1 :: (cummax eosPos).dropLast
    tokens.mapIdx fun i _ =>
      let posInSeg : ℤ := i - (prev.getD i (-1) + 1)
      if (n : ℤ) ≤ posInSeg ∧ n ≤ i then tokens.getD (i - n) H.eos else H.eos

/-- The ids of one token, from the token and those behind it. -/
def rowIds (shifts : List ℕ) : List ℤ :=
  (range' 2 (H.ngramSize - 1)).flatMap fun n =>
    let scaled (pos : ℕ) : Int64 := Int64.ofNat (shifts.getD pos 0) * H.multipliers.getD pos 0
    let mix := (range' 1 (n - 1)).foldl (fun mix pos => mix ^^^ scaled pos) (scaled 0)
    let start := (n - 2) * H.headsPerNgram
    ((H.headSizes.drop start).take H.headsPerNgram).zipWith (fun size offset => mix.toInt.fmod size + offset)
      ((H.headOffsets.drop start).take H.headsPerNgram)

def sequenceIds (tokens : List ℕ) : List (List ℤ) :=
  let shifts := (range H.ngramSize).map fun n => H.shiftTokens n tokens
  tokens.mapIdx fun i _ => H.rowIds (shifts.map fun shifted => shifted.getD i 0)

def decodeIds (window : List ℕ) : List (List ℤ) := (H.sequenceIds window).rtake 1

end PleHasher

section Shift

variable {eos size : ℕ}

theorem le_foldl_max (m x : ℤ) (xs : List ℤ) : m ≤ xs.foldl max x ↔ m ≤ x ∨ ∃ y ∈ xs, m ≤ y := by
  induction xs generalizing x with
  | nil => simp
  | cons y ys ih =>
    rw [foldl_cons, ih, le_max_iff, or_assoc]
    simp

theorem cummax_length (xs : List ℤ) : (cummax xs).length = xs.length := by
  cases xs with
  | nil => rfl
  | cons x xs => simp [cummax]

theorem le_cummax {xs : List ℤ} {i : ℕ} (h : i < (cummax xs).length) (m : ℤ) :
    m ≤ (cummax xs)[i] ↔ ∃ y ∈ xs.take (i + 1), m ≤ y := by
  cases xs with
  | nil => cases h
  | cons x xs =>
    simp only [cummax, getElem_scanl, le_foldl_max, take_succ_cons, mem_cons, exists_eq_or_imp]

/-- The token `n` steps before position `i`, or EOS before its segment. -/
theorem shift_take {tokens : List ℕ} {i : ℕ} (hi : i < tokens.length) (n : ℕ) :
    shift eos (tokens.take (i + 1)) n =
      if n ≤ i ∧ eos ∉ (tokens.take i).drop (i - n) then tokens.getD (i - n) eos else eos := by
  have hlen : (tokens.take (i + 1)).reverse.length = i + 1 := by
    rw [length_reverse, length_take]
    omega
  have htail : (tokens.take (i + 1)).reverse.tail.take n = ((tokens.take i).drop (i - n)).reverse := by
    have hcut : (tokens.take (i + 1)).dropLast = tokens.take i := by
      rw [dropLast_eq_take, length_take, take_take]
      congr 1
      omega
    rw [tail_reverse, hcut, take_reverse, length_take, min_eq_left (by omega)]
  have hget : n ≤ i → (tokens.take (i + 1)).reverse.getD n eos = tokens.getD (i - n) eos := by
    intro hn
    have hcut : (tokens.take (i + 1)).length = i + 1 := by rwa [length_reverse] at hlen
    rw [getD_eq_getElem?_getD, getElem?_reverse (by omega), hcut, getElem?_take_of_lt (by omega),
      getD_eq_getElem?_getD]
    rfl
  simp only [shift, hlen, htail, mem_reverse, Nat.lt_succ_iff]
  by_cases hn : n ≤ i ∧ eos ∉ (tokens.take i).drop (i - n)
  · rw [if_pos hn, if_pos hn, hget hn.1]
  · rw [if_neg hn, if_neg hn]

end Shift

namespace PleHasher

open SlidingWindow (rtake_append_rtake)

variable {H : PleHasher}

def eosPos (H : PleHasher) (tokens : List ℕ) : List ℤ :=
  tokens.mapIdx fun i token => if token = H.eos then (i : ℤ) else -1

theorem le_eosPos {tokens : List ℕ} {i m : ℕ} (hi : i ≤ tokens.length) :
    (∃ y ∈ (H.eosPos tokens).take i, (m : ℤ) ≤ y) ↔ H.eos ∈ (tokens.take i).drop m := by
  constructor
  · rintro ⟨y, hy, hmy⟩
    obtain ⟨j, hj, rfl⟩ := mem_iff_getElem.mp hy
    simp only [eosPos, length_take, length_mapIdx] at hj
    simp only [eosPos, getElem_take, getElem_mapIdx] at hmy
    split at hmy
    case isTrue heos =>
      refine mem_iff_getElem.mpr ⟨j - m, by simp only [length_drop, length_take]; omega, ?_⟩
      have hindex : m + (j - m) = j := by omega
      simp only [getElem_drop, getElem_take, hindex, heos]
    case isFalse => omega
  · intro hmem
    obtain ⟨j, hj, heos⟩ := mem_iff_getElem.mp hmem
    simp only [length_drop, length_take] at hj
    rw [getElem_drop, getElem_take] at heos
    have hin : m + j < ((H.eosPos tokens).take i).length := by
      simp only [eosPos, length_take, length_mapIdx]
      omega
    refine ⟨((H.eosPos tokens).take i)[m + j], getElem_mem hin, ?_⟩
    simp only [eosPos, getElem_take, getElem_mapIdx, if_pos heos]
    omega

/-- The tensor form looks behind each token as the scalar form does. -/
theorem shiftTokens_getD {tokens : List ℕ} {i : ℕ} (hi : i < tokens.length) (n : ℕ) :
    (H.shiftTokens n tokens).getD i 0 = shift H.eos (tokens.take (i + 1)) n := by
  rw [shift_take hi, shiftTokens]
  split
  case isTrue hn =>
    subst hn
    simp [getElem?_eq_getElem hi]
  case isFalse hn =>
    rw [getD_eq_getElem?_getD, getElem?_mapIdx, getElem?_eq_getElem hi, Option.map_some, Option.getD_some]
    apply if_congr ?_ rfl rfl
    change (n : ℤ) ≤ i - ((-1 :: (cummax (H.eosPos tokens)).dropLast).getD i (-1) + 1) ∧ n ≤ i ↔ _
    rw [and_comm]
    refine and_congr_right fun hle => ?_
    obtain ⟨j, rfl⟩ : ∃ j, i = j + 1 := ⟨i - 1, by omega⟩
    have hj : j < (cummax (H.eosPos tokens)).dropLast.length := by
      rw [length_dropLast, cummax_length, eosPos, length_mapIdx]
      omega
    rw [getD_cons_succ, getD_eq_getElem?_getD, getElem?_eq_getElem hj, Option.getD_some,
      getElem_dropLast, ← le_eosPos (by omega),
      ← le_cummax (by rw [cummax_length, eosPos, length_mapIdx]; omega)]
    omega

theorem sequenceIds_eq (tokens : List ℕ) :
    H.sequenceIds tokens = (FlashNext.sequenceIds H.eos H.ngramSize tokens).map H.rowIds := by
  apply ext_getElem
  · simp [sequenceIds, FlashNext.sequenceIds]
  · intro i hi _
    have hin : i < tokens.length := by simpa [sequenceIds] using hi
    simp only [sequenceIds, FlashNext.sequenceIds, getElem_mapIdx, getElem_map, getElem_range, ngram,
      map_map]
    exact congrArg H.rowIds (map_congr_left fun n _ => shiftTokens_getD hin n)

@[simp] theorem sequenceIds_length (tokens : List ℕ) : (H.sequenceIds tokens).length = tokens.length := by
  simp [sequenceIds]

theorem sequenceIds_getElem {tokens : List ℕ} {i : ℕ} (hi : i < (H.sequenceIds tokens).length) :
    (H.sequenceIds tokens)[i] = H.rowIds (ngram H.eos H.ngramSize (tokens.take (i + 1))) := by
  simp only [sequenceIds_eq, FlashNext.sequenceIds, getElem_map, getElem_range]

theorem sequenceIds_last {tokens : List ℕ} (hne : tokens ≠ []) :
    (H.sequenceIds tokens).rtake 1 = [H.rowIds (ngram H.eos H.ngramSize tokens)] := by
  have hpos := length_pos_iff.mpr hne
  have hlen : ((H.sequenceIds tokens).rtake 1).length = 1 := by
    rw [rtake, length_drop, sequenceIds_length]
    omega
  obtain ⟨row, hrow⟩ := length_eq_one_iff.mp hlen
  have hget : ((H.sequenceIds tokens).rtake 1)[0] = H.rowIds (ngram H.eos H.ngramSize tokens) := by
    simp only [rtake, getElem_drop, sequenceIds_getElem, sequenceIds_length]
    rw [take_of_length_le (by omega)]
  rw [hrow, ← hget]
  simp only [hrow, getElem_singleton]

/-- The ids of a token do not depend on those after it. -/
theorem sequenceIds_take (tokens : List ℕ) (m : ℕ) : (H.sequenceIds tokens).take m = H.sequenceIds (tokens.take m) := by
  apply ext_getElem
  · simp
  · intro i hi _
    simp only [length_take, sequenceIds_length] at hi
    rw [getElem_take, sequenceIds_getElem, sequenceIds_getElem, take_take, min_eq_left (by omega)]

def idsAfter (H : PleHasher) (front tokens : List ℕ) : List (List ℤ) :=
  (H.sequenceIds (front ++ tokens)).drop front.length

@[simp] theorem idsAfter_length (front tokens : List ℕ) : (H.idsAfter front tokens).length = tokens.length := by
  simp [idsAfter]

theorem idsAfter_append (front a b : List ℕ) :
    H.idsAfter front (a ++ b) = H.idsAfter front a ++ H.idsAfter (front ++ a) b := by
  have hcut : (front ++ (a ++ b)).take (front ++ a).length = front ++ a := by
    rw [← append_assoc, take_left]
  have hfront : (H.idsAfter front (a ++ b)).take a.length = H.idsAfter front a := by
    rw [idsAfter, idsAfter, ← hcut, ← sequenceIds_take, drop_take, length_append, Nat.add_sub_cancel_left]
  have hback : (H.idsAfter front (a ++ b)).drop a.length = H.idsAfter (front ++ a) b := by
    rw [idsAfter, idsAfter, drop_drop, append_assoc, length_append]
  rw [← hfront, ← hback, take_append_drop]

theorem idsAfter_take (front tokens : List ℕ) (n : ℕ) :
    (H.idsAfter front tokens).take n = H.idsAfter front (tokens.take n) := by
  have hlen : (H.idsAfter front (tokens.take n)).length = min n tokens.length := by simp
  conv_lhs => rw [← take_append_drop n tokens, idsAfter_append]
  by_cases hn : n ≤ tokens.length
  · rw [take_left' (by rw [hlen, min_eq_left hn])]
  · have hrest : H.idsAfter (front ++ tokens.take n) [] = [] := length_eq_zero_iff.mp (idsAfter_length _ _)
    rw [drop_of_length_le (by omega), hrest, append_nil, take_of_length_le (by rw [hlen]; omega)]

/-- A history that serves the n-grams of later tokens as well as the whole front. -/
def Serves (H : PleHasher) (history front : List ℕ) : Prop :=
  ∀ later, later ≠ [] → ngram H.eos H.ngramSize (history ++ later) = ngram H.eos H.ngramSize (front ++ later)

theorem Serves.ids {history front : List ℕ} (h : H.Serves history front) (chunk : List ℕ) :
    (H.sequenceIds (history ++ chunk)).rtake chunk.length = H.idsAfter front chunk := by
  rw [rtake, sequenceIds_length, length_append, Nat.add_sub_cancel]
  apply ext_getElem
  · simp
  · intro i hi hi'
    have hlt : i < chunk.length := by simpa using hi'
    have hne : chunk.take (i + 1) ≠ [] := ne_nil_of_length_pos (by rw [length_take]; omega)
    simp only [idsAfter, getElem_drop, sequenceIds_getElem, add_assoc, take_length_add_append, h _ hne]

theorem serves_window (H : PleHasher) (front : List ℕ) : H.Serves (front.rtake H.ngramSize) front :=
  fun later _ => ngram_append_rtake front later

theorem serves_append {before history : List ℕ}
    (h : H.ngramSize ≤ history.length + 1 ∨ before = [] ∨ H.eos ∈ before.rtake 1 ++ history) :
    H.Serves history (before ++ history) := by
  intro later hne
  refine map_congr_left fun n hn => ?_
  have hin := mem_range.mp hn
  rw [append_assoc, shift_append hne (h.imp_left fun hlen => by omega)]

/-- `schedule_ple`: the tokens that the gather of a chunk hashes, for a suffix behind `window`. -/
def scheduleHistory (H : PleHasher) (window suffix : List ℕ) (startOffset endOffset : ℕ) : List ℕ :=
  if startOffset = 0 then window ++ suffix.take endOffset
  else (suffix.take endOffset).drop (startOffset - H.ngramSize)

/-- The chunks of a suffix from the given starts on. `first` is the window before the suffix. -/
def prefillChunks (H : PleHasher) (ahead : Bool) (first : Window H.ngramSize) (suffix : List ℕ) (chunkSize : ℕ) :
    List ℕ → Window H.ngramSize → List (List ℤ) × Window H.ngramSize
  | [], window => ([], window)
  | start :: starts, window =>
    let chunk := (suffix.take (start + chunkSize)).drop start
    let history :=
      if ahead then H.scheduleHistory first.1 suffix start (start + chunkSize) else window.1 ++ chunk
    let rest := H.prefillChunks ahead first suffix chunkSize starts (window.extend chunk)
    ((H.sequenceIds history).rtake chunk.length ++ rest.1, rest.2)

/-- One way to go on with a sequence. -/
inductive Piece where
  | prefill (chunk : List ℕ)
  | chunked (ahead : Bool) (suffix : List ℕ) (chunkSize : ℕ) (chunk_pos : 0 < chunkSize)
  | decode (token : ℕ)
  | verify (tokens : List ℕ) (accepted : ℕ)

def Piece.tokens : Piece → List ℕ
  | .prefill chunk => chunk
  | .chunked _ suffix _ _ => suffix
  | .decode token => [token]
  | .verify tokens _ => tokens

/-- The tokens a piece adds to the sequence. -/
def Piece.committed : Piece → List ℕ
  | .prefill chunk => chunk
  | .chunked _ suffix _ _ => suffix
  | .decode token => [token]
  | .verify tokens accepted => tokens.take accepted

def runPiece (H : PleHasher) (window : Window H.ngramSize) : Piece → List (List ℤ) × Window H.ngramSize
  | .prefill chunk => ((H.sequenceIds (window.1 ++ chunk)).rtake chunk.length, window.extend chunk)
  | .chunked ahead suffix chunkSize _ =>
    H.prefillChunks ahead window suffix chunkSize
      ((range ((suffix.length + chunkSize - 1) / chunkSize)).map (· * chunkSize)) window
  | .decode token => (H.decodeIds (window.append token).1, window.append token)
  | .verify tokens accepted =>
    ((H.sequenceIds (window.1 ++ tokens)).rtake tokens.length, window.extend (tokens.take accepted))

/-- The prefetch of the chunks behind the first one knows the tokens it needs. -/
def Remembered (H : PleHasher) (front : List ℕ) : Piece → Prop
  | .chunked ahead suffix chunkSize _ => ahead → chunkSize < suffix.length →
      H.ngramSize ≤ chunkSize + 1 ∨ front = [] ∨ H.eos ∈ front.rtake 1 ++ suffix.take chunkSize
  | _ => True

/-- The history of a later chunk is the end of the suffix before it. -/
theorem serves_scheduled {front suffix : List ℕ} {c start : ℕ} (hle : c ≤ start) (hlt : start < suffix.length)
    (hremembered : H.ngramSize ≤ c + 1 ∨ front = [] ∨ H.eos ∈ front.rtake 1 ++ suffix.take c) :
    H.Serves ((suffix.take start).drop (start - H.ngramSize)) (front ++ suffix.take start) := by
  have hjoin : front ++ suffix.take start =
      (front ++ (suffix.take start).take (start - H.ngramSize)) ++ (suffix.take start).drop (start - H.ngramSize) := by
    rw [append_assoc, take_append_drop]
  rw [hjoin]
  apply serves_append
  rw [length_drop, length_take]
  by_cases hlong : H.ngramSize ≤ start + 1
  · omega
  · have hzero : start - H.ngramSize = 0 := by omega
    rw [hzero, take_zero, append_nil, drop_zero]
    refine .inr ((hremembered.resolve_left (by omega)).imp_right fun hmem => ?_)
    refine mem_append.mpr ((mem_append.mp hmem).imp_right fun hin => ?_)
    exact (take_prefix_take_left hle).subset hin

theorem scheduleHistory_eq {window suffix : List ℕ} {start stop : ℕ} (hpos : start ≠ 0) (hle : start ≤ stop)
    (hlt : start < suffix.length) :
    H.scheduleHistory window suffix start stop =
      (suffix.take start).drop (start - H.ngramSize) ++ (suffix.take stop).drop start := by
  have hlen : (suffix.take start).length = start := length_take_of_le hlt.le
  have hcut : suffix.take stop = suffix.take start ++ (suffix.take stop).drop start := by
    conv_lhs => rw [← take_append_drop start (suffix.take stop), take_take, min_eq_left hle]
  rw [scheduleHistory, if_neg hpos, hcut, drop_append_of_le_length (by omega), drop_left' hlen]

theorem prefillChunks_eq {ahead : Bool} {front suffix : List ℕ} {c : ℕ} {first : Window H.ngramSize}
    (hpos : 0 < c) (hfirst : first.1 = front.rtake H.ngramSize)
    (hremembered : ahead → c < suffix.length →
      H.ngramSize ≤ c + 1 ∨ front = [] ∨ H.eos ∈ front.rtake 1 ++ suffix.take c)
    (k i : ℕ) (hlast : suffix.length ≤ (i + k) * c) :
    H.prefillChunks ahead first suffix c ((range' i k).map (· * c)) (first.extend (suffix.take (i * c))) =
      (H.idsAfter (front ++ suffix.take (i * c)) (suffix.drop (i * c)), first.extend suffix) := by
  induction k generalizing i with
  | zero =>
    have hall : suffix.length ≤ i * c := hlast
    rw [take_of_length_le hall, drop_of_length_le hall]
    simp [prefillChunks, idsAfter]
  | succ k ih =>
    have hnext : i * c + c = (i + 1) * c := (Nat.succ_mul i c).symm
    have hstep : suffix.take (i * c) ++ (suffix.take (i * c + c)).drop (i * c) = suffix.take ((i + 1) * c) := by
      rw [drop_take, Nat.add_sub_cancel_left, ← take_add, hnext]
    have hrest : suffix.drop (i * c) = (suffix.take (i * c + c)).drop (i * c) ++ suffix.drop ((i + 1) * c) := by
      rw [drop_take, Nat.add_sub_cancel_left, ← hnext, ← drop_drop, take_append_drop]
    have hids : (H.sequenceIds (if ahead then H.scheduleHistory first.1 suffix (i * c) (i * c + c)
        else (first.extend (suffix.take (i * c))).1 ++ (suffix.take (i * c + c)).drop (i * c))).rtake
          ((suffix.take (i * c + c)).drop (i * c)).length =
        H.idsAfter (front ++ suffix.take (i * c)) ((suffix.take (i * c + c)).drop (i * c)) := by
      by_cases hempty : suffix.length ≤ i * c
      · have hnone : (suffix.take (i * c + c)).drop (i * c) = [] :=
          drop_of_length_le (by rw [length_take]; omega)
        rw [hnone, length_nil, rtake, Nat.sub_zero, drop_length, idsAfter]
        simp
      split
      case isFalse =>
        have hwindow : (first.extend (suffix.take (i * c))).1 = (front ++ suffix.take (i * c)).rtake H.ngramSize := by
          rw [← rtake_append_rtake, ← hfirst]
          rfl
        rw [hwindow]
        exact (H.serves_window _).ids _
      case isTrue hahead =>
        by_cases hzero : i * c = 0
        · rw [hzero, take_zero, append_nil, drop_zero, scheduleHistory, if_pos rfl, hfirst]
          exact (H.serves_window _).ids _
        · have hle : c ≤ i * c := Nat.le_mul_of_pos_left _ (pos_of_ne_zero fun h => hzero (by rw [h, zero_mul]))
          rw [scheduleHistory_eq hzero (by omega) (by omega)]
          exact (serves_scheduled hle (by omega) (hremembered hahead (by omega))).ids _
    have hend : suffix.length ≤ (i + 1 + k) * c := by rwa [add_right_comm, add_assoc]
    rw [range'_succ, map_cons, prefillChunks, Window.extend_extend, hstep, ih (i + 1) hend, hids]
    dsimp only
    rw [hrest, idsAfter_append, append_assoc, hstep]

/-- A piece hashes what follows the sequence and leaves the window of the longer one. -/
theorem runPiece_eq {front : List ℕ} {window : Window H.ngramSize} (hwindow : window.1 = front.rtake H.ngramSize)
    {p : Piece} (hp : H.Remembered front p) :
    (H.runPiece window p).1 = H.idsAfter front p.tokens ∧
      (H.runPiece window p).2.1 = (front ++ p.committed).rtake H.ngramSize := by
  have hextend (tokens : List ℕ) : (window.extend tokens).1 = (front ++ tokens).rtake H.ngramSize := by
    rw [← rtake_append_rtake, ← hwindow]
    rfl
  have hids (tokens : List ℕ) :
      (H.sequenceIds (window.1 ++ tokens)).rtake tokens.length = H.idsAfter front tokens := by
    rw [hwindow]
    exact (H.serves_window _).ids _
  cases p with
  | prefill chunk => exact ⟨hids chunk, hextend chunk⟩
  | chunked ahead suffix c hpos =>
    have hlast : suffix.length ≤ (0 + (suffix.length + c - 1) / c) * c := by
      rw [zero_add]
      have := Nat.lt_div_mul_add (a := suffix.length + c - 1) hpos
      omega
    have hall := prefillChunks_eq hpos hwindow hp _ 0 hlast
    rw [zero_mul, take_zero, append_nil, drop_zero, Window.extend_nil, ← range_eq_range'] at hall
    rw [runPiece, hall]
    exact ⟨rfl, hextend suffix⟩
  | decode token =>
    rw [runPiece, Window.append_eq]
    have hlast : (H.sequenceIds (window.extend [token]).1).rtake 1 = H.idsAfter front [token] := by
      have hne : (window.extend [token]).1 ≠ [] := by
        rw [hextend, ← length_pos_iff, rtake, length_drop, length_append, length_singleton]
        have := H.two_le
        omega
      rw [sequenceIds_last hne, hextend, ngram_rtake, ← sequenceIds_last (by simp), rtake, sequenceIds_length,
        length_append, length_singleton, Nat.add_sub_cancel, idsAfter]
    exact ⟨hlast, hextend [token]⟩
  | verify tokens accepted => exact ⟨hids tokens, hextend (tokens.take accepted)⟩

def runPieces (H : PleHasher) (window : Window H.ngramSize) : List Piece → List (List (List ℤ))
  | [] => []
  | p :: ps => (H.runPiece window p).1 :: H.runPieces (H.runPiece window p).2 ps

def AllRemembered (H : PleHasher) (front : List ℕ) : List Piece → Prop
  | [] => True
  | p :: ps => H.Remembered front p ∧ H.AllRemembered (front ++ p.committed) ps

/-- The window of a slot that holds a sequence, fresh or restored. -/
def windowOf (H : PleHasher) (front : List ℕ) : Window H.ngramSize :=
  ⟨front.rtake H.ngramSize, by rw [rtake, length_drop]; omega⟩

/-- The ids of a run as hashed from the whole sequence before each piece. -/
def wholeIds (H : PleHasher) (front : List ℕ) : List Piece → List (List (List ℤ))
  | [] => []
  | p :: ps => H.idsAfter front p.tokens :: H.wholeIds (front ++ p.committed) ps

theorem runPieces_eq {front : List ℕ} {window : Window H.ngramSize} (hwindow : window.1 = front.rtake H.ngramSize)
    {ps : List Piece} (hps : H.AllRemembered front ps) : H.runPieces window ps = H.wholeIds front ps := by
  induction ps generalizing front window with
  | nil => rfl
  | cons p ps ih =>
    obtain ⟨hids, hnext⟩ := runPiece_eq hwindow hps.1
    rw [runPieces, wholeIds, hids, ih hnext hps.2]

def keptIds (ps : List Piece) (ids : List (List (List ℤ))) : List (List ℤ) :=
  (zipWith (fun p rows => rows.take p.committed.length) ps ids).flatten

theorem Piece.committed_take (p : Piece) : p.tokens.take p.committed.length = p.committed := by
  cases p with
  | verify tokens accepted => simp [Piece.tokens, Piece.committed, length_take, take_eq_take_iff]
  | prefill => exact take_length
  | chunked => exact take_length
  | decode => rfl

theorem keptIds_wholeIds (front : List ℕ) (ps : List Piece) :
    keptIds ps (H.wholeIds front ps) = H.idsAfter front (ps.flatMap Piece.committed) := by
  induction ps generalizing front with
  | nil => simp [keptIds, wholeIds, idsAfter]
  | cons p ps ih =>
    unfold keptIds at ih
    rw [wholeIds, keptIds, zipWith_cons_cons, flatten_cons, ih, idsAfter_take, p.committed_take,
      flatMap_cons, idsAfter_append]

theorem wholeIds_getElem (front : List ℕ) (before : List Piece) (p : Piece) (after : List Piece) :
    (H.wholeIds front (before ++ p :: after))[before.length]? =
      some (H.idsAfter (front ++ before.flatMap Piece.committed) p.tokens) := by
  induction before generalizing front with
  | nil => simp [wholeIds]
  | cons q before ih =>
    rw [cons_append, wholeIds, length_cons, getElem?_cons_succ, ih, flatMap_cons, append_assoc]

/-- However a sequence is cut, the ids kept of its tokens are those of the whole sequence. -/
theorem cut_ids_exact (H : PleHasher) (front : List ℕ) (ps : List Piece) (hps : H.AllRemembered front ps) :
    keptIds ps (H.runPieces (H.windowOf front) ps) =
        (H.sequenceIds (front ++ ps.flatMap Piece.committed)).drop front.length ∧
      (∀ before p after, ps = before ++ p :: after →
        (H.runPieces (H.windowOf front) ps)[before.length]? =
          some ((H.sequenceIds (front ++ before.flatMap Piece.committed ++ p.tokens)).drop
            (front ++ before.flatMap Piece.committed).length)) ∧
      ∀ tokens i, i < tokens.length → (H.sequenceIds tokens)[i]? =
        some (H.rowIds ((range H.ngramSize).map fun n =>
          if n ≤ i ∧ H.eos ∉ (tokens.take i).drop (i - n) then tokens.getD (i - n) H.eos else H.eos)) := by
  refine ⟨?_, ?_, ?_⟩
  · rw [runPieces_eq rfl hps, keptIds_wholeIds, idsAfter]
  · intro before p after hcut
    rw [runPieces_eq rfl hps, hcut, wholeIds_getElem, idsAfter]
  · intro tokens i hi
    rw [getElem?_eq_getElem (by rwa [sequenceIds_length]), sequenceIds_getElem, ngram]
    exact congrArg (fun shifts => some (H.rowIds shifts)) (map_congr_left fun n _ => shift_take hi n)

def small : PleHasher where
  multipliers := [1, 3, 5]
  headSizes := [101, 103]
  headOffsets := [0, 101]
  ngramHeads := 2
  eos := 0
  ngramSize := 3
  two_le := by decide

/-- A cold prompt, a step, a block with a rejected row and a suffix in chunks. -/
def mixedPieces : List Piece :=
  [.chunked true [4, 5, 6] 1 Nat.one_pos, .decode 7, .verify [8, 9] 1, .chunked true [4, 0, 6] 2 Nat.two_pos]

theorem mixedPieces_exact :
    keptIds mixedPieces (small.runPieces (small.windowOf []) mixedPieces) =
        (small.sequenceIds ([] ++ mixedPieces.flatMap Piece.committed)).drop ([] : List ℕ).length :=
  (cut_ids_exact small [] mixedPieces (by simp [mixedPieces, AllRemembered, Remembered, small])).1

/-- Chunks of one token behind a restored prefix: the second one is hashed without the token before the suffix. -/
theorem chunked_suffix_forgets :
    keptIds [.chunked true [8, 9] 1 (by decide)]
        (small.runPieces (small.windowOf [7]) [.chunked true [8, 9] 1 (by decide)]) ≠
      (small.sequenceIds ([7] ++ [8, 9])).drop 1 := by
  decide +kernel

end PleHasher

end FlashNext
