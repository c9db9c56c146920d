import Mathlib.Data.List.Basic
import Mathlib.Data.List.Induction

/-!
# Causal sequence models with a cache and a recurrence

A model reads the rows that earlier positions left in a cache and the state of
a recurrence, and leaves one row and one state for each token. Running it over
several tokens in one pass gives the rows, states and predictions of the same
tokens fed one by one.
-/

/-- One layer stack: `step rows gdn t` consumes token `t` behind `rows`. -/
structure CausalModel (Tok Kv Gdn Hid : Type) where
  zero : Gdn
  step : List Kv → Gdn → Tok → Kv × Gdn × Hid
  argmax : Hid → Tok

namespace CausalModel

open List

variable {Tok Kv Gdn Hid : Type} (m : CausalModel Tok Kv Gdn Hid)

/-- What a model knows of the tokens it has consumed. -/
structure Context (Kv Gdn : Type) where
  rows : List Kv
  gdn : Gdn

def empty : Context Kv Gdn := ⟨[], m.zero⟩

def consume (c : Context Kv Gdn) (t : Tok) : Context Kv Gdn :=
  ⟨c.rows ++ [(m.step c.rows c.gdn t).1], (m.step c.rows c.gdn t).2.1⟩

def consumeAll (c : Context Kv Gdn) (ts : List Tok) : Context Kv Gdn := ts.foldl m.consume c

def next (c : Context Kv Gdn) (t : Tok) : Tok := m.argmax (m.step c.rows c.gdn t).2.2

def after (ts : List Tok) : Context Kv Gdn := m.consumeAll m.empty ts

/-- The deterministic target: the next token of a prefix. -/
def predict (ts : List Tok) : Option Tok := ts.getLast?.map (m.next (m.after ts.dropLast))

/-- The first `n` tokens of plain greedy decoding behind `prompt`. -/
def greedy (prompt : List Tok) : Nat → List Tok
  | 0 => []
  | n + 1 => greedy prompt n ++ (m.predict (prompt ++ greedy prompt n)).toList

/-- One pass over several tokens, with the row, state and hidden of each position. -/
def forward (c : Context Kv Gdn) : List Tok → List (Kv × Gdn × Hid)
  | [] => []
  | t :: ts => m.step c.rows c.gdn t :: forward (m.consume c t) ts

@[simp] theorem consumeAll_nil (c : Context Kv Gdn) : m.consumeAll c [] = c := rfl
@[simp] theorem consumeAll_cons (c : Context Kv Gdn) (t : Tok) (ts : List Tok) :
    m.consumeAll c (t :: ts) = m.consumeAll (m.consume c t) ts := rfl
@[simp] theorem consumeAll_append (c : Context Kv Gdn) (ts us : List Tok) :
    m.consumeAll c (ts ++ us) = m.consumeAll (m.consumeAll c ts) us := foldl_append
@[simp] theorem after_append (ts us : List Tok) :
    m.after (ts ++ us) = m.consumeAll (m.after ts) us := m.consumeAll_append _ _ _
@[simp] theorem forward_nil (c : Context Kv Gdn) : m.forward c [] = [] := rfl

theorem predict_concat (ts : List Tok) (t : Tok) : m.predict (ts ++ [t]) = some (m.next (m.after ts) t) := by
  simp [predict]

@[simp] theorem length_forward (c : Context Kv Gdn) (ts : List Tok) :
    (m.forward c ts).length = ts.length := by
  induction ts generalizing c with
  | nil => rfl
  | cons t ts ih => simp [forward, ih]

theorem forward_append (c : Context Kv Gdn) (ts us : List Tok) :
    m.forward c (ts ++ us) = m.forward c ts ++ m.forward (m.consumeAll c ts) us := by
  induction ts generalizing c with
  | nil => rfl
  | cons t ts ih => simp [forward, ih]

theorem forward_take (c : Context Kv Gdn) (ts : List Tok) (n : Nat) :
    m.forward c (ts.take n) = (m.forward c ts).take n := by
  rcases Nat.le_total n ts.length with h | h
  · have hlen : (m.forward c (ts.take n)).length = n := by simp [h]
    calc m.forward c (ts.take n)
        = (m.forward c (ts.take n) ++ m.forward (m.consumeAll c (ts.take n)) (ts.drop n)).take n := by
          rw [take_left' hlen]
      _ = (m.forward c ts).take n := by rw [← forward_append, take_append_drop]
  · rw [take_of_length_le h, take_of_length_le (by simp [h])]

/-- The pass leaves the rows of its tokens behind the rows it found. -/
theorem rows_consumeAll (c : Context Kv Gdn) (ts : List Tok) :
    (m.consumeAll c ts).rows = c.rows ++ (m.forward c ts).map (·.1) := by
  induction ts generalizing c with
  | nil => simp
  | cons t ts ih => simp [forward, ih, consume]

/-- The rows of a prefix are the first rows. -/
theorem take_rows_after (ts : List Tok) (n : Nat) : (m.after ts).rows.take n = (m.after (ts.take n)).rows := by
  simp only [after, rows_consumeAll, empty, nil_append, forward_take, map_take]

theorem length_rows_after (ts : List Tok) : (m.after ts).rows.length = ts.length := by
  simp [after, rows_consumeAll, empty]

/-- What stands at position `i` is one step behind the tokens before it. -/
theorem getElem?_forward (c : Context Kv Gdn) (ts : List Tok) (i : Nat) :
    (m.forward c ts)[i]? = ts[i]?.map fun t =>
      m.step (m.consumeAll c (ts.take i)).rows (m.consumeAll c (ts.take i)).gdn t := by
  induction ts generalizing c i with
  | nil => simp
  | cons t ts ih =>
    cases i with
    | zero => simp [forward]
    | succ i => simp [forward, ih]

/-- The states that a pass leaves are those behind each of its prefixes. -/
theorem getElem?_states (toks ts : List Tok) {i : Nat} (h : i < ts.length) :
    ((m.forward (m.after toks) ts).map (·.2.1))[i]? = some (m.after (toks ++ ts.take (i + 1))).gdn := by
  rw [getElem?_map, getElem?_forward, getElem?_eq_getElem h,
    take_succ_eq_append_getElem h, after_append, consumeAll_append]
  rfl

/-- The rows that a pass leaves are those of each of its prefixes. -/
theorem rows_after_take (toks ts : List Tok) (n : Nat) :
    (m.after (toks ++ ts.take n)).rows =
      (m.after toks).rows ++ ((m.forward (m.after toks) ts).map (·.1)).take n := by
  rw [after_append, rows_consumeAll, forward_take, map_take]

/-- The last position of a pass predicts what follows its tokens. -/
theorem predict_of_getLast? {toks ts : List Tok} {o : Kv × Gdn × Hid}
    (h : (m.forward (m.after toks) ts).getLast? = some o) :
    m.predict (toks ++ ts) = some (m.argmax o.2.2) := by
  rcases eq_nil_or_concat' ts with rfl | ⟨init, t, rfl⟩
  · simp at h
  · rw [forward_append] at h
    simp only [forward, getLast?_append, getLast?_singleton, Option.some_or, Option.some.injEq] at h
    rw [← append_assoc, predict_concat, after_append, ← h]
    rfl

theorem greedy_succ (prompt : List Tok) (n : Nat) :
    m.greedy prompt (n + 1) = m.greedy prompt n ++ (m.predict (prompt ++ m.greedy prompt n)).toList := rfl

theorem length_greedy {prompt : List Tok} (h : prompt ≠ []) (n : Nat) : (m.greedy prompt n).length = n := by
  induction n with
  | zero => rfl
  | succ n ih =>
    have hne : prompt ++ m.greedy prompt n ≠ [] := by simp [h]
    obtain ⟨init, t, hinit⟩ := (eq_nil_or_concat' _).resolve_left hne
    rw [greedy_succ, hinit, predict_concat]
    simp [ih]

/-- Greedy decoding can be resumed from what it has produced. -/
theorem greedy_add (prompt : List Tok) (a b : Nat) :
    m.greedy prompt (a + b) = m.greedy prompt a ++ m.greedy (prompt ++ m.greedy prompt a) b := by
  induction b with
  | zero => simp [greedy]
  | succ b ih => rw [← Nat.add_assoc, greedy_succ, ih, greedy_succ, append_assoc, append_assoc]

def predictions (c : Context Kv Gdn) (ts : List Tok) : List Tok :=
  (m.forward c ts).map fun o => m.argmax o.2.2

@[simp] theorem length_predictions (c : Context Kv Gdn) (ts : List Tok) :
    (m.predictions c ts).length = ts.length := by simp [predictions]

/-- Each position of a pass predicts what the target predicts of the tokens up to it. -/
theorem getElem?_predictions (prompt ts : List Tok) {i : Nat} (h : i < ts.length) :
    (m.predictions (m.after prompt) ts)[i]? = m.predict (prompt ++ ts.take (i + 1)) := by
  rw [take_succ_eq_append_getElem h, ← append_assoc, predict_concat, after_append, predictions,
    getElem?_map, getElem?_forward, getElem?_eq_getElem h]
  rfl

/-- As long as the proposed tokens are the predictions themselves, one pass decodes greedily. -/
theorem take_predictions_eq_greedy (prompt drafts : List Tok) (t : Tok) {n : Nat} (hn : n ≤ drafts.length)
    (h : drafts.take n = (m.predictions (m.after prompt) (t :: drafts)).take n) :
    (m.predictions (m.after prompt) (t :: drafts)).take (n + 1) = m.greedy (prompt ++ [t]) (n + 1) := by
  have key : ∀ j ≤ n + 1, (m.predictions (m.after prompt) (t :: drafts)).take j =
      m.greedy (prompt ++ [t]) j := by
    intro j
    induction j with
    | zero => intro _; rfl
    | succ j ih =>
      intro hj
      have hproposed : drafts.take j = m.greedy (prompt ++ [t]) j := by
        rw [← ih (by omega)]
        have := congrArg (take j) h
        rwa [take_take, take_take, Nat.min_eq_left (by omega)] at this
      have hlast := m.getElem?_predictions prompt (t :: drafts) (i := j) (by simp; omega)
      rw [take_succ_cons, hproposed] at hlast
      rw [take_add_one, ih (by omega), greedy_succ, hlast, append_assoc, singleton_append]
  exact key _ (Nat.le_refl _)

/-- A target that is given as a function of the prefix. -/
def ofPrefix (f : List Tok → Tok) : CausalModel Tok Tok Unit Tok where
  zero := ()
  step rows _ t := (t, (), f (rows ++ [t]))
  argmax := id

section RowMemory

variable {α : Type}

def writeRows (mem : Nat → α) (start : Nat) (rows : List α) : Nat → α :=
  fun i => if start ≤ i then rows.getD (i - start) (mem i) else mem i

/-- The rows of a cache of length `n`; what lies behind is never read. -/
def readRows (mem : Nat → α) (n : Nat) : List α := (range n).map mem

@[simp] theorem length_readRows (mem : Nat → α) (n : Nat) : (readRows mem n).length = n := by
  simp [readRows]

theorem take_readRows (mem : Nat → α) {n k : Nat} (h : n ≤ k) : (readRows mem k).take n = readRows mem n := by
  rw [readRows, ← map_take, take_range, Nat.min_eq_left h, readRows]

/-- Of the rows written, a shorter cache keeps the first ones. -/
theorem readRows_writeRows (mem : Nat → α) (n : Nat) (rows : List α) {k : Nat} (hk : k ≤ rows.length) :
    readRows (writeRows mem n rows) (n + k) = readRows mem n ++ rows.take k := by
  apply ext_getElem?
  intro i
  rcases Nat.lt_or_ge i n with h | h
  · rw [getElem?_append_left (by simpa using h)]
    simp [readRows, writeRows, h, Nat.lt_add_right k h, Nat.not_le.mpr h]
  · rw [getElem?_append_right (by simpa using h), length_readRows]
    rcases Nat.lt_or_ge (i - n) k with hi | hi
    · rw [getElem?_take_of_lt hi, getElem?_eq_getElem (by rw [length_readRows]; omega)]
      simp [readRows, writeRows, h, show i - n < rows.length by omega]
    · rw [getElem?_eq_none (by simp; omega), getElem?_eq_none (by simp; omega)]

end RowMemory

end CausalModel
