import BlackweLLM.RaisingState
import Mathlib.Tactic.Ring

/-!
# The rows of the recurrent states

`physical_slot` and `spec_row` of `runtime/recurrent_state_pool.py`, and the
rows that `enable_mtp_gdn_rows` and `activate_mtp_gdn_state` of
`runtime/model/qwen36_slots.py` give to the slots and their columns.
-/

namespace RecurrentRows

open List Function RaisingState

inductive RowError where
  | negativeSlot (slot : Int)
  | columnRange (col numSpec : Int)
  | noSpeculativeToken
  | configured (old new : Nat)
  | slotsInUse
  | notConfigured
  | noSuchSlot (slot : Nat)
  deriving DecidableEq, Repr

def reservedPhysicalSlots : Int := 0

def physicalSlot (logicalSlot reserved : Int) : Except RowError Int :=
  if logicalSlot < 0 then .error (.negativeSlot logicalSlot) else .ok (logicalSlot + reserved)

def specRow (logicalSlot col totalPhysicalSlots numSpec reserved : Int) : Except RowError Int :=
  if col < 0 ∨ numSpec < col then .error (.columnRange col numSpec)
  else (physicalSlot logicalSlot reserved).map fun phys =>
    if col = 0 then phys else totalPhysicalSlots + phys * numSpec + (col - 1)

/-- A linear-attention layer: the rows of its pools, the row of each column of each
slot, and the row that the live view of a slot points at. -/
structure Layer (S : Type) where
  pool : List S
  columns : List (List Nat)
  active : Nat → Nat

structure Pool (S : Type) where
  numSlots : Nat
  slotKvLen : List Nat
  layers : List (Layer S)
  mtpNumSpeculativeTokens : Option Nat

variable {S : Type} (zero : S)

/-- `_num_rows`: the slots and the scratch row, whose index is `num_slots`. -/
def Pool.numRows (p : Pool S) : Nat := p.numSlots + 1

def start (numSlots numLayers : Nat) : Pool S where
  numSlots := numSlots
  slotKvLen := replicate (numSlots + 1) 0
  layers := replicate numLayers ⟨replicate (numSlots + 1) zero, [], id⟩
  mtpNumSpeculativeTokens := none

/-- `columns_by_layer` of one layer. -/
def columnsOf (numRows k : Nat) : List (List Nat) :=
  (range numRows).map fun physicalSlot => physicalSlot :: range' (numRows + physicalSlot * k) k

def Layer.extend (numRows k : Nat) (l : Layer S) : Layer S :=
  { l with pool := l.pool.take numRows ++ replicate (numRows * (k + 1) - numRows) zero, columns := columnsOf numRows k }

/-- `per_slot[slot][col]` becomes the live state. -/
def Layer.activate (slot col : Nat) (l : Layer S) : Layer S :=
  { l with active := update l.active slot (((l.columns[slot]?).bind (·[col]?)).getD slot) }

def Pool.activateMtpGdnState (slot : Nat) (col : Int) (p : Pool S) : Except RowError (Pool S) :=
  match p.mtpNumSpeculativeTokens with
  | none => .error .notConfigured
  | some k =>
    if col < 0 ∨ (k : Int) < col then .error (.columnRange col k)
    else if p.numRows ≤ slot then .error (.noSuchSlot slot)
    else .ok { p with layers := p.layers.map (Layer.activate slot col.toNat) }

def Pool.enableMtpGdnRows (k : Nat) (p : Pool S) : Except RowError (Pool S) :=
  if k < 1 then .error .noSpeculativeToken
  else match p.mtpNumSpeculativeTokens with
    | some old => if old ≠ k then .error (.configured old k) else .ok p
    | none =>
      if p.slotKvLen.any (· ≠ 0) then .error .slotsInUse
      else (range p.numRows).foldlM (fun p slot => p.activateMtpGdnState slot 0)
        { p with layers := p.layers.map (Layer.extend zero p.numRows k), mtpNumSpeculativeTokens := some k }

/-- The calls, and the other work of the pool, which moves the lengths of the slots. -/
inductive Call where
  | enable (k : Nat)
  | activate (slot : Nat) (col : Int)
  | setKvLen (slot kvLen : Nat)

/-- A call that raises changes nothing. -/
def Pool.call (p : Pool S) : Call → Pool S
  | .enable k => (p.enableMtpGdnRows zero k).toOption.getD p
  | .activate slot col => (p.activateMtpGdnState slot col).toOption.getD p
  | .setKvLen slot kvLen => { p with slotKvLen := p.slotKvLen.set slot kvLen }

section Rows

variable {numRows k slot col slot' col' : Nat}

/-- The row of a column, as a number. -/
def rowOf (numRows k slot col : Nat) : Nat := if col = 0 then slot else numRows + slot * k + (col - 1)

theorem specRow_eq (numRows slot : Nat) (hcol : col ≤ k) :
    specRow slot col numRows k reservedPhysicalSlots = .ok (rowOf numRows k slot col) := by
  have hrange : ¬((col : Int) < 0 ∨ (k : Int) < col) := by omega
  have hslot : ¬(slot : Int) < 0 := by omega
  rw [specRow, if_neg hrange, physicalSlot, if_neg hslot, reservedPhysicalSlots, Int.add_zero]
  cases col with
  | zero => rfl
  | succ col =>
    have hpos : ¬((col + 1 : Nat) : Int) = 0 := by omega
    simp only [Except.map, if_neg hpos, rowOf, Nat.succ_ne_zero, if_false]
    push_cast
    congr 2
    omega

/-- The columns of a slot lie in a block of `k` rows behind all slots. -/
theorem rowOf_succ (numRows slot : Nat) (hcol : col + 1 ≤ k) :
    numRows + slot * k ≤ rowOf numRows k slot (col + 1) ∧
    rowOf numRows k slot (col + 1) < numRows + (slot + 1) * k := by
  rw [rowOf, if_neg (Nat.succ_ne_zero col), Nat.succ_mul]
  omega

theorem rowOf_lt (hslot : slot < numRows) (hcol : col ≤ k) : rowOf numRows k slot col < numRows * (k + 1) := by
  have hrows : numRows * (k + 1) = numRows + numRows * k := by ring
  rw [hrows]
  cases col with
  | zero => exact lt_of_lt_of_le hslot (Nat.le_add_right _ _)
  | succ col =>
    have hblock := (rowOf_succ numRows slot hcol).2
    have hlast : (slot + 1) * k ≤ numRows * k := Nat.mul_le_mul_right k hslot
    omega

theorem rowOf_inj (hslot : slot < numRows) (hslot' : slot' < numRows) (hcol : col ≤ k) (hcol' : col' ≤ k)
    (h : rowOf numRows k slot col = rowOf numRows k slot' col') : slot = slot' ∧ col = col' := by
  cases col with
  | zero =>
    cases col' with
    | zero => exact ⟨h, rfl⟩
    | succ col' =>
      have hbehind := (rowOf_succ numRows slot' hcol').1
      rw [← h] at hbehind
      change numRows + slot' * k ≤ slot at hbehind
      omega
  | succ col =>
    obtain ⟨hlo, hhi⟩ := rowOf_succ numRows slot hcol
    cases col' with
    | zero =>
      rw [h] at hlo
      change numRows + slot * k ≤ slot' at hlo
      omega
    | succ col' =>
      obtain ⟨hlo', hhi'⟩ := rowOf_succ numRows slot' hcol'
      have heq : slot = slot' := by
        by_contra hne
        rcases Nat.lt_or_gt_of_ne hne with hlt | hgt
        · have hblocks := Nat.mul_le_mul_right k (show slot + 1 ≤ slot' from hlt)
          omega
        · have hblocks := Nat.mul_le_mul_right k (show slot' + 1 ≤ slot from hgt)
          omega
      subst heq
      simp only [rowOf, Nat.succ_ne_zero, if_false] at h
      exact ⟨rfl, by omega⟩

theorem columnsOf_get (hslot : slot < numRows) (hcol : col ≤ k) :
    ((columnsOf numRows k)[slot]?).bind (·[col]?) = some (rowOf numRows k slot col) := by
  rw [columnsOf, getElem?_map, getElem?_range hslot]
  cases col with
  | zero => rfl
  | succ col => simp [rowOf, show col < k by omega]

end Rows

section Runs

variable {p p' : Pool S} {n numLayers : Nat}

/-- The rows of a reached pool, with `k` columns once they are enabled. -/
structure Laid (n numLayers : Nat) (p : Pool S) (k : Nat) : Prop where
  numSlots : p.numSlots = n
  numLayers : p.layers.length = numLayers
  pool : ∀ l ∈ p.layers, l.pool.length = (n + 1) * (k + 1)
  columns : p.mtpNumSpeculativeTokens.isSome → ∀ l ∈ p.layers, l.columns = columnsOf (n + 1) k
  active : ∀ l ∈ p.layers, ∀ slot ≤ n, ∃ col ≤ k, l.active slot = rowOf (n + 1) k slot col

def LaidOut (n numLayers : Nat) (p : Pool S) : Prop := Laid n numLayers p (p.mtpNumSpeculativeTokens.getD 0)

theorem LaidOut.of_some {k : Nat} (h : LaidOut n numLayers p) (hk : p.mtpNumSpeculativeTokens = some k) :
    Laid n numLayers p k := by
  rwa [LaidOut, hk] at h

theorem laidOut_start (n numLayers : Nat) : LaidOut n numLayers (start zero n numLayers) := by
  refine ⟨rfl, length_replicate, fun l hl => ?_, fun h => absurd h (by simp [start]),
    fun l hl slot _ => ⟨0, le_refl 0, ?_⟩⟩
  · rw [eq_of_mem_replicate hl]
    simp [start]
  · rw [eq_of_mem_replicate hl]
    rfl

theorem activate_row {l : Layer S} {k slot col : Nat} (hcolumns : l.columns = columnsOf (n + 1) k) (hslot : slot ≤ n)
    (hcol : col ≤ k) : (l.activate slot col).active slot = rowOf (n + 1) k slot col := by
  rw [Layer.activate, hcolumns, columnsOf_get (Nat.lt_succ_of_le hslot) hcol]
  exact update_self ..

/-- What a switch of a column does: the other slots keep their rows. -/
theorem activate_laidOut (h : LaidOut n numLayers p) (slot : Nat) (col : Int) :
    Gives (fun p' => LaidOut n numLayers p' ∧ p'.mtpNumSpeculativeTokens = p.mtpNumSpeculativeTokens)
      (fun _ => ∀ k, p.mtpNumSpeculativeTokens = some k → 0 ≤ col → col ≤ k → n < slot)
      (p.activateMtpGdnState slot col) := by
  rw [Pool.activateMtpGdnState]
  cases hk : p.mtpNumSpeculativeTokens with
  | none => exact fun k hk => absurd hk (Option.some_ne_none k).symm
  | some k =>
    have h := h.of_some hk
    have hrows : p.numRows = n + 1 := congrArg (· + 1) h.numSlots
    dsimp only
    by_cases hcol : col < 0 ∨ (k : Int) < col
    · rw [if_pos hcol]
      rintro k' ⟨⟩ hlow hhigh
      omega
    by_cases hslot : p.numRows ≤ slot
    · rw [if_neg hcol, if_pos hslot]
      exact fun _ _ _ _ => Nat.lt_of_succ_le (hrows.ge.trans hslot)
    rw [if_neg hcol, if_neg hslot]
    have hle : slot ≤ n := by omega
    have hcolumns := h.columns (by simp [hk])
    refine ⟨show Laid n numLayers _ k from ?_, rfl⟩
    refine ⟨h.numSlots, (length_map _).trans h.numLayers, forall_mem_map.mpr h.pool,
      fun _ => forall_mem_map.mpr hcolumns, forall_mem_map.mpr fun l hl other hother => ?_⟩
    by_cases heq : other = slot
    · subst heq
      exact ⟨col.toNat, by omega, activate_row (hcolumns l hl) hle (by omega)⟩
    · have hkept : (l.activate slot col.toNat).active other = l.active other := update_of_ne heq ..
      rw [hkept]
      exact h.active l hl other hother

/-- What enabling does, and that it succeeds in a pool that is fresh. -/
theorem enable_laidOut (h : LaidOut n numLayers p) (k : Nat) :
    Gives (fun p' => LaidOut n numLayers p' ∧ p'.mtpNumSpeculativeTokens = some k)
      (fun _ => 0 < k → p.mtpNumSpeculativeTokens = none → ∃ kvLen ∈ p.slotKvLen, kvLen ≠ 0)
      (p.enableMtpGdnRows zero k) := by
  rw [Pool.enableMtpGdnRows]
  by_cases hpos : k < 1
  · rw [if_pos hpos]
    intro hk
    omega
  rw [if_neg hpos]
  cases hk : p.mtpNumSpeculativeTokens with
  | some old =>
    dsimp only
    by_cases hold : old ≠ k
    · rw [if_pos hold]
      exact fun _ hnone => absurd hnone (Option.some_ne_none old)
    · rw [if_neg hold]
      exact ⟨h, hk.trans (congrArg some (not_not.mp hold))⟩
  | none =>
    dsimp only
    by_cases huse : p.slotKvLen.any (· ≠ 0) = true
    · rw [if_pos huse]
      exact fun _ _ => by simpa using huse
    rw [if_neg huse]
    rw [LaidOut, hk] at h
    have hrows : p.numRows = n + 1 := congrArg (· + 1) h.numSlots
    have hextended : LaidOut n numLayers { p with
        layers := p.layers.map (Layer.extend zero p.numRows k), mtpNumSpeculativeTokens := some k } := by
      refine ⟨h.numSlots, (length_map _).trans h.numLayers, forall_mem_map.mpr fun l hl => ?_,
        fun _ => forall_mem_map.mpr fun l _ => ?_, forall_mem_map.mpr fun l hl slot hslot => ?_⟩
      · have hpool := h.pool l hl
        have hmore : (n + 1) * (k + 1) = n + 1 + (n + 1) * k := by ring
        simp only [Layer.extend, hrows, length_append, length_take, length_replicate, hpool,
          Option.getD_none, Option.getD_some]
        omega
      · simp only [Layer.extend, hrows, Option.getD_some]
      · obtain ⟨col, hcol, hrow⟩ := h.active l hl slot hslot
        cases Nat.le_zero.mp hcol
        exact ⟨0, Nat.zero_le _, hrow⟩
    refine gives_foldlM (I := fun _ p' => LaidOut n numLayers p' ∧ p'.mtpNumSpeculativeTokens = some k)
      (fun done slot rest p' hsplit hp' => ?_) ⟨hextended, rfl⟩
    refine (activate_laidOut hp'.1 slot 0).mono (fun _ h => ⟨h.1, h.2.trans hp'.2⟩) fun _ hraise => ?_
    have hbehind := hraise k hp'.2 le_rfl (Int.natCast_nonneg k)
    have hslot : slot ∈ range p.numRows := hsplit ▸ mem_append_right done mem_cons_self
    rw [mem_range, hrows] at hslot
    omega

theorem LaidOut.call (h : LaidOut n numLayers p) (c : Call) : LaidOut n numLayers (p.call zero c) := by
  have hkeep : ∀ {Q : Pool S → Prop} {E : RowError → Prop} {r : Except RowError (Pool S)},
      Gives (fun p' => LaidOut n numLayers p' ∧ Q p') E r → LaidOut n numLayers (r.toOption.getD p) := by
    intro Q E r hr
    cases r with
    | ok p' => exact hr.1
    | error e => exact h
  cases c with
  | enable k => exact hkeep (enable_laidOut zero h k)
  | activate slot col => exact hkeep (activate_laidOut h slot col)
  | setKvLen slot kvLen => exact ⟨h.numSlots, h.numLayers, h.pool, h.columns, h.active⟩

theorem LaidOut.run (h : LaidOut n numLayers p) (calls : List Call) :
    LaidOut n numLayers (calls.foldl (Pool.call zero) p) := by
  induction calls generalizing p with
  | nil => exact h
  | cons c calls ih => exact ih (h.call zero c)

/-- The pools of `p` have the rows of `k` columns, and hold each column of each slot in its `specRow`. -/
structure AtSpecRows (n k : Nat) (p : Pool S) : Prop where
  pool : ∀ l ∈ p.layers, l.pool.length = (n + 1) * (k + 1)
  active : ∀ l ∈ p.layers, ∀ slot ≤ n, ∃ col ≤ k,
    specRow slot col (n + 1 : Nat) k reservedPhysicalSlots = .ok (l.active slot)
  activated : ∀ slot ≤ n, ∀ col ≤ k, ∃ p', p.activateMtpGdnState slot col = .ok p' ∧ ∀ l ∈ p.layers,
    l.activate slot col ∈ p'.layers ∧
      specRow slot col (n + 1 : Nat) k reservedPhysicalSlots = .ok ((l.activate slot col).active slot)

theorem LaidOut.atSpecRows {k : Nat} (h : LaidOut n numLayers p) (hk : p.mtpNumSpeculativeTokens = some k) :
    AtSpecRows n k p := by
  have hlaid := h.of_some hk
  refine ⟨hlaid.pool, fun l hl slot hslot => ?_, fun slot hslot col hcol => ?_⟩
  · obtain ⟨col, hcol, hactive⟩ := hlaid.active l hl slot hslot
    exact ⟨col, hcol, by rw [specRow_eq _ _ hcol, hactive]⟩
  · have hcheck : ¬((col : Int) < 0 ∨ (k : Int) < col) := by omega
    have hknown : ¬p.numRows ≤ slot := by
      rw [Pool.numRows, hlaid.numSlots]
      omega
    refine ⟨_, by rw [Pool.activateMtpGdnState, hk]; exact (if_neg hcheck).trans (if_neg hknown), fun l hl => ?_⟩
    refine ⟨mem_map.mpr ⟨l, hl, rfl⟩, ?_⟩
    rw [specRow_eq _ _ hcol, activate_row (hlaid.columns (by simp [hk]) l hl) hslot hcol]

/-- No two columns share a row; enabling a pool that no slot uses succeeds, and from then on its
layers hold the columns in these rows. -/
theorem spec_row_layout (n k numLayers : Nat) (calls : List Call) :
    let row := fun slot col : Nat => specRow slot col (n + 1 : Nat) k reservedPhysicalSlots
    (∀ slot ≤ n, ∀ col ≤ k, ∃ r : Nat, row slot col = .ok r ∧ r < (n + 1) * (k + 1) ∧
      (0 < col → ∀ other ≤ n, r ≠ other) ∧ (slot < n → r ≠ n)) ∧
    (∀ slot ≤ n, ∀ slot' ≤ n, ∀ col ≤ k, ∀ col' ≤ k, row slot col = row slot' col' → slot = slot' ∧ col = col') ∧
    let p := calls.foldl (Pool.call zero) (start zero n numLayers)
    p.layers.length = numLayers ∧ (p.mtpNumSpeculativeTokens = some k → AtSpecRows n k p) ∧
    (0 < k → p.mtpNumSpeculativeTokens = none → (∀ kvLen ∈ p.slotKvLen, kvLen = 0) →
      ∃ p', p.enableMtpGdnRows zero k = .ok p' ∧ p'.mtpNumSpeculativeTokens = some k ∧
        p'.layers.length = numLayers ∧ AtSpecRows n k p') := by
  intro row
  have hrow : ∀ slot col : Nat, col ≤ k → row slot col = .ok (rowOf (n + 1) k slot col : Nat) := fun slot col hcol =>
    specRow_eq (n + 1) slot hcol
  refine ⟨fun slot hslot col hcol => ?_, fun slot hslot slot' hslot' col hcol col' hcol' heq => ?_, ?_⟩
  · have hlt := Nat.lt_succ_of_le hslot
    refine ⟨_, hrow slot col hcol, rowOf_lt hlt hcol, fun hpos other hother heq => ?_, fun hserved heq => ?_⟩
    · have hsame := rowOf_inj hlt (Nat.lt_succ_of_le hother) hcol (Nat.zero_le k) heq
      omega
    · have hsame := rowOf_inj hlt (Nat.lt_succ_self n) hcol (Nat.zero_le k) heq
      omega
  · rw [hrow _ _ hcol, hrow _ _ hcol'] at heq
    exact rowOf_inj (Nat.lt_succ_of_le hslot) (Nat.lt_succ_of_le hslot') hcol hcol' (by simpa using heq)
  · intro p
    have hlaid := (laidOut_start zero n numLayers).run zero calls
    refine ⟨hlaid.numLayers, hlaid.atSpecRows, fun hpos hnone hunused => ?_⟩
    have hfresh : ¬(0 < k → p.mtpNumSpeculativeTokens = none → ∃ kvLen ∈ p.slotKvLen, kvLen ≠ 0) := fun hraise =>
      let ⟨kvLen, hmem, hne⟩ := hraise hpos hnone
      hne (hunused kvLen hmem)
    obtain ⟨p', hrun, hlaid', hk⟩ := ((enable_laidOut zero hlaid k).mono (fun _ => id) fun _ => hfresh).returns
    exact ⟨p', hrun, hk, hlaid'.numLayers, hlaid'.atSpecRows hk⟩

/-- Two slots with two columns each: the last column of slot 1 is row 6. -/
theorem spec_row_layout_two : ∃ p, (start () 2 1).enableMtpGdnRows () 2 = .ok p ∧ p.layers.length = 1 ∧
    ∀ l ∈ p.layers, l.pool.length = 9 ∧ (l.activate 1 2).active 1 = 6 := by
  obtain ⟨p, hrun, -, hone, hrows⟩ := (spec_row_layout () 2 2 1 []).2.2.2.2 (by decide) rfl (by decide)
  refine ⟨p, hrun, hone, fun l hl => ⟨hrows.pool l hl, ?_⟩⟩
  obtain ⟨_, -, hactive⟩ := hrows.activated 1 (by decide) 2 (by decide)
  exact (Int.ofNat_inj.mp (Except.ok.inj (hactive l hl).2)).symm

end Runs

end RecurrentRows
