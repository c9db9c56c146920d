import BlackweLLM.GdnLayer

/-!
# One machine for every path of the gated delta layer

Token by token the layer moves a window and a recurrent state. Every entry point
is that machine over its tokens, and the entry points differ in what their kernel
reads at a position.
-/

namespace GdnLayer

open List SlidingWindow

theorem slide_succ {α β : Type*} {n : ℕ} {f : List α → β} {xs : List α} (h : n < xs.length) :
    slide n f xs = f (xs.take (n + 1)) :: slide n f (xs.drop 1) := by
  rw [← slide_drop]
  apply ext_getElem
  · simp only [slide_length, length_cons, length_drop]
    omega
  · intro t ht ht'
    cases t with
    | zero => simp [slide_getElem]
    | succ t => rw [getElem_cons_succ, getElem_drop]; congr 1; omega

namespace GdnConfig

variable (C : GdnConfig)

theorem numKHeads_pos : 0 < C.numKHeads := by
  apply Nat.pos_of_ne_zero
  intro h
  have hexact := C.heads_exact
  rw [h, Nat.mul_zero] at hexact
  exact absurd hexact.symm (Nat.ne_of_gt C.numVHeads_pos)

theorem headRepeat_mul : C.headRepeat * C.numKHeads = C.numVHeads := C.heads_exact

theorem headRepeat_pos : 0 < C.headRepeat := by
  apply Nat.pos_of_ne_zero
  intro h
  have hmul := C.headRepeat_mul
  rw [h, Nat.zero_mul] at hmul
  exact absurd hmul.symm (Nat.ne_of_gt C.numVHeads_pos)

def keyHead (expanded : Bool) (h : ℕ) : ℕ :=
  if expanded && C.ggufDirectDecay then h % C.numKHeads else h / C.headRepeat

theorem keyHead_lt (expanded : Bool) {h : ℕ} (hh : h < C.numVHeads) : C.keyHead expanded h < C.numKHeads := by
  unfold keyHead
  split
  · exact Nat.mod_lt _ C.numKHeads_pos
  · exact (Nat.div_lt_iff_lt_mul C.headRepeat_pos).mpr (by rw [Nat.mul_comm, C.headRepeat_mul]; exact hh)

variable {α : Type} {heads : List α}

theorem length_expandHeads (hlen : heads.length = C.numKHeads) :
    (C.expandHeads heads).length = C.numVHeads := by
  have hmul := C.headRepeat_mul
  unfold expandHeads
  split
  case isTrue h => rw [hlen, ← hmul, h, Nat.one_mul]
  case isFalse h =>
    split
    · rw [length_flatten, map_replicate, sum_replicate_nat, hlen, hmul]
    · simp [length_flatMap, hlen, ← hmul, Nat.mul_comm]

theorem getElem?_tile {n h : ℕ} (hh : h < n * heads.length) :
    (replicate n heads).flatten[h]? = heads[h % heads.length]? := by
  induction n generalizing h with
  | zero => simp at hh
  | succ n ih =>
    rw [replicate_succ, flatten_cons]
    by_cases hfirst : h < heads.length
    · rw [getElem?_append_left hfirst, Nat.mod_eq_of_lt hfirst]
    · have hle : heads.length ≤ h := by omega
      rw [getElem?_append_right hle, ih (by rw [Nat.succ_mul] at hh; omega), ← Nat.mod_eq_sub_mod hle]

theorem getElem?_interleave {n h : ℕ} (hn : 0 < n) : (heads.flatMap (replicate n))[h]? = heads[h / n]? := by
  induction heads generalizing h with
  | nil => rfl
  | cons a heads ih =>
    rw [flatMap_cons]
    by_cases hfirst : h < n
    · rw [getElem?_append_left (by rw [length_replicate]; exact hfirst), Nat.div_eq_of_lt hfirst,
        getElem?_replicate, if_pos hfirst, getElem?_cons_zero]
    · have hdiv : h / n = (h - n) / n + 1 := Nat.div_eq_sub_div hn (by omega)
      rw [getElem?_append_right (by rw [length_replicate]; omega), length_replicate, ih, hdiv,
        getElem?_cons_succ]

/-- Value head `h` reads key head `h mod Hk` of a tiled axis and `h div repeat` of an interleaved one. -/
theorem getElem?_expandHeads (hlen : heads.length = C.numKHeads) {h : ℕ}
    (hh : h < C.numVHeads) : (C.expandHeads heads)[h]? = heads[C.keyHead true h]? := by
  have hmul := C.headRepeat_mul
  unfold expandHeads keyHead
  split
  case isTrue hone =>
    have hk : h < C.numKHeads := by rwa [← hmul, hone, Nat.one_mul] at hh
    simp [hone, Nat.mod_eq_of_lt hk]
  case isFalse =>
    split
    case isTrue htile => rw [getElem?_tile (by rwa [hlen, hmul]), hlen, htile]; rfl
    case isFalse hinter => rw [getElem?_interleave C.headRepeat_pos]; simp [hinter]

end GdnConfig

namespace Weights

def zeroWindow {R : Type} [Zero R] (C : GdnConfig) : List (List R) :=
  replicate C.convKernelSize (zeroColumn (C := C))

@[simp] theorem length_zeroWindow {R : Type} [Zero R] {C : GdnConfig} :
    (zeroWindow C : List (List R)).length = C.convKernelSize := length_replicate

variable {C : GdnConfig} {R S X Y : Type} [Zero R] [Add R] [Mul R] [InvolutiveNeg R] (W : Weights C R S X Y)

/-- What the kernel of a path reads: heads normalised by the caller or by itself, expanded or not, and a decay. -/
structure Reading (R : Type) where
  normed : Bool
  prepared : Bool
  expanded : Bool
  scale : ℕ → R

namespace Reading

variable (ρ : Reading R)

def prepare (head : List R) : List R := if ρ.prepared then W.l2norm head else head

def norm (head : List R) : List R := if ρ.normed then W.l2norm (ρ.prepare W head) else ρ.prepare W head

def arrange (heads : List (List R)) : List (List R) :=
  let heads := if ρ.prepared then heads.map W.l2norm else heads
  if ρ.expanded then C.expandHeads heads else heads

def position (x : X) (column : List R) : Position R :=
  let p := W.position ρ.scale x column
  let p := if ρ.prepared then W.prefillL2norm p else p
  if ρ.expanded then expandGdnQueryKeyHeads (C := C) p else p

end Reading

def read (ρ : Reading R) (state : List S) (x : X) (column : List R) : List S × List (List R) :=
  W.kernelStep ρ.normed state (ρ.position W x column)

section Arrange

variable {W} {ρ : Reading R} {heads : List (List R)}

omit [Zero R] [Add R] [Mul R] in
theorem prepare_heads : (if ρ.prepared then heads.map W.l2norm else heads) = heads.map (ρ.prepare W) := by
  unfold Reading.prepare
  split <;> simp

omit [Zero R] [Add R] [Mul R] in
theorem getElem?_arrange (hlen : heads.length = C.numKHeads) {h : ℕ} (hh : h < C.numVHeads) :
    (ρ.arrange W heads)[h / (C.numVHeads / (ρ.arrange W heads).length)]? =
      (heads[C.keyHead ρ.expanded h]?).map (ρ.prepare W) := by
  have hmap : (heads.map (ρ.prepare W)).length = C.numKHeads := by rw [length_map, hlen]
  rw [Reading.arrange, prepare_heads, ← getElem?_map]
  by_cases hexpanded : ρ.expanded = true
  · rw [if_pos hexpanded, C.length_expandHeads hmap, Nat.div_self C.numVHeads_pos, Nat.div_one, hexpanded,
      C.getElem?_expandHeads hmap hh]
  · rw [if_neg hexpanded, hmap, Bool.eq_false_iff.mpr hexpanded]
    rfl

end Arrange

def queryOf (C : GdnConfig) (column : List R) (i : ℕ) : List R :=
  ((column.take C.keyDim).drop (i * C.headKDim)).take C.headKDim

def keyOf (C : GdnConfig) (column : List R) (i : ℕ) : List R :=
  (((column.drop C.keyDim).take C.keyDim).drop (i * C.headKDim)).take C.headKDim

def readHead (ρ : Reading R) (state : List S) (x : X) (column : List R) (h : ℕ) : S × List R :=
  W.step (state.getD h W.zero) (ρ.norm W (queryOf C column (C.keyHead ρ.expanded h)))
    (ρ.norm W (keyOf C column (C.keyHead ρ.expanded h)))
    ((reshapeHeads C.numVHeads C.headVDim (column.drop (C.keyDim * 2))).getD h [])
    (W.g ρ.scale x h) (W.beta x h)

omit [Zero R] [Add R] [Mul R] [InvolutiveNeg R] in
theorem getElem?_reshapeHeads {n d i : ℕ} {channels : List R} (h : i < n) :
    (reshapeHeads n d channels)[i]? = some ((channels.drop (i * d)).take d) := by
  rw [reshapeHeads, getElem?_map, getElem?_range h]
  rfl

theorem read_eq (ρ : Reading R) (state : List S) (x : X) (column : List R) :
    W.read ρ state x column =
      ((range C.numVHeads).map fun h => (W.readHead ρ state x column h).1,
        (range C.numVHeads).map fun h => (W.readHead ρ state x column h).2) := by
  have hquery : (ρ.position W x column).query =
      ρ.arrange W (reshapeHeads C.numKHeads C.headKDim (column.take C.keyDim)) := by
    unfold Reading.position Reading.arrange
    cases ρ.prepared <;> cases ρ.expanded <;> rfl
  have hkey : (ρ.position W x column).key =
      ρ.arrange W (reshapeHeads C.numKHeads C.headKDim ((column.drop C.keyDim).take C.keyDim)) := by
    unfold Reading.position Reading.arrange
    cases ρ.prepared <;> cases ρ.expanded <;> rfl
  have hrest : (ρ.position W x column).value =
        reshapeHeads C.numVHeads C.headVDim (column.drop (C.keyDim * 2)) ∧
      (ρ.position W x column).g = W.g ρ.scale x ∧ (ρ.position W x column).beta = W.beta x := by
    unfold Reading.position
    cases ρ.prepared <;> cases ρ.expanded <;> exact ⟨rfl, rfl, rfl⟩
  have hlen : ∀ channels : List R, (reshapeHeads C.numKHeads C.headKDim channels).length = C.numKHeads := by
    intro channels
    rw [reshapeHeads, length_map, length_range]
  have hlengths : (ρ.position W x column).query.length = (ρ.arrange W
      (reshapeHeads C.numKHeads C.headKDim ((column.drop C.keyDim).take C.keyDim))).length := by
    rw [hquery, Reading.arrange, Reading.arrange, prepare_heads, prepare_heads]
    cases ρ.expanded
    · simp [reshapeHeads]
    · rw [if_pos rfl, if_pos rfl, C.length_expandHeads (by rw [length_map, hlen]),
        C.length_expandHeads (by rw [length_map, hlen])]
  have hheads : ∀ h ∈ range C.numVHeads,
      W.step (state.getD h W.zero)
        (if ρ.normed then W.l2norm ((ρ.position W x column).query.getD
          (h / (C.numVHeads / (ρ.position W x column).query.length)) [])
        else (ρ.position W x column).query.getD (h / (C.numVHeads / (ρ.position W x column).query.length)) [])
        (if ρ.normed then W.l2norm ((ρ.position W x column).key.getD
          (h / (C.numVHeads / (ρ.position W x column).query.length)) [])
        else (ρ.position W x column).key.getD (h / (C.numVHeads / (ρ.position W x column).query.length)) [])
        ((ρ.position W x column).value.getD h []) ((ρ.position W x column).g h) ((ρ.position W x column).beta h) =
      W.readHead ρ state x column h := by
    intro h hh
    have hin := mem_range.mp hh
    have hk := C.keyHead_lt ρ.expanded hin
    have hq : (ρ.position W x column).query.getD (h / (C.numVHeads / (ρ.position W x column).query.length)) [] =
        ρ.prepare W (queryOf C column (C.keyHead ρ.expanded h)) := by
      rw [hquery, getD_eq_getElem?_getD, getElem?_arrange (hlen _) hin, getElem?_reshapeHeads hk]
      rfl
    have hkeys : (ρ.position W x column).key.getD (h / (C.numVHeads / (ρ.position W x column).query.length)) [] =
        ρ.prepare W (keyOf C column (C.keyHead ρ.expanded h)) := by
      rw [hlengths, hkey, getD_eq_getElem?_getD, getElem?_arrange (hlen _) hin, getElem?_reshapeHeads hk]
      rfl
    rw [hq, hkeys, hrest.1, hrest.2.1, hrest.2.2]
    rfl
  have hmap := map_congr_left hheads
  rw [read, kernelStep]
  refine Prod.ext ?_ ?_
  · exact (congrArg (map (·.1)) hmap).trans (map_map ..)
  · exact (congrArg (map (·.2)) hmap).trans (map_map ..)

section Machine

variable {window : List (List R)}

/-- The window behind one more token and the column convolved there. -/
def convStep (window : List (List R)) (x : X) : List (List R) × X × List R :=
  let window := (window ++ [W.mixedQkv x]).rtake C.convKernelSize
  (window, x, W.tap window)

def coreStep (ρ : Reading R) (state : List S) (p : X × List R) : List S × Y :=
  let core := W.read ρ state p.1 p.2
  (core.1, W.output p.1 core.2)

def tokenStep (ρ : Reading R) : List (List R) × List S → X → (List (List R) × List S) × Y :=
  Cascade.comp W.convStep (W.coreStep ρ)

def convolved (window : List (List R)) (xs : List X) : List (List R) :=
  slide (C.convKernelSize - 1) W.tap ((window ++ xs.map W.mixedQkv).drop 1)

def windowAfter (window : List (List R)) (xs : List X) : List (List R) :=
  (window ++ xs.map W.mixedQkv).rtake C.convKernelSize

variable {W}

omit [Zero R] [Add R] [Mul R] in
theorem length_windowAfter (hw : window.length = C.convKernelSize) (xs : List X) :
    (W.windowAfter window xs).length = C.convKernelSize := by
  simp only [windowAfter, rtake, length_drop, length_append, length_map]
  omega

omit [Zero R] [Add R] [Mul R] in
theorem windowAfter_nil (hw : window.length = C.convKernelSize) :
    W.windowAfter window [] = window := by
  simp [windowAfter, rtake, hw]

theorem length_convolved (hw : window.length = C.convKernelSize) (xs : List X) :
    (W.convolved window xs).length = xs.length := by
  have hpos := C.convKernelSize_pos
  simp only [convolved, slide_length, length_drop, length_append, length_map]
  omega

omit [Zero R] [Add R] [Mul R] in
theorem windowAfter_singleton (hw : window.length = C.convKernelSize) (x : X) :
    W.windowAfter window [x] = window.drop 1 ++ [W.mixedQkv x] := by
  have hpos := C.convKernelSize_pos
  rw [windowAfter, rtake, map_singleton, length_append, hw, length_singleton,
    Nat.add_sub_cancel_left, drop_append_of_le_length (by omega)]

omit [Zero R] [Add R] [Mul R] in
theorem windowAfter_cons (x : X) (xs : List X) :
    W.windowAfter window (x :: xs) = W.windowAfter (W.windowAfter window [x]) xs := by
  rw [windowAfter, windowAfter, windowAfter, rtake_append_rtake, map_singleton, append_assoc]
  rfl

theorem convolved_cons (hw : window.length = C.convKernelSize) (x : X) (xs : List X) :
    W.convolved window (x :: xs) =
      W.tap (W.windowAfter window [x]) :: W.convolved (W.windowAfter window [x]) xs := by
  have hpos := C.convKernelSize_pos
  have hcut : (window ++ (x :: xs).map W.mixedQkv).drop 1 = W.windowAfter window [x] ++ xs.map W.mixedQkv := by
    rw [drop_append_of_le_length (by omega), windowAfter_singleton hw, append_assoc]
    rfl
  have hlen : (W.windowAfter window [x]).length = C.convKernelSize := length_windowAfter hw [x]
  rw [convolved, hcut, slide_succ (by rw [length_append]; omega), Nat.sub_add_cancel hpos,
    take_left' hlen, convolved]

/-- The columns of the machine are those of the whole list. -/
theorem run_convStep (hw : window.length = C.convKernelSize) (xs : List X) :
    Cascade.run W.convStep window xs = (W.windowAfter window xs, xs.zip (W.convolved window xs)) := by
  induction xs generalizing window with
  | nil => rw [windowAfter_nil hw]; rfl
  | cons x xs ih =>
    have hstep : W.convStep window x = (W.windowAfter window [x], x, W.tap (W.windowAfter window [x])) := rfl
    rw [Cascade.run_cons, hstep, ih (length_windowAfter hw _), ← windowAfter_cons, convolved_cons hw,
      zip_cons_cons]

theorem run_coreStep (ρ : Reading R) (state : List S) (xs : List X) (columns : List (List R)) :
    Cascade.run (W.coreStep ρ) state (xs.zip columns) =
      ((W.kernel ρ.normed state (zipWith (ρ.position W) xs columns)).1,
        zipWith W.output xs (W.kernel ρ.normed state (zipWith (ρ.position W) xs columns)).2) := by
  induction xs generalizing state columns with
  | nil => rfl
  | cons x xs ih =>
    cases columns with
    | nil => rfl
    | cons column columns =>
      rw [zip_cons_cons, Cascade.run_cons, ih]
      rfl

theorem run_tokenStep (ρ : Reading R) (hw : window.length = C.convKernelSize)
    (state : List S) (xs : List X) :
    Cascade.run (W.tokenStep ρ) (window, state) xs =
      ((W.windowAfter window xs,
        (W.kernel ρ.normed state (zipWith (ρ.position W) xs (W.convolved window xs))).1),
        zipWith W.output xs
          (W.kernel ρ.normed state (zipWith (ρ.position W) xs (W.convolved window xs))).2) := by
  rw [tokenStep, Cascade.run_comp, run_convStep hw, run_coreStep]

end Machine

section Paths

variable {W} {window : List (List R)} {xs : List X}

theorem conv1dWindow_zero (columns : List (List R)) :
    W.conv1dWindow 0 columns = slide (C.convKernelSize - 1) W.tap columns := by
  simp [conv1dWindow]

theorem lastColumns_eq_drop {α : Type} {n : ℕ} {ys : List α} (hn : 0 < n) :
    lastColumns n ys = ys.drop (ys.length - n) := by
  rw [lastColumns, if_neg (by omega), rtake]

/-- A continuation convolves the window and the new columns, and drops the output of the window itself. -/
theorem convContinue_eq (hw : window.length = C.convKernelSize) (hxs : xs ≠ []) :
    W.convContinue window (xs.map W.mixedQkv) = W.convolved window xs := by
  have hpos := C.convKernelSize_pos
  have hlen := length_pos_iff.mpr hxs
  have hcount : (slide (C.convKernelSize - 1) W.tap (window ++ xs.map W.mixedQkv)).length -
      (xs.map W.mixedQkv).length = 1 := by
    simp only [slide_length, length_append, length_map]
    omega
  rw [convContinue, conv1dWindow_zero, lastColumns_eq_drop (by rw [length_map]; exact hlen), hcount,
    slide_drop, convolved]

omit [Zero R] [Add R] [Mul R] in
theorem lastColumns_window (hw : window.length = C.convKernelSize) (xs : List X) :
    lastColumns window.length (window ++ xs.map W.mixedQkv) = W.windowAfter window xs := by
  rw [hw, lastColumns, if_neg (ne_of_gt C.convKernelSize_pos), windowAfter]

theorem conv1dCausal_eq (columns : List (List R)) :
    W.conv1dCausal columns = slide (C.convKernelSize - 1) W.tap
      (replicate (C.convKernelSize - 1) (zeroColumn (C := C)) ++ columns) := by
  have hcut : (replicate (C.convKernelSize - 1) (zeroColumn (C := C)) ++ columns ++
      replicate (C.convKernelSize - 1) (zeroColumn (C := C))).take
        (columns.length + (C.convKernelSize - 1)) =
      replicate (C.convKernelSize - 1) (zeroColumn (C := C)) ++ columns := by
    apply take_left'
    rw [length_append, length_replicate, Nat.add_comm]
  rw [conv1dCausal, conv1dWindow, slide_take, hcut]

theorem convExtend_first (convState : List (List R)) :
    W.convExtend false convState (xs.map W.mixedQkv) =
      (W.convolved (zeroWindow C) xs, W.windowAfter (zeroWindow C) xs) := by
  have hpos := C.convKernelSize_pos
  have hdrop : (zeroWindow C ++ xs.map W.mixedQkv).drop 1 =
      replicate (C.convKernelSize - 1) (zeroColumn (C := C)) ++ xs.map W.mixedQkv := by
    rw [drop_append_of_le_length (by rw [length_zeroWindow]; exact hpos), zeroWindow, drop_replicate]
  have hpad : padLeft (C := C) (xs.map W.mixedQkv) = W.windowAfter (zeroWindow C) xs := by
    rw [windowAfter, rtake, length_append, length_zeroWindow, Nat.add_sub_cancel_left, padLeft]
    split
    case isTrue hshort =>
      rw [drop_append_of_le_length (by rw [length_zeroWindow]; exact hshort), zeroWindow, drop_replicate]
    case isFalse hlong =>
      have hzeros : (zeroWindow C : List (List R)).drop (xs.map W.mixedQkv).length = [] :=
        drop_of_length_le (by rw [length_zeroWindow]; omega)
      rw [drop_append, hzeros, length_zeroWindow, nil_append]
  rw [convolved, hdrop, ← conv1dCausal_eq, ← hpad]
  rfl

/-- A further chunk is convolved behind zeros and the window, whose outputs are dropped again. -/
theorem convExtend_next (hw : window.length = C.convKernelSize) (hxs : xs ≠ []) :
    W.convExtend true window (xs.map W.mixedQkv) = (W.convolved window xs, W.windowAfter window xs) := by
  have hpos := C.convKernelSize_pos
  have hlen := length_pos_iff.mpr hxs
  have hpad : padLeft (C := C) (window ++ xs.map W.mixedQkv) = W.windowAfter window xs := by
    rw [padLeft, if_neg (by rw [length_append, length_map]; omega), windowAfter, rtake]
  have hcolumns : lastColumns xs.length (W.conv1dCausal (window ++ xs.map W.mixedQkv)) = W.convolved window xs := by
    have hskip : (W.conv1dCausal (window ++ xs.map W.mixedQkv)).length - xs.length = C.convKernelSize - 1 + 1 := by
      simp only [conv1dCausal_eq, slide_length, length_append, length_replicate, length_map]
      omega
    rw [lastColumns_eq_drop hlen, hskip, conv1dCausal_eq, slide_drop, ← drop_drop,
      drop_left' length_replicate, convolved]
  rw [convExtend]
  simp only [if_true, length_map, hpad, hcolumns]

variable {ρ : Reading R}

/-- Normalising and expanding position by position. -/
theorem positions_eq (columns : List (List R)) :
    zipWith (ρ.position W) xs columns =
      let ps := zipWith (W.position ρ.scale) xs columns
      let ps := if ρ.prepared then ps.map W.prefillL2norm else ps
      if ρ.expanded then ps.map (expandGdnQueryKeyHeads (C := C)) else ps := by
  have hfun : ρ.position W = fun x column =>
      let p := W.position ρ.scale x column
      let p := if ρ.prepared then W.prefillL2norm p else p
      if ρ.expanded then expandGdnQueryKeyHeads (C := C) p else p := rfl
  rw [hfun]
  cases ρ.prepared <;> cases ρ.expanded <;> simp [map_zipWith]

omit [Zero R] [Add R] [Mul R] [InvolutiveNeg R] in
/-- Where a key head has one value head there is nothing to expand. -/
theorem expand_guard (ps : List (Position R)) :
    (if 1 < C.headRepeat then ps.map (expandGdnQueryKeyHeads (C := C)) else ps) =
      ps.map (expandGdnQueryKeyHeads (C := C)) := by
  split
  case isTrue => rfl
  case isFalse h =>
    have hone : C.headRepeat = 1 := le_antisymm (not_lt.mp h) C.headRepeat_pos
    have hid : (expandGdnQueryKeyHeads (C := C) : Position R → Position R) = id := by
      funext p
      simp [expandGdnQueryKeyHeads, GdnConfig.expandHeads, hone]
    rw [hid, map_id]

end Paths

end Weights

end GdnLayer
