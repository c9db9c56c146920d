import BlackweLLM.FlashNextPrefill
import BlackweLLM.FlashNextCommit

/-!
# Flash-Next prefills against a cold one

What the layers of a slot hold, position by position. A prefill reads the rows
below its first one and the recurrent states, and writes at its own positions
only. So a slot that holds what a cold prefill of the first rows leaves goes on
to hold what a cold prefill of more rows leaves.
-/

namespace FlashNext

open List Function

variable {V : Type} {M : Model V} {given : Bool} {n q : ℕ}

/-- A position of a QSA layer: the K/V row, the raw index row and the group that the position completes. -/
structure RowHolds (M : Model V) (given : Bool) (q : ℕ) (c c' : AttnState V) : Prop where
  kv : c.kvPool q = c'.kvPool q
  idxK : c.idxKPool (q % M.indexRows) = c'.idxKPool (q % M.indexRows)
  idxRope : given → c.idxRopePool (q % M.indexRows) = c'.idxRopePool (q % M.indexRows)
  pooled : (q + 1) % compressRatio = 0 → c.pooledKPool (q / compressRatio) = c'.pooledKPool (q / compressRatio)

section Rows

variable {c c' c'' : AttnState V} {L : Layer V} {Q : Qsa V} {r : Row V × V}

theorem RowHolds.refl (q : ℕ) (c : AttnState V) : RowHolds M given q c c := ⟨rfl, rfl, fun _ => rfl, fun _ => rfl⟩

theorem RowHolds.symm (h : RowHolds M given q c c') : RowHolds M given q c' c :=
  ⟨h.kv.symm, h.idxK.symm, fun hg => (h.idxRope hg).symm, fun hq => (h.pooled hq).symm⟩

theorem RowHolds.trans (h : RowHolds M given q c c') (h' : RowHolds M given q c' c'') : RowHolds M given q c c'' :=
  ⟨h.kv.trans h'.kv, h.idxK.trans h'.idxK, fun hg => (h.idxRope hg).trans (h'.idxRope hg),
    fun hq => (h.pooled hq).trans (h'.pooled hq)⟩

theorem RowHolds.of_true (h : RowHolds M true q c c') : RowHolds M given q c c' :=
  ⟨h.kv, h.idxK, fun _ => h.idxRope rfl, h.pooled⟩

theorem attendRow_of_rows (hr : r.1.position = n) (h : ∀ q < n + 1, RowHolds M given q c c') :
    attendRow Q c r = attendRow Q c' r := by
  have hpooled : (range (ends r.1.position)).map c.pooledKPool = (range (ends r.1.position)).map c'.pooledKPool := by
    refine map_congr_left fun group hgroup => ?_
    rw [mem_range, ends_eq, hr] at hgroup
    unfold compressRatio at hgroup
    have hrow := (h (group * 4 + 3) (by omega)).pooled (by unfold compressRatio; omega)
    have hindex : (group * 4 + 3) / compressRatio = group := by
      unfold compressRatio
      omega
    rwa [hindex] at hrow
  have hkv : (range (r.1.position + 1)).map c.kvPool = (range (r.1.position + 1)).map c'.kvPool := by
    refine map_congr_left fun q hq => (h q ?_).kv
    rwa [mem_range, hr] at hq
  rw [attendRow, hpooled, hkv, attendRow]

theorem prefillQsaStep_gdn (c : AttnState V) (r : Row V × V) : (prefillQsaStep M given L Q c r).1.gdn = c.gdn := by
  unfold prefillQsaStep updateIndexCacheEager writeKv
  dsimp only
  split <;> rfl

theorem prefillQsaStep_frame (c : AttnState V) (r : Row V × V) (hne : q ≠ r.1.position) (hq : q < M.indexRows)
    (hr : r.1.position < M.indexRows) : RowHolds M true q (prefillQsaStep M given L Q c r).1 c := by
  have hcell : q % M.indexRows ≠ r.1.position % M.indexRows := by
    rwa [Nat.mod_eq_of_lt hq, Nat.mod_eq_of_lt hr]
  have hkey : ∀ value : V, update c.idxKPool (r.1.position % M.indexRows) value (q % M.indexRows) =
      c.idxKPool (q % M.indexRows) := fun value => update_of_ne hcell _ _
  unfold prefillQsaStep updateIndexCacheEager writeKv
  dsimp only
  constructor
  case kv => split <;> exact update_of_ne hne _ _
  case idxK => split <;> exact hkey _
  case idxRope =>
    intro _
    split <;> dsimp only <;> split
    · exact update_of_ne hcell _ _
    · rfl
    · exact update_of_ne hcell _ _
    · rfl
  case pooled =>
    intro hlast
    split
    case isTrue hend =>
      refine update_of_ne (fun heq => hne ?_) _ _
      unfold compressRatio at *
      omega
    case isFalse => rfl

/-- The rows below a position decide what is written there. -/
theorem prefillQsaStep_row (hr : r.1.position = n) (h : ∀ q < n, RowHolds M given q c c') :
    RowHolds M given n (prefillQsaStep M given L Q c r).1 (prefillQsaStep M given L Q c' r).1 := by
  have hkey : ∀ q < n + 1, update c.idxKPool (n % M.indexRows) (Q.ki r.1.rope r.2) (q % M.indexRows) =
      update c'.idxKPool (n % M.indexRows) (Q.ki r.1.rope r.2) (q % M.indexRows) := by
    refine fun q hq => update_congr fun hcell => (h q ?_).idxK
    have hne : q ≠ n := fun heq => hcell (by rw [heq])
    omega
  have hrope : given → ∀ q < n + 1, update c.idxRopePool (n % M.indexRows) r.1.rope (q % M.indexRows) =
      update c'.idxRopePool (n % M.indexRows) r.1.rope (q % M.indexRows) := by
    refine fun hg q hq => update_congr fun hcell => (h q ?_).idxRope hg
    have hne : q ≠ n := fun heq => hcell (by rw [heq])
    omega
  have hkv : ∀ d : AttnState V, (writeKv Q d [r]).kvPool n = Q.kv r.1.rope r.2 := by
    intro d
    rw [← hr]
    exact update_self _ _ _
  unfold prefillQsaStep updateIndexCacheEager
  rw [hr]
  dsimp only
  by_cases hlast : (n + 1) % compressRatio = 0
  · simp only [if_pos hlast]
    constructor
    case kv => exact (hkv _).trans (hkv _).symm
    case idxK => exact hkey n (Nat.lt_succ_self n)
    case idxRope =>
      intro hg
      simp only [writeKv, hg, if_true]
      exact hrope hg n (Nat.lt_succ_self n)
    case pooled =>
      intro _
      have hkeys : (range compressRatio).map (fun offset => update c.idxKPool (n % M.indexRows)
            (Q.ki r.1.rope r.2) ((n / compressRatio * compressRatio + offset) % M.indexRows)) =
          (range compressRatio).map (fun offset => update c'.idxKPool (n % M.indexRows)
            (Q.ki r.1.rope r.2) ((n / compressRatio * compressRatio + offset) % M.indexRows)) := by
        refine map_congr_left fun offset hoffset => hkey _ ?_
        rw [mem_range] at hoffset
        unfold compressRatio at *
        omega
      have hfirst : n / compressRatio * compressRatio < n + 1 := Nat.lt_succ_of_le (Nat.div_mul_le_self n compressRatio)
      dsimp only [writeKv]
      rw [update_self, update_self, hkeys]
      by_cases hg : given = true
      · simp only [hg, if_true, hrope hg _ hfirst]
      · rw [if_neg hg, if_neg hg]
  · simp only [if_neg hlast]
    constructor
    case kv => exact (hkv _).trans (hkv _).symm
    case idxK => exact hkey n (Nat.lt_succ_self n)
    case idxRope =>
      intro hg
      simp only [writeKv, hg, if_true]
      exact hrope hg n (Nat.lt_succ_self n)
    case pooled => exact fun hq => absurd hq hlast

theorem prefillQsaStep_congr (hr : r.1.position = n) (hn : n < M.indexRows) (h : ∀ q < n, RowHolds M given q c c') :
    (prefillQsaStep M given L Q c r).2 = (prefillQsaStep M given L Q c' r).2 ∧
      ∀ q < n + 1, RowHolds M given q (prefillQsaStep M given L Q c r).1 (prefillQsaStep M given L Q c' r).1 := by
  have hrows : ∀ q < n + 1,
      RowHolds M given q (prefillQsaStep M given L Q c r).1 (prefillQsaStep M given L Q c' r).1 := by
    intro q hq
    by_cases hqn : q = n
    · rw [hqn]
      exact prefillQsaStep_row hr h
    · have hframe : ∀ c, RowHolds M true q (prefillQsaStep M given L Q c r).1 c := fun c =>
        prefillQsaStep_frame c r (by omega) (by omega) (by omega)
      exact (hframe c).of_true.trans ((h q (by omega)).trans (hframe c').of_true.symm)
  refine ⟨?_, hrows⟩
  change (r.1, L.combine r.2 (attendRow Q (prefillQsaStep M given L Q c r).1 r)) =
    (r.1, L.combine r.2 (attendRow Q (prefillQsaStep M given L Q c' r).1 r))
  rw [attendRow_of_rows hr hrows]

end Rows

section Layers

variable {L : Layer V} {c c' c'' : LayerState V} {r : Row V × V}

def QsaRow (M : Model V) (given : Bool) (q : ℕ) (L : Layer V) (c c' : LayerState V) : Prop :=
  ∀ Q, L.attn = .qsa Q → RowHolds M given q c.2 c'.2

/-- What the next prefill row reads of a layer that holds `n` rows. -/
structure LayerWarm (M : Model V) (given : Bool) (n : ℕ) (L : Layer V) (c c' : LayerState V) : Prop where
  ple : c.1 = c'.1
  gdn : c.2.gdn = c'.2.gdn
  rows : ∀ q < n, QsaRow M given q L c c'

theorem prefillAttnStep_row (c : AttnState V) (r : Row V × V) : (prefillAttnStep M given L c r).2.1 = r.1 := by
  unfold prefillAttnStep
  cases L.attn <;> rfl

theorem prefillLayer_row (c : LayerState V) (r : Row V × V) : (prefillLayer M given L c r).2.1 = r.1 := by
  simp only [prefillLayer, Cascade.comp, prefillAttnStep_row, pleStep_row]

theorem prefillLayer_frame (c : LayerState V) (r : Row V × V) (hne : q ≠ r.1.position) (hq : q < M.indexRows)
    (hr : r.1.position < M.indexRows) : QsaRow M true q L (prefillLayer M given L c r).1 c := by
  intro Q hQ
  have hrow : (pleStep L c.1 r).2.1 = r.1 := pleStep_row c.1 r
  simp only [prefillLayer, Cascade.comp, prefillAttnStep, hQ]
  exact prefillQsaStep_frame c.2 _ (hrow ▸ hne) hq (hrow ▸ hr)

theorem prefillLayer_congr (hr : r.1.position = n) (hn : n < M.indexRows) (h : LayerWarm M given n L c c') :
    (prefillLayer M given L c r).2 = (prefillLayer M given L c' r).2 ∧
      LayerWarm M given (n + 1) L (prefillLayer M given L c r).1 (prefillLayer M given L c' r).1 := by
  have hrow : (pleStep L c'.1 r).2.1.position = n := by rw [pleStep_row, hr]
  have hrows := h.rows
  unfold QsaRow at hrows
  unfold prefillLayer Cascade.comp prefillAttnStep
  dsimp only
  rw [h.ple]
  cases hattn : L.attn with
  | gdn G =>
    dsimp only [gdnStep]
    rw [h.gdn]
    exact ⟨rfl, rfl, rfl, fun q _ Q hQ => by rw [hattn] at hQ; cases hQ⟩
  | qsa Q =>
    obtain ⟨hout, hnext⟩ := prefillQsaStep_congr (L := L) (Q := Q) hrow hn fun q hq => hrows q hq Q hattn
    refine ⟨hout, rfl, ?_, fun q hq Q' hQ' => ?_⟩
    · have hgdn : ∀ d : AttnState V, (prefillQsaStep M given L Q d (pleStep L c'.1 r).2).1.gdn = d.gdn := fun d =>
        prefillQsaStep_gdn d _
      exact (hgdn c.2).trans (h.gdn.trans (hgdn c'.2).symm)
    obtain rfl : Q = Q' := by
      rw [hattn] at hQ'
      exact Attention.qsa.inj hQ'
    exact hnext q hq

theorem QsaRow.trans (h : QsaRow M given q L c c') (h' : QsaRow M given q L c' c'') : QsaRow M given q L c c'' :=
  fun Q hQ => (h Q hQ).trans (h' Q hQ)

theorem QsaRow.of_true (h : QsaRow M true q L c c') : QsaRow M given q L c c' := fun Q hQ => (h Q hQ).of_true

end Layers

section Rows

variable {cs cs' cs'' : List (LayerState V)} {rows : List (Row V × V)}

def RowsAt (M : Model V) (given : Bool) (q : ℕ) (cs cs' : List (LayerState V)) : Prop :=
  Cascade.Layered (QsaRow M given q) M.layers cs cs'

theorem RowsAt.trans (h : RowsAt M given q cs cs') (h' : RowsAt M given q cs' cs'') : RowsAt M given q cs cs'' :=
  Cascade.Layered.comp h h' fun _ _ _ _ => QsaRow.trans

theorem RowsAt.of_true (h : RowsAt M true q cs cs') : RowsAt M given q cs cs' :=
  Cascade.Layered.mono h fun _ _ _ => QsaRow.of_true

theorem RowsAt.symm (h : RowsAt M given q cs cs') : RowsAt M given q cs' cs := by
  unfold RowsAt at *
  generalize M.layers = Ls at h ⊢
  induction Ls, cs, cs' using Cascade.Layered.induct with
  | case1 => exact trivial
  | case2 L Ls c cs c' cs' ih => exact ⟨fun Q hQ => (h.1 Q hQ).symm, ih h.2⟩
  | case3 Ls cs cs' h₁ h₂ => simp [Cascade.Layered] at h

theorem Consecutive.head {r : Row V × V} (h : Consecutive n (r :: rows)) : r.1.position = n :=
  h 0 (Nat.succ_pos _)

theorem Consecutive.tail {r : Row V × V} (h : Consecutive n (r :: rows)) : Consecutive (n + 1) rows := by
  intro i hi
  have hrow := h (i + 1) (Nat.succ_lt_succ hi)
  rw [getElem_cons_succ] at hrow
  omega

/-- Layers that hold the same rows go through the next rows alike. -/
theorem prefillRun_congr (hrows : Consecutive n rows) (hfits : n + rows.length ≤ M.indexRows)
    (h : Cascade.Layered (LayerWarm M given n) M.layers cs cs') :
    (Cascade.run (Cascade.through (prefillLayer M given) M.layers) cs rows).2 =
        (Cascade.run (Cascade.through (prefillLayer M given) M.layers) cs' rows).2 ∧
      Cascade.Layered (LayerWarm M given (n + rows.length)) M.layers
        (Cascade.run (Cascade.through (prefillLayer M given) M.layers) cs rows).1
        (Cascade.run (Cascade.through (prefillLayer M given) M.layers) cs' rows).1 := by
  induction rows generalizing n cs cs' with
  | nil => exact ⟨rfl, h⟩
  | cons r rows ih =>
    rw [length_cons] at hfits
    have hstep : ∀ (L : Layer V) (c c' : LayerState V) (r : Row V × V), LayerWarm M given n L c c' → r.1.position = n →
        (prefillLayer M given L c r).2 = (prefillLayer M given L c' r).2 ∧ (prefillLayer M given L c r).2.1.position = n ∧
          LayerWarm M given (n + 1) L (prefillLayer M given L c r).1 (prefillLayer M given L c' r).1 := by
      intro L c c' r hwarm hr
      obtain ⟨hout, hnext⟩ := prefillLayer_congr hr (by omega) hwarm
      exact ⟨hout, by rw [prefillLayer_row, hr], hnext⟩
    obtain ⟨hout, hnext⟩ := Cascade.through_congr (P := fun r : Row V × V => r.1.position = n) hstep h hrows.head
    obtain ⟨hrest, hwarm⟩ := ih hrows.tail (by omega) hnext
    rw [Cascade.run_cons, Cascade.run_cons, hout, hrest, length_cons, add_comm rows.length, ← add_assoc]
    exact ⟨rfl, hwarm⟩

theorem prefillRun_frame (hrows : Consecutive n rows) (hfits : n + rows.length ≤ M.indexRows)
    (hlen : cs.length = M.layers.length) (hq : q < M.indexRows) (hout : q < n ∨ n + rows.length ≤ q) :
    RowsAt M true q (Cascade.run (Cascade.through (prefillLayer M given) M.layers) cs rows).1 cs := by
  induction rows generalizing n cs with
  | nil => exact Cascade.Layered.refl (fun _ _ _ _ => RowHolds.refl _ _) hlen
  | cons r rows ih =>
    rw [length_cons] at hfits hout
    have hfirst : RowsAt M true q (Cascade.through (prefillLayer M given) M.layers cs r).1 cs :=
      Cascade.through_frame (P := fun r : Row V × V => r.1.position = n) (fun L c r hr => ⟨by rw [prefillLayer_row, hr],
        prefillLayer_frame c r (by omega) hq (by omega)⟩) hlen hrows.head
    exact (ih hrows.tail (by omega) (Cascade.Layered.length hfirst).1 (by omega)).trans hfirst

end Rows

section Cold

variable {X Y Z W : List (Input V)} {s : Session M}

theorem prefillRows_consecutive (M : Model V) (history : List ℕ) (pos : ℕ) (chunk : List (Input V)) :
    Consecutive pos (prefillRows M history pos chunk) := by
  intro i hi
  simp [prefillRows]

theorem prefillRows_append (history : List ℕ) (pos : ℕ) (X Y : List (Input V)) :
    prefillRows M history pos (X ++ Y) =
      prefillRows M history pos X ++ prefillRows M (history ++ X.map Input.token) (pos + X.length) Y := by
  unfold prefillRows
  rw [mapIdx_append]
  congr 1
  · refine ext_getElem (by simp) fun i hi hi' => ?_
    have hlt : i < X.length := by simpa using hi'
    simp only [getElem_mapIdx, take_append_of_le_length (Nat.succ_le_of_lt hlt)]
  · refine ext_getElem (by simp) fun i hi hi' => ?_
    have hindex : i + X.length + 1 - X.length = i + 1 := by omega
    have hpos : pos + (i + X.length) = pos + X.length + i := by omega
    simp only [getElem_mapIdx, take_append, hindex, hpos, map_append,
      take_of_length_le (show X.length ≤ i + X.length + 1 by omega), append_assoc]

/-- A history that serves the n-grams of later tokens as well as another. -/
def Follows (M : Model V) (history front : List ℕ) : Prop :=
  ∀ later, later ≠ [] →
    ngram M.eosTokenId M.ngramSize (history ++ later) = ngram M.eosTokenId M.ngramSize (front ++ later)

theorem prefillRows_follows {history front : List ℕ} (h : Follows M history front) (pos : ℕ) (X : List (Input V)) :
    prefillRows M history pos X = prefillRows M front pos X := by
  refine ext_getElem (by simp [prefillRows]) fun i hi hi' => ?_
  have hlt : i < X.length := by simpa [prefillRows] using hi
  have hne : (X.take (i + 1)).map Input.token ≠ [] := by
    refine ne_nil_of_length_pos ?_
    rw [length_map, length_take]
    omega
  simp only [prefillRows, getElem_mapIdx, h _ hne]

/-- Layers that nothing has been written to. -/
def coldLayers (M : Model V) : List (LayerState V) :=
  M.layers.map fun _ => (M.zero, ⟨M.zero, fun _ => M.zero, fun _ => M.zero, fun _ => axes 0, fun _ => M.zero⟩)

def cold (M : Model V) (given : Bool) (X : List (Input V)) : List (LayerState V) × List (Row V × V) :=
  Cascade.run (Cascade.through (prefillLayer M given) M.layers) (coldLayers M) (prefillRows M [] 0 X)

/-- The hidden rows that a cold prefill gives, with their positions. -/
def coldHidden (M : Model V) (given : Bool) (X : List (Input V)) : List (ℕ × V) :=
  ((cold M given X).2.map Prod.snd).mapIdx fun i row => (i, row)

theorem cold_append (given : Bool) (X Y : List (Input V)) :
    cold M given (X ++ Y) =
      ((Cascade.run (Cascade.through (prefillLayer M given) M.layers) (cold M given X).1
          (prefillRows M (X.map Input.token) X.length Y)).1,
        (cold M given X).2 ++ (Cascade.run (Cascade.through (prefillLayer M given) M.layers) (cold M given X).1
          (prefillRows M (X.map Input.token) X.length Y)).2) := by
  rw [cold, prefillRows_append, Cascade.run_append, nil_append, zero_add]
  rfl

theorem prefillRun_length {cs : List (LayerState V)} {rows : List (Row V × V)} (h : cs.length = M.layers.length) :
    (Cascade.run (Cascade.through (prefillLayer M given) M.layers) cs rows).1.length = M.layers.length := by
  induction rows generalizing cs with
  | nil => exact h
  | cons r rows ih =>
    have hfirst : Cascade.Layered (fun _ _ _ => True) M.layers
        (Cascade.through (prefillLayer M given) M.layers cs r).1 cs :=
      Cascade.through_frame (P := fun _ : Row V × V => True) (fun _ _ _ _ => ⟨trivial, trivial⟩) h trivial
    exact ih hfirst.length.1

@[simp] theorem cold_length (M : Model V) (given : Bool) (X : List (Input V)) :
    (cold M given X).1.length = M.layers.length :=
  prefillRun_length (length_map _)

@[simp] theorem cold_rows_length (M : Model V) (given : Bool) (X : List (Input V)) :
    (cold M given X).2.length = X.length := by
  simp [cold, prefillRows]

@[simp] theorem coldHidden_length (M : Model V) (given : Bool) (X : List (Input V)) :
    (coldHidden M given X).length = X.length := by
  simp [coldHidden]

/-- A position of a cold prefill does not depend on what follows it. -/
theorem cold_stable (hfits : (X ++ Y).length ≤ M.indexRows) (hq : q < X.length) :
    RowsAt M given q (cold M given (X ++ Y)).1 (cold M given X).1 := by
  rw [length_append] at hfits
  rw [cold_append]
  refine (prefillRun_frame (prefillRows_consecutive M _ _ Y) ?_ (cold_length M given X) (by omega) (.inl hq)).of_true
  rwa [prefillRows_length]

theorem coldHidden_stable (given : Bool) (X Y : List (Input V)) :
    (coldHidden M given (X ++ Y)).take X.length = coldHidden M given X := by
  rw [coldHidden, cold_append, map_append, mapIdx_append, take_append_of_le_length (by simp)]
  exact take_of_length_le (by simp)

/-- A session that went through the rows `X`. -/
structure Warm (M : Model V) (given : Bool) (X : List (Input V)) (s : Session M) : Prop where
  pos : s.pos = X.length
  window : s.window.1 = (X.map Input.token).rtake M.ngramSize
  layers : Cascade.Layered (LayerWarm M given X.length) M.layers s.layers (cold M given X).1

theorem startLayers_of_cold {cs : List (LayerState V)}
    (h : Cascade.Layered (LayerWarm M given 0) M.layers cs (coldLayers M)) : startLayers M 0 cs = cs := by
  rw [startLayers, if_pos rfl]
  unfold coldLayers at h
  generalize M.layers = Ls at h
  induction Ls generalizing cs with
  | nil =>
    cases cs with
    | nil => rfl
    | cons c cs => cases h
  | cons L Ls ih =>
    cases cs with
    | nil => cases h
    | cons c cs =>
      have hgdn : c.2.gdn = M.zero := h.1.gdn
      rw [map_cons, ih h.2, ← hgdn]

theorem Warm.startLayers (h : Warm M given X s) : startLayers M s.pos s.layers = s.layers := by
  by_cases hX : X = []
  · have hlayers := h.layers
    subst hX
    rw [h.pos]
    exact startLayers_of_cold hlayers
  · have hne : s.pos ≠ 0 := by
      rw [h.pos]
      exact fun heq => hX (length_eq_zero_iff.mp heq)
    rw [FlashNext.startLayers, if_neg hne]

/-- The next rows find a warm session as they find a cold prefill, and leave it so. -/
theorem Warm.prefill (h : Warm M given X s) {history : List ℕ} (hhistory : Follows M history (X.map Input.token))
    (hfits : (X ++ Y).length ≤ M.indexRows) (ropeNext : Option ℕ) :
    Warm M given (X ++ Y) (prefillSession given ropeNext history Y s).1 ∧
      (prefillSession given ropeNext history Y s).2.2 = (coldHidden M given (X ++ Y)).drop X.length := by
  rw [length_append] at hfits
  have hconsecutive := prefillRows_consecutive M (X.map Input.token) X.length Y
  obtain ⟨hout, hlayers⟩ := prefillRun_congr hconsecutive (by rwa [prefillRows_length]) h.layers
  rw [prefillRows_length] at hlayers
  have hdone : Cascade.run (Cascade.through (prefillLayer M given) M.layers) (FlashNext.startLayers M s.pos s.layers)
      (prefillRows M history s.pos Y) = Cascade.run (Cascade.through (prefillLayer M given) M.layers) s.layers
        (prefillRows M (X.map Input.token) X.length Y) := by
    rw [h.startLayers, prefillRows_follows hhistory, h.pos]
  constructor
  · constructor
    · change s.pos + Y.length = _
      rw [h.pos, length_append]
    · change (s.window.1 ++ Y.map Input.token).rtake M.ngramSize = _
      rw [h.window, SlidingWindow.rtake_append_rtake, map_append]
    · change Cascade.Layered _ _ (Cascade.run _ (FlashNext.startLayers M s.pos s.layers)
        (prefillRows M history s.pos Y)).1 _
      rw [hdone, cold_append, length_append]
      exact hlayers
  · change ((Cascade.run _ (FlashNext.startLayers M s.pos s.layers)
      (prefillRows M history s.pos Y)).2.map Prod.snd).mapIdx (fun i row => (s.pos + i, row)) = _
    rw [hdone, hout, coldHidden, cold_append, map_append, mapIdx_append, drop_append_of_le_length (by simp),
      drop_of_length_le (by simp), nil_append, h.pos]
    refine ext_getElem (by simp) fun i hi hi' => ?_
    simp [add_comm]

/-- The rows of a prefix, as a cold prefill of the prefix leaves them. -/
def PoolsHold (M : Model V) (given : Bool) (Z : List (Input V)) (cs : List (LayerState V)) : Prop :=
  ∀ q < Z.length, RowsAt M given q cs (cold M given Z).1

theorem Warm.pools (h : Warm M given X s) : PoolsHold M given X s.layers :=
  fun q hq => h.layers.mono fun _ _ _ hwarm => hwarm.rows q hq

/-- A prefill of rows that extend a prefix, or start behind it, keeps the prefix. -/
theorem PoolsHold.prefill {kept : Bool} (hpools : PoolsHold M kept Z s.layers) (h : Warm M given X s) {history : List ℕ}
    (hhistory : Follows M history (X.map Input.token)) (ropeNext : Option ℕ) (hpre : X ++ Y <+: W)
    (hfits : W.length ≤ M.indexRows) (hZ : Z.length ≤ X.length ∨ (kept = given ∧ Z <+: W)) :
    PoolsHold M kept Z (prefillSession given ropeNext history Y s).1.layers := by
  have hlen : (X ++ Y).length ≤ W.length := hpre.length_le
  have hwarm := (h.prefill hhistory (hlen.trans hfits) ropeNext).1.pools
  rw [length_append] at hlen
  have hframe : ∀ q, q < M.indexRows → (q < X.length ∨ X.length + Y.length ≤ q) →
      RowsAt M true q (prefillSession given ropeNext history Y s).1.layers s.layers := by
    intro q hq hout
    have hpos : s.pos + (prefillRows M history s.pos Y).length = X.length + Y.length := by
      rw [prefillRows_length, h.pos]
    have hrun : RowsAt M true q (Cascade.run (Cascade.through (prefillLayer M given) M.layers) s.layers
        (prefillRows M history s.pos Y)).1 s.layers :=
      prefillRun_frame (prefillRows_consecutive M history s.pos Y) (by omega) h.layers.length.1 hq
        (by rwa [hpos, h.pos])
    change RowsAt M true q (Cascade.run _ (FlashNext.startLayers M s.pos s.layers) (prefillRows M history s.pos Y)).1 _
    rwa [h.startLayers]
  intro q hq
  have hqW : q < W.length := by
    rcases hZ with hle | ⟨-, hle⟩
    · omega
    · exact hq.trans_le hle.length_le
  by_cases hin : X.length ≤ q ∧ q < X.length + Y.length
  · obtain ⟨rfl, hZW⟩ : kept = given ∧ Z <+: W := by
      rcases hZ with hle | h
      · omega
      · exact h
    obtain ⟨t, rfl⟩ := hpre
    obtain ⟨u, hu⟩ := hZW
    have hafter := hwarm q (by rw [length_append]; exact hin.2)
    have hdone : RowsAt M kept q (cold M kept (X ++ Y ++ t)).1 (cold M kept (X ++ Y)).1 :=
      cold_stable hfits (by rw [length_append]; exact hin.2)
    have hkept : RowsAt M kept q (cold M kept (Z ++ u)).1 (cold M kept Z).1 := cold_stable (by rwa [hu]) hq
    rw [hu] at hkept
    exact hafter.trans (hdone.symm.trans hkept)
  · exact ((hframe q (by omega) (by omega)).of_true).trans (hpools q hq)

end Cold

end FlashNext
