import BlackweLLM.LagunaPrefill

/-!
# What a Laguna forward keeps

A property `P` of the layers' inputs and a property `Q` of the stored rows, each
by layer and position. Where every layer carries `P` of its input and `Q` of the
rows it sees to `P` of its output, a forward over a chunk carries both from the
cache in front of the chunk to the cache behind it.
-/

namespace LagunaPrefill

open List Function LagunaChunks LagunaRing

variable {Tok X K : Type} {g : Geometry} {slot : Nat} {P : Nat → Nat → X → Prop} {Q : Nat → Nat → K → Prop}

/-- Every layer carries `P` and `Q` over the positions of `[start, stop)`; sliding windows begin at `floor` at
the earliest. -/
structure Carries (g : Geometry) (layers : List (Layer X K)) (P : Nat → Nat → X → Prop) (Q : Nat → Nat → K → Prop)
    (floor start stop : Nat) : Prop where
  store : ∀ l layer, layers[l]? = some layer → ∀ p, start ≤ p → p < stop → ∀ x, P l p x → Q l p (layer.store p x)
  full : ∀ l layer, layers[l]? = some layer → layer.attention = .full → ∀ p, start ≤ p → p < stop →
    ∀ x rows, P l p x → (∀ q, q ≤ p → Q l q (rows q)) → P (l + 1) p (layer.output p x ((range' 0 (p + 1)).map rows))
  sliding : ∀ l layer, layers[l]? = some layer → layer.attention = .sliding → ∀ p, start ≤ p → p < stop →
    ∀ x rows, P l p x → (∀ q, max floor (p + 1 - g.window) ≤ q → q ≤ p → Q l q (rows q)) →
      P (l + 1) p (layer.output p x
        ((range' (max floor (p + 1 - g.window)) (p + 1 - max floor (p + 1 - g.window))).map rows))

/-- The rows that a layer keeps in front of position `stop`: all of them, or the last `count` in its ring. -/
def Keeps (g : Geometry) (slot : Nat) (Q : Nat → Nat → K → Prop) (stop count l : Nat) (layer : Layer X K)
    (c : Cache K) : Prop :=
  (layer.attention = .full → ∀ p, p < stop → Q l p (c.full l p)) ∧
    (layer.attention = .sliding → ∀ p, p < stop → stop ≤ p + count → Q l p (c.ring l (g.ringCell slot p)))

def Holds (P : Nat → Nat → X → Prop) (start l : Nat) (xs : List X) : Prop :=
  ∀ i x, xs[i]? = some x → P l (start + i) x

variable {xs : List X}

theorem Holds.getLast {start l : Nat} (h : Holds P start l xs) (hne : 0 < xs.length) :
    ∃ x, xs.getLast? = some x ∧ P l (start + xs.length - 1) x := by
  have hlt : xs.length - 1 < xs.length := Nat.sub_lt hne one_pos
  refine ⟨xs[xs.length - 1], ?_, ?_⟩
  · rw [getLast?_eq_getElem?, getElem?_eq_getElem hlt]
  · rw [Nat.add_sub_assoc hne]
    exact h _ _ (getElem?_eq_getElem hlt)

variable {layers : List (Layer X K)} {layer : Layer X K} {c : Cache K}

theorem runFull_keeps {floor start l : Nat}
    (h : Carries g layers P Q floor start (start + xs.length)) (hlayer : layers[l]? = some layer)
    (hattention : layer.attention = .full) (hxs : Holds P start l xs) (hc : ∀ p, p < start → Q l p (c.full l p)) :
    Holds P start (l + 1) (runFull start l layer xs c).1 ∧
      ∀ p, p < start + xs.length → Q l p ((runFull start l layer xs c).2.full l p) := by
  generalize hrows : scatter (c.full l) (xs.mapIdx fun i x => (start + i, layer.store (start + i) x)) = rows
  have hQ : ∀ p, p < start + xs.length → Q l p (rows p) := by
    intro p hp
    subst hrows
    by_cases hlt : p < start
    · rw [scatter_mapIdx_of_ne _ _ (fun i x => layer.store (start + i) x) (fun i _ => by omega)]
      exact hc p hlt
    · obtain ⟨i, rfl⟩ := Nat.exists_eq_add_of_le (not_lt.mp hlt)
      have hi : i < xs.length := by omega
      rw [scatter_mapIdx _ _ (fun i x => layer.store (start + i) x) (fun i j _ _ h => Nat.add_left_cancel h) hi]
      exact h.store l layer hlayer _ (Nat.le_add_right _ _) hp _ (hxs i _ (getElem?_eq_getElem hi))
  constructor
  · intro i y hy
    simp only [runFull, hrows, getElem?_mapIdx, Option.map_eq_some_iff] at hy
    obtain ⟨x, hx, rfl⟩ := hy
    have hi := (List.getElem?_eq_some_iff.mp hx).1
    exact h.full l layer hlayer hattention _ (Nat.le_add_right _ _) (by omega) _ _ (hxs i x hx) fun q hq => hQ q (by omega)
  · intro p hp
    simp only [runFull, hrows, update_self]
    exact hQ p hp

/-- The context that `prefill_with_aux` and the ring rebuild give to a chunk. -/
structure Fits (g : Geometry) (context : ScratchContext) (overlap start length : Nat) : Prop where
  overlap_le : overlap ≤ start
  overlapCount : context.overlapCount = overlap
  overlapAbsStart : 0 < overlap → context.overlapAbsStart = start - overlap
  copyCount_le : context.copyCount ≤ g.window
  copyCount_le_total : context.copyCount ≤ overlap + length
  scratchCopyStart : context.scratchCopyStart = overlap + length - context.copyCount
  ringCopyAbsStart : context.ringCopyAbsStart = start + length - context.copyCount

variable {context : ScratchContext}

theorem runSliding_keeps {overlap start l : Nat} (hfits : Fits g context overlap start xs.length)
    (h : Carries g layers P Q (start - overlap) start (start + xs.length)) (hlayer : layers[l]? = some layer)
    (hattention : layer.attention = .sliding) (hxs : Holds P start l xs)
    (hc : ∀ p, p < start → start ≤ p + overlap → Q l p (c.ring l (g.ringCell slot p))) :
    Holds P start (l + 1) (runSliding g slot context start overlap l layer xs c).1 ∧
      ∀ p, p < start + xs.length → start + xs.length ≤ p + context.copyCount →
        Q l p ((runSliding g slot context start overlap l layer xs c).2.ring l (g.ringCell slot p)) := by
  obtain ⟨hle, hcount, habs, hcopy, hcopyTotal, hscratchStart, hringStart⟩ := hfits
  have hring := copied_ringToScratch g slot context.overlapAbsStart context.overlapCount (c.ring l) c.scratch
  generalize hbefore : copyRingToSharedScratch g slot
    (ringToScratchSlabs g context.overlapAbsStart context.overlapCount) (c.ring l) c.scratch = before at hring
  generalize hscratch : scatter before (xs.mapIdx fun i x => (g.scratchCell (overlap + i), layer.store (start + i) x)) = scratch
  -- the arena holds the positions from `start - overlap` on
  have hQ : ∀ t, t < overlap + xs.length → Q l (start - overlap + t) (scratch (g.scratchCell t)) := by
    intro t ht
    subst hscratch
    by_cases hlt : t < overlap
    · rw [scatter_mapIdx_of_ne _ _ (fun i x => layer.store (start + i) x) (fun i _ heq => by
        have := g.scratchCell_inj.mp heq
        omega)]
      rw [hring.copied t (Nat.zero_le _) (by omega), habs (by omega)]
      exact hc _ (by omega) (by omega)
    · obtain ⟨i, rfl⟩ := Nat.exists_eq_add_of_le (not_lt.mp hlt)
      have hi : i < xs.length := by omega
      rw [scatter_mapIdx _ (fun i => g.scratchCell (overlap + i)) (fun i x => layer.store (start + i) x)
        (fun i j _ _ h => Nat.add_left_cancel (g.scratchCell_inj.mp h)) hi, ← add_assoc, Nat.sub_add_cancel hle]
      exact h.store l layer hlayer _ (Nat.le_add_right _ _) (by omega) _ (hxs i _ (getElem?_eq_getElem hi))
  constructor
  · intro i y hy
    simp only [runSliding, hbefore, hscratch, getElem?_mapIdx, Option.map_eq_some_iff] at hy
    obtain ⟨x, hx, rfl⟩ := hy
    have hi := (List.getElem?_eq_some_iff.mp hx).1
    have hlo : max (start - overlap) (start + i + 1 - g.window) =
        overlap + i + 1 - g.window + (start - overlap) := by omega
    have hlen : start + i + 1 - max (start - overlap) (start + i + 1 - g.window) =
        overlap + i + 1 - (overlap + i + 1 - g.window) := by omega
    have hshift : (range' (overlap + i + 1 - g.window) (overlap + i + 1 - (overlap + i + 1 - g.window))).map
          (fun t => scratch (g.scratchCell t)) =
        (range' (max (start - overlap) (start + i + 1 - g.window))
          (start + i + 1 - max (start - overlap) (start + i + 1 - g.window))).map
          fun q => scratch (g.scratchCell (q - (start - overlap))) := by
      rw [hlen, hlo]
      apply ext_getElem
      · simp
      · intro k hk hk'
        simp only [getElem_map, getElem_range', one_mul]
        congr 2
        omega
    rw [hshift]
    refine h.sliding l layer hlayer hattention _ (Nat.le_add_right _ _) (by omega) x _ (hxs i x hx) fun q hq hq' => ?_
    have hat := hQ (q - (start - overlap)) (by omega)
    rwa [Nat.add_sub_cancel' (by omega)] at hat
  · intro p hp hp'
    have hback := copied_scratchToRing g slot context.scratchCopyStart context.ringCopyAbsStart context.copyCount
      (hcopy.trans g.window_le_ringSlots) scratch (c.ring l)
    simp only [runSliding, hbefore, hscratch, update_self]
    have hat := hback.copied (p - context.ringCopyAbsStart) (Nat.zero_le _) (by omega)
    rw [Nat.add_sub_cancel' (by omega)] at hat
    rw [hat]
    have hrow := hQ (context.scratchCopyStart + (p - context.ringCopyAbsStart)) (by omega)
    have hpos : start - overlap + (context.scratchCopyStart + (p - context.ringCopyAbsStart)) = p := by omega
    rwa [hpos] at hrow

theorem runLayer_frame (g : Geometry) (slot : Nat) (context : ScratchContext) (start swaKvLength l l' : Nat)
    (layer : Layer X K) (xs : List X) (c : Cache K) (h : l' ≠ l) :
    (runLayer g slot context start swaKvLength l layer xs c).2.full l' = c.full l' ∧
      (runLayer g slot context start swaKvLength l layer xs c).2.ring l' = c.ring l' := by
  unfold runLayer
  cases layer.attention with
  | full => exact ⟨update_of_ne h _ _, rfl⟩
  | sliding => exact ⟨rfl, update_of_ne h _ _⟩

theorem runLayer_length (g : Geometry) (slot : Nat) (context : ScratchContext) (start swaKvLength l : Nat)
    (layer : Layer X K)
    (xs : List X) (c : Cache K) :
    (runLayer g slot context start swaKvLength l layer xs c).1.length = xs.length := by
  unfold runLayer
  cases layer.attention <;> simp [runFull, runSliding]

theorem runLayer_keeps {overlap start l : Nat} (hfits : Fits g context overlap start xs.length)
    (h : Carries g layers P Q (start - overlap) start (start + xs.length)) (hlayer : layers[l]? = some layer)
    (hxs : Holds P start l xs) (hc : Keeps g slot Q start overlap l layer c) :
    Holds P start (l + 1) (runLayer g slot context start overlap l layer xs c).1 ∧
      Keeps g slot Q (start + xs.length) context.copyCount l layer
        (runLayer g slot context start overlap l layer xs c).2 := by
  unfold runLayer
  cases hattention : layer.attention with
  | full =>
    have hkept := runFull_keeps h hlayer hattention hxs (hc.1 hattention)
    exact ⟨hkept.1, fun _ => hkept.2, fun hother => absurd (hattention.symm.trans hother) (by decide)⟩
  | sliding =>
    have hkept := runSliding_keeps hfits h hlayer hattention hxs (hc.2 hattention)
    exact ⟨hkept.1, fun hother => absurd (hattention.symm.trans hother) (by decide), fun _ => hkept.2⟩

theorem Keeps.congr {stop count l : Nat} {c c' : Cache K} (hfull : c'.full l = c.full l)
    (hring : c'.ring l = c.ring l) (h : Keeps g slot Q stop count l layer c) :
    Keeps g slot Q stop count l layer c' := by
  unfold Keeps at h ⊢
  rw [hfull, hring]
  exact h

theorem runLayers_keeps {overlap start length : Nat}
    (hfits : Fits g context overlap start length) (h : Carries g layers P Q (start - overlap) start (start + length))
    (rest : List (Layer X K)) (l : Nat) (hrest : ∀ i layer, rest[i]? = some layer → layers[l + i]? = some layer)
    (xs : List X) (c : Cache K) (hlength : xs.length = length) (hxs : Holds P start l xs)
    (hc : ∀ i layer, rest[i]? = some layer → Keeps g slot Q start overlap (l + i) layer c) :
    Holds P start (l + rest.length) (runLayers g slot context start overlap l rest xs c).1 ∧
      (runLayers g slot context start overlap l rest xs c).1.length = length ∧
      (∀ i layer, rest[i]? = some layer → Keeps g slot Q (start + length) context.copyCount (l + i) layer
        (runLayers g slot context start overlap l rest xs c).2) ∧
      ∀ l', l' < l → (runLayers g slot context start overlap l rest xs c).2.full l' = c.full l' ∧
        (runLayers g slot context start overlap l rest xs c).2.ring l' = c.ring l' := by
  induction rest generalizing l xs c with
  | nil => exact ⟨hxs, hlength, fun i layer hi => by simp at hi, fun _ _ => ⟨rfl, rfl⟩⟩
  | cons layer rest ih =>
    subst hlength
    obtain ⟨hys, hkept⟩ := runLayer_keeps hfits h (hrest 0 layer rfl) hxs (hc 0 layer rfl)
    have hlen := runLayer_length g slot context start overlap l layer xs c
    have hframe := fun {l'} => runLayer_frame g slot context start overlap l l' layer xs c
    generalize hr : runLayer g slot context start overlap l layer xs c = r at hys hkept hlen hframe
    obtain ⟨hzs, hlen', hkept', hsame⟩ := ih (l + 1) (fun i next hi => by
        rw [add_right_comm]
        exact hrest (i + 1) next hi) r.1 r.2 hlen hys (fun i next hi => by
        have hold := hc (i + 1) next hi
        rw [add_right_comm]
        exact hold.congr (hframe (by omega)).1 (hframe (by omega)).2)
    simp only [runLayers, hr]
    refine ⟨?_, hlen', fun i next hi => ?_, fun l' hl' => ?_⟩
    · rw [length_cons, ← add_assoc, add_right_comm]
      exact hzs
    · cases i with
      | zero =>
        cases Option.some.inj hi
        exact hkept.congr (hsame l (Nat.lt_succ_self l)).1 (hsame l (Nat.lt_succ_self l)).2
      | succ i =>
        rw [← add_assoc, add_right_comm]
        exact hkept' i next hi
    · have h₁ := hsame l' (Nat.lt_succ_of_lt hl')
      have h₂ := hframe (ne_of_lt hl')
      exact ⟨h₁.1.trans h₂.1, h₁.2.trans h₂.2⟩

/-- Every layer keeps its rows in front of `stop`. -/
def KeepsAll (g : Geometry) (slot : Nat) (Q : Nat → Nat → K → Prop) (m : Model Tok X K) (stop count : Nat)
    (c : Cache K) : Prop :=
  ∀ l layer, m.layers[l]? = some layer → Keeps g slot Q stop count l layer c

theorem forward_keeps (slot : Nat) {m : Model Tok X K} {overlap start : Nat} (tokens : List Tok)
    (hfits : Fits g context overlap start tokens.length)
    (h : Carries g m.layers P Q (start - overlap) start (start + tokens.length))
    (hembed : ∀ i t, tokens[i]? = some t → P 0 (start + i) (m.embed (start + i) t))
    (hc : KeepsAll g slot Q m start overlap c) :
    Holds P start m.layers.length (forward g slot m context tokens start overlap c).1 ∧
      (forward g slot m context tokens start overlap c).1.length = tokens.length ∧
      KeepsAll g slot Q m (start + tokens.length) context.copyCount
        (forward g slot m context tokens start overlap c).2 := by
  have hxs : Holds P start 0 (tokens.mapIdx fun i t => m.embed (start + i) t) := by
    intro i x hx
    simp only [getElem?_mapIdx, Option.map_eq_some_iff] at hx
    obtain ⟨t, ht, rfl⟩ := hx
    exact hembed i t ht
  obtain ⟨hys, hlen, hkept, -⟩ := runLayers_keeps hfits h m.layers 0 (fun i layer hi => by rwa [zero_add]) _ c
    length_mapIdx hxs (fun i layer hi => by
      rw [zero_add]
      exact hc i layer hi)
  refine ⟨?_, hlen, fun l layer hl => ?_⟩
  · rw [zero_add] at hys
    exact hys
  · have := hkept l layer hl
    rwa [zero_add] at this

section Chunks

variable {m : Model Tok X K} {chunkTokens : Nat}

theorem hasSwa_of_sliding {l : Nat} (h : m.layers[l]? = some layer) (hattention : layer.attention = .sliding) :
    m.hasSwa = true := by
  rw [Model.hasSwa, any_eq_true]
  exact ⟨.sliding, mem_map.mpr ⟨layer, mem_of_getElem? h, hattention⟩, rfl⟩

theorem swaWindow_le : swaWindow g m ≤ g.window := by
  unfold swaWindow
  split
  · exact Nat.le_refl _
  · exact Nat.zero_le _

/-- Behind a whole window of overlap no query sees less than its window. -/
theorem Carries.overlap {start stop : Nat} (h : Carries g m.layers P Q 0 start stop) :
    Carries g m.layers P Q (start - min (swaWindow g m) start) start stop where
  store := h.store
  full := h.full
  sliding l layer hl hattention p hp hp' x rows hx hrows := by
    have hwindow : swaWindow g m = g.window := if_pos (hasSwa_of_sliding hl hattention)
    have hlo : max (start - min (swaWindow g m) start) (p + 1 - g.window) = max 0 (p + 1 - g.window) := by
      have hpos := g.window_pos
      rw [hwindow]
      omega
    rw [hlo] at hrows ⊢
    exact h.sliding l layer hl hattention p hp hp' x rows hx hrows

theorem Carries.mono {floor start stop start' stop' : Nat}
    (h : Carries g layers P Q floor start stop) (hstart : start ≤ start') (hstop : stop' ≤ stop) :
    Carries g layers P Q floor start' stop' where
  store l layer hl p hp hp' := h.store l layer hl p (hstart.trans hp) (hp'.trans_le hstop)
  full l layer hl ha p hp hp' := h.full l layer hl ha p (hstart.trans hp) (hp'.trans_le hstop)
  sliding l layer hl ha p hp hp' := h.sliding l layer hl ha p (hstart.trans hp) (hp'.trans_le hstop)

theorem prefillChunk_keeps (slot : Nat) (tokens : List Tok) (absStart : Nat)
    (h : Carries g m.layers P Q 0 absStart (absStart + tokens.length))
    (hembed : ∀ i t, tokens[i]? = some t → P 0 (absStart + i) (m.embed (absStart + i) t))
    (hc : KeepsAll g slot Q m absStart (min (swaWindow g m) absStart) c) :
    Holds P absStart m.layers.length (prefillChunk g slot m tokens absStart c).1 ∧
      (prefillChunk g slot m tokens absStart c).1.length = tokens.length ∧
      KeepsAll g slot Q m (absStart + tokens.length) (min (swaWindow g m) (absStart + tokens.length))
        (prefillChunk g slot m tokens absStart c).2 := by
  have hcount : min (swaWindow g m) (absStart + tokens.length) =
      min (swaWindow g m) (min (swaWindow g m) absStart + tokens.length) := by omega
  rw [hcount]
  refine forward_keeps slot tokens ⟨min_le_right _ _, rfl, fun _ => rfl, (min_le_left _ _).trans swaWindow_le,
    min_le_right _ _, rfl, rfl⟩ h.overlap hembed hc

section

variable {tokens : List Tok} {base : Nat} (h : Carries g m.layers P Q 0 base (base + tokens.length))
  (hembed : ∀ i t, tokens[i]? = some t → P 0 (base + i) (m.embed (base + i) t))
include h hembed

theorem prefillChunks_keeps
    (ranges : List (Nat × Nat)) (lo : Nat) (htiles : Tiles lo tokens.length ranges) (hlo : lo < tokens.length)
    (r : Option X × Cache K) (hr : KeepsAll g slot Q m (base + lo) (min (swaWindow g m) (base + lo)) r.2) :
    (∃ x, (prefillChunks g slot m tokens base ranges r).1 = some x ∧ P m.layers.length (base + tokens.length - 1) x) ∧
      KeepsAll g slot Q m (base + tokens.length) (min (swaWindow g m) (base + tokens.length))
        (prefillChunks g slot m tokens base ranges r).2 := by
  induction ranges generalizing lo r with
  | nil => exact absurd htiles (ne_of_lt hlo)
  | cons range rest ih =>
    obtain ⟨rfl, hlt, hrest⟩ := htiles
    have hle := hrest.le
    have hlen : (tokens.extract range.1 range.2).length = range.2 - range.1 := by
      simp only [extract_eq_take_drop, length_take, length_drop]
      omega
    have hstop : base + range.1 + (tokens.extract range.1 range.2).length = base + range.2 := by omega
    obtain ⟨hout, hcount, hkept⟩ := prefillChunk_keeps slot (tokens.extract range.1 range.2) (base + range.1)
        (h.mono (Nat.le_add_right _ _) (by omega)) (fun i t hi => by
        rw [add_assoc]
        refine hembed (range.1 + i) t ?_
        rw [extract_eq_take_drop, getElem?_take] at hi
        split at hi
        · rwa [getElem?_drop] at hi
        · cases hi) hr
    rw [hstop] at hkept
    generalize hstep : prefillChunk g slot m (tokens.extract range.1 range.2) (base + range.1) r.2 =
      step at hout hcount hkept
    have hunfold : prefillChunks g slot m tokens base (range :: rest) r = prefillChunks g slot m tokens base rest
        (if range.2 = tokens.length then step.1.getLast? else r.1, step.2) := by
      rw [prefillChunks, foldl_cons, hstep]
      rfl
    rw [hunfold]
    by_cases hend : range.2 < tokens.length
    · exact ih range.2 hrest hend _ hkept
    · -- the last chunk: nothing follows it
      have heq : range.2 = tokens.length := by omega
      cases rest with
      | nil =>
        rw [if_pos heq]
        rw [heq] at hkept
        obtain ⟨x, hx, hPx⟩ := hout.getLast (by omega)
        rw [show base + range.1 + step.1.length - 1 = base + tokens.length - 1 by omega] at hPx
        exact ⟨⟨x, hx, hPx⟩, hkept⟩
      | cons next rest =>
        have := (hrest.bounds (mem_cons_self (l := rest) (a := next)))
        omega

/-- A prefill behind `base` carries both properties to the end of the prompt. -/
theorem prefillFrom_keeps {c c' : Cache K} {out : Option X} (hne : 0 < tokens.length)
    (hc : KeepsAll g slot Q m base (min (swaWindow g m) base) c)
    (hrun : prefillFrom g chunkTokens slot m tokens base c = .ok (out, c')) :
    (∃ x, out = some x ∧ P m.layers.length (base + tokens.length - 1) x) ∧
      KeepsAll g slot Q m (base + tokens.length) (min (swaWindow g m) (base + tokens.length)) c' := by
  unfold prefillFrom at hrun
  split at hrun
  · obtain ⟨hout, hcount, hkept⟩ := prefillChunk_keeps slot tokens base h hembed hc
    dsimp only at hrun
    obtain ⟨rfl, rfl⟩ := Prod.mk.inj (Except.ok.inj hrun)
    obtain ⟨x, hx, hPx⟩ := hout.getLast (by omega)
    rw [hcount] at hPx
    exact ⟨⟨x, hx, hPx⟩, hkept⟩
  · cases hranges : prefillChunkRanges 0 tokens.length chunkTokens (swaWindow g m) with
    | error e =>
      rw [hranges] at hrun
      cases hrun
    | ok ranges =>
      rw [hranges] at hrun
      have hresult := prefillChunks_keeps (r := (none, c)) h hembed ranges 0 (tiles_prefillChunkRanges hranges) hne hc
      have heq : prefillChunks g slot m tokens base ranges (none, c) = (out, c') := Except.ok.inj hrun
      rw [heq] at hresult
      exact hresult

end

end Chunks

end LagunaPrefill
