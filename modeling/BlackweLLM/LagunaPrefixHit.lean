import BlackweLLM.LagunaForward
import Mathlib.Algebra.BigOperators.Intervals
import Mathlib.Algebra.Order.BigOperators.Group.Finset

/-!
# A Laguna prefix hit against a cold prefill

The ring rebuild of `_prefill_with_prefix_hit` runs the last window of the
prefix with an empty history. Its first sliding-window layer therefore sees
less than the cold prefill did, and every layer behind that one works on other
inputs.
-/

namespace LagunaPrefill

open List LagunaChunks LagunaRing

variable {Tok X K : Type}

section Cold

variable (g : Geometry)

def firstSeen (attention : Attention) (p : Nat) : Nat :=
  match attention with
  | .full => 0
  | .sliding => p + 1 - g.window

/-- The outputs of a layer whose attention sees all that it should. -/
def coldOutput (layer : Layer X K) (x : Nat → X) (p : Nat) : X :=
  layer.output p (x p) ((range' (firstSeen g layer.attention p) (p + 1 - firstSeen g layer.attention p)).map
    fun q => layer.store q (x q))

/-- The inputs of layer `l` in a cold prefill, from the embedded prompt. -/
def coldInput (layers : List (Layer X K)) (x₀ : Nat → X) (l : Nat) : Nat → X :=
  (layers.take l).foldl (fun x layer => coldOutput g layer x) x₀

theorem coldInput_succ {layers : List (Layer X K)} {x₀ : Nat → X} {l : Nat} {layer : Layer X K}
    (h : layers[l]? = some layer) : coldInput g layers x₀ (l + 1) = coldOutput g layer (coldInput g layers x₀ l) := by
  rw [coldInput, take_add_one, h, foldl_append]
  rfl

/-- The row that layer `l` stores of position `p` in a cold prefill. -/
def IsColdRow (layers : List (Layer X K)) (x₀ : Nat → X) (l p : Nat) (k : K) : Prop :=
  ∀ layer, layers[l]? = some layer → k = layer.store p (coldInput g layers x₀ l p)

/-- From position `clean l` on, the inputs of layer `l` are the cold ones. -/
theorem carries_cold {layers : List (Layer X K)} {x₀ : Nat → X} (clean : Nat → Nat) {floor start stop : Nat}
    (hfull : ∀ l layer, layers[l]? = some layer → layer.attention = .full → clean l = 0)
    (hsliding : ∀ l layer, layers[l]? = some layer → layer.attention = .sliding → ∀ p, start ≤ p → p < stop →
      clean (l + 1) ≤ p → floor ≤ p + 1 - g.window ∧ clean l ≤ p + 1 - g.window) :
    Carries g layers (fun l p x => clean l ≤ p → x = coldInput g layers x₀ l p)
      (fun l p k => clean l ≤ p → IsColdRow g layers x₀ l p k) floor start stop where
  store l layer hl p _ _ x hx hp next hnext := by
    cases Option.some.inj (hl.symm.trans hnext)
    rw [hx hp]
  full l layer hl hattention p _ _ x rows hx hrows _ := by
    have hzero := hfull l layer hl hattention
    rw [coldInput_succ g hl, coldOutput, hattention, hx (hzero ▸ Nat.zero_le p)]
    refine congrArg _ (map_congr_left fun q hq => ?_)
    rw [mem_range'_1] at hq
    exact hrows q (by omega) (hzero ▸ Nat.zero_le q) layer hl
  sliding l layer hl hattention p hp hp' x rows hx hrows hclean := by
    obtain ⟨hfloor, hrange⟩ := hsliding l layer hl hattention p hp hp' hclean
    rw [Nat.max_eq_right hfloor] at hrows ⊢
    rw [coldInput_succ g hl, coldOutput, hattention, hx (hrange.trans (by have := g.window_pos; omega))]
    refine congrArg _ (map_congr_left fun q hq => ?_)
    rw [mem_range'_1] at hq
    exact hrows q hq.1 (by omega) (hrange.trans hq.1) layer hl

end Cold

section Runs

variable {g : Geometry} {slot chunkTokens n : Nat} {m : Model Tok X K} {promptIds : List Tok} {c c' : Cache K}
  {out : Option X} {P : Nat → Nat → X → Prop} {Q : Nat → Nat → K → Prop}

/-- The prompt, embedded; past its end the first token stands in. -/
def embedded (m : Model Tok X K) (promptIds : List Tok) (first : Tok) (p : Nat) : X :=
  m.embed p (promptIds.getD p first)

theorem embedded_of_getElem? {first t : Tok} {p : Nat} (h : promptIds[p]? = some t) :
    embedded m promptIds first p = m.embed p t := by
  rw [embedded, getD_eq_getElem?_getD, h, Option.getD_some]

/-- What a cold prefill leaves, whatever it starts from. -/
theorem prefillWithAux_cold (first : Tok) (hne : 0 < promptIds.length)
    (hrun : prefillWithAux g chunkTokens slot m promptIds c = .ok (out, c')) :
    out = some (coldInput g m.layers (embedded m promptIds first) m.layers.length (promptIds.length - 1)) ∧
      KeepsAll g slot (IsColdRow g m.layers (embedded m promptIds first)) m promptIds.length
        (min (swaWindow g m) promptIds.length) c' := by
  have hcarries : Carries g m.layers (fun l p x => 0 ≤ p → x = coldInput g m.layers (embedded m promptIds first) l p)
      (fun l p k => 0 ≤ p → IsColdRow g m.layers (embedded m promptIds first) l p k) 0 0 (0 + promptIds.length) :=
    carries_cold g (fun _ => 0) (fun _ _ _ _ => rfl) fun _ _ _ _ p _ _ _ => ⟨Nat.zero_le _, Nat.zero_le _⟩
  have hstart : KeepsAll g slot (fun l p k => 0 ≤ p → IsColdRow g m.layers (embedded m promptIds first) l p k) m 0
      (min (swaWindow g m) 0) c := fun l layer _ => ⟨fun _ p hp => absurd hp (Nat.not_lt_zero p),
    fun _ p hp => absurd hp (Nat.not_lt_zero p)⟩
  obtain ⟨⟨x, rfl, hx⟩, hkept⟩ := prefillFrom_keeps hcarries (fun i t hi _ => by
    rw [zero_add]
    exact (embedded_of_getElem? hi).symm) hne hstart hrun
  rw [Nat.zero_add] at hx hkept
  refine ⟨congrArg some (hx (Nat.zero_le _)), fun l layer hl => ?_⟩
  exact ⟨fun hattention p hp => (hkept l layer hl).1 hattention p hp (Nat.zero_le p),
    fun hattention p hp hp' => (hkept l layer hl).2 hattention p hp hp' (Nat.zero_le p)⟩

theorem rebuildRing_keeps (hle : n ≤ promptIds.length)
    (hcarries : Carries g m.layers P Q (n - min g.window n) (n - min g.window n) n)
    (hembed : ∀ p t, promptIds[p]? = some t → P 0 p (m.embed p t))
    (hfull : ∀ l layer, m.layers[l]? = some layer → layer.attention = .full →
      ∀ p, p < n - min g.window n → Q l p (c.full l p)) :
    KeepsAll g slot Q m n (min g.window n) (rebuildRing g slot m promptIds n c) := by
  have hcopy : min g.window (min g.window n) = min g.window n := min_eq_right (min_le_left _ _)
  have hextract : (promptIds.extract (n - min g.window n) n).length = min g.window n := by
    simp only [extract_eq_take_drop, length_take, length_drop]
    omega
  have hstop : n - min g.window n + min g.window n = n := Nat.sub_add_cancel (min_le_right _ _)
  rw [rebuildRing, hcopy]
  generalize min g.window n = len at *
  have hfits : Fits g ⟨0, 0, len - len, n - len, len⟩ 0 (n - len) (promptIds.extract (n - len) n).length :=
    ⟨Nat.zero_le _, rfl, fun h => absurd h (Nat.lt_irrefl 0), hcopy ▸ Nat.min_le_left _ _, by
      rw [hextract, Nat.zero_add], by rw [hextract, Nat.zero_add], by rw [hextract, hstop]⟩
  have hforward := forward_keeps slot (promptIds.extract (n - len) n) hfits
    (by rw [hextract, hstop]; exact hcarries)
    (fun i t hi => hembed _ t (by
      rw [extract_eq_take_drop, getElem?_take] at hi
      split at hi
      · rwa [getElem?_drop] at hi
      · cases hi))
    (fun l layer hl => ⟨fun hattention p hp => hfull l layer hl hattention p hp, fun _ p hp hp' => by omega⟩)
  have hkept := hforward.2.2
  rw [hextract, hstop] at hkept
  exact hkept

/-- What a hit leaves: both properties, carried over the rebuilt window and then over the suffix. -/
theorem prefillWithPrefixHit_keeps (hlt : n < promptIds.length)
    (hrebuild : m.hasSwa = true → Carries g m.layers P Q (n - min g.window n) (n - min g.window n) n)
    (hsuffix : Carries g m.layers P Q 0 n promptIds.length)
    (hembed : ∀ p t, promptIds[p]? = some t → P 0 p (m.embed p t))
    (hfull : ∀ l layer, m.layers[l]? = some layer → layer.attention = .full →
      ∀ p, p < (if m.hasSwa then n - min g.window n else n) → Q l p (c.full l p))
    (hrun : prefillWithPrefixHit g chunkTokens slot m promptIds n c = .ok (out, c')) :
    (∃ x, out = some x ∧ P m.layers.length (promptIds.length - 1) x) ∧
      KeepsAll g slot Q m promptIds.length (min (swaWindow g m) promptIds.length) c' := by
  have hlen : n + (promptIds.drop n).length = promptIds.length := by
    rw [length_drop]
    omega
  have hembed' : ∀ i t, (promptIds.drop n)[i]? = some t → P 0 (n + i) (m.embed (n + i) t) := fun i t hi =>
    hembed _ t (by rwa [getElem?_drop] at hi)
  rw [prefillWithPrefixHit] at hrun
  -- the ring in front of the suffix
  generalize hring : (if m.hasSwa then rebuildRing g slot m promptIds n (zeroRing g slot m c) else c) = c₁ at hrun
  have hkept : KeepsAll g slot Q m n (min (swaWindow g m) n) c₁ := by
    by_cases hswa : m.hasSwa
    · rw [if_pos hswa] at hring hfull
      rw [← hring, show swaWindow g m = g.window from if_pos hswa]
      exact rebuildRing_keeps hlt.le (hrebuild hswa) hembed hfull
    · rw [if_neg hswa] at hring hfull
      subst hring
      exact fun l layer hl => ⟨fun hattention p hp => hfull l layer hl hattention p hp,
        fun hattention => absurd (hasSwa_of_sliding hl hattention) hswa⟩
  have hresult := prefillFrom_keeps (hlen ▸ hsuffix) hembed' (by omega) hkept hrun
  rwa [hlen] at hresult

end Runs

section CleanPositions

variable {g : Geometry} {attentions : List Attention}

/-- The sliding-window layers among the first `l`. -/
def slidings (attentions : List Attention) (l : Nat) : Nat := (attentions.take l).count .sliding

/-- No full-attention layer has a sliding-window layer in front of it. -/
def FullFirst (attentions : List Attention) : Prop :=
  ∀ l, attentions[l]? = some .full → slidings attentions l = 0

/-- `_prefill_chunk_ranges` refuses the prompt. -/
def Refused (g : Geometry) (chunkTokens promptLen : Nat) (attentions : List Attention) : Prop :=
  chunkTokens < promptLen ∧ (chunkTokens = 0 ∨ .sliding ∈ attentions ∧ chunkTokens < g.window)

/-- The stack, the window, the hit and the prompt are such that the truncated rebuild reaches nothing that counts. -/
def Unreached (g : Geometry) (attentions : List Attention) (prefixHit promptLen : Nat) : Prop :=
  prefixHit ≤ g.window ∨ g.window ≤ 1 ∨
    FullFirst attentions ∧ prefixHit + (slidings attentions attentions.length - 1) * (g.window - 1) ≤ promptLen

/-- A hit for which the slot holds the cold rows of the prefix leaves what the cold prefill of the whole prompt
leaves. -/
def SameAsCold (g : Geometry) (chunkTokens slot : Nat) (m : Model Tok X K) (promptIds : List Tok) (prefixHit : Nat)
    (c₀ c : Cache K) : Prop :=
  ∀ out c₁, prefillWithAux g chunkTokens slot m promptIds c₀ = .ok (out, c₁) →
    (∀ l, m.attentions[l]? = some .full → ∀ p, p < prefixHit → c.full l p = c₁.full l p) →
    ∃ c₂, prefillWithPrefixHit g chunkTokens slot m promptIds prefixHit c = .ok (out, c₂) ∧
      (∀ l, m.attentions[l]? = some .full → ∀ p, p < promptIds.length → c₂.full l p = c₁.full l p) ∧
      ∀ l, m.attentions[l]? = some .sliding → ∀ p, p < promptIds.length → promptIds.length ≤ p + g.window →
        c₂.ring l (g.ringCell slot p) = c₁.ring l (g.ringCell slot p)

theorem slidings_succ (attentions : List Attention) (l : Nat) : slidings attentions (l + 1) =
    slidings attentions l + if attentions[l]? = some .sliding then 1 else 0 := by
  rw [slidings, take_add_one, count_append]
  congr 1
  cases attentions[l]? with
  | none => rfl
  | some attention => cases attention <;> rfl

theorem slidings_mono (attentions : List Attention) {l l' : Nat} (h : l ≤ l') :
    slidings attentions l ≤ slidings attentions l' := by
  induction h with
  | refl => exact le_refl _
  | step _ ih => exact ih.trans (slidings_succ attentions _ ▸ Nat.le_add_right _ _)

variable {m : Model Tok X K}

theorem attentions_getElem? {l : Nat} {attention : Attention} :
    m.attentions[l]? = some attention ↔ ∃ layer, m.layers[l]? = some layer ∧ layer.attention = attention := by
  rw [Model.attentions, getElem?_map, Option.map_eq_some_iff]

/-- The first position whose inputs of a layer behind `count` sliding windows are the cold ones. -/
def cleanFrom (window prefixHit count : Nat) : Nat :=
  if count = 0 then 0 else prefixHit - 1 + (count - 1) * (window - 1)

theorem cleanFrom_succ (window prefixHit count : Nat) :
    cleanFrom window prefixHit (count + 1) = prefixHit - 1 + count * (window - 1) := rfl

theorem cleanFrom_add_le (window prefixHit : Nat) {count : Nat} (hcount : 0 < count) :
    cleanFrom window prefixHit count + (window - 1) = cleanFrom window prefixHit (count + 1) := by
  obtain ⟨count, rfl⟩ := Nat.exists_eq_succ_of_ne_zero (ne_of_gt hcount)
  rw [cleanFrom_succ, cleanFrom_succ, Nat.succ_mul, add_assoc]

/-- The prefix schedules its suffix wherever the cold prefill schedules the prompt. -/
theorem prefillFrom_ok {chunkTokens slot n : Nat} {promptIds : List Tok} {c₀ c : Cache K}
    {r : Option X × Cache K} (h : prefillFrom g chunkTokens slot m promptIds 0 c₀ = .ok r) :
    ∃ out c', prefillFrom g chunkTokens slot m (promptIds.drop n) n c = .ok (out, c') := by
  unfold prefillFrom at h ⊢
  by_cases hsuffix : (promptIds.drop n).length ≤ chunkTokens
  · rw [if_pos hsuffix]
    exact ⟨_, _, rfl⟩
  · have hprompt : ¬ promptIds.length ≤ chunkTokens := by
      rw [length_drop] at hsuffix
      omega
    rw [if_neg hprompt] at h
    rw [if_neg hsuffix]
    cases hranges : prefillChunkRanges 0 promptIds.length chunkTokens (swaWindow g m) with
    | error e =>
      rw [hranges] at h
      cases h
    | ok ranges =>
      obtain ⟨-, hchunk, hmin, -⟩ := prefillChunkRanges_cases hranges
      obtain ⟨suffixRanges, hok⟩ := prefillChunkRanges_ok (Nat.zero_le (promptIds.drop n).length) hchunk hmin
      rw [hok]
      exact ⟨_, _, rfl⟩

/-- Where the inputs of layer `l` are the cold ones again. -/
def clean (g : Geometry) (attentions : List Attention) (prefixHit l : Nat) : Nat :=
  if prefixHit ≤ g.window ∨ g.window ≤ 1 then 0 else cleanFrom g.window prefixHit (slidings attentions l)

theorem clean_full {prefixHit promptLen l : Nat}
    (h : Unreached g attentions prefixHit promptLen) (hl : attentions[l]? = some .full) :
    clean g attentions prefixHit l = 0 := by
  unfold clean
  split
  · rfl
  · rename_i hshort
    obtain hle | hle | ⟨hfirst, -⟩ := h
    · exact absurd (.inl hle) hshort
    · exact absurd (.inr hle) hshort
    · rw [hfirst l hl]
      rfl

/-- A query with clean inputs sees clean rows only, and its window is there in full. -/
theorem clean_sliding {prefixHit l p : Nat}
    (hl : attentions[l]? = some .sliding) (hstart : prefixHit - min g.window prefixHit ≤ p)
    (hclean : clean g attentions prefixHit (l + 1) ≤ p) :
    prefixHit - min g.window prefixHit ≤ p + 1 - g.window ∧ clean g attentions prefixHit l ≤ p + 1 - g.window := by
  have hpos := g.window_pos
  unfold clean at hclean ⊢
  split at hclean
  · rename_i hshort
    rw [if_pos hshort]
    omega
  · rename_i hlong
    rw [if_neg hlong]
    rw [slidings_succ, if_pos hl] at hclean
    rw [not_or, not_le, not_le] at hlong
    by_cases hzero : slidings attentions l = 0
    · rw [hzero] at hclean ⊢
      rw [cleanFrom_succ] at hclean
      exact ⟨by omega, Nat.zero_le _⟩
    · have hstep := cleanFrom_add_le g.window prefixHit (Nat.pos_of_ne_zero hzero)
      have hfrom : prefixHit - 1 ≤ cleanFrom g.window prefixHit (slidings attentions l + 1) := Nat.le_add_right _ _
      omega

/-- Behind the last layer the last position is clean, and so is the last window of every sliding-window layer. -/
theorem clean_last {prefixHit promptLen l : Nat}
    (h : Unreached g attentions prefixHit promptLen) (hhit : 0 < prefixHit) (hlt : prefixHit < promptLen) :
    clean g attentions prefixHit attentions.length ≤ promptLen - 1 ∧
      (attentions[l]? = some .sliding → clean g attentions prefixHit l ≤ promptLen - g.window) := by
  unfold clean
  split
  · exact ⟨Nat.zero_le _, fun _ => Nat.zero_le _⟩
  · rename_i hlong
    obtain hle | hle | ⟨-, hreach⟩ := h
    · exact absurd (.inl hle) hlong
    · exact absurd (.inr hle) hlong
    · rw [not_or, not_le, not_le] at hlong
      constructor
      · unfold cleanFrom
        split <;> omega
      · intro hl
        have hcount : slidings attentions l + 1 ≤ slidings attentions attentions.length := by
          have hstep := slidings_succ attentions l
          rw [if_pos hl] at hstep
          rw [← hstep]
          exact slidings_mono attentions (List.getElem?_eq_some_iff.mp hl).1
        by_cases hzero : slidings attentions l = 0
        · rw [hzero]
          exact Nat.zero_le _
        · have hstep := cleanFrom_add_le g.window prefixHit (Nat.pos_of_ne_zero hzero)
          have hmul := Nat.mul_le_mul_right (g.window - 1) (Nat.sub_le_sub_right hcount 1)
          rw [cleanFrom_succ] at hstep
          rw [Nat.add_sub_cancel] at hmul
          omega

theorem sameAsCold_of_unreached {chunkTokens slot n : Nat} {promptIds : List Tok}
    {c₀ c : Cache K} (hhit : 0 < n) (hlt : n < promptIds.length) (h : Unreached g m.attentions n promptIds.length) :
    SameAsCold g chunkTokens slot m promptIds n c₀ c := by
  intro out c₁ hcold hkept
  obtain ⟨rfl, hrows⟩ := prefillWithAux_cold promptIds[0] (by omega) hcold
  generalize hx₀ : embedded m promptIds promptIds[0] = x₀ at hrows ⊢
  obtain ⟨out', c₂, hrun⟩ : ∃ out' c₂, prefillWithPrefixHit g chunkTokens slot m promptIds n c = .ok (out', c₂) :=
    prefillFrom_ok hcold
  have hfull : ∀ l layer, m.layers[l]? = some layer → layer.attention = .full → clean g m.attentions n l = 0 :=
    fun l layer hl hattention => clean_full h (attentions_getElem?.mpr ⟨layer, hl, hattention⟩)
  have hkept := prefillWithPrefixHit_keeps (P := fun l p x => clean g m.attentions n l ≤ p →
      x = coldInput g m.layers x₀ l p)
    (Q := fun l p k => clean g m.attentions n l ≤ p → IsColdRow g m.layers x₀ l p k) hlt
    (fun _ => carries_cold g _ hfull fun l layer hl hattention p hp _ hclean =>
      clean_sliding (attentions_getElem?.mpr ⟨layer, hl, hattention⟩) hp hclean)
    (carries_cold g _ hfull fun l layer hl hattention p hp _ hclean => ⟨Nat.zero_le _,
      (clean_sliding (attentions_getElem?.mpr ⟨layer, hl, hattention⟩) ((Nat.sub_le _ _).trans hp) hclean).2⟩)
    (fun p t ht _ => hx₀ ▸ (embedded_of_getElem? ht).symm)
    (fun l layer hl hattention p hp _ next hnext => by
      have hp' : p < n := by
        split at hp <;> omega
      rw [hkept l (attentions_getElem?.mpr ⟨layer, hl, hattention⟩) p hp']
      exact (hrows l layer hl).1 hattention p (by omega) next hnext) hrun
  obtain ⟨⟨x, rfl, hx⟩, hkept⟩ := hkept
  have hlayers : m.attentions.length = m.layers.length := length_map _
  refine ⟨c₂, ?_, fun l hl p hp => ?_, fun l hl p hp hp' => ?_⟩
  · rw [hrun, hx (hlayers ▸ (clean_last (l := 0) h hhit hlt).1)]
  · obtain ⟨layer, hlayer, hattention⟩ := attentions_getElem?.mp hl
    rw [(hkept l layer hlayer).1 hattention p hp (hfull l layer hlayer hattention ▸ Nat.zero_le p) layer hlayer,
      (hrows l layer hlayer).1 hattention p hp layer hlayer]
  · obtain ⟨layer, hlayer, hattention⟩ := attentions_getElem?.mp hl
    have hcount : promptIds.length ≤ p + min (swaWindow g m) promptIds.length := by
      rw [show swaWindow g m = g.window from if_pos (hasSwa_of_sliding hlayer hattention)]
      omega
    have hclean := (clean_last h hhit hlt).2 hl
    rw [(hkept l layer hlayer).2 hattention p hp hcount (by omega) layer hlayer,
      (hrows l layer hlayer).2 hattention p hp hcount layer hlayer]

end CleanPositions

section Counting

/-- A stack that counts: each output adds what its attention sees to its input. -/
def counting (attentions : List Attention) : Model Unit Nat Nat where
  embed _ _ := 0
  layers := attentions.map fun attention => ⟨attention, fun _ x => x, fun _ x rows => x + (rows.map (· + 1)).sum⟩
  zero := 0

theorem counting_attentions (attentions : List Attention) : (counting attentions).attentions = attentions := by
  simp [counting, Model.attentions, Function.comp_def]

theorem counting_layer {attentions : List Attention} {l : Nat} {layer : Layer Nat Nat}
    (h : (counting attentions).layers[l]? = some layer) : attentions[l]? = some layer.attention ∧
      layer.store = (fun _ x => x) ∧ layer.output = fun _ x rows => x + (rows.map (· + 1)).sum := by
  simp only [counting, getElem?_map, Option.map_eq_some_iff] at h
  obtain ⟨attention, hattention, rfl⟩ := h
  exact ⟨hattention, rfl, rfl⟩

/-- What a counting layer adds at a position, over the rows from `lo` on. -/
def seen (rows : Nat → Nat) (lo p : Nat) : Nat := ∑ q ∈ Finset.Ico lo (p + 1), (rows q + 1)

theorem sum_map_range' (rows : Nat → Nat) (lo p : Nat) :
    (((range' lo (p + 1 - lo)).map rows).map (· + 1)).sum = seen rows lo p := by
  rw [map_map]
  rfl

section

variable {rows cold : Nat → Nat} {lo lo' p : Nat} (hlo : lo ≤ lo') (h : ∀ q, lo' ≤ q → q ≤ p → rows q ≤ cold q)
include hlo h

theorem seen_le : seen rows lo' p ≤ seen cold lo p :=
  (Finset.sum_le_sum fun q hq => Nat.succ_le_succ (h q (Finset.mem_Ico.mp hq).1
    (Nat.lt_succ_iff.mp (Finset.mem_Ico.mp hq).2))).trans
    (Finset.sum_le_sum_of_subset (Finset.Ico_subset_Ico_left hlo))

theorem seen_lt
    (hlt : lo < lo' ∧ lo ≤ p ∨ ∃ q, lo' ≤ q ∧ q ≤ p ∧ rows q < cold q) : seen rows lo' p < seen cold lo p := by
  have hle : seen rows lo' p ≤ seen cold lo' p := seen_le (le_refl _) h
  obtain ⟨hless, hp⟩ | ⟨q, hq, hqp, hrow⟩ := hlt
  · refine hle.trans_lt (Finset.sum_lt_sum_of_subset (Finset.Ico_subset_Ico_left hlo) (i := lo) ?_ ?_ (Nat.succ_pos _)
      fun _ _ _ => Nat.zero_le _)
    · exact Finset.mem_Ico.mpr ⟨Nat.le_refl _, Nat.lt_succ_of_le hp⟩
    · exact fun hin => absurd (Finset.mem_Ico.mp hin).1 (not_le.mpr hless)
  · refine (Finset.sum_lt_sum (fun q hq => Nat.succ_le_succ (h q (Finset.mem_Ico.mp hq).1
      (Nat.lt_succ_iff.mp (Finset.mem_Ico.mp hq).2))) ⟨q, Finset.mem_Ico.mpr ⟨hq, Nat.lt_succ_of_le hqp⟩,
        Nat.succ_lt_succ hrow⟩).trans_le (Finset.sum_le_sum_of_subset (Finset.Ico_subset_Ico_left hlo))

end

variable {g : Geometry} {attentions : List Attention} {n : Nat}

def count (g : Geometry) (attentions : List Attention) : Nat → Nat → Nat :=
  coldInput g (counting attentions).layers (fun _ => 0)

theorem count_succ {l p : Nat} {layer : Layer Nat Nat} (h : (counting attentions).layers[l]? = some layer) :
    count g attentions (l + 1) p =
      count g attentions l p + seen (count g attentions l) (firstSeen g layer.attention p) p := by
  obtain ⟨-, hstore, houtput⟩ := counting_layer h
  unfold count
  rw [coldInput_succ g h, coldOutput, houtput, hstore]
  exact congrArg _ (sum_map_range' _ _ _)

/-- The positions that the truncated rebuild reaches, at the inputs of layer `l`. -/
def Reached (g : Geometry) (attentions : List Attention) (n l p : Nat) : Prop :=
  0 < slidings attentions l ∧ n - g.window ≤ p ∧ p + 1 < n + (slidings attentions l - 1) * (g.window - 1)

/-- No more than the cold value, and less at the positions that the rebuild reaches. -/
def Short (g : Geometry) (attentions : List Attention) (n l p x : Nat) : Prop :=
  x ≤ count g attentions l p ∧ (Reached g attentions n l p → x < count g attentions l p)

theorem carries_short {floor start stop : Nat} (hwindow : 1 < g.window) (hn : g.window < n)
    (hchunk : floor = 0 ∧ n ≤ start ∨ floor = n - g.window ∧ start = n - g.window ∧ stop = n) :
    Carries g (counting attentions).layers (Short g attentions n) (Short g attentions n) floor start stop where
  store l layer hl p _ _ x hx := by
    rw [(counting_layer hl).2.1]
    exact hx
  full l layer hl hattention p _ _ x rows hx hrows := by
    obtain ⟨hkind, -, houtput⟩ := counting_layer hl
    have hsame : slidings attentions (l + 1) = slidings attentions l := by
      rw [slidings_succ, hkind, hattention]
      rfl
    have hsum : seen rows 0 p ≤ seen (count g attentions l) 0 p := seen_le (le_refl _) fun q _ hq => (hrows q hq).1
    have hlist := sum_map_range' rows 0 p
    rw [Nat.sub_zero] at hlist
    rw [Short, Reached, hsame, houtput, count_succ hl, hattention]
    simp only [hlist, firstSeen]
    exact ⟨Nat.add_le_add hx.1 hsum, fun hreached => Nat.add_lt_add_of_lt_of_le (hx.2 hreached) hsum⟩
  sliding l layer hl hattention p hp hp' x rows hx hrows := by
    obtain ⟨hkind, -, houtput⟩ := counting_layer hl
    have hnext : slidings attentions (l + 1) = slidings attentions l + 1 := by
      rw [slidings_succ, hkind, hattention]
      rfl
    have hle : p + 1 - g.window ≤ max floor (p + 1 - g.window) := le_max_right _ _
    rw [Short, houtput, count_succ hl, hattention]
    simp only [sum_map_range' rows _ p, firstSeen]
    refine ⟨Nat.add_le_add hx.1 (seen_le hle fun q hq hqp => (hrows q hq hqp).1), fun ⟨_, hfirst, hlast⟩ => ?_⟩
    rw [hnext, Nat.add_sub_cancel] at hlast
    by_cases hreached : Reached g attentions n l p
    · exact Nat.add_lt_add_of_lt_of_le (hx.2 hreached) (seen_le hle fun q hq hqp => (hrows q hq hqp).1)
    refine Nat.add_lt_add_of_le_of_lt hx.1 (seen_lt hle (fun q hq hqp => (hrows q hq hqp).1) ?_)
    by_cases hzero : slidings attentions l = 0
    · -- the first sliding window: the rebuild cuts it short
      rw [hzero, zero_mul] at hlast
      left
      omega
    · -- a later one sees the last position that its inputs are reached at
      right
      obtain ⟨k, hk⟩ := Nat.exists_eq_succ_of_ne_zero hzero
      rw [hk, Nat.succ_mul] at hlast
      have hnot : n + k * (g.window - 1) ≤ p + 1 := by
        by_contra hlt
        exact hreached ⟨pos_of_ne_zero hzero, hfirst, by rw [hk]; exact not_le.mp hlt⟩
      refine ⟨n + k * (g.window - 1) - 2, by omega, by omega, (hrows _ (by omega) (by omega)).2 ?_⟩
      exact ⟨pos_of_ne_zero hzero, by omega, by rw [hk]; dsimp only [Nat.succ_sub_one]; omega⟩

theorem hasSwa_of_slidings {l : Nat} (h : 0 < slidings attentions l) : (counting attentions).hasSwa = true := by
  rw [Model.hasSwa, counting_attentions, any_eq_true]
  exact ⟨.sliding, mem_of_mem_take (count_pos_iff.mp h), rfl⟩

/-- A reached position that counts makes the hit differ from the cold prefill. -/
theorem not_sameAsCold {chunkTokens slot promptLen : Nat} (hlt : n < promptLen)
    (hunreached : ¬ Unreached g attentions n promptLen) {c₀ c₁ : Cache Nat} {out : Option Nat}
    (hcold : prefillWithAux g chunkTokens slot (counting attentions) (replicate promptLen ()) c₀ = .ok (out, c₁)) :
    ¬ SameAsCold g chunkTokens slot (counting attentions) (replicate promptLen ()) n c₀ c₁ := by
  intro hsame
  rw [Unreached, not_or, not_or, not_le, not_le] at hunreached
  obtain ⟨hn, hwindow, hcounts⟩ := hunreached
  obtain ⟨c₂, hhit, hfull, -⟩ := hsame out c₁ hcold fun _ _ _ _ => rfl
  have hlen : (replicate promptLen ()).length = promptLen := length_replicate
  obtain ⟨rfl, hrows⟩ := prefillWithAux_cold () (by omega) hcold
  rw [hlen] at hrows hhit hfull
  have hx₀ : embedded (counting attentions) (replicate promptLen ()) () = fun _ => 0 := rfl
  rw [hx₀] at hrows hhit
  obtain ⟨⟨x, hx, hxshort⟩, hshort⟩ := prefillWithPrefixHit_keeps (P := Short g attentions n) (Q := Short g attentions n)
    (by rwa [hlen]) (fun _ => by
      rw [min_eq_left hn.le]
      exact carries_short hwindow hn (.inr ⟨rfl, rfl, rfl⟩))
    (carries_short hwindow hn (.inl ⟨rfl, Nat.le_refl _⟩)) (fun p t _ => ⟨Nat.zero_le _, fun hreached => by
      exact absurd hreached.1 (Nat.lt_irrefl 0)⟩)
    (fun l layer hl hattention p hp => by
      have hp' : p < n := by
        split at hp <;> omega
      have hrow := (hrows l layer hl).1 hattention p (by omega) layer hl
      rw [(counting_layer hl).2.1] at hrow
      refine ⟨hrow.le, fun hreached => ?_⟩
      rw [if_pos (hasSwa_of_slidings hreached.1), min_eq_left hn.le] at hp
      exact absurd hreached.2.1 (not_le.mpr hp)) hhit
  rw [hlen] at hxshort hshort
  have hlayers : (counting attentions).layers.length = attentions.length := length_map _
  by_cases hfirst : FullFirst attentions
  · -- the last position is reached behind the last layer
    have hreach : promptLen < n + (slidings attentions attentions.length - 1) * (g.window - 1) :=
      not_le.mp fun hle => hcounts ⟨hfirst, hle⟩
    have hpos : 0 < slidings attentions attentions.length := by
      by_contra hzero
      rw [Nat.eq_zero_of_not_pos hzero, Nat.zero_sub, zero_mul] at hreach
      omega
    have hless := hxshort.2 (by
      rw [hlayers]
      exact ⟨hpos, by omega, by omega⟩)
    rw [← Option.some.inj hx] at hless
    exact lt_irrefl _ hless
  · -- a full-attention layer stored a reached position
    simp only [FullFirst, not_forall] at hfirst
    obtain ⟨l, hl, hslidings⟩ := hfirst
    obtain ⟨layer, hlayer, hattention⟩ := attentions_getElem?.mp ((counting_attentions attentions).symm ▸ hl)
    have hless := ((hshort l layer hlayer).1 hattention (n - g.window) (by omega)).2
      ⟨pos_of_ne_zero hslidings, le_refl _, by omega⟩
    have hrow := (hrows l layer hlayer).1 hattention (n - g.window) (by omega) layer hlayer
    rw [(counting_layer hlayer).2.1] at hrow
    rw [hfull l ((counting_attentions attentions).symm ▸ hl) _ (by omega), hrow] at hless
    exact lt_irrefl _ hless

end Counting

section Exact

variable {g : Geometry} {chunkTokens slot n promptLen : Nat} {attentions : List Attention}

theorem hasSwa_iff {m : Model Tok X K} : m.hasSwa = true ↔ .sliding ∈ m.attentions := by
  simp [Model.hasSwa]

/-- A cold prefill raises on the prompts that `_prefill_chunk_ranges` refuses and on no others. -/
theorem prefillWithAux_ok_iff (g : Geometry) (chunkTokens slot : Nat) (m : Model Tok X K) (promptIds : List Tok)
    (c : Cache K) :
    (∃ out c', prefillWithAux g chunkTokens slot m promptIds c = .ok (out, c')) ↔
      ¬ Refused g chunkTokens promptIds.length m.attentions := by
  rw [prefillWithAux, prefillFrom, Refused]
  by_cases hshort : promptIds.length ≤ chunkTokens
  · rw [if_pos hshort]
    exact ⟨fun _ h => absurd h.1 (not_lt.mpr hshort), fun _ => ⟨_, _, rfl⟩⟩
  · rw [if_neg hshort]
    rw [swaWindow]
    constructor
    · rintro ⟨out, c', h⟩ ⟨-, hrefused⟩
      cases hranges : prefillChunkRanges 0 promptIds.length chunkTokens (if m.hasSwa then g.window else 0) with
      | error e =>
        rw [hranges] at h
        cases h
      | ok ranges =>
        obtain ⟨-, hchunk, hmin, -⟩ := prefillChunkRanges_cases hranges
        obtain hzero | ⟨hsliding, hwindow⟩ := hrefused
        · omega
        · rw [if_pos (hasSwa_iff.mpr hsliding)] at hmin
          omega
    · intro h
      rw [not_and, not_or, not_and] at h
      obtain ⟨hchunk, hwindow⟩ := h (not_le.mp hshort)
      have hmin : (if m.hasSwa then g.window else 0) ≤ chunkTokens := by
        split
        · rename_i hswa
          exact Nat.not_lt.mp (hwindow (hasSwa_iff.mp hswa))
        · exact Nat.zero_le _
      obtain ⟨ranges, hranges⟩ := prefillChunkRanges_ok (Nat.zero_le promptIds.length) (Nat.pos_of_ne_zero hchunk) hmin
      rw [hranges]
      exact ⟨_, _, rfl⟩

/-- A hit leaves what the cold prefill leaves, for every model over a stack of layers, exactly when the rebuild
reaches nothing that counts. -/
theorem prefixHit_same_iff (g : Geometry) (chunkTokens slot : Nat) (attentions : List Attention)
    {prefixHit promptLen : Nat}
    (hhit : 0 < prefixHit) (hlt : prefixHit < promptLen) :
    (∀ (Tok X K : Type) (m : Model Tok X K) (promptIds : List Tok) (c₀ c : Cache K), m.attentions = attentions →
      promptIds.length = promptLen → SameAsCold g chunkTokens slot m promptIds prefixHit c₀ c) ↔
    Refused g chunkTokens promptLen attentions ∨ Unreached g attentions prefixHit promptLen := by
  constructor
  · intro h
    by_contra hnot
    rw [not_or] at hnot
    have hlen : (replicate promptLen ()).length = promptLen := length_replicate
    have hsame := h Unit Nat Nat (counting attentions) (replicate promptLen ()) ⟨fun _ _ => 0, fun _ _ => 0, fun _ => 0⟩
    obtain ⟨out, c₁, hcold⟩ := (prefillWithAux_ok_iff g chunkTokens slot (counting attentions) (replicate promptLen ())
      ⟨fun _ _ => 0, fun _ _ => 0, fun _ => 0⟩).mpr (by rw [hlen, counting_attentions]; exact hnot.1)
    exact not_sameAsCold hlt hnot.2 hcold (hsame c₁ (counting_attentions attentions) hlen)
  · rintro (hrefused | hunreached) Tok X K m promptIds c₀ c rfl rfl
    · exact fun out c₁ hcold => absurd hrefused ((prefillWithAux_ok_iff g chunkTokens slot m promptIds c₀).mp ⟨out, c₁, hcold⟩)
    · exact sameAsCold_of_unreached hhit hlt hunreached

end Exact

section Runs

def served : Geometry := ⟨512, 64, by decide, by decide⟩

def cleared : Cache Nat := ⟨fun _ _ => 0, fun _ _ => 0, fun _ => 0⟩

/-- One sliding-window layer behind a full-attention one reaches nothing that counts. -/
theorem prefixHit_same_sliding : Unreached served [.full, .sliding] 576 600 ∧
    ∀ (Tok X K : Type) (m : Model Tok X K) (promptIds : List Tok) (c₀ c : Cache K),
      m.attentions = [.full, .sliding] → promptIds.length = 600 → SameAsCold served 8192 0 m promptIds 576 c₀ c := by
  have hunreached : Unreached served [.full, .sliding] 576 600 := by
    right; right
    refine ⟨fun l hl => ?_, by decide⟩
    have hlt := (List.getElem?_eq_some_iff.mp hl).1
    match l, hlt with
    | 0, _ => rfl
    | 1, _ => cases hl
  exact ⟨hunreached, (prefixHit_same_iff served 8192 0 [.full, .sliding] (by decide) (by decide)).mpr (.inr hunreached)⟩

/-- A sliding-window layer between two full-attention ones: the hit leaves other rows than the cold prefill. -/
theorem prefixHit_differs : ∃ out c₁,
    prefillWithAux served 8192 0 (counting [.full, .sliding, .full]) (replicate 600 ()) cleared = .ok (out, c₁) ∧
    ¬ SameAsCold served 8192 0 (counting [.full, .sliding, .full]) (replicate 600 ()) 576 cleared c₁ := by
  obtain ⟨out, c₁, hcold⟩ := (prefillWithAux_ok_iff served 8192 0 (counting [.full, .sliding, .full])
    (replicate 600 ()) cleared).mpr (fun hrefused => absurd hrefused.1 (by rw [length_replicate]; decide))
  refine ⟨out, c₁, hcold, not_sameAsCold (by decide) ?_ hcold⟩
  rintro (hle | hle | ⟨hfirst, -⟩)
  · exact absurd hle (by decide)
  · exact absurd hle (by decide)
  · exact absurd (hfirst 2 rfl) (by decide)

end Runs

end LagunaPrefill
