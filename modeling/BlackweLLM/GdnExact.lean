import BlackweLLM.GdnCalls

/-!
# Which cuts of a stream the gated delta layer does not notice

A cut is a list of calls without their tokens. It is path independent when, for
all tokens, weights and kernels, every call gives what the whole stream gives in
one chunk.
-/

namespace GdnLayer

open List Weights

/-- A call without its tokens. -/
inductive Shape where
  | forward (tokens : ℕ)
  | prefillBatch (tokens : ℕ)
  | decodeBatch
  | spec (tokens accepted : ℕ) (store : SpecStore) (fp32 batchLargeProjections : Bool)
  deriving DecidableEq, Repr

namespace Shape

/-- What the checks of a call ask of it, with a previous state or without. -/
def Ready (C : GdnConfig) (rt : Runtime) (hasPreviousState : Bool) : Shape → Prop
  | .forward tokens => 0 < tokens
  | .prefillBatch tokens => 0 < tokens ∧ ∃ use, flashinferGdnPrefillEnabled rt = .ok use
  | .decodeBatch => hasPreviousState = true ∧ ∃ use, flashinferGdnDecodeEnabled C rt = .ok use
  | .spec tokens accepted store fp32 _ =>
    hasPreviousState = true ∧ 0 < tokens ∧ accepted ≤ tokens ∧ (store = .snapshots → fp32 = false) ∧
      (fp32 = true → rt.stateDtype = .float32 ∧ rt.dtype = .bfloat16)

end Shape

/-- Grouped heads are read as expanded ones are. -/
def GdnConfig.HeadsAgree (C : GdnConfig) : Prop :=
  C.ggufDirectDecay = false ∨ C.headRepeat = 1 ∨ C.numKHeads = 1

/-- The path of a call reads what the others read. -/
def Shape.Sound (C : GdnConfig) (rt : Runtime) (hasPreviousState : Bool) : Shape → Prop
  | .forward tokens => hasPreviousState = true → tokens = 1 → C.HeadsAgree
  | .prefillBatch _ => flashinferGdnPrefillEnabled rt = .ok true → C.HeadsAgree ∧ rt.vllmPrefillPrep = true
  | .decodeBatch => True
  | .spec _ _ store fp32 _ =>
    (fp32 = true → C.HeadsAgree ∧ C.ggufDirectDecay = false) ∧
      (store = .indexed → fp32 = false ∧ rt.isCuda = true ∧ rt.dtype = .bfloat16)

/-- Every call of a cut, told whether another one comes before it. -/
def Throughout (P : Bool → Shape → Prop) (cut : List Shape) : Prop :=
  ∀ front s back, cut = front ++ s :: back → P (!front.isEmpty) s

variable {cut : List Shape}

theorem throughout_cons {P : Bool → Shape → Prop} {s : Shape} :
    Throughout P (s :: cut) ↔ P false s ∧ ∀ t ∈ cut, P true t := by
  constructor
  · intro h
    refine ⟨h [] s cut rfl, fun t ht => ?_⟩
    obtain ⟨front, back, rfl⟩ := append_of_mem ht
    exact h (s :: front) t back rfl
  · rintro ⟨hfirst, hrest⟩ front t back hcut
    cases front with
    | nil =>
      rw [nil_append, List.cons.injEq] at hcut
      rwa [← hcut.1]
    | cons a front =>
      rw [cons_append, List.cons.injEq] at hcut
      exact hrest t (by rw [hcut.2]; simp)

namespace Piece

variable {R S X : Type}

def shape : Piece R S X → Shape
  | .forward tokens => .forward tokens.length
  | .prefillBatch tokens _ _ => .prefillBatch tokens.length
  | .decodeBatch _ _ _ => .decodeBatch
  | .spec tokens accepted store fp32 batchLargeProjections _ _ _ =>
    .spec tokens.length accepted store fp32 batchLargeProjections

/-- Snapshots are taken of one sequence only. -/
def Alone : Piece R S X → Prop
  | .forward _ => True
  | .prefillBatch _ _ _ => True
  | .decodeBatch _ _ _ => True
  | .spec _ _ store _ _ _ before after => store = .snapshots → before = [] ∧ after = []

end Piece

section Faithful

variable {C : GdnConfig} {R S X Y : Type} [Zero R] [Add R] [Mul R] [InvolutiveNeg R]

/-- A call behind some tokens gives the outputs, the columns and the state of the stream in one chunk. -/
structure Faithful (W : Weights C R S X Y) (rt : Runtime) (past : List X) (p : Piece R S X)
    (result : CallResult R S Y) : Prop where
  outputs : result.outputs = ((W.forward rt (past ++ p.tokens) W.newState).1).drop past.length
  columns : result.columns = p.columns.map fun j => (W.forward rt (past ++ p.tokens.take (j + 1)) W.newState).2
  state : result.state = (W.forward rt (past ++ p.committed) W.newState).2

end Faithful

/-- Whatever the tokens, the weights, the kernels and the other rows of the batches. -/
def PathIndependent (C : GdnConfig) (rt : Runtime) (cut : List Shape) : Prop :=
  ∀ (R S X Y : Type) [Zero R] [Add R] [Mul R] [InvolutiveNeg R] (W : Weights C R S X Y) (ps : List (Piece R S X)),
    ps.map Piece.shape = cut → (∀ p ∈ ps, p.Alone) →
    (decided (flashinferGdnDecodeEnabled C rt) = true → ∀ h < C.numVHeads, W.nonneg (W.aLog h) = false) →
    ∀ front p back, ps = front ++ p :: back →
      ∃ state result, runPieces W rt W.newState front = .ok state ∧ runPiece W rt state p = .ok result ∧
        Faithful W rt (front.flatMap Piece.committed) p result

section Sound

variable {C : GdnConfig} {R S X Y : Type} [Zero R] [Add R] [Mul R] [InvolutiveNeg R]
variable {W : Weights C R S X Y} {rt : Runtime}
variable {hasPreviousState : Bool} {p : Piece R S X}

def ownReading (W : Weights C R S X Y) : Reading R := ⟨true, false, true, W.decayScale⟩

structure Agrees (W : Weights C R S X Y) (ρ : Reading R) : Prop where
  norm : ∀ head, ρ.norm W head = W.l2norm head
  heads : ∀ h < C.numVHeads, C.keyHead ρ.expanded h = C.keyHead true h
  scale : ∀ h < C.numVHeads, ρ.scale h = W.decayScale h

theorem Agrees.tokenStep {ρ : Reading R} (h : Agrees W ρ) : W.tokenStep ρ = W.tokenStep (ownReading W) := by
  have hread : W.read ρ = W.read (ownReading W) := by
    funext state x column
    have hhead : ∀ i ∈ range C.numVHeads,
        W.readHead ρ state x column i = W.readHead (ownReading W) state x column i := by
      intro i hi
      have hin := mem_range.mp hi
      unfold readHead Weights.g
      rw [h.norm, h.norm, h.heads i hin, h.scale i hin]
      rfl
    rw [read_eq, read_eq]
    exact Prod.ext (map_congr_left fun i hi => congrArg Prod.fst (hhead i hi))
      (map_congr_left fun i hi => congrArg Prod.snd (hhead i hi))
  have hcore : W.coreStep ρ = W.coreStep (ownReading W) := by
    funext state p
    rw [coreStep, coreStep, hread]
  rw [Weights.tokenStep, Weights.tokenStep, hcore]

section

variable {ρ : Reading R} (h : Agrees W ρ) (start : List (List R) × List S) (xs : List X)
include h

theorem Agrees.stateAfter : W.stateAfter ρ start xs = W.stateAfter (ownReading W) start xs := by
  rw [Weights.stateAfter, Weights.stateAfter, h.tokenStep]

theorem Agrees.outputsAfter : W.outputsAfter ρ start xs = W.outputsAfter (ownReading W) start xs := by
  rw [Weights.outputsAfter, Weights.outputsAfter, h.tokenStep]

end

omit [Zero R] [Add R] [Mul R] in
theorem agrees_chunkReading : Agrees W (W.chunkReading rt) where
  norm head := by
    unfold Reading.norm Reading.prepare chunkReading
    cases rt.vllmPrefillPrep && rt.isCuda <;> rfl
  heads _ _ := rfl
  scale _ _ := rfl

omit [Zero R] [Add R] [Mul R] in
theorem agrees_decodeReading (use : Bool)
    (hnegative : use = true → ∀ h < C.numVHeads, W.nonneg (W.aLog h) = false)
    (hgguf : use = true → C.ggufDirectDecay = true) : Agrees W (W.decodeReading use) where
  norm _ := rfl
  heads _ _ := rfl
  scale h hh := by
    cases use with
    | false => rfl
    | true =>
      change -W.exp (W.log (-W.aLog h)) = W.decayScale h
      rw [W.exp_log _ (hnegative rfl h hh), neg_neg, decayScale, if_pos (hgguf rfl)]

/-- Heads that agree may stay grouped. -/
theorem keyHead_grouped (hagree : C.HeadsAgree) {h : ℕ} (hh : h < C.numVHeads) :
    C.keyHead false h = C.keyHead true h := by
  have hmul := C.headRepeat_mul
  unfold GdnConfig.keyHead
  rcases hagree with hinter | hone | hsingle
  · rw [hinter]
    rfl
  · have hk : h < C.numKHeads := by rwa [← hmul, hone, Nat.one_mul] at hh
    simp [hone, Nat.mod_eq_of_lt hk]
  · have hlt : h < C.headRepeat := by rwa [← hmul, hsingle, Nat.mul_one] at hh
    simp [hsingle, Nat.mod_one, Nat.div_eq_of_lt hlt]

omit [Zero R] [Add R] [Mul R] in
theorem kernelScale_eq (hexp : C.ggufDirectDecay = false) : W.kernelScale = W.decayScale := by
  funext h
  rw [kernelScale, decayScale, hexp]
  rfl

omit [Zero R] [Add R] [Mul R] in
theorem agrees_of_sound
    (hready : p.Ready W rt hasPreviousState) (hsound : p.shape.Sound C rt hasPreviousState) :
    Agrees W (p.reading W rt hasPreviousState) := by
  cases p with
  | forward tokens =>
    change Agrees W (if hasPreviousState && tokens.length == 1 then W.tokenReading else W.chunkReading rt)
    split
    case isTrue h =>
      obtain ⟨hprev, hone⟩ := (Bool.and_eq_true _ _).mp h
      exact ⟨fun _ => rfl, fun h hh => keyHead_grouped (hsound hprev (beq_iff_eq.mp hone)) hh, fun _ _ => rfl⟩
    case isFalse => exact agrees_chunkReading
  | prefillBatch tokens before after =>
    obtain ⟨_, use, huse⟩ := hready
    change Agrees W (W.prefillReading rt (decided (flashinferGdnPrefillEnabled rt)))
    rw [huse]
    cases use with
    | false => exact agrees_chunkReading
    | true =>
      obtain ⟨hagree, hprep⟩ := hsound huse
      have hcuda : rt.isCuda = true := by
        unfold flashinferGdnPrefillEnabled at huse
        cases hdevice : rt.isCuda with
        | true => rfl
        | false => simp [hdevice] at huse; split at huse <;> cases huse
      have hnorm : ∀ head, (W.flashinferReading rt).norm W head = W.l2norm head := by
        intro head
        simp [Reading.norm, Reading.prepare, flashinferReading, hprep, hcuda]
      exact ⟨hnorm, fun h hh => keyHead_grouped hagree hh, fun _ _ => rfl⟩
  | decodeBatch token before after =>
    obtain ⟨_, use, huse, hnegative⟩ := hready
    change Agrees W (W.decodeReading (decided (flashinferGdnDecodeEnabled C rt)))
    rw [huse]
    apply agrees_decodeReading _ hnegative
    rintro rfl
    unfold flashinferGdnDecodeEnabled at huse
    cases hgguf : C.ggufDirectDecay with
    | true => rfl
    | false =>
      simp only [hgguf, Bool.not_false, Bool.true_or, if_true] at huse
      split at huse
      · cases huse
      · split at huse <;> cases huse
  | spec tokens accepted store fp32 large recurrentRows before after =>
    obtain ⟨hfp, _⟩ := hsound
    have hscale : W.specScale rt store fp32 large = W.decayScale := by
      dsimp only [specScale]
      split
      case isTrue h =>
        apply kernelScale_eq
        rcases Bool.or_eq_true_iff.mp h with h | h
        · exact (hfp h).2
        · simp only [Bool.and_eq_true, Bool.not_eq_true'] at h
          exact h.1.1.1.2
      case isFalse => rfl
    refine ⟨fun _ => rfl, fun h hh => ?_, fun h _ => congrFun hscale h⟩
    change C.keyHead (!fp32) h = _
    cases fp32 with
    | false => rfl
    | true => exact keyHead_grouped (hfp rfl).1 hh

omit [Zero R] [Add R] [Mul R] [InvolutiveNeg R] in
theorem start_of_sound {state : GdnLayerState R S}
    (hsound : p.shape.Sound C rt hasPreviousState) : p.start rt state = state.recurrentState := by
  cases p with
  | forward tokens => rfl
  | prefillBatch tokens before after => rfl
  | decodeBatch token before after => rfl
  | spec tokens accepted store fp32 large recurrentRows before after =>
    obtain ⟨_, hindexed⟩ := hsound
    refine if_neg ?_
    rintro ⟨hstore, hkernel⟩
    obtain ⟨hfp, hcuda, hdtype⟩ := hindexed hstore
    exact hkernel (by rw [hfp, hcuda, hdtype]; rfl)

/-- The state of a sequence behind some tokens, the new one behind none. -/
def along (W : Weights C R S X Y) (past : List X) : GdnLayerState R S :=
  if past.isEmpty then W.newState else W.stateAfter (ownReading W) (zeroWindow C, W.zeroRecurrent) past

theorem along_parts (past : List X) :
    ((along W past).convState, (along W past).recurrentState) =
      (Cascade.run (W.tokenStep (ownReading W)) (zeroWindow C, W.zeroRecurrent) past).1 := by
  cases past with
  | nil => rfl
  | cons x past => rfl

theorem along_hasPreviousState (past : List X) : (along W past).hasPreviousState = !past.isEmpty := by
  cases past with
  | nil => rfl
  | cons x past => rfl

theorem along_live (past : List X) : W.Live (along W past) := by
  constructor
  · have hwindow := congrArg Prod.fst (along_parts (W := W) past)
    rw [run_tokenStep _ length_zeroWindow] at hwindow
    change (along W past).convState = _ at hwindow
    rw [hwindow]
    exact length_windowAfter length_zeroWindow past
  · intro hnone
    rw [along_hasPreviousState, Bool.not_eq_false'] at hnone
    rw [along, if_pos hnone]

theorem stateAfter_along (past xs : List X) (hxs : xs ≠ []) :
    W.stateAfter (ownReading W) ((along W past).convState, (along W past).recurrentState) xs =
      along W (past ++ xs) := by
  have hfull : (past ++ xs).isEmpty = false := isEmpty_of_ne (append_ne_nil_of_right_ne_nil past hxs)
  rw [along_parts, along, hfull, Weights.stateAfter, Weights.stateAfter, Cascade.run_append]
  rfl

theorem outputsAfter_along (past xs : List X) :
    W.outputsAfter (ownReading W) ((along W past).convState, (along W past).recurrentState) xs =
      (W.outputsAfter (ownReading W) (zeroWindow C, W.zeroRecurrent) (past ++ xs)).drop past.length := by
  rw [along_parts, Weights.outputsAfter, Weights.outputsAfter, Cascade.run_append, drop_left' (Cascade.run_length ..)]

/-- The whole stream in one chunk. -/
theorem forward_newState {xs : List X} (hxs : xs ≠ []) :
    W.forward rt xs W.newState =
      (W.outputsAfter (ownReading W) (zeroWindow C, W.zeroRecurrent) xs, along W xs) := by
  have hlive : W.Live (W.newState : GdnLayerState R S) := along_live []
  rw [forward_eq hlive hxs]
  change (W.outputsAfter (W.chunkReading rt) _ xs, W.stateAfter (W.chunkReading rt) _ xs) = _
  rw [agrees_chunkReading.outputsAfter, agrees_chunkReading.stateAfter, along, isEmpty_of_ne hxs]
  rfl

omit [Zero R] [Add R] [Mul R] in
theorem tokens_ne_nil (hready : p.Ready W rt hasPreviousState) :
    p.tokens ≠ [] := by
  cases p with
  | forward tokens => exact hready
  | prefillBatch tokens before after => exact hready.1
  | decodeBatch token before after => exact cons_ne_nil _ _
  | spec tokens accepted store fp32 large recurrentRows before after => exact hready.2.1

omit [Zero R] [Add R] [Mul R] in
/-- Only a verify block behind other calls commits nothing. -/
theorem committed_ne_nil (hready : p.Ready W rt hasPreviousState)
    (hfirst : hasPreviousState = false) : p.committed ≠ [] := by
  cases p with
  | forward tokens => exact hready
  | prefillBatch tokens before after => exact hready.1
  | decodeBatch token before after => exact cons_ne_nil _ _
  | spec tokens accepted store fp32 large recurrentRows before after =>
    rw [hfirst] at hready
    exact absurd hready.1 (by decide)

theorem runPiece_faithful (past : List X) (hready : p.Ready W rt (!past.isEmpty))
    (hsound : p.shape.Sound C rt (!past.isEmpty)) :
    ∃ result, runPiece W rt (along W past) p = .ok result ∧ Faithful W rt past p result ∧
      result.state = along W (past ++ p.committed) := by
  have hprev := along_hasPreviousState (W := W) past
  have hagree : Agrees W (p.reading W rt (along W past).hasPreviousState) := by
    rw [hprev]
    exact agrees_of_sound hready hsound
  have hstart : p.start rt (along W past) = (along W past).recurrentState := start_of_sound hsound
  have htokens := tokens_ne_nil hready
  have hall : past ++ p.tokens ≠ [] := append_ne_nil_of_right_ne_nil past htokens
  have hcommitted : past ++ p.committed ≠ [] := by
    cases hpast : past.isEmpty with
    | false => exact append_ne_nil_of_left_ne_nil (isEmpty_eq_false_iff.mp hpast) _
    | true => exact append_ne_nil_of_right_ne_nil past (committed_ne_nil hready (by rw [hpast]; rfl))
  have hstate : (if p.committed.isEmpty then along W past
      else W.stateAfter (ownReading W) ((along W past).convState, (along W past).recurrentState) p.committed) =
      along W (past ++ p.committed) := by
    cases hnone : p.committed.isEmpty with
    | true =>
      rw [isEmpty_iff.mp hnone, append_nil]
      rfl
    | false => exact stateAfter_along past _ (isEmpty_eq_false_iff.mp hnone)
  have hcall := runPiece_eq (along_live past) (by rw [hprev]; exact hready)
  dsimp only at hcall
  simp only [hagree.outputsAfter, hagree.stateAfter, hstart, hstate] at hcall
  refine ⟨_, hcall, ⟨?_, ?_, ?_⟩, rfl⟩
  · rw [forward_newState hall]
    exact outputsAfter_along past _
  · apply map_congr_left
    intro j _
    have htake : p.tokens.take (j + 1) ≠ [] := by
      rw [Ne, take_eq_nil_iff]
      exact not_or_intro (Nat.succ_ne_zero j) htokens
    rw [forward_newState (append_ne_nil_of_right_ne_nil past htake)]
    exact stateAfter_along past _ htake
  · rw [forward_newState hcommitted]

omit [Zero R] [Add R] [Mul R] in
/-- What a cut, its companions and the decays promise of every call. -/
theorem ready_of_shape (hshape : p.shape.Ready C rt hasPreviousState)
    (halone : p.Alone)
    (hnegative : decided (flashinferGdnDecodeEnabled C rt) = true → ∀ h < C.numVHeads, W.nonneg (W.aLog h) = false) :
    p.Ready W rt hasPreviousState := by
  cases p with
  | forward tokens => exact length_pos_iff.mp hshape
  | prefillBatch tokens before after => exact ⟨length_pos_iff.mp hshape.1, hshape.2⟩
  | decodeBatch token before after =>
    obtain ⟨hprev, use, huse⟩ := hshape
    exact ⟨hprev, use, huse, fun htrue => hnegative (by rw [huse, htrue]; rfl)⟩
  | spec tokens accepted store fp32 large recurrentRows before after =>
    obtain ⟨hprev, htokens, haccepted, hsnap, htypes⟩ := hshape
    exact ⟨hprev, length_pos_iff.mp htokens, haccepted,
      fun hstore => ⟨(halone hstore).1, (halone hstore).2, hsnap hstore⟩, htypes⟩

theorem runPieces_concat (state : GdnLayerState R S) (front : List (Piece R S X)) (p : Piece R S X)
    {middle : GdnLayerState R S} {result : CallResult R S Y} (hfront : runPieces W rt state front = .ok middle)
    (hp : runPiece W rt middle p = .ok result) : runPieces W rt state (front ++ [p]) = .ok result.state := by
  induction front generalizing state with
  | nil =>
    obtain rfl : state = middle := Except.ok.inj hfront
    rw [nil_append, runPieces, hp]
    rfl
  | cons q front ih =>
    rw [runPieces] at hfront
    rw [cons_append, runPieces]
    cases hq : runPiece W rt state q with
    | error e =>
      rw [hq] at hfront
      cases hfront
    | ok first =>
      rw [hq] at hfront
      exact ih first.state hfront

omit [Zero R] [Add R] [Mul R] in
/-- The first call of a cut commits a token. -/
theorem committed_isEmpty {ps : List (Piece R S X)}
    (hready : ∀ front p back, ps = front ++ p :: back → p.Ready W rt (!front.isEmpty))
    {front back : List (Piece R S X)} (hps : ps = front ++ back) :
    (front.flatMap Piece.committed).isEmpty = front.isEmpty := by
  cases front with
  | nil => rfl
  | cons p front =>
    apply isEmpty_of_ne
    rw [flatMap_cons]
    exact append_ne_nil_of_left_ne_nil (committed_ne_nil (hready [] p _ hps) rfl) _

/-- A cut of sound calls leads along the stream. -/
theorem runPieces_along {ps : List (Piece R S X)}
    (hready : ∀ front p back, ps = front ++ p :: back → p.Ready W rt (!front.isEmpty))
    (hsound : ∀ front p back, ps = front ++ p :: back → p.shape.Sound C rt (!front.isEmpty)) :
    ∀ front back, ps = front ++ back →
      runPieces W rt W.newState front = .ok (along W (front.flatMap Piece.committed)) := by
  intro front
  induction front using reverseRecOn with
  | nil =>
    intro back _
    rfl
  | append_singleton front p ih =>
    intro back hps
    rw [append_assoc] at hps
    have hempty := committed_isEmpty hready hps
    obtain ⟨result, hcall, _, hstate⟩ := runPiece_faithful (front.flatMap Piece.committed)
      (by rw [hempty]; exact hready front p back hps) (by rw [hempty]; exact hsound front p back hps)
    rw [runPieces_concat _ _ _ (ih _ hps) hcall, hstate, flatMap_append, flatMap_singleton]

/-- A faithful call shows a stretch of the stream after which its own reading has the state of the layer. -/
theorem exists_stretch {past : List X} (hready : p.Ready W rt (!past.isEmpty))
    {result : CallResult R S Y} (hcall : runPiece W rt (along W past) p = .ok result)
    (hfaithful : Faithful W rt past p result) :
    ∃ xs, xs ≠ [] ∧ W.stateAfter (p.reading W rt (!past.isEmpty))
      ((along W past).convState, p.start rt (along W past)) xs = along W (past ++ xs) := by
  have hprev := along_hasPreviousState (W := W) past
  have hown := runPiece_eq (along_live past) (by rw [hprev]; exact hready)
  rw [hcall, hprev] at hown
  have hresult := Except.ok.inj hown
  have hwhole : p.committed ≠ [] →
      W.stateAfter (p.reading W rt (!past.isEmpty)) ((along W past).convState, p.start rt (along W past))
        p.committed = along W (past ++ p.committed) := by
    intro hne
    have hstate := hfaithful.state
    rw [forward_newState (append_ne_nil_of_right_ne_nil past hne), hresult, isEmpty_of_ne hne] at hstate
    exact hstate
  cases p with
  | forward tokens => exact ⟨tokens, hready, hwhole hready⟩
  | prefillBatch tokens before after => exact ⟨tokens, hready.1, hwhole hready.1⟩
  | decodeBatch token before after =>
    exact ⟨[token], cons_ne_nil _ _, hwhole (cons_ne_nil _ _)⟩
  | spec tokens accepted store fp32 large recurrentRows before after =>
    have htokens := hready.2.1
    have hpos := length_pos_iff.mpr htokens
    have htake : tokens.take 1 ≠ [] := by
      rw [Ne, take_eq_nil_iff]
      exact not_or_intro (by decide) htokens
    refine ⟨tokens.take 1, htake, ?_⟩
    have hcolumns := hfaithful.columns
    rw [hresult] at hcolumns
    have hfirst := congrArg (fun columns => columns[0]?) hcolumns
    dsimp only at hfirst
    rw [getElem?_map, getElem?_map] at hfirst
    change Option.map _ ((range tokens.length)[0]?) = Option.map _ ((range tokens.length)[0]?) at hfirst
    rw [getElem?_range hpos] at hfirst
    exact (Option.some.inj hfirst).trans
      (congrArg Prod.snd (forward_newState (append_ne_nil_of_right_ne_nil past htake)))

omit [Zero R] [Add R] [Mul R] [InvolutiveNeg R] in
theorem cut_of_split {ps front back : List (Piece R S X)} (hps : ps = front ++ p :: back) :
    ps.map Piece.shape = front.map Piece.shape ++ p.shape :: back.map Piece.shape := by
  rw [hps, map_append, map_cons]

end Sound

theorem pathIndependent_of_sound {C : GdnConfig} {rt : Runtime}
    (hready : Throughout (Shape.Ready C rt) cut) (hsound : Throughout (Shape.Sound C rt) cut) :
    PathIndependent C rt cut := by
  intro R S X Y _ _ _ _ W ps hshape halone hnegative front p back hps
  have hpiece : ∀ front p back, ps = front ++ p :: back → p.Ready W rt (!front.isEmpty) := by
    intro front p back hps
    have h := hready _ _ _ (hshape ▸ cut_of_split hps)
    rw [isEmpty_map] at h
    exact ready_of_shape h (halone p (by rw [hps]; simp)) hnegative
  have hpath : ∀ front p back, ps = front ++ p :: back → p.shape.Sound C rt (!front.isEmpty) := by
    intro front p back hps
    have h := hsound _ _ _ (hshape ▸ cut_of_split hps)
    rwa [isEmpty_map] at h
  have hrun := runPieces_along hpiece hpath front (p :: back) hps
  have hempty := committed_isEmpty hpiece hps
  obtain ⟨result, hcall, hfaithful, _⟩ := runPiece_faithful (front.flatMap Piece.committed)
    (by rw [hempty]; exact hpiece front p back hps) (by rw [hempty]; exact hpath front p back hps)
  exact ⟨_, result, hrun, hcall, hfaithful⟩

section Trace

variable {window : List (List ℤ)}

/-- A layer whose recurrent state lists every query and decay it has read, the last one first. -/
def traceWeights (C : GdnConfig) : Weights C ℤ (List (List ℤ × ℤ)) Unit Unit where
  projectQkvz _ := (range (C.convDim + C.valueDim)).map Int.ofNat
  projectBa _ := []
  convWeight _ k := if k = C.convKernelSize - 1 then 1 else 0
  dtBias _ := 0
  aLog _ := -1
  silu x := x
  softplus _ := 1
  sigmoid x := x
  exp x := x
  log x := x
  nonneg x := decide (0 ≤ x)
  exp_log _ _ := rfl
  l2norm head := 0 :: head
  step state query _ _ g _ := ((query, g) :: state, [])
  zero := []
  norm _ _ := []
  outProj _ := ()

variable {C : GdnConfig} {rt : Runtime}

theorem foldl_last_tap (n : ℕ) (f : ℕ → ℤ) :
    (range (n + 1)).foldl (fun acc k => acc + (if k = n then 1 else 0) * f k) 0 = f n := by
  have hfront : ∀ m ≤ n, (range m).foldl (fun acc k => acc + (if k = n then 1 else 0) * f k) 0 = 0 := by
    intro m
    induction m with
    | zero => intro _; rfl
    | succ m ih =>
      intro hm
      rw [range_succ, foldl_append, ih (by omega), foldl_cons, foldl_nil, if_neg (by omega),
        Int.zero_mul, Int.add_zero]
  rw [range_succ, foldl_append, hfront n (le_refl n), foldl_cons, foldl_nil, if_pos rfl,
    Int.one_mul, Int.zero_add]

def traceColumn (C : GdnConfig) : List ℤ := (range C.convDim).map Int.ofNat

theorem trace_mixedQkv (x : Unit) : (traceWeights C).mixedQkv x = traceColumn C := by
  change ((range (C.convDim + C.valueDim)).map Int.ofNat).take C.convDim = _
  rw [← map_take, take_range, min_eq_left (Nat.le_add_right _ _), traceColumn]

theorem trace_tap (hw : window.length = C.convKernelSize) (x : Unit) :
    (traceWeights C).tap ((traceWeights C).windowAfter window [x]) = traceColumn C := by
  have hpos := C.convKernelSize_pos
  obtain ⟨n, hn⟩ : ∃ n, C.convKernelSize = n + 1 := ⟨C.convKernelSize - 1, by omega⟩
  have hlast : ((traceWeights C).windowAfter window [x]).getD n [] = traceColumn C := by
    rw [windowAfter_singleton hw, trace_mixedQkv, getD_eq_getElem?_getD,
      getElem?_append_right (by rw [length_drop]; omega), length_drop, hw, hn, Nat.add_sub_cancel,
      Nat.sub_self]
    rfl
  rw [Weights.tap, traceColumn]
  apply map_congr_left
  intro c hc
  have hfold := foldl_last_tap n fun k => (((traceWeights C).windowAfter window [x]).getD k []).getD c 0
  change (range C.convKernelSize).foldl (fun acc k => acc + (if k = C.convKernelSize - 1 then 1 else 0) * _) 0 = _
  rw [hn]
  rw [Nat.add_sub_cancel]
  refine hfold.trans ?_
  rw [hlast]
  exact map_range_getD Int.ofNat (mem_range.mp hc) 0

/-- What a path appends to the list of a value head. -/
def traceEntry (C : GdnConfig) (ρ : Reading ℤ) (h : ℕ) : List ℤ × ℤ :=
  (ρ.norm (traceWeights C) (queryOf C (traceColumn C) (C.keyHead ρ.expanded h)), ρ.scale h * 1)

section

variable (ρ : Reading ℤ) (hw : window.length = C.convKernelSize) (start : List (List (List ℤ × ℤ))) {h : ℕ}
include hw

theorem trace_concat (xs : List Unit) (hh : h < C.numVHeads) :
    ((traceWeights C).stateAfter ρ (window, start) (xs ++ [()])).recurrentState.getD h [] =
      traceEntry C ρ h :: ((traceWeights C).stateAfter ρ (window, start) xs).recurrentState.getD h [] := by
  have hwindow : (Cascade.run ((traceWeights C).tokenStep ρ) (window, start) xs).1.1.length = C.convKernelSize := by
    rw [run_tokenStep ρ hw]
    exact length_windowAfter hw xs
  have hread : ∀ state : List (List (List ℤ × ℤ)),
      ((traceWeights C).read ρ state () (traceColumn C)).1.getD h [] = traceEntry C ρ h :: state.getD h [] := by
    intro state
    rw [read_eq]
    exact map_range_getD _ hh []
  rw [Weights.stateAfter, Weights.stateAfter, Cascade.run_concat]
  refine Eq.trans ?_ (hread _)
  rw [← trace_tap hwindow ()]
  rfl

theorem trace_head {xs : List Unit} (hxs : xs ≠ []) (hh : h < C.numVHeads) :
    (((traceWeights C).stateAfter ρ (window, start) xs).recurrentState.getD h []).head? = some (traceEntry C ρ h) := by
  have hlast : xs = xs.dropLast ++ [()] := (dropLast_append_getLast hxs).symm
  rw [hlast, trace_concat ρ hw start _ hh]
  rfl

theorem trace_length (xs : List Unit) (hh : h < C.numVHeads) :
    (((traceWeights C).stateAfter ρ (window, start) xs).recurrentState.getD h []).length =
      (start.getD h []).length + xs.length := by
  induction xs using reverseRecOn with
  | nil => rfl
  | append_singleton xs x ih =>
    rw [trace_concat ρ hw start xs hh, length_cons, ih, length_append]
    rfl

end

/-- The queries of different key heads start at different channels. -/
theorem queryOf_head {i : ℕ} (hi : i < C.numKHeads) :
    (queryOf C (traceColumn C) i).head? = some (Int.ofNat (i * C.headKDim)) := by
  have hpos := C.headKDim_pos
  have hin : i * C.headKDim < C.keyDim := by
    rw [GdnConfig.keyDim, Nat.mul_comm]
    exact Nat.mul_lt_mul_of_pos_left hi hpos
  have hconv : C.keyDim ≤ C.convDim := by
    unfold GdnConfig.convDim
    omega
  rw [queryOf, head?_take, if_neg (by omega), head?_drop, getElem?_take_of_lt hin, traceColumn,
    getElem?_map, getElem?_range (by omega)]
  rfl

theorem length_queryOf {i : ℕ} (hi : i < C.numKHeads) : (queryOf C (traceColumn C) i).length = C.headKDim := by
  have hin : (i + 1) * C.headKDim ≤ C.keyDim := by
    rw [GdnConfig.keyDim, Nat.mul_comm C.headKDim]
    exact Nat.mul_le_mul_right _ hi
  have hconv : C.keyDim ≤ C.convDim := by
    unfold GdnConfig.convDim
    omega
  rw [Nat.succ_mul] at hin
  simp only [queryOf, traceColumn, length_take, length_drop, length_map, length_range]
  omega

/-- Only heads that agree are read alike grouped and expanded. -/
theorem headsAgree_of_keyHead (h : ∀ i < C.numVHeads, C.keyHead false i = C.keyHead true i) : C.HeadsAgree := by
  by_contra hagree
  simp only [GdnConfig.HeadsAgree, not_or, Bool.not_eq_false] at hagree
  obtain ⟨hgguf, hrepeat, hheads⟩ := hagree
  have hmul := C.headRepeat_mul
  have hr := C.headRepeat_pos
  have hk := C.numKHeads_pos
  have hone : 1 < C.numVHeads := by
    rw [← hmul]
    exact lt_of_lt_of_le (by omega) (Nat.mul_le_mul (show 2 ≤ C.headRepeat by omega) hk)
  have hsecond := h 1 hone
  simp only [GdnConfig.keyHead, hgguf, Bool.false_and, Bool.true_and, if_true] at hsecond
  rw [Nat.mod_eq_of_lt (by omega), if_neg (by decide), Nat.div_eq_of_lt (by omega)] at hsecond
  exact absurd hsecond (by decide)

end Trace

section Necessary

variable {C : GdnConfig} {rt : Runtime}
variable {p : Piece ℤ (List (List ℤ × ℤ)) Unit}

/-- A call with tokens of no content and no rows beside it. -/
def Shape.piece {R S : Type} : Shape → Piece R S Unit
  | .forward tokens => .forward (replicate tokens ())
  | .prefillBatch tokens => .prefillBatch (replicate tokens ()) [] []
  | .decodeBatch => .decodeBatch () [] []
  | .spec tokens accepted store fp32 batchLargeProjections =>
    .spec (replicate tokens ()) accepted store fp32 batchLargeProjections [] [] []

theorem shape_piece {R S : Type} (s : Shape) : (s.piece : Piece R S Unit).shape = s := by
  cases s <;> simp [Shape.piece, Piece.shape]

theorem alone_piece {R S : Type} (s : Shape) : (s.piece : Piece R S Unit).Alone := by
  cases s with
  | forward tokens => trivial
  | prefillBatch tokens => trivial
  | decodeBatch => trivial
  | spec tokens accepted store fp32 large => exact fun _ => ⟨rfl, rfl⟩

theorem trace_negative (h : ℕ) : (traceWeights C).nonneg ((traceWeights C).aLog h) = false := rfl

/-- A reading that normalises once and leaves the trace of the layer finds the heads of the layer. -/
theorem headsAgree_of_trace {ρ : Reading ℤ} (hexpanded : ρ.expanded = false)
    (hnorm : ∀ head, ρ.norm (traceWeights C) head = 0 :: head)
    (hentry : ∀ h < C.numVHeads, traceEntry C ρ h = traceEntry C (ownReading (traceWeights C)) h) :
    C.HeadsAgree := by
  apply headsAgree_of_keyHead
  intro h hh
  have hquery := congrArg Prod.fst (hentry h hh)
  change ρ.norm (traceWeights C) _ = 0 :: queryOf C (traceColumn C) (C.keyHead true h) at hquery
  rw [hnorm, hexpanded, List.cons.injEq] at hquery
  have hheads := congrArg head? hquery.2
  rw [queryOf_head (C.keyHead_lt false hh), queryOf_head (C.keyHead_lt true hh)] at hheads
  exact Nat.eq_of_mul_eq_mul_right C.headKDim_pos (Int.ofNat.inj (Option.some.inj hheads))

section

variable {cut : List Shape} (hready : Throughout (Shape.Ready C rt) cut)
  {front back : List (Piece ℤ (List (List ℤ × ℤ)) Unit)}
include hready

theorem ready_piece
    (hps : cut.map Shape.piece = front ++ p :: back) : p.Ready (traceWeights C) rt (!front.isEmpty) := by
  have hshapes : cut = front.map Piece.shape ++ p.shape :: back.map Piece.shape := by
    have h := cut_of_split hps
    rw [map_map, show (Piece.shape ∘ Shape.piece : Shape → Shape) = id from funext shape_piece,
      map_id] at h
    exact h
  have hmem : p ∈ cut.map Shape.piece := by rw [hps]; simp
  obtain ⟨s, _, rfl⟩ := mem_map.mp hmem
  have h := hready _ _ _ hshapes
  rw [isEmpty_map] at h
  exact ready_of_shape h (alone_piece s) fun _ i _ => trace_negative i

/-- In a path independent cut the calls of the trace run along the stream. -/
theorem trace_along (hindependent : PathIndependent C rt cut)
    (hps : cut.map Shape.piece = front ++ p :: back) :
    ∃ result, runPiece (traceWeights C) rt (along (traceWeights C) (front.flatMap Piece.committed)) p = .ok result ∧
      Faithful (traceWeights C) rt (front.flatMap Piece.committed) p result := by
  have hshape : (cut.map Shape.piece : List (Piece ℤ (List (List ℤ × ℤ)) Unit)).map Piece.shape = cut := by
    rw [map_map, show (Piece.shape ∘ Shape.piece : Shape → Shape) = id from funext shape_piece, map_id]
  have halone : ∀ q ∈ (cut.map Shape.piece : List (Piece ℤ (List (List ℤ × ℤ)) Unit)), q.Alone := by
    intro q hq
    obtain ⟨s, _, rfl⟩ := mem_map.mp hq
    exact alone_piece s
  have hall := hindependent ℤ _ Unit Unit (traceWeights C) _ hshape halone fun _ i _ => trace_negative i
  obtain ⟨state, result, hrun, hcall, hfaithful⟩ := hall front p back hps
  have hstate : state = along (traceWeights C) (front.flatMap Piece.committed) := by
    cases front using reverseRecOn with
    | nil => exact (Except.ok.inj hrun).symm
    | append_singleton front q =>
      rw [append_assoc] at hps
      obtain ⟨middle, before, hmiddle, hbefore, hpast⟩ := hall front q (p :: back) hps
      rw [runPieces_concat _ _ _ hmiddle hbefore] at hrun
      have hempty := committed_isEmpty (fun _ _ _ h => ready_piece hready h) (hps.trans (append_assoc ..).symm)
      rw [isEmpty_of_ne (append_ne_nil_of_right_ne_nil front (cons_ne_nil q []))] at hempty
      have hnext := hpast.state
      rw [← flatMap_singleton Piece.committed q, ← flatMap_append,
        forward_newState (isEmpty_eq_false_iff.mp hempty)] at hnext
      exact (Except.ok.inj hrun).symm.trans hnext
  subst hstate
  exact ⟨result, hcall, hfaithful⟩

end

/-- The trace of a faithful call is that of the layer, and it goes on from all tokens of the past. -/
theorem trace_of_faithful {past : List Unit}
    (hready : p.Ready (traceWeights C) rt (!past.isEmpty)) {result : CallResult ℤ (List (List ℤ × ℤ)) Unit}
    (hcall : runPiece (traceWeights C) rt (along (traceWeights C) past) p = .ok result)
    (hfaithful : Faithful (traceWeights C) rt past p result) :
    (∀ h < C.numVHeads, traceEntry C (p.reading (traceWeights C) rt (!past.isEmpty)) h =
      traceEntry C (ownReading (traceWeights C)) h) ∧
      ((p.start rt (along (traceWeights C) past)).getD 0 []).length = past.length := by
  obtain ⟨xs, hxs, hstretch⟩ := exists_stretch hready hcall hfaithful
  have hwindow := (along_live (W := traceWeights C) past).window
  have hall : past ++ xs ≠ [] := append_ne_nil_of_right_ne_nil past hxs
  rw [show along (traceWeights C) (past ++ xs) = (traceWeights C).stateAfter (ownReading (traceWeights C))
    (zeroWindow C, (traceWeights C).zeroRecurrent) (past ++ xs) by rw [along, isEmpty_of_ne hall]; rfl] at hstretch
  constructor
  · intro h hh
    have hhead := trace_head (p.reading (traceWeights C) rt (!past.isEmpty)) hwindow
      (p.start rt (along (traceWeights C) past)) hxs hh
    rw [hstretch, trace_head _ length_zeroWindow _ hall hh] at hhead
    exact (Option.some.inj hhead).symm
  · have hlength := trace_length (p.reading (traceWeights C) rt (!past.isEmpty)) hwindow
      (p.start rt (along (traceWeights C) past)) xs C.numVHeads_pos
    rw [hstretch, trace_length _ length_zeroWindow _ _ C.numVHeads_pos, length_append] at hlength
    have hzero : ((traceWeights C).zeroRecurrent.getD 0 []).length = 0 := by
      rw [zeroRecurrent, getD_eq_getElem?_getD, getElem?_replicate, if_pos C.numVHeads_pos]
      rfl
    omega

theorem sound_of_pathIndependent (hready : Throughout (Shape.Ready C rt) cut)
    (hindependent : PathIndependent C rt cut) : Throughout (Shape.Sound C rt) cut := by
  intro front s back hcut
  have hps : (cut.map Shape.piece : List (Piece ℤ (List (List ℤ × ℤ)) Unit)) =
      front.map Shape.piece ++ s.piece :: back.map Shape.piece := by
    rw [hcut, map_append, map_cons]
  obtain ⟨result, hcall, hfaithful⟩ := trace_along hready hindependent hps
  have hempty := committed_isEmpty (fun _ _ _ h => ready_piece hready h) hps
  rw [isEmpty_map] at hempty
  generalize (front.map Shape.piece : List (Piece ℤ (List (List ℤ × ℤ)) Unit)).flatMap Piece.committed = past
    at hcall hfaithful hempty
  have hpiece := ready_piece hready hps
  rw [isEmpty_map, ← hempty] at hpiece
  obtain ⟨hentry, hlength⟩ := trace_of_faithful hpiece hcall hfaithful
  rw [hempty] at hentry hpiece
  cases s with
  | forward tokens =>
    intro hprev hone
    have hreading : (Shape.piece (.forward tokens) : Piece ℤ (List (List ℤ × ℤ)) Unit).reading
        (traceWeights C) rt (!front.isEmpty) = (traceWeights C).tokenReading := by
      change (if (!front.isEmpty) && (replicate tokens ()).length == 1 then _ else _) = _
      rw [hprev, hone]
      rfl
    rw [hreading] at hentry
    exact headsAgree_of_trace rfl (fun _ => rfl) hentry
  | prefillBatch tokens =>
    intro huse
    have hreading : (Shape.piece (.prefillBatch tokens) : Piece ℤ (List (List ℤ × ℤ)) Unit).reading
        (traceWeights C) rt (!front.isEmpty) = (traceWeights C).flashinferReading rt := by
      change (traceWeights C).prefillReading rt (decided (flashinferGdnPrefillEnabled rt)) = _
      rw [huse]
      rfl
    rw [hreading] at hentry
    cases hprep : rt.vllmPrefillPrep && rt.isCuda with
    | true =>
      have hnorm : ∀ head, ((traceWeights C).flashinferReading rt).norm (traceWeights C) head = 0 :: head := by
        intro head
        simp [Reading.norm, Reading.prepare, flashinferReading, hprep, traceWeights]
      exact ⟨headsAgree_of_trace rfl hnorm hentry, ((Bool.and_eq_true _ _).mp hprep).1⟩
    | false =>
      have hnorm : ∀ head, ((traceWeights C).flashinferReading rt).norm (traceWeights C) head = head := by
        intro head
        simp [Reading.norm, Reading.prepare, flashinferReading, hprep]
      have hquery := congrArg (fun entry => entry.1.length) (hentry 0 C.numVHeads_pos)
      change (((traceWeights C).flashinferReading rt).norm (traceWeights C) _).length =
        (0 :: queryOf C (traceColumn C) (C.keyHead true 0)).length at hquery
      rw [hnorm, length_cons, length_queryOf (C.keyHead_lt _ C.numVHeads_pos),
        length_queryOf (C.keyHead_lt _ C.numVHeads_pos)] at hquery
      omega
  | decodeBatch => trivial
  | spec tokens accepted store fp32 large =>
    have hreading : (Shape.piece (.spec tokens accepted store fp32 large) :
        Piece ℤ (List (List ℤ × ℤ)) Unit).reading (traceWeights C) rt (!front.isEmpty) =
          (traceWeights C).specReading rt store fp32 large := rfl
    rw [hreading] at hentry
    constructor
    · rintro rfl
      refine ⟨headsAgree_of_trace rfl (fun _ => rfl) hentry, ?_⟩
      have hdecay := congrArg Prod.snd (hentry 0 C.numVHeads_pos)
      change (1 : ℤ) * 1 = (if C.ggufDirectDecay then -1 else 1) * 1 at hdecay
      cases hgguf : C.ggufDirectDecay with
      | false => rfl
      | true =>
        rw [hgguf] at hdecay
        exact absurd hdecay (by decide)
    · intro hstore
      by_contra hkernel
      have hstart : (Shape.piece (.spec tokens accepted store fp32 large) :
          Piece ℤ (List (List ℤ × ℤ)) Unit).start rt (along (traceWeights C) past) = [] := by
        refine if_pos ⟨hstore, fun h => hkernel ?_⟩
        simpa [and_assoc] using h
      rw [hstart] at hlength
      have hnone := isEmpty_iff.mpr (length_eq_zero_iff.mp hlength.symm)
      rw [hempty] at hnone
      rw [hnone] at hpiece
      exact absurd hpiece.1 (by decide)

end Necessary

/-- A cut is path independent exactly when none of its calls goes by a path that reads differently. -/
theorem path_independent_iff (C : GdnConfig) (rt : Runtime) (cut : List Shape)
    (hready : Throughout (Shape.Ready C rt) cut) :
    PathIndependent C rt cut ↔ Throughout (Shape.Sound C rt) cut :=
  ⟨sound_of_pathIndependent hready, pathIndependent_of_sound hready⟩

theorem four_pos : 0 < 4 := by decide

/-- Two key heads for four value heads, tiled as in a GGUF file. -/
def tiled : GdnConfig where
  numVHeads := 4
  numKHeads := 2
  headKDim := 1
  headVDim := 1
  convKernelSize := 4
  ggufScalarFloat32 := true
  ggufDirectDecay := true
  numVHeads_pos := four_pos
  headKDim_pos := Nat.one_pos
  convKernelSize_pos := four_pos
  heads_exact := by decide

def defaults : Runtime where
  isCuda := true
  dtype := .float32
  stateDtype := .float32
  prefillBackend := "auto"
  decodeBackend := "fla"
  flashinferPrefillLoads := true
  flashinferDecodeLoads := true
  vllmPrefillPrep := true
  fusedGates := true

/-- A chunk may be followed by a step of `decode_batch`, but not by one token of `forward`. -/
theorem path_independent_iff_tiled :
    PathIndependent tiled defaults [.forward 2, .decodeBatch] ∧
      ¬ PathIndependent tiled defaults [.forward 2, .forward 1] := by
  have hdecode : Throughout (Shape.Ready tiled defaults) [.forward 2, .decodeBatch] := by
    rw [throughout_cons]
    refine ⟨Nat.zero_lt_two, fun t ht => ?_⟩
    rw [mem_singleton.mp ht]
    exact ⟨rfl, false, rfl⟩
  have htoken : Throughout (Shape.Ready tiled defaults) [.forward 2, .forward 1] := by
    rw [throughout_cons]
    refine ⟨Nat.zero_lt_two, fun t ht => ?_⟩
    rw [mem_singleton.mp ht]
    exact Nat.one_pos
  constructor
  · rw [path_independent_iff tiled defaults _ hdecode, throughout_cons]
    refine ⟨fun h => absurd h (by decide), fun t ht => ?_⟩
    rw [mem_singleton.mp ht]
    trivial
  · rw [path_independent_iff tiled defaults _ htoken, throughout_cons]
    rintro ⟨_, hsound⟩
    have hagree := hsound (.forward 1) (mem_singleton_self _) rfl rfl
    unfold GdnConfig.HeadsAgree at hagree
    exact absurd hagree (by decide)

/-- One more token by `forward` leaves another recurrent state than the same three tokens in one chunk. -/
theorem forward_token_ungrouped :
    ((traceWeights tiled).forward defaults [()]
        ((traceWeights tiled).forward defaults [(), ()] (traceWeights tiled).newState).2).2.recurrentState ≠
      ((traceWeights tiled).forward defaults [(), (), ()] (traceWeights tiled).newState).2.recurrentState := by
  decide +kernel

end GdnLayer
