import BlackweLLM.AcceptBatch
import BlackweLLM.RaggedVerify

/-!
# Greedy acceptance on the device

`kernels/dspark_accept.py` and the two places of `qwen36_dspark.py` that read or cut what
it leaves: `_decisions_from_device_accept` and `_apply_accept_caps`. Every layout is read
back to the drafts and predictions of one request, where the sequential rule decides.
-/

namespace DsparkAccept

open List MtpAccept RaggedVerify

/-- A tensor of two dimensions with inner stride one. -/
structure Matrix where
  mem : Nat → Nat
  stride : Nat

def rowFrom (mem : Nat → Nat) (start len : Nat) : List Nat := (range len).map fun c => mem (start + c)

def Matrix.row (m : Matrix) (width i : Nat) : List Nat := rowFrom m.mem (i * m.stride) width

inductive DeviceError where
  /-- "DSpark candidates must have shape [B, gamma+1]" -/
  | candidates (shape : List Nat) (gamma : Nat)
  /-- "DSpark target logits [B,Q,V] do not match candidates" -/
  | logits (logits candidates : List Nat)
  /-- "DSpark target logits [B*Q,V] have the wrong row count" -/
  | logitsRows (got expected : Nat)
  /-- "DSpark target logits must be rank 2 or 3" -/
  | logitsRank (rank : Nat)
  /-- "DSpark target query length must be gamma+1" -/
  | queryLength (gamma : Nat)
  /-- "DSpark graph accept length outside [0,gamma]" -/
  | acceptLength (gamma got : Nat)
  /-- `zip(slots, rows, strict=True)` -/
  | zipLength (slots rows : Nat)
  deriving DecidableEq, Repr

def validateInputs (candidates logits : List Nat) (gamma : Nat) : Except DeviceError (Nat × Nat) :=
  match candidates with
  | [rows, cols] =>
    if cols ≠ gamma + 1 then .error (.candidates candidates gamma)
    else
      let shape : Except DeviceError (Nat × Nat) :=
        match logits with
        | [batch, query, _] =>
          if [batch, query] ≠ candidates then .error (.logits logits candidates) else .ok (batch, query)
        | [flat, _] =>
          if flat ≠ rows * (gamma + 1) then .error (.logitsRows flat (rows * (gamma + 1))) else .ok (rows, cols)
        | _ => .error (.logitsRank logits.length)
      match shape with
      | .error e => .error e
      | .ok (batch, query) => if query ≠ gamma + 1 then .error (.queryLength gamma) else .ok (batch, query)
  | _ => .error (.candidates candidates gamma)

/-- The prefix walk of `_accept_greedy_kernel` for one row. -/
def acceptedFixed (gamma predBase candidateBase : Nat) (predicted candidates : Nat → Nat) : Nat :=
  ((range gamma).foldl
    (fun (acc : Nat × Nat) position =>
      let matches' := decide (predicted (predBase + position) = candidates (candidateBase + position + 1))
      (acc.1 + acc.2 * matches'.toNat, acc.2 * matches'.toNat))
    (0, 1)).1

/-- The output row of the kernel; behind the last draft the candidate is zero. -/
def committedFixed (gamma predBase candidateBase : Nat) (predicted candidates : Nat → Nat) : List Nat :=
  let accepted := acceptedFixed gamma predBase candidateBase predicted candidates
  (range (gamma + 1)).map fun position =>
    let prediction := predicted (predBase + position)
    let candidate := if position < gamma then candidates (candidateBase + position + 1) else 0
    if position < accepted then candidate else if position = accepted then prediction else 0

/-- `matches.cumprod(dim=1).sum(dim=1)` of one row. -/
def acceptedTorch (gamma : Nat) (predicted candidates : List Nat) : Nat :=
  (cumprod (zipWith (fun a b => decide (a = b)) (predicted.take gamma) (candidates.drop 1))).count true

/-- The two nested `torch.where` over one row. -/
def committedTorch (gamma : Nat) (predicted candidates : List Nat) : List Nat :=
  let accepted := acceptedTorch gamma predicted candidates
  let draftContinuations := candidates.drop 1 ++ [0]
  (range (gamma + 1)).map fun position =>
    if position < accepted then draftContinuations.getD position 0
    else if position = accepted then predicted.getD position 0
    else 0

/-- `greedy_accept_device` over the argmax of the target, into its own output buffers. -/
def greedyAcceptDevice (kernel : Bool) (candidatesShape logitsShape : List Nat) (gamma : Nat)
    (candidates predicted : Matrix) : Except DeviceError (List (Nat × List Nat)) :=
  match validateInputs candidatesShape logitsShape gamma with
  | .error e => .error e
  | .ok (batch, _) =>
    .ok ((range batch).map fun row =>
      if kernel then
        (acceptedFixed gamma (row * predicted.stride) (row * candidates.stride) predicted.mem candidates.mem,
          committedFixed gamma (row * predicted.stride) (row * candidates.stride) predicted.mem candidates.mem)
      else
        (acceptedTorch gamma (predicted.row (gamma + 1) row) (candidates.row (gamma + 1) row),
          committedTorch gamma (predicted.row (gamma + 1) row) (candidates.row (gamma + 1) row)))

/-- `torch.cumsum(lens)` behind a zero. -/
def compactIndptr (verifyLens : List Nat) : List Nat :=
  (range (verifyLens.length + 1)).map fun i => (verifyLens.take i).sum

/-- `greedy_accept_ragged` with its optional `q_indptr`. -/
def greedyAcceptCompact (kernel capturing : Bool) (capacity maxGamma : Nat) (candidates predicted : Nat → Nat)
    (verifyLens : List Nat) (qIndptr : Option (List Nat)) : Except RaggedVerify.AcceptError (List (Nat × List Nat)) :=
  greedyAcceptRagged kernel capturing capacity maxGamma candidates predicted verifyLens
    (qIndptr.getD (compactIndptr verifyLens))

def deviceDecision (gamma : Nat) (row : Nat × List Nat) : Except DeviceError (Decision Nat) :=
  if gamma < row.1 then .error (.acceptLength gamma row.1)
  else .ok ⟨row.1, row.2.take (row.1 + 1), if row.1 < gamma then some row.1 else none⟩

def deviceDecisions (gamma : Nat) : List (Nat × (Nat × List Nat)) → Except DeviceError (List (Nat × Decision Nat))
  | [] => .ok []
  | (slot, row) :: rest =>
    match deviceDecision gamma row with
    | .error e => .error e
    | .ok decision =>
      match deviceDecisions gamma rest with
      | .error e => .error e
      | .ok decisions => .ok ((slot, decision) :: decisions)

def decisionsFromDeviceAccept (slots : List Nat) (rows : List (Nat × List Nat)) (gamma : Nat) :
    Except DeviceError (OrderedDict Nat (Decision Nat)) :=
  match deviceDecisions gamma (slots.zip rows) with
  | .error e => .error e
  | .ok decisions =>
    if slots.length ≠ rows.length then .error (.zipLength slots.length rows.length)
    else .ok (OrderedDict.empty.update decisions)

/-- `min(max(int(caps.get(slot, gamma)), 0), gamma)` -/
def clampedCap (caps : Nat → Option Int) (gamma slot : Nat) : Nat := (min (max ((caps slot).getD gamma) 0) gamma).toNat

def capDecision (cap : Nat) (decision : Decision Nat) : Decision Nat :=
  if decision.numAccepted ≤ cap then decision
  else { numAccepted := cap, committed := decision.committed.take (cap + 1), rejectedAt := some cap }

def applyAcceptCaps (decisions : OrderedDict Nat (Decision Nat)) (caps : Nat → Option Int) (gamma : Nat) :
    OrderedDict Nat (Decision Nat) :=
  decisions.mapValues fun slot decision => capDecision (clampedCap caps gamma slot) decision

section Rows

variable {gamma maxGamma predBase candidateBase m : Nat} {predicted candidates : Nat → Nat}

theorem getD_rowFrom (mem : Nat → Nat) (start : Nat) {len c : Nat} (hc : c < len) :
    (rowFrom mem start len).getD c 0 = mem (start + c) := by
  rw [rowFrom, getD_eq_getElem?_getD, getElem?_map, getElem?_range hc]
  rfl

theorem length_rowFrom (mem : Nat → Nat) (start len : Nat) : (rowFrom mem start len).length = len := by
  simp [rowFrom]

theorem committedRow_congr {prediction prediction' candidate candidate' : Nat → Nat}
    (hprediction : prediction m = prediction' m) (hcandidate : ∀ c < m, candidate c = candidate' c) :
    committedRow maxGamma m prediction candidate = committedRow maxGamma m prediction' candidate' := by
  rw [committedRow, committedRow]
  apply map_congr_left
  intro c _
  by_cases hlt : c < m
  · rw [if_pos hlt, if_pos hlt, hcandidate c hlt]
  · rw [if_neg hlt, if_neg hlt, hprediction]

theorem acceptRow_rowFrom (predBase candidateBase : Nat) (predicted candidates : Nat → Nat) (hle : gamma ≤ maxGamma) :
    ∃ m, Leading gamma m (fun c => predicted (predBase + c)) (fun c => candidates (candidateBase + c + 1)) ∧
      acceptRow maxGamma (rowFrom candidates (candidateBase + 1) gamma) (rowFrom predicted predBase (gamma + 1)) =
        (m, committedRow maxGamma m (fun c => predicted (predBase + c))
          fun c => candidates (candidateBase + c + 1)) := by
  have hdrafts := length_rowFrom candidates (candidateBase + 1) gamma
  have hpredictions := length_rowFrom predicted predBase (gamma + 1)
  have hlen : (rowFrom predicted predBase (gamma + 1)).length =
      (rowFrom candidates (candidateBase + 1) gamma).length + 1 := by rw [hdrafts, hpredictions]
  have hprediction : ∀ c < gamma + 1, predicted (predBase + c) = (rowFrom predicted predBase (gamma + 1)).getD c 0 :=
    fun c hc => (getD_rowFrom predicted predBase hc).symm
  have hcandidate : ∀ c < gamma,
      candidates (candidateBase + c + 1) = (rowFrom candidates (candidateBase + 1) gamma).getD c 0 := by
    intro c hc
    rw [getD_rowFrom candidates (candidateBase + 1) hc, add_right_comm]
  have hmatched := matched_leading _ _ hlen
  rw [hdrafts] at hmatched
  have hmle := hmatched.le
  refine ⟨_, hmatched.congr (fun c hc => hprediction c (Nat.lt_succ_of_lt hc)) hcandidate, ?_⟩
  rw [acceptRow_eq hlen (by rwa [hdrafts]), Prod.mk.injEq]
  refine ⟨rfl, committedRow_congr (hprediction _ (Nat.lt_succ_of_le hmle)).symm fun c hc => ?_⟩
  exact (hcandidate c (lt_of_lt_of_le hc hmle)).symm

/-- The walk of the fixed kernel is the ragged one over a full row. -/
theorem acceptedFixed_eq_kernel :
    acceptedFixed gamma predBase candidateBase predicted candidates =
      acceptedKernel gamma 0 (gamma + 1) (fun c => candidates (candidateBase + c))
        fun c => predicted (predBase + c) := by
  rw [acceptedFixed, acceptedKernel]
  refine congrArg Prod.fst (foldl_ext _ _ _ fun acc position hposition => ?_)
  have hlt := mem_range.mp hposition
  have hle := le_of_lt hlt
  simp [hlt, hle, add_assoc]

theorem fixed_eq (h : Leading gamma m (fun c => predicted (predBase + c)) fun c => candidates (candidateBase + c + 1)) :
    acceptedFixed gamma predBase candidateBase predicted candidates = m ∧
      committedFixed gamma predBase candidateBase predicted candidates =
        committedRow gamma m (fun c => predicted (predBase + c)) fun c => candidates (candidateBase + c + 1) := by
  have hle := h.le
  have haccepted : acceptedFixed gamma predBase candidateBase predicted candidates = m := by
    rw [acceptedFixed_eq_kernel]
    refine acceptedKernel_eq ?_ (le_refl gamma)
    simpa [add_assoc] using h
  refine ⟨haccepted, ?_⟩
  rw [committedFixed, haccepted, committedRow]
  apply map_congr_left
  intro c _
  by_cases hlt : c < m
  · simp only [if_pos hlt, if_pos (lt_of_lt_of_le hlt hle)]
  · simp only [if_neg hlt]
    by_cases heq : c = m
    · simp only [heq, if_true]
    · simp only [if_neg heq]

theorem drop_rowFrom (mem : Nat → Nat) (start len : Nat) :
    (rowFrom mem start (len + 1)).drop 1 = rowFrom mem (start + 1) len := by
  rw [rowFrom, range_succ_eq_map, map_cons, drop_succ_cons, drop_zero, map_map, rowFrom]
  apply map_congr_left
  intro c _
  exact congrArg mem (by simp only [Nat.succ_eq_add_one]; omega)

theorem torch_eq {drafts predictions : List Nat} (anchor : Nat) (hlen : predictions.length = drafts.length + 1) :
    (acceptedTorch drafts.length predictions (anchor :: drafts),
        committedTorch drafts.length predictions (anchor :: drafts)) =
      acceptRow drafts.length drafts predictions := by
  have haccepted : acceptedTorch drafts.length predictions (anchor :: drafts) = matched drafts predictions := by
    rw [acceptedTorch, drop_succ_cons, drop_zero, count_cumprod, matched_take drafts predictions le_rfl]
  have hle := matched_le drafts predictions
  rw [acceptRow_eq hlen le_rfl, committedTorch, haccepted, committedRow, Prod.mk.injEq]
  refine ⟨rfl, map_congr_left fun c _ => ?_⟩
  by_cases hlt : c < matched drafts predictions
  · rw [if_pos hlt, if_pos hlt, drop_succ_cons, drop_zero, getD_eq_getElem?_getD,
      getElem?_append_left (by omega), getD_eq_getElem?_getD]
  · rw [if_neg hlt, if_neg hlt]
    by_cases heq : c = matched drafts predictions
    · rw [if_pos heq, if_pos heq, heq]
    · rw [if_neg heq, if_neg heq]

end Rows

section Agreement

def fixedRequest (gamma : Nat) (candidates predicted : Matrix) (i : Nat) : Nat × List Nat :=
  acceptRow gamma ((candidates.row (gamma + 1) i).drop 1) (predicted.row (gamma + 1) i)

def compactRequest (maxGamma : Nat) (candidates predicted : Nat → Nat) (start len : Nat) : Nat × List Nat :=
  acceptRow maxGamma ((rowFrom candidates start len).drop 1) (rowFrom predicted start len)

/-- The shapes that the target's logits may have for `batch` rows. -/
def LogitsShape (batch gamma : Nat) (shape : List Nat) : Prop :=
  ∃ vocab, shape = [batch, gamma + 1, vocab] ∨ shape = [batch * (gamma + 1), vocab]

theorem validateInputs_of {batch gamma : Nat} {shape : List Nat} (h : LogitsShape batch gamma shape) :
    validateInputs [batch, gamma + 1] shape gamma = .ok (batch, gamma + 1) := by
  obtain ⟨vocab, rfl | rfl⟩ := h
  · simp [validateInputs]
  · simp [validateInputs]

theorem greedyAcceptDevice_eq (kernel : Bool) {batch gamma : Nat} {shape : List Nat} (h : LogitsShape batch gamma shape)
    (candidates predicted : Matrix) :
    greedyAcceptDevice kernel [batch, gamma + 1] shape gamma candidates predicted =
      .ok ((range batch).map (fixedRequest gamma candidates predicted)) := by
  rw [greedyAcceptDevice, validateInputs_of h]
  refine congrArg Except.ok (map_congr_left fun i _ => ?_)
  have hdrop : (candidates.row (gamma + 1) i).drop 1 = rowFrom candidates.mem (i * candidates.stride + 1) gamma :=
    drop_rowFrom candidates.mem (i * candidates.stride) gamma
  cases kernel with
  | true =>
    obtain ⟨m, hleading, hrow⟩ := acceptRow_rowFrom (i * predicted.stride) (i * candidates.stride) predicted.mem
      candidates.mem (le_refl gamma)
    obtain ⟨haccepted, hcommitted⟩ := fixed_eq hleading
    rw [if_pos rfl, haccepted, hcommitted, fixedRequest, hdrop]
    exact hrow.symm
  | false =>
    have hlength : (rowFrom candidates.mem (i * candidates.stride + 1) gamma).length = gamma := length_rowFrom _ _ _
    have hcons : candidates.row (gamma + 1) i =
        candidates.mem (i * candidates.stride) :: rowFrom candidates.mem (i * candidates.stride + 1) gamma := by
      rw [← hdrop, Matrix.row, rowFrom, range_succ_eq_map]
      rfl
    have hlen : (predicted.row (gamma + 1) i).length =
        (rowFrom candidates.mem (i * candidates.stride + 1) gamma).length + 1 := by
      rw [hlength]
      exact length_rowFrom _ _ _
    have htorch := torch_eq (candidates.mem (i * candidates.stride)) hlen
    rw [hlength] at htorch
    rw [if_neg Bool.false_ne_true, fixedRequest, hdrop, hcons]
    exact htorch

/-- Every request has between one row and `maxGamma + 1`, and the last one ends within the capacity. -/
structure CompactBatch (capacity maxGamma : Nat) (verifyLens indptr : List Nat) : Prop where
  nonempty : verifyLens ≠ []
  bounds : ∀ len ∈ verifyLens, 1 ≤ len ∧ len ≤ maxGamma + 1
  length : indptr.length = verifyLens.length + 1
  rows : ∀ i len, verifyLens[i]? = some len → indptr.getD i 0 + len ≤ capacity
  last : indptr.getLastD 0 ≤ capacity

theorem greedyAcceptCompact_eq (kernel capturing : Bool) {capacity maxGamma : Nat} {verifyLens : List Nat}
    {qIndptr : Option (List Nat)}
    (h : CompactBatch capacity maxGamma verifyLens (qIndptr.getD (compactIndptr verifyLens)))
    (candidates predicted : Nat → Nat) :
    greedyAcceptCompact kernel capturing capacity maxGamma candidates predicted verifyLens qIndptr =
      .ok (zipWith (compactRequest maxGamma candidates predicted) (qIndptr.getD (compactIndptr verifyLens))
        verifyLens) := by
  have hlens : ¬(capturing = false ∧ ∃ length ∈ verifyLens, length < 1 ∨ maxGamma + 1 < length) := by
    rintro ⟨-, length, hmem, hout⟩
    have hbounds := h.bounds length hmem
    omega
  have hlast : ¬(capturing = false ∧ capacity < (qIndptr.getD (compactIndptr verifyLens)).getLastD 0) :=
    fun hout => not_lt.mpr h.last hout.2
  rw [greedyAcceptCompact, greedyAcceptRagged, if_neg h.nonempty, if_neg hlens, if_neg (not_not.mpr h.length),
    if_neg hlast, ← map_uncurry_zip_eq_zipWith]
  refine congrArg Except.ok (map_congr_left fun entry hentry => ?_)
  obtain ⟨start, len⟩ := entry
  have hbounds := h.bounds len (of_mem_zip hentry).2
  have hgamma : len - 1 + 1 = len := by omega
  have hle : len - 1 ≤ maxGamma := by omega
  obtain ⟨m, hleading, hrow⟩ := acceptRow_rowFrom start start predicted candidates hle
  have hdrop := drop_rowFrom candidates start (len - 1)
  rw [hgamma] at hrow hdrop
  rw [← hdrop] at hrow
  have halone : compactRequest maxGamma candidates predicted start len = _ := hrow
  dsimp only [Function.uncurry]
  rw [halone]
  cases kernel with
  | true => rw [if_pos rfl, acceptedKernel_eq hleading hle, committedKernel_eq hleading hle]
  | false =>
    rw [if_neg Bool.false_ne_true, acceptedEager_eq hleading (Nat.zero_le m), committedEager_eq hleading hle]

theorem acceptRow_decision {drafts predictions : List Nat} (maxGamma anchor : Nat)
    (hlen : predictions.length = drafts.length + 1) :
    ∃ decision, determineAcceptRejectFromPredictions (anchor :: drafts) predictions = .ok decision ∧
      acceptRow maxGamma drafts predictions = (decision.numAccepted,
        decision.committed ++ replicate (maxGamma + 1 - decision.committed.length) 0) :=
  ⟨acceptFrom 0 drafts predictions, by simp [determineAcceptRejectFromPredictions, hlen], rfl⟩

end Agreement

section Caps

structure Verified (k : Nat) where
  slot : Nat
  anchor : Nat
  drafts : List Nat
  predictions : List Nat
  drafts_length : drafts.length = k
  predictions_length : predictions.length = k + 1

/-- What the verify of all drafts leaves in the request's row. -/
def Verified.full {k : Nat} (q : Verified k) : Nat × List Nat := acceptRow k q.drafts q.predictions

/-- What the verify of the first `cap` drafts alone leaves there. -/
def Verified.capped {k : Nat} (q : Verified k) (cap : Nat) : Nat × List Nat :=
  acceptRow k (q.drafts.take cap) (q.predictions.take (cap + 1))

theorem matched_take_take (drafts predictions : List Nat) (cap : Nat) :
    matched (drafts.take cap) (predictions.take (cap + 1)) = min cap (matched drafts predictions) := by
  induction cap generalizing drafts predictions with
  | zero => simp [matched]
  | succ cap ih =>
    cases drafts with
    | nil => simp [matched]
    | cons draft drafts =>
      cases predictions with
      | nil => simp [matched]
      | cons first rest =>
        rw [take_succ_cons, take_succ_cons, matched, matched, ih]
        split_ifs
        · rw [Nat.add_min_add_right]
        · exact (Nat.min_zero _).symm

/-- The decision of `m` accepted drafts out of at most `k`. -/
def decisionOf (k m : Nat) (predictions : List Nat) : Decision Nat :=
  ⟨m, predictions.take (m + 1), if m < k then some m else none⟩

theorem deviceDecision_acceptRow {k : Nat} {drafts predictions : List Nat} (hle : drafts.length ≤ k)
    (hlen : predictions.length = drafts.length + 1) :
    deviceDecision k (acceptRow k drafts predictions) =
      .ok (decisionOf k (matched drafts predictions) predictions) := by
  have hm := matched_le drafts predictions
  have htake : (predictions.take (matched drafts predictions + 1)).length = matched drafts predictions + 1 := by
    rw [length_take]
    omega
  rw [deviceDecision, acceptRow, acceptFrom_eq 0 drafts predictions hlen]
  simp only [zero_add]
  rw [if_neg (by omega), decisionOf, take_append_of_le_length (le_of_eq htake.symm), take_take, min_self]

theorem capDecision_decisionOf {k m : Nat} {predictions : List Nat} (cap : Nat) (hm : m ≤ k) :
    capDecision cap (decisionOf k m predictions) = decisionOf k (min cap m) predictions := by
  have hnum : (decisionOf k m predictions).numAccepted = m := rfl
  rw [capDecision, hnum]
  by_cases hle : m ≤ cap
  · rw [if_pos hle, min_eq_right hle]
  · have hlt : cap < m := not_le.mp hle
    rw [if_neg hle, min_eq_left hlt.le, decisionOf, decisionOf]
    simp only [take_take, min_eq_left (Nat.succ_le_succ hlt.le), if_pos (lt_of_lt_of_le hlt hm)]

theorem clampedCap_le (caps : Nat → Option Int) (k slot : Nat) : clampedCap caps k slot ≤ k := by
  unfold clampedCap
  omega

theorem Verified.full_decision {k : Nat} (q : Verified k) :
    deviceDecision k q.full = .ok (decisionOf k (matched q.drafts q.predictions) q.predictions) :=
  deviceDecision_acceptRow q.drafts_length.le (by rw [q.predictions_length, q.drafts_length])

theorem Verified.capped_decision {k cap : Nat} (q : Verified k) (hcap : cap ≤ k) :
    deviceDecision k (q.capped cap) = .ok (decisionOf k (min cap (matched q.drafts q.predictions)) q.predictions) := by
  have hdrafts := q.drafts_length
  have hpredictions := q.predictions_length
  have hle : (q.drafts.take cap).length ≤ k := by rw [length_take]; omega
  have hlen : (q.predictions.take (cap + 1)).length = (q.drafts.take cap).length + 1 := by
    rw [length_take, length_take]
    omega
  rw [Verified.capped, deviceDecision_acceptRow hle hlen, matched_take_take, decisionOf, decisionOf, take_take,
    min_eq_left (Nat.succ_le_succ (min_le_left _ _))]

theorem decisionsFromDeviceAccept_ends {α : Type} {k : Nat} (requests : List α) (slot : α → Nat)
    (row : α → Nat × List Nat) (decision : α → Decision Nat)
    (hrows : ∀ q ∈ requests, deviceDecision k (row q) = .ok (decision q)) (hnodup : (requests.map slot).Nodup) :
    ∃ decisions, decisionsFromDeviceAccept (requests.map slot) (requests.map row) k = .ok decisions ∧
      (∀ q ∈ requests, decisions.get? (slot q) = some (decision q)) ∧
      ∀ s, s ∉ requests.map slot → decisions.get? s = none := by
  have hzip : (requests.map slot).zip (requests.map row) = requests.map fun q => (slot q, row q) := zip_map'
  have hall : deviceDecisions k (requests.map fun q => (slot q, row q)) =
      .ok (requests.map fun q => (slot q, decision q)) := by
    clear hzip hnodup
    induction requests with
    | nil => rfl
    | cons q requests ih =>
      simp only [map_cons, deviceDecisions, hrows q mem_cons_self,
        ih fun q' hq' => hrows q' (mem_cons_of_mem _ hq')]
  have hkeys : (requests.map fun q => (slot q, decision q)).map Prod.fst = requests.map slot := by
    rw [map_map]
    rfl
  refine ⟨OrderedDict.empty.update (requests.map fun q => (slot q, decision q)), ?_, fun q hq => ?_, fun s hs => ?_⟩
  · rw [decisionsFromDeviceAccept, hzip, hall]
    simp
  · exact OrderedDict.get?_update_of_nodup (hkeys.symm ▸ hnodup) (mem_map.mpr ⟨q, hq, rfl⟩)
  · cases hget : (OrderedDict.empty.update (requests.map fun q => (slot q, decision q))).get? s with
    | none => rfl
    | some d =>
      rcases OrderedDict.get?_of_update hget with hmem | ⟨-, hempty⟩
      · exact absurd (hkeys ▸ mem_map_of_mem hmem) hs
      · cases hempty

/-- Cutting the decisions of a full verify is deciding the verify of the capped drafts. -/
theorem applyAcceptCaps_eq {k : Nat} (requests : List (Verified k)) (caps : Nat → Option Int)
    (hnodup : (requests.map (·.slot)).Nodup) :
    ∃ full narrow,
      decisionsFromDeviceAccept (requests.map (·.slot)) (requests.map (·.full)) k = .ok full ∧
      decisionsFromDeviceAccept (requests.map (·.slot))
        (requests.map fun q => q.capped (clampedCap caps k q.slot)) k = .ok narrow ∧
      (∀ s, (applyAcceptCaps full caps k).get? s = narrow.get? s) ∧
      ∀ q ∈ requests, narrow.get? q.slot = some (decisionOf k
        (min (clampedCap caps k q.slot) (matched q.drafts q.predictions)) q.predictions) := by
  obtain ⟨full, hfull, hfound, habsent⟩ := decisionsFromDeviceAccept_ends requests (·.slot) (·.full) _
    (fun q _ => q.full_decision) hnodup
  obtain ⟨narrow, hnarrow, hfound', habsent'⟩ := decisionsFromDeviceAccept_ends requests (·.slot)
    (fun q => q.capped (clampedCap caps k q.slot)) _ (fun q _ => q.capped_decision (clampedCap_le caps k q.slot)) hnodup
  refine ⟨full, narrow, hfull, hnarrow, fun s => ?_, hfound'⟩
  rw [applyAcceptCaps, OrderedDict.get?_mapValues]
  by_cases hs : s ∈ requests.map (·.slot)
  · obtain ⟨q, hq, rfl⟩ := mem_map.mp hs
    have hm := matched_le q.drafts q.predictions
    rw [q.drafts_length] at hm
    rw [hfound q hq, hfound' q hq, Option.map_some, capDecision_decisionOf _ hm]
  · rw [habsent s hs, habsent' s hs, Option.map_none]

/-- The decision of the sequential rule over the first `cap` drafts. -/
theorem Verified.reference {k cap : Nat} (q : Verified k) (hcap : cap ≤ k) :
    ∃ reference, determineAcceptRejectFromPredictions (q.anchor :: q.drafts.take cap) (q.predictions.take (cap + 1)) =
        .ok reference ∧
      reference.numAccepted = min cap (matched q.drafts q.predictions) ∧
      reference.committed = q.predictions.take (min cap (matched q.drafts q.predictions) + 1) := by
  have hdrafts := q.drafts_length
  have hpredictions := q.predictions_length
  have hlen : (q.predictions.take (cap + 1)).length = (q.drafts.take cap).length + 1 := by
    rw [length_take, length_take]
    omega
  refine ⟨acceptFrom 0 (q.drafts.take cap) (q.predictions.take (cap + 1)), ?_, ?_⟩
  · simp only [determineAcceptRejectFromPredictions, hlen, lt_irrefl, if_false]
  · rw [acceptFrom_eq 0 _ _ hlen, matched_take_take, take_take,
      min_eq_left (Nat.succ_le_succ (min_le_left _ _)), zero_add]
    exact ⟨rfl, rfl⟩

/-- The row of one request in the output: its accepted count, and its committed tokens with zeros behind them. -/
def outputRow (maxGamma : Nat) (decision : Decision Nat) : Nat × List Nat :=
  (decision.numAccepted, decision.committed ++ replicate (maxGamma + 1 - decision.committed.length) 0)

/-- Both device epilogues, in the kernel and in the fallback, decide every request as the sequential rule does;
a full decision cut at a cap is the decision for the capped drafts, but for the mark of rejection. -/
theorem deviceAccept_agrees :
    (∀ (kernel : Bool) (batch gamma : Nat) (shape : List Nat) (candidates predicted : Matrix),
      LogitsShape batch gamma shape →
      ∃ rows, greedyAcceptDevice kernel [batch, gamma + 1] shape gamma candidates predicted = .ok rows ∧
        rows.length = batch ∧
        ∀ i < batch, ∃ decision,
          determineAcceptRejectFromPredictions (candidates.row (gamma + 1) i) (predicted.row (gamma + 1) i) =
            .ok decision ∧ rows[i]? = some (outputRow gamma decision)) ∧
    (∀ (kernel capturing : Bool) (capacity maxGamma : Nat) (candidates predicted : Nat → Nat) (verifyLens : List Nat)
      (qIndptr : Option (List Nat)),
      CompactBatch capacity maxGamma verifyLens (qIndptr.getD (compactIndptr verifyLens)) →
      ∃ rows : List (Nat × List Nat),
        greedyAcceptCompact kernel capturing capacity maxGamma candidates predicted verifyLens qIndptr = .ok rows ∧
        rows.length = verifyLens.length ∧
        ∀ i start len : Nat, (qIndptr.getD (compactIndptr verifyLens))[i]? = some start → verifyLens[i]? = some len →
          ∃ decision, determineAcceptRejectFromPredictions (rowFrom candidates start len) (rowFrom predicted start len) =
            .ok decision ∧ rows[i]? = some (outputRow maxGamma decision)) ∧
    (∀ (k : Nat) (requests : List (Verified k)) (caps : Nat → Option Int), (requests.map (·.slot)).Nodup →
      ∃ full narrow,
        decisionsFromDeviceAccept (requests.map (·.slot)) (requests.map (·.full)) k = .ok full ∧
        decisionsFromDeviceAccept (requests.map (·.slot))
          (requests.map fun q => q.capped (clampedCap caps k q.slot)) k = .ok narrow ∧
        (∀ s, (applyAcceptCaps full caps k).get? s = narrow.get? s) ∧
        ∀ q ∈ requests, ∃ reference decision,
          determineAcceptRejectFromPredictions (q.anchor :: q.drafts.take (clampedCap caps k q.slot))
            (q.predictions.take (clampedCap caps k q.slot + 1)) = .ok reference ∧
          (applyAcceptCaps full caps k).get? q.slot = some decision ∧
          decision.numAccepted = reference.numAccepted ∧ decision.committed = reference.committed ∧
          decision.rejectedAt = if reference.numAccepted < k then some reference.numAccepted else none) := by
  refine ⟨?_, ?_, ?_⟩
  · intro kernel batch gamma shape candidates predicted hshape
    refine ⟨_, greedyAcceptDevice_eq kernel hshape candidates predicted, by simp, fun i hi => ?_⟩
    obtain ⟨anchor, drafts, hcons⟩ := exists_cons_of_length_eq_add_one
      (length_rowFrom candidates.mem (i * candidates.stride) (gamma + 1))
    have hrow : candidates.row (gamma + 1) i = anchor :: drafts := hcons
    have hdrafts : drafts.length = gamma := by
      have hlength := length_rowFrom candidates.mem (i * candidates.stride) (gamma + 1)
      rw [hcons, length_cons] at hlength
      exact Nat.succ.inj hlength
    have hlen : (predicted.row (gamma + 1) i).length = drafts.length + 1 := by
      rw [hdrafts]
      exact length_rowFrom _ _ _
    obtain ⟨decision, hdecision, hout⟩ := acceptRow_decision gamma anchor hlen
    refine ⟨decision, by rw [hrow, hdecision], ?_⟩
    rw [getElem?_map, getElem?_range hi, Option.map_some, fixedRequest, hrow, drop_succ_cons,
      drop_zero, hout, outputRow]
  · intro kernel capturing capacity maxGamma candidates predicted verifyLens qIndptr hbatch
    have hlength := hbatch.length
    refine ⟨_, greedyAcceptCompact_eq kernel capturing hbatch candidates predicted, ?_, fun i start len hstart hlen => ?_⟩
    · rw [length_zipWith]
      omega
    · have hbounds := hbatch.bounds len (mem_of_getElem? hlen)
      obtain ⟨anchor, drafts, hcons⟩ := exists_cons_of_ne_nil
        (ne_nil_of_length_pos (by rw [length_rowFrom]; exact hbounds.1) : rowFrom candidates start len ≠ [])
      have hrows : (rowFrom predicted start len).length = drafts.length + 1 := by
        have hlength := length_rowFrom candidates start len
        rw [hcons, length_cons] at hlength
        rw [length_rowFrom, hlength]
      obtain ⟨decision, hdecision, hout⟩ := acceptRow_decision maxGamma anchor hrows
      refine ⟨decision, by rw [hcons, hdecision], ?_⟩
      rw [getElem?_zipWith_eq_some]
      exact ⟨start, len, hstart, hlen, by rw [compactRequest, hcons, drop_succ_cons, drop_zero, hout, outputRow]⟩
  · intro k requests caps hnodup
    obtain ⟨full, narrow, hfull, hnarrow, hsame, hfound⟩ := applyAcceptCaps_eq requests caps hnodup
    refine ⟨full, narrow, hfull, hnarrow, hsame, fun q hq => ?_⟩
    obtain ⟨reference, hreference, hnum, hcommitted⟩ := q.reference (clampedCap_le caps k q.slot)
    refine ⟨reference, _, hreference, (hsame q.slot).trans (hfound q hq), ?_⟩
    rw [hnum, hcommitted]
    exact ⟨rfl, rfl, rfl⟩

/-- One request accepts both drafts and one its first; the cap of the first is one. -/
def twoVerified : List (Verified 2) := [⟨0, 5, [6, 7], [6, 7, 8], rfl, rfl⟩, ⟨3, 9, [4, 2], [4, 1, 1], rfl, rfl⟩]

theorem deviceAccept_agrees_two :
    (∃ rows : List (Nat × List Nat), greedyAcceptCompact true false 5 2 id id [3, 2] none = .ok rows ∧
      rows.length = 2) ∧
    ∃ full narrow, decisionsFromDeviceAccept [0, 3] (twoVerified.map (·.full)) 2 = .ok full ∧
      decisionsFromDeviceAccept [0, 3] [(1, [6, 7, 0]), (1, [4, 1, 0])] 2 = .ok narrow ∧
      ∀ s, (applyAcceptCaps full (fun slot => if slot = 0 then some 1 else none) 2).get? s = narrow.get? s := by
  obtain ⟨-, hcompact, hcapped⟩ := deviceAccept_agrees
  have hrange : ∀ i len, [3, 2][i]? = some len → (compactIndptr [3, 2]).getD i 0 + len ≤ 5 := by
    intro i len h
    match i with
    | 0 | 1 => cases h; decide
    | _ + 2 => cases h
  obtain ⟨rows, hrows, hlength, -⟩ := hcompact true false 5 2 id id [3, 2] none
    ⟨by decide, by decide, rfl, hrange, by decide⟩
  obtain ⟨full, narrow, hfull, hnarrow, hsame, -⟩ := hcapped 2 twoVerified (fun slot => if slot = 0 then some 1 else none)
    (by decide)
  exact ⟨⟨rows, hrows, hlength⟩, full, narrow, hfull, hnarrow, hsame⟩

/-- Two drafts are accepted and the cap is one: the cut decision is marked as rejected there, and
the decision over the one draft is not. -/
theorem applyAcceptCaps_marks :
    ¬∀ (k cap : Nat) (q : Verified k) (full reference : Decision Nat), cap ≤ k →
      determineAcceptRejectFromPredictions (q.anchor :: q.drafts) q.predictions = .ok full →
      determineAcceptRejectFromPredictions (q.anchor :: q.drafts.take cap) (q.predictions.take (cap + 1)) =
        .ok reference →
      (applyAcceptCaps (OrderedDict.empty.set q.slot full) (fun _ => some cap) k).get? q.slot = some reference := by
  intro h
  have hcut := h 2 1 ⟨0, 5, [6, 7], [6, 7, 8], rfl, rfl⟩ ⟨2, [6, 7, 8], none⟩ ⟨1, [6, 7], none⟩ (by decide) (by decide)
    (by decide)
  revert hcut
  decide

end Caps

end DsparkAccept
