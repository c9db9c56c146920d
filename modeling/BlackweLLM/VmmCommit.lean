import BlackweLLM.RaisingState
import BlackweLLM.StepRun
import Mathlib.Order.Interval.Finset.Nat

/-!
# Committing physical memory under a virtual buffer

`_VirtualBuffer`, `ExtensibleTensor` and `ExtensibleKVCacheBuffers` of
`model/vmm_extensible.py`. Every chunk takes three driver calls, and a plan says which
of them raises. The bytes themselves and the zeroing of new ones are left out.
-/

namespace VmmCommit

open List RaisingState

inductive DriverCall where
  | create
  | map
  | setAccess
  deriving DecidableEq, Repr

inductive VmmError where
  /-- "invalid range [start, end)" -/
  | invalidRange (start stop : Int)
  /-- "range end exceeds reserved capacity" -/
  | capacity (stop reserved : Nat)
  | driver (call : DriverCall)
  /-- "ExtensibleTensor is grow-only" -/
  | growOnly (old new : Nat)
  /-- "bytes per segment exceeds segment capacity" -/
  | segmentCapacity (requested capacity : Nat)
  /-- "cannot commit blocks; capacity is" -/
  | blockCapacity (requested capacity : Nat)
  deriving DecidableEq, Repr

structure Chunk where
  handle : Nat
  offset : Nat
  size : Nat
  deriving DecidableEq, Repr

structure Geometry where
  granularity : Nat
  numSegments : Nat
  segmentCapacity : Nat
  granularity_pos : 0 < granularity

def roundUp (value multiple : Nat) : Nat := (value + multiple - 1) / multiple * multiple

def Geometry.maxNumBytes (G : Geometry) : Nat := G.numSegments * G.segmentCapacity

def Geometry.reservedSize (G : Geometry) : Nat := roundUp (max G.maxNumBytes 1) G.granularity

def Geometry.granules (G : Geometry) (c : Chunk) : Finset Nat :=
  Finset.Ico (c.offset / G.granularity) ((c.offset + c.size) / G.granularity)

structure Tensor where
  mappedGranules : Finset Nat
  handles : List Chunk
  bytesPerSegment : Nat
  live : List Chunk
  physical : List Nat
  nextHandle : Nat
  chunks : Nat
  doubleMapped : Bool
  deriving DecidableEq

def Tensor.new : Tensor := ⟨∅, [], 0, [], [], 0, 0, false⟩

/-- For every chunk the driver call that raises, if one does. -/
abbrev Plan := Nat → Option DriverCall

section Code

variable (G : Geometry) (plan : Plan)

/-- `driver.map`: it raises where the plan says so and where the address range is mapped. -/
def driverMap (outcome : Option DriverCall) (c : Chunk) : EStateM VmmError Tensor PUnit := fun s =>
  if ∃ d ∈ s.live, ¬Disjoint (G.granules c) (G.granules d) then
    .error (.driver .map) { s with doubleMapped := true }
  else if outcome = some .map then .error (.driver .map) s
  else .ok ⟨⟩ { s with live := s.live ++ [c] }

def release (handle : Nat) (s : Tensor) : Tensor := { s with physical := s.physical.filter (· ≠ handle) }

def mapChunkAt (offset size : Nat) : EStateM VmmError Tensor PUnit := fun s =>
  let outcome := plan s.chunks
  let s := { s with chunks := s.chunks + 1 }
  if outcome = some .create then .error (.driver .create) s
  else
    let handle := s.nextHandle
    let s := { s with nextHandle := handle + 1, physical := s.physical ++ [handle] }
    match driverMap G outcome ⟨handle, offset, size⟩ s with
    | .error e s => .error e (release handle s)
    | .ok _ s =>
      if outcome = some .setAccess then .error (.driver .setAccess) s
      else .ok ⟨⟩ { s with handles := s.handles ++ [⟨handle, offset, size⟩] }

/-- The granules `[runStart, g)` in one chunk. -/
def mapRun (runStart g : Nat) : EStateM VmmError Tensor PUnit := do
  mapChunkAt G plan (runStart * G.granularity) ((g - runStart) * G.granularity)
  modify fun s => { s with mappedGranules := s.mappedGranules ∪ Finset.Ico runStart g }

def visit (last : Nat) (runStart : Option Nat) (g : Nat) : EStateM VmmError Tensor (Option Nat) := do
  let s ← get
  let unmapped := decide (g < last) && decide (g ∉ s.mappedGranules)
  match runStart with
  | none => pure (if unmapped then some g else none)
  | some r =>
    if unmapped then pure (some r)
    else do
      mapRun G plan r g
      pure none

def ensureCommittedRange (start stop : Int) : EStateM VmmError Tensor PUnit := do
  raiseIf (¬(0 ≤ start ∧ start ≤ stop)) (.invalidRange start stop)
  raiseIf (G.reservedSize < stop.toNat) (.capacity stop.toNat G.reservedSize)
  if start = stop then pure ⟨⟩
  else do
    let first := start.toNat / G.granularity
    let last := (stop.toNat + G.granularity - 1) / G.granularity
    let _ ← (range' first (last + 1 - first)).foldlM (visit G plan last) none
    pure ⟨⟩

def bufferRelease (s : Tensor) : Tensor :=
  let s := s.handles.foldl (fun s c => release c.handle
    { s with live := s.live.filter fun d => ¬(d.offset = c.offset ∧ d.size = c.size) }) s
  { s with handles := [], mappedGranules := ∅ }

def resizePerSegment (bytesPerSegment : Nat) : EStateM VmmError Tensor PUnit := do
  let old := (← get).bytesPerSegment
  raiseIf (bytesPerSegment < old) (.growOnly old bytesPerSegment)
  raiseIf (G.segmentCapacity < bytesPerSegment) (.segmentCapacity bytesPerSegment G.segmentCapacity)
  if bytesPerSegment = old then pure ⟨⟩
  else do
    forM (range G.numSegments) fun i =>
      ensureCommittedRange G plan ↑(i * G.segmentCapacity + old) ↑(i * G.segmentCapacity + bytesPerSegment)
    modify fun s => { s with bytesPerSegment := bytesPerSegment }

def releasePhysical : EStateM VmmError Tensor PUnit := modify fun s => { bufferRelease s with bytesPerSegment := 0 }

end Code

section Books

variable {G : Geometry} {plan : Plan} {s s' : Tensor}

/-- The books of the code are those of the driver. -/
structure Sound (G : Geometry) (s : Tensor) : Prop where
  recorded : s.live = s.handles
  physical : s.physical = s.handles.map Chunk.handle
  fresh : ∀ c ∈ s.handles, c.handle < s.nextHandle
  granules : ∀ k, k ∈ s.mappedGranules ↔ ∃ c ∈ s.handles, k ∈ G.granules c
  apart : s.handles.Pairwise fun c d => Disjoint (G.granules c) (G.granules d)
  once : s.doubleMapped = false

theorem sound_new : Sound G Tensor.new := by
  constructor <;> simp [Tensor.new]

theorem granules_run (handle : Nat) {r g : Nat} (h : r ≤ g) :
    G.granules ⟨handle, r * G.granularity, (g - r) * G.granularity⟩ = Finset.Ico r g := by
  have hsum : r * G.granularity + (g - r) * G.granularity = g * G.granularity := by
    rw [← Nat.add_mul, Nat.add_sub_cancel' h]
  simp only [Geometry.granules, hsum, Nat.mul_div_cancel _ G.granularity_pos]

/-- What a call leaves that maps more, or raises: sound books, nothing unmapped, the prefix as before. -/
structure Grown (G : Geometry) (s s' : Tensor) : Prop where
  sound : Sound G s'
  mapped : s.mappedGranules ⊆ s'.mappedGranules
  bytes : s'.bytesPerSegment = s.bytesPerSegment

theorem Grown.refl (h : Sound G s) : Grown G s s := ⟨h, Finset.Subset.refl _, rfl⟩

theorem Grown.trans {t : Tensor} (h : Grown G s s') (h' : Grown G s' t) : Grown G s t :=
  ⟨h'.sound, h.mapped.trans h'.mapped, h'.bytes.trans h.bytes⟩

/-- A chunk that could not be mapped leaves nothing but a used handle number. -/
theorem Sound.unmapped (h : Sound G s) (chunks : Nat) :
    Grown G s (release s.nextHandle
      { s with chunks := chunks, nextHandle := s.nextHandle + 1, physical := s.physical ++ [s.nextHandle] }) := by
  have hold : ∀ handle ∈ s.physical, handle ≠ s.nextHandle := by
    intro handle hmem
    rw [h.physical] at hmem
    obtain ⟨c, hc, rfl⟩ := mem_map.mp hmem
    exact ne_of_lt (h.fresh c hc)
  have hphysical : (s.physical ++ [s.nextHandle]).filter (· ≠ s.nextHandle) = s.physical := by
    rw [filter_append, filter_eq_self.mpr fun handle hmem => by simpa using hold handle hmem]
    simp
  refine ⟨?_, Finset.Subset.refl _, rfl⟩
  refine { h with physical := ?physical, fresh := ?fresh }
  case physical =>
    change (s.physical ++ [s.nextHandle]).filter (· ≠ s.nextHandle) = s.handles.map Chunk.handle
    rw [hphysical, h.physical]
  case fresh => exact fun c hc => Nat.lt_succ_of_lt (h.fresh c hc)

/-- A chunk over unmapped granules is recorded with them. -/
theorem Sound.record (h : Sound G s) {c : Chunk} (hhandle : c.handle = s.nextHandle)
    (hfree : ∀ k ∈ G.granules c, k ∉ s.mappedGranules) (chunks : Nat) :
    Sound G { s with
      chunks := chunks
      nextHandle := s.nextHandle + 1
      physical := s.physical ++ [s.nextHandle]
      live := s.live ++ [c]
      handles := s.handles ++ [c]
      mappedGranules := s.mappedGranules ∪ G.granules c } := by
  constructor
  case recorded =>
    change s.live ++ [c] = s.handles ++ [c]
    rw [h.recorded]
  case physical =>
    change s.physical ++ [s.nextHandle] = (s.handles ++ [c]).map Chunk.handle
    rw [h.physical, map_append, map_singleton, hhandle]
  case fresh =>
    intro d hd
    rcases mem_append.mp hd with hd | hd
    · exact Nat.lt_succ_of_lt (h.fresh d hd)
    · rw [mem_singleton.mp hd, hhandle]
      exact Nat.lt_succ_self _
  case granules =>
    intro k
    simp only [Finset.mem_union, h.granules, mem_append, mem_singleton]
    constructor
    · rintro (⟨d, hd, hk⟩ | hk)
      · exact ⟨d, .inl hd, hk⟩
      · exact ⟨c, .inr rfl, hk⟩
    · rintro ⟨d, hd | rfl, hk⟩
      · exact .inl ⟨d, hd, hk⟩
      · exact .inr hk
  case apart =>
    refine pairwise_append.mpr ⟨h.apart, pairwise_singleton _ _, fun d hd c' hc' => ?_⟩
    rw [mem_singleton.mp hc', Finset.disjoint_right]
    exact fun k hk hkd => hfree k hk ((h.granules k).mpr ⟨d, hd, hkd⟩)
  case once => exact h.once

/-- A run of unmapped granules is mapped whole, or the call raises and the books are as before. -/
theorem mapRun_ends (hplan : ∀ n, plan n ≠ some .setAccess) (h : Sound G s) {r g : Nat} (hle : r ≤ g)
    (hfree : ∀ k, r ≤ k → k < g → k ∉ s.mappedGranules) :
    Ends (fun _ s' => Grown G s s' ∧ s'.mappedGranules = s.mappedGranules ∪ Finset.Ico r g) (Grown G s)
      (mapRun G plan r g s) := by
  have hgranules := granules_run (G := G) s.nextHandle hle
  have hfree' : ∀ k ∈ G.granules ⟨s.nextHandle, r * G.granularity, (g - r) * G.granularity⟩, k ∉ s.mappedGranules := by
    intro k hk
    rw [hgranules, Finset.mem_Ico] at hk
    exact hfree k hk.1 hk.2
  have hclear : ¬∃ d ∈ s.live, ¬Disjoint
      (G.granules ⟨s.nextHandle, r * G.granularity, (g - r) * G.granularity⟩) (G.granules d) := by
    rintro ⟨d, hd, hmeet⟩
    rw [h.recorded] at hd
    exact hmeet (Finset.disjoint_left.mpr fun k hk hkd => hfree' k hk ((h.granules k).mpr ⟨d, hd, hkd⟩))
  have hunmapped := h.unmapped (s.chunks + 1)
  have hrecord := h.record rfl hfree' (s.chunks + 1)
  rw [hgranules] at hrecord
  rw [mapRun]
  have hchunk : Ends (fun _ s₁ => { s₁ with mappedGranules := s₁.mappedGranules ∪ Finset.Ico r g } =
        { s with
          chunks := s.chunks + 1
          nextHandle := s.nextHandle + 1
          physical := s.physical ++ [s.nextHandle]
          live := s.live ++ [⟨s.nextHandle, r * G.granularity, (g - r) * G.granularity⟩]
          handles := s.handles ++ [⟨s.nextHandle, r * G.granularity, (g - r) * G.granularity⟩]
          mappedGranules := s.mappedGranules ∪ Finset.Ico r g }) (Grown G s)
      (mapChunkAt G plan (r * G.granularity) ((g - r) * G.granularity) s) := by
    unfold mapChunkAt driverMap
    dsimp only
    rw [if_neg hclear]
    cases hout : plan s.chunks with
    | none => simp
    | some call =>
      cases call with
      | create =>
        simp only [if_true]
        exact ⟨⟨h.recorded, h.physical, h.fresh, h.granules, h.apart, h.once⟩, Finset.Subset.refl _, rfl⟩
      | map => simpa using hunmapped
      | setAccess => exact absurd hout (hplan s.chunks)
  refine ends_bind hchunk fun _ s₁ hs₁ => ?_
  simp only [modify_apply, ends_ok, hs₁]
  exact ⟨⟨hrecord, Finset.subset_union_left, rfl⟩, trivial⟩

/-- What the loop has done before granule `g`: all behind it is mapped, but for an open run that is not. -/
def Scanned (first last g : Nat) (runStart : Option Nat) (s : Tensor) : Prop :=
  match runStart with
  | none => ∀ k, first ≤ k → k < g → k < last → k ∈ s.mappedGranules
  | some r => r ≤ g ∧ g ≤ last ∧ (∀ k, first ≤ k → k < r → k ∈ s.mappedGranules) ∧
      ∀ k, r ≤ k → k < g → k ∉ s.mappedGranules

theorem visit_ends (hplan : ∀ n, plan n ≠ some .setAccess) (h : Sound G s) {first last g : Nat} {runStart : Option Nat}
    (hscan : Scanned first last g runStart s) :
    Ends (fun runStart' s' => Grown G s s' ∧ Scanned first last (g + 1) runStart' s') (Grown G s)
      (visit G plan last runStart g s) := by
  unfold visit
  apply ends_get_bind
  by_cases hunmapped : g < last ∧ g ∉ s.mappedGranules
  · simp only [hunmapped.1, hunmapped.2, not_false_eq_true, decide_true, Bool.and_self, if_true]
    cases runStart with
    | none =>
      refine ⟨Grown.refl h, Nat.le_succ g, hunmapped.1, fun k hk hlt => ?_, fun k hk hlt => ?_⟩
      · exact hscan k hk hlt (lt_trans hlt hunmapped.1)
      · obtain rfl : k = g := by omega
        exact hunmapped.2
    | some r =>
      obtain ⟨hle, -, hbefore, hopen⟩ := hscan
      refine ⟨Grown.refl h, by omega, hunmapped.1, hbefore, fun k hk hlt => ?_⟩
      by_cases hk' : k < g
      · exact hopen k hk hk'
      · obtain rfl : k = g := by omega
        exact hunmapped.2
  · have hmapped : (decide (g < last) && decide (g ∉ s.mappedGranules)) = false := by
      by_contra htrue
      exact hunmapped (by simpa using htrue)
    have hhere : g < last → g ∈ s.mappedGranules := fun hlt => by
      by_contra hnot
      exact hunmapped ⟨hlt, hnot⟩
    simp only [hmapped, Bool.false_eq_true, if_false]
    cases runStart with
    | none =>
      refine ⟨Grown.refl h, fun k hk hlt hlast => ?_⟩
      by_cases hk' : k < g
      · exact hscan k hk hk' hlast
      · obtain rfl : k = g := by omega
        exact hhere hlast
    | some r =>
      obtain ⟨hle, hlast, hbefore, hopen⟩ := hscan
      refine ends_bind (mapRun_ends hplan h hle hopen) fun _ s₁ hs₁ => ?_
      obtain ⟨hgrown, hrun⟩ := hs₁
      refine ⟨hgrown, fun k hk hlt hkl => ?_⟩
      rw [hrun, Finset.mem_union, Finset.mem_Ico]
      by_cases hr : k < r
      · exact .inl (hbefore k hk hr)
      · by_cases hg : k < g
        · exact .inr ⟨Nat.le_of_not_lt hr, hg⟩
        · obtain rfl : k = g := by omega
          exact .inl (hhere hkl)

/-- The byte stands on a granule that is mapped. -/
def Backed (G : Geometry) (s : Tensor) (byte : Nat) : Prop := byte / G.granularity ∈ s.mappedGranules

theorem Grown.backed (h : Grown G s s') {byte : Nat} (hbacked : Backed G s byte) : Backed G s' byte := h.mapped hbacked

/-- A call that returns has backed every byte of its range; one that raises has unmapped nothing. -/
theorem ensureCommittedRange_ends (hplan : ∀ n, plan n ≠ some .setAccess) (h : Sound G s) (start stop : Int) :
    Ends (fun _ s' => Grown G s s' ∧ ∀ byte : Nat, start ≤ byte → (byte : Int) < stop → Backed G s' byte) (Grown G s)
      (ensureCommittedRange G plan start stop s) := by
  unfold ensureCommittedRange
  apply ends_raiseIf_bind
  · exact fun _ => Grown.refl h
  intro hrange
  apply ends_raiseIf_bind
  · exact fun _ => Grown.refl h
  intro _
  by_cases hempty : start = stop
  · rw [if_pos hempty]
    exact ⟨Grown.refl h, fun byte hlo hhi => by omega⟩
  rw [if_neg hempty]
  have hpos := G.granularity_pos
  have hloop := ends_foldlM (g := visit G plan ((stop.toNat + G.granularity - 1) / G.granularity))
    (l := range' (start.toNat / G.granularity)
      ((stop.toNat + G.granularity - 1) / G.granularity + 1 - start.toNat / G.granularity))
    (E := Grown G s)
    (I := fun done runStart s' => Grown G s s' ∧ Scanned (start.toNat / G.granularity)
      ((stop.toNat + G.granularity - 1) / G.granularity) (start.toNat / G.granularity + done.length) runStart s')
    (b := none) (s := s)
    (fun done a rest b s₁ hsplit hdone => by
      obtain ⟨hgrown, hscan⟩ := hdone
      obtain ⟨ha, -⟩ := range'_split hsplit
      rw [length_append, length_singleton, ← add_assoc, ← ha]
      rw [← ha] at hscan
      exact (visit_ends hplan hgrown.sound hscan).mono (fun _ _ hend => ⟨hgrown.trans hend.1, hend.2⟩)
        fun _ hend => hgrown.trans hend)
    ⟨Grown.refl h, fun k hk hlt => absurd hlt (by simpa using hk)⟩
  refine ends_bind hloop fun runStart s₁ hend => ?_
  obtain ⟨hgrown, hscan⟩ := hend
  rw [length_range'] at hscan
  refine ⟨hgrown, fun byte hlo hhi => ?_⟩
  have hfirst : start.toNat / G.granularity ≤ byte / G.granularity := Nat.div_le_div_right (by omega)
  have hlast : byte / G.granularity < (stop.toNat + G.granularity - 1) / G.granularity := by
    rw [Nat.div_lt_iff_lt_mul hpos]
    have hceil := Nat.lt_div_mul_add hpos (a := stop.toNat + G.granularity - 1)
    omega
  cases runStart with
  | none => exact hscan _ hfirst (by omega) hlast
  | some r =>
    -- the loop visits one granule past the last, where no run stays open
    have hopen := hscan.2.1
    omega

/-- Every segment is backed up to the tensor's size. -/
def Prefixed (G : Geometry) (s : Tensor) : Prop :=
  ∀ i < G.numSegments, ∀ b < s.bytesPerSegment, Backed G s (i * G.segmentCapacity + b)

theorem Grown.prefixed (h : Grown G s s') (hprefixed : Prefixed G s) : Prefixed G s' :=
  fun i hi b hb => h.backed (hprefixed i hi b (h.bytes ▸ hb))

/-- A segment that fails leaves the size as it was, with the segments before it grown. -/
theorem resizePerSegment_ends (hplan : ∀ n, plan n ≠ some .setAccess) (h : Sound G s) (hprefixed : Prefixed G s)
    (bytesPerSegment : Nat) :
    Ends (fun _ s' => Sound G s' ∧ Prefixed G s' ∧ s.bytesPerSegment ≤ s'.bytesPerSegment ∧
        s'.bytesPerSegment = bytesPerSegment) (fun s' => Sound G s' ∧ Prefixed G s' ∧
          s'.bytesPerSegment = s.bytesPerSegment) (resizePerSegment G plan bytesPerSegment s) := by
  unfold resizePerSegment
  apply ends_get_bind
  apply ends_raiseIf_bind
  · exact fun _ => ⟨h, hprefixed, rfl⟩
  intro hgrow
  apply ends_raiseIf_bind
  · exact fun _ => ⟨h, hprefixed, rfl⟩
  intro _
  by_cases hsame : bytesPerSegment = s.bytesPerSegment
  · rw [if_pos hsame]
    exact ⟨h, hprefixed, le_refl _, hsame.symm⟩
  rw [if_neg hsame]
  have hloop := ends_forM (g := fun i => ensureCommittedRange G plan ↑(i * G.segmentCapacity + s.bytesPerSegment)
      ↑(i * G.segmentCapacity + bytesPerSegment)) (l := range G.numSegments) (E := Grown G s)
    (I := fun done s' => Grown G s s' ∧ ∀ i < done.length, ∀ b, s.bytesPerSegment ≤ b → b < bytesPerSegment →
      Backed G s' (i * G.segmentCapacity + b)) (s := s)
    (fun done a rest s₁ hsplit hdone => by
      obtain ⟨hgrown, hbacked⟩ := hdone
      obtain ⟨ha, -⟩ := range_split hsplit
      refine (ensureCommittedRange_ends hplan hgrown.sound _ _).mono (fun _ s₂ hend => ?_) fun _ hend => hgrown.trans hend
      refine ⟨hgrown.trans hend.1, fun i hi b hlo hhi => ?_⟩
      rw [length_append, length_singleton] at hi
      by_cases hi' : i < done.length
      · exact hend.1.backed (hbacked i hi' b hlo hhi)
      · obtain rfl : i = a := by omega
        exact hend.2 _ (by omega) (by omega))
    ⟨Grown.refl h, fun i hi => absurd hi (Nat.not_lt_zero i)⟩
  refine ends_bind (hloop.mono (fun _ _ hend => hend) fun s₁ hgrown =>
    ⟨hgrown.sound, hgrown.prefixed hprefixed, hgrown.bytes⟩) fun _ s₁ hend => ?_
  obtain ⟨hgrown, hbacked⟩ := hend
  rw [length_range] at hbacked
  refine ⟨?_, fun i hi b hb => ?_, by simpa using hgrow, rfl⟩
  · exact ⟨hgrown.sound.recorded, hgrown.sound.physical, hgrown.sound.fresh, hgrown.sound.granules,
      hgrown.sound.apart, hgrown.sound.once⟩
  · by_cases hold : b < s.bytesPerSegment
    · exact hgrown.backed (hprefixed i hi b hold)
    · exact hbacked i hi b (Nat.le_of_not_lt hold) hb

theorem release_loop (handles : List Chunk) (s : Tensor) :
    let s' := handles.foldl (fun s c => release c.handle
      { s with live := s.live.filter fun d => ¬(d.offset = c.offset ∧ d.size = c.size) }) s
    (∀ d ∈ s'.live, d ∈ s.live ∧ d ∉ handles) ∧ (∀ handle ∈ s'.physical, handle ∈ s.physical ∧
      handle ∉ handles.map Chunk.handle) ∧ s'.nextHandle = s.nextHandle ∧ s'.doubleMapped = s.doubleMapped := by
  induction handles generalizing s with
  | nil => simp
  | cons c handles ih =>
    obtain ⟨hlive, hphysical, hnext, honce⟩ := ih (release c.handle
      { s with live := s.live.filter fun d => ¬(d.offset = c.offset ∧ d.size = c.size) })
    refine ⟨fun d hd => ?_, fun handle hmem => ?_, hnext, honce⟩
    · obtain ⟨hkept, hrest⟩ := hlive d hd
      obtain ⟨hold, hother⟩ := mem_filter.mp hkept
      refine ⟨hold, fun hmem => ?_⟩
      rcases mem_cons.mp hmem with rfl | hmem
      · simp at hother
      · exact hrest hmem
    · obtain ⟨hkept, hrest⟩ := hphysical handle hmem
      obtain ⟨hold, hother⟩ := mem_filter.mp hkept
      refine ⟨hold, fun hmem => ?_⟩
      rcases mem_cons.mp hmem with rfl | hmem
      · simp at hother
      · exact hrest hmem

theorem Sound.released (h : Sound G s) : Sound G { bufferRelease s with bytesPerSegment := 0 } := by
  obtain ⟨hlive, hphysical, hnext, honce⟩ := release_loop s.handles s
  have hnolive : (bufferRelease s).live = [] :=
    eq_nil_iff_forall_not_mem.mpr fun d hd => (hlive d hd).2 (h.recorded ▸ (hlive d hd).1)
  have hnophysical : (bufferRelease s).physical = [] :=
    eq_nil_iff_forall_not_mem.mpr fun handle hmem =>
      (hphysical handle hmem).2 (h.physical ▸ (hphysical handle hmem).1)
  constructor
  case recorded => exact hnolive
  case physical => exact hnophysical
  case fresh => exact fun c hc => nomatch hc
  case granules => simp [bufferRelease]
  case apart => exact List.Pairwise.nil
  case once => exact honce.trans h.once

end Books

section Runs

open StepRun

variable {G : Geometry} {plan : Plan}

inductive Op where
  | ensure (start stop : Int)
  | resize (bytesPerSegment : Nat)
  | release
  deriving DecidableEq, Repr

def call (G : Geometry) (plan : Plan) : Op → EStateM VmmError Tensor PUnit
  | .ensure start stop => ensureCommittedRange G plan start stop
  | .resize bytesPerSegment => resizePerSegment G plan bytesPerSegment
  | .release => releasePhysical

/-- A call that raises leaves its state, and the next call goes on from there. -/
def step (G : Geometry) (plan : Plan) (s : Tensor) (op : Op) : Option Tensor := some (endState (call G plan op s))

theorem call_ends (hplan : ∀ n, plan n ≠ some .setAccess) {s : Tensor} (h : Sound G s) (hprefixed : Prefixed G s)
    (op : Op) :
    Ends (fun _ s' => Sound G s' ∧ Prefixed G s') (fun s' => Sound G s' ∧ Prefixed G s') (call G plan op s) := by
  cases op with
  | ensure start stop =>
    exact (ensureCommittedRange_ends hplan h start stop).mono
      (fun _ _ hend => ⟨hend.1.sound, hend.1.prefixed hprefixed⟩) fun _ hend => ⟨hend.sound, hend.prefixed hprefixed⟩
  | resize bytesPerSegment =>
    exact (resizePerSegment_ends hplan h hprefixed bytesPerSegment).mono (fun _ _ hend => ⟨hend.1, hend.2.1⟩)
      fun _ hend => ⟨hend.1, hend.2.1⟩
  | release => exact ⟨h.released, fun i _ b hb => absurd hb (Nat.not_lt_zero b)⟩

theorem sound_run (hplan : ∀ n, plan n ≠ some .setAccess) {ops : List Op} {s : Tensor}
    (h : run (step G plan) Tensor.new ops = some s) : Sound G s ∧ Prefixed G s := by
  refine invariant (I := fun s => Sound G s ∧ Prefixed G s) (fun s op s' hs hstep => ?_)
    ⟨sound_new, fun i _ b hb => absurd hb (Nat.not_lt_zero b)⟩ h
  cases hstep
  exact (call_ends hplan hs.1 hs.2 op).endState (fun _ _ hend => hend) fun _ hend => hend

end Runs

section Buffers

open StepRun

/-- `ExtensibleKVCacheBuffers`, with the tensors it may be handed. -/
structure KvBuffers where
  tensors : Nat → Tensor
  /-- The tensors of the set, each with its bytes per block and segment. -/
  buffers : List (Nat × Nat)
  numBlocksCapacity : Nat
  numBlocksCommitted : Nat

variable (G : Nat → Geometry) (plan : Nat → Plan)

def onTensor (id : Nat) (x : EStateM VmmError Tensor PUnit) : EStateM VmmError KvBuffers PUnit :=
  zoom (fun s => s.tensors id) (fun t s => { s with tensors := Function.update s.tensors id t }) (fun e => e) x

def add (id bytesPerBlock : Nat) : EStateM VmmError KvBuffers PUnit := do
  let s ← get
  let grow : EStateM VmmError KvBuffers PUnit :=
    if 0 < s.numBlocksCommitted then
      onTensor id (resizePerSegment (G id) (plan id) (s.numBlocksCommitted * bytesPerBlock))
    else pure ⟨⟩
  grow
  modify fun s => { s with buffers := s.buffers ++ [(id, bytesPerBlock)] }

def commit (numBlocks : Nat) : EStateM VmmError KvBuffers PUnit := do
  let s ← get
  raiseIf (s.numBlocksCapacity < numBlocks) (.blockCapacity numBlocks s.numBlocksCapacity)
  if numBlocks ≤ s.numBlocksCommitted then pure ⟨⟩
  else do
    forM s.buffers fun entry => onTensor entry.1 (resizePerSegment (G entry.1) (plan entry.1) (numBlocks * entry.2))
    modify fun s => { s with numBlocksCommitted := numBlocks }

def ensureBlocks (numBlocks : Nat) : EStateM VmmError KvBuffers PUnit := do
  let s ← get
  commit G plan (max numBlocks s.numBlocksCommitted)

inductive KvOp where
  | add (id bytesPerBlock : Nat)
  | commit (numBlocks : Nat)
  | ensureBlocks (numBlocks : Nat)
  /-- A call on a tensor itself that only grows it. -/
  | ensure (id : Nat) (start stop : Int)
  | resize (id bytesPerSegment : Nat)
  deriving DecidableEq, Repr

def kvCall : KvOp → EStateM VmmError KvBuffers PUnit
  | .add id bytesPerBlock => add G plan id bytesPerBlock
  | .commit numBlocks => commit G plan numBlocks
  | .ensureBlocks numBlocks => ensureBlocks G plan numBlocks
  | .ensure id start stop => onTensor id (ensureCommittedRange (G id) (plan id) start stop)
  | .resize id bytesPerSegment => onTensor id (resizePerSegment (G id) (plan id) bytesPerSegment)

def kvStep (s : KvBuffers) (op : KvOp) : Option KvBuffers := some (endState (kvCall G plan op s))

/-- The set as it is built. -/
def KvBuffers.new (buffers : List (Nat × Nat)) (capacity : Nat) : KvBuffers :=
  ⟨fun _ => Tensor.new, buffers, capacity, 0⟩

variable {G : Nat → Geometry} {plan : Nat → Plan} {s s' : KvBuffers}

/-- The tensors are sound, and each of the set is as large as the committed blocks ask for. -/
structure Lockstep (G : Nat → Geometry) (s : KvBuffers) : Prop where
  sound : ∀ id, Sound (G id) (s.tensors id)
  prefixed : ∀ id, Prefixed (G id) (s.tensors id)
  committed : ∀ entry ∈ s.buffers, s.numBlocksCommitted * entry.2 ≤ (s.tensors entry.1).bytesPerSegment

/-- What a call on tensors leaves of the set: no tensor shrinks. -/
structure Kept (G : Nat → Geometry) (s s' : KvBuffers) : Prop where
  lockstep : Lockstep G s'
  buffers : s'.buffers = s.buffers
  blocks : s'.numBlocksCommitted = s.numBlocksCommitted
  grown : ∀ id, (s.tensors id).bytesPerSegment ≤ (s'.tensors id).bytesPerSegment

theorem Kept.refl (h : Lockstep G s) : Kept G s s := ⟨h, rfl, rfl, fun _ => le_refl _⟩

theorem Kept.trans {t : KvBuffers} (h : Kept G s s') (h' : Kept G s' t) : Kept G s t :=
  ⟨h'.lockstep, h'.buffers.trans h.buffers, h'.blocks.trans h.blocks, fun id => le_trans (h.grown id) (h'.grown id)⟩

/-- One tensor is replaced by a sound one that is no smaller. -/
theorem Lockstep.update (h : Lockstep G s) {id : Nat} {t : Tensor} (hsound : Sound (G id) t)
    (hprefixed : Prefixed (G id) t) (hle : (s.tensors id).bytesPerSegment ≤ t.bytesPerSegment) :
    Kept G s { s with tensors := Function.update s.tensors id t } := by
  have hgrown : ∀ other, (s.tensors other).bytesPerSegment ≤ (Function.update s.tensors id t other).bytesPerSegment := by
    intro other
    by_cases hother : other = id
    · subst hother
      rwa [Function.update_self]
    · rw [Function.update_of_ne hother]
  refine ⟨⟨fun other => ?_, fun other => ?_, fun entry hentry => ?_⟩, rfl, rfl, hgrown⟩
  · change Sound (G other) (Function.update s.tensors id t other)
    by_cases hother : other = id
    · subst hother
      rwa [Function.update_self]
    · rw [Function.update_of_ne hother]
      exact h.sound other
  · change Prefixed (G other) (Function.update s.tensors id t other)
    by_cases hother : other = id
    · subst hother
      rwa [Function.update_self]
    · rw [Function.update_of_ne hother]
      exact h.prefixed other
  · exact le_trans (h.committed entry hentry) (hgrown entry.1)

theorem resize_kept (hplan : ∀ id n, plan id n ≠ some .setAccess) (h : Lockstep G s) (id bytesPerSegment : Nat) :
    Ends (fun _ s' => Kept G s s' ∧ (s'.tensors id).bytesPerSegment = bytesPerSegment) (Kept G s)
      (onTensor id (resizePerSegment (G id) (plan id) bytesPerSegment) s) := by
  refine ends_zoom ((resizePerSegment_ends (hplan id) (h.sound id) (h.prefixed id) bytesPerSegment).mono
    (fun _ t hend => ?_) fun t hend => ?_)
  · obtain ⟨hsound, hprefixed, hle, hsize⟩ := hend
    refine ⟨h.update hsound hprefixed hle, ?_⟩
    simp only [Function.update_self, hsize]
  · obtain ⟨hsound, hprefixed, hsize⟩ := hend
    exact h.update hsound hprefixed (le_of_eq hsize.symm)

theorem ensure_kept (hplan : ∀ id n, plan id n ≠ some .setAccess) (h : Lockstep G s) (id : Nat) (start stop : Int) :
    Ends (fun _ s' => Kept G s s') (Kept G s) (onTensor id (ensureCommittedRange (G id) (plan id) start stop) s) :=
  ends_zoom ((ensureCommittedRange_ends (hplan id) (h.sound id) start stop).mono
    (fun _ _ hend => h.update hend.1.sound (hend.1.prefixed (h.prefixed id)) (le_of_eq hend.1.bytes.symm))
    fun _ hend => h.update hend.sound (hend.prefixed (h.prefixed id)) (le_of_eq hend.bytes.symm))

/-- A commit that is left midway has grown some tensors and committed nothing new. -/
theorem commit_ends (hplan : ∀ id n, plan id n ≠ some .setAccess) (h : Lockstep G s) (numBlocks : Nat) :
    Ends (fun _ s' => Lockstep G s' ∧ numBlocks ≤ s'.numBlocksCommitted) (Lockstep G) (commit G plan numBlocks s) := by
  unfold commit
  apply ends_get_bind
  apply ends_raiseIf_bind
  · exact fun _ => h
  intro _
  by_cases hle : numBlocks ≤ s.numBlocksCommitted
  · rw [if_pos hle]
    exact ⟨h, hle⟩
  rw [if_neg hle]
  have hloop := ends_forM
    (g := fun entry : Nat × Nat => onTensor entry.1 (resizePerSegment (G entry.1) (plan entry.1) (numBlocks * entry.2)))
    (l := s.buffers) (E := Lockstep G)
    (I := fun done s' => Kept G s s' ∧ ∀ entry ∈ done, numBlocks * entry.2 ≤ (s'.tensors entry.1).bytesPerSegment)
    (s := s)
    (fun done entry rest s₁ _ hdone => by
      obtain ⟨hkept, hgrown⟩ := hdone
      refine (resize_kept hplan hkept.lockstep entry.1 (numBlocks * entry.2)).mono (fun _ s₂ hend => ?_)
        fun _ hend => hend.lockstep
      refine ⟨hkept.trans hend.1, fun other hother => ?_⟩
      rcases mem_append.mp hother with hold | hnew
      · exact le_trans (hgrown other hold) (hend.1.grown other.1)
      · rw [mem_singleton.mp hnew]
        exact le_of_eq hend.2.symm)
    ⟨Kept.refl h, fun entry hentry => nomatch hentry⟩
  refine ends_bind hloop fun _ s₁ hend => ?_
  obtain ⟨hkept, hgrown⟩ := hend
  refine ⟨⟨hkept.lockstep.sound, hkept.lockstep.prefixed, fun entry hentry => ?_⟩, le_refl _⟩
  exact hgrown entry (hkept.buffers ▸ hentry)

theorem add_ends (hplan : ∀ id n, plan id n ≠ some .setAccess) (h : Lockstep G s) (id bytesPerBlock : Nat) :
    Ends (fun _ s' => Lockstep G s') (Lockstep G) (add G plan id bytesPerBlock s) := by
  unfold add
  apply ends_get_bind
  have hresized : Ends (fun _ s' => Kept G s s' ∧ s.numBlocksCommitted * bytesPerBlock ≤ (s'.tensors id).bytesPerSegment)
      (Lockstep G) ((if 0 < s.numBlocksCommitted then
        onTensor id (resizePerSegment (G id) (plan id) (s.numBlocksCommitted * bytesPerBlock)) else pure ⟨⟩ :
          EStateM VmmError KvBuffers PUnit) s) := by
    by_cases hpos : 0 < s.numBlocksCommitted
    · rw [if_pos hpos]
      exact (resize_kept hplan h id _).mono (fun _ _ hend => ⟨hend.1, le_of_eq hend.2.symm⟩)
        fun _ hend => hend.lockstep
    · rw [if_neg hpos]
      refine ⟨Kept.refl h, ?_⟩
      rw [Nat.eq_zero_of_not_pos hpos, Nat.zero_mul]
      exact Nat.zero_le _
  refine ends_bind hresized fun _ s₁ hend => ?_
  obtain ⟨hkept, hsize⟩ := hend
  refine ⟨hkept.lockstep.sound, hkept.lockstep.prefixed, fun entry hentry => ?_⟩
  rcases mem_append.mp hentry with hold | hnew
  · exact hkept.lockstep.committed entry hold
  · rw [mem_singleton.mp hnew]
    exact hkept.blocks.symm ▸ hsize

theorem lockstep_run (hplan : ∀ id n, plan id n ≠ some .setAccess) {buffers : List (Nat × Nat)} {capacity : Nat}
    {ops : List KvOp} (h : run (kvStep G plan) (KvBuffers.new buffers capacity) ops = some s) : Lockstep G s := by
  refine invariant (I := Lockstep G) (fun s op s' hs hstep => ?_) ?_ h
  · cases hstep
    cases op with
    | add id bytesPerBlock =>
      exact (add_ends hplan hs id bytesPerBlock).endState (fun _ _ hend => hend) fun _ hend => hend
    | commit numBlocks => exact (commit_ends hplan hs numBlocks).endState (fun _ _ hend => hend.1) fun _ hend => hend
    | ensureBlocks numBlocks =>
      exact (commit_ends hplan hs (max numBlocks s.numBlocksCommitted)).endState
        (fun _ _ hend => hend.1) fun _ hend => hend
    | ensure id start stop =>
      exact (ensure_kept hplan hs id start stop).endState (fun _ _ hend => hend.lockstep) fun _ hend => hend.lockstep
    | resize id bytesPerSegment =>
      exact (resize_kept hplan hs id bytesPerSegment).endState (fun _ _ hend => hend.1.lockstep)
        fun _ hend => hend.lockstep
  · refine ⟨fun _ => sound_new, fun _ i _ b hb => absurd hb (Nat.not_lt_zero b), fun entry _ => ?_⟩
    rw [KvBuffers.new, Nat.zero_mul]
    exact Nat.zero_le _

end Buffers

section Soundness

open StepRun

/-- The recorded handles share no granule, they cover exactly what the driver has mapped, and no
call has mapped a granule that was mapped. -/
structure Booked (G : Geometry) (s : Tensor) : Prop where
  once : ∀ c ∈ s.handles, ∀ d ∈ s.handles, ∀ k, k ∈ G.granules c → k ∈ G.granules d → c = d
  apart : s.handles.Pairwise fun c d => Disjoint (G.granules c) (G.granules d)
  covers : ∀ k, (∃ c ∈ s.live, k ∈ G.granules c) ↔ ∃ c ∈ s.handles, k ∈ G.granules c
  mapped : ∀ k, k ∈ s.mappedGranules ↔ ∃ c ∈ s.live, k ∈ G.granules c
  fresh : s.doubleMapped = false

theorem Sound.booked {G : Geometry} {s : Tensor} (h : Sound G s) : Booked G s where
  once c hc d hd k hkc hkd := by
    by_contra hne
    have hsymm : Std.Symm fun c d => Disjoint (G.granules c) (G.granules d) := ⟨fun _ _ hdisjoint => hdisjoint.symm⟩
    exact Finset.disjoint_left.mp (h.apart.forall hc hd hne) hkc hkd
  apart := h.apart
  covers k := by rw [h.recorded]
  mapped k := by rw [h.recorded, h.granules]
  fresh := h.once

def Mapped (G : Geometry) (s : Tensor) (byte : Nat) : Prop := ∃ c ∈ s.live, byte / G.granularity ∈ G.granules c

theorem Sound.mapped {G : Geometry} {s : Tensor} {byte : Nat} (h : Sound G s) (hbacked : Backed G s byte) :
    Mapped G s byte := (h.booked.mapped _).mp hbacked

/-- Where no access call raises, the books are those of the driver after every run of calls, and what was
committed is mapped. -/
theorem commit_sound {G : Nat → Geometry} {plan : Nat → Plan} (hplan : ∀ id n, plan id n ≠ some .setAccess) :
    (∀ id ops s, run (step (G id) (plan id)) Tensor.new ops = some s →
      Booked (G id) s ∧
      (∀ start stop s', ensureCommittedRange (G id) (plan id) start stop s = .ok ⟨⟩ s' →
        ∀ byte : Nat, start ≤ byte → (byte : Int) < stop → Mapped (G id) s' byte) ∧
      (∀ bytesPerSegment s', resizePerSegment (G id) (plan id) bytesPerSegment s = .ok ⟨⟩ s' →
        ∀ i < (G id).numSegments, ∀ b < bytesPerSegment, Mapped (G id) s' (i * (G id).segmentCapacity + b))) ∧
    (∀ buffers capacity ops s, run (kvStep G plan) (KvBuffers.new buffers capacity) ops = some s →
      ∀ entry ∈ s.buffers, Booked (G entry.1) (s.tensors entry.1) ∧
        ∀ i < (G entry.1).numSegments, ∀ b < s.numBlocksCommitted * entry.2,
          Mapped (G entry.1) (s.tensors entry.1) (i * (G entry.1).segmentCapacity + b)) := by
  constructor
  · intro id ops s hrun
    obtain ⟨hsound, hprefixed⟩ := sound_run (hplan id) hrun
    refine ⟨hsound.booked, fun start stop s' hok byte hlo hhi => ?_, fun bytesPerSegment s' hok i hi b hb => ?_⟩
    · obtain ⟨hgrown, hbacked⟩ := (ensureCommittedRange_ends (hplan id) hsound start stop).ok_of hok
      exact hgrown.sound.mapped (hbacked byte hlo hhi)
    · obtain ⟨hsound', hprefixed', -, hsize⟩ :=
        (resizePerSegment_ends (hplan id) hsound hprefixed bytesPerSegment).ok_of hok
      exact hsound'.mapped (hprefixed' i hi b (hsize.symm ▸ hb))
  · intro buffers capacity ops s hrun entry hentry
    have hlockstep := lockstep_run hplan hrun
    refine ⟨(hlockstep.sound entry.1).booked, fun i hi b hb => ?_⟩
    exact (hlockstep.sound entry.1).mapped
      (hlockstep.prefixed entry.1 i hi b (lt_of_lt_of_le hb (hlockstep.committed entry hentry)))

def twoGranules : Geometry := ⟨2, 1, 4, Nat.two_pos⟩

def secondMapRaises (id : Nat) : Plan := fun n => if id = 1 ∧ n = 0 then some .map else none

def retriedCommit : KvBuffers :=
  let s := KvBuffers.new [(0, 3), (1, 3)] 1
  let s := endState (kvCall (fun _ => twoGranules) secondMapRaises (.commit 1) s)
  endState (kvCall (fun _ => twoGranules) secondMapRaises (.commit 1) s)

theorem commit_sound_retried :
    retriedCommit.numBlocksCommitted = 1 ∧ ∀ b < 3, Mapped twoGranules (retriedCommit.tensors 1) b :=
  have hplan : ∀ id n, secondMapRaises id n ≠ some .setAccess := by
    intro id n
    unfold secondMapRaises
    split <;> simp
  have hblocks : retriedCommit.numBlocksCommitted = 1 := by decide
  have hmember : (1, 3) ∈ retriedCommit.buffers := by decide
  have hmapped := ((@commit_sound (fun _ => twoGranules) secondMapRaises hplan).2 [(0, 3), (1, 3)] 1
    [.commit 1, .commit 1] retriedCommit rfl (1, 3) hmember).2 0 (by decide)
  ⟨hblocks, fun b hb => by
    have hbyte := hmapped b (by rw [hblocks]; exact hb)
    rwa [Nat.zero_mul, Nat.zero_add] at hbyte⟩

/-- The access call of the first chunk raises: the driver has mapped a granule that no handle
records, and the retry maps it again. -/
theorem setAccess_raises :
    ¬∀ (G : Geometry) (plan : Plan) (ops : List Op) (s : Tensor),
      run (step G plan) Tensor.new ops = some s →
        (∀ k, (∃ c ∈ s.live, k ∈ G.granules c) ↔ ∃ c ∈ s.handles, k ∈ G.granules c) ∧ s.doubleMapped = false := by
  intro h
  have hretry := (h twoGranules (fun n => if n = 0 then some .setAccess else none) [.ensure 0 2, .ensure 0 2]
    (endState (call twoGranules (fun n => if n = 0 then some .setAccess else none) (.ensure 0 2)
      (endState (call twoGranules (fun n => if n = 0 then some .setAccess else none) (.ensure 0 2) Tensor.new)))) rfl).2
  revert hretry
  decide

end Soundness

end VmmCommit
