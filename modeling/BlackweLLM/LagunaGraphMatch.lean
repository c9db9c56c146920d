import BlackweLLM.LagunaGraphDecode
import BlackweLLM.LagunaRingFaithful

/-!
# When graph decode metadata equals eager metadata

A table keeps its entries while the page count stays the same. What these
entries are is settled by the call that last wrote them, so that a replay reads
the eager metadata exactly when that call was for the same slot and, on the
ring, for the same aligned start.
-/

namespace LagunaGraphDecode

open List LagunaRing LagunaRingForward RaisingState StepRun

variable {cfg : Config} {b b' : Buffers} {slot kvLen : Nat}

section Blocks

theorem blocksFor_pos (g : Geometry) {tokens : Nat} (h : 0 < tokens) : 0 < blocksFor g tokens :=
  Nat.zero_lt_of_lt (lt_blocksFor g h)

theorem fullBlocks_inj {src n : Nat} (hn : 0 < n) (hblocks : 0 < cfg.blocksPerSlot) :
    fullBlocks cfg src n = fullBlocks cfg slot n ↔ src = slot := by
  constructor
  · intro h
    have hfirst := congrArg (fun xs => xs[0]?) h
    simp only [fullBlocks, getElem?_map, getElem?_range hn, Option.map_some, Option.some.injEq, add_zero,
      fullBase, physicalSlot, reservedPhysicalSlots] at hfirst
    exact Nat.eq_of_mul_eq_mul_right hblocks hfirst
  · rintro rfl
    rfl

theorem ringBlock_mem (g : Geometry) (slot p : Nat) :
    g.ringBase slot ≤ ringBlock g slot p ∧
    ringBlock g slot p < g.ringBase slot + g.ringBlocks := g.ringCell_fst_mem slot p

theorem ringBlocksFrom_inj (g : Geometry) {start start' n : Nat} (hn : 0 < n) (hstart : g.blockSize ∣ start)
    (hstart' : g.blockSize ∣ start') (slot src : Nat) : ringBlocksFrom g src start n = ringBlocksFrom g slot start' n ↔
      src = slot ∧ start % g.ringSlots = start' % g.ringSlots := by
  constructor
  · intro h
    have hfirst := congrArg (fun xs => xs[0]?) h
    simp only [ringBlocksFrom, getElem?_map, getElem?_range hn, Option.map_some, Option.some.injEq, zero_mul,
      add_zero] at hfirst
    have hslot : src = slot := g.ringBase_disjoint (ringBlock_mem g src start) (hfirst ▸ ringBlock_mem g slot start')
    subst hslot
    have hdiv : start % g.ringSlots / g.blockSize = start' % g.ringSlots / g.blockSize := Nat.add_left_cancel hfirst
    have hmod : ∀ {p : Nat}, g.blockSize ∣ p → p % g.ringSlots % g.blockSize = 0 := fun {p} hp => by
      rw [g.mod_ringSlots_mod]
      exact Nat.mod_eq_zero_of_dvd hp
    refine ⟨rfl, ?_⟩
    rw [← Nat.div_add_mod (start % g.ringSlots) g.blockSize, ← Nat.div_add_mod (start' % g.ringSlots) g.blockSize, hdiv,
      hmod hstart, hmod hstart']
  · rintro ⟨rfl, h⟩
    refine map_congr_left fun j _ => ?_
    unfold ringBlock
    rw [Nat.add_mod, h, ← Nat.add_mod]

theorem decodeRing_eq (g : Geometry) (slot pos : Nat) : decodeRing g slot pos =
    ⟨ringBlocksFrom g slot (alignedStart g pos) (blocksFor g (pos + 1 - alignedStart g pos)),
      pos + 1 - alignedStart g pos, 1,
      [ringRow g slot pos]⟩ := by
  unfold decodeRing
  dsimp only
  rw [take_left' (by simp [ringBlocksFrom])]

theorem alignedStart_le (g : Geometry) (pos : Nat) : alignedStart g pos ≤ pos :=
  (alignedStart_bounds g pos).1.trans (windowStart_le g pos)

end Blocks

section Fill

def fullFilled (cfg : Config) (slot kvLen : Nat) (b : Buffers) : Buffers :=
  let n := blocksFor cfg.geometry (kvLen + 1)
  { b with
    prevNBlocks := [n]
    fullTable := if b.prevNBlocks = [n] then b.fullTable else fullBlocks cfg slot n ++ b.fullTable.drop n
    fullSource := if b.prevNBlocks = [n] then b.fullSource else slot
    fullSeqlen := kvLen + 1
    slotMapping := [(fullBase cfg slot + kvLen / cfg.geometry.blockSize) * cfg.geometry.blockSize + kvLen % cfg.geometry.blockSize] }

/-- The sliding-window group behind a fill. -/
def swaFilled (cfg : Config) (slot kvLen : Nat) (b : Buffers) : Buffers :=
  let n := ringBlockCount cfg kvLen
  let start := alignedStart cfg.geometry kvLen
  { b with
    swaPrevNBlocks := [n]
    swaTable := if b.swaPrevNBlocks = [n] then b.swaTable else ringBlocksFrom cfg.geometry slot start n ++ b.swaTable.drop n
    swaSource := if b.swaPrevNBlocks = [n] then b.swaSource else (slot, start)
    swaSeqlen := kvLen + 1 - start
    swaSlotMapping := [ringRow cfg.geometry slot kvLen] }

/-- The buffers of a graph for one row, whose tables hold the blocks of the call that wrote them. -/
structure Inv (cfg : Config) (b : Buffers) : Prop where
  prev : ∃ p, b.prevNBlocks = [p] ∧ b.fullTable.take p = fullBlocks cfg b.fullSource p
  swaPrev : ∃ q, b.swaPrevNBlocks = [q] ∧ b.swaTable.take q = ringBlocksFrom cfg.geometry b.swaSource.1 b.swaSource.2 q
  aligned : cfg.geometry.blockSize ∣ b.swaSource.2
  slotMapping : b.slotMapping.length = 1
  swaSlotMapping : b.swaSlotMapping.length = 1

theorem fullFilled_of_eq (slot : Nat) (h : b.prevNBlocks = [blocksFor cfg.geometry (kvLen + 1)]) :
    (fullFilled cfg slot kvLen b).fullTable = b.fullTable ∧ (fullFilled cfg slot kvLen b).fullSource = b.fullSource :=
  ⟨if_pos h, if_pos h⟩

theorem fullFilled_of_ne (slot : Nat) (h : b.prevNBlocks ≠ [blocksFor cfg.geometry (kvLen + 1)]) :
    (fullFilled cfg slot kvLen b).fullTable = fullBlocks cfg slot (blocksFor cfg.geometry (kvLen + 1)) ++
        b.fullTable.drop (blocksFor cfg.geometry (kvLen + 1)) ∧
      (fullFilled cfg slot kvLen b).fullSource = slot :=
  ⟨if_neg h, if_neg h⟩

theorem swaFilled_of_eq (slot : Nat) (h : b.swaPrevNBlocks = [ringBlockCount cfg kvLen]) :
    (swaFilled cfg slot kvLen b).swaTable = b.swaTable ∧ (swaFilled cfg slot kvLen b).swaSource = b.swaSource :=
  ⟨if_pos h, if_pos h⟩

theorem swaFilled_of_ne (slot : Nat) (h : b.swaPrevNBlocks ≠ [ringBlockCount cfg kvLen]) :
    (swaFilled cfg slot kvLen b).swaTable =
        ringBlocksFrom cfg.geometry slot (alignedStart cfg.geometry kvLen) (ringBlockCount cfg kvLen) ++
          b.swaTable.drop (ringBlockCount cfg kvLen) ∧
      (swaFilled cfg slot kvLen b).swaSource = (slot, alignedStart cfg.geometry kvLen) :=
  ⟨if_neg h, if_neg h⟩

/-- The first entries of the full-attention table are those of the slot that it was written for. -/
theorem fullFilled_table (h : Inv cfg b) (slot kvLen : Nat) :
    (fullFilled cfg slot kvLen b).fullTable.take (blocksFor cfg.geometry (kvLen + 1)) =
      fullBlocks cfg (fullFilled cfg slot kvLen b).fullSource (blocksFor cfg.geometry (kvLen + 1)) := by
  obtain ⟨p, hprev, htable⟩ := h.prev
  by_cases heq : b.prevNBlocks = [blocksFor cfg.geometry (kvLen + 1)]
  · obtain ⟨hsame, hsource⟩ := fullFilled_of_eq slot heq
    rw [hsame, hsource]
    rw [hprev, List.cons.injEq] at heq
    rw [← heq.1]
    exact htable
  · obtain ⟨hnew, hsource⟩ := fullFilled_of_ne slot heq
    rw [hnew, hsource]
    exact take_left' (by simp [fullBlocks])

theorem swaFilled_table (h : Inv cfg b) (slot kvLen : Nat) :
    (swaFilled cfg slot kvLen b).swaTable.take (ringBlockCount cfg kvLen) =
        ringBlocksFrom cfg.geometry (swaFilled cfg slot kvLen b).swaSource.1 (swaFilled cfg slot kvLen b).swaSource.2
          (ringBlockCount cfg kvLen) ∧
      cfg.geometry.blockSize ∣ (swaFilled cfg slot kvLen b).swaSource.2 := by
  obtain ⟨q, hprev, htable⟩ := h.swaPrev
  by_cases heq : b.swaPrevNBlocks = [ringBlockCount cfg kvLen]
  · obtain ⟨hsame, hsource⟩ := swaFilled_of_eq slot heq
    rw [hsame, hsource]
    rw [hprev, List.cons.injEq] at heq
    rw [← heq.1]
    exact ⟨htable, h.aligned⟩
  · obtain ⟨hnew, hsource⟩ := swaFilled_of_ne slot heq
    rw [hnew, hsource]
    exact ⟨take_left' (by simp [ringBlocksFrom]), dvd_alignedStart cfg.geometry kvLen⟩

def filled (cfg : Config) (slot kvLen : Nat) (b : Buffers) : Buffers :=
  swaFilled cfg slot kvLen (fullFilled cfg slot kvLen b)

theorem inv_filled (h : Inv cfg b) (slot kvLen : Nat) : Inv cfg (filled cfg slot kvLen b) where
  prev := ⟨_, rfl, fullFilled_table h slot kvLen⟩
  swaPrev := ⟨_, rfl, (swaFilled_table h slot kvLen).1⟩
  aligned := (swaFilled_table h slot kvLen).2
  slotMapping := rfl
  swaSlotMapping := rfl

/-- The full-attention table behind `updateFullTable`. -/
def withFullTable (cfg : Config) (slot kvLen : Nat) (b : Buffers) : Buffers :=
  { b with
    prevNBlocks := (fullFilled cfg slot kvLen b).prevNBlocks
    fullTable := (fullFilled cfg slot kvLen b).fullTable
    fullSource := (fullFilled cfg slot kvLen b).fullSource }

def withSwaTable (cfg : Config) (slot kvLen : Nat) (b : Buffers) : Buffers :=
  { b with
    swaPrevNBlocks := (swaFilled cfg slot kvLen b).swaPrevNBlocks
    swaTable := (swaFilled cfg slot kvLen b).swaTable
    swaSource := (swaFilled cfg slot kvLen b).swaSource }

theorem updateFullTable_eq {p : Nat} (hprev : b.prevNBlocks = [p])
    (hpages : blocksFor cfg.geometry (kvLen + 1) ≤ cfg.maxPages) :
    updateFullTable cfg 0 slot kvLen b = .ok ⟨⟩ (withFullTable cfg slot kvLen b) := by
  unfold updateFullTable
  rw [bind_of_ok (get_apply b)]
  have hget : b.prevNBlocks[0]? = some p := by rw [hprev]; rfl
  simp only [hget]
  by_cases hsame : blocksFor cfg.geometry (kvLen + 1) = p
  · have heq : b.prevNBlocks = [blocksFor cfg.geometry (kvLen + 1)] := hprev.trans (by rw [hsame])
    obtain ⟨htable, hsource⟩ := fullFilled_of_eq slot heq
    have hkept : (fullFilled cfg slot kvLen b).prevNBlocks = b.prevNBlocks := heq.symm
    rw [if_neg (not_not.mpr hsame), withFullTable, htable, hsource, hkept]
    rfl
  · rw [if_pos hsame, bind_of_ok (modify_apply _ _), bind_of_ok (raiseIf_of_not (not_lt.mpr hpages) _)]
    have hne : ¬ b.prevNBlocks = [blocksFor cfg.geometry (kvLen + 1)] := fun heq => by
      rw [hprev, List.cons.injEq] at heq
      exact hsame heq.1.symm
    obtain ⟨htable, hsource⟩ := fullFilled_of_ne slot hne
    rw [withFullTable, htable, hsource, hprev]
    rfl

theorem updateSwaTable_eq {q : Nat} (hprev : b.swaPrevNBlocks = [q]) :
    updateSwaTable cfg 0 slot kvLen b = .ok ⟨⟩ (withSwaTable cfg slot kvLen b) := by
  unfold updateSwaTable
  rw [bind_of_ok (get_apply b)]
  have hget : b.swaPrevNBlocks[0]? = some q := by rw [hprev]; rfl
  have hring : ¬ (0 < 0 ∨ cfg.geometry.ringBlocks < ringBlockCount cfg kvLen) := by
    have := decodeRing_fits cfg.geometry kvLen
    unfold ringBlockCount
    omega
  simp only [hget]
  by_cases hsame : ringBlockCount cfg kvLen = q
  · have heq : b.swaPrevNBlocks = [ringBlockCount cfg kvLen] := hprev.trans (by rw [hsame])
    obtain ⟨htable, hsource⟩ := swaFilled_of_eq slot heq
    have hkept : (swaFilled cfg slot kvLen b).swaPrevNBlocks = b.swaPrevNBlocks := heq.symm
    rw [if_neg (not_not.mpr hsame), withSwaTable, htable, hsource, hkept]
    rfl
  · rw [if_pos hsame, bind_of_ok (modify_apply _ _), bind_of_ok (raiseIf_of_not hring _)]
    have hne : ¬ b.swaPrevNBlocks = [ringBlockCount cfg kvLen] := fun heq => by
      rw [hprev, List.cons.injEq] at heq
      exact hsame heq.1.symm
    obtain ⟨htable, hsource⟩ := swaFilled_of_ne slot hne
    rw [withSwaTable, htable, hsource, hprev]
    rfl

theorem set_zero {xs : List Nat} (h : xs.length = 1) (x : Nat) : xs.set 0 x = [x] := by
  obtain ⟨y, rfl⟩ := length_eq_one_iff.mp h
  rfl

theorem fillFull_eq (h : Inv cfg b) (hbatch : cfg.batchSize = 1)
    (hpages : blocksFor cfg.geometry (kvLen + 1) ≤ cfg.maxPages)
    {mapped : Nat} (hmapped : [mapped] = (fullFilled cfg slot kvLen b).slotMapping) :
    fillFull cfg 0 slot kvLen mapped b = .ok ⟨⟩ (fullFilled cfg slot kvLen b) := by
  obtain ⟨p, hprev, -⟩ := h.prev
  unfold fillFull
  rw [bind_of_ok (updateFullTable_eq hprev hpages), bind_of_ok (raiseIf_of_not (lt_irrefl 0) _),
    bind_of_ok (modify_apply _ _), bind_of_ok (raiseIf_of_not (by omega) _), modify_apply]
  have hset : b.slotMapping.set 0 mapped = (fullFilled cfg slot kvLen b).slotMapping :=
    (set_zero h.slotMapping _).trans hmapped
  simp only [withFullTable, hset]
  rfl

theorem fillSwa_eq (h : Inv cfg b) (hbatch : cfg.batchSize = 1) :
    fillSwa cfg 0 slot kvLen b = .ok ⟨⟩ (swaFilled cfg slot kvLen b) := by
  obtain ⟨q, hprev, -⟩ := h.swaPrev
  unfold fillSwa
  rw [bind_of_ok (updateSwaTable_eq hprev), bind_of_ok (raiseIf_of_not (lt_irrefl 0) _),
    bind_of_ok (modify_apply _ _), bind_of_ok (raiseIf_of_not (by omega) _), modify_apply]
  have hset : b.swaSlotMapping.set 0 (ringRow cfg.geometry slot kvLen) = (swaFilled cfg slot kvLen b).swaSlotMapping :=
    set_zero h.swaSlotMapping _
  simp only [withSwaTable, hset]
  rfl

theorem fullFilled_inv (h : Inv cfg b) : Inv cfg (fullFilled cfg slot kvLen b) :=
  ⟨⟨_, rfl, fullFilled_table h slot kvLen⟩, h.swaPrev, h.aligned, rfl, h.swaSlotMapping⟩

theorem swaFilled_inv (h : Inv cfg b) : Inv cfg (swaFilled cfg slot kvLen b) :=
  ⟨h.prev, ⟨_, rfl, (swaFilled_table h slot kvLen).1⟩, (swaFilled_table h slot kvLen).2, h.slotMapping, rfl⟩

theorem fullRow_eq (cfg : Config) (slot kvLen : Nat) : fullBase cfg slot * cfg.geometry.blockSize + kvLen =
    (fullBase cfg slot + kvLen / cfg.geometry.blockSize) * cfg.geometry.blockSize + kvLen % cfg.geometry.blockSize := by
  have := Nat.div_add_mod kvLen cfg.geometry.blockSize
  rw [add_mul, mul_comm (kvLen / _)]
  omega

/-- The fused kernel writes what the scalar path writes. -/
theorem writeB1DecodeMetadata_eq (h : Inv cfg b) (slot kvLen : Nat) : writeB1DecodeMetadata cfg slot kvLen b =
    { b with
      slotMapping := (fullFilled cfg slot kvLen b).slotMapping
      fullSeqlen := (fullFilled cfg slot kvLen b).fullSeqlen
      swaSeqlen := (swaFilled cfg slot kvLen b).swaSeqlen
      swaSlotMapping := (swaFilled cfg slot kvLen b).swaSlotMapping } := by
  unfold writeB1DecodeMetadata
  dsimp only
  rw [set_zero h.slotMapping, set_zero h.swaSlotMapping, fullRow_eq, Geometry.mod_ringSlots_mod]
  rfl

theorem fillBuffersB1_eq (h : Inv cfg b) (hbatch : cfg.batchSize = 1)
    (hpages : blocksFor cfg.geometry (kvLen + 1) ≤ cfg.maxPages) :
    fillBuffersB1 cfg slot kvLen b = .ok ⟨⟩ (filled cfg slot kvLen b) := by
  have hmapped : ∀ b, [fullBase cfg slot * cfg.geometry.blockSize + kvLen] = (fullFilled cfg slot kvLen b).slotMapping :=
    fun b => congrArg (fun row => [row]) (fullRow_eq cfg slot kvLen)
  unfold fillBuffersB1
  split
  · obtain ⟨p, hprev, -⟩ := h.prev
    obtain ⟨q, hswaPrev, -⟩ := h.swaPrev
    rw [bind_of_ok (modify_apply _ _), writeB1DecodeMetadata_eq h]
    generalize hwritten : ({ b with
      slotMapping := (fullFilled cfg slot kvLen b).slotMapping
      fullSeqlen := (fullFilled cfg slot kvLen b).fullSeqlen
      swaSeqlen := (swaFilled cfg slot kvLen b).swaSeqlen
      swaSlotMapping := (swaFilled cfg slot kvLen b).swaSlotMapping } : Buffers) = written
    have hprev' : written.prevNBlocks = [p] := hwritten ▸ hprev
    have hswaPrev' : (withFullTable cfg slot kvLen written).swaPrevNBlocks = [q] := hwritten ▸ hswaPrev
    rw [bind_of_ok (updateFullTable_eq hprev' hpages), updateSwaTable_eq hswaPrev', ← hwritten]
    rfl
  · dsimp only
    split
    · rw [bind_of_ok (fillFull_eq h hbatch hpages (hmapped b))]
      exact fillSwa_eq (fullFilled_inv h) hbatch
    · rw [bind_of_ok (fillSwa_eq h hbatch)]
      exact fillFull_eq (swaFilled_inv h) hbatch hpages (hmapped _)

end Fill

section Calls

theorem fullRead_filled (h : Inv cfg b) (slot kvLen : Nat) : fullRead cfg (filled cfg slot kvLen b) =
    ⟨fullBlocks cfg (filled cfg slot kvLen b).fullSource (blocksFor cfg.geometry (kvLen + 1)), kvLen + 1, 1,
      [(fullBase cfg slot + kvLen / cfg.geometry.blockSize) * cfg.geometry.blockSize + kvLen % cfg.geometry.blockSize]⟩ := by
  rw [show (filled cfg slot kvLen b).fullSource = (fullFilled cfg slot kvLen b).fullSource from rfl,
    ← fullFilled_table h slot kvLen]
  rfl

theorem swaRead_filled (h : Inv cfg b) (slot kvLen : Nat) : swaRead cfg (filled cfg slot kvLen b) =
    ⟨ringBlocksFrom cfg.geometry (filled cfg slot kvLen b).swaSource.1 (filled cfg slot kvLen b).swaSource.2
      (ringBlockCount cfg kvLen), kvLen + 1 - alignedStart cfg.geometry kvLen, 1, [ringRow cfg.geometry slot kvLen]⟩ := by
  rw [show (filled cfg slot kvLen b).swaSource = (swaFilled cfg slot kvLen b).swaSource from rfl,
    ← (swaFilled_table h slot kvLen).1]
  rfl

theorem filled_fullSource (slot kvLen : Nat) (b : Buffers) : (filled cfg slot kvLen b).fullSource = slot ↔
    (b.prevNBlocks = [blocksFor cfg.geometry (kvLen + 1)] → b.fullSource = slot) := by
  by_cases heq : b.prevNBlocks = [blocksFor cfg.geometry (kvLen + 1)]
  · rw [show (filled cfg slot kvLen b).fullSource = b.fullSource from (fullFilled_of_eq slot heq).2]
    exact ⟨fun h _ => h, fun h => h heq⟩
  · exact ⟨fun _ h => absurd h heq, fun _ => (fullFilled_of_ne slot heq).2⟩

theorem filled_swaSource (slot kvLen : Nat) (b : Buffers) :
    ((filled cfg slot kvLen b).swaSource.1 = slot ∧ (filled cfg slot kvLen b).swaSource.2 % cfg.geometry.ringSlots =
      alignedStart cfg.geometry kvLen % cfg.geometry.ringSlots) ↔
    (b.swaPrevNBlocks = [ringBlockCount cfg kvLen] → b.swaSource.1 = slot ∧
      b.swaSource.2 % cfg.geometry.ringSlots = alignedStart cfg.geometry kvLen % cfg.geometry.ringSlots) := by
  by_cases heq : b.swaPrevNBlocks = [ringBlockCount cfg kvLen]
  · rw [show (filled cfg slot kvLen b).swaSource = b.swaSource from (swaFilled_of_eq slot heq).2]
    exact ⟨fun h _ => h, fun h => h heq⟩
  · rw [show (filled cfg slot kvLen b).swaSource = (slot, alignedStart cfg.geometry kvLen) from (swaFilled_of_ne slot heq).2]
    exact ⟨fun _ h => absurd h heq, fun _ => ⟨rfl, rfl⟩⟩

/-- A row runs with the eager metadata exactly when both tables are current for it. -/
theorem matches_filled (h : Inv cfg b) (hblocks : 0 < cfg.blocksPerSlot) (slot kvLen : Nat) :
    Matches cfg ⟨slot, kvLen, fullRead cfg (filled cfg slot kvLen b), swaRead cfg (filled cfg slot kvLen b)⟩ ↔
      Current cfg b slot kvLen := by
  have hfull : fullBlocks cfg (filled cfg slot kvLen b).fullSource (blocksFor cfg.geometry (kvLen + 1)) =
      fullBlocks cfg slot (blocksFor cfg.geometry (kvLen + 1)) ↔ (filled cfg slot kvLen b).fullSource = slot :=
    fullBlocks_inj (blocksFor_pos cfg.geometry (Nat.succ_pos kvLen)) hblocks
  have hle := alignedStart_le cfg.geometry kvLen
  have hswa := ringBlocksFrom_inj cfg.geometry
    (blocksFor_pos cfg.geometry (show 0 < kvLen + 1 - alignedStart cfg.geometry kvLen by omega))
      (inv_filled h slot kvLen).aligned
    (dvd_alignedStart cfg.geometry kvLen) slot (filled cfg slot kvLen b).swaSource.1
  rw [Matches, fullRead_filled h, swaRead_filled h, decodeFull, decodeRing_eq, Metadata.mk.injEq, Metadata.mk.injEq, hfull]
  simp only [and_true]
  rw [ringBlockCount, hswa, filled_fullSource, filled_swaSource, Current]

theorem pages_of_lt (h : cfg.blocksPerSlot ≤ cfg.maxPages) (hlt : kvLen < capacity cfg) :
    blocksFor cfg.geometry (kvLen + 1) ≤ cfg.maxPages :=
  (blocksFor_le cfg.geometry hlt).trans h

theorem fillBuffers_nil (b : Buffers) : fillBuffers cfg [] b = .ok ⟨⟩ b := by
  have hbatch : fillBuffersBatch cfg [] b = .ok ⟨⟩ b := by
    unfold fillBuffersBatch
    rw [bind_of_ok (raiseIf_of_not (by simp) b)]
    split <;> rfl
  exact hbatch

/-- A call of several rows finds no input row for the second. -/
theorem fillBuffers_many (hbatch : cfg.batchSize = 1) (row row' : Nat × Nat) (rows : List (Nat × Nat)) (b : Buffers) :
    fillBuffers cfg (row :: row' :: rows) b = .error .index b := by
  exact bind_of_error (raiseIf_of (by simp only [length_cons]; omega) b)

variable {u : PUnit}

theorem fillFull_second {mapped : Nat} : fillFull cfg 1 slot kvLen mapped b ≠ .ok u b' := by
  intro h
  unfold fillFull at h
  obtain ⟨⟨⟩, b₁, -, h⟩ := bind_eq_ok.mp h
  obtain ⟨⟨⟩, b₂, hraise, -⟩ := bind_eq_ok.mp h
  exact (raiseIf_eq_ok.mp hraise).1 one_pos

theorem fillSwa_second : fillSwa cfg 1 slot kvLen b ≠ .ok u b' := by
  intro h
  unfold fillSwa at h
  obtain ⟨⟨⟩, b₁, -, h⟩ := bind_eq_ok.mp h
  obtain ⟨⟨⟩, b₂, hraise, -⟩ := bind_eq_ok.mp h
  exact (raiseIf_eq_ok.mp hraise).1 one_pos

/-- A loop over the rows does not get past the second where that raises. -/
theorem forM_second {f : (Nat × Nat) × Nat → Fill Unit} (hf : ∀ row b u b', f (row, 1) b ≠ .ok u b')
    (row row' : Nat × Nat)
    (rows : List (Nat × Nat)) : (forM (row :: row' :: rows).zipIdx f) b ≠ .ok u b' := by
  intro h
  rw [zipIdx_cons, zipIdx_cons, forM_cons] at h
  obtain ⟨⟨⟩, b₁, -, h⟩ := bind_eq_ok.mp h
  rw [forM_cons] at h
  obtain ⟨⟨⟩, b₂, hsecond, -⟩ := bind_eq_ok.mp h
  exact hf row' b₁ _ b₂ hsecond

theorem fillBuffers_second (row row' : Nat × Nat) (rows : List (Nat × Nat)) :
    fillBuffers cfg (row :: row' :: rows) b ≠ .ok u b' := by
  intro h
  change fillBuffersBatch cfg (row :: row' :: rows) b = .ok u b' at h
  unfold fillBuffersBatch at h
  obtain ⟨⟨⟩, b₁, -, h⟩ := bind_eq_ok.mp h
  split at h
  · obtain ⟨⟨⟩, b₂, hfull, -⟩ := bind_eq_ok.mp h
    exact forM_second (fun _ _ _ _ => fillFull_second) row row' rows hfull
  · obtain ⟨⟨⟩, b₂, hswa, -⟩ := bind_eq_ok.mp h
    exact forM_second (fun _ _ _ _ => fillSwa_second) row row' rows hswa

/-- A page table that is too narrow for the row raises. -/
theorem updateFullTable_narrow {p : Nat} (hprev : b.prevNBlocks = [p]) (hne : blocksFor cfg.geometry (kvLen + 1) ≠ p)
    (hpages : cfg.maxPages < blocksFor cfg.geometry (kvLen + 1)) : updateFullTable cfg 0 slot kvLen b ≠ .ok u b' := by
  intro h
  unfold updateFullTable at h
  rw [bind_of_ok (get_apply b)] at h
  have hget : b.prevNBlocks[0]? = some p := by rw [hprev]; rfl
  simp only [hget] at h
  rw [if_pos hne, bind_of_ok (modify_apply _ _), bind_of_error (raiseIf_of hpages _)] at h
  cases h

theorem pages_of_fill (h : Inv cfg b) (hbatch : cfg.batchSize = 1) (hprev : b.prevNBlocks = [0])
    (hfill : fillBuffersB1 cfg slot kvLen b = .ok u b') : blocksFor cfg.geometry (kvLen + 1) ≤ cfg.maxPages := by
  by_contra hlt
  have hne : blocksFor cfg.geometry (kvLen + 1) ≠ 0 := (blocksFor_pos cfg.geometry (Nat.succ_pos kvLen)).ne'
  have hnarrow : ∀ (b b' : Buffers) (u : PUnit), b.prevNBlocks = [0] → updateFullTable cfg 0 slot kvLen b ≠ .ok u b' :=
    fun b b' u hprev => updateFullTable_narrow hprev hne (not_le.mp hlt)
  unfold fillBuffersB1 at hfill
  split at hfill
  · obtain ⟨⟨⟩, b₁, hwrite, hfill⟩ := bind_eq_ok.mp hfill
    obtain ⟨⟨⟩, b₂, htable, -⟩ := bind_eq_ok.mp hfill
    rw [modify_apply] at hwrite
    cases hwrite
    exact hnarrow (writeB1DecodeMetadata cfg slot kvLen b) _ _ hprev htable
  · dsimp only at hfill
    split at hfill
    · obtain ⟨⟨⟩, b₁, hfull, -⟩ := bind_eq_ok.mp hfill
      unfold fillFull at hfull
      obtain ⟨⟨⟩, b₂, htable, -⟩ := bind_eq_ok.mp hfull
      exact hnarrow _ _ _ hprev htable
    · rw [bind_of_ok (fillSwa_eq h hbatch)] at hfill
      unfold fillFull at hfill
      obtain ⟨⟨⟩, b₂, htable, -⟩ := bind_eq_ok.mp hfill
      exact hnarrow (swaFilled cfg slot kvLen b) _ _ hprev htable

/-- A captured graph has one row, a table that is wide enough, and tables that hold the blocks of the warmup row. -/
theorem capture_spec (h : capture cfg = some b) : cfg.batchSize = 1 ∧ cfg.blocksPerSlot ≤ cfg.maxPages ∧ Inv cfg b := by
  unfold capture at h
  split at h
  · rename_i u b₀ hfills
    obtain ⟨hpos, heq⟩ := Option.ite_none_left_eq_some.mp h
    cases heq
    rw [replicate_succ, forM_cons] at hfills
    obtain ⟨⟨⟩, b₁, hfirst, hfills⟩ := bind_eq_ok.mp hfills
    have hbatch : cfg.batchSize = 1 := by
      by_contra hne
      obtain ⟨row, row', rows, hrows⟩ : ∃ row row' rows, warmup cfg = row :: row' :: rows := by
        have hlen : (warmup cfg).length = cfg.batchSize := by simp [warmup]
        match hwarm : warmup cfg with
        | [] => rw [hwarm, length_nil] at hlen; omega
        | [_] => rw [hwarm, length_singleton] at hlen; omega
        | row :: row' :: rows => exact ⟨row, row', rows, rfl⟩
      rw [hrows] at hfirst
      exact fillBuffers_second row row' rows hfirst
    have hwarm : warmup cfg = [(cfg.numSlots - 1, capacity cfg - 1)] := by
      unfold warmup
      rw [hbatch]
      rfl
    have hinitial : Inv cfg (initial cfg) := by
      refine ⟨⟨0, ?_, rfl⟩, ⟨0, ?_, rfl⟩, Nat.dvd_zero _, ?_, ?_⟩ <;> simp [initial, hbatch]
    rw [hwarm] at hfirst hfills
    have hpages : blocksFor cfg.geometry (capacity cfg - 1 + 1) ≤ cfg.maxPages :=
      pages_of_fill hinitial hbatch (by simp [initial, hbatch]) hfirst
    refine ⟨hbatch, ?_, ?_⟩
    · by_contra hlt
      have hcapacity : capacity cfg - 1 < cfg.maxPages * cfg.geometry.blockSize := by
        by_contra hge
        have := lt_blocksFor cfg.geometry (show capacity cfg - 1 < capacity cfg - 1 + 1 by omega)
        have hdiv : cfg.maxPages ≤ (capacity cfg - 1) / cfg.geometry.blockSize :=
          (Nat.le_div_iff_mul_le cfg.geometry.block_pos).mpr (not_lt.mp hge)
        omega
      have hmul : (cfg.maxPages + 1) * cfg.geometry.blockSize ≤ capacity cfg :=
        Nat.mul_le_mul_right _ (not_le.mp hlt)
      have hblock := cfg.geometry.block_pos
      rw [add_mul] at hmul
      omega
    · have hfilled : ∀ {b b'} {u : PUnit}, Inv cfg b → fillBuffers cfg [(cfg.numSlots - 1, capacity cfg - 1)] b = .ok u b' → Inv cfg b' :=
        fun {b b' u} hinv hfill => by
          have heq := (fillBuffersB1_eq hinv hbatch hpages).symm.trans hfill
          cases heq
          exact inv_filled hinv _ _
      exact forM_ok (I := fun _ b => Inv cfg b) (fun _ rows _ _ _ hl hinv hfill => by
        have hmem : rows ∈ replicate 4 [(cfg.numSlots - 1, capacity cfg - 1)] := hl ▸ mem_append_right _ mem_cons_self
        rw [eq_of_mem_replicate hmem] at hfill
        exact hfilled hinv hfill) (hfilled hinitial hfirst) hfills
  · cases h

end Calls

section Runs

variable {s s' : State} {op : Op} {ops : List Op}

theorem reset_inv (h : Inv cfg b) (hbatch : cfg.batchSize = 1) : Inv cfg { b with
    prevNBlocks := replicate cfg.batchSize 0
    swaPrevNBlocks := replicate cfg.batchSize 0 } := by
  rw [hbatch]
  exact ⟨⟨0, rfl, rfl⟩, ⟨0, rfl, rfl⟩, h.aligned, h.slotMapping, h.swaSlotMapping⟩

section

variable (hbatch : cfg.batchSize = 1) (hpages : cfg.blocksPerSlot ≤ cfg.maxPages) (h : Inv cfg s.buffers)
include hbatch hpages h

/-- What one call preserves, and when the row that it runs has the eager metadata. -/
theorem next_spec (hnext : next cfg s op = some s') : Inv cfg s'.buffers ∧
      ((∀ r ∈ s'.replayed, Matches cfg r) ↔ (∀ r ∈ s.replayed, Matches cfg r) ∧ CurrentOp cfg s op) := by
  cases op with
  | reset =>
    cases hnext
    exact ⟨reset_inv h hbatch, (and_iff_left trivial).symm⟩
  | replay rows =>
    unfold next at hnext
    obtain ⟨hlt, hnext⟩ := Option.ite_none_right_eq_some.mp hnext
    match rows, hlt, hnext with
    | [], _, hnext =>
      rw [fillBuffers_nil] at hnext
      cases hnext
      exact ⟨h, by simp [CurrentOp]⟩
    | [row], hlt, hnext =>
      rw [all_cons, Bool.and_eq_true, decide_eq_true_eq] at hlt
      have hrow : fillBuffers cfg [row] s.buffers = .ok ⟨⟩ (filled cfg row.1 row.2 s.buffers) :=
        fillBuffersB1_eq h hbatch (pages_of_lt hpages hlt.1)
      rw [hrow] at hnext
      cases hnext
      have hblocks : 0 < cfg.blocksPerSlot := pos_of_ne_zero fun hzero => by
        have := hlt.1
        rw [capacity, hzero, Nat.zero_mul] at this
        exact absurd this (Nat.not_lt_zero _)
      refine ⟨inv_filled h _ _, ?_⟩
      have hrow := matches_filled h hblocks row.1 row.2
      simp only [map_cons, map_nil, mem_append, mem_singleton, or_imp, forall_and, forall_eq, hrow]
      rfl
    | row :: row' :: rows, _, hnext =>
      rw [fillBuffers_many hbatch] at hnext
      cases hnext
      exact ⟨h, (and_iff_left trivial).symm⟩

theorem run_matches (hrun : run (next cfg) s ops = some s') :
    (∀ r ∈ s'.replayed, Matches cfg r) ↔
      (∀ r ∈ s.replayed, Matches cfg r) ∧ Along (next cfg) (CurrentOp cfg) s ops := by
  induction ops generalizing s with
  | nil =>
    cases hrun
    exact (and_iff_left trivial).symm
  | cons op ops ih =>
    obtain ⟨s₁, hnext, hrest⟩ := run_cons.mp hrun
    obtain ⟨hinv, hfirst⟩ := next_spec hbatch hpages h hnext
    rw [ih hinv hrest, hfirst, and_assoc]
    refine and_congr_right fun _ => and_congr_right fun _ => ⟨fun hall s₂ hs₂ => ?_, fun hall => hall s₁ hnext⟩
    cases hnext.symm.trans hs₂
    exact hall

end

/-- A run of calls has the eager metadata in every row exactly when every call finds its tables current. -/
theorem replays_match_iff (hcapture : capture cfg = some b) (hrun : run (next cfg) ⟨b, []⟩ ops = some s') :
    (∀ r ∈ s'.replayed, Matches cfg r) ↔ Along (next cfg) (CurrentOp cfg) ⟨b, []⟩ ops := by
  obtain ⟨hbatch, hpages, hinv⟩ := capture_spec hcapture
  have hmatch := run_matches hbatch hpages (s := ⟨b, []⟩) hinv hrun
  rw [hmatch]
  exact and_iff_right fun r hr => absurd hr not_mem_nil

theorem window_pos : 0 < 512 := by decide

theorem block_pos : 0 < 64 := by decide

def laguna : Config := ⟨⟨512, 64, window_pos, block_pos⟩, 128, 1, 144, 1, true, true⟩

/-- One request from its reset on, over a page boundary. -/
theorem replays_match_growing : ∃ b s', capture laguna = some b ∧
    run (next laguna) ⟨b, []⟩ [.reset, .replay [(0, 1022)], .replay [(0, 1023)], .replay [(0, 1024)]] = some s' ∧
    s'.replayed.length = 3 ∧ ∀ r ∈ s'.replayed, Matches laguna r := by
  have hall : ((capture laguna).any fun b =>
      (run (next laguna) ⟨b, []⟩ [.reset, .replay [(0, 1022)], .replay [(0, 1023)], .replay [(0, 1024)]]).any fun s' =>
        s'.replayed.length == 3 && decide (Along (next laguna) (CurrentOp laguna) ⟨b, []⟩
          [.reset, .replay [(0, 1022)], .replay [(0, 1023)], .replay [(0, 1024)]])) = true := by decide +kernel
  obtain ⟨b, hb, hruns⟩ := (Option.any_eq_true _ _).mp hall
  obtain ⟨s', hs', hfacts⟩ := (Option.any_eq_true _ _).mp hruns
  rw [Bool.and_eq_true, beq_iff_eq, decide_eq_true_eq] at hfacts
  exact ⟨b, s', hb, hs', hfacts.1, (replays_match_iff hb hs').mpr hfacts.2⟩

/-- A request of 1000 tokens, then one of 5000 on the same slot: both windows take nine ring blocks. -/
theorem replays_differ : ∃ b s', capture laguna = some b ∧
    run (next laguna) ⟨b, []⟩ [.replay [(0, 1000)], .replay [(0, 5000)]] = some s' ∧
    ¬ ∀ r ∈ s'.replayed, Matches laguna r := by
  have hall : ((capture laguna).any fun b =>
      (run (next laguna) ⟨b, []⟩ [.replay [(0, 1000)], .replay [(0, 5000)]]).any fun s' =>
        s'.replayed.any fun r => !decide (Matches laguna r)) = true := by decide +kernel
  obtain ⟨b, hb, hruns⟩ := (Option.any_eq_true _ _).mp hall
  obtain ⟨s', hs', hfacts⟩ := (Option.any_eq_true _ _).mp hruns
  obtain ⟨r, hr, hne⟩ := any_eq_true.mp hfacts
  refine ⟨b, s', hb, hs', fun h => ?_⟩
  rw [decide_eq_true (h r hr)] at hne
  cases hne

end Runs

end LagunaGraphDecode
