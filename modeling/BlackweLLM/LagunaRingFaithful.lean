import BlackweLLM.LagunaRingForward
import BlackweLLM.StepRun

/-!
# The ring holds the window

What a table of blocks has to do with the positions behind it, for the ring and
for the scratch arena alike; one lemma for a forward over either, and from it
the invariant of a slot: the ring holds what was last written for each position
that the next query sees.
-/

namespace LagunaRingForward

open List Function LagunaChunks LagunaRing StepRun

variable {K : Type} (g : Geometry)

section Tables

theorem lt_blocksFor {x tokens : Nat} (h : x < tokens) : x / g.blockSize < blocksFor g tokens := by
  have hblock := g.block_pos
  have hdiv := Nat.div_add_mod (tokens + g.blockSize - 1) g.blockSize
  have hmod := Nat.mod_lt (tokens + g.blockSize - 1) hblock
  refine Nat.div_lt_of_lt_mul ?_
  unfold blocksFor
  omega

theorem blocksFor_le {tokens blocks : Nat} (h : tokens ≤ blocks * g.blockSize) : blocksFor g tokens ≤ blocks := by
  have hblock := g.block_pos
  refine Nat.le_of_lt_succ (Nat.div_lt_of_lt_mul ?_)
  rw [mul_comm, Nat.succ_mul]
  omega

theorem dvd_alignedStart (pos : Nat) : g.blockSize ∣ alignedStart g pos := dvd_mul_left _ _

theorem alignedStart_bounds (pos : Nat) :
    alignedStart g pos ≤ windowStart g pos ∧ windowStart g pos < alignedStart g pos + g.blockSize := by
  have hdiv := Nat.div_add_mod (windowStart g pos) g.blockSize
  have hmod := Nat.mod_lt (windowStart g pos) g.block_pos
  unfold alignedStart
  rw [mul_comm]
  omega

/-- From the earliest query of a verify on, a ring covers its window and the verify block from the aligned start. -/
theorem alignedLen_le {pos qo : Nat} (h : qo ≤ swaQoMax) : pos + qo - alignedStart g pos ≤ g.ringSlots := by
  have hle := g.le_ringSlots
  have hbounds := alignedStart_bounds g pos
  unfold windowStart at hbounds
  omega

theorem ringBlock_aligned {start : Nat} (slot x : Nat) (h : g.blockSize ∣ start) :
    ringBlock g slot (start + x / g.blockSize * g.blockSize) = ringBlock g slot (start + x) := by
  obtain ⟨k, rfl⟩ := h
  unfold ringBlock Geometry.ringSlots
  rw [Nat.mod_mul_left_div_self, Nat.mod_mul_left_div_self, mul_comm (x / g.blockSize),
    Nat.mul_add_div g.block_pos, Nat.mul_add_div g.block_pos, Nat.mul_div_cancel_left _ g.block_pos]

theorem ringBlocksFrom_get {slot start blocks x : Nat} (hstart : g.blockSize ∣ start) (hx : x / g.blockSize < blocks) :
    (ringBlocksFrom g slot start blocks)[x / g.blockSize]? = some (ringBlock g slot (start + x)) := by
  unfold ringBlocksFrom
  rw [getElem?_map, getElem?_range hx, Option.map_some, ringBlock_aligned g slot x hstart]

theorem scratchCell_row (block off : Nat) (h : off < g.blockSize) :
    g.scratchCell (block * g.blockSize + off) = (block, off) := by
  unfold Geometry.scratchCell
  rw [mul_comm, Nat.mul_add_div g.block_pos, Nat.div_eq_of_lt h, add_zero, Nat.mul_add_mod, Nat.mod_eq_of_lt h]

/-- A forward from `kvLen` on addresses the cells of the positions from `start` on. -/
structure Addresses (cell : Nat → Nat × Nat) (start kvLen : Nat) (m : Metadata) : Prop where
  start_le : start ≤ windowStart g kvLen
  seqLen : m.seqLen + start = kvLen + m.qoLen
  table : ∀ x, x < m.seqLen → ∃ block, m.blockTable[x / g.blockSize]? = some block ∧
    (block, x % g.blockSize) = cell (start + x)
  slots : m.slotMapping.map g.scratchCell = (range m.qoLen).map fun j => cell (kvLen + j)

theorem ringBlock_cell {start : Nat} (slot x : Nat) (h : g.blockSize ∣ start) :
    (ringBlock g slot (start + x), x % g.blockSize) = g.ringCell slot (start + x) := by
  obtain ⟨k, rfl⟩ := h
  unfold Geometry.ringCell
  rw [Nat.mul_add_mod]
  rfl

theorem scratchCell_ringRow (slot pos : Nat) : g.scratchCell (ringRow g slot pos) = g.ringCell slot pos :=
  scratchCell_row g _ _ (Nat.mod_lt _ g.block_pos)

theorem windowStart_le (pos : Nat) : windowStart g pos ≤ pos := by
  have := g.window_pos
  unfold windowStart
  omega

theorem decodeRing_addresses (slot pos : Nat) :
    Addresses g (g.ringCell slot) (alignedStart g pos) pos (decodeRing g slot pos) where
  start_le := (alignedStart_bounds g pos).1
  seqLen := Nat.sub_add_cancel (by
    have := (alignedStart_bounds g pos).1
    have := windowStart_le g pos
    omega)
  table x hx := by
    have hlt : x / g.blockSize < blocksFor g (pos + 1 - alignedStart g pos) := lt_blocksFor g hx
    refine ⟨_, ?_, ringBlock_cell g slot x (dvd_alignedStart g pos)⟩
    unfold decodeRing
    dsimp only
    rw [getElem?_take_of_lt hlt, getElem?_append_left (by simpa [ringBlocksFrom] using hlt),
      ringBlocksFrom_get g (dvd_alignedStart g pos) hlt]
  slots := congrArg (fun c => [c]) (scratchCell_ringRow g slot pos)

theorem decodeRing_fits (pos : Nat) : blocksFor g (pos + 1 - alignedStart g pos) ≤ g.ringBlocks :=
  blocksFor_le g (alignedLen_le g (by decide))

theorem verifyRing_addresses (slot kvLen : Nat) {qo : Nat} (hqo : qo ≤ swaQoMax) :
    Addresses g (g.ringCell slot) (alignedStart g kvLen) kvLen (verifyRing g slot kvLen qo) where
  start_le := (alignedStart_bounds g kvLen).1
  seqLen := Nat.sub_add_cancel (by
    have := (alignedStart_bounds g kvLen).1
    have := windowStart_le g kvLen
    omega)
  table x hx := by
    have hlt : x / g.blockSize < blocksFor g (kvLen + qo - alignedStart g kvLen) := lt_blocksFor g hx
    have hmin : blocksFor g (kvLen + qo - alignedStart g kvLen) ≤ g.ringBlocks := blocksFor_le g (alignedLen_le g hqo)
    refine ⟨_, ?_, ringBlock_cell g slot x (dvd_alignedStart g kvLen)⟩
    unfold verifyRing
    dsimp only
    rw [min_eq_left hmin, getElem?_append_left (by simpa [ringBlocksFrom] using hlt),
      ringBlocksFrom_get g (dvd_alignedStart g kvLen) hlt]
  slots := by
    unfold verifyRing
    rw [map_map]
    exact map_congr_left fun j _ => scratchCell_ringRow g slot (kvLen + j)

/-- A chunk's scratch positions count from the overlap's start. -/
theorem prefillScratch_addresses (start qo : Nat) :
    Addresses g (fun p => g.scratchCell (p - (start - min g.window start))) (start - min g.window start) start
      (prefillScratch g (min g.window start) qo) where
  start_le := by
    unfold windowStart
    omega
  seqLen := by
    unfold prefillScratch
    dsimp only
    omega
  table x hx := by
    refine ⟨x / g.blockSize, getElem?_range (lt_blocksFor g hx), ?_⟩
    rw [Nat.add_sub_cancel_left]
    rfl
  slots := by
    unfold prefillScratch
    rw [map_map]
    refine map_congr_left fun j _ => ?_
    rw [comp_apply, scratchCell_row g _ _ (Nat.mod_lt _ g.block_pos),
      show start + j - (start - min g.window start) = min g.window start + j by omega]
    rfl

end Tables

section Forwards

variable {g} {cell : Nat → Nat × Nat} {start kvLen : Nat} {m : Metadata} {kvs : List K} {cells : Cells K}
  {latest : Nat → Option K}

section

variable (h : Addresses g cell start kvLen m)
include h

theorem writeRows_eq (hlen : kvs.length = m.qoLen) :
    writeRows g m kvs cells = scatter cells (kvs.mapIdx fun i kv => (cell (kvLen + i), kv)) := by
  have hrows : (m.slotMapping.zip kvs).map (fun row => (g.scratchCell row.1, row.2)) =
      (m.slotMapping.map g.scratchCell).zip kvs := by
    rw [zip_map_left]
    rfl
  unfold writeRows
  rw [hrows, h.slots]
  congr 1
  apply ext_getElem
  · simp [hlen]
  · intro i hi hi'
    simp

/-- Behind the write the cells hold what was last written for every position that a query of the forward sees. -/
theorem writeRows_latest (hlen : kvs.length = m.qoLen)
    (hinj : ∀ p q, windowStart g kvLen ≤ p → p < kvLen + kvs.length → windowStart g kvLen ≤ q → q < kvLen + kvs.length →
      cell p = cell q → p = q)
    (hbefore : ∀ p, windowStart g kvLen ≤ p → p < kvLen → latest p = some (cells (cell p)))
    (p : Nat) (hp : windowStart g kvLen ≤ p) (hp' : p < kvLen + kvs.length) :
    writeLatest kvLen kvs latest p = some (writeRows g m kvs cells (cell p)) := by
  have hstart := windowStart_le g kvLen
  rw [writeRows_eq h hlen, writeLatest]
  by_cases hnew : kvLen ≤ p
  · obtain ⟨i, rfl⟩ := Nat.exists_eq_add_of_le hnew
    have hi : i < kvs.length := by omega
    have hvalue : scatter cells (kvs.mapIdx fun i kv => (cell (kvLen + i), kv)) (cell (kvLen + i)) = kvs[i] :=
      scatter_mapIdx cells (fun i => cell (kvLen + i)) (fun _ kv => kv) (fun a b ha hb heq => by
        have := hinj _ _ (by omega) (by omega) (by omega) (by omega) heq
        omega) hi
    rw [if_pos ⟨hnew, hp'⟩, hvalue, Nat.add_sub_cancel_left, getElem?_eq_getElem hi]
  · have hkeep : scatter cells (kvs.mapIdx fun i kv => (cell (kvLen + i), kv)) (cell p) = cells (cell p) :=
      scatter_mapIdx_of_ne cells (fun i => cell (kvLen + i)) (fun _ kv => kv) fun i hi heq => by
        have := hinj _ _ hp hp' (by omega) (by omega) heq
        omega
    rw [if_neg (fun hc => hnew hc.1), hkeep]
    exact hbefore p hp (not_le.mp hnew)

/-- Every query of a forward finds its window. -/
theorem queryReads_faithful
    (hcells : ∀ p, windowStart g kvLen ≤ p → p < kvLen + m.qoLen → latest p = some (cells (cell p)))
    {r : QueryRead K} (hr : r ∈ queryReads g m kvLen cells latest) : Faithful g r := by
  obtain ⟨j, hj, rfl⟩ := mem_map.mp hr
  rw [mem_range] at hj
  have hstart := h.start_le
  have hseq := h.seqLen
  have hwindow := g.window_pos
  have hmono : windowStart g kvLen ≤ windowStart g (kvLen + j) := by
    unfold windowStart
    omega
  refine ⟨?_, fun p hp hp' => ?_⟩
  · unfold queryRows
    dsimp only
    rw [map_map]
    -- row `x` of the table is position `start + x`
    apply ext_getElem
    · simp only [length_map, length_range', windowStart] at hstart ⊢
      omega
    · intro i hi hi'
      simp only [length_map, length_range', windowStart] at hi hi' hstart
      simp only [getElem_map, getElem_range', comp_apply, one_mul]
      have hx : m.seqLen - m.qoLen + j - (g.window - 1) + i < m.seqLen := by omega
      obtain ⟨block, hblock, hcell⟩ := h.table _ hx
      have hposition : start + (m.seqLen - m.qoLen + j - (g.window - 1) + i) = windowStart g (kvLen + j) + i := by
        unfold windowStart
        omega
      have hdistance : kvLen + j - (m.seqLen - m.qoLen + j - (m.seqLen - m.qoLen + j - (g.window - 1) + i)) =
          windowStart g (kvLen + j) + i := by
        unfold windowStart
        omega
      have hin : windowStart g (kvLen + j) + i < kvLen + m.qoLen := by
        unfold windowStart
        omega
      rw [hblock, Option.map_some, hcell, hposition, hdistance, hcells _ (by omega) hin]
  · dsimp only at hp hp' ⊢
    rw [hcells p (by omega) (by omega)]
    rfl

end

end Forwards

section Slots

variable {g}

/-- What an operation on `slot` may do: leave the other slots alone, read faithfully and stay in the slot's own
blocks. -/
structure Effect (g : Geometry) (slot : Nat) (s s' : State K) : Prop where
  kvLen : ∀ other, other ≠ slot → s'.kvLen other = s.kvLen other
  latest : ∀ other, other ≠ slot → s'.latest other = s.latest other
  ring : ∀ other p, other ≠ slot → s'.ring (g.ringCell other p) = s.ring (g.ringCell other p)
  reads : ∀ r ∈ s'.reads, r ∈ s.reads ∨ Faithful g r
  slices : ∀ t ∈ s'.slices, t ∈ s.slices ∨ Slice.Own g t

theorem Effect.refl (slot : Nat) (s : State K) : Effect g slot s s where
  kvLen _ _ := rfl
  latest _ _ := rfl
  ring _ _ _ := rfl
  reads _ hr := .inl hr
  slices _ ht := .inl ht

theorem Effect.trans {slot : Nat} {s s' s'' : State K} (h : Effect g slot s s') (h' : Effect g slot s' s'') :
    Effect g slot s s'' where
  kvLen other hother := (h'.kvLen other hother).trans (h.kvLen other hother)
  latest other hother := (h'.latest other hother).trans (h.latest other hother)
  ring other p hother := (h'.ring other p hother).trans (h.ring other p hother)
  reads r hr := (h'.reads r hr).elim (h.reads r) .inr
  slices t ht := (h'.slices t ht).elim (h.slices t) .inr

/-- A new sequence and a new KV length touch no row. -/
theorem Effect.bookkeeping {slot : Nat} {s : State K} (kvLen : Nat) (latest : Nat → Option K) :
    Effect g slot s { s with kvLen := update s.kvLen slot kvLen, latest := update s.latest slot latest } where
  kvLen _ hother := update_of_ne hother _ _
  latest _ hother := update_of_ne hother _ _
  ring _ _ _ := rfl
  reads _ hr := .inl hr
  slices _ ht := .inl ht

/-- The ring holds what the window behind `stop` was last given. -/
def HoldsAt (g : Geometry) (s : State K) (slot stop : Nat) : Prop :=
  ∀ p, windowStart g stop ≤ p → p < stop → s.latest slot p = some (s.ring (g.ringCell slot p))

theorem windowStart_mono {p q : Nat} (h : p ≤ q) : windowStart g p ≤ windowStart g q := by
  unfold windowStart
  omega

theorem ringCell_ne {slot other : Nat} (h : other ≠ slot) (p q : Nat) : g.ringCell other p ≠ g.ringCell slot q :=
  fun heq => h (g.ringCell_inj.mp heq).1

theorem own_of_cell {slot p block off length : Nat} (hcell : (block, off) = g.ringCell slot p)
    (hoff : off + length ≤ g.blockSize) :
    Slice.Own g ⟨slot, block, off, length⟩ := by
  have hmem := g.ringCell_fst_mem slot p
  rw [← hcell] at hmem
  exact ⟨hmem.1, hmem.2, hoff⟩

theorem ringSlices_own {slot start kvLen : Nat} {m : Metadata} (h : Addresses g (g.ringCell slot) start kvLen m) :
    ∀ t ∈ ringSlices g slot m, Slice.Own g t := by
  intro t ht
  obtain ht | ht := mem_append.mp ht
  · obtain ⟨x, hx, hsome⟩ := mem_filterMap.mp ht
    obtain ⟨block, hblock, hcell⟩ := h.table x (mem_range.mp hx)
    rw [hblock] at hsome
    cases hsome
    exact own_of_cell hcell (Nat.mod_lt _ g.block_pos)
  · obtain ⟨row, hrow, rfl⟩ := mem_map.mp ht
    have hmem : g.scratchCell row ∈ m.slotMapping.map g.scratchCell := mem_map_of_mem hrow
    rw [h.slots] at hmem
    obtain ⟨j, -, hcell⟩ := mem_map.mp hmem
    exact own_of_cell hcell.symm (Nat.mod_lt _ g.block_pos)

section Ring

variable {slot start : Nat} {m : Metadata} {kvs : List K} {s : State K}

section

variable (h : Addresses g (g.ringCell slot) start (s.kvLen slot) m) (hlen : kvs.length = m.qoLen)
  (hqo : kvs.length ≤ swaQoMax) (hheld : HoldsAt g s slot (s.kvLen slot))
include h hlen hqo hheld

/-- What a forward over the ring leaves in it, rejected tokens included. -/
theorem ringForward_latest (p : Nat)
    (hp : windowStart g (s.kvLen slot) ≤ p) (hp' : p < s.kvLen slot + kvs.length) :
    writeLatest (s.kvLen slot) kvs (s.latest slot) p = some (writeRows g m kvs s.ring (g.ringCell slot p)) := by
  have hslots := g.le_ringSlots
  have hblock := g.block_pos
  refine writeRows_latest h hlen (fun p q hp hp' hq hq' heq => ?_) hheld p hp hp'
  have hmod := (g.ringCell_inj.mp heq).2
  unfold windowStart at hp hq
  obtain hle | hle := le_total p q
  · exact g.eq_of_mod_eq hmod hle (by omega)
  · exact (g.eq_of_mod_eq hmod.symm hle (by omega)).symm

theorem ringForward_effect : Effect g slot s (ringForward g slot m kvs s) where
  kvLen _ _ := rfl
  latest _ hother := update_of_ne hother _ _
  ring other p hother := by
    have hkeep : scatter s.ring (kvs.mapIdx fun i kv => (g.ringCell slot (s.kvLen slot + i), kv)) (g.ringCell other p) =
        s.ring (g.ringCell other p) :=
      scatter_mapIdx_of_ne s.ring (fun i => g.ringCell slot (s.kvLen slot + i)) (fun _ kv => kv)
        fun i _ => ringCell_ne hother p _
    rw [← hkeep, ← writeRows_eq h hlen]
    rfl
  reads r hr := (mem_append.mp hr).imp id fun hr =>
    queryReads_faithful h (fun p hp hp' => ringForward_latest h hlen hqo hheld p hp (hlen ▸ hp')) hr
  slices t ht := (mem_append.mp ht).imp id (ringSlices_own h t)

/-- However many of the new tokens stay, the ring holds the window behind them. -/
theorem ringForward_holds {kept : Nat} (hkept : kept ≤ kvs.length) :
    HoldsAt g (ringForward g slot m kvs s) slot (s.kvLen slot + kept) := by
  intro p hp hp'
  have hmono : windowStart g (s.kvLen slot) ≤ windowStart g (s.kvLen slot + kept) :=
    windowStart_mono (Nat.le_add_right _ _)
  have hlatest := ringForward_latest h hlen hqo hheld p (by omega) (by omega)
  unfold ringForward
  dsimp only
  rw [update_self]
  exact hlatest

end

end Ring

section Chunks

theorem slabsFrom_within (scratchStart absStart count fuel pos : Nat) :
    ∀ slab ∈ slabsFrom g scratchStart absStart count fuel pos, 0 < slab.length ∧
      slab.scratchPosition % g.blockSize + slab.length ≤ g.blockSize ∧
      slab.ringPosition % g.blockSize + slab.length ≤ g.blockSize ∧ slab.ringPosition + slab.length ≤ g.ringSlots := by
  induction fuel generalizing pos with
  | zero => exact fun slab hslab => absurd hslab not_mem_nil
  | succ fuel ih =>
    intro slab hslab
    rw [slabsFrom] at hslab
    split at hslab
    · rename_i hlt
      obtain ⟨hn, -, hring, hscratch, -, -⟩ := slab_cells g scratchStart absStart hlt
      cases hslab with
      | head =>
        have hr : (absStart + pos) % g.ringSlots < g.ringSlots := Nat.mod_lt _ g.ringSlots_pos
        refine ⟨hn, hscratch, hring, ?_⟩
        dsimp only
        omega
      | tail _ hslab => exact ih _ slab hslab
    · exact absurd hslab not_mem_nil

theorem slabsFrom_covers (scratchStart absStart count : Nat) {fuel pos : Nat} (hfuel : count ≤ pos + fuel)
    (hpos : pos ≤ count) :
    ((slabsFrom g scratchStart absStart count fuel pos).flatMap fun slab =>
      (range slab.length).map fun i => (slab.scratchPosition + i, slab.ringPosition + i)) =
    (range' pos (count - pos)).map fun j => (scratchStart + j, (absStart + j) % g.ringSlots) := by
  induction fuel generalizing pos with
  | zero =>
    rw [show count - pos = 0 by omega]
    rfl
  | succ fuel ih =>
    by_cases hlt : pos < count
    · obtain ⟨hn, hend, -, -, -, -⟩ := slab_cells g scratchStart absStart hlt
      have hr : (absStart + pos) % g.ringSlots < g.ringSlots := Nat.mod_lt _ g.ringSlots_pos
      rw [slabsFrom, if_pos hlt]
      dsimp only at hn hend ⊢
      generalize hlength : min (min (g.ringSlots - (absStart + pos) % g.ringSlots)
        (g.blockSize - (absStart + pos) % g.ringSlots % g.blockSize))
        (min (g.blockSize - (scratchStart + pos) % g.blockSize) (count - pos)) = n at hn hend ⊢
      rw [flatMap_cons, ih (by omega) hend, show count - pos = n + (count - (pos + n)) by omega, ← range'_append_1,
        map_append]
      congr 1
      have hfirst : range' pos n = (range n).map fun i => pos + i := range'_eq_map_range
      rw [hfirst, map_map]
      refine map_congr_left fun i hi => ?_
      rw [mem_range] at hi
      dsimp only [comp_apply] at hi ⊢
      have hturn : (absStart + pos) % g.ringSlots + i < g.ringSlots := by omega
      have hmod : (absStart + (pos + i)) % g.ringSlots = (absStart + pos) % g.ringSlots + i := by
        rw [← add_assoc, ← Nat.mod_add_mod, Nat.mod_eq_of_lt hturn]
      rw [hmod, add_assoc]
    · rw [slabsFrom, if_neg hlt, show count - pos = 0 by omega]
      rfl

/-- Both slab builders partition what they copy. -/
theorem slabsFrom_partition (scratchStart absStart count : Nat) :
    Partition g scratchStart absStart count (slabsFrom g scratchStart absStart count count 0) where
  covers := by
    rw [slabsFrom_covers scratchStart absStart count (by omega) (Nat.zero_le _), Nat.sub_zero, range_eq_range']
  within := slabsFrom_within scratchStart absStart count count 0
  once hcount := List.Nodup.map_on (fun i hi j hj heq => by
    have hcell : g.ringCell 0 (absStart + i) = g.ringCell 0 (absStart + j) := g.ringCell_inj.mpr ⟨rfl, heq⟩
    exact ringCell_injOn g hcount i j (Nat.zero_le _) (mem_range.mp hi) (Nat.zero_le _) (mem_range.mp hj) hcell)
    nodup_range

theorem slabSlice_own (slot scratchStart absStart count : Nat) :
    ∀ t ∈ (slabsFrom g scratchStart absStart count count 0).map (slabSlice g slot), Slice.Own g t := by
  intro t ht
  obtain ⟨slab, hslab, rfl⟩ := mem_map.mp ht
  obtain ⟨hpos, -, hring, hturn⟩ := slabsFrom_within scratchStart absStart count count 0 slab hslab
  have hblock : slab.ringPosition / g.blockSize < g.ringBlocks :=
    Nat.div_lt_of_lt_mul (by rw [mul_comm]; exact lt_of_lt_of_le (by omega) hturn)
  refine ⟨Nat.le_add_left _ _, ?_, hring⟩
  unfold slabSlice
  dsimp only
  omega

variable {slot start : Nat} {s : State K}

section

variable (kvs : List K) (stale : Cells K) (hheld : HoldsAt g s slot start)
include hheld

theorem prefillChunk_scratch (p : Nat) (hp : windowStart g start ≤ p) (hp' : p < start + kvs.length) :
    writeLatest start kvs (s.latest slot) p =
      some (writeRows g (prefillScratch g (min g.window start) kvs.length) kvs (copyRingToSharedScratch g slot
        (ringToScratchSlabs g (start - min g.window start) (min g.window start)) s.ring stale)
          (g.scratchCell (p - (start - min g.window start)))) := by
  have hfront : start - min g.window start ≤ windowStart g start := by
    unfold windowStart
    omega
  refine writeRows_latest (prefillScratch_addresses g start kvs.length) rfl (fun p q hp _ hq _ heq => ?_)
    (fun p hp hp' => ?_) p hp hp'
  · have := g.scratchCell_inj.mp heq
    omega
  · have hcopied := (copied_ringToScratch g slot (start - min g.window start) (min g.window start) s.ring stale).copied
      (p - (start - min g.window start)) (Nat.zero_le _) (by omega)
    rw [Nat.add_sub_cancel' (by omega)] at hcopied
    rw [hcopied]
    exact hheld p hp hp'

theorem prefillChunk_effect : Effect g slot s (prefillChunk g slot start kvs stale s) where
  kvLen _ _ := rfl
  latest _ hother := update_of_ne hother _ _
  ring other p hother :=
    (copied_scratchToRing g slot _ _ _ (by have := g.window_le_ringSlots; omega) _ _).same _ fun j _ _ => ringCell_ne hother p _
  reads r hr := (mem_append.mp hr).imp id fun hr =>
    queryReads_faithful (prefillScratch_addresses g start kvs.length)
      (fun p hp hp' => prefillChunk_scratch kvs stale hheld p hp hp') hr
  slices t ht := by
    unfold prefillChunk at ht
    dsimp only at ht
    rw [append_assoc, mem_append, mem_append] at ht
    exact ht.imp id fun ht => ht.elim (slabSlice_own slot _ _ _ t) (slabSlice_own slot _ _ _ t)

theorem prefillChunk_holds : HoldsAt g (prefillChunk g slot start kvs stale s) slot (start + kvs.length) := by
  intro p hp hp'
  have hmono : windowStart g start ≤ windowStart g (start + kvs.length) := windowStart_mono (Nat.le_add_right _ _)
  have hscratch := prefillChunk_scratch kvs stale hheld p (hmono.trans hp) hp'
  unfold windowStart at hp
  unfold prefillChunk
  dsimp only
  rw [update_self, hscratch]
  generalize writeRows g _ kvs _ = scratch
  have hslots := g.window_le_ringSlots
  -- position `p` is row `p - (stop - copyCount)` of the copy back
  have hcopied := (copied_scratchToRing g slot
    (min g.window start + kvs.length - min g.window (min g.window start + kvs.length))
    (start + kvs.length - min g.window (min g.window start + kvs.length))
    (min g.window (min g.window start + kvs.length)) (by omega) scratch s.ring).copied
    (p - (start + kvs.length - min g.window (min g.window start + kvs.length))) (Nat.zero_le _) (by omega)
  rw [Nat.add_sub_cancel' (by omega)] at hcopied
  rw [hcopied]
  congr 3
  omega

end

end Chunks

section Runs

variable {slot : Nat} {kvs : List K} {s : State K}

/-- Along the chunks of a prefill the ring holds the window behind what is done. -/
theorem prefillChunks_spec (stale : Nat → Cells K) {ranges : List (Nat × Nat)} {lo hi : Nat}
    (htiles : Tiles lo hi ranges)
    (hle : hi ≤ kvs.length) (hheld : HoldsAt g s slot lo) :
    Effect g slot s (prefillChunks g slot kvs stale ranges s) ∧
    HoldsAt g (prefillChunks g slot kvs stale ranges s) slot hi := by
  induction ranges generalizing lo s with
  | nil =>
    cases htiles
    exact ⟨Effect.refl slot s, hheld⟩
  | cons range ranges ih =>
    obtain ⟨rfl, hlt, hrest⟩ := htiles
    have hstop : range.1 + (kvs.extract range.1 range.2).length = range.2 := by
      have := hrest.le
      simp only [extract_eq_take_drop, length_take, length_drop]
      omega
    have hchunk : HoldsAt g (prefillChunk g slot range.1 (kvs.extract range.1 range.2) (stale range.1) s) slot
        (range.1 + (kvs.extract range.1 range.2).length) :=
      prefillChunk_holds _ _ hheld
    rw [hstop] at hchunk
    obtain ⟨heffect, hholds⟩ := ih hrest hchunk
    exact ⟨(prefillChunk_effect _ _ hheld).trans heffect, hholds⟩

theorem holdsAt_zero (s : State K) (slot : Nat) : HoldsAt g s slot 0 := fun _ _ hp => absurd hp (Nat.not_lt_zero _)

theorem prefill_spec {chunkTokens : Nat} {stale : Nat → Cells K} {s' : State K}
    (h : prefill g slot chunkTokens kvs stale s = .ok s') : Effect g slot s s' ∧ HoldsAt g s' slot (s'.kvLen slot) := by
  have hfresh : Effect g slot s { s with latest := update s.latest slot fun _ => none } := by
    have hbook : Effect g slot s _ := Effect.bookkeeping (s.kvLen slot) fun _ => none
    rwa [update_eq_self] at hbook
  have hdone : ∀ s' : State K, Effect g slot s' { s' with kvLen := update s'.kvLen slot kvs.length } := fun s' => by
    have hbook : Effect g slot s' _ := Effect.bookkeeping kvs.length (s'.latest slot)
    rwa [update_eq_self] at hbook
  unfold prefill at h
  dsimp only at h
  split at h
  · cases h
    refine ⟨(hfresh.trans (prefillChunk_effect _ _ (holdsAt_zero _ _))).trans (hdone _), ?_⟩
    have hholds := prefillChunk_holds kvs (stale 0)
      (holdsAt_zero (g := g) { s with latest := update s.latest slot fun _ => none } slot)
    dsimp only
    rw [update_self]
    rw [zero_add] at hholds
    exact hholds
  · split at h
    · cases h
    · rename_i ranges hranges
      cases h
      obtain ⟨heffect, hholds⟩ := prefillChunks_spec stale (tiles_prefillChunkRanges hranges) (le_refl _)
        (holdsAt_zero (g := g) { s with latest := update s.latest slot fun _ => none } slot)
      refine ⟨(hfresh.trans heffect).trans (hdone _), ?_⟩
      dsimp only
      rw [update_self]
      exact hholds

/-- Every slot's ring holds its window, and everything so far was read from where it belongs. -/
structure Good (g : Geometry) (s : State K) : Prop where
  holds : ∀ slot, HoldsAt g s slot (s.kvLen slot)
  reads : ∀ r ∈ s.reads, Faithful g r
  slices : ∀ t ∈ s.slices, Slice.Own g t

theorem Good.effect {s' : State K} (h : Good g s) (heffect : Effect g slot s s')
    (hholds : HoldsAt g s' slot (s'.kvLen slot)) :
    Good g s' where
  holds other := by
    by_cases hother : other = slot
    · exact hother ▸ hholds
    · intro p hp hp'
      rw [heffect.kvLen other hother] at hp hp'
      rw [heffect.latest other hother, heffect.ring other p hother]
      exact h.holds other p hp hp'
  reads r hr := (heffect.reads r hr).elim (h.reads r) id
  slices t ht := (heffect.slices t ht).elim (h.slices t) id

section

variable {s' : State K} {op : Op K} (h : Good g s) (hnext : next g s op = some s')
include h hnext

theorem next_spec : Effect g op.slot s s' ∧ HoldsAt g s' op.slot (s'.kvLen op.slot) := by
  have hcommit : ∀ (s : State K) slot n, Effect g slot s { s with kvLen := update s.kvLen slot n } := fun s slot n => by
    have hbook : Effect g slot s _ := Effect.bookkeeping n (s.latest slot)
    rwa [update_eq_self] at hbook
  cases op with
  | prefill slot chunkTokens kvs stale =>
    rw [LagunaRingForward.next] at hnext
    cases hprefill : prefill g slot chunkTokens kvs stale s with
    | error e =>
      rw [hprefill] at hnext
      cases hnext
    | ok out =>
      rw [hprefill] at hnext
      cases hnext
      exact prefill_spec hprefill
  | decode slot kv =>
    cases hnext
    have haddr := decodeRing_addresses g slot (s.kvLen slot)
    have hqo : [kv].length ≤ swaQoMax := Nat.le_of_ble_eq_true rfl
    refine ⟨(ringForward_effect haddr rfl hqo (h.holds slot)).trans (hcommit _ _ _), ?_⟩
    have hholds := ringForward_holds haddr rfl hqo (h.holds slot) (le_refl 1)
    unfold decode Op.slot
    dsimp only
    rw [update_self]
    exact hholds
  | verify slot kvs kept =>
    obtain ⟨⟨hqo, hkept⟩, heq⟩ := Option.ite_none_right_eq_some.mp hnext
    cases heq
    have haddr := verifyRing_addresses g slot (s.kvLen slot) hqo
    refine ⟨(ringForward_effect haddr rfl hqo (h.holds slot)).trans (hcommit _ _ _), ?_⟩
    have hholds := ringForward_holds haddr rfl hqo (h.holds slot) hkept
    unfold verify Op.slot
    dsimp only
    rw [update_self]
    exact hholds

theorem next_good : Good g s' :=
  h.effect (next_spec h hnext).1 (next_spec h hnext).2

end

theorem initial_good (ring : Cells K) : Good g (initial ring) where
  holds _ := holdsAt_zero _ _
  reads _ hr := absurd hr not_mem_nil
  slices _ ht := absurd ht not_mem_nil

/-- The rows of a slot that no operation of the run names. -/
theorem run_frame {s' : State K} {ops : List (Op K)} {other : Nat} (h : Good g s) (hrun : run (next g) s ops = some s')
    (hops : ∀ op ∈ ops, op.slot ≠ other) (p : Nat) : s'.ring (g.ringCell other p) = s.ring (g.ringCell other p) := by
  induction ops generalizing s with
  | nil =>
    cases hrun
    rfl
  | cons op ops ih =>
    obtain ⟨s₁, hnext, hrest⟩ := run_cons.mp hrun
    have hfirst := (next_spec h hnext).1.ring other p (hops op mem_cons_self).symm
    exact (ih (next_good h hnext) hrest fun op' hop' => hops op' (mem_cons_of_mem _ hop')).trans hfirst

/-- Over every run each query of a sliding-window layer finds its whole window as it was last written, from its
own slot. -/
theorem ring_faithful (g : Geometry) {ring : Cells K} {ops : List (Op K)} {s : State K}
    (hrun : run (next g) (initial ring) ops = some s) :
    (∀ r ∈ s.reads, Faithful g r) ∧ (∀ t ∈ s.slices, Slice.Own g t) ∧
      (∀ other, (∀ op ∈ ops, op.slot ≠ other) → ∀ p, s.ring (g.ringCell other p) = ring (g.ringCell other p)) ∧
      (∀ absStart count, Partition g 0 absStart count (ringToScratchSlabs g absStart count)) ∧
      ∀ scratchStart absStart count, Partition g scratchStart absStart count
        (scratchToRingSlabs g scratchStart absStart count) := by
  have hgood : Good g s := invariant (fun _ _ _ h hnext => next_good h hnext) (initial_good ring) hrun
  exact ⟨hgood.reads, hgood.slices, fun other hops p => run_frame (initial_good ring) hrun hops p,
    slabsFrom_partition 0, slabsFrom_partition⟩

/-- A chunked prefill and a decode on one slot, a short prompt and a verify round on the other. -/
theorem ring_faithful_interleaved : ∃ s, run (next ⟨4, 2, by decide, by decide⟩) (initial fun _ => 0)
      [.prefill 0 4 [1, 2, 3, 4, 5, 6, 7, 8, 9] fun _ _ => 50, .prefill 1 4 [11, 12] fun _ _ => 60,
        .decode 0 10, .verify 1 [13, 14, 15] 1, .decode 1 16] = some s ∧ s.reads.length = 16 ∧
    ∀ r ∈ s.reads, Faithful ⟨4, 2, by decide, by decide⟩ r := by
  have hrun : ((run (next ⟨4, 2, by decide, by decide⟩) (initial fun _ => 0)
      [.prefill 0 4 [1, 2, 3, 4, 5, 6, 7, 8, 9] fun _ _ => 50, .prefill 1 4 [11, 12] fun _ _ => 60,
        .decode 0 10, .verify 1 [13, 14, 15] 1, .decode 1 16]).any fun s => s.reads.length == 16) = true := by decide +kernel
  obtain ⟨s, hs, hlength⟩ := (Option.any_eq_true _ _).mp hrun
  exact ⟨s, hs, beq_iff_eq.mp hlength, (ring_faithful ⟨4, 2, by decide, by decide⟩ hs).1⟩

end Runs

end Slots

end LagunaRingForward
