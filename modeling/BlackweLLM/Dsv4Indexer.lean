import BlackweLLM.TopSelection

/-!
# The selection of a DSV4 indexer

`Dsv4Indexer` of `runtime/model/dsv4_model.py`: which compressed entries a query row
attends, eagerly and in the graphs, and the rule of `runtime/backends/dsv4.py` and
`runtime/backends/dsv4_cudagraph.py` that picks a decode graph's bucket. The scores of a
row are given; `torch.topk` may order equal scores as it likes.
-/

namespace Dsv4Indexer

open TopSelection
open List (range replicate mem_map)

def ratio : Nat := 4

structure Indexer where
  indexTopk : Nat
  maxSeqLen : Nat

/-- `kv_cache.shape[1]`. -/
def Indexer.capacity (x : Indexer) : Nat := x.maxSeqLen / ratio

def liveEntries (pos : Nat) : Nat := (pos + 1) / ratio

/-- What the graph forms raise. -/
inductive IndexError
  /-- `max_entries` outside the cache's capacity. -/
  | capacity (nEntries capacity : Nat)
  | belowTopk (nEntries indexTopk : Nat)
  | batchSize (bsz : Nat)
  | bucket (nEntries indexTopk capacity : Nat)
  /-- The score matrix and its mask differ in width. -/
  | scoreWidth (maxEntries capacity : Nat)
  deriving DecidableEq, Repr

variable {α : Type} [LinearOrder α]

/-- A selected row: entries from the bound on become -1. -/
def validRow (bound offset : Nat) (picked : List Nat) : List (Option Nat) :=
  picked.map fun j => if bound ≤ j then none else some (j + offset)

section Eager

variable (t : Selector α) (x : Indexer)

/-- `forward`: a row of indices for each row of the chunk. -/
def forward (score : Nat → Nat → α) (startPos seqlen offset : Nat) : List (List (Option Nat)) :=
  let live := (startPos + seqlen) / ratio
  if seqlen = 1 ∧ 0 < startPos ∧ live ≤ x.indexTopk then [validRow live offset (range x.indexTopk)]
  else
    (range seqlen).map fun r =>
      let bound := (startPos + r + 1) / ratio
      let k := min x.indexTopk live
      if 1 < seqlen ∨ startPos = 0 then validRow bound offset (t.pick live (masked bound (score r)) k)
      else (t.pick live (fun j => (score r j : WithBot α)) k).map fun j => some (j + offset)

end Eager

section Graphs

variable (t : Selector α) (x : Indexer)

def graphRow (score : Nat → α) (pos nEntries : Nat) : List (Option Nat) :=
  let limit := liveEntries pos
  if nEntries = x.indexTopk then validRow limit 0 (range x.indexTopk)
  else validRow limit 0 (t.pick nEntries (masked limit score) x.indexTopk)

def forwardGraph (score : Nat → α) (pos : Nat) (maxEntries : Option Nat) : Except IndexError (List (Option Nat)) :=
  let nEntries := maxEntries.getD x.capacity
  if ¬(1 ≤ nEntries ∧ nEntries ≤ x.capacity) then .error (.capacity nEntries x.capacity)
  else if nEntries < x.indexTopk then .error (.belowTopk nEntries x.indexTopk)
  else .ok (graphRow t x score pos nEntries)

/-- `forward_graph_batch`: a position and scores for each row. -/
def forwardGraphBatch (rows : List (Nat × (Nat → α))) (maxEntries : Option Nat) :
    Except IndexError (List (List (Option Nat))) :=
  let nEntries := maxEntries.getD x.capacity
  if rows.length ∉ [1, 2, 4] then .error (.batchSize rows.length)
  else if ¬(x.indexTopk ≤ nEntries ∧ nEntries ≤ x.capacity) then .error (.bucket nEntries x.indexTopk x.capacity)
  else .ok (rows.map fun row => graphRow t x row.2 row.1 nEntries)

/-- `forward_graph_prefill`. A cache of one entry is broadcast over the mask. -/
def forwardGraphPrefill (score : Nat → Nat → α) (pos seqlen maxEntries : Nat) :
    Except IndexError (List (List (Option Nat))) :=
  if x.capacity < maxEntries ∧ x.capacity ≠ 1 then .error (.scoreWidth maxEntries x.capacity)
  else
    .ok ((range seqlen).map fun r =>
      let bound := (pos + r + 1) / ratio
      let k := min x.indexTopk maxEntries
      let bucket := min x.indexTopk ((maxEntries + 63) / 64 * 64)
      validRow bound 0 (t.pick maxEntries (masked bound fun j => score r (min j (x.capacity - 1))) k) ++
        replicate (bucket - k) none)

end Graphs

section Buckets

def indexEntryBuckets : List Nat := [512, 1024, 4096, 16384, 32768]

/-- `_index_entry_buckets`, by the cache capacities of the indexed layers. -/
def bucketCaps (caps : List Nat) : List Nat :=
  let maxEntries := caps.foldl max 0
  if maxEntries = 0 then []
  else ((indexEntryBuckets.filter (· < maxEntries)).map (min · maxEntries) ++ [maxEntries]).eraseDups

def decodeIndexBucket (caps positions : List Nat) : Option Nat :=
  let needed := (positions.map fun position => max 1 (liveEntries position)).foldl max 0
  match (bucketCaps caps).find? (needed ≤ ·) with
  | some cap => some cap
  | none => (bucketCaps caps).getLast?

theorem le_foldl_max (xs : List Nat) (a : Nat) : a ≤ xs.foldl max a ∧ ∀ x ∈ xs, x ≤ xs.foldl max a := by
  induction xs generalizing a with
  | nil => simp
  | cons x xs ih =>
    obtain ⟨hinit, hall⟩ := ih (max a x)
    rw [List.foldl_cons]
    refine ⟨(le_max_left a x).trans hinit, fun y hy => ?_⟩
    cases hy with
    | head => exact (le_max_right a x).trans hinit
    | tail _ hy => exact hall y hy

theorem foldl_max_le {xs : List Nat} {a b : Nat} (ha : a ≤ b) (h : ∀ x ∈ xs, x ≤ b) : xs.foldl max a ≤ b := by
  induction xs generalizing a with
  | nil => exact ha
  | cons x xs ih => exact ih (Nat.max_le.mpr ⟨ha, h x (by simp)⟩) fun y hy => h y (List.mem_cons_of_mem _ hy)

theorem foldl_max_replicate (n cap : Nat) : (replicate (n + 1) cap).foldl max 0 = cap := by
  refine Nat.le_antisymm (foldl_max_le (Nat.zero_le _) fun x hx => Nat.le_of_eq (List.eq_of_mem_replicate hx)) ?_
  exact (le_foldl_max _ 0).2 cap (by simp)

/-- The bucket holds the live entries of every row, and the cache holds the bucket. -/
theorem decodeIndexBucket_spec {cap layers bucket : Nat} {positions : List Nat}
    (hlive : ∀ p ∈ positions, liveEntries p ≤ cap)
    (h : decodeIndexBucket (replicate (layers + 1) cap) positions = some bucket) :
    1 ≤ bucket ∧ bucket ≤ cap ∧ ∀ p ∈ positions, liveEntries p ≤ bucket := by
  unfold decodeIndexBucket at h
  simp only at h
  have hcaps : bucketCaps (replicate (layers + 1) cap) = if cap = 0 then [] else
      ((indexEntryBuckets.filter (· < cap)).map (min · cap) ++ [cap]).eraseDups := by
    simp only [bucketCaps, foldl_max_replicate]
  by_cases hzero : cap = 0
  · rw [hcaps, if_pos hzero] at h
    simp at h
  · have hle : ∀ b ∈ bucketCaps (replicate (layers + 1) cap), 1 ≤ b ∧ b ≤ cap := by
      intro b hb
      rw [hcaps, if_neg hzero, List.mem_eraseDups, List.mem_append, mem_map, List.mem_singleton] at hb
      obtain ⟨c, hc, rfl⟩ | rfl := hb
      · have hbase := (List.mem_filter.mp hc).1
        have hall : ∀ c ∈ indexEntryBuckets, 1 ≤ c := by decide
        exact ⟨Nat.le_min.mpr ⟨hall c hbase, Nat.pos_of_ne_zero hzero⟩, Nat.min_le_right _ _⟩
      · exact ⟨Nat.pos_of_ne_zero hzero, Nat.le_refl _⟩
    have hmem : cap ∈ bucketCaps (replicate (layers + 1) cap) := by
      rw [hcaps, if_neg hzero, List.mem_eraseDups]
      exact List.mem_append_right _ (List.mem_singleton_self _)
    have hneeded : (positions.map fun p => max 1 (liveEntries p)).foldl max 0 ≤ cap := by
      refine foldl_max_le (Nat.zero_le _) fun y hy => ?_
      obtain ⟨p, hp, rfl⟩ := mem_map.mp hy
      exact Nat.max_le.mpr ⟨Nat.pos_of_ne_zero hzero, hlive p hp⟩
    cases hfind : (bucketCaps (replicate (layers + 1) cap)).find?
        ((positions.map fun p => max 1 (liveEntries p)).foldl max 0 ≤ ·) with
    | none =>
      have hnone := List.find?_eq_none.mp hfind cap hmem
      exact absurd (by simpa using hneeded) hnone
    | some b =>
      rw [hfind] at h
      cases h
      have hcover := List.find?_some hfind
      obtain ⟨hone, hcap⟩ := hle _ (List.mem_of_find?_eq_some hfind)
      refine ⟨hone, hcap, fun p hp => ?_⟩
      have hmax := (le_foldl_max (positions.map fun p => max 1 (liveEntries p)) 0).2 _ (List.mem_map_of_mem hp)
      simp only [decide_eq_true_eq] at hcover
      omega

end Buckets

/-- The entries that a row selects; the row's indices start at `offset`. -/
def selected (offset : Nat) (row : List (Option Nat)) : Finset Nat := (row.reduceOption.map (· - offset)).toFinset

def Distinct (score : Nat → α) (live : Nat) : Prop := ∀ i < live, ∀ j < live, score i = score j → i = j

/-- What every form picks before padding: out-of-bound picks come last, and the others are the best entries. -/
structure Picks (score : Nat → α) (bound k : Nat) (picked : List Nat) : Prop where
  ordered : picked.Pairwise fun i j => bound ≤ i → bound ≤ j
  best : Distinct score bound → Best score bound k (below bound picked)

section Rows

variable {score : Nat → α} {bound k offset : Nat} {picked : List Nat}

theorem selected_validRow (bound offset : Nat) (picked : List Nat) :
    selected offset (validRow bound offset picked) = below bound picked := by
  unfold selected validRow below
  rw [reduceOption_map, List.map_map]
  congr 1
  exact List.map_id'' (fun j => Nat.add_sub_cancel j offset) _

theorem selected_append_replicate (offset : Nat) (row : List (Option Nat)) (pad : Nat) :
    selected offset (row ++ replicate pad none) = selected offset row := by
  unfold selected
  rw [List.reduceOption_append, List.reduceOption_replicate_none, List.append_nil]

theorem validRow_of_lt (h : ∀ j ∈ picked, j < bound) (offset : Nat) :
    (picked.map fun j => some (j + offset)) = validRow bound offset picked :=
  List.map_congr_left fun j hj => (if_neg (not_le.mpr (h j hj))).symm

theorem picks_range (score : Nat → α) (hbound : bound ≤ k) : Picks score bound k (range k) where
  ordered := List.pairwise_lt_range.imp fun hlt hge => hge.trans (le_of_lt hlt)
  best _ := by
    unfold Best
    rw [if_pos hbound]
    ext j
    rw [mem_below, List.mem_range, Finset.mem_range]
    omega

theorem picks_pick (t : Selector α) {n : Nat} {row : Nat → WithBot α} (hrow : ∀ j < n, row j = masked bound score j)
    (hbound : bound ≤ n) : Picks score bound k (t.pick n row (min k n)) where
  ordered := pairwise_pick t hrow (min k n)
  best hdistinct := by
    have hbest := best_below t hrow hbound (min_le_right k n) hdistinct
    by_cases hk : k ≤ n
    · rwa [min_eq_left hk] at hbest ⊢
    · rw [min_eq_right (by omega)] at hbest ⊢
      exact hbest.mono hbound (by omega)

end Rows

section Forms

variable (t : Selector α) (x : Indexer)

theorem forward_row (score : Nat → Nat → α) (startPos seqlen offset : Nat) {r : Nat} (hr : r < seqlen) :
    ∃ picked, (forward t x score startPos seqlen offset)[r]? =
        some (validRow ((startPos + r + 1) / ratio) offset picked) ∧
      Picks (score r) ((startPos + r + 1) / ratio) x.indexTopk picked := by
  have hbound : (startPos + r + 1) / ratio ≤ (startPos + seqlen) / ratio := Nat.div_le_div_right (by omega)
  unfold forward
  by_cases hshort : seqlen = 1 ∧ 0 < startPos ∧ (startPos + seqlen) / ratio ≤ x.indexTopk
  · obtain ⟨rfl, hstart, hlive⟩ := hshort
    obtain rfl : r = 0 := by omega
    rw [if_pos ⟨rfl, hstart, hlive⟩]
    exact ⟨_, rfl, picks_range _ hlive⟩
  · rw [if_neg hshort, List.getElem?_map, List.getElem?_range hr]
    by_cases hmask : 1 < seqlen ∨ startPos = 0
    · simp only [Option.map_some, if_pos hmask]
      exact ⟨_, rfl, picks_pick t (fun j _ => rfl) hbound⟩
    · have hone : seqlen = 1 := by omega
      subst hone
      obtain rfl : r = 0 := by omega
      simp only [Option.map_some, if_neg hmask]
      refine ⟨_, congrArg some (validRow_of_lt (fun j hj => t.lt_of_mem hj) offset), ?_⟩
      exact picks_pick t (fun j hj => (masked_of_lt (score 0) hj).symm) hbound

theorem length_forward (score : Nat → Nat → α) (startPos seqlen offset : Nat) :
    (forward t x score startPos seqlen offset).length = seqlen := by
  unfold forward
  by_cases hshort : seqlen = 1 ∧ 0 < startPos ∧ (startPos + seqlen) / ratio ≤ x.indexTopk
  · rw [if_pos hshort, List.length_singleton, hshort.1]
  · rw [if_neg hshort, List.length_map, List.length_range]

theorem graphRow_picks (score : Nat → α) {pos nEntries : Nat} (hlive : liveEntries pos ≤ nEntries)
    (htopk : x.indexTopk ≤ nEntries) :
    ∃ picked, graphRow t x score pos nEntries = validRow (liveEntries pos) 0 picked ∧
      Picks score (liveEntries pos) x.indexTopk picked := by
  unfold graphRow
  by_cases heq : nEntries = x.indexTopk
  · exact ⟨_, if_pos heq, picks_range score (heq ▸ hlive)⟩
  · refine ⟨_, if_neg heq, ?_⟩
    have hrow : ∀ j < nEntries, masked (liveEntries pos) score j = masked (liveEntries pos) score j := fun _ _ => rfl
    have hpicks := picks_pick (k := x.indexTopk) t hrow hlive
    rwa [min_eq_left htopk] at hpicks

theorem forwardGraphPrefill_row {score : Nat → Nat → α} {pos seqlen maxEntries : Nat} {rows : List (List (Option Nat))}
    (h : forwardGraphPrefill t x score pos seqlen maxEntries = .ok rows) {r : Nat} {row : List (Option Nat)}
    (hrow : rows[r]? = some row) :
    ∃ picked pad, row = validRow ((pos + r + 1) / ratio) 0 picked ++ replicate pad none ∧
      picked.Pairwise fun i j => (pos + r + 1) / ratio ≤ i → (pos + r + 1) / ratio ≤ j := by
  unfold forwardGraphPrefill at h
  split at h
  · cases h
  · cases h
    rw [List.getElem?_map] at hrow
    obtain ⟨i, hi, rfl⟩ := Option.map_eq_some_iff.mp hrow
    obtain ⟨hlt, heq⟩ := List.getElem?_eq_some_iff.mp hi
    rw [List.getElem_range] at heq
    subst heq
    exact ⟨_, _, rfl, pairwise_pick t (fun j _ => rfl) _⟩

end Forms

/-- A well-formed row selects only entries below the bound, the valid ones first. -/
structure WellFormed (bound offset : Nat) (row : List (Option Nat)) : Prop where
  complete : ∀ j ∈ selected offset row, j < bound
  leading : LeadingValid row

theorem wellFormed_validRow {bound : Nat} {picked : List Nat}
    (h : picked.Pairwise fun i j => bound ≤ i → bound ≤ j) (offset pad : Nat) :
    WellFormed bound offset (validRow bound offset picked ++ replicate pad none) where
  complete j hj := by
    rw [selected_append_replicate, selected_validRow, mem_below] at hj
    exact hj.2
  leading := leadingValid_pad (leadingValid_map h _) pad

/-- What a decode row of each form selects. -/
structure Agrees (eager graph : Selector α) (x : Indexer) (offset bucket : Nat) (row : Nat × (Nat → α))
    (out : List (Option Nat)) : Prop where
  serial : forwardGraph graph x row.2 row.1 (some bucket) = .ok out
  eager : ∃ eagerOut, forward eager x (fun _ => row.2) row.1 1 offset = [eagerOut] ∧
    selected 0 out = selected offset eagerOut ∧ WellFormed (liveEntries row.1) offset eagerOut
  best : Best row.2 (liveEntries row.1) x.indexTopk (selected 0 out)
  wellFormed : WellFormed (liveEntries row.1) 0 out

/-- A decode batch selects for each row what the eager form selects, at every bucket of at least `index_topk`
entries; every form selects complete groups only and pads at the end. -/
theorem index_selection_agrees (eager graph : Selector α) (x : Indexer) (layers : Nat) {bucket : Nat}
    {rows : List (Nat × (Nat → α))} (hbatch : rows.length ∈ [1, 2, 4]) (hpos : ∀ row ∈ rows, row.1 < x.maxSeqLen)
    (hdistinct : ∀ row ∈ rows, Distinct row.2 (liveEntries row.1))
    (hbucket : decodeIndexBucket (replicate (layers + 1) x.capacity) (rows.map Prod.fst) = some bucket)
    (htopk : x.indexTopk ≤ bucket) (offset : Nat) :
    (∃ outs, forwardGraphBatch graph x rows (some bucket) = .ok outs ∧
        List.Forall₂ (Agrees eager graph x offset bucket) rows outs) ∧
      (∀ (score : Nat → Nat → α) (startPos seqlen r : Nat) (row : List (Option Nat)),
        (forward eager x score startPos seqlen offset)[r]? = some row →
          WellFormed ((startPos + r + 1) / ratio) offset row) ∧
      ∀ (score : Nat → Nat → α) (pos seqlen maxEntries r : Nat) (outs : List (List (Option Nat)))
        (row : List (Option Nat)),
        forwardGraphPrefill graph x score pos seqlen maxEntries = .ok outs → outs[r]? = some row →
          WellFormed ((pos + r + 1) / ratio) 0 row := by
  have hforward : ∀ (score : Nat → Nat → α) (startPos seqlen r : Nat) (row : List (Option Nat)),
      (forward eager x score startPos seqlen offset)[r]? = some row →
        WellFormed ((startPos + r + 1) / ratio) offset row := by
    intro score startPos seqlen r row hrow
    obtain ⟨hlt, -⟩ := List.getElem?_eq_some_iff.mp hrow
    rw [length_forward] at hlt
    obtain ⟨picked, hpicked, hpicks⟩ := forward_row eager x score startPos seqlen offset hlt
    rw [hpicked] at hrow
    cases hrow
    simpa using wellFormed_validRow hpicks.ordered offset 0
  refine ⟨?_, hforward, ?_⟩
  · have hcap : ∀ p ∈ rows.map Prod.fst, liveEntries p ≤ x.capacity := by
      intro p hp
      obtain ⟨row, hrow, rfl⟩ := mem_map.mp hp
      exact Nat.div_le_div_right (hpos row hrow)
    obtain ⟨hone, hle, hlive⟩ := decodeIndexBucket_spec hcap hbucket
    refine ⟨rows.map fun row => graphRow graph x row.2 row.1 bucket, ?_, ?_⟩
    · simp only [forwardGraphBatch, Option.getD_some]
      rw [if_neg (not_not.mpr hbatch), if_neg (not_not.mpr ⟨htopk, hle⟩)]
    · rw [List.forall₂_map_right_iff, List.forall₂_same]
      intro row hrow
      have hcover := hlive row.1 (List.mem_map_of_mem hrow)
      obtain ⟨picked, hout, hpicks⟩ := graphRow_picks graph x row.2 hcover htopk
      obtain ⟨eagerPicked, heager, heagerPicks⟩ := forward_row eager x (fun _ => row.2) row.1 1 offset zero_lt_one
      have hbest := hpicks.best (hdistinct row hrow)
      constructor
      · simp only [forwardGraph, Option.getD_some]
        rw [if_neg (not_not.mpr ⟨hone, hle⟩), if_neg (not_lt.mpr htopk)]
      · obtain ⟨eagerOut, hsingle⟩ := List.length_eq_one_iff.mp (length_forward eager x (fun _ => row.2) row.1 1 offset)
        rw [hsingle] at heager
        obtain rfl : eagerOut = validRow (liveEntries row.1) offset eagerPicked := Option.some.inj heager
        refine ⟨_, hsingle, ?_, hforward (fun _ => row.2) row.1 1 0 _ (by rw [hsingle]; rfl)⟩
        rw [hout, selected_validRow, selected_validRow]
        exact hbest.unique (heagerPicks.best (hdistinct row hrow))
      · rw [hout, selected_validRow]
        exact hbest
      · rw [hout]
        simpa using wellFormed_validRow hpicks.ordered 0 0
  · intro score pos seqlen maxEntries r outs row h hrow
    obtain ⟨picked, pad, rfl, hordered⟩ := forwardGraphPrefill_row graph x h hrow
    exact wellFormed_validRow hordered 0 pad

/-- A batch of one row at position 2051, with the bucket of the default `index_topk`. -/
theorem index_selection_agrees_two :
    ∃ outs, forwardGraphBatch stable ⟨512, 4096⟩ [(2051, id), (700, id)] (some 1024) = .ok outs ∧
      List.Forall₂ (Agrees stable stable ⟨512, 4096⟩ 0 1024) [(2051, (id : Nat → Nat)), (700, id)] outs :=
  (index_selection_agrees stable stable ⟨512, 4096⟩ 0 (by decide) (by decide)
    (by simp [Distinct]) (by decide) (by decide) 0).1

/-- With 1024 positions the rule picks a bucket below `index_topk`: the graph forms refuse a row whose two live
entries the eager form selects. -/
theorem small_bucket_refused :
    decodeIndexBucket [(⟨512, 1024⟩ : Indexer).capacity] [7] = some 256 ∧
      forwardGraph stable ⟨512, 1024⟩ (id : Nat → Nat) 7 (some 256) = .error (.belowTopk 256 512) ∧
      forwardGraphBatch stable ⟨512, 1024⟩ [(7, (id : Nat → Nat))] (some 256) = .error (.bucket 256 512 256) ∧
      ∃ row, forward stable ⟨512, 1024⟩ (fun _ => (id : Nat → Nat)) 7 1 0 = [row] ∧ selected 0 row = {0, 1} := by
  refine ⟨by decide, rfl, rfl, _, rfl, ?_⟩
  rw [selected_validRow]
  decide +kernel

end Dsv4Indexer
