import BlackweLLM.ChunkedPrefill
import BlackweLLM.SlotPrefill

/-!
# Waves of chunked prefills

Between two rounds every request of a wave stands at the same position of its
suffix, or at its end. The serial rounds leave `slot_kv_len` behind until the
commit and the batched ones move it along, so a wave can not change over from
the first to the second.
-/

namespace ChunkedPrefill

open List Function SlotPool RaisingState

variable {β : Type} {granted : Nat → Nat} {r : Request β} {w w' w₁ : Wave β} {o start chunk upto n kv : Nat}
  {slots : List Nat} {as : List Anchor} {requests : List (Request β)}

section Frames

/-- The positions of a slot that have gone through the model, in their order. -/
def positions (w : Wave β) (slot : Nat) : List Nat :=
  (w.forwarded.filter fun row => decide (row.1 = slot)).map (·.2)

def anchors (w : Wave β) (slot : Nat) : List Anchor :=
  (w.result.filter fun entry => decide (entry.1 = slot)).map (·.2)

theorem positions_record_self (slot first length : Nat) (w : Wave β) :
    positions (record slot first length w) slot = positions w slot ++ range' first length := by
  simp [positions, record, filter_map, comp_def]

theorem positions_record_of_ne {slot first length : Nat} (h : o ≠ slot) (w : Wave β) :
    positions (record slot first length w) o = positions w o := by
  simp [positions, record, filter_map, comp_def, h.symm]

theorem anchors_commit_self (r : Request β) (a : Anchor) (w : Wave β) :
    anchors (commit r a w) r.slot = anchors w r.slot ++ [a] := by
  simp [anchors, commit]

theorem anchors_commit_of_ne (h : o ≠ r.slot) (a : Anchor) (w : Wave β) : anchors (commit r a w) o = anchors w o := by
  simp [anchors, commit, h.symm]

/-- Nothing of a slot has changed that its prefill goes by. -/
structure Aside (o : Nat) (w w' : Wave β) : Prop where
  seen : w'.slots.seen o = w.slots.seen o
  kvLen : w'.slots.kvLen o = w.slots.kvLen o
  column : w'.slots.column o = w.slots.column o
  previous : w'.slots.hasPrevious o = w.slots.hasPrevious o
  clear : ∀ page₀, Clear w.slots o page₀ → Clear w'.slots o page₀
  positions : positions w' o = positions w o
  anchors : anchors w' o = anchors w o

theorem Aside.refl (o : Nat) (w : Wave β) : Aside o w w := ⟨rfl, rfl, rfl, rfl, fun _ => id, rfl, rfl⟩

theorem Aside.trans (h : Aside o w w₁) (h₁ : Aside o w₁ w') : Aside o w w' where
  seen := h₁.seen.trans h.seen
  kvLen := h₁.kvLen.trans h.kvLen
  column := h₁.column.trans h.column
  previous := h₁.previous.trans h.previous
  clear := fun page₀ hclear => h₁.clear page₀ (h.clear page₀ hclear)
  positions := h₁.positions.trans h.positions
  anchors := h₁.anchors.trans h.anchors

/-- A part of a round, which touches `slots` only. -/
structure Served (granted : Nat → Nat) (slots : List Nat) (w w' : Wave β) : Prop where
  frame : w' = { w with slots := w'.slots, result := w'.result, forwarded := w'.forwarded }
  geometry : w'.slots.geometry = w.slots.geometry
  guaranteed : Guaranteed ⟨w'.slots, granted⟩
  aside : ∀ o, o ∉ slots → Aside o w w'

theorem Served.refl (h : Guaranteed ⟨w.slots, granted⟩) (slots : List Nat) : Served granted slots w w :=
  ⟨rfl, rfl, h, fun o _ => Aside.refl o w⟩

theorem Served.trans {more all : List Nat} (h : Served granted slots w w₁) (h₁ : Served granted more w₁ w')
    (hslots : slots ⊆ all) (hmore : more ⊆ all) : Served granted all w w' where
  frame := by rw [h₁.frame, h.frame]
  geometry := h₁.geometry.trans h.geometry
  guaranteed := h₁.guaranteed
  aside := fun o ho => (h.aside o fun hmem => ho (hslots hmem)).trans (h₁.aside o fun hmem => ho (hmore hmem))

/-- Where a request stands: `n` tokens of its suffix are forwarded. -/
structure Stands (r : Request β) (n kv : Nat) (as : List Anchor) (w : Wave β) : Prop where
  seen : w.slots.seen r.slot = r.hit + n
  kvLen : w.slots.kvLen r.slot = kv
  column : w.slots.column r.slot = 0
  cold : r.hit = 0 → w.slots.hasPrevious r.slot = decide (0 < n)
  clear : Clear w.slots r.slot (r.hit / w.slots.geometry.pageSize)
  positions : positions w r.slot = range' r.hit n
  anchors : anchors w r.slot = as

theorem Served.stands (h : Served granted slots w w') (hslot : r.slot ∉ slots) (hr : Stands r n kv as w) :
    Stands r n kv as w' := by
  have haside := h.aside r.slot hslot
  constructor
  · exact haside.seen.trans hr.seen
  · exact haside.kvLen.trans hr.kvLen
  · exact haside.column.trans hr.column
  · exact fun hhit => haside.previous.trans (hr.cold hhit)
  · rw [h.geometry]
    exact haside.clear _ hr.clear
  · exact haside.positions.trans hr.positions
  · exact haside.anchors.trans hr.anchors

end Frames

section Serial

theorem piece_length (r : Request β) (start chunk : Nat) :
    (r.piece start chunk).length = min chunk (r.suffix.length - start) := by
  simp [Request.piece]

theorem onPool_of_ok {α : Type} {x : SlotM β α} {a : α} {s : Slots β} (h : x w.slots = .ok a s) :
    onPool x w = .ok a { w with slots := s } := zoom_of_ok h

theorem onPool_of_error {α : Type} {x : SlotM β α} {e : SlotError} {s : Slots β} (h : x w.slots = .error e s) :
    onPool x w = .error (.pool e) { w with slots := s } := zoom_of_error h

/-- A slot whose prompt fits into what it was granted. -/
structure Covers (granted : Nat → Nat) (w : Wave β) (r : Request β) : Prop where
  live : r.slot < w.slots.geometry.numSlots
  granted : r.promptLen ≤ granted r.slot

theorem Served.covers (h : Served granted slots w w') (hr : Covers granted w r) : Covers granted w' r :=
  ⟨h.geometry ▸ hr.live, hr.granted⟩

theorem forwardSerial_of (hw : Guaranteed ⟨w.slots, granted⟩) (hr : Covers granted w r) (hchunk : 0 < chunk)
    (hstart : start < r.suffix.length) (h : Stands r start kv as w) :
    ∃ w', forwardSerial r start chunk w = .ok (r.hit + start) w' ∧ Served granted [r.slot] w w' ∧
      Stands r (min (start + chunk) r.suffix.length) kv as w' := by
  have hpiece := piece_length r start chunk
  have hpos : 0 < (r.piece start chunk).length := by omega
  have hgrant : w.slots.seen r.slot + (r.piece start chunk).length ≤ granted r.slot := by
    have hprompt : r.hit + r.suffix.length ≤ granted r.slot := hr.granted
    rw [h.seen]
    omega
  have hfirst : r.hit / w.slots.geometry.pageSize ≤ w.slots.seen r.slot / w.slots.geometry.pageSize := by
    rw [h.seen]
    exact Nat.div_le_div_right (Nat.le_add_right _ _)
  obtain ⟨s', hserial, hguaranteed, hcarried, hkvLen, hseen, hprevious⟩ :=
    hw.prefillSerial_of (Nat.lt_succ_of_lt hr.live) hpos hgrant h.clear hfirst
  rw [h.seen] at hserial hseen
  refine ⟨record r.slot (r.hit + start) (r.piece start chunk).length { w with slots := s' }, ?_,
    ⟨rfl, hcarried.geometry, hguaranteed, fun o ho => ?_⟩, ?_⟩
  · rw [forwardSerial, bind_of_ok (get_apply w), bind_of_ok (onPool_of_ok hserial), bind_of_ok (modify_apply _ _),
      pure_apply, h.seen]
  · rw [mem_singleton] at ho
    constructor
    · exact (congrFun hseen o).trans (update_of_ne ho _ _)
    · exact congrFun hkvLen o
    · exact congrFun hcarried.column o
    · exact (congrFun hprevious o).trans (update_of_ne ho _ _)
    · exact hcarried.clear o
    · exact positions_record_of_ne ho _
    · rfl
  · have hnext : min (start + chunk) r.suffix.length = start + (r.piece start chunk).length := by omega
    rw [hnext]
    constructor
    · rw [← add_assoc]
      exact (congrFun hseen r.slot).trans (update_self _ _ _)
    · exact (congrFun hkvLen r.slot).trans h.kvLen
    · exact (congrFun hcarried.column r.slot).trans h.column
    · intro _
      rw [decide_eq_true (Nat.add_pos_right start hpos)]
      exact (congrFun hprevious r.slot).trans (update_self _ _ _)
    · have hclear := hcarried.clear r.slot _ h.clear
      rwa [← hcarried.geometry] at hclear
    · rw [positions_record_self, ← range'_append_1]
      exact congrArg (· ++ _) h.positions
    · exact h.anchors

theorem commit_of (hw : Guaranteed ⟨w.slots, granted⟩) (a : Anchor) (h : Stands r n kv as w) :
    Served granted [r.slot] w (commit r a w) ∧ Stands r n r.promptLen (as ++ [a]) (commit r a w) := by
  have hparts : Guaranteed ⟨(commit r a w).slots, granted⟩ := hw.of_parts rfl rfl rfl hw.mapped.device rfl
  refine ⟨⟨rfl, rfl, hparts, fun o ho => ?_⟩, ?_⟩
  · rw [mem_singleton] at ho
    constructor
    · rfl
    · exact update_of_ne ho _ _
    · rfl
    · rfl
    · exact fun page₀ hclear => hclear.of_parts rfl rfl
    · rfl
    · exact anchors_commit_of_ne ho a w
  · constructor
    · exact h.seen
    · exact update_self _ _ _
    · exact h.column
    · exact h.cold
    · exact h.clear.of_parts rfl rfl
    · exact h.positions
    · rw [anchors_commit_self, h.anchors]

end Serial

section Batched

theorem mem_pending : r ∈ pending requests start ↔ r ∈ requests ∧ start < r.suffix.length := by
  simp [pending]

/-- The requests of a batched round: cold, of one length, and all at its start. -/
structure Level (granted : Nat → Nat) (live : List (Request β)) (start total : Nat) (w : Wave β) : Prop where
  nonempty : live ≠ []
  distinct : (live.map (·.slot)).Nodup
  covers : ∀ r ∈ live, Covers granted w r
  cold : ∀ r ∈ live, r.hit = 0
  length : ∀ r ∈ live, r.suffix.length = total
  before : start < total

theorem Level.batchable (h : Level granted requests start n w) (hw : Guaranteed ⟨w.slots, granted⟩) (hchunk : 0 < chunk)
    (hkv : ∀ r ∈ requests, w.slots.kvLen r.slot = kv) (hfits : kv ≤ start) :
    Batchable w.slots (requests.map (·.slot))
      (requests.map fun r => r.piece start chunk) kv (min chunk (n - start)) where
  nonempty := by simpa using h.nonempty
  lengths := by simp
  distinct := h.distinct
  uniform := by
    intro row hrow
    obtain ⟨r, hr, rfl⟩ := mem_map.mp hrow
    rw [piece_length, h.length r hr]
  positive := Nat.lt_min.mpr ⟨hchunk, Nat.sub_pos_of_lt h.before⟩
  valid := by
    intro slot hslot
    obtain ⟨r, hr, rfl⟩ := mem_map.mp hslot
    exact (h.covers r hr).live
  kvLen := by
    intro slot hslot
    obtain ⟨r, hr, rfl⟩ := mem_map.mp hslot
    exact hkv r hr
  fits := by
    obtain ⟨r, hr⟩ := exists_mem_of_ne_nil _ h.nonempty
    have hgrant : r.hit + r.suffix.length ≤ granted r.slot := (h.covers r hr).granted
    have hlength := h.length r hr
    have hinside : granted r.slot ≤ w.slots.geometry.maxSeqLen := hw.inside r.slot
    have hbefore := h.before
    omega

theorem foldl_record (live : List (Request β)) (first length : Request β → Nat) (w : Wave β) :
    ∃ forwarded, live.foldl (fun w r => record r.slot (first r) (length r) w) w =
      { w with forwarded := forwarded } := by
  induction live generalizing w with
  | nil => exact ⟨w.forwarded, rfl⟩
  | cons r live ih =>
    obtain ⟨forwarded, hrest⟩ := ih (record r.slot (first r) (length r) w)
    exact ⟨forwarded, hrest⟩

theorem positions_foldl_of_notMem {live : List (Request β)} (h : o ∉ live.map (·.slot)) (first length : Request β → Nat)
    (w : Wave β) : positions (live.foldl (fun w r => record r.slot (first r) (length r) w) w) o = positions w o := by
  induction live generalizing w with
  | nil => rfl
  | cons r live ih =>
    rw [map_cons, mem_cons, not_or] at h
    rw [foldl_cons, ih h.2, positions_record_of_ne h.1]

theorem positions_foldl_of_mem {live : List (Request β)} (hdistinct : (live.map (·.slot)).Nodup) (hr : r ∈ live)
    (first length : Request β → Nat) (w : Wave β) :
    positions (live.foldl (fun w r => record r.slot (first r) (length r) w) w) r.slot =
      positions w r.slot ++ range' (first r) (length r) := by
  induction live generalizing w with
  | nil => cases hr
  | cons r' live ih =>
    rw [map_cons, nodup_cons] at hdistinct
    rw [foldl_cons]
    cases hr with
    | head => rw [positions_foldl_of_notMem hdistinct.1, positions_record_self]
    | tail _ hr =>
      have hne : r.slot ≠ r'.slot := fun heq => hdistinct.1 (heq ▸ mem_map_of_mem hr)
      rw [ih hdistinct.2 hr, positions_record_of_ne hne]

theorem forwardUniform_of (hw : Guaranteed ⟨w.slots, granted⟩) (hchunk : 0 < chunk)
    (h : Level granted (pending requests start) start n w)
    (hstands : ∀ r ∈ pending requests start, Stands r start start as w) :
    ∃ w', forwardUniform requests start chunk w = .ok (some start) w' ∧
      Served granted ((pending requests start).map (·.slot)) w w' ∧
      ∀ r ∈ pending requests start, Stands r (min (start + chunk) n) (min (start + chunk) n) as w' := by
  have hnext : start + min chunk (n - start) = min (start + chunk) n := by
    have hbefore := h.before
    omega
  have hbatch := h.batchable hw hchunk (fun r hr => (hstands r hr).kvLen) (le_refl start)
  have hall : ∀ {P : Nat → Prop}, (∀ r ∈ pending requests start, P r.slot) →
      ∀ slot ∈ (pending requests start).map (·.slot), P slot := by
    intro P hP slot hslot
    obtain ⟨r, hr, rfl⟩ := mem_map.mp hslot
    exact hP r hr
  have hgrant : ∀ r ∈ pending requests start, start + min chunk (n - start) ≤ granted r.slot := by
    intro r hr
    have hprompt : r.hit + r.suffix.length ≤ granted r.slot := (h.covers r hr).granted
    have hlength := h.length r hr
    omega
  have hclear : ∀ r ∈ pending requests start, Clear w.slots r.slot 0 := by
    intro r hr
    have hfront := (hstands r hr).clear
    rwa [h.cold r hr, Nat.zero_div] at hfront
  have hseen : ∀ r ∈ pending requests start, w.slots.seen r.slot = start := by
    intro r hr
    rw [(hstands r hr).seen, h.cold r hr, zero_add]
  obtain ⟨s₁, hbuild, hguaranteed, hcarried, hcounters⟩ := hw.prefillBatched_of hbatch (hall hgrant) (hall hclear)
    (hall hseen) (hall fun r hr => (hstands r hr).column) (hall fun r hr => (hstands r hr).cold (h.cold r hr))
  obtain ⟨s₂, hs₂⟩ : ∃ s₂, forwardBatch ((pending requests start).map (·.slot))
      ((pending requests start).map fun r => r.piece start chunk) start s₁ = s₂ := ⟨_, rfl⟩
  rw [hs₂] at hguaranteed hcarried hcounters
  obtain ⟨forwarded, hrecord⟩ := foldl_record (pending requests start) (fun _ => start)
    (fun r => (r.piece start chunk).length) { w with slots := s₂ }
  refine ⟨{ w with slots := s₂, forwarded := forwarded }, ?_,
    ⟨rfl, hcarried.geometry, hguaranteed, fun o ho => ?_⟩, fun r hr => ?_⟩
  · rw [forwardUniform, bind_of_ok (attempt_of_ok (onPool_of_ok hbuild))]
    simp only [bind_of_ok (modify_apply _ _), hs₂, hrecord, pure_apply]
  · obtain ⟨hkvLen, hstate, hprevious⟩ := hcounters o
    rw [if_neg ho] at hkvLen hstate hprevious
    have hpositions := positions_foldl_of_notMem ho (fun _ => start) (fun r => (r.piece start chunk).length)
      { w with slots := s₂ }
    rw [hrecord] at hpositions
    exact ⟨hstate, hkvLen, congrFun hcarried.column o, hprevious, hcarried.clear o, hpositions, rfl⟩
  · have hslot : r.slot ∈ (pending requests start).map (·.slot) := mem_map_of_mem hr
    obtain ⟨hkvLen, hstate, hprevious⟩ := hcounters r.slot
    rw [if_pos hslot, hnext] at hkvLen hstate
    rw [if_pos hslot] at hprevious
    have hpositions := positions_foldl_of_mem h.distinct hr (fun _ => start) (fun r => (r.piece start chunk).length)
      { w with slots := s₂ }
    rw [hrecord] at hpositions
    have hbefore : positions w r.slot = range' r.hit start := (hstands r hr).positions
    constructor
    · rw [h.cold r hr, zero_add]
      exact hstate
    · exact hkvLen
    · exact (congrFun hcarried.column r.slot).trans (hstands r hr).column
    · intro _
      rw [← hnext, decide_eq_true (Nat.add_pos_right start hbatch.positive)]
      exact hprevious
    · rw [h.cold r hr, Nat.zero_div]
      exact hcarried.clear r.slot 0 (hclear r hr)
    · rw [hpositions, piece_length, h.length r hr, ← hnext, h.cold r hr, ← range'_append_1, zero_add]
      rw [h.cold r hr] at hbefore
      exact congrArg (· ++ _) hbefore
    · exact (hstands r hr).anchors

end Batched

section Rounds

def Request.anchor (r : Request β) : Anchor := if r.suffix = [] then .stored else .row (r.promptLen - 1)

/-- `slot_kv_len` between two rounds. -/
def Request.kvLenAt (batched : Bool) (upto : Nat) (r : Request β) : Nat :=
  if batched = true ∨ r.suffix.length ≤ upto then r.hit + min upto r.suffix.length else r.hit

def Request.anchorsAt (upto : Nat) (r : Request β) : List Anchor :=
  if 0 < upto ∧ r.suffix.length ≤ upto then [r.anchor] else []

/-- Where a request stands between two rounds. -/
def At (batched : Bool) (upto : Nat) (r : Request β) (w : Wave β) : Prop :=
  Stands r (min upto r.suffix.length) (r.kvLenAt batched upto) (r.anchorsAt upto) w

variable {batched : Bool}

/-- Behind the end of the suffix there is nothing left to do, but for a prompt that is stored as a whole. -/
theorem prefillOne_behind (hw : Guaranteed ⟨w.slots, granted⟩) (hchunk : 0 < chunk)
    (hcached : r.suffix = [] → r.cached = true)
    (hend : r.suffix.length ≤ start) (h : At batched start r w) (past : Option Nat) :
    ∃ w', prefillOne past start chunk r w = .ok (decide (r.suffix.length ≤ start + chunk)) w' ∧
      Served granted [r.slot] w w' ∧ At batched (start + chunk) r w' := by
  have hlater : r.suffix.length ≤ start + chunk := hend.trans (Nat.le_add_right _ _)
  have hkv : r.kvLenAt batched (start + chunk) = r.promptLen := by
    rw [Request.kvLenAt, if_pos (.inr hlater), min_eq_right hlater, Request.promptLen]
  have hmin : min (start + chunk) r.suffix.length = min start r.suffix.length := by omega
  have hanchors : r.anchorsAt (start + chunk) = [r.anchor] := if_pos ⟨Nat.add_pos_right _ hchunk, hlater⟩
  have hat : ∀ w', Stands r (min start r.suffix.length) r.promptLen [r.anchor] w' → At batched (start + chunk) r w' := by
    intro w' hstands
    rwa [At, hkv, hmin, hanchors]
  rw [decide_eq_true hlater]
  simp only [prefillOne, if_pos hend]
  by_cases hfirst : start = 0
  · have hempty : r.suffix = [] := length_eq_zero_iff.mp (by omega)
    obtain ⟨hserved, hstands⟩ := commit_of hw .stored h
    have hnone : r.anchorsAt start = [] := if_neg fun hpos => ne_of_gt hpos.1 hfirst
    have hstored : r.anchor = .stored := if_pos hempty
    rw [hnone, ← hstored] at hstands
    rw [if_pos ⟨hfirst, hcached hempty⟩, ← hstored]
    rw [← hstored] at hserved
    exact ⟨commit r r.anchor w, rfl, hserved, hat _ hstands⟩
  · have hsome : r.anchorsAt start = [r.anchor] := if_pos ⟨Nat.pos_of_ne_zero hfirst, hend⟩
    have hkv' : r.kvLenAt batched start = r.promptLen := by
      rw [Request.kvLenAt, if_pos (.inr hend), min_eq_right hend, Request.promptLen]
    rw [At, hsome, hkv'] at h
    rw [if_neg fun hboth => hfirst hboth.1]
    exact ⟨w, rfl, Served.refl hw _, hat w h⟩

theorem prefillOne_rest (hw : Guaranteed ⟨w.slots, granted⟩) (hstart : start < r.suffix.length)
    (hkv : r.suffix.length ≤ start + chunk ∨ kv = r.kvLenAt batched (start + chunk))
    (h : Stands r (min (start + chunk) r.suffix.length) kv [] w) :
    ∃ w', (if r.suffix.length ≤ start + chunk then do
          modify (commit r (.row (r.hit + start + (r.piece start chunk).length - 1)))
          pure true
        else pure false : WaveM β Bool) w = .ok (decide (r.suffix.length ≤ start + chunk)) w' ∧
      Served granted [r.slot] w w' ∧ At batched (start + chunk) r w' := by
  by_cases hlast : r.suffix.length ≤ start + chunk
  · have hnonempty : r.suffix ≠ [] := length_pos_iff.mp (by omega)
    have hrow : r.anchor = .row (r.hit + start + (r.piece start chunk).length - 1) := by
      rw [Request.anchor, if_neg hnonempty, piece_length, Request.promptLen]
      congr 1
      omega
    have hpos : 0 < start + chunk := by omega
    obtain ⟨hserved, hstands⟩ := commit_of hw r.anchor h
    rw [if_pos hlast, decide_eq_true hlast, ← hrow]
    refine ⟨commit r r.anchor w, rfl, hserved, ?_⟩
    rw [At, Request.anchorsAt, if_pos ⟨hpos, hlast⟩, Request.kvLenAt, if_pos (.inr hlast), min_eq_right hlast]
    rwa [min_eq_right hlast] at hstands
  · rw [if_neg hlast, decide_eq_false hlast]
    refine ⟨w, rfl, Served.refl hw _, ?_⟩
    rwa [At, Request.anchorsAt, if_neg fun hboth => hlast hboth.2, ← hkv.resolve_left hlast]

theorem At.stands (hstart : start < r.suffix.length) (h : At batched start r w) :
    Stands r start (if batched = true then r.hit + start else r.hit) [] w := by
  have hno : ¬r.suffix.length ≤ start := not_le.mpr hstart
  rw [At, min_eq_left hstart.le, Request.anchorsAt, if_neg fun hboth => hno hboth.2, Request.kvLenAt,
    min_eq_left hstart.le] at h
  simp only [hno, or_false] at h
  exact h

theorem prefillOne_serial (hw : Guaranteed ⟨w.slots, granted⟩) (hr : Covers granted w r) (hchunk : 0 < chunk)
    (hcached : r.suffix = [] → r.cached = true) (h : At false start r w) :
    ∃ w', prefillOne none start chunk r w = .ok (decide (r.suffix.length ≤ start + chunk)) w' ∧
      Served granted [r.slot] w w' ∧ At false (start + chunk) r w' := by
  by_cases hend : r.suffix.length ≤ start
  · exact prefillOne_behind hw hchunk hcached hend h none
  have hstart := not_le.mp hend
  obtain ⟨w₁, hforward, hserved, hstands⟩ := forwardSerial_of hw hr hchunk hstart (h.stands hstart)
  have hkv : r.suffix.length ≤ start + chunk ∨ r.hit = r.kvLenAt false (start + chunk) := by
    by_cases hlast : r.suffix.length ≤ start + chunk
    · exact .inl hlast
    · right
      simp [Request.kvLenAt, hlast]
  obtain ⟨w', hrest, hserved', hat⟩ := prefillOne_rest hserved.guaranteed hstart hkv hstands
  refine ⟨w', ?_, hserved.trans hserved' (List.Subset.refl _) (List.Subset.refl _), hat⟩
  simp only [prefillOne, if_neg hend, bind_of_ok hforward]
  exact hrest

theorem prefillOne_batched (hw : Guaranteed ⟨w.slots, granted⟩) (hcold : r.hit = 0) (hstart : start < r.suffix.length)
    (h : Stands r (min (start + chunk) r.suffix.length) (min (start + chunk) r.suffix.length) [] w) :
    ∃ w', prefillOne (some start) start chunk r w = .ok (decide (r.suffix.length ≤ start + chunk)) w' ∧
      Served granted [r.slot] w w' ∧ At true (start + chunk) r w' := by
  have hkv : min (start + chunk) r.suffix.length = r.kvLenAt true (start + chunk) := by
    rw [Request.kvLenAt, if_pos (.inl rfl), hcold, zero_add]
  obtain ⟨w', hrest, hserved, hat⟩ := prefillOne_rest hw hstart (.inr hkv) h
  refine ⟨w', ?_, hserved, hat⟩
  rw [hcold, zero_add] at hrest
  simp only [prefillOne, if_neg (not_le.mpr hstart), pure_bind]
  exact hrest

theorem loop_of {P Q : Request β → Wave β → Prop} (past : Option Nat) (hdistinct : (requests.map (·.slot)).Nodup)
    (hP : ∀ r ∈ requests, ∀ slots w w', Served granted slots w w' → r.slot ∉ slots → P r w → P r w')
    (hQ : ∀ r ∈ requests, ∀ slots w w', Served granted slots w w' → r.slot ∉ slots → Q r w → Q r w')
    (hone : ∀ r ∈ requests, ∀ w, Guaranteed ⟨w.slots, granted⟩ → P r w →
      ∃ w', prefillOne past start chunk r w = .ok (decide (r.suffix.length ≤ start + chunk)) w' ∧
        Served granted [r.slot] w w' ∧ Q r w')
    (hw : Guaranteed ⟨w.slots, granted⟩) (hbefore : ∀ r ∈ requests, P r w) (finished : Bool) :
    ∃ w', (requests.foldlM (fun finished r => do
          let last ← prefillOne past start chunk r
          pure (finished && last)) finished) w =
        .ok (finished && requests.all fun r => decide (r.suffix.length ≤ start + chunk)) w' ∧
      Served granted (requests.map (·.slot)) w w' ∧ ∀ r ∈ requests, Q r w' := by
  induction requests generalizing w finished with
  | nil => exact ⟨w, by simp, Served.refl hw _, by simp⟩
  | cons r requests ih =>
    rw [map_cons, nodup_cons] at hdistinct
    have hne : ∀ r' ∈ requests, r'.slot ∉ [r.slot] := by
      intro r' hr' hmem
      rw [mem_singleton] at hmem
      exact hdistinct.1 (hmem ▸ mem_map_of_mem hr')
    obtain ⟨w₁, hrun, hserved, hafter⟩ := hone r mem_cons_self w hw (hbefore r mem_cons_self)
    have hrest : ∀ r' ∈ requests, P r' w₁ := fun r' hr' =>
      hP r' (mem_cons_of_mem r hr') [r.slot] w w₁ hserved (hne r' hr') (hbefore r' (mem_cons_of_mem r hr'))
    obtain ⟨w', hloop, hserved', hall⟩ := ih hdistinct.2 (fun r' hr' => hP r' (mem_cons_of_mem r hr'))
      (fun r' hr' => hQ r' (mem_cons_of_mem r hr')) (fun r' hr' => hone r' (mem_cons_of_mem r hr'))
      hserved.guaranteed hrest (finished && decide (r.suffix.length ≤ start + chunk))
    refine ⟨w', ?_, hserved.trans hserved' (by simp) (by simp), ?_⟩
    · have hfirst : (do
          let last ← prefillOne past start chunk r
          pure (finished && last) : WaveM β Bool) w = .ok (finished && decide (r.suffix.length ≤ start + chunk)) w₁ := by
        rw [bind_of_ok hrun, pure_apply]
      rw [foldlM_cons, bind_of_ok hfirst, hloop, all_cons, Bool.and_assoc]
    · intro r' hr'
      cases hr' with
      | head => exact hQ r mem_cons_self _ w₁ w' hserved' hdistinct.1 hafter
      | tail _ hr' => exact hall r' hr'

/-- A wave between two rounds. -/
structure Round (granted : Nat → Nat) (requests : List (Request β)) (chunk : Nat) (batched : Bool) (upto : Nat)
    (w : Wave β) : Prop where
  admitted : w.requests = requests
  size : w.chunk = chunk
  position : w.upto = upto
  guaranteed : Guaranteed ⟨w.slots, granted⟩
  distinct : (requests.map (·.slot)).Nodup
  anchored : ∀ r ∈ requests, r.suffix = [] → r.cached = true
  covers : ∀ r ∈ requests, Covers granted w r
  stands : ∀ r ∈ requests, At batched upto r w

def finishedAt (requests : List (Request β)) (upto : Nat) : Bool :=
  requests.all fun r => decide (r.suffix.length ≤ upto)

theorem Round.next (h : Round granted requests chunk batched upto w)
    (hserved : Served granted (requests.map (·.slot)) w w')
    (hstands : ∀ r ∈ requests, At batched (upto + chunk) r w') (finished : Bool) :
    Round granted requests chunk batched (upto + chunk) { w' with upto := upto + chunk, done := finished } where
  admitted := by
    rw [hserved.frame]
    exact h.admitted
  size := by
    rw [hserved.frame]
    exact h.size
  position := rfl
  guaranteed := hserved.guaranteed
  distinct := h.distinct
  anchored := h.anchored
  covers := fun r hr => ⟨(hserved.covers (h.covers r hr)).live, (h.covers r hr).granted⟩
  stands := by
    intro r hr
    obtain ⟨hseen, hkvLen, hcolumn, hcold, hclear, hpositions, hanchors⟩ := hstands r hr
    exact ⟨hseen, hkvLen, hcolumn, hcold, hclear, hpositions, hanchors⟩

theorem Uniform.level (h : Uniform requests start) (hw : Round granted requests chunk batched upto w) :
    ∃ total, Level granted (pending requests start) start total w := by
  obtain ⟨hnonempty, hcold, hlength⟩ := h
  obtain ⟨r, hr⟩ := exists_mem_of_ne_nil _ hnonempty
  refine ⟨r.suffix.length, hnonempty, hw.distinct.sublist ((filter_sublist (p := _)).map _), fun r' hr' => ?_,
    fun r' hr' => ?_, fun r' hr' => hlength r' hr' r hr, (mem_pending.mp hr).2⟩
  · exact hw.covers r' (mem_pending.mp hr').1
  · have hprompt := hcold r' hr'
    rw [Request.promptLen] at hprompt
    omega

/-- What is pending later is pending now. -/
theorem Uniform.later (h : Uniform requests 0) (hpending : pending requests start ≠ []) : Uniform requests start := by
  have hsub : ∀ r ∈ pending requests start, r ∈ pending requests 0 := by
    intro r hr
    obtain ⟨hmem, hlt⟩ := mem_pending.mp hr
    exact mem_pending.mpr ⟨hmem, Nat.lt_of_le_of_lt (Nat.zero_le start) hlt⟩
  exact ⟨hpending, fun r hr => h.2.1 r (hsub r hr), fun r hr r' hr' => h.2.2 r (hsub r hr) r' (hsub r' hr')⟩

theorem step_eq {batching : Bool} (h : Round granted requests chunk batched upto w) :
    prefillChunkedStep batching w = (do
    let past ← if batching = true ∧ Uniform requests upto then forwardUniform requests upto chunk else pure none
    let finished ← requests.foldlM (fun finished r => do
      let last ← prefillOne past upto chunk r
      pure (finished && last)) true
    modify fun w' => { w' with upto := upto + chunk, done := finished }
    pure finished : WaveM β Bool) w := by
  rw [prefillChunkedStep, bind_of_ok (get_apply w), h.admitted, h.position, h.size]

theorem step_serial {batching : Bool} (h : Round granted requests chunk false upto w) (hchunk : 0 < chunk)
    (hserial : ¬(batching = true ∧ Uniform requests upto)) :
    ∃ w', prefillChunkedStep batching w = .ok (finishedAt requests (upto + chunk)) w' ∧
      Round granted requests chunk false (upto + chunk) w' ∧ w'.done = finishedAt requests (upto + chunk) := by
  obtain ⟨w₁, hloop, hserved, hstands⟩ := loop_of (P := fun r w => Covers granted w r ∧ At false upto r w)
    (Q := At false (upto + chunk)) none h.distinct
    (fun r _ _ _ _ hserved hslot hr => ⟨hserved.covers hr.1, hserved.stands hslot hr.2⟩)
    (fun r _ _ _ _ hserved hslot hr => hserved.stands hslot hr)
    (fun r hr w hw hbefore => prefillOne_serial hw hbefore.1 hchunk (h.anchored r hr) hbefore.2) h.guaranteed
    (fun r hr => ⟨h.covers r hr, h.stands r hr⟩) true
  refine ⟨_, ?_, h.next hserved hstands (finishedAt requests (upto + chunk)), rfl⟩
  rw [step_eq h, if_neg hserial, bind_of_ok (pure_apply none w)]
  exact bind_of_ok hloop

/-- In a wave that has started on the batched branch every round is batched. -/
theorem step_batched (h : Round granted requests chunk true upto w) (hchunk : 0 < chunk)
    (huniform : Uniform requests 0) :
    ∃ w', prefillChunkedStep true w = .ok (finishedAt requests (upto + chunk)) w' ∧
      Round granted requests chunk true (upto + chunk) w' ∧ w'.done = finishedAt requests (upto + chunk) := by
  by_cases hpending : pending requests upto = []
  · have hno : ¬(true = true ∧ Uniform requests upto) := fun hboth => hboth.2.1 hpending
    have hend : ∀ r ∈ requests, r.suffix.length ≤ upto := by
      intro r hr
      by_contra hlt
      have hmem : r ∈ pending requests upto := mem_pending.mpr ⟨hr, not_le.mp hlt⟩
      rw [hpending] at hmem
      cases hmem
    obtain ⟨w₁, hloop, hserved, hstands⟩ := loop_of (P := At true upto) (Q := At true (upto + chunk)) none h.distinct
      (fun r _ _ _ _ hserved hslot hr => hserved.stands hslot hr)
      (fun r _ _ _ _ hserved hslot hr => hserved.stands hslot hr)
      (fun r hr w hw hbefore => prefillOne_behind hw hchunk (h.anchored r hr) (hend r hr) hbefore none) h.guaranteed
      h.stands true
    refine ⟨_, ?_, h.next hserved hstands (finishedAt requests (upto + chunk)), rfl⟩
    rw [step_eq h, if_neg hno, bind_of_ok (pure_apply none w)]
    exact bind_of_ok hloop
  · have hnow := huniform.later hpending
    obtain ⟨total, hlevel⟩ := hnow.level h
    have hbefore : ∀ r ∈ pending requests upto, Stands r upto upto [] w := by
      intro r hr
      obtain ⟨hmem, hlt⟩ := mem_pending.mp hr
      have hstands := (h.stands r hmem).stands hlt
      rwa [if_pos rfl, hlevel.cold r hr, zero_add] at hstands
    obtain ⟨w₁, hforward, hserved, hforwarded⟩ := forwardUniform_of h.guaranteed hchunk hlevel hbefore
    have hpieces : ∀ r ∈ requests, (upto < r.suffix.length ∧ r.hit = 0 ∧
        Stands r (min (upto + chunk) r.suffix.length) (min (upto + chunk) r.suffix.length) [] w₁) ∨
        r.suffix.length ≤ upto ∧ At true upto r w₁ := by
      intro r hr
      by_cases hlt : upto < r.suffix.length
      · have hmem : r ∈ pending requests upto := mem_pending.mpr ⟨hr, hlt⟩
        have hstands := hforwarded r hmem
        rw [← hlevel.length r hmem] at hstands
        exact .inl ⟨hlt, hlevel.cold r hmem, hstands⟩
      · have hslot : r.slot ∉ (pending requests upto).map (·.slot) := by
          intro hslot
          obtain ⟨r', hr', heq⟩ := mem_map.mp hslot
          obtain ⟨hmem', hlt'⟩ := mem_pending.mp hr'
          have hsame := inj_on_of_nodup_map h.distinct hmem' hr heq
          exact hlt (hsame ▸ hlt')
        exact .inr ⟨not_lt.mp hlt, hserved.stands hslot (h.stands r hr)⟩
    obtain ⟨w₂, hloop, hserved₂, hstands⟩ := loop_of (P := fun r w => (upto < r.suffix.length ∧ r.hit = 0 ∧
        Stands r (min (upto + chunk) r.suffix.length) (min (upto + chunk) r.suffix.length) [] w) ∨
        r.suffix.length ≤ upto ∧ At true upto r w) (Q := At true (upto + chunk)) (some upto) h.distinct
      (fun r _ _ _ _ hserved hslot hr => hr.imp (fun h => ⟨h.1, h.2.1, hserved.stands hslot h.2.2⟩)
        fun h => ⟨h.1, hserved.stands hslot h.2⟩)
      (fun r _ _ _ _ hserved hslot hr => hserved.stands hslot hr)
      (fun r hr w hw hpiece => hpiece.elim (fun hlive => prefillOne_batched hw hlive.2.1 hlive.1 hlive.2.2)
        fun hpast => prefillOne_behind hw hchunk (h.anchored r hr) hpast.1 hpast.2 (some upto)) hserved.guaranteed hpieces
      true
    have hsub : (pending requests upto).map (·.slot) ⊆ requests.map (·.slot) := by
      intro slot hslot
      obtain ⟨r, hr, rfl⟩ := mem_map.mp hslot
      exact mem_map_of_mem (mem_pending.mp hr).1
    refine ⟨_, ?_, h.next (hserved.trans hserved₂ hsub (List.Subset.refl _)) hstands (finishedAt requests (upto + chunk)),
      rfl⟩
    rw [step_eq h, if_pos ⟨rfl, hnow⟩, bind_of_ok hforward]
    exact bind_of_ok hloop

/-- A batched round behind a serial one finds the states ahead of the committed lengths. -/
theorem step_mixed (h : Round granted requests chunk false upto w) (hchunk : 0 < chunk) (hupto : 0 < upto)
    (huniform : Uniform requests upto) : ∃ e w', prefillChunkedStep true w = .error e w' := by
  obtain ⟨total, hlevel⟩ := huniform.level h
  have hbefore : ∀ r ∈ pending requests upto, Stands r upto 0 [] w := by
    intro r hr
    obtain ⟨hmem, hlt⟩ := mem_pending.mp hr
    have hstands := (h.stands r hmem).stands hlt
    rw [hlevel.cold r hr] at hstands
    exact hstands
  have hbatch := hlevel.batchable h.guaranteed hchunk (fun r hr => (hbefore r hr).kvLen) (Nat.zero_le upto)
  have hseen : ∀ slot ∈ (pending requests upto).map (·.slot), w.slots.seen slot ≠ 0 := by
    intro slot hslot
    obtain ⟨r, hr, rfl⟩ := mem_map.mp hslot
    rw [(hbefore r hr).seen]
    exact ne_of_gt (Nat.add_pos_right _ hupto)
  obtain ⟨slot, seen, hbuild⟩ := buildPrefillBatch_ahead hbatch hseen
  have hforward : forwardUniform requests upto chunk w = .error (.pool (.batchStateLength slot seen 0)) w := by
    rw [forwardUniform, bind_of_ok (attempt_of_error (onPool_of_error hbuild))]
    rfl
  refine ⟨.pool (.batchStateLength slot seen 0), w, ?_⟩
  rw [step_eq h, if_pos ⟨rfl, huniform⟩, bind_of_error hforward]

end Rounds

section Waves

variable {t : Granted β} {batching batched : Bool} {rounds : Nat}

/-- Slots at their hits, behind which nothing is shared, with room for their prompts. -/
structure Admitted (t : Granted β) (requests : List (Request β)) : Prop where
  guaranteed : Guaranteed t
  distinct : (requests.map (·.slot)).Nodup
  live : ∀ r ∈ requests, r.slot < t.slots.geometry.numSlots
  granted : ∀ r ∈ requests, r.promptLen ≤ t.granted r.slot
  kvLen : ∀ r ∈ requests, t.slots.kvLen r.slot = r.hit
  seen : ∀ r ∈ requests, t.slots.seen r.slot = r.hit
  column : ∀ r ∈ requests, t.slots.column r.slot = 0
  cold : ∀ r ∈ requests, r.hit = 0 → t.slots.hasPrevious r.slot = false
  clear : ∀ r ∈ requests, Clear t.slots r.slot (r.hit / t.slots.geometry.pageSize)
  anchored : ∀ r ∈ requests, r.suffix = [] → r.cached = true

theorem Admitted.round (h : Admitted t requests) (chunk : Nat) (batched : Bool) :
    Round t.granted requests chunk batched 0 (wave t.slots requests chunk) where
  admitted := rfl
  size := rfl
  position := rfl
  __ := h
  covers := fun r hr => ⟨h.live r hr, h.granted r hr⟩
  stands := by
    intro r hr
    rw [At, Nat.zero_min, Request.anchorsAt, if_neg fun hboth => lt_irrefl 0 hboth.1]
    refine ⟨h.seen r hr, ?_, h.column r hr, h.cold r hr, h.clear r hr, rfl, rfl⟩
    rw [Request.kvLenAt, Nat.zero_min, add_zero, ite_self]
    exact h.kvLen r hr

/-- The guards of `prefill_chunked_begin` let the wave pass. -/
theorem Admitted.begin_eq (h : Admitted t requests) (chunk : Nat) :
    prefillChunkedBegin batching (wave t.slots requests chunk) =
      prefillChunkedStep batching (wave t.slots requests chunk) := by
  have hguards : ∃ w', (forM requests checkRequest) (wave t.slots requests chunk) = .ok ⟨⟩ w' ∧
      w' = wave t.slots requests chunk := by
    apply forM_succeeds (I := fun _ w' => w' = wave t.slots requests chunk)
    · rintro done r rest w' hsplit rfl
      have hr : r ∈ requests := by simp [hsplit]
      have hclean : ¬t.slots.kvLen r.slot ≠ r.hit := not_not.mpr (h.kvLen r hr)
      have hanchor : ¬(r.suffix = [] ∧ r.cached = false) := by
        rintro ⟨hempty, hcached⟩
        rw [h.anchored r hr hempty] at hcached
        cases hcached
      refine ⟨wave t.slots requests chunk, ?_, rfl⟩
      rw [checkRequest, bind_of_ok (get_apply _)]
      exact (bind_of_ok (raiseIf_of_not hclean _)).trans (raiseIf_of_not hanchor _)
    · rfl
  obtain ⟨w', hrun, rfl⟩ := hguards
  rw [prefillChunkedBegin, bind_of_ok (get_apply _)]
  exact bind_of_ok hrun

/-- A wave without a batched round. -/
theorem prefill_serial (batching : Bool) (rounds : Nat) (h : Admitted t requests) (hchunk : 0 < chunk)
    (hserial : ∀ k ≤ rounds, ¬(batching = true ∧ Uniform requests (k * chunk))) :
    ∃ w, prefill batching rounds (wave t.slots requests chunk) = .ok (finishedAt requests ((rounds + 1) * chunk)) w ∧
      Round t.granted requests chunk false ((rounds + 1) * chunk) w ∧
        w.done = finishedAt requests ((rounds + 1) * chunk) := by
  induction rounds with
  | zero =>
    have hfirst := hserial 0 (Nat.le_refl 0)
    rw [Nat.zero_mul] at hfirst
    rw [prefill, h.begin_eq, Nat.zero_add, Nat.one_mul]
    have hstep := step_serial (h.round chunk false) hchunk hfirst
    rwa [zero_add] at hstep
  | succ rounds ih =>
    obtain ⟨w, hrun, hround, -⟩ := ih fun k hk => hserial k (Nat.le_succ_of_le hk)
    rw [prefill, bind_of_ok hrun, Nat.succ_mul (rounds + 1) chunk]
    exact step_serial hround hchunk (hserial (rounds + 1) (le_refl _))

/-- A wave whose first round is batched. -/
theorem prefill_batched (h : Admitted t requests) (hchunk : 0 < chunk) (huniform : Uniform requests 0) :
    ∃ w, prefill true rounds (wave t.slots requests chunk) = .ok (finishedAt requests ((rounds + 1) * chunk)) w ∧
      Round t.granted requests chunk true ((rounds + 1) * chunk) w ∧
        w.done = finishedAt requests ((rounds + 1) * chunk) := by
  induction rounds with
  | zero =>
    rw [prefill, h.begin_eq, zero_add, one_mul]
    have hstep := step_batched (h.round chunk true) hchunk huniform
    rwa [zero_add] at hstep
  | succ rounds ih =>
    obtain ⟨w, hrun, hround, -⟩ := ih
    rw [prefill, bind_of_ok hrun, Nat.succ_mul (rounds + 1) chunk]
    exact step_batched hround hchunk huniform

/-- What a wave has done behind position `upto` of the suffixes. -/
structure Exact (requests : List (Request β)) (upto : Nat) (finished : Bool) (w : Wave β) : Prop where
  forwarded : ∀ r ∈ requests, positions w r.slot = range' r.hit (min upto r.suffix.length)
  committed : ∀ r ∈ requests, anchors w r.slot = if r.suffix.length ≤ upto then [r.anchor] else []
  kvLen : ∀ r ∈ requests, r.suffix.length ≤ upto → w.slots.kvLen r.slot = r.promptLen
  done : w.done = finished
  finished : finished = true ↔ ∀ r ∈ requests, anchors w r.slot ≠ []

theorem Round.exact (h : Round granted requests chunk batched upto w) (hupto : 0 < upto)
    (hdone : w.done = finishedAt requests upto) : Exact requests upto (finishedAt requests upto) w := by
  have hcommitted : ∀ r ∈ requests, anchors w r.slot = if r.suffix.length ≤ upto then [r.anchor] else [] := by
    intro r hr
    have hanchors := (h.stands r hr).anchors
    simp only [Request.anchorsAt, hupto, true_and] at hanchors
    exact hanchors
  refine ⟨fun r hr => (h.stands r hr).positions, hcommitted, fun r hr hend => ?_, hdone, ?_⟩
  · rw [(h.stands r hr).kvLen, Request.kvLenAt, if_pos (.inr hend), min_eq_right hend, Request.promptLen]
  · rw [finishedAt, all_eq_true]
    apply forall₂_congr
    intro r hr
    rw [hcommitted r hr, decide_eq_true_eq]
    split_ifs with hend <;> simp [hend]

/-- Every call returns and has done just this much, and one of them is the last. -/
def Total (batching : Bool) (s : Slots β) (requests : List (Request β)) (chunk : Nat) : Prop :=
  (∀ rounds, ∃ finished w, prefill batching rounds (wave s requests chunk) = .ok finished w ∧
    Exact requests ((rounds + 1) * chunk) finished w) ∧
  ∃ rounds w, prefill batching rounds (wave s requests chunk) = .ok true w

theorem exists_longest (requests : List (Request β)) : ∃ n, ∀ r ∈ requests, r.suffix.length ≤ n := by
  induction requests with
  | nil => exact ⟨0, by simp⟩
  | cons r requests ih =>
    obtain ⟨n, hn⟩ := ih
    refine ⟨max r.suffix.length n, fun r' hr' => ?_⟩
    cases hr' with
    | head => exact le_max_left _ _
    | tail _ hr' => exact (hn r' hr').trans (le_max_right _ _)

theorem total_of_rounds (batched : Bool) (hchunk : 0 < chunk)
    (h : ∀ rounds, ∃ w, prefill batching rounds (wave t.slots requests chunk) =
      .ok (finishedAt requests ((rounds + 1) * chunk)) w ∧
      Round t.granted requests chunk batched ((rounds + 1) * chunk) w ∧
      w.done = finishedAt requests ((rounds + 1) * chunk)) : Total batching t.slots requests chunk := by
  constructor
  · intro rounds
    obtain ⟨w, hrun, hround, hdone⟩ := h rounds
    exact ⟨_, w, hrun, hround.exact (Nat.mul_pos (Nat.succ_pos rounds) hchunk) hdone⟩
  · obtain ⟨n, hn⟩ := exists_longest requests
    obtain ⟨w, hrun, -⟩ := h n
    have hfinished : finishedAt requests ((n + 1) * chunk) = true := by
      rw [finishedAt, all_eq_true]
      intro r hr
      rw [decide_eq_true_eq]
      exact (hn r hr).trans ((Nat.le_succ n).trans (Nat.le_mul_of_pos_right _ hchunk))
    rw [hfinished] at hrun
    exact ⟨n, w, hrun⟩

theorem chunkOf_pos {chunkSize chunkTokens : Nat} (h : 0 < chunkTokens) : 0 < chunkOf chunkSize chunkTokens := by
  rw [chunkOf]
  split_ifs <;> omega

/-- A wave is prefilled in full just when no batched round comes behind a serial one. -/
theorem total_iff {chunkSize chunkTokens : Nat} (h : Admitted t requests) (htokens : 0 < chunkTokens) :
    Total batching t.slots requests (chunkOf chunkSize chunkTokens) ↔
      (batching = true → Uniform requests 0 ∨ ∀ k, ¬Uniform requests (k * chunkOf chunkSize chunkTokens)) := by
  have hchunk : 0 < chunkOf chunkSize chunkTokens := chunkOf_pos htokens
  obtain ⟨chunk, hchunkOf⟩ : ∃ chunk, chunkOf chunkSize chunkTokens = chunk := ⟨_, rfl⟩
  rw [hchunkOf] at hchunk ⊢
  constructor
  · rintro ⟨hreturns, -⟩ rfl
    by_contra hmixed
    rw [not_or, not_forall] at hmixed
    obtain ⟨hragged, hlater⟩ := hmixed
    simp only [not_not] at hlater
    -- The first batched round is not the first round.
    have hfirst := Nat.find_spec hlater
    have hbefore : ∀ k < Nat.find hlater, ¬Uniform requests (k * chunk) := fun k hk => Nat.find_min hlater hk
    cases hk : Nat.find hlater with
    | zero =>
      rw [hk, Nat.zero_mul] at hfirst
      exact hragged hfirst
    | succ k =>
      rw [hk] at hfirst hbefore
      obtain ⟨w, hrun, hround, -⟩ := prefill_serial true k h hchunk
        fun j hj hboth => hbefore j (Nat.lt_succ_of_le hj) hboth.2
      obtain ⟨e, w', herror⟩ := step_mixed hround hchunk (Nat.mul_pos (Nat.succ_pos k) hchunk) hfirst
      obtain ⟨finished, w'', hok, -⟩ := hreturns (k + 1)
      rw [prefill, bind_of_ok hrun, herror] at hok
      cases hok
  · intro hcases
    cases hbatching : batching with
    | false =>
      apply total_of_rounds false hchunk
      intro rounds
      apply prefill_serial false rounds h hchunk
      simp
    | true =>
      rcases hcases hbatching with huniform | hserial
      · exact total_of_rounds true hchunk fun rounds => prefill_batched h hchunk huniform
      · apply total_of_rounds false hchunk
        intro rounds
        exact prefill_serial true rounds h hchunk fun k _ hboth => hserial k hboth.2

/-- Two cold prompts, the second of `n` tokens. -/
def ragged (n : Nat) : List (Request Nat) := [⟨0, 0, [1, 2, 3], false⟩, ⟨1, 0, range n, false⟩]

def room : List Op := [.reserveKvCapacity 0 8, .reserveKvCapacity 1 8]

/-- With chunks of two, prompts of three and four tokens end in the same round. -/
theorem total_ragged : ∃ t, StepRun.run Granted.call (begin smallPages fun _ _ => 0) room = some t ∧
    Total true t.slots (ragged 4) (chunkOf 2 8) := by
  have halong : StepRun.Along Granted.call Backed (begin smallPages fun _ _ => 0) room := by decide
  have hserial : ∀ k, ¬Uniform (ragged 4) (k * chunkOf 2 8) := by
    intro k hk
    obtain ⟨hnonempty, -, hlength⟩ := hk
    by_cases hearly : k < 2
    · have hone := hlength ⟨0, 0, [1, 2, 3], false⟩ (by simp [mem_pending, ragged, chunkOf]; omega)
        ⟨1, 0, range 4, false⟩ (by simp [mem_pending, ragged, chunkOf]; omega)
      revert hone
      decide
    · apply hnonempty
      simp [pending, ragged, chunkOf]
      omega
  refine ⟨_, rfl, (total_iff ⟨run_guaranteed halong rfl, by decide, by decide, by decide, by decide, by decide,
    by decide, by decide, fun r _ => Clear.of_null fun page _ => ?_, by decide⟩ (by decide)).mpr fun _ => .inr hserial⟩
  exact getElem?_getD_replicate_default_eq 0 4 page

/-- With one token more the third round is left to one slot, and is refused to it. -/
theorem prefill_ragged : ∃ t, StepRun.run Granted.call (begin smallPages fun _ _ => 0) room = some t ∧
    raised (prefill true 2 (wave t.slots (ragged 5) (chunkOf 2 8))) = some (.pool (.batchStateLength 1 4 0)) ∧
    ¬Total true t.slots (ragged 5) (chunkOf 2 8) := by
  have hraised : ∀ {t : Granted Nat}, raised (prefill true 2 (wave t.slots (ragged 5) (chunkOf 2 8))) =
      some (.pool (.batchStateLength 1 4 0)) → ¬Total true t.slots (ragged 5) (chunkOf 2 8) := by
    rintro t hraised ⟨hreturns, -⟩
    obtain ⟨finished, w, hrun, -⟩ := hreturns 2
    rw [hrun] at hraised
    cases hraised
  exact ⟨_, rfl, by decide +kernel, hraised (by decide +kernel)⟩

end Waves

end ChunkedPrefill
