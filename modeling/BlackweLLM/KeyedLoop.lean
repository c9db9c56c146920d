import Mathlib.Data.List.Forall2

/-!
# Loops over the entries of a table

A body that reads and writes the entry of one key, run for several keys in
turn. Over distinct keys the loop is the body applied to each entry, so several
loops in a row are one loop over the composed bodies.
-/

namespace KeyedLoop

open List Function

variable {ι σ α β γ ε : Type}

section Loop

variable [DecidableEq ι]

/-- Run `body` for each request, on the entry of its key. -/
def eachRequest (body : α → σ → Except ε (σ × β)) :
    List (ι × α) → (ι → σ) → Except ε ((ι → σ) × List β)
  | [], table => .ok (table, [])
  | (key, a) :: rest, table =>
    match body a (table key) with
    | .error e => .error e
    | .ok (entry, b) =>
      match eachRequest body rest (update table key entry) with
      | .error e => .error e
      | .ok (table, bs) => .ok (table, b :: bs)

end Loop

/-- A loop whose body cannot fail. -/
def eachEntry [DecidableEq ι] (body : α → σ → σ) (requests : List (ι × α)) (table : ι → σ) : ι → σ :=
  requests.foldl (fun table r => update table r.1 (body r.2 (table r.1))) table

theorem eachEntry_of_notMem [DecidableEq ι] {body : α → σ → σ} {requests : List (ι × α)} {table : ι → σ} {key : ι}
    (h : key ∉ requests.map Prod.fst) : eachEntry body requests table key = table key := by
  induction requests generalizing table with
  | nil => rfl
  | cons r rest ih =>
    simp only [map_cons, mem_cons, not_or] at h
    rw [eachEntry, foldl_cons]
    exact (ih h.2).trans (update_of_ne h.1 _ _)

/-- Over distinct keys each entry meets the body once. -/
theorem eachEntry_of_mem [DecidableEq ι] {body : α → σ → σ} {requests : List (ι × α)} {table : ι → σ} {r : ι × α}
    (hnodup : (requests.map Prod.fst).Nodup) (h : r ∈ requests) :
    eachEntry body requests table r.1 = body r.2 (table r.1) := by
  induction requests generalizing table with
  | nil => simp at h
  | cons q rest ih =>
    simp only [map_cons, nodup_cons] at hnodup
    rw [eachEntry, foldl_cons]
    rcases mem_cons.mp h with rfl | hmem
    · exact (eachEntry_of_notMem hnodup.1).trans (update_self _ _ _)
    · have hne : r.1 ≠ q.1 := fun heq => hnodup.1 (heq ▸ mem_map_of_mem hmem)
      refine (ih hnodup.2 hmem).trans ?_
      rw [update_of_ne hne]

/-- Every request finds the entry of its key as it was before the loop. -/
structure Pointwise (body : α → σ → Except ε (σ × β)) (requests : List (ι × α)) (table table' : ι → σ)
    (outs : List β) : Prop where
  each : Forall₂ (fun r b => body r.2 (table r.1) = .ok (table' r.1, b)) requests outs
  other : ∀ key, key ∉ requests.map Prod.fst → table' key = table key

def andThen (f : α → σ → Except ε (σ × β)) (g : β → σ → Except ε (σ × γ)) (a : α) (entry : σ) :
    Except ε (σ × γ) :=
  match f a entry with
  | .error e => .error e
  | .ok (entry, b) => g b entry

/-- Run one loop over the results of another. -/
def thenEach [DecidableEq ι] (body : β → σ → Except ε (σ × γ)) (keys : List ι)
    (before : Except ε ((ι → σ) × List β)) : Except ε ((ι → σ) × List γ) :=
  match before with
  | .error e => .error e
  | .ok (table, outs) => eachRequest body (keys.zip outs) table

variable {body : α → σ → Except ε (σ × β)} {requests : List (ι × α)} {table table' : ι → σ}
  {outs : List β}

section Loop

variable [DecidableEq ι]

theorem eachRequest_cons (r : ι × α) (rest : List (ι × α)) :
    eachRequest body (r :: rest) table = .ok (table', outs) ↔
      ∃ entry b bs, body r.2 (table r.1) = .ok (entry, b) ∧
        eachRequest body rest (update table r.1 entry) = .ok (table', bs) ∧ outs = b :: bs := by
  obtain ⟨key, a⟩ := r
  simp only [eachRequest]
  cases hb : body a (table key) with
  | error e => simp
  | ok out =>
    obtain ⟨entry, b⟩ := out
    simp only [Except.ok.injEq, Prod.mk.injEq]
    constructor
    · intro h
      cases hr : eachRequest body rest (update table key entry) with
      | error e => simp [hr] at h
      | ok out' =>
        obtain ⟨table₁, bs⟩ := out'
        simp only [hr, Except.ok.injEq, Prod.mk.injEq] at h
        obtain ⟨rfl, rfl⟩ := h
        exact ⟨entry, b, bs, ⟨rfl, rfl⟩, hr, rfl⟩
    · rintro ⟨entry', b', bs, ⟨rfl, rfl⟩, hr, rfl⟩
      simp only [hr]

section

variable (hnodup : (requests.map Prod.fst).Nodup)
include hnodup

theorem Pointwise.of_eachRequest (h : eachRequest body requests table = .ok (table', outs)) :
    Pointwise body requests table table' outs := by
  induction requests generalizing table outs with
  | nil =>
    cases h
    exact ⟨Forall₂.nil, fun _ _ => rfl⟩
  | cons r rest ih =>
    simp only [map_cons, nodup_cons] at hnodup
    obtain ⟨entry, b, bs, hb, hr, rfl⟩ := (eachRequest_cons r rest).mp h
    obtain ⟨heach, hother⟩ := ih hnodup.2 hr
    have hkey : table' r.1 = entry := by
      rw [hother r.1 hnodup.1, update_self]
    refine ⟨Forall₂.cons (by rw [hkey]; exact hb) ?_, fun key hmem => ?_⟩
    · have hne : ∀ q ∈ rest, q.1 ≠ r.1 := fun q hq heq =>
        hnodup.1 (heq ▸ mem_map_of_mem hq)
      refine ((forall₂_and_left _ _).mpr ⟨hne, heach⟩).imp fun q b hq => ?_
      rw [← hq.2, update_of_ne hq.1]
    · simp only [map_cons, mem_cons, not_or] at hmem
      rw [hother key hmem.2, update_of_ne hmem.1]

/-- The loop succeeds when the body succeeds on every entry. -/
theorem exists_eachRequest (h : ∀ r ∈ requests, ∃ out, body r.2 (table r.1) = .ok out) :
    ∃ table' outs, eachRequest body requests table = .ok (table', outs) := by
  induction requests generalizing table with
  | nil => exact ⟨table, [], rfl⟩
  | cons r rest ih =>
    simp only [map_cons, nodup_cons] at hnodup
    obtain ⟨⟨entry, b⟩, hb⟩ := h r (by simp)
    have hrest : ∀ q ∈ rest, ∃ out, body q.2 (update table r.1 entry q.1) = .ok out := by
      intro q hq
      have hne : q.1 ≠ r.1 := fun heq => hnodup.1 (heq ▸ mem_map_of_mem hq)
      rw [update_of_ne hne]
      exact h q (by simp [hq])
    obtain ⟨table', bs, hr⟩ := ih hnodup.2 hrest
    exact ⟨table', b :: bs, (eachRequest_cons r rest).mpr ⟨entry, b, bs, hb, hr, rfl⟩⟩

theorem Pointwise.eachRequest
    (h : Pointwise body requests table table' outs) : eachRequest body requests table = .ok (table', outs) := by
  induction requests generalizing table outs with
  | nil =>
    obtain ⟨heach, hother⟩ := h
    cases heach
    rw [KeyedLoop.eachRequest, funext fun key => hother key (by simp)]
  | cons r rest ih =>
    obtain ⟨heach, hother⟩ := h
    simp only [map_cons, nodup_cons] at hnodup
    cases heach with
    | cons hb heach =>
      apply (eachRequest_cons r rest).mpr
      refine ⟨table' r.1, _, _, hb, ih hnodup.2 ⟨?_, fun key hkey => ?_⟩, rfl⟩
      · have hne : ∀ q ∈ rest, q.1 ≠ r.1 := fun q hq heq =>
          hnodup.1 (heq ▸ mem_map_of_mem hq)
        refine ((forall₂_and_left _ _).mpr ⟨hne, heach⟩).imp fun q b hq => ?_
        rw [update_of_ne hq.1, hq.2]
      · rcases eq_or_ne key r.1 with rfl | hne
        · rw [update_self]
        · rw [update_of_ne hne, hother key (by simpa [hne] using hkey)]

/-- Over distinct keys the loop is pointwise. -/
theorem eachRequest_iff :
    eachRequest body requests table = .ok (table', outs) ↔ Pointwise body requests table table' outs :=
  ⟨Pointwise.of_eachRequest hnodup, Pointwise.eachRequest hnodup⟩

end

end Loop

theorem Pointwise.succeeds (h : Pointwise body requests table table' outs) :
    ∀ r ∈ requests, ∃ out, body r.2 (table r.1) = .ok out := by
  have heach := h.each
  clear h
  induction heach with
  | nil => simp
  | cons hb _ ih =>
    intro r hr
    rcases mem_cons.mp hr with rfl | hr
    · exact ⟨_, hb⟩
    · exact ih r hr

theorem Pointwise.lookup [BEq ι] [LawfulBEq ι] (h : Pointwise body requests table table' outs) (key : ι) :
    ((requests.map Prod.fst).zip outs).lookup key = none ∧ table' key = table key ∨
      ∃ a b, (key, a) ∈ requests ∧ ((requests.map Prod.fst).zip outs).lookup key = some b ∧
        body a (table key) = .ok (table' key, b) := by
  have hmem : key ∉ requests.map Prod.fst ∧ ((requests.map Prod.fst).zip outs).lookup key = none ∨
      ∃ a b, (key, a) ∈ requests ∧ ((requests.map Prod.fst).zip outs).lookup key = some b ∧
        body a (table key) = .ok (table' key, b) := by
    have heach := h.each
    clear h
    induction heach with
    | nil => simp
    | @cons r b _ _ hb _ ih =>
      by_cases hkey : key = r.1
      · subst hkey
        exact .inr ⟨r.2, b, by simp, by simp, hb⟩
      · have hlookup : (key == r.1) = false := beq_eq_false_iff_ne.mpr hkey
        simp only [map_cons, zip_cons_cons, lookup_cons, hlookup, mem_cons, not_or, hkey,
          not_false_eq_true, true_and]
        rcases ih with hnone | ⟨a, b', hmem, hrest⟩
        · exact .inl hnone
        · exact .inr ⟨a, b', .inr hmem, hrest⟩
  rcases hmem with ⟨hkey, hnone⟩ | hsome
  · exact .inl ⟨hnone, h.other key hkey⟩
  · exact .inr hsome

section AndThen

variable {f : α → σ → Except ε (σ × β)} {g : β → σ → Except ε (σ × γ)} {table₁ table₂ : ι → σ}
  {bs : List β} {cs : List γ}

theorem andThen_eq_ok {a : α} {entry entry₁ : σ} {b : β} (h : f a entry = .ok (entry₁, b)) :
    andThen f g a entry = g b entry₁ := by
  simp [andThen, h]

theorem map_fst_zip (h : Forall₂ (fun r b => f r.2 (table r.1) = .ok (table₁ r.1, b)) requests bs) :
    ((requests.map Prod.fst).zip bs).map Prod.fst = requests.map Prod.fst :=
  List.map_fst_zip (by simp [h.length_eq])

/-- Two loops in a row are one loop over the composed bodies. -/
theorem Pointwise.andThen (hf : Pointwise f requests table table₁ bs)
    (hg : Pointwise g ((requests.map Prod.fst).zip bs) table₁ table₂ cs) :
    Pointwise (KeyedLoop.andThen f g) requests table table₂ cs := by
  constructor
  · have hbs := hf.each
    have hcs := hg.each
    clear hf hg
    induction hbs generalizing cs with
    | nil =>
      cases hcs
      exact Forall₂.nil
    | cons hb _ ih =>
      simp only [map_cons, zip_cons_cons] at hcs
      cases hcs with
      | cons hc hcs =>
        refine Forall₂.cons ?_ (ih hcs)
        rw [andThen_eq_ok hb]
        exact hc
  · intro key hkey
    rw [hg.other key (by rwa [map_fst_zip hf.each]), hf.other key hkey]

/-- Where the composed body succeeds on every entry, both loops succeed. -/
theorem exists_andThen [DecidableEq ι] (hnodup : (requests.map Prod.fst).Nodup)
    (h : ∀ r ∈ requests, ∃ out, andThen f g r.2 (table r.1) = .ok out) :
    ∃ table₁ bs table₂ cs, eachRequest f requests table = .ok (table₁, bs) ∧
      eachRequest g ((requests.map Prod.fst).zip bs) table₁ = .ok (table₂, cs) := by
  have hfirst : ∀ r ∈ requests, ∃ out, f r.2 (table r.1) = .ok out := by
    intro r hr
    obtain ⟨out, hout⟩ := h r hr
    cases hf : f r.2 (table r.1) with
    | error e => simp [andThen, hf] at hout
    | ok out₁ => exact ⟨out₁, rfl⟩
  obtain ⟨table₁, bs, hbs⟩ := exists_eachRequest hnodup hfirst
  have hpoint := Pointwise.of_eachRequest hnodup hbs
  have hsecond : ∀ q ∈ (requests.map Prod.fst).zip bs, ∃ out, g q.2 (table₁ q.1) = .ok out := by
    have heach := hpoint.each
    clear hpoint hbs hfirst hnodup
    induction heach with
    | nil => simp
    | cons hb _ ih =>
      intro q hq
      simp only [map_cons, zip_cons_cons, mem_cons] at hq
      rcases hq with rfl | hq
      · obtain ⟨out, hout⟩ := h _ mem_cons_self
        exact ⟨out, by rwa [andThen_eq_ok hb] at hout⟩
      · exact ih (fun r hr => h r (mem_cons_of_mem _ hr)) q hq
  obtain ⟨table₂, cs, hcs⟩ := exists_eachRequest (by rwa [map_fst_zip hpoint.each]) hsecond
  exact ⟨table₁, bs, table₂, cs, hbs, hcs⟩

theorem thenEach_eq_ok [DecidableEq ι] {keys : List ι} {before : Except ε ((ι → σ) × List β)} :
    thenEach g keys before = .ok (table₂, cs) ↔
      ∃ table₁ bs, before = .ok (table₁, bs) ∧ eachRequest g (keys.zip bs) table₁ = .ok (table₂, cs) := by
  cases before with
  | error e => simp [thenEach]
  | ok out =>
    obtain ⟨table, outs⟩ := out
    simp [thenEach, and_assoc]

/-- Loop fusion: one phase for every request and then the next, or all phases request by request. -/
theorem thenEach_iff_andThen [DecidableEq ι] (hnodup : (requests.map Prod.fst).Nodup)
    {before : Except ε ((ι → σ) × List β)}
    (hbefore : ∀ table₁ bs, before = .ok (table₁, bs) ↔ eachRequest f requests table = .ok (table₁, bs)) :
    thenEach g (requests.map Prod.fst) before = .ok (table₂, cs) ↔
      eachRequest (andThen f g) requests table = .ok (table₂, cs) := by
  simp only [thenEach_eq_ok, hbefore]
  have hfuse : ∀ {table₁ bs table₂ cs}, eachRequest f requests table = .ok (table₁, bs) →
      eachRequest g ((requests.map Prod.fst).zip bs) table₁ = .ok (table₂, cs) →
      eachRequest (andThen f g) requests table = .ok (table₂, cs) := by
    intro table₁ bs table₂ cs hf hg
    have hfirst := Pointwise.of_eachRequest hnodup hf
    have hsecond := Pointwise.of_eachRequest (by rwa [map_fst_zip hfirst.each]) hg
    exact (hfirst.andThen hsecond).eachRequest hnodup
  constructor
  · rintro ⟨table₁, bs, hf, hg⟩
    exact hfuse hf hg
  · intro h
    obtain ⟨table₁, bs, table₂', cs', hf, hg⟩ :=
      exists_andThen hnodup (Pointwise.of_eachRequest hnodup h).succeeds
    cases (hfuse hf hg).symm.trans h
    exact ⟨table₁, bs, hf, hg⟩

end AndThen

end KeyedLoop
