import BlackweLLM.SlotOwnership

/-!
# What a restored prefix was computed from

`restore_prefix_from_arena` installs what the lookup found and reports the
length that it was asked for, which the lookup need not have reached.
-/

namespace SlotPool

open List Function BundlePool RaisingState

variable {β : Type} {s s' : Slots β} {slot kvLen n : Nat} {keys : List BlockKey} {p : Pool Nat}

/-- Chained block keys: each ends behind the one before it. -/
structure Chained (keys : List BlockKey) : Prop where
  increasing : keys.Pairwise fun first second => first.numTokens < second.numTokens
  positive : ∀ key ∈ keys, 0 < key.numTokens

section Lookup

def live (p : Pool Nat) (key : BlockKey) : Bool := decide (p.holders key.value ≠ [])

def holder (p : Pool Nat) (key : BlockKey) : Nat := (p.holders key.value).headD 0

theorem live_iff {key : BlockKey} : live p key = true ↔ p.holders key.value ≠ [] := by rw [live, decide_eq_true_eq]

theorem holder_mem {key : BlockKey} (h : live p key = true) : holder p key ∈ p.holders key.value := by
  obtain ⟨id, ids, hids⟩ := exists_cons_of_ne_nil (live_iff.mp h)
  rw [holder, hids]
  exact mem_cons_self

theorem resolve_eq (p : Pool Nat) (keys : List BlockKey) :
    resolve p keys = (keys.takeWhile (live p)).map (holder p) := by
  induction keys with
  | nil => rfl
  | cons key keys ih =>
    cases hholders : p.holders key.value with
    | nil =>
      have hdead : ¬live p key = true := by simp [live, hholders]
      rw [takeWhile_cons_of_neg hdead, resolve, hholders]
      rfl
    | cons id ids =>
      have hlive : live p key = true := by simp [live, hholders]
      have hfirst : holder p key = id := by simp [holder, hholders]
      rw [takeWhile_cons_of_pos hlive, map_cons, hfirst, ← ih, resolve, hholders]

/-- The resolved keys, with their bundles. -/
theorem zip_resolve (p : Pool Nat) (keys : List BlockKey) :
    keys.zip (resolve p keys) = (keys.takeWhile (live p)).map fun key => (key, holder p key) := by
  rw [resolve_eq]
  induction keys with
  | nil => rfl
  | cons key keys ih =>
    by_cases hlive : live p key = true
    · rw [takeWhile_cons_of_pos hlive, map_cons, map_cons, zip_cons_cons, ih]
    · rw [takeWhile_cons_of_neg hlive]
      rfl

theorem lookup_eq (p : Pool Nat) (keys : List BlockKey) :
    (lookupLongestPrefix p keys none).bundleIds = resolve p keys ∧
    (lookupLongestPrefix p keys none).effectiveTokens =
      ((keys.takeWhile (live p)).getLast?.map (·.numTokens)).getD 0 := by
  have htake : keys.take (Option.getD none keys.length) = keys := take_length
  have hlength : (resolve p keys).length = (keys.takeWhile (live p)).length := by rw [resolve_eq, length_map]
  rw [lookupLongestPrefix, htake]
  by_cases hnone : resolve p keys = []
  · have hempty : keys.takeWhile (live p) = [] := by
      rw [← length_eq_zero_iff, ← hlength, hnone]
      rfl
    simp [hnone, hempty]
  · have hsome : 0 < (keys.takeWhile (live p)).length := by
      rw [← hlength]
      exact length_pos_iff.mpr hnone
    have hlast : keys[(keys.takeWhile (live p)).length - 1]? = (keys.takeWhile (live p)).getLast? := by
      rw [getLast?_eq_getElem?]
      have happend : (keys.takeWhile (live p) ++ keys.dropWhile (live p))[(keys.takeWhile (live p)).length - 1]? =
          (keys.takeWhile (live p))[(keys.takeWhile (live p)).length - 1]? :=
        getElem?_append_left (Nat.sub_lt hsome one_pos)
      rwa [takeWhile_append_dropWhile] at happend
    simp [hnone, hlength, hlast]

/-- A chain is live up to any of its keys whose predecessors all are. -/
theorem Chained.mem_takeWhile (h : Chained keys) {key : BlockKey} :
    key ∈ keys.takeWhile (live p) ↔
      key ∈ keys ∧ ∀ other ∈ keys, other.numTokens ≤ key.numTokens → live p other = true := by
  obtain ⟨hincreasing, -⟩ := h
  induction keys with
  | nil => simp
  | cons first keys ih =>
    obtain ⟨hfirst, hrest⟩ := pairwise_cons.mp hincreasing
    by_cases hlive : live p first = true
    · rw [takeWhile_cons_of_pos hlive, mem_cons, ih hrest, mem_cons]
      constructor
      · rintro (rfl | ⟨hmem, hall⟩)
        · refine ⟨.inl rfl, fun other hother hle => ?_⟩
          rcases mem_cons.mp hother with rfl | hother
          · exact hlive
          · exact absurd (hfirst other hother) (not_lt.mpr hle)
        · refine ⟨.inr hmem, fun other hother hle => ?_⟩
          rcases mem_cons.mp hother with rfl | hother
          · exact hlive
          · exact hall other hother hle
      · rintro ⟨rfl | hmem, hall⟩
        · exact .inl rfl
        · exact .inr ⟨hmem, fun other hother => hall other (mem_cons_of_mem _ hother)⟩
    · rw [takeWhile_cons_of_neg hlive]
      constructor
      · rintro ⟨⟩
      · rintro ⟨hmem, hall⟩
        have hle : first.numTokens ≤ key.numTokens := by
          rcases mem_cons.mp hmem with rfl | hmem
          · exact le_refl _
          · exact le_of_lt (hfirst key hmem)
        exact absurd (hall first mem_cons_self hle) hlive

/-- The keys that end within `n` tokens are a prefix of a chain. -/
theorem Chained.takeWhile_le (h : Chained keys) (hlive : ∀ key ∈ keys, key.numTokens ≤ n → live p key = true) :
    ((keys.takeWhile (live p)).takeWhile fun key => decide (key.numTokens ≤ n)) =
      keys.filter fun key => decide (key.numTokens ≤ n) := by
  obtain ⟨hincreasing, -⟩ := h
  induction keys with
  | nil => rfl
  | cons first keys ih =>
    obtain ⟨hfirst, hrest⟩ := pairwise_cons.mp hincreasing
    by_cases hle : first.numTokens ≤ n
    · have hfirstLive := hlive first mem_cons_self hle
      rw [takeWhile_cons_of_pos hfirstLive, takeWhile_cons_of_pos (by simpa using hle),
        filter_cons_of_pos (by simpa using hle), ih (fun key hkey => hlive key (mem_cons_of_mem _ hkey)) hrest]
    · have hnone : keys.filter (fun key => decide (key.numTokens ≤ n)) = [] := by
        rw [filter_eq_nil_iff]
        intro key hkey hkeyLe
        exact hle (le_of_lt (lt_of_lt_of_le (hfirst key hkey) (by simpa using hkeyLe)))
      rw [filter_cons_of_neg (by simpa using hle), hnone]
      by_cases hfirstLive : live p first = true
      · rw [takeWhile_cons_of_pos hfirstLive, takeWhile_cons_of_neg (by simpa using hle)]
      · rw [takeWhile_cons_of_neg hfirstLive]
        rfl

/-- The keys up to one that reaches `n` tokens all have a holder. -/
def Reaches (p : Pool Nat) (keys : List BlockKey) (n : Nat) : Prop :=
  ∃ key ∈ keys, n ≤ key.numTokens ∧ ∀ other ∈ keys, other.numTokens ≤ key.numTokens → live p other = true

theorem effective_iff (h : Chained keys) (hn : 0 < n) :
    n ≤ (lookupLongestPrefix p keys none).effectiveTokens ↔ Reaches p keys n := by
  rw [(lookup_eq p keys).2]
  constructor
  · intro hle
    cases hlast : (keys.takeWhile (live p)).getLast? with
    | none =>
      rw [hlast] at hle
      exact absurd hle (not_le.mpr hn)
    | some key =>
      rw [hlast] at hle
      obtain ⟨hmem, hall⟩ := h.mem_takeWhile.mp (mem_of_getLast? hlast)
      exact ⟨key, hmem, hle, hall⟩
  · rintro ⟨key, hmem, hle, hall⟩
    have hkey := h.mem_takeWhile.mpr ⟨hmem, hall⟩
    have hsorted : (keys.takeWhile (live p)).Pairwise fun first second => first.numTokens < second.numTokens :=
      h.increasing.sublist (takeWhile_sublist _)
    obtain ⟨init, last, hsplit⟩ := eq_nil_or_concat' (keys.takeWhile (live p)) |>.resolve_left
      (ne_nil_of_mem hkey)
    rw [hsplit] at hkey hsorted ⊢
    rw [getLast?_concat]
    rcases mem_append.mp hkey with hinit | hlast
    · exact hle.trans (le_of_lt ((pairwise_append.mp hsorted).2.2 key hinit last (by simp)))
    · rw [mem_singleton.mp hlast] at hle
      exact hle

end Lookup

section Sources

/-- The last key that ends within `n` tokens and on page `page`. -/
def lastKey (g : Geometry) (keys : List BlockKey) (n page : Nat) : Option BlockKey :=
  (keys.filter fun key => decide (key.numTokens ≤ n ∧ (key.numTokens - 1) / g.pageSize = page)).getLast?

/-- One page of `pageSources`: the bundle of the last block that ends on it. -/
theorem pageSources_getD {g : Geometry} {blocks : List (BlockKey × Nat)}
    (hpos : ∀ block ∈ blocks, 0 < block.1.numTokens)
    {page : Nat} (hpage : page < g.pages kvLen) : page < (g.pageSources kvLen blocks).length ∧
      (g.pageSources kvLen blocks).getD page 0 =
        ((((blocks.takeWhile fun block => decide (block.1.numTokens ≤ kvLen)).filter fun block =>
          decide ((block.1.numTokens - 1) / g.pageSize = page)).getLast?.map (·.2)).getD 0) := by
  rw [Geometry.pageSources]
  generalize hblocks : (blocks.takeWhile fun block => decide (block.1.numTokens ≤ kvLen)) = l
  have hl : ∀ block ∈ l, 0 < block.1.numTokens := by
    intro block hblock
    rw [← hblocks] at hblock
    exact hpos block (takeWhile_subset _ hblock)
  clear hblocks
  induction l using reverseRecOn with
  | nil =>
    have hin : page < (replicate (g.pages kvLen) 0).length := by simpa using hpage
    refine ⟨hin, ?_⟩
    rw [foldl_nil, getD_eq_getElem _ _ hin]
    simp
  | append_singleton l block ih =>
    obtain ⟨hin, hentry⟩ := ih fun other hother => hl other (mem_append_left _ hother)
    have hsome : ¬block.1.numTokens = 0 := ne_of_gt (hl block (by simp))
    rw [foldl_append, filter_append]
    simp only [foldl_cons, foldl_nil, if_neg hsome]
    refine ⟨by rwa [length_set], ?_⟩
    by_cases hblock : (block.1.numTokens - 1) / g.pageSize = page
    · rw [hblock, getD_set_self hin, filter_singleton]
      simp [hblock]
    · rw [getD_set_of_ne (Ne.symm hblock), hentry, filter_singleton]
      simp [hblock]

theorem Chained.block_pos (h : Chained keys) :
    ∀ block ∈ keys.zip (lookupLongestPrefix p keys none).bundleIds, 0 < block.1.numTokens :=
  fun _ hblock => h.positive _ (of_mem_zip hblock).1

/-- Where the keys reach the length, each page that was found has its last key's holder. -/
theorem arenaSources_getD (h : Chained keys) (hlive : ∀ key ∈ keys, key.numTokens ≤ kvLen → live s.arena key = true)
    {page : Nat} (hpage : page < s.geometry.pages kvLen) (hnull : 0 ∉ arenaSources s kvLen keys) :
    ∃ key, lastKey s.geometry keys kvLen page = some key ∧
      (arenaSources s kvLen keys).getD page 0 ∈ s.arena.holders key.value := by
  have hsources : (arenaSources s kvLen keys).getD page 0 =
      ((lastKey s.geometry keys kvLen page).map (holder s.arena)).getD 0 := by
    have htake := h.takeWhile_le hlive
    rw [arenaSources, (pageSources_getD h.block_pos hpage).2, (lookup_eq _ _).1, zip_resolve, takeWhile_map]
    simp only [comp_def]
    rw [htake, filter_map, filter_filter, lastKey, getLast?_map, Option.map_map]
    simp only [comp_def, Bool.decide_and, Bool.and_comm]
  have hfound : (arenaSources s kvLen keys).getD page 0 ≠ 0 := by
    have hin : page < (arenaSources s kvLen keys).length := (pageSources_getD h.block_pos hpage).1
    rw [getD_eq_getElem _ _ hin]
    exact fun hzero => hnull (hzero ▸ getElem_mem hin)
  rw [hsources] at hfound ⊢
  cases hkey : lastKey s.geometry keys kvLen page with
  | none =>
    rw [hkey] at hfound
    exact absurd rfl hfound
  | some key =>
    have hmem := mem_filter.mp (mem_of_getLast? hkey)
    exact ⟨key, rfl, holder_mem (hlive key hmem.1 (of_decide_eq_true hmem.2).1)⟩

end Sources

section Trace

theorem popMany_length (count : Nat) : Ends (fun ids _ => ids.length = count) (fun _ => True) (popMany count p) := by
  induction count generalizing p with
  | zero => exact rfl
  | succ count ih =>
    apply ends_bind_rest
    exact fun id p₁ => ends_bind ih fun ids _ hids => congrArg (· + 1) hids

theorem allocate_length (count owner : Nat) : Ends (fun ids _ => ids.length = count) (fun _ => True)
    (allocate count owner p) := by
  rw [allocate, bind_of_ok (get_apply p)]
  apply ends_bind_rest
  intro _ p₁
  apply ends_bind_rest
  intro _ p₂
  apply ends_bind_rest
  intro _ p₃
  apply ends_bind (popMany_length count)
  intro ids p₄ hids
  apply ends_bind_rest
  intro _ p₅
  exact ends_bind_rest fun _ _ => hids

/-- A call of the arena leaves the rest of the slots alone. -/
def Behind (s s' : Slots β) : Prop := ∃ p, s' = { s with arena := p }

theorem Behind.refl (s : Slots β) : Behind s s := ⟨s.arena, rfl⟩

theorem Behind.trans {s₁ s₂ : Slots β} (h : Behind s s₁) (h₁ : Behind s₁ s₂) : Behind s s₂ := by
  obtain ⟨p, rfl⟩ := h
  exact h₁

theorem onArena_behind {α : Type} (x : PoolM Nat α) : Ends (fun _ s' => Behind s s') (fun s' => Behind s s')
    (onArena x s) := by
  apply ends_onArena
  cases x s.arena <;> exact ⟨_, rfl⟩

theorem attempt_behind {α : Type} {x : SlotM β α} (h : Ends (fun _ s' => Behind s s') (fun s' => Behind s s') (x s)) :
    Ends (fun (_ : Except SlotError α) s' => Behind s s') (fun _ => False)
      ((attempt x : SlotM β (Except SlotError α)) s) := by
  apply (ends_attempt h).mono
  · rintro r s' (⟨a, rfl, hs'⟩ | ⟨e, rfl, hs'⟩)
    · exact hs'
    · exact hs'
  · exact fun _ => False.elim

theorem allocateTail_behind (tail : Bool) :
    Ends (fun fresh s' => Behind s s' ∧ fresh.isSome = tail) (fun s' => Behind s s') (allocateTail slot tail s) := by
  cases tail with
  | false => exact ⟨Behind.refl s, rfl⟩
  | true =>
    apply ends_bind (P := fun ids s' => Behind s s' ∧ ids.length = 1)
    · apply ends_onArena
      have hlength := allocate_length (p := s.arena) 1 slot
      cases hrun : allocate 1 slot s.arena with
      | ok ids p₁ =>
        rw [hrun] at hlength
        exact ⟨⟨p₁, rfl⟩, hlength⟩
      | error e p₁ => exact ⟨p₁, rfl⟩
    · rintro ids s' ⟨hs', hlength⟩
      obtain ⟨id, rfl⟩ := length_eq_one_iff.mp hlength
      exact ⟨hs', rfl⟩

theorem acquireSources_behind (sources : List Nat) (tail : Bool) (full : Nat) :
    Ends (fun r s' => Behind s s' ∧ ∀ fresh ∈ r, fresh.isSome = tail) (fun _ => False)
      (acquireSources slot sources tail full s) := by
  have hmiss : ∀ {s₁ : Slots β}, Behind s s₁ → Behind s s₁ ∧ ∀ fresh ∈ (none : Option (Option Nat)), fresh.isSome = tail :=
    fun hs₁ => ⟨hs₁, by simp⟩
  apply ends_bind (attempt_behind (onArena_behind _))
  intro revived s₁ hs₁
  cases revived with
  | error e => exact hmiss hs₁
  | ok u =>
    apply ends_bind (ends_attempt (allocateTail_behind tail))
    rintro r s₂ (⟨fresh, rfl, hs₂, hfresh⟩ | ⟨e, rfl, hs₂⟩)
    · apply ends_bind (attempt_behind (onArena_behind _))
      intro consumed s₃ hs₃
      cases consumed with
      | ok u => exact ⟨(hs₁.trans hs₂).trans hs₃, by simpa using hfresh⟩
      | error e =>
        apply ends_bind (attempt_behind (onArena_behind _))
        intro _ s₄ hs₄
        apply ends_bind (attempt_behind (onArena_behind _))
        exact fun _ s₅ hs₅ => hmiss ((((hs₁.trans hs₂).trans hs₃).trans hs₄).trans hs₅)
    · apply ends_bind (attempt_behind (onArena_behind _))
      exact fun _ s₃ hs₃ => hmiss ((hs₁.trans hs₂).trans hs₃)

theorem pageRow_reads : Ends (fun row s' => row = s.host slot ∧ s' = s) (fun _ => True) (pageRow slot s) := by
  rw [pageRow, bind_of_ok (get_apply s)]
  apply ends_raiseIf_bind
  · exact fun _ => trivial
  · exact fun _ => ⟨rfl, rfl⟩

theorem setPageTableRow_sets (row : List Nat) :
    Ends (fun _ s' => row.length = s.geometry.pagesPerSlot ∧ s'.host slot = row ∧ s'.kv = s.kv) (fun _ => True)
      (setPageTableRow slot row s) := by
  rw [setPageTableRow, bind_of_ok (get_apply s)]
  apply ends_bind_rest
  intro _ s₁
  apply ends_raiseIf_bind
  · exact fun _ => trivial
  intro hwidth
  apply ends_bind_rest
  intro _ s₂
  apply ends_bind_rest
  intro _ s₃
  exact ⟨not_not.mp hwidth, update_self .., rfl⟩

/-- What a hit installs, page by page: the source, or a page with its content. -/
structure Installed (s : Slots β) (slot kvLen : Nat) (sources : List Nat) (n : Nat) (ids : List Nat) (s' : Slots β) :
    Prop where
  length_eq : n = kvLen
  pages : ids.length = s.geometry.pages kvLen
  row : ∀ page < ids.length, (s'.host slot).getD page 0 = ids.getD page 0
  content : ∀ page < ids.length,
    ids.getD page 0 = sources.getD page 0 ∨ s'.kv (ids.getD page 0) = s.kv (sources.getD page 0)

theorem ownAll_parts (slot : Nat) (ids : List Nat) (s : Slots β) : (ownAll slot ids s).geometry = s.geometry ∧
    (ownAll slot ids s).host = s.host ∧ (ownAll slot ids s).kv = s.kv := by
  rw [ownAll_frame]
  exact ⟨rfl, rfl, rfl⟩

theorem restoreCachedPagePrefix_installed {sources : List Nat} (hnull : 0 ∉ sources) :
    Ends (fun r s' => r = (0, []) ∨ Installed s slot kvLen sources r.1 r.2 s') (fun _ => True)
      (restoreCachedPagePrefix slot kvLen sources s) := by
  simp only [restoreCachedPagePrefix, bind_of_ok (get_apply s)]
  by_cases hrestorable : restorable s slot kvLen sources
  swap
  · rw [if_pos hrestorable]
    exact .inl rfl
  rw [if_neg (not_not.mpr hrestorable)]
  obtain ⟨⟨hpos, hcapacity, hlength⟩, -⟩ := hrestorable
  apply ends_bind ((acquireSources_behind _ _ _).weaken fun _ => False.elim)
  rintro acquired _ ⟨⟨p, rfl⟩, hfresh⟩
  cases acquired with
  | none => exact .inl rfl
  | some fresh =>
    have htailed := hfresh fresh rfl
    apply ends_bind pageRow_reads
    rintro _ _ ⟨rfl, rfl⟩
    rw [bind_of_ok (modify_apply _ _)]
    cases fresh with
    | none =>
      have htail : ¬kvLen % s.geometry.pageSize ≠ 0 := by simpa using htailed
      simp only [if_neg htail]
      apply ends_bind (setPageTableRow_sets _)
      rintro ⟨⟩ s' ⟨-, hhost, -⟩
      refine .inr ⟨rfl, hlength, fun page hpage => ?_, fun _ _ => .inl rfl⟩
      rw [hhost, getD_append _ _ _ _ hpage]
    | some t =>
      have htail : kvLen % s.geometry.pageSize ≠ 0 := by simpa using htailed
      simp only [if_pos htail, bind_of_ok (modify_apply _ _)]
      have hsome : sources ≠ [] := by
        rintro rfl
        exact ne_of_gt (pages_pos hpos) hlength.symm
      obtain ⟨front, last, rfl⟩ := (eq_nil_or_concat' sources).resolve_left hsome
      have hpages : s.geometry.pages kvLen = front.length + 1 := by rw [← hlength, length_append]; rfl
      have hlast : last ≠ 0 := fun hzero => hnull (by simp [hzero])
      rw [dropLast_concat, getLastD_concat, hpages, Nat.add_sub_cancel]
      apply ends_bind ((onArena_behind _).weaken fun _ _ => trivial)
      rintro ⟨⟩ _ ⟨p₁, rfl⟩
      apply ends_bind (setPageTableRow_sets _)
      rintro ⟨⟩ s' ⟨hwidth, hhost, hkv⟩
      obtain ⟨hgeometry, -, hkept⟩ := ownAll_parts slot front { s with arena := p }
      have hclone : s'.kv = update s.kv t (s.kv last) := by
        rw [hkv]
        change (cloneCowPages _ (own slot t (ownAll slot front { s with arena := p }))).kv = _
        simp only [cloneCowPages, foldl_cons, foldl_nil, if_neg hlast, own, hkept]
      have hlt : front.length < (front ++ (s.host slot).drop front.length).length := by
        have hle := pages_le hcapacity
        have hwide : (front ++ (s.host slot).drop front.length).length = s.geometry.pagesPerSlot := by
          rw [length_set] at hwidth
          rw [hwidth]
          exact congrArg Geometry.pagesPerSlot hgeometry
        omega
      refine .inr ⟨rfl, by simp [hpages], fun page hpage => ?_, fun page hpage => ?_⟩
      · rw [length_append, length_singleton] at hpage
        by_cases hend : page = front.length
        · rw [hend, hhost, getD_set_self hlt]
          simp
        · have hfront : page < front.length := by omega
          rw [hhost, getD_set_of_ne hend, getD_append _ _ _ _ hfront, getD_append _ _ _ _ hfront]
      · rw [length_append, length_singleton] at hpage
        by_cases hend : page = front.length
        · right
          rw [hend, hclone, getD_append_right _ _ _ _ (Nat.le_refl _), getD_append_right _ _ _ _ (Nat.le_refl _),
            Nat.sub_self]
          exact update_self ..
        · left
          have hfront : page < front.length := by omega
          rw [getD_append _ _ _ _ hfront, getD_append _ _ _ _ hfront]

end Trace

section Authentic

/-- What the restored prefix was computed from: published blocks of the chain, up to the length that is reported. -/
structure Authentic (s : Slots β) (slot : Nat) (keys : List BlockKey) (n : Nat) (ids : List Nat) (s' : Slots β) :
    Prop where
  live : ∀ key ∈ keys, key.numTokens ≤ n → s.arena.holders key.value ≠ []
  pages : ∀ page < ids.length, (s'.host slot).getD page 0 = ids.getD page 0 ∧
    ∃ key source, lastKey s.geometry keys n page = some key ∧ source ∈ s.arena.holders key.value ∧
      (ids.getD page 0 = source ∨ s'.kv (ids.getD page 0) = s.kv source)
  effective : n ≤ (lookupLongestPrefix s.arena keys none).effectiveTokens

theorem restorePrefixFromArena_installed :
    Ends (fun r s' => r = (0, []) ∨ 0 ∉ arenaSources s kvLen keys ∧
        Installed s slot kvLen (arenaSources s kvLen keys) r.1 r.2 s') (fun _ => True)
      (restorePrefixFromArena slot kvLen keys s) := by
  rw [restorePrefixFromArena, bind_of_ok (get_apply s)]
  apply ends_raiseIf_bind
  · exact fun _ => trivial
  intro _
  by_cases hlookup : (lookupLongestPrefix s.arena keys none).hit = false ∨
      (lookupLongestPrefix s.arena keys none).bundleIds = []
  · simp only [if_pos hlookup]
    exact .inl rfl
  by_cases hnull : 0 ∈ arenaSources s kvLen keys
  · rw [arenaSources] at hnull
    simp only [if_neg hlookup, if_pos hnull]
    exact .inl rfl
  · have hsources : 0 ∉ s.geometry.pageSources kvLen (keys.zip (lookupLongestPrefix s.arena keys none).bundleIds) := hnull
    simp only [if_neg hlookup, if_neg hsources]
    exact (restoreCachedPagePrefix_installed hnull).mono (fun _ _ h => h.imp id fun hin => ⟨hnull, hin⟩) fun _ => id

/-- A restore is authentic where the chain has holders up to a key that reaches the length asked for. -/
theorem restore_authentic_iff {ids : List Nat} (hkeys : Chained keys)
    (hrun : restorePrefixFromArena slot kvLen keys s = .ok (n, ids) s') (hn : 0 < n) :
    Authentic s slot keys n ids s' ↔ Reaches s.arena keys kvLen := by
  have hinstalled := restorePrefixFromArena_installed.ok_of hrun
  rcases hinstalled with hmiss | ⟨hnull, hinstalled⟩
  · cases hmiss
    exact absurd hn (lt_irrefl 0)
  obtain ⟨hlength, hpages, hrow, hcontent⟩ := hinstalled
  simp only at hlength hpages hrow hcontent
  subst hlength
  constructor
  · intro h
    exact (effective_iff hkeys hn).mp h.effective
  · intro hreaches
    have hlive : ∀ key ∈ keys, key.numTokens ≤ n → live s.arena key = true := by
      obtain ⟨last, hlast, hle, hall⟩ := hreaches
      exact fun key hkey hkeyLe => hall key hkey (hkeyLe.trans hle)
    refine ⟨fun key hkey hle => live_iff.mp (hlive key hkey hle), fun page hpage => ⟨hrow page hpage, ?_⟩,
      (effective_iff hkeys hn).mpr hreaches⟩
    obtain ⟨key, hkey, hholder⟩ := arenaSources_getD hkeys hlive (hpages ▸ hpage) hnull
    exact ⟨key, _, hkey, hholder, hcontent page hpage⟩

/-- Two prompts share their first block; the page of the first prompt is evicted. -/
def siblings : List Op :=
  [.prepareKvWrites 0 0 128, .publishCommittedBlocks 0 128 [⟨1, 64⟩, ⟨2, 128⟩] 64 false, .resetSlot 0,
    .prepareKvWrites 0 0 128, .publishCommittedBlocks 0 128 [⟨1, 64⟩, ⟨3, 128⟩] 64 false,
    .prepareKvWrites 1 0 256, .resetSlot 1]

theorem chained_siblings : Chained [⟨1, 64⟩, ⟨2, 128⟩] ∧ Chained [⟨1, 64⟩, ⟨3, 128⟩] :=
  ⟨⟨by decide, by decide⟩, ⟨by decide, by decide⟩⟩

/-- The second prompt is restored from its own page. -/
theorem restore_authentic_second : ∃ s s', StepRun.run call (start threeBundles fun _ _ => ()) siblings = some s ∧
    restorePrefixFromArena 1 128 [⟨1, 64⟩, ⟨3, 128⟩] s = .ok (128, [2]) s' ∧
    Authentic s 1 [⟨1, 64⟩, ⟨3, 128⟩] 128 [2] s' := by
  have hrestore : ∀ s s' : Slots Unit, restorePrefixFromArena 1 128 [⟨1, 64⟩, ⟨3, 128⟩] s = .ok (128, [2]) s' →
      Reaches s.arena [⟨1, 64⟩, ⟨3, 128⟩] 128 → Authentic s 1 [⟨1, 64⟩, ⟨3, 128⟩] 128 [2] s' :=
    fun _ _ hrun => (restore_authentic_iff chained_siblings.2 hrun (by decide)).mpr
  refine ⟨_, _, rfl, rfl, hrestore _ _ rfl ⟨⟨3, 128⟩, by decide, by decide, by decide⟩⟩

/-- The first prompt is given the page of the second. -/
theorem restore_sibling : ∃ s s', StepRun.run call (start threeBundles fun _ _ => ()) siblings = some s ∧
    restorePrefixFromArena 1 128 [⟨1, 64⟩, ⟨2, 128⟩] s = .ok (128, [2]) s' ∧
    (lookupLongestPrefix s.arena [⟨1, 64⟩, ⟨2, 128⟩] none).effectiveTokens = 64 ∧
    ¬Authentic s 1 [⟨1, 64⟩, ⟨2, 128⟩] 128 [2] s' := by
  refine ⟨_, _, rfl, rfl, by decide, fun h => ?_⟩
  have hle := h.effective
  revert hle
  decide

end Authentic

end SlotPool
