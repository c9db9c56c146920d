import BlackweLLM.PleTable
import Mathlib.Data.List.Induction
import Mathlib.Data.Nat.Init

/-!
# What a gather of the n-gram table returns

Every page that is read begins with the bytes of its file, so that a row cut from one
page or two is the row of the file. The caches hold rows and pages of the file only,
and the map and the key list of the ring stay inverse to each other.
-/

namespace PleTable

open List Function RaisingState

variable {Byte : Type}

/-- The bytes of a page in its file: fewer than a page at the end. -/
def filePage (t : Table Byte) (key : PageKey) : List Byte := ((t.file key.1).drop key.2).take pageSize

def InFile (t : Table Byte) (key : PageKey) : Prop := key.2 < (t.file key.1).length

def tableRow (t : Table Byte) (rowId : Int) : List Byte :=
  ((t.file (t.location rowId).shard).drop (t.location rowId).offset).take t.rowBytes

def InRange (t : Table Byte) (rowId : Int) : Prop := 0 ≤ rowId ∧ rowId < t.totalRows

/-- A page as a reader may return it: what follows the end of the file is anything. -/
structure PageOk (t : Table Byte) (key : PageKey) (page : List Byte) : Prop where
  starts : filePage t key <+: page
  length_le : page.length ≤ pageSize

/-- Pages of the file, with one at least for each of the keys. -/
structure Covers (t : Table Byte) (keys : List PageKey) (pages : List (PageKey × List Byte)) : Prop where
  ok : ∀ e ∈ pages, PageOk t e.1 e.2
  all : ∀ k ∈ keys, k ∈ pages.map Prod.fst

structure Holds (t : Table Byte) (keys : List PageKey) (pages : OrderedDict PageKey (List Byte)) : Prop where
  ok : ∀ k p, pages.get? k = some p → PageOk t k p
  all : ∀ k ∈ keys, (pages.get? k).isSome

variable {t : Table Byte}

theorem pageOk_filePage (key : PageKey) : PageOk t key (filePage t key) :=
  ⟨prefix_refl _, length_take_le _ _⟩

variable {keys : List PageKey}

theorem Covers.holds {pages : List (PageKey × List Byte)} (h : Covers t keys pages) :
    Holds t keys (OrderedDict.empty.update pages) where
  ok k p hget := by
    obtain hmem | ⟨-, hempty⟩ := OrderedDict.get?_of_update hget
    · exact h.ok _ hmem
    · cases hempty
  all k hk := OrderedDict.isSome_update (.inl (h.all k hk))

theorem Covers.mono {keys keys' : List PageKey} {pages : List (PageKey × List Byte)} (h : Covers t keys pages)
    (hkeys : ∀ k ∈ keys', k ∈ keys) : Covers t keys' pages :=
  ⟨h.ok, fun k hk => h.all k (hkeys k hk)⟩

theorem covers_flatten {α : Type} {parts : List α} {keysOf : α → List PageKey}
    {loaded : List (List (PageKey × List Byte))} (h : Forall₂ (fun part => Covers t (keysOf part)) parts loaded) :
    Covers t (parts.flatMap keysOf) loaded.flatten := by
  induction h with
  | nil => exact ⟨by simp, by simp⟩
  | cons hpart _ ih =>
    constructor
    · intro e he
      rw [flatten_cons, mem_append] at he
      exact he.elim (hpart.ok e) (ih.ok e)
    · intro k hk
      rw [flatMap_cons, mem_append] at hk
      rw [flatten_cons, map_append, mem_append]
      exact hk.imp (hpart.all k) (ih.all k)

theorem gives_flatten {α ε : Type} {l : List α} (keysOf : α → List PageKey) {E : ε → Prop}
    {f : α → Except ε (List (PageKey × List Byte))} (h : ∀ part ∈ l, Gives (Covers t (keysOf part)) E (f part)) :
    Gives (Covers t (l.flatMap keysOf)) E ((l.mapM f).map flatten) := by
  have hall := gives_mapM h
  cases hrun : l.mapM f with
  | error e =>
    rw [hrun] at hall
    exact hall
  | ok loaded =>
    rw [hrun] at hall
    exact covers_flatten hall

theorem gives_pages {α ε : Type} {l : List α} {key : α → PageKey} {E : ε → Prop}
    {f : α → Except ε (PageKey × List Byte)} (h : ∀ a ∈ l, Gives (fun e => e.1 = key a ∧ PageOk t e.1 e.2) E (f a)) :
    Gives (Covers t (l.map key)) E (l.mapM f) := by
  refine (gives_mapM h).mono (fun pages hpages => ?_) fun _ he => he
  clear h
  induction hpages with
  | nil => exact ⟨by simp, by simp⟩
  | @cons a e l pages hpage _ ih =>
    constructor
    · intro e' he'
      cases he' with
      | head => exact hpage.2
      | tail _ he' => exact ih.ok e' he'
    · intro k hk
      rw [map_cons, mem_cons] at hk ⊢
      exact hk.imp (fun heq => heq.trans hpage.1.symm) (ih.all k)

section Runs

open Table

def runOffsets (run : Nat × Nat) : List Nat :=
  (range ((run.2 - run.1) / pageSize)).map fun i => run.1 + i * pageSize

theorem runOffsets_pages (start count : Nat) :
    runOffsets (start, start + count * pageSize) = (range count).map fun i => start + i * pageSize := by
  have hcount : (start + count * pageSize - start) / pageSize = count := by
    rw [Nat.add_sub_cancel_left]
    exact Nat.mul_div_cancel count (by decide)
  rw [runOffsets, hcount]

/-- The runs hold the offsets that they were built from, and no others. -/
theorem runs_flatMap (offsets : List Nat) (start count : Nat) :
    (runs start (start + count * pageSize) offsets).flatMap runOffsets =
      ((range count).map fun i => start + i * pageSize) ++ offsets := by
  induction offsets generalizing start count with
  | nil => simp only [runs, flatMap_cons, flatMap_nil, append_nil, runOffsets_pages]
  | cons offset offsets ih =>
    rw [runs]
    by_cases hnext : offset = start + count * pageSize
    · have hgrown := ih start (count + 1)
      rw [if_pos hnext, Nat.add_assoc, ← Nat.succ_mul, hgrown, range_succ, map_append, append_assoc,
        map_singleton, hnext, singleton_append]
    · have hfresh := ih offset 1
      rw [Nat.one_mul] at hfresh
      rw [if_neg hnext, flatMap_cons, runOffsets_pages, hfresh]
      simp

theorem runs_pages (offsets : List Nat) (start count : Nat) :
    ∀ run ∈ runs start (start + count * pageSize) offsets, ∃ n, run.2 = run.1 + n * pageSize := by
  induction offsets generalizing start count with
  | nil =>
    intro run hrun
    rw [runs, mem_singleton] at hrun
    exact ⟨count, by rw [hrun]⟩
  | cons offset offsets ih =>
    intro run hrun
    rw [runs] at hrun
    by_cases hnext : offset = start + count * pageSize
    · rw [if_pos hnext, Nat.add_assoc, ← Nat.succ_mul] at hrun
      exact ih start (count + 1) run hrun
    · rw [if_neg hnext, mem_cons] at hrun
      obtain rfl | hrun := hrun
      · exact ⟨count, rfl⟩
      · exact ih offset 1 run (by rwa [Nat.one_mul])

/-- A page of a run is the page of the file. -/
theorem take_drop_run {file : List Byte} {start count i : Nat} (hi : i < count) :
    (((file.drop start).take (count * pageSize)).drop (i * pageSize)).take pageSize =
      (file.drop (start + i * pageSize)).take pageSize := by
  have hroom : pageSize ≤ count * pageSize - i * pageSize := by
    rw [← Nat.sub_mul]
    exact Nat.le_mul_of_pos_left _ (by omega)
  rw [drop_take, take_take, drop_drop, Nat.min_eq_left hroom]

theorem filePage_eq_nil {key : PageKey} : filePage t key = [] ↔ ¬InFile t key := by
  rw [filePage, take_eq_nil_iff, drop_eq_nil_iff, InFile, Nat.not_lt]
  exact or_iff_right (by decide)

theorem readPageRun_gives (shard start count : Nat) :
    Gives (Covers t ((runOffsets (start, start + count * pageSize)).map (shard, ·)))
      (fun _ => ∃ o ∈ runOffsets (start, start + count * pageSize), ¬InFile t (shard, o))
      (t.readPageRun shard start (start + count * pageSize)) := by
  rw [runOffsets_pages]
  unfold Table.readPageRun
  by_cases hcount : count = 0
  · subst hcount
    rw [Nat.zero_mul, Nat.add_zero, if_pos (Nat.le_refl _)]
    exact ⟨by simp, by simp⟩
  · have hsize : 0 < count * pageSize := Nat.mul_pos (Nat.pos_of_ne_zero hcount) (by decide)
    rw [if_neg (by omega), Nat.add_sub_cancel_left]
    dsimp only
    split
    · rename_i hempty
      rw [List.isEmpty_iff, take_eq_nil_iff, drop_eq_nil_iff] at hempty
      refine ⟨start, mem_map.mpr ⟨0, mem_range.mpr (Nat.pos_of_ne_zero hcount), by simp⟩, ?_⟩
      exact Nat.not_lt.mpr (hempty.resolve_left (Nat.ne_of_gt hsize))
    · have hpages : (count * pageSize + pageSize - 1) / pageSize = count := by
        unfold pageSize
        omega
      rw [hpages, map_map]
      refine gives_pages fun i hi => ?_
      rw [mem_range] at hi
      rw [take_drop_run hi]
      split
      · rename_i hempty
        refine ⟨start + i * pageSize, mem_map.mpr ⟨i, mem_range.mpr hi, rfl⟩, ?_⟩
        exact filePage_eq_nil.mp (List.isEmpty_iff.mp hempty)
      · exact ⟨rfl, pageOk_filePage _⟩

theorem readPageBatch_gives (shard : Nat) (offsets : List Nat) :
    Gives (Covers t (offsets.map (shard, ·))) (fun _ => ∃ o ∈ offsets, ¬InFile t (shard, o))
      (t.readPageBatch shard offsets) := by
  have hmem : ∀ o, o ∈ offsets.eraseDups.mergeSort ↔ o ∈ offsets := fun o => by
    rw [mem_mergeSort, mem_eraseDups]
  unfold Table.readPageBatch
  cases hsorted : offsets.eraseDups.mergeSort with
  | nil =>
    rw [hsorted] at hmem
    refine ⟨by simp, fun k hk => ?_⟩
    obtain ⟨o, ho, rfl⟩ := mem_map.mp hk
    exact absurd ((hmem o).mpr ho) not_mem_nil
  | cons first rest =>
    rw [hsorted] at hmem
    have hone : first + pageSize = first + 1 * pageSize := by rw [Nat.one_mul]
    have hoffsets : (runs first (first + 1 * pageSize) rest).flatMap runOffsets = first :: rest := by
      rw [runs_flatMap]
      simp
    dsimp only
    rw [hone]
    refine (gives_flatten (t := t) (fun run => (runOffsets run).map (shard, ·))
      (E := fun _ => ∃ o ∈ offsets, ¬InFile t (shard, o)) fun run hrun => ?_).mono (fun pages hpages => ?_) fun _ he => he
    · obtain ⟨count, hcount⟩ := runs_pages rest first 1 run hrun
      have hread := readPageRun_gives (t := t) shard run.1 count
      rw [← hcount] at hread
      refine hread.mono (fun _ h => h) fun _ ⟨o, ho, hout⟩ => ⟨o, (hmem o).mp ?_, hout⟩
      rw [← hoffsets]
      exact mem_flatMap.mpr ⟨run, hrun, ho⟩
    · refine hpages.mono fun k hk => ?_
      rw [← map_flatMap, hoffsets]
      obtain ⟨o, ho, rfl⟩ := mem_map.mp hk
      exact mem_map_of_mem ((hmem o).mpr ho)

end Runs

section Pread

open Table

/-- The batches of the shards hold the keys, and no others. -/
structure Batched (keys : List PageKey) (batches : OrderedDict Nat (List Nat)) : Prop where
  sub : ∀ shard offsets, batches.get? shard = some offsets → ∀ o ∈ offsets, (shard, o) ∈ keys
  all : ∀ k ∈ keys, ∃ offsets, batches.get? k.1 = some offsets ∧ k.2 ∈ offsets

theorem batched_shardBatches (keys : List PageKey) : Batched keys (shardBatches keys) := by
  induction keys using reverseRecOn with
  | nil => exact ⟨nofun, by simp⟩
  | append_singleton keys key ih =>
    rw [shardBatches, foldl_append, foldl_cons, foldl_nil, ← shardBatches]
    constructor
    · intro shard offsets hget o ho
      rw [OrderedDict.get?_set] at hget
      rw [mem_append, mem_singleton]
      by_cases hshard : shard = key.1
      · rw [if_pos hshard, Option.some_inj] at hget
        rw [← hget, mem_append, mem_singleton] at ho
        obtain ho | ho := ho
        · cases hbefore : (shardBatches keys).get? key.1 with
          | none =>
            rw [hbefore] at ho
            exact absurd ho not_mem_nil
          | some before =>
            rw [hbefore] at ho
            exact .inl (ih.sub shard before (hshard ▸ hbefore) o ho)
        · exact .inr (Prod.ext hshard ho)
      · rw [if_neg hshard] at hget
        exact .inl (ih.sub shard offsets hget o ho)
    · intro k hk
      rw [mem_append, mem_singleton] at hk
      rw [OrderedDict.get?_set]
      by_cases hshard : k.1 = key.1
      · rw [if_pos hshard]
        refine ⟨_, rfl, mem_append.mpr ?_⟩
        obtain hk | rfl := hk
        · obtain ⟨offsets, hget, hmem⟩ := ih.all k hk
          left
          rw [← hshard, hget]
          exact hmem
        · exact .inr mem_cons_self
      · rw [if_neg hshard]
        exact ih.all k (hk.resolve_right fun heq => hshard (congrArg Prod.fst heq))

theorem loadPagesPread_gives (keys : List PageKey) :
    Gives (Holds t keys) (fun _ => ∃ k ∈ keys, ¬InFile t k) (t.loadPagesPread keys) := by
  have hbatched := batched_shardBatches keys
  have hall := gives_flatten (t := t) (l := (shardBatches keys).entries) (fun batch => batch.2.map (batch.1, ·))
    (E := fun _ : PleError => ∃ k ∈ keys, ¬InFile t k)
    (f := fun batch => t.readPageBatch batch.1 batch.2) fun batch hbatch =>
      (readPageBatch_gives batch.1 batch.2).mono (fun _ h => h) fun _ ⟨o, ho, hout⟩ =>
        ⟨_, hbatched.sub batch.1 batch.2 (OrderedDict.get?_eq_some.mpr hbatch) o ho, hout⟩
  unfold Table.loadPagesPread
  cases hrun : (shardBatches keys).entries.mapM fun batch => t.readPageBatch batch.1 batch.2 with
  | error e =>
    rw [hrun] at hall
    exact hall
  | ok loaded =>
    rw [hrun] at hall
    refine (Covers.mono hall fun k hk => ?_).holds
    obtain ⟨offsets, hget, hmem⟩ := hbatched.all k hk
    exact mem_flatMap.mpr ⟨(k.1, offsets), OrderedDict.get?_eq_some.mp hget, mem_map_of_mem hmem⟩

end Pread

section Uring

/-- A reader answers each key with a page of its file, or raises. -/
def Faithful (t : Table Byte) (reader : Reader Byte) : Prop :=
  ∀ keys, Gives (Forall₂ (PageOk t) keys) (fun _ => True) (reader keys)

/-- The reader raises nothing that `pread` does not stand in for. -/
def Recovers (reader : Reader Byte) : Prop := ∀ keys e, reader keys = .error e → e.shouldFallback = true

theorem readBatch_gives {reader : Reader Byte} (hreader : Faithful t reader) (keys : List PageKey) :
    Gives (Covers t keys) (fun e => Recovers reader → e.shouldFallback = true) (readBatch reader keys) := by
  have hpages := hreader keys
  unfold readBatch
  cases hrun : reader keys with
  | error e => exact fun hrecovers => hrecovers keys e hrun
  | ok pages =>
    rw [hrun] at hpages
    have hlength : keys.length = pages.length := Forall₂.length_eq hpages
    change Gives _ _ (if pages.length < keys.length then _ else if keys.length < pages.length then _ else _)
    rw [if_neg (by omega), if_neg (by omega)]
    constructor
    · intro e he
      exact forall₂_zip hpages he
    · intro k hk
      rwa [List.map_fst_zip (Nat.le_of_eq hlength)]

theorem mem_batches (d : Setup) {k : PageKey} (hk : k ∈ keys) : ∃ batch ∈ batches d keys, k ∈ batch := by
  obtain ⟨j, hj, rfl⟩ := getElem_of_mem hk
  have hpos := d.uringMaxBatch_pos
  have hdiv := Nat.div_add_mod j d.uringMaxBatch
  have hmod := Nat.mod_lt j hpos
  refine ⟨_, mem_map.mpr ⟨j / d.uringMaxBatch, mem_range.mpr ?_, rfl⟩, ?_⟩
  · rw [Nat.div_lt_iff_lt_mul hpos, Nat.div_mul_self_eq_mod_sub_self]
    have hlast := Nat.mod_lt (keys.length + d.uringMaxBatch - 1) hpos
    omega
  · rw [mem_iff_getElem?]
    refine ⟨j % d.uringMaxBatch, ?_⟩
    rw [getElem?_take_of_lt hmod, getElem?_drop, Nat.mul_comm, hdiv]
    exact getElem?_eq_getElem hj

theorem readPartition_gives (d : Setup) {reader : Reader Byte} (hreader : Faithful t reader) (keys : List PageKey) :
    Gives (Covers t keys) (fun e => Recovers reader → e.shouldFallback = true) (readPartition d reader keys) := by
  refine (gives_flatten (t := t) id fun batch _ => readBatch_gives hreader batch).mono (fun pages hpages => ?_)
    fun _ he => he
  refine hpages.mono fun k hk => ?_
  obtain ⟨batch, hbatch, hmem⟩ := mem_batches d hk
  exact mem_flatMap.mpr ⟨batch, hbatch, hmem⟩

theorem mem_interleaved {count : Nat} (hcount : 0 < count) {k : PageKey} (hk : k ∈ keys) :
    ∃ index < count, k ∈ interleaved count index keys := by
  obtain ⟨j, hj⟩ := mem_iff_getElem?.mp hk
  refine ⟨j % count, Nat.mod_lt j hcount, mem_map.mpr ⟨(k, j), ?_, rfl⟩⟩
  rw [mem_filter]
  exact ⟨mk_mem_zipIdx_iff_getElem?.mpr hj, by simp⟩

theorem loadPagesIoUring_gives (d : Setup) {readers : Nat → Reader Byte} (hreaders : ∀ i, Faithful t (readers i))
    {count : Nat} (hcount : count ≠ 0) (keys : List PageKey) :
    Gives (Holds t keys) (fun e => (∀ i, Recovers (readers i)) → e.shouldFallback = true)
      (loadPagesIoUring d readers count keys) := by
  unfold loadPagesIoUring
  rw [if_neg hcount]
  dsimp only
  generalize hparts : (if count = 1 then [(0, keys.eraseDups)]
    else (range count).map fun index => (index, interleaved count index keys.eraseDups)) = parts
  have hmem : ∀ k ∈ keys, ∃ p ∈ parts, k ∈ p.2 := by
    intro k hk
    have hdedup : k ∈ keys.eraseDups := mem_eraseDups.mpr hk
    rw [← hparts]
    by_cases hone : count = 1
    · rw [if_pos hone]
      exact ⟨_, mem_cons_self, hdedup⟩
    · rw [if_neg hone]
      obtain ⟨index, hindex, hk⟩ := mem_interleaved (Nat.pos_of_ne_zero hcount) hdedup
      exact ⟨_, mem_map.mpr ⟨index, mem_range.mpr hindex, rfl⟩, hk⟩
  have hall := gives_flatten (t := t) (l := parts) (fun p => p.2)
    (E := fun e => (∀ i, Recovers (readers i)) → e.shouldFallback = true)
    (f := fun p => readPartition d (readers p.1) p.2) fun p _ =>
      (readPartition_gives d (hreaders p.1) p.2).mono (fun _ h => h) fun _ he hrecovers => he (hrecovers p.1)
  cases hrun : parts.mapM fun p => readPartition d (readers p.1) p.2 with
  | error e =>
    rw [hrun] at hall
    exact hall
  | ok loaded =>
    rw [hrun] at hall
    refine (Covers.mono hall fun k hk => ?_).holds
    obtain ⟨p, hp, hk⟩ := hmem k hk
    exact mem_flatMap.mpr ⟨p, hp, hk⟩

end Uring

section Pages

/-- Nothing but the page cache and the choice of reader changed, and the pages are of the file. -/
structure Paged (t : Table Byte) (s s' : State Byte) : Prop where
  frame : s' = { s with pageCache := s'.pageCache, uringReaders := s'.uringReaders }
  ok : ∀ k p, s'.pageCache.get? k = some p → PageOk t k p

/-- What the pass over the page cache has found for the keys done. -/
structure Looked (t : Table Byte) (done : List PageKey) (l : Lookup Byte) : Prop where
  cache : ∀ k p, l.cache.get? k = some p → PageOk t k p
  pages : ∀ k p, l.pages.get? k = some p → PageOk t k p
  found : ∀ k ∈ done, (l.pages.get? k).isSome ∨ k ∈ l.misses
  misses : ∀ k ∈ l.misses, k ∈ done

theorem looked_lookupPage {done : List PageKey} {l : Lookup Byte} (h : Looked t done l) (key : PageKey) :
    Looked t (done ++ [key]) (lookupPage l key) := by
  unfold lookupPage
  cases hget : l.cache.get? key with
  | none =>
    refine ⟨h.cache, h.pages, fun k hk => ?_, fun k hk => ?_⟩
    · rw [mem_append] at hk ⊢
      exact hk.elim (fun hk => (h.found k hk).imp_right .inl) fun hk => .inr (.inr hk)
    · rw [mem_append] at hk ⊢
      exact hk.imp_left (h.misses k)
  | some page =>
    refine ⟨fun k p hk => ?_, fun k p hk => ?_, fun k hk => ?_, fun k hk => ?_⟩
    · rw [OrderedDict.get?_moveToEnd] at hk
      exact h.cache k p hk
    · rw [OrderedDict.get?_set] at hk
      by_cases hkey : k = key
      · rw [if_pos hkey, Option.some_inj] at hk
        rw [← hk, hkey]
        exact h.cache key page hget
      · rw [if_neg hkey] at hk
        exact h.pages k p hk
    · rw [mem_append, mem_singleton] at hk
      rw [OrderedDict.get?_set]
      by_cases hkey : k = key
      · exact .inl (by rw [if_pos hkey]; rfl)
      · rw [if_neg hkey]
        exact h.found k (hk.resolve_right hkey)
    · exact mem_append_left _ (h.misses k hk)

theorem looked_foldl {cache : OrderedDict PageKey (List Byte)} (hcache : ∀ k p, cache.get? k = some p → PageOk t k p)
    (keys : List PageKey) : Looked t keys (keys.foldl lookupPage ⟨cache, .empty, []⟩) := by
  induction keys using reverseRecOn with
  | nil => exact ⟨hcache, nofun, by simp, by simp⟩
  | append_singleton keys key ih =>
    rw [foldl_append]
    exact looked_lookupPage ih key

theorem pageOk_refreshAll {cap : Nat} {entries : List (PageKey × List Byte)}
    (hentries : ∀ e ∈ entries, PageOk t e.1 e.2)
    {cache : OrderedDict PageKey (List Byte)} (hcache : ∀ k p, cache.get? k = some p → PageOk t k p) :
    ∀ k p, (entries.foldl (fun c e => c.refresh cap e.1 e.2) cache).get? k = some p → PageOk t k p := by
  induction entries generalizing cache with
  | nil => exact hcache
  | cons e entries ih =>
    refine ih (fun e he => hentries e (mem_cons_of_mem _ he)) fun k p hk => ?_
    obtain ⟨rfl, rfl⟩ | hold := OrderedDict.get?_of_refresh hk
    · exact hentries e (by simp)
    · exact hcache k p hold

section

variable (d : Setup) {readers : Nat → Reader Byte} (hreaders : ∀ i, Faithful t (readers i)) {s : State Byte}
include hreaders

theorem loadMisses_ends (misses : List PageKey) (hs : ∀ k p, s.pageCache.get? k = some p → PageOk t k p) :
    Ends (fun loaded s' => Holds t misses loaded ∧ Paged t s s')
      (fun s' => Paged t s s' ∧ ((∀ i, Recovers (readers i)) → ∃ k ∈ misses, ¬InFile t k))
      (loadMisses d t readers misses s) := by
  have hpread : ∀ s', Paged t s s' → Ends (fun loaded s' => Holds t misses loaded ∧ Paged t s s')
      (fun s' => Paged t s s' ∧ ((∀ i, Recovers (readers i)) → ∃ k ∈ misses, ¬InFile t k))
      ((ofExcept (t.loadPagesPread misses) : EStateM PleError (State Byte) _) s') := by
    intro s' hs'
    apply ends_ofExcept
    exact (loadPagesPread_gives misses).mono (fun _ h => ⟨h, hs'⟩) fun _ h => ⟨hs', fun _ => h⟩
  unfold loadMisses
  apply ends_get_bind
  by_cases huse : s.uringReaders ≠ 0 ∧ ¬(d.ioAuto = true ∧ d.largeBatchPreadPages ≤ misses.length)
  · rw [if_pos huse]
    have hload := loadPagesIoUring_gives d hreaders huse.1 misses
    cases hrun : loadPagesIoUring d readers s.uringReaders misses with
    | ok loaded =>
      rw [hrun] at hload
      exact ⟨hload, rfl, hs⟩
    | error e =>
      rw [hrun] at hload
      by_cases hfall : e.shouldFallback = true
      · simp only [if_pos hfall]
        exact ends_set_bind (hpread _ ⟨rfl, hs⟩)
      · simp only [if_neg hfall]
        exact ⟨⟨rfl, hs⟩, fun hrecovers => absurd (hload hrecovers) hfall⟩
  · rw [if_neg huse]
    exact hpread s ⟨rfl, hs⟩

theorem loadPages_ends (keys : List PageKey) (hs : ∀ k p, s.pageCache.get? k = some p → PageOk t k p) :
    Ends (fun pages s' => Holds t keys pages ∧ Paged t s s')
      (fun s' => Paged t s s' ∧ ((∀ i, Recovers (readers i)) → ∃ k ∈ keys, ¬InFile t k))
      (loadPages d t readers keys s) := by
  have hlooked := looked_foldl hs keys.eraseDups
  have hin : ∀ k ∈ keys, k ∈ keys.eraseDups := fun k hk => mem_eraseDups.mpr hk
  unfold loadPages
  apply ends_get_bind
  generalize keys.eraseDups.foldl lookupPage ⟨s.pageCache, .empty, []⟩ = found at hlooked ⊢
  apply ends_set_bind
  have hpaged : Paged t s { s with pageCache := found.cache } := ⟨rfl, hlooked.cache⟩
  by_cases hnone : found.misses = []
  · rw [if_pos hnone]
    refine ⟨⟨hlooked.pages, fun k hk => ?_⟩, hpaged⟩
    exact (hlooked.found k (hin k hk)).resolve_right (by rw [hnone]; exact not_mem_nil)
  · rw [if_neg hnone]
    have hsorted : ∀ k, k ∈ found.misses.mergeSort keyLe ↔ k ∈ found.misses := fun k => mem_mergeSort
    have hload := loadMisses_ends d hreaders (found.misses.mergeSort keyLe) (s := { s with pageCache := found.cache })
      hlooked.cache
    refine ends_bind (hload.mono (fun _ _ h => h) fun s' ⟨hs', hout⟩ => ⟨⟨hs'.frame, hs'.ok⟩, fun hrecovers => ?_⟩) ?_
    · obtain ⟨k, hk, hnot⟩ := hout hrecovers
      exact ⟨k, mem_eraseDups.mp (hlooked.misses k ((hsorted k).mp hk)), hnot⟩
    · intro loaded s₁ ⟨hloaded, hs₁⟩
      have hentries : ∀ e ∈ loaded.entries, PageOk t e.1 e.2 := fun e he =>
        hloaded.ok e.1 e.2 (OrderedDict.get?_eq_some.mpr he)
      refine ⟨⟨fun k p hget => ?_, fun k hk => ?_⟩, ?_⟩
      · obtain hmem | ⟨-, hold⟩ := OrderedDict.get?_of_update hget
        · exact hentries _ hmem
        · exact hlooked.pages k p hold
      · apply OrderedDict.isSome_update
        obtain hfound | hmiss := hlooked.found k (hin k hk)
        · exact .inr hfound
        · obtain ⟨p, hp⟩ := Option.isSome_iff_exists.mp (hloaded.all k ((hsorted k).mpr hmiss))
          exact .inl (mem_map_of_mem (f := Prod.fst) (OrderedDict.get?_eq_some.mp hp))
      · dsimp only
        split
        · exact ⟨hs₁.frame, hs₁.ok⟩
        · refine ⟨?_, pageOk_refreshAll hentries hs₁.ok⟩
          rw [hs₁.frame]

end

end Pages

section Rows

variable {rowId : Int}

theorem location_end (h : InRange t rowId) :
    (t.location rowId).offset + t.rowBytes ≤ (t.file (t.location rowId).shard).length := by
  have hrow : rowId.toNat < t.shardRows * t.shards.length := by
    obtain ⟨hnonneg, hlt⟩ := h
    rw [Table.totalRows] at hlt
    omega
  have hpos : 0 < t.shardRows := Nat.pos_of_mul_pos_right (Nat.zero_lt_of_lt hrow)
  have hshard := Nat.div_lt_of_lt_mul hrow
  have hcovers := t.covers _ (getElem_mem hshard)
  have hlocal : (rowId.toNat % t.shardRows + 1) * t.rowBytes ≤ t.shardRows * t.rowBytes :=
    Nat.mul_le_mul_right _ (Nat.mod_lt _ hpos)
  rw [Nat.succ_mul] at hlocal
  simp only [Table.location, Table.shardDataOffset, Table.file, getElem?_eq_getElem hshard, Option.map_some,
    Option.getD_some]
  omega

/-- Bytes of the file that lie in a page are the bytes of the page. -/
theorem take_drop_page {key : PageKey} {page : List Byte} (hpage : PageOk t key page) {o n : Nat} (hkey : key.2 ≤ o)
    (hroom : o - key.2 + n ≤ pageSize) (hfile : o + n ≤ (t.file key.1).length) :
    o - key.2 + n ≤ page.length ∧ (page.drop (o - key.2)).take n = ((t.file key.1).drop o).take n := by
  have hlength : o - key.2 + n ≤ (filePage t key).length := by
    rw [filePage, length_take, length_drop]
    omega
  obtain ⟨rest, rfl⟩ := hpage.starts
  refine ⟨by rw [length_append]; omega, ?_⟩
  rw [drop_append_of_le_length (by omega), take_append_of_le_length (by rw [length_drop]; omega),
    filePage, drop_take, take_take, drop_drop, Nat.min_eq_left (by omega), Nat.add_sub_of_le hkey]

theorem item_of_holds {K V σ : Type} [DecidableEq K] {d : OrderedDict K V} {k : K} {v : V} (h : d.get? k = some v)
    (s : σ) : (item d k : EStateM PleError σ V) s = .ok v s := by
  simp only [item, h, pure_apply]

/-- A row lies in the page of its first byte, or goes on into the next one. -/
theorem pageKeys_cases (t : Table Byte) (l : Table.Location) :
    (t.pageKeys l = ((l.shard, l.offset / pageSize * pageSize), none) ∧
      l.offset - l.offset / pageSize * pageSize + t.rowBytes ≤ pageSize) ∨
    (t.pageKeys l = ((l.shard, l.offset / pageSize * pageSize),
        some (l.shard, l.offset / pageSize * pageSize + pageSize)) ∧
      l.offset / pageSize * pageSize + pageSize < l.offset + t.rowBytes) := by
  have hpos := t.rowBytes_pos
  have hle := t.rowBytes_le
  unfold Table.pageKeys
  dsimp only
  by_cases hone : l.offset / pageSize * pageSize = (l.offset + t.rowBytes - 1) / pageSize * pageSize
  · left
    rw [if_pos hone]
    unfold pageSize at *
    exact ⟨rfl, by omega⟩
  · right
    have hnext : (l.offset + t.rowBytes - 1) / pageSize * pageSize = l.offset / pageSize * pageSize + pageSize := by
      unfold pageSize at *
      omega
    rw [if_neg hone, hnext]
    unfold pageSize at *
    exact ⟨rfl, by omega⟩

/-- The row is cut from one page or from two. -/
theorem assemble_ok (hrow : InRange t rowId) {pages : OrderedDict PageKey (List Byte)}
    (hpages : Holds t ((t.pageKeys (t.location rowId)).1 :: (t.pageKeys (t.location rowId)).2.toList) pages)
    (s : State Byte) : assemble t pages rowId s = .ok (tableRow t rowId) s := by
  have hend := location_end hrow
  unfold assemble tableRow
  generalize t.location rowId = l at hpages hend ⊢
  obtain ⟨first, hfirst⟩ := Option.isSome_iff_exists.mp (hpages.all _ mem_cons_self)
  have hfirstOk := hpages.ok _ _ hfirst
  have hstart : l.offset / pageSize * pageSize ≤ l.offset := Nat.div_mul_le_self _ _
  obtain ⟨hkeys, hroom⟩ | ⟨hkeys, hcross⟩ := pageKeys_cases t l
  · rw [hkeys] at hfirst hfirstOk ⊢
    obtain ⟨hlength, hbytes⟩ := take_drop_page hfirstOk hstart hroom hend
    dsimp only at hlength hbytes ⊢
    rw [bind_of_ok (item_of_holds hfirst s), bind_of_ok (raiseIf_of_not (Nat.not_lt.mpr hlength) s), hbytes]
    rfl
  · rw [hkeys] at hfirst hfirstOk hpages ⊢
    obtain ⟨second, hsecond⟩ := Option.isSome_iff_exists.mp (hpages.all _ (mem_cons_of_mem _ mem_cons_self))
    have hsecondOk := hpages.ok _ _ hsecond
    have hwithin : l.offset - l.offset / pageSize * pageSize < pageSize := by
      unfold pageSize
      omega
    generalize l.offset / pageSize * pageSize = start at *
    -- the row goes on behind the first page, so that page is whole
    obtain ⟨hlower, hbytes⟩ := take_drop_page (o := l.offset) (n := pageSize - (l.offset - start)) hfirstOk hstart
      (by dsimp only; omega) (by dsimp only; omega)
    have hupper := hfirstOk.length_le
    have hle := t.rowBytes_le
    obtain ⟨hrest, htail⟩ := take_drop_page (o := start + pageSize) (n := t.rowBytes - (pageSize - (l.offset - start)))
      hsecondOk (Nat.le_refl _) (by dsimp only; omega) (by dsimp only; omega)
    dsimp only at hlower hbytes hrest htail ⊢
    rw [Nat.sub_self, Nat.zero_add] at hrest
    rw [Nat.sub_self, drop_zero] at htail
    have hmin : min t.rowBytes (first.length - (l.offset - start)) = pageSize - (l.offset - start) := by omega
    rw [bind_of_ok (item_of_holds hfirst s), bind_of_ok (raiseIf_of_not (by omega) s),
      bind_of_ok (item_of_holds hsecond s), bind_of_ok (raiseIf_of_not (by omega) s), hmin, hbytes, htail]
    have hsplit : t.rowBytes = (pageSize - (l.offset - start)) + (t.rowBytes - (pageSize - (l.offset - start))) := by
      omega
    have hpoint : l.offset + (pageSize - (l.offset - start)) = start + pageSize := by omega
    conv_rhs => rw [hsplit, take_add, drop_drop, hpoint]
    rfl

theorem mem_pageKeys_inFile (hrow : InRange t rowId) :
    ∀ k ∈ (t.pageKeys (t.location rowId)).1 :: (t.pageKeys (t.location rowId)).2.toList, InFile t k := by
  have hend := location_end hrow
  have hpos := t.rowBytes_pos
  have hstart : (t.location rowId).offset / pageSize * pageSize ≤ (t.location rowId).offset := Nat.div_mul_le_self _ _
  intro k hk
  unfold InFile
  obtain ⟨hkeys, -⟩ | ⟨hkeys, hcross⟩ := pageKeys_cases t (t.location rowId)
  · rw [hkeys, Option.toList_none, mem_singleton] at hk
    rw [hk]
    dsimp only
    omega
  · rw [hkeys, Option.toList_some, mem_cons, mem_singleton] at hk
    obtain rfl | rfl := hk
    · dsimp only
      omega
    · dsimp only
      omega

/-- Rows of the table, and all of those that are named. -/
structure RowsOk (t : Table Byte) (rowIds : List Int) (rows : OrderedDict Int (List Byte)) : Prop where
  ok : ∀ rowId row, rows.get? rowId = some row → InRange t rowId ∧ row = tableRow t rowId
  all : ∀ rowId ∈ rowIds, rows.get? rowId = some (tableRow t rowId)

theorem rowsOk_set {rowIds : List Int} {rows : OrderedDict Int (List Byte)} (h : RowsOk t rowIds rows)
    (hrow : InRange t rowId) : RowsOk t (rowIds ++ [rowId]) (rows.set rowId (tableRow t rowId)) := by
  constructor
  · intro k row hget
    rw [OrderedDict.get?_set] at hget
    by_cases hk : k = rowId
    · rw [if_pos hk, Option.some_inj] at hget
      rw [hk]
      exact ⟨hrow, hget.symm⟩
    · rw [if_neg hk] at hget
      exact h.ok k row hget
  · intro k hk
    rw [mem_append, mem_singleton] at hk
    rw [OrderedDict.get?_set]
    by_cases heq : k = rowId
    · rw [if_pos heq, heq]
    · rw [if_neg heq]
      exact h.all k (hk.resolve_right heq)

theorem checkRows_ends (rowIds : List Int) (s : State Byte) :
    Ends (fun _ s' => s' = s ∧ ∀ rowId ∈ rowIds, InRange t rowId)
      (fun s' => s' = s ∧ ∃ rowId ∈ rowIds, ¬InRange t rowId)
      ((forM rowIds fun rowId => raiseIf (rowId < 0 ∨ (t.totalRows : Int) ≤ rowId)
        (PleError.indexError s!"PLE row {rowId} outside table with {t.totalRows} rows")) s) := by
  apply ends_forM (I := fun done s' => s' = s ∧ ∀ rowId ∈ done, InRange t rowId)
  · intro done rowId rest s' hids hdone
    apply ends_raiseIf
    · intro hout
      exact ⟨hdone.1, rowId, by simp [hids], fun hin => by unfold InRange at hin; omega⟩
    · intro hin
      refine ⟨hdone.1, fun k hk => ?_⟩
      rw [mem_append, mem_singleton] at hk
      obtain hk | rfl := hk
      · exact hdone.2 k hk
      · unfold InRange
        omega
  · exact ⟨rfl, by simp⟩

theorem readRows_ends (d : Setup) {readers : Nat → Reader Byte} (hreaders : ∀ i, Faithful t (readers i))
    (rowIds : List Int) {s : State Byte} (hs : ∀ k p, s.pageCache.get? k = some p → PageOk t k p) :
    Ends (fun rows s' => RowsOk t rowIds rows ∧ (∀ rowId ∈ rowIds, InRange t rowId) ∧ Paged t s s')
      (fun s' => Paged t s s' ∧ ((∀ i, Recovers (readers i)) → ∃ rowId ∈ rowIds, ¬InRange t rowId))
      (readRows d t readers rowIds s) := by
  unfold readRows
  refine ends_bind ((checkRows_ends rowIds s).mono (fun _ _ h => h) fun s' ⟨hsame, hout⟩ => ?_) ?_
  · rw [hsame]
    exact ⟨⟨rfl, hs⟩, fun _ => hout⟩
  · rintro _ s₁ ⟨rfl, hrange⟩
    have hload := loadPages_ends d hreaders
      ((rowIds.map fun rowId => t.pageKeys (t.location rowId)).flatMap fun key => key.1 :: key.2.toList) hs
    refine ends_bind (hload.mono (fun _ _ h => h) fun s' ⟨hs', hout⟩ => ⟨hs', fun hrecovers => ?_⟩) ?_
    · obtain ⟨k, hk, hnot⟩ := hout hrecovers
      obtain ⟨key, hkey, hmem⟩ := mem_flatMap.mp hk
      obtain ⟨rowId, hrow, rfl⟩ := mem_map.mp hkey
      exact absurd (mem_pageKeys_inFile (hrange rowId hrow) k hmem) hnot
    · rintro pages s₂ ⟨hpages, hpaged⟩
      apply (ends_foldlM (I := fun done output s' => s' = s₂ ∧ RowsOk t done output) (E := fun _ => False) _ _).mono
      · rintro rows s₃ ⟨rfl, hrows⟩
        exact ⟨hrows, hrange, hpaged⟩
      · exact fun _ h => h.elim
      · rintro done rowId rest output s₃ hids ⟨rfl, hdone⟩
        have hmem : rowId ∈ rowIds := by simp [hids]
        have hkeys : Holds t ((t.pageKeys (t.location rowId)).1 :: (t.pageKeys (t.location rowId)).2.toList) pages :=
          ⟨hpages.ok, fun k hk => hpages.all k (mem_flatMap.mpr ⟨_, mem_map_of_mem hmem, hk⟩)⟩
        rw [bind_of_ok (assemble_ok (hrange rowId hmem) hkeys s₃)]
        exact ⟨rfl, rowsOk_set hdone (hrange rowId hmem)⟩
      · exact ⟨rfl, nofun, by simp⟩

end Rows

section Ring

/-- The map and the keys of the ring are inverse, and its rows are those of the table. -/
structure RingOk (t : Table Byte) (d : Setup) (s : State Byte) : Prop where
  inverse : ∀ rid slot, s.cacheMap rid = some slot ↔ s.cacheKeys[slot]? = some (some rid)
  rows : ∀ rid slot, s.cacheMap rid = some slot → InRange t rid ∧ s.cacheRows[slot]? = some (some (tableRow t rid))
  keys_length : s.cacheKeys.length = d.cacheRows
  rows_length : s.cacheRows.length = d.cacheRows
  next_lt : d.cacheRows ≠ 0 → s.cacheNext < d.cacheRows

/-- The caches hold rows and pages of the table. -/
structure Sound (t : Table Byte) (d : Setup) (s : State Byte) : Prop where
  prefixRows : ∀ rid row, s.prefixRows.get? rid = some row → InRange t rid ∧ row = tableRow t rid
  pages : ∀ k p, s.pageCache.get? k = some p → PageOk t k p
  ring : RingOk t d s

/-- The ring does not read the rest of the state. -/
theorem RingOk.elsewhere {d : Setup} {s : State Byte} (h : RingOk t d s) (rows : OrderedDict Int (List Byte))
    (pages : OrderedDict PageKey (List Byte)) (readers : Nat) :
    RingOk t d { s with prefixRows := rows, pageCache := pages, uringReaders := readers } :=
  ⟨h.inverse, h.rows, h.keys_length, h.rows_length, h.next_lt⟩

theorem sound_start (d : Setup) : Sound t d (start d) where
  prefixRows := nofun
  pages := nofun
  ring := by
    refine ⟨fun rid slot => ?_, nofun, length_replicate, length_replicate, Nat.pos_of_ne_zero⟩
    simp [start, getElem?_replicate]

theorem Paged.sound {d : Setup} {s s' : State Byte} (h : Paged t s s') (hs : Sound t d s) : Sound t d s' := by
  rw [h.frame]
  exact ⟨hs.prefixRows, h.ok, hs.ring.elsewhere _ _ _⟩

theorem Paged.cacheMap {s s' : State Byte} (h : Paged t s s') : s'.cacheMap = s.cacheMap := by
  rw [h.frame]

variable {d : Setup} {s : State Byte}

/-- The map after the key of the slot is dropped: what it says of the other ids, and of no id this slot. -/
theorem recycle_cacheMap {rid k : Int} {row : List Byte} (hring : RingOk t d s) (hk : k ≠ rid) (slot : Nat) :
    (recycle d rid row s).cacheMap k = some slot ↔ slot ≠ s.cacheNext ∧ s.cacheMap k = some slot := by
  simp only [recycle, update_of_ne hk]
  cases hevicted : s.cacheKeys[s.cacheNext]?.join with
  | none =>
    constructor
    · intro hslot
      refine ⟨fun hnext => ?_, hslot⟩
      rw [hring.inverse, hnext] at hslot
      rw [hslot] at hevicted
      cases hevicted
    · exact And.right
  | some evicted =>
    have hkey : s.cacheKeys[s.cacheNext]? = some (some evicted) := Option.join_eq_some_iff.mp hevicted
    have hmap : s.cacheMap evicted = some s.cacheNext := (hring.inverse evicted s.cacheNext).mpr hkey
    dsimp only
    rw [if_pos hmap]
    by_cases hold : k = evicted
    · subst hold
      rw [update_self, hmap]
      constructor
      · exact nofun
      · rintro ⟨hne, heq⟩
        exact absurd (Option.some.inj heq).symm hne
    · rw [update_of_ne hold]
      constructor
      · intro hslot
        refine ⟨fun hnext => hold ?_, hslot⟩
        rw [hring.inverse, hnext, hkey] at hslot
        exact (Option.some.inj (Option.some.inj hslot)).symm
      · exact And.right

theorem recycle_ringOk (hcap : d.cacheRows ≠ 0) (hring : RingOk t d s) {rid : Int} (hfree : s.cacheMap rid = none)
    (hrow : InRange t rid) : RingOk t d (recycle d rid (tableRow t rid) s) := by
  have hnext := hring.next_lt hcap
  have hkeys : s.cacheNext < s.cacheKeys.length := by rwa [hring.keys_length]
  have hrows : s.cacheNext < s.cacheRows.length := by rwa [hring.rows_length]
  have hself : ∀ slot, (recycle d rid (tableRow t rid) s).cacheMap rid = some slot ↔ slot = s.cacheNext := by
    intro slot
    simp only [recycle, update_self, Option.some_inj, eq_comm]
  refine ⟨fun k slot => ?_, fun k slot hk => ?_, ?_, ?_, fun _ => Nat.mod_lt _ (Nat.pos_of_ne_zero hcap)⟩
  · have hset : (recycle d rid (tableRow t rid) s).cacheKeys[slot]? =
        if slot = s.cacheNext then some (some rid) else s.cacheKeys[slot]? := by
      by_cases hslot : slot = s.cacheNext
      · rw [if_pos hslot, hslot]
        exact getElem?_set_self hkeys
      · rw [if_neg hslot]
        exact getElem?_set_ne (Ne.symm hslot)
    rw [hset]
    by_cases hk : k = rid
    · subst hk
      rw [hself]
      by_cases hslot : slot = s.cacheNext
      · rw [if_pos hslot]
        exact iff_of_true hslot rfl
      · rw [if_neg hslot, ← hring.inverse, hfree]
        exact iff_of_false hslot nofun
    · rw [recycle_cacheMap hring hk, hring.inverse]
      by_cases hslot : slot = s.cacheNext
      · rw [if_pos hslot]
        exact iff_of_false (fun h => h.1 hslot) fun h => hk (Option.some.inj (Option.some.inj h)).symm
      · rw [if_neg hslot]
        exact and_iff_right hslot
  · by_cases heq : k = rid
    · subst heq
      rw [(hself slot).mp hk]
      exact ⟨hrow, getElem?_set_self hrows⟩
    · obtain ⟨hne, hold⟩ := (recycle_cacheMap hring heq slot).mp hk
      refine ⟨(hring.rows k slot hold).1, ?_⟩
      rw [← (hring.rows k slot hold).2]
      exact getElem?_set_ne (Ne.symm hne)
  · exact length_set.trans hring.keys_length
  · exact length_set.trans hring.rows_length

theorem recycle_free {rid k : Int} {row : List Byte} (hring : RingOk t d s) (hk : k ≠ rid)
    (hfree : s.cacheMap k = none) :
    (recycle d rid row s).cacheMap k = none := by
  cases hmap : (recycle d rid row s).cacheMap k with
  | none => rfl
  | some slot =>
    have hold := ((recycle_cacheMap hring hk slot).mp hmap).2
    rw [hfree] at hold
    cases hold

end Ring

section Gathers

variable {d : Setup} {s : State Byte}
variable {done ids : List Int} {acc : Resolved Byte}

structure ResolvedOk (t : Table Byte) (done : List Int) (acc : Resolved Byte) (s : State Byte) : Prop where
  rows : ∀ rid row, acc.rows.get? rid = some row → InRange t rid ∧ row = tableRow t rid
  found : ∀ rid ∈ done, (acc.rows.get? rid).isSome ∨ rid ∈ acc.misses
  misses : ∀ rid ∈ acc.misses, rid ∈ done
  free : ∀ rid ∈ acc.misses, d.cacheRows ≠ 0 → s.cacheMap rid = none

theorem resolvedOk_hit (h : ResolvedOk (d := d) t done acc s) {rid : Int}
    {row : List Byte} (hrow : InRange t rid ∧ row = tableRow t rid) :
    ResolvedOk (d := d) t (done ++ [rid]) { acc with rows := acc.rows.set rid row } s := by
  refine ⟨fun k r hget => ?_, fun k hk => ?_, fun k hk => mem_append_left _ (h.misses k hk), h.free⟩
  · rw [OrderedDict.get?_set] at hget
    by_cases hkey : k = rid
    · rw [if_pos hkey, Option.some_inj] at hget
      rw [hkey, ← hget]
      exact hrow
    · rw [if_neg hkey] at hget
      exact h.rows k r hget
  · rw [mem_append, mem_singleton] at hk
    rw [OrderedDict.get?_set]
    by_cases hkey : k = rid
    · exact .inl (by rw [if_pos hkey]; rfl)
    · rw [if_neg hkey]
      exact h.found k (hk.resolve_right hkey)

theorem resolvedOk_miss (h : ResolvedOk (d := d) t done acc s) {rid : Int}
    (hfree : d.cacheRows ≠ 0 → s.cacheMap rid = none) :
    ResolvedOk (d := d) t (done ++ [rid]) { acc with misses := acc.misses ++ [rid] } s := by
  refine ⟨h.rows, fun k hk => ?_, fun k hk => ?_, fun k hk => ?_⟩
  · rw [mem_append] at hk
    rw [mem_append]
    exact hk.elim (fun hk => (h.found k hk).imp_right .inl) fun hk => .inr (.inr hk)
  · rw [mem_append] at hk ⊢
    exact hk.imp_left (h.misses k)
  · rw [mem_append, mem_singleton] at hk
    obtain hk | rfl := hk
    · exact h.free k hk
    · exact hfree

theorem resolve_ends (hs : Sound t d s)
    (h : ResolvedOk (d := d) t done acc s) (rid : Int) :
    Ends (fun acc s' => Sound t d s' ∧ ResolvedOk (d := d) t (done ++ [rid]) acc s') (fun _ => False)
      (resolve d acc rid s) := by
  unfold resolve
  apply ends_get_bind
  cases hprotected : s.prefixRows.get? rid with
  | some row =>
    apply ends_set_bind
    refine ⟨⟨fun k r hget => ?_, hs.pages, hs.ring.elsewhere _ _ _⟩, ?_⟩
    · rw [OrderedDict.get?_moveToEnd] at hget
      exact hs.prefixRows k r hget
    · have hhit := resolvedOk_hit h (hs.prefixRows rid row hprotected)
      exact ⟨hhit.rows, hhit.found, hhit.misses, hhit.free⟩
  | none =>
    by_cases hcap : d.cacheRows = 0
    · simp only [if_pos hcap]
      exact ⟨hs, resolvedOk_miss h fun hne => absurd hcap hne⟩
    · simp only [if_neg hcap]
      cases hmap : s.cacheMap rid with
      | some slot =>
        obtain ⟨hrange, hrow⟩ := hs.ring.rows rid slot hmap
        simp only [hrow, Option.join_some]
        exact ⟨hs, resolvedOk_hit h ⟨hrange, rfl⟩⟩
      | none => exact ⟨hs, resolvedOk_miss h fun _ => hmap⟩

theorem resolveAll_ends (hs : Sound t d s) (ids : List Int) :
    Ends (fun acc s' => Sound t d s' ∧ ResolvedOk (d := d) t ids acc s') (fun _ => False)
      (ids.foldlM (resolve d) ⟨.empty, []⟩ s) := by
  apply ends_foldlM (I := fun done acc s' => Sound t d s' ∧ ResolvedOk (d := d) t done acc s')
  · intro done rid rest acc s' _ hdone
    exact resolve_ends hdone.1 hdone.2 rid
  · exact ⟨hs, nofun, by simp, by simp, by simp⟩

theorem protectRows_ends (r : Request Byte) {loaded : OrderedDict Int (List Byte)}
    (hloaded : RowsOk t ids loaded) (hs : Sound t d s) :
    Ends (fun _ s' => Sound t d s' ∧ s'.cacheMap = s.cacheMap) (fun _ => False) (protectRows d r ids loaded s) := by
  unfold protectRows
  by_cases hhint : ¬(r.cacheHint = true ∧ d.prefixRows ≠ 0)
  · rw [if_neg hhint]
    exact ⟨hs, rfl⟩
  rw [if_pos (not_not.mp hhint)]
  apply ends_forM (I := fun _ s' => Sound t d s' ∧ s'.cacheMap = s.cacheMap)
  · intro done rid rest s' hids hdone
    have hget := hloaded.all rid (by simp [hids])
    rw [bind_of_ok (item_of_holds hget s')]
    refine ⟨⟨fun k row hk => ?_, hdone.1.pages, hdone.1.ring.elsewhere _ _ _⟩, hdone.2⟩
    obtain ⟨rfl, rfl⟩ | hold := OrderedDict.get?_of_refresh hk
    · exact hloaded.ok k _ hget
    · exact hdone.1.prefixRows k row hold
  · exact ⟨hs, rfl⟩

/-- The ring takes the loaded rows, more of them perhaps than it has slots. -/
theorem recycleRows_ends (hnodup : ids.Nodup) {loaded : OrderedDict Int (List Byte)}
    (hloaded : RowsOk t ids loaded) (hs : Sound t d s)
    (hfree : ∀ rid ∈ ids, d.cacheRows ≠ 0 → s.cacheMap rid = none) :
    Ends (fun _ s' => Sound t d s') (fun _ => False) (recycleRows d ids loaded s) := by
  unfold recycleRows
  by_cases hcap : ¬d.cacheRows ≠ 0
  · rw [if_neg hcap]
    exact hs
  rw [not_not] at hcap
  rw [if_pos hcap]
  apply (ends_forM (I := fun done s' => Sound t d s' ∧ ∀ rid ∈ ids, rid ∉ done → s'.cacheMap rid = none)
    (E := fun _ => False) _ _).mono
  · exact fun _ _ h => h.1
  · exact fun _ h => h
  · rintro done rid rest s' hids ⟨hs', hfree'⟩
    have hmem : rid ∈ ids := by simp [hids]
    have hget := hloaded.all rid hmem
    have hrid : s'.cacheMap rid = none := by
      refine hfree' rid hmem fun hdone => ?_
      rw [hids, nodup_append'] at hnodup
      exact hnodup.2.2 hdone mem_cons_self
    rw [bind_of_ok (item_of_holds hget s')]
    refine ⟨⟨hs'.prefixRows, hs'.pages, recycle_ringOk hcap hs'.ring hrid (hloaded.ok rid _ hget).1⟩, ?_⟩
    intro k hk hnot
    rw [mem_append, mem_singleton, not_or] at hnot
    exact recycle_free hs'.ring hnot.2 (hfree' k hk hnot.1)
  · exact ⟨hs, fun rid hrid _ => hfree rid hrid hcap⟩

theorem nodup_eraseDups {α : Type} [DecidableEq α] (xs : List α) : xs.eraseDups.Nodup := by
  induction hn : xs.length using Nat.strongRecOn generalizing xs with
  | ind n ih =>
    cases xs with
    | nil => exact nodup_nil
    | cons x xs =>
      rw [eraseDups_cons, nodup_cons]
      constructor
      · rw [mem_eraseDups, mem_filter]
        simp
      · have hlength := length_filter_le (fun b => !b == x) xs
        rw [length_cons] at hn
        exact ih _ (by omega) _ rfl

theorem fetch_ends {r : Request Byte} (hreaders : ∀ i, Faithful t (r.readers i))
    (hs : Sound t d s) (hacc : ResolvedOk (d := d) t ids acc s) :
    Ends (fun rows s' => Sound t d s' ∧ RowsOk t ids rows)
      (fun s' => Sound t d s' ∧ ((∀ i, Recovers (r.readers i)) → ∃ rid ∈ ids, ¬InRange t rid)) (fetch d t r acc s) := by
  have hall : ∀ rows : OrderedDict Int (List Byte),
      (∀ rid row, rows.get? rid = some row → InRange t rid ∧ row = tableRow t rid) →
        (∀ rid ∈ ids, (rows.get? rid).isSome) → RowsOk t ids rows := by
    refine fun rows hok hsome => ⟨hok, fun rid hrid => ?_⟩
    obtain ⟨row, hrow⟩ := Option.isSome_iff_exists.mp (hsome rid hrid)
    rw [hrow, (hok rid row hrow).2]
  have hmisses : ∀ rid, rid ∈ acc.misses.eraseDups ↔ rid ∈ acc.misses := fun rid => mem_eraseDups
  unfold fetch
  by_cases hnone : acc.misses.eraseDups = []
  · simp only [if_pos hnone]
    refine ⟨hs, hall acc.rows hacc.rows fun rid hrid => (hacc.found rid hrid).resolve_right fun hmiss => ?_⟩
    rw [← hmisses, hnone] at hmiss
    exact not_mem_nil hmiss
  · simp only [if_neg hnone]
    have hread := readRows_ends d hreaders acc.misses.eraseDups hs.pages
    refine ends_bind (hread.mono (fun _ _ h => h) fun s' ⟨hpaged, hout⟩ => ⟨hpaged.sound hs, fun hrecovers => ?_⟩) ?_
    · obtain ⟨rid, hrid, hnot⟩ := hout hrecovers
      exact ⟨rid, hacc.misses rid ((hmisses rid).mp hrid), hnot⟩
    · rintro loaded s₁ ⟨hloaded, -, hpaged⟩
      have hsound := hpaged.sound hs
      refine ends_bind ((protectRows_ends r hloaded hsound).mono (fun _ _ h => h) fun _ h => h.elim) ?_
      rintro _ s₂ ⟨hs₂, hmap⟩
      have hfree : ∀ rid ∈ acc.misses.eraseDups, d.cacheRows ≠ 0 → s₂.cacheMap rid = none := by
        intro rid hrid hcap
        rw [hmap, hpaged.cacheMap]
        exact hacc.free rid ((hmisses rid).mp hrid) hcap
      refine ends_bind ((recycleRows_ends (nodup_eraseDups _) hloaded hs₂ hfree).mono (fun _ _ h => h) fun _ h => h.elim)
        fun _ s₃ hs₃ => ?_
      refine ⟨hs₃, hall _ (fun rid row hget => ?_) fun rid hrid => ?_⟩
      · obtain hmem | ⟨-, hold⟩ := OrderedDict.get?_of_update hget
        · exact hloaded.ok rid row (OrderedDict.get?_eq_some.mpr hmem)
        · exact hacc.rows rid row hold
      · apply OrderedDict.isSome_update
        obtain hfound | hmiss := hacc.found rid hrid
        · exact .inr hfound
        · left
          have hget := hloaded.all rid ((hmisses rid).mpr hmiss)
          exact mem_map_of_mem (f := Prod.fst) (OrderedDict.get?_eq_some.mp hget)

theorem joinRows_ends {rows : OrderedDict Int (List Byte)} (hrows : RowsOk t ids rows) (s : State Byte) :
    Ends (fun raw s' => s' = s ∧ raw = ids.flatMap (tableRow t)) (fun _ => False)
      ((ids.foldlM (fun raw rid => do return raw ++ (← item rows rid)) [] :
        EStateM PleError (State Byte) (List Byte)) s) := by
  apply ends_foldlM (I := fun done raw s' => s' = s ∧ raw = done.flatMap (tableRow t))
  · rintro done rid rest raw s' hids ⟨rfl, rfl⟩
    rw [bind_of_ok (item_of_holds (hrows.all rid (by simp [hids])) s')]
    exact ⟨rfl, by simp⟩
  · exact ⟨rfl, rfl⟩

theorem getElem?_flatMap_uniform {α β : Type} {f : α → List β} {n : Nat} (hf : ∀ a, (f a).length = n) (xs : List α)
    (k : Nat) (hk : k < n * xs.length) : (xs.flatMap f)[k]? = xs[k / n]?.bind fun a => (f a)[k % n]? := by
  induction xs generalizing k with
  | nil => simp at hk
  | cons x xs ih =>
    have hn : 0 < n := Nat.pos_of_mul_pos_right (Nat.zero_lt_of_lt hk)
    rw [flatMap_cons]
    by_cases hfirst : k < n
    · rw [getElem?_append_left (by rwa [hf]), Nat.div_eq_of_lt hfirst, Nat.mod_eq_of_lt hfirst]
      rfl
    · rw [Nat.not_lt] at hfirst
      rw [length_cons, Nat.mul_succ] at hk
      rw [getElem?_append_right (by rwa [hf]), hf, ih (k - n) (by omega), Nat.div_eq_sub_div hn hfirst,
        getElem?_cons_succ, ← Nat.mod_eq_sub_mod hfirst]

theorem residentRow_ok {rid : Int} (h : InRange t rid) : residentRow t rid = .ok (tableRow t rid) := by
  obtain ⟨hnonneg, hlt⟩ := h
  have hrow : rid.toNat < t.shardRows * t.shards.length := by
    rw [Table.totalRows] at hlt
    omega
  have hpos : 0 < t.shardRows := Nat.pos_of_mul_pos_right (Nat.zero_lt_of_lt hrow)
  have hshard := Nat.div_lt_of_lt_mul hrow
  have hbytes : (residentRows t)[rid.toNat]? = some (tableRow t rid) := by
    rw [residentRows, getElem?_flatMap_uniform (n := t.shardRows) (fun _ => by simp) _ _ hrow,
      getElem?_eq_getElem hshard, Option.bind_some, getElem?_map,
      getElem?_range (Nat.mod_lt _ hpos), Option.map_some]
    simp only [tableRow, Table.location, Table.shardDataOffset, Table.file, getElem?_eq_getElem hshard,
      Option.map_some, Option.getD_some]
  unfold residentRow
  rw [if_neg (by omega), if_neg (by omega), hbytes, Option.getD_some]

theorem residentRows_gives (ids : List Int) :
    Gives (fun rows => (∀ rid ∈ ids, InRange t rid) → rows.flatten = ids.flatMap (tableRow t))
      (fun _ => ∃ rid ∈ ids, ¬InRange t rid) (ids.mapM (residentRow t)) := by
  have hall : Gives (Forall₂ (fun rid row => InRange t rid → row = tableRow t rid) ids)
      (fun _ => ∃ rid ∈ ids, ¬InRange t rid) (ids.mapM (residentRow t)) := by
    refine gives_mapM fun rid hrid => ?_
    by_cases hrange : InRange t rid
    · rw [residentRow_ok hrange]
      exact fun _ => rfl
    · cases residentRow t rid with
      | ok row => exact fun h => absurd h hrange
      | error e => exact ⟨rid, hrid, hrange⟩
  refine hall.mono (fun rows hrows => ?_) fun _ h => h
  clear hall
  induction hrows with
  | nil => exact fun _ => rfl
  | cons hrow _ ih =>
    intro hrange
    rw [flatten_cons, flatMap_cons, hrow (hrange _ mem_cons_self),
      ih fun rid hrid => hrange rid (mem_cons_of_mem _ hrid)]

/-- What a gather ends in: the bytes of the table, or an error; the caches stay those of the table. -/
theorem gather_ends {r : Request Byte} (hreaders : ∀ i, Faithful t (r.readers i)) (hs : Sound t d s) :
    Ends (fun out s' => Sound t d s' ∧ ((∀ rid ∈ r.ids.flatten, InRange t rid) →
        out = (r.ids.flatten.flatMap (tableRow t), r.ids.length, d.ngramHeads, d.headDim)) ∧
        (d.resident = false → ∀ rid ∈ r.ids.flatten, InRange t rid))
      (fun s' => Sound t d s' ∧ ((∀ i, Recovers (r.readers i)) → ∃ rid ∈ r.ids.flatten, ¬InRange t rid))
      (gather d t r s) := by
  unfold gather
  by_cases hresident : d.resident = true
  · simp only [if_pos hresident]
    apply ends_bind (P := fun rows s' =>
      s' = s ∧ ((∀ rid ∈ r.ids.flatten, InRange t rid) → rows.flatten = r.ids.flatten.flatMap (tableRow t)))
    · apply ends_ofExcept
      exact (residentRows_gives r.ids.flatten).mono (fun _ h => ⟨rfl, h⟩) fun _ h => ⟨hs, fun _ => h⟩
    · rintro rows s' ⟨rfl, hrows⟩
      exact ⟨hs, fun hrange => by rw [hrows hrange], fun hfalse => by rw [hfalse] at hresident; cases hresident⟩
  · simp only [if_neg hresident]
    refine ends_bind ((resolveAll_ends hs r.ids.flatten).mono (fun _ _ h => h) fun _ h => h.elim) ?_
    rintro acc s₁ ⟨hs₁, hacc⟩
    refine ends_bind (fetch_ends hreaders hs₁ hacc) ?_
    rintro rows s₂ ⟨hs₂, hrows⟩
    refine ends_bind ((joinRows_ends hrows s₂).mono (fun _ _ h => h) fun _ h => h.elim) ?_
    rintro raw s₃ ⟨rfl, rfl⟩
    exact ⟨hs₂, fun _ => rfl, fun _ rid hrid => (hrows.ok rid _ (hrows.all rid hrid)).1⟩

theorem sound_after {history : List (Request Byte)} (h : ∀ r ∈ history, ∀ i, Faithful t (r.readers i)) :
    Sound t d (after d t history) := by
  induction history using reverseRecOn with
  | nil => exact sound_start d
  | append_singleton history r ih =>
    have hbefore := ih fun r hr => h r (mem_append_left _ hr)
    rw [after, foldl_append]
    exact (gather_ends (h r (by simp)) hbefore).endState (fun _ _ h => h.1) fun _ h => h.1

/-- After any gathers, a gather returns exactly the bytes of its rows, whatever the caches hold, and raises only
for an id outside the table or an error of the readers. -/
theorem gathers_transparent (d : Setup) (t : Table Byte) (history : List (Request Byte))
    (hhistory : ∀ r ∈ history, ∀ i, Faithful t (r.readers i)) (r : Request Byte)
    (hreaders : ∀ i, Faithful t (r.readers i)) :
    (∀ rid slot, (endState (gather d t r (after d t history))).cacheMap rid = some slot ↔
        (endState (gather d t r (after d t history))).cacheKeys[slot]? = some (some rid)) ∧
      (∀ out s', gather d t r (after d t history) = .ok out s' →
        ((∀ rid ∈ r.ids.flatten, InRange t rid) →
          out = (r.ids.flatten.flatMap (tableRow t), r.ids.length, d.ngramHeads, d.headDim)) ∧
        (d.resident = false → ∀ rid ∈ r.ids.flatten, InRange t rid)) ∧
      ((∀ rid ∈ r.ids.flatten, InRange t rid) → (∀ i, Recovers (r.readers i)) →
        ∃ s', gather d t r (after d t history) =
          .ok (r.ids.flatten.flatMap (tableRow t), r.ids.length, d.ngramHeads, d.headDim) s') := by
  have hends := gather_ends hreaders (sound_after (d := d) hhistory)
  refine ⟨?_, fun out s' hok => ?_, fun hrange hrecovers => ?_⟩
  · exact hends.endState (fun _ _ h => h.1.ring.inverse) fun _ h => h.1.ring.inverse
  · exact (hends.ok_of hok).2
  · cases hrun : gather d t r (after d t history) with
    | ok out s' => exact ⟨s', by rw [(hends.ok_of hrun).2.1 hrange]⟩
    | error e s' =>
      obtain ⟨rid, hrid, hnot⟩ := (hends.error_of hrun).2 hrecovers
      exact absurd (hrange rid hrid) hnot

theorem faithful_file (t : Table Byte) : Faithful t fun keys => .ok (keys.map (filePage t)) := by
  intro keys
  simp only [Gives, forall₂_map_right_iff, forall₂_same]
  exact fun key _ => pageOk_filePage key

def smallTable : Table Nat where
  shards := [⟨[9, 10, 11, 12, 13], 1⟩, ⟨[14, 15, 16, 17], 0⟩]
  shardRows := 2
  rowBytes := 2
  rowBytes_pos := by decide
  rowBytes_le := by decide
  covers := by decide

def smallSetup : Setup := ⟨1, 1, 1, true, 8192, 2, 1, by decide, false, 2, 2⟩

def smallRequest (ids : List (List Int)) : Request Nat :=
  ⟨ids, true, fun _ keys => .ok (keys.map (filePage smallTable))⟩

/-- A ring of one row: the second gather finds the last row of the first. -/
theorem gathers_transparent_small :
    (∀ r ∈ [smallRequest [[0, 3, 0]]], ∀ i, Faithful smallTable (r.readers i)) ∧
      ∃ s', gather smallSetup smallTable (smallRequest [[3, 1], [0, 3]])
        (after smallSetup smallTable [smallRequest [[0, 3, 0]]]) =
      .ok ([16, 17, 12, 13, 10, 11, 16, 17], 2, 2, 2) s' := by
  have hfaithful : ∀ r ∈ [smallRequest [[0, 3, 0]]], ∀ i, Faithful smallTable (r.readers i) := by
    intro r hr i
    rw [mem_singleton.mp hr]
    exact faithful_file smallTable
  refine ⟨hfaithful, ?_⟩
  exact (gathers_transparent smallSetup smallTable [smallRequest [[0, 3, 0]]] hfaithful
    (smallRequest [[3, 1], [0, 3]]) fun _ => faithful_file smallTable).2.2 (by unfold InRange; decide) nofun

end Gathers

end PleTable
