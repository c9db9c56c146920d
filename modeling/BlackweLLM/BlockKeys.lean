import BlackweLLM.PoolHistories
import BlackweLLM.TokenBytes

/-!
# Chained block keys

`_chained_block_keys` of `runtime/backends/qwen36.py` and `hash_block_tokens` of
`runtime/block_pool.py`. A block is hashed behind the hash of the block before it. The
digest is a parameter, and only the messages that are hashed have to be free of
collisions. Equal keys stand for equal tokens, whatever lists and depths they come from.
-/

namespace BlockKeys

open List TokenBytes BundlePool

/-- `blake2b` with 16 bytes of digest, read as a big-endian number, and `PYTHONHASHSEED`. -/
structure Hashing where
  digest : List UInt8 → Nat
  bounded : ∀ message, digest message < 256 ^ 16
  seed : List UInt8

def salt : List UInt8 := "qwen-sm120-runtime/prefix-cache/NONE_HASH".toList.map fun c => UInt8.ofNat c.toNat

def Hashing.noneHash (h : Hashing) : Nat := h.digest (salt ++ h.seed)

/-- `parent_hash or NONE_HASH` -/
def Hashing.parentOr (h : Hashing) : Option Nat → Nat
  | none => h.noneHash
  | some parent => if parent = 0 then h.noneHash else parent

/-- The bytes that `hash_block_tokens` hashes. `extra` is the encoded `repr` of the extra keys, empty without any. -/
def Hashing.blockMessage (h : Hashing) (parent : Option Nat) (tokens : List Int) (extra : List UInt8) :
    Option (List UInt8) :=
  (pack 8 tokens).map fun bytes => bigBytes 16 (h.parentOr parent) ++ bytes ++ extra

def Hashing.hashBlockTokens (h : Hashing) (parent : Option Nat) (tokens : List Int) (extra : List UInt8) : Option Nat :=
  (h.blockMessage parent tokens extra).map h.digest

structure Request where
  tokens : List Int
  kvLen : Nat
  includePartial : Bool

/-- `tokens[start:stop]` -/
def slice (tokens : List Int) (start stop : Nat) : List Int := (tokens.take stop).drop start

def blocks (blockSize : Nat) (r : Request) : List (Nat × List Int) :=
  let fullEnd := r.kvLen / blockSize * blockSize
  ((range (r.kvLen / blockSize)).map fun i =>
    ((i + 1) * blockSize, slice r.tokens (i * blockSize) ((i + 1) * blockSize))) ++
  if r.includePartial = true ∧ fullEnd < r.kvLen then [(r.kvLen, slice r.tokens fullEnd r.kvLen)] else []

/-- The loop, with `parent` as the hash of the block before. -/
def chainFrom (h : Hashing) : Option Nat → List (Nat × List Int) → Option (List BlockKey)
  | _, [] => some []
  | parent, block :: rest =>
    match h.hashBlockTokens parent block.2 [] with
    | none => none
    | some value => (chainFrom h (some value) rest).map (⟨value, block.1⟩ :: ·)

/-- `none` where the call raises: a block size of zero, or a token outside 64 bits. -/
def chainedBlockKeys (h : Hashing) (blockSize : Nat) (r : Request) : Option (List BlockKey) :=
  if blockSize = 0 then none else chainFrom h none (blocks blockSize r)

def messagesFrom (h : Hashing) : Option Nat → List (Nat × List Int) → List (List UInt8)
  | _, [] => []
  | parent, block :: rest =>
    match h.blockMessage parent block.2 [] with
    | none => []
    | some message => message :: messagesFrom h (some (h.digest message)) rest

def Hashed (h : Hashing) (blockSize : Nat) (requests : List Request) (message : List UInt8) : Prop :=
  ∃ r ∈ requests, message ∈ messagesFrom h none (blocks blockSize r)

/-- No two of the messages collide, and none collides with the root, which also stands in for a digest of zero. -/
structure CollisionFree (h : Hashing) (hashed : List UInt8 → Prop) : Prop where
  injective : ∀ m m', hashed m → hashed m' → h.digest m = h.digest m' → m = m'
  rootless : ∀ m, hashed m → h.digest m ≠ h.noneHash ∧ h.digest m ≠ 0

section Chains

variable {h : Hashing} {hashed : List UInt8 → Prop}
variable {list : List (List Int)}

/-- The hash of blocks, the last one first. -/
inductive Chain (h : Hashing) (hashed : List UInt8 → Prop) : List (List Int) → Nat → Prop
  | root {block : List Int} {message : List UInt8} : hashed message → h.blockMessage none block [] = some message →
      Chain h hashed [block] (h.digest message)
  | next {before : List (List Int)} {parent : Nat} {block : List Int} {message : List UInt8} :
      Chain h hashed before parent → hashed message → h.blockMessage (some parent) block [] = some message →
      Chain h hashed (block :: before) (h.digest message)

theorem Chain.lt {value : Nat} (hchain : Chain h hashed list value) : value < 256 ^ 16 := by
  cases hchain with
  | root => exact h.bounded _
  | next => exact h.bounded _

theorem Chain.not_root (hfree : CollisionFree h hashed) {value : Nat}
    (hchain : Chain h hashed list value) : value ≠ h.noneHash ∧ value ≠ 0 := by
  cases hchain with
  | root hmessage => exact hfree.rootless _ hmessage
  | next _ hmessage => exact hfree.rootless _ hmessage

theorem parentOr_lt {parent : Option Nat} (hparent : ∀ value ∈ parent, value < 256 ^ 16) :
    h.parentOr parent < 256 ^ 16 := by
  cases parent with
  | none => exact h.bounded _
  | some value =>
    rw [Hashing.parentOr]
    split_ifs
    · exact h.bounded _
    · exact hparent value rfl

/-- A message determines the parent and the block. -/
theorem blockMessage_inj {parent parent' : Option Nat} {block block' : List Int} {message : List UInt8}
    (hparent : ∀ value ∈ parent, value < 256 ^ 16) (hparent' : ∀ value ∈ parent', value < 256 ^ 16)
    (hmessage : h.blockMessage parent block [] = some message)
    (hmessage' : h.blockMessage parent' block' [] = some message) :
    h.parentOr parent = h.parentOr parent' ∧ block = block' := by
  obtain ⟨bytes, hpack, rfl⟩ := Option.map_eq_some_iff.mp hmessage
  obtain ⟨bytes', hpack', heq⟩ := Option.map_eq_some_iff.mp hmessage'
  rw [append_nil, append_nil] at heq
  obtain ⟨hhead, rfl⟩ := append_inj heq (by simp)
  exact ⟨(bigBytes_inj (parentOr_lt hparent') (parentOr_lt hparent) hhead).symm,
    pack_inj (by omega) hpack hpack'⟩

/-- Blocks with the same hash are the same, at every depth. -/
theorem Chain.unique (hfree : CollisionFree h hashed) {list' : List (List Int)} {value : Nat}
    (hchain : Chain h hashed list value) (hchain' : Chain h hashed list' value) : list = list' := by
  suffices hsame : ∀ value', Chain h hashed list' value' → value = value' → list = list' from
    hsame value hchain' rfl
  clear hchain'
  induction hchain generalizing list' with
  | root hmessage hbytes =>
    rintro value' hchain' heq
    cases hchain' with
    | root hmessage' hbytes' =>
      cases hfree.injective _ _ hmessage hmessage' heq
      rw [(blockMessage_inj (by simp) (by simp) hbytes hbytes').2]
    | next hbefore hmessage' hbytes' =>
      cases hfree.injective _ _ hmessage hmessage' heq
      obtain ⟨hparent, -⟩ := blockMessage_inj (by simp) (by simpa using hbefore.lt) hbytes hbytes'
      obtain ⟨hroot, hzero⟩ := hbefore.not_root hfree
      rw [Hashing.parentOr, Hashing.parentOr, if_neg hzero] at hparent
      exact absurd hparent.symm hroot
  | next hbefore hmessage hbytes ih =>
    rintro value' hchain' heq
    cases hchain' with
    | root hmessage' hbytes' =>
      cases hfree.injective _ _ hmessage hmessage' heq
      obtain ⟨hparent, -⟩ := blockMessage_inj (by simpa using hbefore.lt) (by simp) hbytes hbytes'
      obtain ⟨hroot, hzero⟩ := hbefore.not_root hfree
      rw [Hashing.parentOr, Hashing.parentOr, if_neg hzero] at hparent
      exact absurd hparent hroot
    | next hbefore' hmessage' hbytes' =>
      cases hfree.injective _ _ hmessage hmessage' heq
      obtain ⟨hparent, rfl⟩ :=
        blockMessage_inj (by simpa using hbefore.lt) (by simpa using hbefore'.lt) hbytes hbytes'
      rw [Hashing.parentOr, Hashing.parentOr, if_neg (hbefore.not_root hfree).2,
        if_neg (hbefore'.not_root hfree).2] at hparent
      rw [ih _ hbefore' hparent]

/-- The hash of given blocks. -/
theorem Chain.functional {value value' : Nat} (hchain : Chain h hashed list value)
    (hchain' : Chain h hashed list value') : value = value' := by
  induction hchain generalizing value' with
  | root _ hbytes =>
    cases hchain' with
    | root _ hbytes' => rw [Option.some.inj (hbytes.symm.trans hbytes')]
    | next hbefore => cases hbefore
  | next hbefore _ hbytes ih =>
    cases hchain' with
    | root => cases hbefore
    | next hbefore' _ hbytes' =>
      cases ih hbefore'
      rw [Option.some.inj (hbytes.symm.trans hbytes')]

/-- Where a chain stands when `parent` is the hash of the blocks `done`. -/
def Behind (h : Hashing) (hashed : List UInt8 → Prop) (done : List (List Int)) : Option Nat → Prop
  | none => done = []
  | some parent => Chain h hashed done parent

/-- The loop gives one key a block, each with the hash of the blocks up to it. -/
theorem chainFrom_chain {list : List (Nat × List Int)} {parent : Option Nat} {done : List (List Int)}
    {keys : List BlockKey} (hbehind : Behind h hashed done parent)
    (hhashed : ∀ message ∈ messagesFrom h parent list, hashed message) (hkeys : chainFrom h parent list = some keys) :
    keys.map (·.numTokens) = list.map Prod.fst ∧
      ∀ i key, keys[i]? = some key →
        Chain h hashed (((list.take (i + 1)).map Prod.snd).reverse ++ done) key.value := by
  induction list generalizing parent done keys with
  | nil =>
    cases hkeys
    exact ⟨rfl, by simp⟩
  | cons block list ih =>
    rw [chainFrom, Hashing.hashBlockTokens] at hkeys
    cases hmessage : h.blockMessage parent block.2 [] with
    | none => simp [hmessage] at hkeys
    | some message =>
      simp only [hmessage, Option.map_some] at hkeys
      obtain ⟨rest, hrest, rfl⟩ := Option.map_eq_some_iff.mp hkeys
      rw [messagesFrom, hmessage] at hhashed
      have hfirst : Chain h hashed (block.2 :: done) (h.digest message) := by
        cases parent with
        | none =>
          cases hbehind
          exact .root (hhashed message mem_cons_self) hmessage
        | some parent => exact .next hbehind (hhashed message mem_cons_self) hmessage
      have hbehind' : Behind h hashed (block.2 :: done) (some (h.digest message)) := hfirst
      obtain ⟨hends, hchains⟩ := ih hbehind' (fun m hm => hhashed m (mem_cons_of_mem _ hm)) hrest
      refine ⟨by simp [hends], ?_⟩
      intro i key hi
      cases i with
      | zero =>
        cases hi
        simpa using hfirst
      | succ i => simpa using hchains i key hi

end Chains

section Boundaries

variable {blockSize : Nat} {r : Request}

theorem take_append_slice (tokens : List Int) {start stop : Nat} (h : start ≤ stop) :
    tokens.take start ++ slice tokens start stop = tokens.take stop := by
  have hsplit := take_append_drop start (tokens.take stop)
  rwa [take_take, min_eq_left h] at hsplit

theorem slice_take (tokens : List Int) {start stop n : Nat} (h : stop ≤ n) :
    slice (tokens.take n) start stop = slice tokens start stop := by
  rw [slice, slice, take_take, min_eq_left h]

def fullBlocks (blockSize count : Nat) (tokens : List Int) : List (List Int) :=
  (range count).map fun i => slice tokens (i * blockSize) ((i + 1) * blockSize)

theorem flatten_fullBlocks (blockSize count : Nat) (tokens : List Int) :
    (fullBlocks blockSize count tokens).flatten = tokens.take (count * blockSize) := by
  induction count with
  | zero => simp [fullBlocks]
  | succ count ih =>
    rw [fullBlocks, range_succ, map_append, flatten_append]
    change (fullBlocks blockSize count tokens).flatten ++ _ = _
    rw [ih]
    simpa using take_append_slice tokens (Nat.mul_le_mul_right blockSize (Nat.le_succ count))

/-- How the first `n` tokens are cut: into full blocks, and the rest behind them. -/
def cut (blockSize n : Nat) (tokens : List Int) : List (List Int) :=
  fullBlocks blockSize (n / blockSize) tokens ++
    if n / blockSize * blockSize < n then [slice tokens (n / blockSize * blockSize) n] else []

theorem flatten_cut (blockSize n : Nat) (tokens : List Int) : (cut blockSize n tokens).flatten = tokens.take n := by
  have hle := Nat.div_mul_le_self n blockSize
  rw [cut, flatten_append, flatten_fullBlocks]
  split_ifs with hlt
  · simpa using take_append_slice tokens hle
  · rw [Nat.le_antisymm hle (Nat.le_of_not_lt hlt)]
    simp

/-- The cut looks at the first `n` tokens only. -/
theorem cut_take (blockSize n : Nat) (tokens : List Int) :
    cut blockSize n (tokens.take n) = cut blockSize n tokens := by
  have hfull : fullBlocks blockSize (n / blockSize) (tokens.take n) = fullBlocks blockSize (n / blockSize) tokens := by
    apply map_congr_left
    intro i hi
    apply slice_take
    calc (i + 1) * blockSize ≤ n / blockSize * blockSize := Nat.mul_le_mul_right _ (mem_range.mp hi)
      _ ≤ n := Nat.div_mul_le_self n blockSize
  rw [cut, cut, hfull, slice_take tokens (le_refl n)]

theorem cut_eq_iff {n : Nat} {tokens tokens' : List Int} :
    cut blockSize n tokens = cut blockSize n tokens' ↔ tokens.take n = tokens'.take n := by
  constructor
  · intro h
    rw [← flatten_cut blockSize n tokens, h, flatten_cut]
  · intro h
    rw [← cut_take, h, cut_take]

theorem blocks_cut (hsize : 0 < blockSize) {i n : Nat} (hi : ((blocks blockSize r).map Prod.fst)[i]? = some n) :
    ((blocks blockSize r).take (i + 1)).map Prod.snd = cut blockSize n r.tokens := by
  have hblocks : (blocks blockSize r).map Prod.snd = fullBlocks blockSize (r.kvLen / blockSize) r.tokens ++
      if r.includePartial = true ∧ r.kvLen / blockSize * blockSize < r.kvLen then
        [slice r.tokens (r.kvLen / blockSize * blockSize) r.kvLen] else [] := by
    rw [blocks, fullBlocks]
    split_ifs <;> simp
  have hends : (blocks blockSize r).map Prod.fst = ((range (r.kvLen / blockSize)).map fun i => (i + 1) * blockSize) ++
      if r.includePartial = true ∧ r.kvLen / blockSize * blockSize < r.kvLen then [r.kvLen] else [] := by
    rw [blocks]
    split_ifs <;> simp
  rw [map_take, hblocks]
  rw [hends] at hi
  by_cases hlt : i < r.kvLen / blockSize
  · rw [getElem?_append_left (by simpa using hlt)] at hi
    simp only [getElem?_map, getElem?_range hlt, Option.map_some, Option.some.injEq] at hi
    subst hi
    rw [take_append_of_le_length (by simpa [fullBlocks] using Nat.succ_le_of_lt hlt), cut, Nat.mul_div_cancel _ hsize,
      if_neg (lt_irrefl _), append_nil, fullBlocks, ← map_take, take_range,
      min_eq_left hlt, fullBlocks]
  · rw [getElem?_append_right (by simpa using hlt)] at hi
    split_ifs at hi ⊢ with hpartial
    · obtain ⟨hindex, hn⟩ := List.getElem?_eq_some_iff.mp hi
      simp only [length_map, length_range, length_singleton] at hindex
      simp only [getElem_singleton] at hn
      subst hn
      rw [take_of_length_le (by simp [fullBlocks]; omega), cut, if_pos hpartial.2]
    · simp at hi

theorem blocks_increasing (hsize : 0 < blockSize) : ((blocks blockSize r).map Prod.fst).Pairwise (· < ·) := by
  rw [blocks, map_append, map_map]
  apply pairwise_append.mpr
  refine ⟨?_, by split_ifs <;> simp, ?_⟩
  · apply pairwise_map.mpr
    apply pairwise_lt_range.imp
    intro a b hab
    exact Nat.mul_lt_mul_of_pos_right (Nat.succ_lt_succ hab) hsize
  · intro a ha b hb
    split_ifs at hb with hpartial
    · obtain ⟨i, hi, rfl⟩ := mem_map.mp ha
      rw [map_singleton, mem_singleton] at hb
      calc (i + 1) * blockSize ≤ r.kvLen / blockSize * blockSize := Nat.mul_le_mul_right _ (mem_range.mp hi)
        _ < b := hb ▸ hpartial.2
    · cases hb

end Boundaries

section Prefixes

variable {h : Hashing} {blockSize : Nat} {requests : List Request}
variable {keys : List BlockKey}

section

variable {r : Request} (hr : r ∈ requests) (hkeys : chainedBlockKeys h blockSize r = some keys)
include hr hkeys

/-- What a key stands for: the tokens up to its boundary. -/
theorem chainedBlockKeys_chain : keys.map (·.numTokens) = (blocks blockSize r).map Prod.fst ∧
      (keys.map (·.numTokens)).Pairwise (· < ·) ∧
      ∀ key ∈ keys, Chain h (Hashed h blockSize requests) (cut blockSize key.numTokens r.tokens).reverse key.value := by
  rw [chainedBlockKeys] at hkeys
  split_ifs at hkeys with hsize
  have hstart : Behind h (Hashed h blockSize requests) [] none := rfl
  obtain ⟨hends, hchains⟩ := chainFrom_chain hstart (fun message hmessage => ⟨r, hr, hmessage⟩) hkeys
  refine ⟨hends, hends ▸ blocks_increasing (Nat.pos_of_ne_zero hsize), ?_⟩
  intro key hkey
  obtain ⟨i, hi⟩ := mem_iff_getElem?.mp hkey
  have hboundary : ((blocks blockSize r).map Prod.fst)[i]? = some key.numTokens := by
    rw [← hends, getElem?_map, hi]
    rfl
  rw [← blocks_cut (Nat.pos_of_ne_zero hsize) hboundary]
  simpa using hchains i key hi

/-- Boundaries lie inside the committed length. -/
theorem numTokens_le : ∀ key ∈ keys, key.numTokens ≤ r.kvLen := by
  intro key hkey
  have hmem : key.numTokens ∈ keys.map (·.numTokens) := mem_map_of_mem hkey
  rw [(chainedBlockKeys_chain hr hkeys).1, blocks] at hmem
  simp only [map_append, map_map, mem_append, mem_map, mem_range] at hmem
  cases hmem with
  | inl hfull =>
    obtain ⟨i, hi, hn⟩ := hfull
    rw [← hn]
    exact (Nat.mul_le_mul_right _ hi).trans (Nat.div_mul_le_self r.kvLen blockSize)
  | inr hpartial =>
    split_ifs at hpartial
    · obtain ⟨block, hblock, hn⟩ := hpartial
      rw [mem_singleton.mp hblock] at hn
      exact hn.ge
    · obtain ⟨block, hblock, -⟩ := hpartial
      cases hblock

end

/-- Equal values stand for the same tokens, at whatever boundaries. -/
theorem tokens_of_value (hfree : CollisionFree h (Hashed h blockSize requests)) {a b : Request}
    {keysA keysB : List BlockKey} {keyA keyB : BlockKey} (ha : a ∈ requests) (hb : b ∈ requests)
    (hkeysA : chainedBlockKeys h blockSize a = some keysA) (hkeysB : chainedBlockKeys h blockSize b = some keysB)
    (hkeyA : keyA ∈ keysA) (hkeyB : keyB ∈ keysB) (hvalue : keyA.value = keyB.value) :
    a.tokens.take keyA.numTokens = b.tokens.take keyB.numTokens := by
  have hchainA := (chainedBlockKeys_chain ha hkeysA).2.2 keyA hkeyA
  have hchainB := (chainedBlockKeys_chain hb hkeysB).2.2 keyB hkeyB
  rw [← hvalue] at hchainB
  have hcut := reverse_injective (hchainA.unique hfree hchainB)
  rw [← flatten_cut blockSize, hcut, flatten_cut]

theorem resolve_getElem? {Owner : Type} {p : Pool Owner} {j id : Nat}
    (hid : (resolve p keys)[j]? = some id) : ∃ key, keys[j]? = some key ∧ id ∈ p.holders key.value := by
  induction keys generalizing j with
  | nil => simp [resolve] at hid
  | cons key keys ih =>
    rw [resolve] at hid
    cases hholders : p.holders key.value with
    | nil => simp [hholders] at hid
    | cons first others =>
      rw [hholders] at hid
      cases j with
      | zero =>
        cases hid
        exact ⟨key, rfl, by simp [hholders]⟩
      | succ j => exact ih hid

/-- Every publication of the calls carries a key of some request. -/
def PublishesKeys {Owner : Type} (h : Hashing) (blockSize : Nat) (requests : List Request) (ops : List (Op Owner)) :
    Prop :=
  ∀ op ∈ ops, ∀ entry ∈ publications op, ∃ r ∈ requests, ∃ keys, chainedBlockKeys h blockSize r = some keys ∧
    entry.1 ∈ keys

/-- Block `j` of a hit was published, and whoever has that key has the same tokens up to it. -/
def SharedWithPublisher {Owner : Type} (h : Hashing) (blockSize : Nat) (requests : List Request)
    (ops : List (Op Owner)) (prompt : Request) (key : BlockKey) (id : Nat) : Prop :=
  ∃ op ∈ ops, ∃ published, (published, id) ∈ publications op ∧
    (∃ r ∈ requests, ∃ keys, chainedBlockKeys h blockSize r = some keys ∧ published ∈ keys) ∧
    ∀ r ∈ requests, ∀ keys, chainedBlockKeys h blockSize r = some keys → published ∈ keys →
      r.tokens.take published.numTokens = prompt.tokens.take key.numTokens ∧
      (r.kvLen ≤ r.tokens.length → prompt.kvLen ≤ prompt.tokens.length → published.numTokens = key.numTokens)

/-- A hit ends at the boundary of its last block, and the prompt shares the tokens up to it with who published it. -/
structure SharedHit {Owner : Type} (h : Hashing) (blockSize : Nat) (requests : List Request) (ops : List (Op Owner))
    (prompt : Request) (keys : List BlockKey) (found : PrefixHit) : Prop where
  ends : found.hit = true → keys[found.numBlocks - 1]?.map (·.numTokens) = some found.effectiveTokens
  blocks : found.bundleIds.length = found.numBlocks
  shared : ∀ (j id : Nat), found.bundleIds[j]? = some id → ∃ key, keys[j]? = some key ∧
    key.numTokens ≤ found.effectiveTokens ∧ SharedWithPublisher h blockSize requests ops prompt key id

theorem history_sharedHit {Owner : Type} [DecidableEq Owner] (hfree : CollisionFree h (Hashed h blockSize requests))
    {c : Config} {ops : List (Op Owner)} (hops : PublishesKeys h blockSize requests ops) {prompt : Request}
    (hprompt : prompt ∈ requests) (hkeys : chainedBlockKeys h blockSize prompt = some keys)
    (maxBlocks : Option Nat) :
    SharedHit h blockSize requests ops prompt keys (lookupLongestPrefix (history c ops) keys maxBlocks) := by
  set ids := resolve (history c ops) (keys.take (maxBlocks.getD keys.length)) with hids
  by_cases hnone : ids = []
  · rw [lookupLongestPrefix, ← hids, if_pos hnone]
    exact ⟨by simp, rfl, by simp⟩
  · rw [lookupLongestPrefix, ← hids, if_neg hnone]
    have hfound : ∀ (j id : Nat), ids[j]? = some id → ∃ key : BlockKey,
        keys[j]? = some key ∧ id ∈ (history c ops).holders key.value := by
      intro j id hid
      obtain ⟨key, hkey, hholder⟩ := resolve_getElem? hid
      rw [getElem?_take] at hkey
      split_ifs at hkey
      exact ⟨key, hkey, hholder⟩
    obtain ⟨last, hlast, -⟩ := hfound (ids.length - 1) _
      (getElem?_eq_getElem (Nat.sub_lt (length_pos_iff.mpr hnone) Nat.one_pos))
    refine ⟨fun _ => by simp [hlast], rfl, ?_⟩
    intro j id hid
    obtain ⟨key, hkey, hholder⟩ := hfound j id hid
    have hj := (List.getElem?_eq_some_iff.mp hid).1
    refine ⟨key, hkey, ?_, ?_⟩
    · simp only [hlast, Option.map_some, Option.getD_some]
      obtain ⟨hjKeys, rfl⟩ := List.getElem?_eq_some_iff.mp hkey
      obtain ⟨hlastKeys, rfl⟩ := List.getElem?_eq_some_iff.mp hlast
      rcases eq_or_lt_of_le (Nat.le_sub_one_of_lt hj) with heq | hlt
      · exact le_of_eq (by simp only [heq])
      · have hincreasing := pairwise_map.mp (chainedBlockKeys_chain hprompt hkeys).2.1
        exact (pairwise_iff_getElem.mp hincreasing _ _ hjKeys hlastKeys hlt).le
    · obtain ⟨op, hop, published, hpublished, hvalue⟩ := history_published c ops hholder
      obtain ⟨r, hr, keysR, hkeysR, hmem⟩ := hops op hop _ hpublished
      refine ⟨op, hop, published, hpublished, ⟨r, hr, keysR, hkeysR, hmem⟩, ?_⟩
      intro r hr keysR hkeysR hmem
      have htokens := tokens_of_value hfree hr hprompt hkeysR hkeys hmem (mem_of_getElem? hkey) hvalue
      refine ⟨htokens, ?_⟩
      intro hlenR hlen
      have hlength := congrArg List.length htokens
      have hleR := numTokens_le hr hkeysR _ hmem
      have hle := numTokens_le hprompt hkeys _ (mem_of_getElem? hkey)
      rwa [length_take, length_take, min_eq_left (hleR.trans hlenR), min_eq_left (hle.trans hlen)]
        at hlength

/-- Keys at one boundary are equal exactly when the tokens up to it are, and every block of the deepest hit was
published for tokens that the prompt shares. -/
theorem chainedBlockKeys_injective {Owner : Type} [DecidableEq Owner] (h : Hashing) (blockSize : Nat)
    (requests : List Request) (hfree : CollisionFree h (Hashed h blockSize requests)) :
    (∀ a ∈ requests, ∀ b ∈ requests, ∀ keysA keysB, chainedBlockKeys h blockSize a = some keysA →
      chainedBlockKeys h blockSize b = some keysB → ∀ keyA ∈ keysA, ∀ keyB ∈ keysB, keyA.numTokens = keyB.numTokens →
      (keyA.value = keyB.value ↔ a.tokens.take keyA.numTokens = b.tokens.take keyA.numTokens)) ∧
    (∀ r ∈ requests, ∀ keys, chainedBlockKeys h blockSize r = some keys → (keys.map (·.numTokens)).Pairwise (· < ·)) ∧
    ∀ (c : Config) (ops : List (Op Owner)), PublishesKeys h blockSize requests ops →
      ∀ prompt ∈ requests, ∀ keys, chainedBlockKeys h blockSize prompt = some keys → ∀ maxBlocks,
        SharedHit h blockSize requests ops prompt keys (lookupLongestPrefix (history c ops) keys maxBlocks) := by
  refine ⟨?_, fun r hr keys hkeys => (chainedBlockKeys_chain hr hkeys).2.1, ?_⟩
  · intro a ha b hb keysA keysB hkeysA hkeysB keyA hkeyA keyB hkeyB hboundary
    constructor
    · intro hvalue
      have htokens := tokens_of_value hfree ha hb hkeysA hkeysB hkeyA hkeyB hvalue
      rwa [← hboundary] at htokens
    · intro htokens
      have hchainA := (chainedBlockKeys_chain ha hkeysA).2.2 keyA hkeyA
      have hchainB := (chainedBlockKeys_chain hb hkeysB).2.2 keyB hkeyB
      rw [← hboundary, ← cut_eq_iff.mpr htokens] at hchainB
      exact hchainA.functional hchainB
  · intro c ops hops prompt hprompt keys hkeys maxBlocks
    exact history_sharedHit hfree hops hprompt hkeys maxBlocks

/-- Messages with their digests under the seed `0`. -/
def digests : List (List UInt8 × Nat) :=
  [(salt ++ [48], 0x91ccb38f55c2e1ad1c5f032bcb73078),
    (bigBytes 16 0x91ccb38f55c2e1ad1c5f032bcb73078 ++ littleBytes 8 5 ++ littleBytes 8 6,
      0x5e6d1ae17536141810275af4db48c236),
    (bigBytes 16 0x5e6d1ae17536141810275af4db48c236 ++ littleBytes 8 7, 0x67f3bca1c2ae275aec363a9f26169c3d),
    (bigBytes 16 0x91ccb38f55c2e1ad1c5f032bcb73078 ++ littleBytes 8 5 ++ littleBytes 8 8,
      0xe142954b58552b55c63c68db3821531e)]

def seedZero : Hashing where
  digest message := ((digests.find? (·.1 == message)).map Prod.snd).getD 0
  bounded message := by
    cases hfind : digests.find? (·.1 == message) with
    | none => decide
    | some entry =>
      have hall : ∀ entry ∈ digests, entry.2 < 256 ^ 16 := by decide
      exact hall entry (mem_of_find?_eq_some hfind)
  seed := [48]

/-- Three tokens with a partial tail, and two that leave them at the second. -/
def twoRequests : List Request := [⟨[5, 6, 7], 3, true⟩, ⟨[5, 8], 2, false⟩]

def threeKeys : List BlockKey :=
  [⟨0x5e6d1ae17536141810275af4db48c236, 2⟩, ⟨0x67f3bca1c2ae275aec363a9f26169c3d, 3⟩]

def publishThree : List (Op Nat) := [.allocate 2 0, .cacheFullBlocks threeKeys [1, 2]]

theorem seedZero_collisionFree : CollisionFree seedZero (Hashed seedZero 2 twoRequests) := by
  have hknown : ∀ message, Hashed seedZero 2 twoRequests message →
      message ∈ twoRequests.flatMap fun r => messagesFrom seedZero none (blocks 2 r) :=
    fun message ⟨r, hr, hmessage⟩ => mem_flatMap.mpr ⟨r, hr, hmessage⟩
  constructor
  · have hall : ∀ m ∈ twoRequests.flatMap fun r => messagesFrom seedZero none (blocks 2 r),
        ∀ m' ∈ twoRequests.flatMap fun r => messagesFrom seedZero none (blocks 2 r),
        seedZero.digest m = seedZero.digest m' → m = m' := by decide +kernel
    exact fun m m' hm hm' => hall m (hknown m hm) m' (hknown m' hm')
  · have hall : ∀ m ∈ twoRequests.flatMap fun r => messagesFrom seedZero none (blocks 2 r),
        seedZero.digest m ≠ seedZero.noneHash ∧ seedZero.digest m ≠ 0 := by decide +kernel
    exact fun m hm => hall m (hknown m hm)

/-- The two requests differ at their common boundary, and the first finds what it published. -/
theorem chainedBlockKeys_injective_two :
    (⟨0x5e6d1ae17536141810275af4db48c236, 2⟩ : BlockKey).value ≠ 0xe142954b58552b55c63c68db3821531e ∧
    chainedBlockKeys seedZero 2 ⟨[5, 8], 2, false⟩ = some [⟨0xe142954b58552b55c63c68db3821531e, 2⟩] ∧
    SharedHit seedZero 2 twoRequests publishThree ⟨[5, 6, 7], 3, true⟩ threeKeys
      (lookupLongestPrefix (history twoBundles publishThree) threeKeys none) ∧
    lookupLongestPrefix (history twoBundles publishThree) threeKeys none = ⟨2, 3, [1, 2], true⟩ := by
  have hthree : chainedBlockKeys seedZero 2 ⟨[5, 6, 7], 3, true⟩ = some threeKeys := by decide +kernel
  have htwo : chainedBlockKeys seedZero 2 ⟨[5, 8], 2, false⟩ = some [⟨0xe142954b58552b55c63c68db3821531e, 2⟩] := by
    decide +kernel
  obtain ⟨hinjective, -, hhits⟩ := @chainedBlockKeys_injective Nat _ seedZero 2 twoRequests seedZero_collisionFree
  have hpublish : PublishesKeys seedZero 2 twoRequests publishThree := by
    intro op hop entry hentry
    refine ⟨_, mem_cons_self, threeKeys, hthree, ?_⟩
    have hall : ∀ op ∈ publishThree, ∀ entry ∈ publications op, entry.1 ∈ threeKeys := by decide
    exact hall op hop entry hentry
  refine ⟨?_, htwo, ?_, by decide +kernel⟩
  · rw [Ne, hinjective _ mem_cons_self _ (mem_cons_of_mem _ mem_cons_self) _ _ hthree htwo _
      mem_cons_self _ mem_cons_self rfl]
    decide
  · exact hhits twoBundles publishThree hpublish _ mem_cons_self _ hthree none

end Prefixes

end BlockKeys
