import Mathlib.Data.List.Induction
import MoeInfinity.Lib.Runs
import MoeInfinity.Python

/-! # The prefix cache (`serving/prefix_cache.py`)

The cache maps the hash of a block of tokens to the id of a KV block. A lookup goes through the full
blocks of a prompt and takes the ids of those it finds, up to the first it does not find.

A block is looked up by its own tokens only, so the id found may come from a prompt that has the
same block behind other tokens (`lookup_otherPrefix`). If the blocks of the query that the cache
holds stand in the inserted prompts at the same place behind the same tokens, then what is found was
inserted for the prefix of the query (`lookup_samePrefix`).

The hexadecimal digest `sha256` is a parameter, a string as the list of its characters; nothing
depends on it. -/

namespace MoeInfinity.Serving.PrefixCaching

open MoeInfinity.Python MoeInfinity.Lib.Imperative MoeInfinity.Lib.Runs

/-! ### State -/

structure CacheEntry where
  blockId : ℕ
  tokenBlock : List ℤ
deriving DecidableEq, Repr

/-- The entries are in the order of their last use, oldest first. -/
structure PrefixCache where
  blockSize : ℕ
  maxEntries : ℕ
  entries : List (List Char × CacheEntry)
  hits : ℕ
  misses : ℕ
  blockSize_pos : 0 < blockSize
  maxEntries_pos : 0 < maxEntries

def new (blockSize maxEntries : ℤ) : Except PyError PrefixCache :=
  if h : blockSize ≤ 0 then .error (.valueError s!"block_size must be > 0, got {blockSize}")
  else if h' : maxEntries ≤ 0 then
    .error (.valueError s!"max_entries must be > 0, got {maxEntries}")
  else .ok ⟨blockSize.toNat, maxEntries.toNat, [], 0, 0, by omega, by omega⟩

/-! ### Ordered dictionaries -/

section OrderedDict

variable {α : Type}

/-- `d.get(key)`. -/
def getItem (key : List Char) (d : List (List Char × α)) : Option α :=
  (d.find? (·.1 = key)).map (·.2)

/-- `d[key] = value`: a known key keeps its place. -/
def setItem (key : List Char) (value : α) (d : List (List Char × α)) : List (List Char × α) :=
  if (getItem key d).isSome then d.map fun item => if item.1 = key then (key, value) else item
  else d ++ [(key, value)]

/-- `d.move_to_end(key)`. -/
def moveToEnd (key : List Char) (d : List (List Char × α)) : List (List Char × α) :=
  d.filter (·.1 ≠ key) ++ d.filter (·.1 = key)

theorem mem_of_getItem {key : List Char} {value : α} {d : List (List Char × α)}
    (h : getItem key d = some value) :
    (key, value) ∈ d := by
  unfold getItem at h
  obtain ⟨item, hitem, rfl⟩ := Option.map_eq_some_iff.mp h
  have hkey : item.1 = key := by simpa using List.find?_some hitem
  rw [← hkey]
  exact List.mem_of_find?_eq_some hitem

theorem mem_moveToEnd {key : List Char} {item : List Char × α} {d : List (List Char × α)}
    (h : item ∈ moveToEnd key d) : item ∈ d := by
  unfold moveToEnd at h
  rcases List.mem_append.mp h with h | h <;> exact (List.mem_filter.mp h).1

theorem getItem_moveToEnd (key key' : List Char) (d : List (List Char × α)) :
    getItem key (moveToEnd key' d) = getItem key d := by
  have hnone : ∀ p : List Char × α → Bool, (∀ item, p item = true → item.1 ≠ key) →
      (d.filter p).find? (·.1 = key) = none := by
    intro p hp
    rw [List.find?_eq_none]
    intro item hitem
    simpa using hp item (List.mem_filter.mp hitem).2
  have hsame : ∀ p : List Char × α → Bool, (∀ item, item.1 = key → p item = true) →
      (d.filter p).find? (·.1 = key) = d.find? (·.1 = key) := by
    intro p hp
    rw [List.find?_filter]
    congr 1
    funext item
    by_cases hi : item.1 = key
    · simp [hi, hp item hi]
    · simp [hi]
  unfold getItem moveToEnd
  rw [List.find?_append]
  by_cases h : key = key'
  · rw [hnone _ fun item hi => by rw [h]; simpa using hi, hsame _ fun item hi => by simp [hi, h],
      Option.none_or]
  · rw [hsame _ fun item hi => by simp [hi, h],
      hnone _ fun item hi h0 => h (h0.symm.trans (by simpa using hi)), Option.or_none]

theorem mem_setItem {key : List Char} {value : α} {item : List Char × α} {d : List (List Char × α)}
    (h : item ∈ setItem key value d) : item ∈ d ∨ item = (key, value) := by
  unfold setItem at h
  split_ifs at h
  · obtain ⟨old, hold, hitem⟩ := List.mem_map.mp h
    split_ifs at hitem
    · exact Or.inr hitem.symm
    · exact Or.inl (hitem ▸ hold)
  · rcases List.mem_append.mp h with h | h
    · exact Or.inl h
    · exact Or.inr (List.mem_singleton.mp h)

end OrderedDict

/-! ### The operations -/

/-- Block `i` of a list of tokens. -/
def tokenBlock (blockSize : ℕ) (tokenIds : List ℤ) (i : ℕ) : List ℤ :=
  (tokenIds.drop (i * blockSize)).take blockSize

/-- `_iter_full_blocks`: the blocks at the starts `range(0, len(token_ids) - block_size + 1,
block_size)`. -/
def iterFullBlocks (blockSize : ℕ) (tokenIds : List ℤ) : List (List ℤ) :=
  (List.range (ceilDiv (tokenIds.length + 1 - blockSize) blockSize)).map
  (tokenBlock blockSize tokenIds)

section Operations

variable (sha256 : List ℕ → List Char)

def hashTokenBlock (tokenIds : List ℤ) : List Char :=
  (sha256 (tokenIds.map fun tokenId => (tokenId % 256).toNat)).take 16

def lookupLoop : List (List ℤ) → List ℕ → Prog PyError PrefixCache (List ℕ)
  | [], matchedBlockIds => pure matchedBlockIds
  | blockTokens :: blocks, matchedBlockIds => do
    let c ← current
    match getItem (hashTokenBlock sha256 blockTokens) c.entries with
    | none => return matchedBlockIds
    | some cacheEntry =>
      if cacheEntry.tokenBlock ≠ blockTokens then return matchedBlockIds
      else
        update fun c =>
          { c with entries := moveToEnd (hashTokenBlock sha256 blockTokens) c.entries }
        lookupLoop blocks (matchedBlockIds ++ [cacheEntry.blockId])

def lookup (tokenIds : List ℤ) : Prog PyError PrefixCache (ℕ × List ℕ) := do
  let c ← current
  let matchedBlockIds ← lookupLoop sha256 (iterFullBlocks c.blockSize tokenIds) []
  if matchedBlockIds ≠ [] then update fun c => { c with hits := c.hits + 1 }
  else update fun c => { c with misses := c.misses + 1 }
  return (matchedBlockIds.length * c.blockSize, matchedBlockIds)

/-- `n` times `popitem(last=False)`. -/
def popItems : ℕ → Prog PyError PrefixCache (List (List Char))
  | 0 => pure []
  | n + 1 => do
    let c ← current
    match c.entries with
    | [] => raise (.keyError "dictionary is empty")
    | (evictedHash, _) :: rest =>
      update fun c => { c with entries := rest }
      let evictedHashes ← popItems n
      return evictedHash :: evictedHashes

def evictLru (n : ℤ) : Prog PyError PrefixCache (List (List Char)) := do
  if n < 0 then raise (.valueError s!"n must be >= 0, got {n}")
  else
    let c ← current
    popItems (min n.toNat c.entries.length)

/-- The loop of `insert` from block `i` on. -/
def insertLoop (blockIds : List ℕ) : ℕ → List (List ℤ) → Prog PyError PrefixCache Unit
  | _, [] => pure ()
  | i, blockTokens :: blocks => do
    match blockIds[i]? with
    | none => raise (.indexError "list index out of range")
    | some blockId =>
      update fun c => { c with
        entries := setItem (hashTokenBlock sha256 blockTokens) ⟨blockId, blockTokens⟩ c.entries }
      update fun c => { c with entries := moveToEnd (hashTokenBlock sha256 blockTokens) c.entries }
      insertLoop blockIds (i + 1) blocks

def insert (tokenIds : List ℤ) (blockIds : List ℕ) : Prog PyError PrefixCache Unit := do
  let c ← current
  let numFullBlocks := tokenIds.length / c.blockSize
  if blockIds.length < numFullBlocks then
    raise (.valueError
      s!"block_ids must include one entry per full token block; need {numFullBlocks}, got {blockIds.length}")
  else
    insertLoop sha256 blockIds 0 (iterFullBlocks c.blockSize tokenIds)
    let c ← current
    if c.maxEntries < c.entries.length then
      let _ ← evictLru (c.entries.length - c.maxEntries : ℕ)
      return ()
    else pure ()

/-! ### Histories -/

inductive Op where
  | insert (tokenIds : List ℤ) (blockIds : List ℕ)
  | evictLru (n : ℤ)
  | lookup (tokenIds : List ℤ)
deriving DecidableEq, Repr

def step (c : PrefixCache) : Op → PrefixCache
  | .insert tokenIds blockIds => (insert sha256 tokenIds blockIds).state c
  | .evictLru n => (evictLru n).state c
  | .lookup tokenIds => (lookup sha256 tokenIds).state c

/-- The block ids that a lookup returns. -/
def found (c : PrefixCache) (tokenIds : List ℤ) : List ℕ :=
  match ((lookup sha256 tokenIds).run c).2 with
  | .ok (_, matchedBlockIds) => matchedBlockIds
  | .error _ => []

/-- A block id was inserted at index `j` for a list that begins with the first `j + 1` blocks of the
query. -/
def InsertedFor (blockSize : ℕ) (ops : List Op) (query : List ℤ) (j blockId : ℕ) : Prop :=
  ∃ tokenIds blockIds, Op.insert tokenIds blockIds ∈ ops ∧ blockIds[j]? = some blockId ∧
    (j + 1) * blockSize ≤ tokenIds.length ∧
    tokenIds.take ((j + 1) * blockSize) = query.take ((j + 1) * blockSize)

/-- The cache holds a block of tokens. -/
def Holds (c : PrefixCache) (blockTokens : List ℤ) : Prop :=
  ∃ cacheEntry, getItem (hashTokenBlock sha256 blockTokens) c.entries = some cacheEntry ∧
    cacheEntry.tokenBlock = blockTokens

/-- The full blocks of the query that the cache holds are in the inserted lists only at the same
index and behind the same tokens. -/
def SharedAsPrefix (c : PrefixCache) (ops : List Op) (query : List ℤ) : Prop :=
  ∀ tokenIds blockIds, Op.insert tokenIds blockIds ∈ ops →
    ∀ i j, (i + 1) * c.blockSize ≤ tokenIds.length → (j + 1) * c.blockSize ≤ query.length →
      Holds sha256 c (tokenBlock c.blockSize query j) →
      tokenBlock c.blockSize tokenIds i = tokenBlock c.blockSize query j →
      i = j ∧ tokenIds.take ((j + 1) * c.blockSize) = query.take ((j + 1) * c.blockSize)

/-! ### Full blocks -/

theorem fullBlocks_length {blockSize : ℕ} (h : 0 < blockSize) (n : ℕ) :
    ceilDiv (n + 1 - blockSize) blockSize = n / blockSize := by
  unfold ceilDiv
  by_cases hn : blockSize ≤ n + 1
  · congr 1
    omega
  · rw [Nat.div_eq_of_lt (by omega), Nat.div_eq_of_lt (by omega)]

theorem iterFullBlocks_eq {blockSize : ℕ} (h : 0 < blockSize) (tokenIds : List ℤ) :
    iterFullBlocks blockSize tokenIds =
      (List.range (tokenIds.length / blockSize)).map (tokenBlock blockSize tokenIds) := by
  unfold iterFullBlocks
  rw [fullBlocks_length h]

theorem iterFullBlocks_drop {blockSize i : ℕ} (h : 0 < blockSize) {tokenIds block : List ℤ}
    {blocks : List (List ℤ)} (hi : (iterFullBlocks blockSize tokenIds).drop i = block :: blocks) :
    (i + 1) * blockSize ≤ tokenIds.length ∧ block = tokenBlock blockSize tokenIds i ∧
      (iterFullBlocks blockSize tokenIds).drop (i + 1) = blocks := by
  have hget : (iterFullBlocks blockSize tokenIds)[i]? = some block := by
    have := congrArg List.head? hi
    rwa [List.head?_drop] at this
  have hrest : (iterFullBlocks blockSize tokenIds).drop (i + 1) = blocks := by
    rw [← List.tail_drop, hi]
    rfl
  rw [iterFullBlocks_eq h, List.getElem?_map] at hget
  obtain ⟨j, hj, hblock⟩ := Option.map_eq_some_iff.mp hget
  obtain ⟨hlt, hji⟩ := List.getElem?_eq_some_iff.mp hj
  rw [List.getElem_range] at hji
  rw [List.length_range] at hlt
  refine ⟨?_, by rw [← hblock, hji], hrest⟩
  exact (Nat.mul_le_mul_right _ hlt).trans (Nat.div_mul_le_self _ _)

/-! ### What is stored -/

/-- An entry comes from a block of an inserted list. -/
def FromInsert (blockSize : ℕ) (ops : List Op) (e : CacheEntry) : Prop :=
  ∃ tokenIds blockIds i, Op.insert tokenIds blockIds ∈ ops ∧ (i + 1) * blockSize ≤ tokenIds.length ∧
    tokenBlock blockSize tokenIds i = e.tokenBlock ∧ blockIds[i]? = some e.blockId

/-- Every entry of the cache has the property. -/
structure Stored (blockSize : ℕ) (P : CacheEntry → Prop) (c : PrefixCache) : Prop where
  size : c.blockSize = blockSize
  entries : ∀ item ∈ c.entries, P item.2

variable {blockSize : ℕ} {P : CacheEntry → Prop} {c : PrefixCache}

theorem Stored.wp_lookupLoop {R : PyError → PrefixCache → Prop} :
    ∀ (blocks : List (List ℤ)) (matched : List ℕ) {c : PrefixCache}, Stored blockSize P c →
    wp (lookupLoop sha256 blocks matched) (fun _ => Stored blockSize P) R c
  | [], _, _, h => h
  | block :: blocks, matched, c, h => by
    simp only [lookupLoop, wp_bind, wp_current]
    split
    · exact h
    · next e he =>
      simp only [wp_ite, wp_bind, wp_update, wp_pure]
      refine ⟨fun _ => h, fun _ => ?_⟩
      exact Stored.wp_lookupLoop blocks _
        ⟨h.size, fun item hitem => h.entries item (mem_moveToEnd hitem)⟩

theorem Stored.wp_popItems : ∀ (n : ℕ) {c : PrefixCache}, Stored blockSize P c →
    wp (popItems n) (fun _ => Stored blockSize P) (fun _ => Stored blockSize P) c
  | 0, _, h => h
  | n + 1, c, h => by
    simp only [popItems, wp_bind, wp_current]
    split
    · exact h
    · next evicted e rest hrest =>
      simp only [wp_bind, wp_update, wp_pure]
      refine Stored.wp_popItems n ⟨h.size, fun item hitem => h.entries item ?_⟩
      rw [hrest]
      exact List.mem_cons_of_mem _ hitem

theorem Stored.wp_evictLru (h : Stored blockSize P c) (n : ℤ) :
    wp (evictLru n) (fun _ => Stored blockSize P) (fun _ => Stored blockSize P) c := by
  simp only [evictLru, wp_ite, wp_raise, wp_bind, wp_current]
  exact ⟨fun _ => h, fun _ => h.wp_popItems _⟩

theorem Stored.wp_insertLoop (tokenIds : List ℤ) (blockIds : List ℕ) (hpos : 0 < blockSize)
    (hP : ∀ i b, (i + 1) * blockSize ≤ tokenIds.length → blockIds[i]? = some b →
      P ⟨b, tokenBlock blockSize tokenIds i⟩) :
    ∀ (i : ℕ) (blocks : List (List ℤ)) {c : PrefixCache}, Stored blockSize P c →
      (iterFullBlocks blockSize tokenIds).drop i = blocks →
      wp (insertLoop sha256 blockIds i blocks) (fun _ => Stored blockSize P)
        (fun _ => Stored blockSize P) c
  | _, [], _, h, _ => h
  | i, block :: blocks, c, h, hi => by
    obtain ⟨hle, rfl, hrest⟩ := iterFullBlocks_drop hpos hi
    simp only [insertLoop]
    split
    · exact h
    · next b hb =>
      simp only [wp_bind, wp_update]
      refine Stored.wp_insertLoop tokenIds blockIds hpos hP (i + 1) blocks
        ⟨h.size, fun item hitem => ?_⟩ hrest
      rcases mem_setItem (mem_moveToEnd hitem) with hitem | rfl
      · exact h.entries item hitem
      · exact hP i b hle hb

theorem Stored.wp_insert (h : Stored blockSize P c) (tokenIds : List ℤ) (blockIds : List ℕ)
    (hP : ∀ i b, (i + 1) * blockSize ≤ tokenIds.length → blockIds[i]? = some b →
      P ⟨b, tokenBlock blockSize tokenIds i⟩) :
    wp (insert sha256 tokenIds blockIds) (fun _ => Stored blockSize P)
    (fun _ => Stored blockSize P) c := by
  have hpos : 0 < blockSize := h.size ▸ c.blockSize_pos
  simp only [insert, wp_bind, wp_current, wp_ite, wp_raise, wp_pure]
  refine ⟨fun _ => h, fun _ => ?_⟩
  rw [h.size]
  refine wp_mono (h.wp_insertLoop sha256 tokenIds blockIds hpos hP 0 _ rfl) ?_ fun _ _ h0 => h0
  intro _ c₁ h₁
  exact ⟨fun _ => h₁.wp_evictLru _, fun _ => h₁⟩

theorem FromInsert.mono {ops ops' : List Op} {e : CacheEntry} (h : FromInsert blockSize ops e)
    (hsub : ∀ o ∈ ops, o ∈ ops') : FromInsert blockSize ops' e := by
  obtain ⟨tokenIds, blockIds, i, hmem, hrest⟩ := h
  exact ⟨tokenIds, blockIds, i, hsub _ hmem, hrest⟩

/-- **One operation** stores nothing but blocks of inserted lists. -/
theorem stored_step {ops : List Op} (h : Stored blockSize (FromInsert blockSize ops) c) (o : Op) :
    Stored blockSize (FromInsert blockSize (ops ++ [o])) (step sha256 c o) := by
  have h : Stored blockSize (FromInsert blockSize (ops ++ [o])) c :=
    ⟨h.size, fun item hitem => (h.entries item hitem).mono fun _ h0 => List.mem_append_left _ h0⟩
  cases o with
  | insert tokenIds blockIds =>
    refine inv_of_wp (h.wp_insert sha256 tokenIds blockIds fun i b hle hb => ?_)
    exact ⟨tokenIds, blockIds, i, by simp, hle, rfl, hb⟩
  | evictLru n => exact inv_of_wp (h.wp_evictLru n)
  | lookup tokenIds =>
    refine inv_of_wp (m := lookup sha256 tokenIds) ?_
    simp only [lookup, wp_bind, wp_current]
    refine wp_mono (h.wp_lookupLoop sha256 _ []) ?_ fun _ _ h0 => h0
    intro matched c₁ h₁
    simp only [wp_ite, wp_bind, wp_update, wp_pure]
    exact ⟨fun _ => ⟨h₁.size, h₁.entries⟩, fun _ => ⟨h₁.size, h₁.entries⟩⟩

theorem stored_exec (c₀ : PrefixCache) (hc₀ : c₀.entries = []) (ops : List Op) :
    Stored c₀.blockSize (FromInsert c₀.blockSize ops) (exec (step sha256) c₀ ops) := by
  induction ops using List.reverseRecOn with
  | nil => exact ⟨rfl, fun item hitem => by rw [exec_nil, hc₀] at hitem; cases hitem⟩
  | append_singleton ops o ih =>
    rw [exec_append]
    exact stored_step sha256 ih o

/-! ### Lookups -/

theorem wp_lookupLoop_found (query : List ℤ) {R : PyError → PrefixCache → Prop} (c₀ : PrefixCache) :
    ∀ (i : ℕ) (blocks : List (List ℤ)) (matched : List ℕ) {c : PrefixCache},
      (∀ key, getItem key c.entries = getItem key c₀.entries) → matched.length = i →
      (iterFullBlocks c₀.blockSize query).drop i = blocks →
      (∀ j b, matched[j]? = some b → (j + 1) * c₀.blockSize ≤ query.length ∧
        getItem (hashTokenBlock sha256 (tokenBlock c₀.blockSize query j)) c₀.entries =
          some ⟨b, tokenBlock c₀.blockSize query j⟩) →
      wp (lookupLoop sha256 blocks matched) (fun matched' _ =>
        ∀ j b, matched'[j]? = some b → (j + 1) * c₀.blockSize ≤ query.length ∧
          getItem (hashTokenBlock sha256 (tokenBlock c₀.blockSize query j)) c₀.entries =
            some ⟨b, tokenBlock c₀.blockSize query j⟩) R c
  | _, [], _, _, _, _, _, hm => hm
  | i, block :: blocks, matched, c, hc, hlen, hi, hm => by
    obtain ⟨hle, rfl, hrest⟩ := iterFullBlocks_drop c₀.blockSize_pos hi
    simp only [lookupLoop, wp_bind, wp_current]
    split
    · exact hm
    · next e he =>
      simp only [wp_ite, wp_bind, wp_update, wp_pure]
      refine ⟨fun _ => hm, fun heq => ?_⟩
      have heq : e.tokenBlock = tokenBlock c₀.blockSize query i := not_not.mp heq
      refine wp_lookupLoop_found query c₀ (i + 1) blocks _ (fun key => ?_) ?_ hrest fun j b hj => ?_
      · exact (getItem_moveToEnd key _ _).trans (hc key)
      · rw [List.length_append, hlen, List.length_singleton]
      · rw [List.getElem?_append] at hj
        split_ifs at hj with hlt
        · exact hm j b hj
        · have hji : j = i := by
            have := (List.getElem?_eq_some_iff.mp hj).1
            rw [List.length_singleton] at this
            omega
          subst hji
          rw [hlen, Nat.sub_self] at hj
          rw [← hc, he, ← Option.some.inj hj, ← heq]
          exact ⟨hle, rfl⟩

theorem found_hit {query : List ℤ} {j b : ℕ} (h : (found sha256 c query)[j]? = some b) :
    (j + 1) * c.blockSize ≤ query.length ∧
      getItem (hashTokenBlock sha256 (tokenBlock c.blockSize query j)) c.entries =
        some ⟨b, tokenBlock c.blockSize query j⟩ := by
  have hwp : wp (lookup sha256 query) (fun r _ => ∀ j b, r.2[j]? = some b →
      (j + 1) * c.blockSize ≤ query.length ∧
        getItem (hashTokenBlock sha256 (tokenBlock c.blockSize query j)) c.entries =
          some ⟨b, tokenBlock c.blockSize query j⟩) (fun _ _ => False) c := by
    simp only [lookup, wp_bind, wp_current]
    refine wp_mono (wp_lookupLoop_found sha256 query c 0 _ [] (fun _ => rfl) rfl rfl
      fun j b hj => by cases hj) ?_ fun _ _ h0 => h0
    intro matched c₁ hm
    simp only [wp_ite, wp_bind, wp_update, wp_pure]
    exact ⟨fun _ => hm, fun _ => hm⟩
  obtain ⟨c', r, hrun, hr⟩ := exists_of_wp hwp
  unfold found at h
  rw [hrun] at h
  exact hr j b h

/-- **Lookups** return blocks that were inserted for the prefix of the query, if the blocks of the
query are shared with the inserted lists only as prefixes. -/
theorem lookup_samePrefix (blockSize maxEntries : ℤ) (c₀ : PrefixCache)
    (hnew : new blockSize maxEntries = .ok c₀) (ops : List Op) (query : List ℤ)
    (hshared : SharedAsPrefix sha256 (exec (step sha256) c₀ ops) ops query) (j blockId : ℕ)
    (hj : (found sha256 (exec (step sha256) c₀ ops) query)[j]? = some blockId) :
    InsertedFor blockSize.toNat ops query j blockId := by
  have hc₀ : c₀.blockSize = blockSize.toNat ∧ c₀.entries = [] := by
    unfold new at hnew
    split_ifs at hnew
    cases hnew
    exact ⟨rfl, rfl⟩
  have hstored := stored_exec sha256 c₀ hc₀.2 ops
  rw [hc₀.1] at hstored
  obtain ⟨hle, hget⟩ := found_hit sha256 hj
  obtain ⟨tokenIds, blockIds, i, hmem, hi, hblock, hid⟩ := hstored.entries _ (mem_of_getItem hget)
  rw [← hstored.size] at hi hblock
  obtain ⟨rfl, htake⟩ := hshared tokenIds blockIds hmem i j hi hle ⟨_, hget, rfl⟩ hblock
  rw [hstored.size] at hi htake
  exact ⟨tokenIds, blockIds, hmem, hid, hi, htake⟩

/-! ### A block behind two prefixes -/

end Operations

/-- The digests of single bytes, as far as they are needed. -/
def digests : List ℕ → List Char
  | [1] => "4bf5122f344554c53bde2ebb8cd2b7e3d1600ad631c385a5d7cce23c7785459a".toList
  | [2] => "dbc1b4c900ffe48d575b5da5c638040125f65db0fe3e24494b76ea986457d986".toList
  | [3] => "084fed08b978af4d7d196a7446a86b58009e636b611db16211b65a9aadff29c5".toList
  | _ => []

/-- A cache of blocks of one token. -/
def smallCache : PrefixCache := ⟨1, 4, [], 0, 0, by decide, by decide⟩

/-- Two prompts with a common first block. -/
def commonPrefix : List Op := [.insert [1, 2] [10, 11], .insert [1, 3] [10, 12]]

theorem lookup_samePrefix_commonPrefix :
    found digests (exec (step digests) smallCache commonPrefix) [1, 3] = [10, 12] ∧
      InsertedFor 1 commonPrefix [1, 3] 1 12 := by
  refine ⟨by decide, lookup_samePrefix digests 1 4 smallCache rfl commonPrefix [1,
    3] ?_ 1 12 (by decide)⟩
  have hsize : (exec (step digests) smallCache commonPrefix).blockSize = 1 := by decide
  intro tokenIds blockIds hmem i j hi hj _ hblock
  rw [hsize] at hi hj hblock ⊢
  simp only [commonPrefix, List.mem_cons, Op.insert.injEq, List.not_mem_nil, or_false] at hmem
  rcases hmem with ⟨rfl, rfl⟩ | ⟨rfl, rfl⟩ <;>
    simp only [List.length_cons, List.length_nil] at hi hj <;> obtain rfl | rfl : i = 0 ∨
    i = 1 := by omega
  all_goals
    obtain rfl | rfl : j = 0 ∨ j = 1 := by omega
    all_goals
      revert hblock
      decide

/-- Two prompts with the same second block. -/
def commonMiddle : List Op := [.insert [1, 2] [10, 11], .insert [3, 2] [12, 13]]

/-- The second block found for the first prompt is that of the other prompt. -/
theorem lookup_otherPrefix :
    ¬ ∀ (sha256 : List ℕ → List Char) (blockSize maxEntries : ℤ) (c₀ : PrefixCache),
    new blockSize maxEntries = .ok c₀ → ∀ (ops : List Op) (query : List ℤ) (j blockId : ℕ),
      (found sha256 (exec (step sha256) c₀ ops) query)[j]? = some blockId →
      InsertedFor blockSize.toNat ops query j blockId := by
  intro h
  have hfound : (found digests (exec (step digests) smallCache commonMiddle) [1, 2])[1]? =
    some 13 := by decide
  obtain ⟨tokenIds, blockIds, hmem, hid, -, htake⟩ :=
    h digests 1 4 smallCache rfl commonMiddle [1, 2] 1 13 hfound
  simp only [commonMiddle, List.mem_cons, Op.insert.injEq, List.not_mem_nil, or_false] at hmem
  rcases hmem with ⟨rfl, rfl⟩ | ⟨rfl, rfl⟩
  · revert hid
    decide
  · revert htake
    decide

end MoeInfinity.Serving.PrefixCaching
