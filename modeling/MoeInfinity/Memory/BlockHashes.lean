import MoeInfinity.Memory.KvManager

/-! # The hashes of the GPU blocks

The hash map of a pool and the hash fields of its blocks agree: a block that the map holds under a
hash has that hash, so it is in the map once, and taking it from the free queue takes it out of the
map. Nothing but an allocation and a registration changes the hashes. -/

namespace MoeInfinity.Memory.BlockHashes

open MoeInfinity.Python MoeInfinity.Lib.Imperative
open MoeInfinity.Memory.Blocks MoeInfinity.Memory.Blocks.BlockPool
open MoeInfinity.Memory.KvManager MoeInfinity.Memory.KvManager.KVCacheManager

/-! ### The pool -/

/-- A block that the map holds under a hash has that hash. -/
def Unambiguous (p : BlockPool) : Prop :=
  ∀ h b, p.hashMap h = some b → (p.blocks b).blockHash = some h

variable {p p' : BlockPool}

theorem blockHash_setBlock (b : ℕ) (block : KVCacheBlock) (p : BlockPool) (c : ℕ) :
    ((setBlock b block p).blocks c).blockHash =
      if c = b then block.blockHash else (p.blocks c).blockHash := by
  change (Function.update p.blocks b block c).blockHash = _
  by_cases h : c = b
  · rw [if_pos h, h, Function.update_self]
  · rw [if_neg h, Function.update_of_ne h]

theorem blockHash_setRefCnt (b n : ℕ) (p : BlockPool) (c : ℕ) :
    ((setBlock b { p.blocks b with refCnt := n } p).blocks c).blockHash =
    (p.blocks c).blockHash := by
  rw [blockHash_setBlock]
  split_ifs with h
  · rw [h]
  · rfl

@[simp] theorem hashMap_setBlock (b : ℕ) (block : KVCacheBlock) (p : BlockPool) :
    (setBlock b block p).hashMap = p.hashMap := rfl

@[simp] theorem blocks_unmap (b : ℕ) (h : ℤ) (p : BlockPool) : (unmap b h p).blocks = p.blocks := by
  unfold unmap
  split_ifs <;> rfl

theorem hashMap_unmap {b c : ℕ} {h k : ℤ} (hc : (unmap b h p).hashMap k = some c) :
    p.hashMap k = some c ∧ (k = h → c ≠ b) := by
  unfold unmap at hc
  split_ifs at hc with hm
  · change Function.update p.hashMap h none k = some c at hc
    by_cases hk : k = h
    · rw [hk, Function.update_self] at hc
      cases hc
    · rw [Function.update_of_ne hk] at hc
      exact ⟨hc, fun h0 => absurd h0 hk⟩
  · refine ⟨hc, ?_⟩
    rintro rfl rfl
    exact hm hc

/-- A block without its hash is out of the map. -/
theorem dropHash_spec (hp : Unambiguous p) (b : ℕ) : Unambiguous (dropHash b p) ∧
    ∀ h c, (dropHash b p).hashMap h = some c → p.hashMap h = some c ∧ c ≠ b := by
  have hgone : ∀ h c, (dropHash b p).hashMap h = some c → p.hashMap h = some c ∧ c ≠ b := by
    intro h c hc
    unfold dropHash at hc
    split at hc
    · next hnone =>
      refine ⟨hc, ?_⟩
      rintro rfl
      rw [hp h c hc] at hnone
      cases hnone
    · next h' hsome =>
      obtain ⟨hm, hne⟩ := hashMap_unmap hc
      refine ⟨hm, ?_⟩
      rintro rfl
      rw [hp h c hm] at hsome
      exact hne (Option.some.inj hsome) rfl
  refine ⟨fun h c hc => ?_, hgone⟩
  obtain ⟨hm, hne⟩ := hgone h c hc
  unfold dropHash
  split
  · exact hp h c hm
  · rw [blockHash_setBlock, if_neg hne, blocks_unmap]
    exact hp h c hm

/-- **Allocation**: the block handed out is no longer in the map. -/
theorem wp_allocateBlock_hashes (hp : Unambiguous p) {R : PyError → BlockPool → Prop} :
    wp allocateBlock (fun r p' => Unambiguous p' ∧
      ∀ h c, p'.hashMap h = some c → p.hashMap h = some c ∧ r ≠ some c) R p := by
  simp only [allocateBlock, wp_bind, wp_current]
  split
  · exact ⟨hp, fun h c hc => ⟨hc, by simp⟩⟩
  · next b rest hq =>
    simp only [wp_bind, wp_update, wp_pure]
    have hp₁ : Unambiguous { p with freeQueue := rest } := hp
    obtain ⟨hun, hmap⟩ := dropHash_spec hp₁ b
    refine ⟨fun h c hc => ?_, fun h c hc => ?_⟩
    · rw [blockHash_setRefCnt]
      exact hun h c hc
    · obtain ⟨hm, hne⟩ := hmap h c hc
      exact ⟨hm, by simpa using hne.symm⟩

/-- **Registration**: the map has the block under its new hash, and otherwise what it had. -/
theorem cacheFullBlock_hashes (hp : Unambiguous p) (b : ℕ) (h : ℤ) :
    Unambiguous (cacheFullBlock b h p) ∧ ∀ k c, (cacheFullBlock b h p).hashMap k = some c →
      (k = h ∧ c = b) ∨ (k ≠ h ∧ p.hashMap k = some c) := by
  set q := forgetHash b h p with hq
  have hforget : ∀ k c, q.hashMap k = some c → p.hashMap k = some c ∧ (k ≠ h → c ≠ b) := by
    intro k c hc
    rw [hq] at hc
    unfold forgetHash at hc
    split at hc
    · next hnone =>
      refine ⟨hc, fun _ => ?_⟩
      rintro rfl
      rw [hp k c hc] at hnone
      cases hnone
    · next h' hsome =>
      split_ifs at hc with hh
      · refine ⟨hc, fun hk => ?_⟩
        rintro rfl
        rw [hp k c hc] at hsome
        exact hk ((Option.some.inj hsome).trans hh)
      · obtain ⟨hm, hne⟩ := hashMap_unmap hc
        refine ⟨hm, fun _ => ?_⟩
        rintro rfl
        rw [hp k c hm] at hsome
        exact hne (Option.some.inj hsome) rfl
  have hblocks : q.blocks = p.blocks := by
    rw [hq]
    unfold forgetHash
    split
    · rfl
    · split_ifs
      · rfl
      · exact blocks_unmap _ _ _
  have hmap : (evictColliding b h q).hashMap = q.hashMap := by
    unfold evictColliding
    split
    · rfl
    · split_ifs <;> rfl
  have hcases : ∀ k c, (cacheFullBlock b h p).hashMap k = some c →
      (k = h ∧ c = b) ∨ (k ≠ h ∧ q.hashMap k = some c) := by
    intro k c hc
    change Function.update (evictColliding b h q).hashMap h (some b) k = some c at hc
    by_cases hk : k = h
    · rw [hk, Function.update_self] at hc
      exact Or.inl ⟨hk, (Option.some.inj hc).symm⟩
    · rw [Function.update_of_ne hk, hmap] at hc
      exact Or.inr ⟨hk, hc⟩
  refine ⟨fun k c hc => ?_, fun k c hc => (hcases k c hc).imp_right fun h0 =>
    ⟨h0.1, (hforget k c h0.2).1⟩⟩
  change ((setBlock b { (evictColliding b h q).blocks b with blockHash := some h }
    (evictColliding b h q)).blocks c).blockHash = some k
  rw [blockHash_setBlock]
  rcases hcases k c hc with ⟨rfl, rfl⟩ | ⟨hk, hm⟩
  · rw [if_pos rfl]
  · obtain ⟨hpm, hne⟩ := hforget k c hm
    rw [if_neg (hne hk)]
    unfold evictColliding
    split
    · rw [hblocks]; exact hp k c hpm
    · next c₀ hc₀ =>
      split_ifs
      · rw [hblocks]; exact hp k c hpm
      · rw [blockHash_setBlock, hblocks]
        -- The block that loses its hash is the one under `h`.
        split_ifs with hcc
        · have h1 := hp h c₀ (hforget h c₀ hc₀).1
          rw [← hcc, hp k c hpm] at h1
          exact absurd (Option.some.inj h1) hk
        · exact hp k c hpm

/-- A block that has a hash is in the map under it. -/
def Registered (p : BlockPool) : Prop :=
  ∀ b h, (p.blocks b).blockHash = some h → p.hashMap h = some b

/-- The map loses only what `unmap` names. -/
theorem hashMap_unmap_of_ne {b c : ℕ} {h k : ℤ} (hc : p.hashMap k = some c) (hne : c ≠ b) :
    (unmap b h p).hashMap k = some c := by
  unfold unmap
  split_ifs with hm
  · have hk : k ≠ h := by
      rintro rfl
      rw [hm] at hc
      exact hne (Option.some.inj hc).symm
    exact (Function.update_of_ne hk _ _).trans hc
  · exact hc

theorem registered_dropHash (hp : Registered p) (b : ℕ) : Registered (dropHash b p) := by
  unfold dropHash
  split
  · exact hp
  · intro c k hk
    rw [blockHash_setBlock] at hk
    split_ifs at hk with hc
    rw [blocks_unmap] at hk
    exact hashMap_unmap_of_ne (hp c k hk) hc

theorem wp_allocateBlock_registered (hp : Registered p) {R : PyError → BlockPool → Prop} :
    wp allocateBlock (fun _ p' => Registered p') R p := by
  simp only [allocateBlock, wp_bind, wp_current]
  split
  · exact hp
  · next b rest hq =>
    simp only [wp_bind, wp_update, wp_pure]
    have hp₁ : Registered { p with freeQueue := rest } := hp
    intro c k hk
    rw [blockHash_setRefCnt] at hk
    exact registered_dropHash hp₁ b c k hk

/-- The other block under the hash has lost it, and the block is under its new hash only. -/
theorem registered_cacheFullBlock (hp : Registered p) (b : ℕ) (h : ℤ) :
    Registered (cacheFullBlock b h p) := by
  have hforget : ∀ c k, c ≠ b → (p.blocks c).blockHash = some k →
      (forgetHash b h p).hashMap k = some c := by
    intro c k hc hk
    unfold forgetHash
    split
    · exact hp c k hk
    · split_ifs
      · exact hp c k hk
      · exact hashMap_unmap_of_ne (hp c k hk) hc
  have hblocks : (forgetHash b h p).blocks = p.blocks := by
    unfold forgetHash
    split
    · rfl
    · split_ifs
      · rfl
      · exact blocks_unmap _ _ _
  have hmap : (evictColliding b h (forgetHash b h p)).hashMap = (forgetHash b h p).hashMap := by
    unfold evictColliding
    split
    · rfl
    · split_ifs <;> rfl
  intro c k hk
  change ((setBlock b _ _).blocks c).blockHash = some k at hk
  change Function.update (evictColliding b h (forgetHash b h p)).hashMap h (some b) k = some c
  rw [blockHash_setBlock] at hk
  split_ifs at hk with hc
  · obtain rfl : h = k := Option.some.inj hk
    rw [hc, Function.update_self]
  · have hold : (p.blocks c).blockHash = some k ∧ (forgetHash b h p).hashMap h ≠ some c := by
      unfold evictColliding at hk
      split at hk
      · next hnone =>
        rw [hblocks] at hk
        exact ⟨hk, by rw [hnone]; nofun⟩
      · next c₀ hc₀ =>
        split_ifs at hk with heq
        · rw [hblocks] at hk
          refine ⟨hk, ?_⟩
          rw [hc₀, heq]
          exact fun h0 => hc (Option.some.inj h0).symm
        · rw [blockHash_setBlock] at hk
          split_ifs at hk with hcc
          rw [hblocks] at hk
          refine ⟨hk, ?_⟩
          rw [hc₀]
          exact fun h0 => hcc (Option.some.inj h0).symm
    have hin := hforget c k hc hold.1
    have hkh : k ≠ h := by
      rintro rfl
      exact hold.2 hin
    rw [Function.update_of_ne hkh, hmap]
    exact hin

/-! ### The manager -/

/-- The hash map and the hash fields of the GPU pool. -/
def tags (k : KVCacheManager) : (ℤ → Option ℕ) × (ℕ → Option ℤ) :=
  (k.gpuPool.hashMap, fun b => (k.gpuPool.blocks b).blockHash)

theorem unambiguous_congr {k k' : KVCacheManager} (h : tags k' = tags k)
    (hk : Unambiguous k.gpuPool) :
    Unambiguous k'.gpuPool := by
  obtain ⟨hmap, hblocks⟩ := Prod.mk.inj h
  intro x b hb
  rw [hmap] at hb
  exact (congrFun hblocks b).trans (hk x b hb)

theorem leaves_freeBlock (b : ℕ) :
    Leaves (fun p : BlockPool => (p.hashMap, fun c => (p.blocks c).blockHash)) (freeBlock b) := by
  refine leaves_bind leaves_current fun p => leaves_ite (leaves_raise _) ?_
  refine leaves_bind (leaves_update fun p => ?_) fun _ => leaves_bind leaves_current fun _ =>
    leaves_ite (leaves_update fun _ => rfl) (leaves_pure _)
  exact Prod.ext rfl (funext fun c => blockHash_setRefCnt b _ p c)

theorem leaves_getCachedBlock (h : ℤ) :
    Leaves (fun p : BlockPool => (p.hashMap, fun c => (p.blocks c).blockHash))
      (getCachedBlock h) := by
  refine leaves_bind leaves_current fun p => ?_
  cases p.hashMap h with
  | none => exact leaves_pure _
  | some b =>
    have htake : Leaves (fun p : BlockPool => (p.hashMap, fun c => (p.blocks c).blockHash)) (do
        update fun p => setBlock b { p.blocks b with refCnt := (p.blocks b).refCnt + 1 } p
        return some b : Prog PyError BlockPool (Option ℕ)) := by
      refine leaves_bind (leaves_update fun p => ?_) fun _ => leaves_pure _
      exact Prod.ext rfl (funext fun c => blockHash_setRefCnt b _ p c)
    exact leaves_ite (leaves_bind (leaves_update fun _ => rfl) fun _ => htake) htake

end MoeInfinity.Memory.BlockHashes
