import Mathlib.Algebra.Ring.Int.Defs
import Mathlib.Algebra.Ring.Nat
import MoeInfinity.Lib.Extents

/-! # The asynchronous file handle (`core/aio/archer_prio_aio_handle.cpp`)

`Write` and `Read` round the length up to the alignment, cut the extent into chunks of the block
size and hand one callback per chunk to the thread pool. A callback moves its chunk through a buffer
of the pinned pool, which holds whatever its last user left in it; only the bytes below `num_bytes`
are copied from or to the caller's buffer. The callbacks run in any order (`Order`); `pread` and
`pwrite` are taken to transfer the full length. -/

namespace MoeInfinity.Core.AioHandle

open MoeInfinity.Lib.Extents

/-! ### Sizes -/

def kAioAlignment : ℕ := 4096

/-- `(num_bytes + kAioAlignment - 1) & ~(kAioAlignment - 1)`. -/
def alignUp (numBytes : ℕ) : ℕ := (numBytes + kAioAlignment - 1) / kAioAlignment * kAioAlignment

/-- `GetBlockSize`, for the value of `MOE_IO_BLOCK_SIZE_KB`. -/
def getBlockSize : Option ℤ → ℕ
  | some kb => if 256 ≤ kb ∧ kb ≤ 65536 then kb.toNat * 1024 else 1024 * 1024
  | none => 1024 * 1024

theorem getBlockSize_pos (kb : Option ℤ) : 0 < getBlockSize kb := by
  unfold getBlockSize
  split
  · split_ifs with h
    · omega
    · decide
  · decide

structure ArcherPrioAioHandle where
  blockSize : ℕ
  blockSize_pos : 0 < blockSize

/-- The handle of a process with the given `MOE_IO_BLOCK_SIZE_KB`. -/
def ArcherPrioAioHandle.new (kb : Option ℤ) : ArcherPrioAioHandle :=
  ⟨getBlockSize kb, getBlockSize_pos kb⟩

/-- The contents of the files, by name. -/
abbrev Files := String → ℕ → UInt8

/-! ### Chunks -/

/-- One callback's part of a transfer. -/
structure Chunk where
  shift : ℕ
  byteCount : ℕ
  copyCount : ℕ
deriving DecidableEq, Repr

/-- `n_iocbs`. -/
def numIocbs (blockSize numBytes : ℕ) : ℕ :=
  alignUp numBytes / blockSize + if 0 < alignUp numBytes % blockSize then 1 else 0

/-- The chunk of iteration `i`, the same in `Read` and in `Write`. -/
def chunkAt (blockSize numBytes i : ℕ) : Chunk :=
  let shift := i * blockSize
  let byteCount := if alignUp numBytes < shift + blockSize then alignUp numBytes - shift
    else blockSize
  let copyCount := if shift + byteCount ≤ numBytes then byteCount else numBytes - shift
  ⟨shift, byteCount, copyCount⟩

/-- An order in which the thread pool runs `n` callbacks. -/
structure Order (n : ℕ) where
  order : List ℕ
  perm : order.Perm (List.range n)

/-- The callbacks in the order in which they were submitted. -/
def Order.submitted (n : ℕ) : Order n := ⟨List.range n, List.Perm.refl _⟩

/-! ### The callbacks -/

/-- The bounce buffer of a write: the caller's bytes and zeros behind them. -/
def fillChunk (src stale : ℕ → UInt8) (c : Chunk) : ℕ → UInt8 :=
  let chunk := if 0 < c.copyCount then writeAt stale 0 (readAt src c.shift c.copyCount) else stale
  if c.copyCount < c.byteCount then
    writeAt chunk c.copyCount (List.replicate (c.byteCount - c.copyCount) 0)
  else chunk

def writeCallback (src : ℕ → UInt8) (offset : ℕ) (stale : ℕ → UInt8) (c : Chunk)
    (file : ℕ → UInt8) :
    ℕ → UInt8 :=
  writeAt file (offset + c.shift) (readAt (fillChunk src stale c) 0 c.byteCount)

def readCallback (file : ℕ → UInt8) (offset : ℕ) (stale : ℕ → UInt8) (c : Chunk) (dst : ℕ → UInt8) :
    ℕ → UInt8 :=
  let chunk := writeAt stale 0 (readAt file (offset + c.shift) c.byteCount)
  if 0 < c.copyCount then writeAt dst c.shift (readAt chunk 0 c.copyCount) else dst

namespace ArcherPrioAioHandle

/-- `Write` of the first `numBytes` bytes at `src`; `stale i` is what the bounce buffer of callback
`i` holds before. -/
def write (h : ArcherPrioAioHandle) (filename : String) (src : ℕ → UInt8) (numBytes offset : ℕ)
    (order : Order (numIocbs h.blockSize numBytes)) (stale : ℕ → ℕ → UInt8) (files : Files) :
    ℕ × Files :=
  (alignUp numBytes, Function.update files filename <| order.order.foldl
    (fun file i => writeCallback src offset (stale i) (chunkAt h.blockSize numBytes i) file)
    (files filename))

/-- `Read` into the buffer at `dst`. -/
def read (h : ArcherPrioAioHandle) (filename : String) (numBytes offset : ℕ)
    (order : Order (numIocbs h.blockSize numBytes)) (stale : ℕ → ℕ → UInt8) (files : Files)
    (dst : ℕ → UInt8) : ℕ × (ℕ → UInt8) :=
  (alignUp numBytes, order.order.foldl
    (fun dst i =>
      readCallback (files filename) offset (stale i) (chunkAt h.blockSize numBytes i) dst)
    dst)

end ArcherPrioAioHandle

/-! ### Alignment -/

section Alignment

variable {n : ℕ}

theorem le_alignUp (n : ℕ) : n ≤ alignUp n := by
  unfold alignUp kAioAlignment
  omega

theorem and_not_low (x : BitVec 64) : x &&& ~~~4095#64 = (x >>> 12) <<< 12 := by
  have hlow : ∀ i < 64, (4095#64).getLsbD i = decide (i < 12) := by decide
  refine BitVec.eq_of_getLsbD_eq fun i hi => ?_
  rw [BitVec.getLsbD_and, BitVec.getLsbD_not, hlow i hi, BitVec.getLsbD_shiftLeft,
    BitVec.getLsbD_ushiftRight]
  by_cases h : i < 12
  · simp [h]
  · simp only [h, hi, decide_true, decide_false, Bool.not_false, Bool.and_true, Bool.true_and]
    congr 1
    omega

/-- `alignUp` is the formula of the source on 64-bit words. -/
theorem alignUp_eq_and (hn : n + 4095 < 2 ^ 64) :
    alignUp n = ((BitVec.ofNat 64 n + 4096#64 - 1#64) &&& ~~~(4096#64 - 1#64)).toNat := by
  have hone : 4096#64 - 1#64 = 4095#64 := by decide
  have hsum : BitVec.ofNat 64 n + 4096#64 - 1#64 = BitVec.ofNat 64 (n + 4095) := by
    refine BitVec.eq_of_toNat_eq ?_
    simp only [BitVec.toNat_sub, BitVec.toNat_add, BitVec.toNat_ofNat]
    omega
  rw [hsum, hone, and_not_low, BitVec.toNat_shiftLeft, BitVec.toNat_ushiftRight, BitVec.toNat_ofNat,
    Nat.mod_eq_of_lt hn, Nat.shiftRight_eq_div_pow, Nat.shiftLeft_eq]
  unfold alignUp kAioAlignment
  omega

end Alignment

/-! ### The chunks tile the extent -/

section Chunks

variable {B N i p : ℕ}

theorem lt_numIocbs (hB : 0 < B) : i < numIocbs B N ↔ i * B < alignUp N := by
  unfold numIocbs
  have hdiv := Nat.div_add_mod (alignUp N) B
  have hmod := Nat.mod_lt (alignUp N) hB
  rw [Nat.mul_comm] at hdiv
  constructor
  · intro h
    by_cases hlt : i < alignUp N / B
    · have hle : (i + 1) * B ≤ alignUp N / B * B := Nat.mul_le_mul_right B hlt
      rw [Nat.succ_mul] at hle
      omega
    · split_ifs at h with h0
      · have heq : i = alignUp N / B := by omega
        rw [heq]
        omega
      · omega
  · intro h
    by_contra hge
    have hle : (alignUp N / B + if 0 < alignUp N % B then 1 else 0) * B ≤ i * B :=
      Nat.mul_le_mul_right B (by omega)
    split_ifs at hle with h0
    · rw [Nat.succ_mul] at hle
      omega
    · rw [Nat.add_zero] at hle
      omega

/-- The chunk that covers a position of the extent is the one of its quotient. -/
theorem covers_chunkAt (hB : 0 < B) :
    Covers (chunkAt B N i).shift (chunkAt B N i).byteCount p ↔ p < alignUp N ∧ p / B = i := by
  rw [Nat.div_eq_iff hB]
  unfold Covers chunkAt
  simp only
  split_ifs <;> omega

theorem byteCount_le : (chunkAt B N i).byteCount ≤ B := by
  unfold chunkAt
  simp only
  split_ifs <;> omega

theorem copyCount_le : (chunkAt B N i).copyCount ≤ (chunkAt B N i).byteCount := by
  have h := le_alignUp N
  unfold chunkAt
  simp only
  split_ifs <;> omega

/-- The caller's bytes in a chunk are those below `num_bytes`. -/
theorem lt_copyCount {k : ℕ} (hk : k < (chunkAt B N i).byteCount) :
    k < (chunkAt B N i).copyCount ↔ (chunkAt B N i).shift + k < N := by
  revert hk
  unfold chunkAt
  simp only
  split_ifs <;> omega

end Chunks

/-! ### What a transfer does -/

section Transfers

variable {h : ArcherPrioAioHandle} {filename : String} {src dst : ℕ → UInt8} {N offset : ℕ}
  {order : Order (numIocbs h.blockSize N)} {stale : ℕ → ℕ → UInt8} {files : Files}

theorem Order.mem_iff {n i : ℕ} (o : Order n) : i ∈ o.order ↔ i < n := by
  rw [o.perm.mem_iff, List.mem_range]

/-- The callback of the chunk that covers a position is run. -/
theorem Order.chunk_mem {B p : ℕ} (o : Order (numIocbs B N)) (hB : 0 < B) (hp : p < alignUp N) :
    p / B ∈ o.order := by
  rw [o.mem_iff, lt_numIocbs hB]
  exact Nat.lt_of_le_of_lt (Nat.div_mul_le_self p B) hp

theorem ite_writeAt (mem src : ℕ → UInt8) (start from' len : ℕ) :
    (if 0 < len then writeAt mem start (readAt src from' len) else mem) =
      writeAt mem start (readAt src from' len) := by
  split_ifs with h0
  · rfl
  · funext p
    rw [writeAt_readAt, if_neg fun hc => by have := hc.1; have := hc.2; omega]

/-- The bounce buffer of a write: the caller's bytes first, then zeros. -/
theorem fillChunk_apply (stale : ℕ → UInt8) {c : Chunk} (hle : c.copyCount ≤ c.byteCount) {k : ℕ}
    (hk : k < c.byteCount) :
    fillChunk src stale c k = if k < c.copyCount then src (c.shift + k) else 0 := by
  unfold fillChunk
  simp only [ite_writeAt]
  split_ifs with h0 hc hc
  · rw [writeAt_replicate, if_neg fun h1 => by have := h1.1; omega, writeAt_readAt,
      if_pos ⟨Nat.zero_le k, by omega⟩, Nat.sub_zero]
  · rw [writeAt_replicate, if_pos ⟨by omega, by omega⟩]
  · rw [writeAt_readAt, if_pos ⟨Nat.zero_le k, by omega⟩, Nat.sub_zero]
  · omega

/-- What the callback of chunk `i` passes to `pwrite`. -/
theorem written_chunk (stale : ℕ → UInt8) {B i k : ℕ} (hk : k < (chunkAt B N i).byteCount) :
    fillChunk src stale (chunkAt B N i) k =
      if (chunkAt B N i).shift + k < N then src ((chunkAt B N i).shift + k) else 0 := by
  rw [fillChunk_apply stale copyCount_le hk]
  simp only [lt_copyCount hk]

/-- **`Write`** puts the caller's bytes and zeros behind them into the extent, in whatever order the
callbacks run. -/
theorem write_apply (p : ℕ) : (h.write filename src N offset order stale files).2 filename p =
    if Covers offset (alignUp N) p then (if p - offset < N then src (p - offset) else 0)
    else files filename p := by
  have hB := h.blockSize_pos
  have hfold : (h.write filename src N offset order stale files).2 filename =
      writeAll (files filename) (order.order.map fun i => (offset + (chunkAt h.blockSize N i).shift,
        readAt (fillChunk src (stale i) (chunkAt h.blockSize N i)) 0
          (chunkAt h.blockSize N i).byteCount)) := by
    unfold ArcherPrioAioHandle.write writeAll
    simp only [Function.update_self, List.foldl_map]
    rfl
  -- the chunk that covers a position of the file
  have hcov : ∀ i,
      Covers (offset + (chunkAt h.blockSize N i).shift) (chunkAt h.blockSize N i).byteCount p ↔
      Covers offset (alignUp N) p ∧ (p - offset) / h.blockSize = i := by
    intro i
    have h0 : _ ↔ p - offset < alignUp N ∧ (p - offset) / h.blockSize = i := covers_chunkAt hB
    unfold Covers at h0 ⊢
    constructor
    · intro h1
      obtain ⟨h2, h3⟩ := h0.mp ⟨by omega, by omega⟩
      exact ⟨⟨by omega, by omega⟩, h3⟩
    · intro h1
      obtain ⟨h2, h3⟩ := h0.mpr ⟨by omega, h1.2⟩
      exact ⟨by omega, by omega⟩
  rw [hfold]
  by_cases hin : Covers offset (alignUp N) p
  · rw [if_pos hin]
    refine writeAll_of_agree (fun q hq hq' => ?_) ?_
    · obtain ⟨i, -, rfl⟩ := List.mem_map.mp hq
      rw [length_readAt] at hq'
      have hk : p - (offset + (chunkAt h.blockSize N i).shift) <
        (chunkAt h.blockSize N i).byteCount := by
        have h1 := hq'.1
        have h2 := hq'.2
        omega
      have hp : (chunkAt h.blockSize N i).shift + (p - (offset + (chunkAt h.blockSize N i).shift)) =
          p - offset := by
        have h1 := hq'.1
        omega
      rw [getElem?_readAt hk, Nat.zero_add, written_chunk _ hk, hp]
    · have hp : p - offset < alignUp N := by
        have h1 := hin.1
        have h2 := hin.2
        omega
      refine ⟨_, List.mem_map_of_mem (order.chunk_mem h.blockSize_pos hp), ?_⟩
      rw [length_readAt]
      exact (hcov _).mpr ⟨hin, rfl⟩
  · rw [if_neg hin]
    refine writeAll_of_not_covers fun q hq hq' => hin ?_
    obtain ⟨i, -, rfl⟩ := List.mem_map.mp hq
    rw [length_readAt] at hq'
    exact ((hcov i).mp hq').1

/-- **`Read`** copies the bytes of the extent to the caller's buffer, and nothing behind them. -/
theorem read_apply (p : ℕ) : (h.read filename N offset order stale files dst).2 p =
    if p < N then files filename (offset + p) else dst p := by
  have hB := h.blockSize_pos
  have hfold : (h.read filename N offset order stale files dst).2 =
      writeAll dst (order.order.map fun i => ((chunkAt h.blockSize N i).shift,
        readAt (writeAt (stale i) 0
          (readAt (files filename) (offset + (chunkAt h.blockSize N i).shift)
            (chunkAt h.blockSize N i).byteCount)) 0 (chunkAt h.blockSize N i).copyCount)) := by
    unfold ArcherPrioAioHandle.read writeAll
    simp only [List.foldl_map, readCallback, ite_writeAt]
  have hcov : ∀ i, Covers (chunkAt h.blockSize N i).shift (chunkAt h.blockSize N i).copyCount p ↔
      p < N ∧ p / h.blockSize = i := by
    intro i
    have h0 : _ ↔ p < alignUp N ∧ p / h.blockSize = i := covers_chunkAt hB
    have hle := copyCount_le (B := h.blockSize) (N := N) (i := i)
    have hN := le_alignUp N
    unfold Covers at h0 ⊢
    constructor
    · intro h1
      obtain ⟨h2, h3⟩ := h0.mp ⟨h1.1, by omega⟩
      have h4 : p - (chunkAt h.blockSize N i).shift < (chunkAt h.blockSize N i).byteCount :=
        by omega
      have h5 := (lt_copyCount h4).mp (by omega)
      exact ⟨by omega, h3⟩
    · intro h1
      obtain ⟨h2, h3⟩ := h0.mpr ⟨by omega, h1.2⟩
      have h4 : p - (chunkAt h.blockSize N i).shift < (chunkAt h.blockSize N i).byteCount :=
        by omega
      have h5 := (lt_copyCount h4).mpr (by omega)
      exact ⟨h2, by omega⟩
  rw [hfold]
  by_cases hin : p < N
  · rw [if_pos hin]
    refine writeAll_of_agree (fun q hq hq' => ?_) ?_
    · obtain ⟨i, -, rfl⟩ := List.mem_map.mp hq
      rw [length_readAt] at hq'
      have h1 := hq'.1
      have h2 := hq'.2
      have hle := copyCount_le (B := h.blockSize) (N := N) (i := i)
      rw [getElem?_readAt (by omega), writeAt_readAt, if_pos ⟨by omega, by omega⟩]
      congr 2
      omega
    · refine ⟨_,
        List.mem_map_of_mem
          (order.chunk_mem h.blockSize_pos (Nat.lt_of_lt_of_le hin (le_alignUp N))), ?_⟩
      rw [length_readAt]
      exact (hcov _).mpr ⟨hin, rfl⟩
  · rw [if_neg hin]
    refine writeAll_of_not_covers fun q hq hq' => hin ?_
    obtain ⟨i, -, rfl⟩ := List.mem_map.mp hq
    rw [length_readAt] at hq'
    exact ((hcov i).mp hq').1

end Transfers

/-- **Round trip**: what was written is read back, whatever the buffer, the block size, the order of
the callbacks and the contents of the bounce buffers. The chunks tile the extent and fit the bounce
buffers, the copies stay within the caller's buffer, the padding is zero, and the rest of the files
and of the destination is as before. -/
theorem write_read (h : ArcherPrioAioHandle) (filename : String) (src dst : ℕ → UInt8)
    (numBytes offset : ℕ) (order order' : Order (numIocbs h.blockSize numBytes))
    (stale stale' : ℕ → ℕ → UInt8) (files : Files) :
    let files' := (h.write filename src numBytes offset order stale files).2
    let dst' := (h.read filename numBytes offset order' stale' files' dst).2
    readAt dst' 0 numBytes = readAt src 0 numBytes ∧
      (∀ p, numBytes ≤ p → dst' p = dst p) ∧
      (∀ p < alignUp numBytes, ∃! i, i < numIocbs h.blockSize numBytes ∧
        Covers (chunkAt h.blockSize numBytes i).shift
          (chunkAt h.blockSize numBytes i).byteCount p) ∧
      (∀ i < numIocbs h.blockSize numBytes,
        (chunkAt h.blockSize numBytes i).byteCount ≤ h.blockSize ∧
        (chunkAt h.blockSize numBytes i).shift + (chunkAt h.blockSize numBytes i).byteCount ≤
          alignUp numBytes ∧
        (0 < (chunkAt h.blockSize numBytes i).copyCount →
          (chunkAt h.blockSize numBytes i).shift + (chunkAt h.blockSize numBytes i).copyCount ≤
            numBytes)) ∧
      (∀ k, numBytes ≤ k → k < alignUp numBytes → files' filename (offset + k) = 0) ∧
      (∀ p, ¬ Covers offset (alignUp numBytes) p → files' filename p = files filename p) ∧
      ∀ other, other ≠ filename → files' other = files other := by
  have hB := h.blockSize_pos
  have hle := le_alignUp numBytes
  intro files' dst'
  have hwrite : ∀ p, files' filename p = if Covers offset (alignUp numBytes) p then
      (if p - offset < numBytes then src (p - offset) else 0) else files filename p :=
      fun p => write_apply p
  have hread : ∀ p, dst' p = if p < numBytes then files' filename (offset + p) else dst p :=
    fun p => read_apply p
  refine ⟨readAt_congr fun k hk => ?_, fun p hp => ?_, fun p hp => ?_, fun i hi => ?_,
    fun k hk hk' => ?_, fun p hp => ?_, fun other hother => ?_⟩
  · rw [Nat.zero_add, hread, if_pos hk, hwrite, if_pos ⟨by omega, by omega⟩,
      show offset + k - offset = k by omega, if_pos hk]
  · rw [hread, if_neg (by omega)]
  · refine ⟨p / h.blockSize, ⟨?_, (covers_chunkAt hB).mpr ⟨hp, rfl⟩⟩, fun i hi => ?_⟩
    · rw [lt_numIocbs hB]
      exact Nat.lt_of_le_of_lt (Nat.div_mul_le_self p h.blockSize) hp
    · exact ((covers_chunkAt hB).mp hi.2).2.symm
  · rw [lt_numIocbs hB] at hi
    refine ⟨byteCount_le, ?_⟩
    unfold chunkAt
    simp only
    constructor
    · split_ifs <;> omega
    · split_ifs <;> omega
  · rw [hwrite, if_pos ⟨by omega, by omega⟩, if_neg (by omega)]
  · rw [hwrite, if_neg hp]
  · exact Function.update_of_ne hother _ _

/-! ### Aligned I/O -/

/-- The file offsets and lengths that the callbacks of a transfer pass to `pread` or `pwrite`. -/
def ArcherPrioAioHandle.ioCalls (h : ArcherPrioAioHandle) (numBytes offset : ℕ) : List (ℕ × ℕ) :=
  (List.range (numIocbs h.blockSize numBytes)).map fun i =>
    (offset + (chunkAt h.blockSize numBytes i).shift, (chunkAt h.blockSize numBytes i).byteCount)

/-- What `O_DIRECT` asks for. -/
def Aligned (call : ℕ × ℕ) : Prop := kAioAlignment ∣ call.1 ∧ kAioAlignment ∣ call.2

instance (call : ℕ × ℕ) : Decidable (Aligned call) := inferInstanceAs (Decidable (_ ∧ _))

theorem dvd_alignUp (n : ℕ) : kAioAlignment ∣ alignUp n :=
  ⟨(n + kAioAlignment - 1) / kAioAlignment, Nat.mul_comm _ _⟩

/-- The block size is aligned unless the setting is accepted and not a multiple of four. -/
theorem dvd_getBlockSize (kb : Option ℤ) :
    kAioAlignment ∣ getBlockSize kb ↔ ∀ k, kb = some k → 256 ≤ k → k ≤ 65536 → 4 ∣ k := by
  unfold kAioAlignment getBlockSize
  cases kb with
  | none =>
    constructor
    · rintro - k ⟨⟩
    · intro
      decide
  | some kb =>
    simp only [Option.some.injEq, forall_eq']
    split_ifs with h
    · constructor
      · intro hdvd _ _
        omega
      · intro hdvd
        have h4 := hdvd h.1 h.2
        omega
    · constructor
      · intro _ hlow hhigh
        exact absurd ⟨hlow, hhigh⟩ h
      · intro
        decide

/-- With an aligned block size all chunks are aligned; otherwise a second chunk is not. -/
theorem ioCalls_aligned (h : ArcherPrioAioHandle) (numBytes : ℕ) {offset : ℕ}
    (hoff : kAioAlignment ∣ offset) :
    (∀ call ∈ h.ioCalls numBytes offset, Aligned call) ↔
      kAioAlignment ∣ h.blockSize ∨ alignUp numBytes ≤ h.blockSize := by
  have hB := h.blockSize_pos
  have hup := dvd_alignUp numBytes
  unfold ArcherPrioAioHandle.ioCalls
  simp only [List.mem_map, List.mem_range, forall_exists_index, and_imp, forall_apply_eq_imp_iff₂,
    lt_numIocbs hB]
  constructor
  · intro hall
    by_contra hnot
    obtain ⟨hdvd, hlt⟩ := not_or.mp hnot
    -- the first chunk is a whole block
    have hfirst := (hall 0 (by omega)).2
    unfold chunkAt at hfirst
    simp only [Nat.zero_mul, Nat.zero_add] at hfirst
    rw [if_neg (by omega)] at hfirst
    exact hdvd hfirst
  · rintro (hdvd | hle) i hi
    · have hshift : kAioAlignment ∣ i * h.blockSize := Nat.dvd_trans hdvd (Nat.dvd_mul_left _ i)
      refine ⟨Nat.dvd_add hoff hshift, ?_⟩
      unfold chunkAt
      simp only
      split_ifs
      · exact Nat.dvd_sub hup hshift
      · exact hdvd
    · -- there is only one chunk
      have hzero : i = 0 := by
        by_contra hne
        have hmul : h.blockSize ≤ i * h.blockSize :=
          Nat.le_mul_of_pos_left _ (Nat.pos_of_ne_zero hne)
        omega
      subst hzero
      have hsize : (chunkAt h.blockSize numBytes 0).byteCount = alignUp numBytes := by
        unfold chunkAt
        simp only
        split_ifs <;> omega
      refine ⟨?_, hsize ▸ hup⟩
      simpa [chunkAt] using hoff

/-- **Aligned I/O**: all calls of a transfer at an aligned offset are aligned exactly if the setting
is not an accepted number that is no multiple of four, or the transfer fits into one block. -/
theorem ioCalls_aligned_iff (kb : Option ℤ) (numBytes offset : ℕ) (hoff : kAioAlignment ∣ offset) :
    (∀ call ∈ (ArcherPrioAioHandle.new kb).ioCalls numBytes offset, Aligned call) ↔
      (∀ k, kb = some k → 256 ≤ k → k ≤ 65536 → 4 ∣ k) ∨ alignUp numBytes ≤ getBlockSize kb := by
  rw [ioCalls_aligned _ _ hoff, ← dvd_getBlockSize]
  rfl

theorem ioCalls_aligned_default :
    (∀ call ∈ (ArcherPrioAioHandle.new none).ioCalls 3000000 8192, Aligned call) ↔
      (∀ k, (none : Option ℤ) = some k → 256 ≤ k → k ≤ 65536 → 4 ∣ k) ∨
        alignUp 3000000 ≤ getBlockSize none :=
  ioCalls_aligned_iff none 3000000 8192 (by decide)

/-- With blocks of 257 KB the second chunk of a transfer is at 263168. -/
theorem ioCalls_257 : ¬ ∀ call ∈ (ArcherPrioAioHandle.new (some 257)).ioCalls 300000 0,
    Aligned call := by
  decide

end MoeInfinity.Core.AioHandle
