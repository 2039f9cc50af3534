import MoeInfinity.Kernel.Triton

/-! # Tiles of a matrix product

What the matrix kernels share: a program for each tile of `BLOCK_M` rows and `BLOCK_N` columns of
the result, a loop over tiles of `BLOCK_K` of the inner dimension, masks at the borders, and a store
of the columns between two bounds.

* `loop_sum`: the accumulator of the loop has the sum of what the rounds add.
* `sum_tiles`: with the masks this is the sum over the inner dimension.
* `stored_cols`: the programs store all entries of the columns, in whatever order. -/

namespace MoeInfinity.Kernel.Gemm

open MoeInfinity.Lib.Grid MoeInfinity.Lib.Strided MoeInfinity.Kernel.Triton

/-- A tile of a matrix, zero where an index is not below its bound. -/
def loadMatrix {α : Type} [Zero α] (t : Tensor α) (n m : ℕ) (row col : ℕ → ℕ) (rows cols : ℕ) :
    Option (ℕ → ℕ → α) :=
  loadTile n m fun i j => if row i < rows ∧ col j < cols then t.load [row i, col j] else some 0

/-- `tl.dot` of tiles. -/
def dotTiles {α : Type} [NonUnitalNonAssocSemiring α] (k : ℕ) (a b : ℕ → ℕ → α) (i j : ℕ) : α :=
  sumLanes k fun t => a i t * b t j

/-- `tl.trans` of a tile. -/
def trans {α : Type} (a : ℕ → ℕ → α) (i j : ℕ) : α := a j i

/-- The lanes of a tile whose row is below `M` and whose column is from `lo` on below `hi`. -/
def lanesOf (BLOCK_M BLOCK_N M lo hi : ℕ) (program : ℕ × ℕ) : List (ℕ × ℕ) :=
  (grid2 BLOCK_M BLOCK_N).filter fun l => program.1 * BLOCK_M + l.1 < M ∧
  lo ≤ program.2 * BLOCK_N + l.2 ∧
    program.2 * BLOCK_N + l.2 < hi

/-- `tl.store` of a tile to a matrix that has the columns from `lo` on below `hi`. -/
def storeCols {α : Type} (BLOCK_M BLOCK_N M lo hi : ℕ) (program : ℕ × ℕ) (v : ℕ → ℕ → α) :
    Option (List (ℕ × α)) :=
  (lanesOf BLOCK_M BLOCK_N M lo hi program).mapM fun l =>
    store [M, hi - lo] [(program.1 * BLOCK_M + l.1 : ℕ), (program.2 * BLOCK_N + l.2 - lo : ℕ)]
      (v l.1 l.2)

variable {α : Type}

/-- The cells of a tile of a matrix. -/
def cells (BLOCK_M BLOCK_N M lo hi : ℕ) (f : ℕ → ℕ → α) (program : ℕ × ℕ) : List (ℕ × α) :=
  (lanesOf BLOCK_M BLOCK_N M lo hi program).map fun l =>
    (offset (strides [M, hi - lo]) [program.1 * BLOCK_M + l.1, program.2 * BLOCK_N + l.2 - lo],
      f (program.1 * BLOCK_M + l.1) (program.2 * BLOCK_N + l.2))

variable {n m rows cols BLOCK_M BLOCK_N M N lo hi : ℕ}

theorem mem_lanesOf {program l : ℕ × ℕ} : l ∈ lanesOf BLOCK_M BLOCK_N M lo hi program ↔
    (l.1 < BLOCK_M ∧ l.2 < BLOCK_N) ∧ program.1 * BLOCK_M + l.1 < M ∧
    lo ≤ program.2 * BLOCK_N + l.2 ∧
      program.2 * BLOCK_N + l.2 < hi := by
  unfold lanesOf
  rw [List.mem_filter, mem_grid2, decide_eq_true_iff]

theorem loadMatrix_eq [Zero α] {t : Tensor α} (ht : t.shape = [rows, cols])
    (hsmall : t.shape.prod < 2 ^ 31) (n m : ℕ) (row col : ℕ → ℕ) :
    ∃ v, loadMatrix t n m row col rows cols = some v ∧ ∀ i < n, ∀ j < m, v i j =
      if row i < rows ∧ col j < cols then t.entry [row i, col j] else 0 := by
  refine loadTile_eq fun i _ j _ => ?_
  split_ifs with h
  · have hinside : Inside [row i, col j] t.shape := ht ▸ .cons h.1 (.cons h.2 .nil)
    exact Tensor.load_eq hinside hsmall
  · rfl

theorem storeCols_eq (hsmall : M * (hi - lo) < 2 ^ 31) {program : ℕ × ℕ} {v f : ℕ → ℕ → α}
    (hv : ∀ l ∈ lanesOf BLOCK_M BLOCK_N M lo hi program,
      v l.1 l.2 = f (program.1 * BLOCK_M + l.1) (program.2 * BLOCK_N + l.2)) :
    storeCols BLOCK_M BLOCK_N M lo hi program v =
    some (cells BLOCK_M BLOCK_N M lo hi f program) := by
  refine mapM_eq_pure fun l hl => ?_
  obtain ⟨-, hrow, hlo, hhi⟩ := mem_lanesOf.mp hl
  have hinside : Inside [program.1 * BLOCK_M + l.1, program.2 * BLOCK_N + l.2 - lo] [M, hi - lo] :=
    .cons hrow (.cons (by omega) .nil)
  rw [hv l hl]
  exact store_eq hinside (by simpa using hsmall) _

/-- **The programs store all entries**, in whatever order. -/
theorem stored_cols {schedule : List (ℕ × α) → List (ℕ × α)}
    (hschedule : ∀ cells, (schedule cells).Perm cells) (mem : ℕ → α) (f : ℕ → ℕ → α)
    (hM : 0 < BLOCK_M) (hN : 0 < BLOCK_N) (hhi : hi ≤ N) {i j : ℕ} (hi' : i < M) (hlo : lo ≤ j)
    (hj : j < hi) :
    stored mem
      (schedule
        ((grid2 (cdiv M BLOCK_M) (cdiv N BLOCK_N)).map (cells BLOCK_M BLOCK_N M lo hi f)).flatten)
        (offset (strides [M, hi - lo]) [i, j - lo]) = f i j := by
  have hlaunch : IsLaunch (grid2 (cdiv M BLOCK_M) (cdiv N BLOCK_N))
      (cells BLOCK_M BLOCK_N M lo hi f) (schedule _) :=
    hschedule _
  have hinside : Inside [i, j - lo] [M, hi - lo] := .cons hi' (.cons (by omega) .nil)
  have hrow : i / BLOCK_M * BLOCK_M + i % BLOCK_M = i := Nat.div_add_mod' i BLOCK_M
  have hcol : j / BLOCK_N * BLOCK_N + j % BLOCK_N = j := Nat.div_add_mod' j BLOCK_N
  refine hlaunch.stored_eq (fun p _ c hc haddr => ?_) ⟨(i / BLOCK_M, j / BLOCK_N), ?_, ?_⟩
  · obtain ⟨l, hl, rfl⟩ := List.mem_map.mp hc
    obtain ⟨-, hrow, hlo', hhi'⟩ := mem_lanesOf.mp hl
    have hsame := offset_inj (.cons hrow (.cons (by omega) .nil)) hinside haddr
    simp only [List.cons.injEq, and_true] at hsame
    show f _ _ = f i j
    rw [hsame.1, show p.2 * BLOCK_N + l.2 = j by omega]
  · exact mem_grid2.mpr ⟨lt_cdiv hM hi', lt_cdiv hN (hj.trans_le hhi)⟩
  · have hmem : (i % BLOCK_M, j % BLOCK_N) ∈
        lanesOf BLOCK_M BLOCK_N M lo hi (i / BLOCK_M, j / BLOCK_N) := by
      rw [mem_lanesOf]
      dsimp only
      rw [hrow, hcol]
      exact ⟨⟨Nat.mod_lt i hM, Nat.mod_lt j hN⟩, hi', hlo, hj⟩
    refine ⟨_, List.mem_map_of_mem hmem, ?_⟩
    · show offset _
        [i / BLOCK_M * BLOCK_M + i % BLOCK_M, j / BLOCK_N * BLOCK_N + j % BLOCK_N - lo] = _
      rw [hrow, hcol]

/-- **The accumulator** has the sum of what the rounds add. -/
theorem loop_sum {V : Type} [AddCommMonoid V] {tiles : ℕ}
    {round : (ℕ → ℕ → V) → ℕ → Option (ℕ → ℕ → V)} {g : ℕ → ℕ → ℕ → V}
    (hround : ∀ T < tiles, ∀ acc, ∃ acc', round acc T = some acc' ∧
      ∀ i < n, ∀ j < m, acc' i j = acc i j + g T i j) :
    ∃ acc, (List.range tiles).foldlM round (fun _ _ => 0) = some acc ∧
      ∀ i < n, ∀ j < m, acc i j = ((List.range tiles).map fun T => g T i j).sum := by
  refine foldlM_range_inv (P := fun T (acc : ℕ → ℕ → V) => ∀ i < n, ∀ j < m,
    acc i j = ((List.range T).map fun T => g T i j).sum) (fun _ _ _ _ => rfl)
      fun T hT acc hacc => ?_
  obtain ⟨acc', hacc', hsum⟩ := hround T hT acc
  refine ⟨acc', hacc', fun i hi j hj => ?_⟩
  rw [hsum i hi j hj, hacc i hi j hj, List.range_succ, List.map_append, List.sum_append,
    List.map_singleton, List.sum_singleton]

/-- **The rounds add up** to the sum over the inner dimension. -/
theorem sum_tiles {V : Type} [AddCommMonoid V] {K BLOCK_K : ℕ} (hK : 0 < BLOCK_K) (f : ℕ → V) :
    ((List.range (cdiv K BLOCK_K)).map fun T =>
      sumLanes BLOCK_K fun t => if T * BLOCK_K + t < K then f (T * BLOCK_K + t) else 0).sum =
        ((List.range K).map f).sum := by
  rw [← sum_lanes hK f]
  refine congrArg List.sum (List.map_congr_left fun T _ => ?_)
  unfold sumLanes lanes
  rw [List.map_map]
  rfl

end MoeInfinity.Kernel.Gemm
