import Mathlib.Algebra.Field.Rat
import MoeInfinity.Kernel.Gemm

/-! # The fused QKV projection

`kernel/fused_qkv.py`: one product with the three weights side by side, of which each program stores
its columns to the query, the key or the value, wherever the borders of the tiles lie. The places
are 32-bit numbers, and the tensors have fewer than 2³¹ entries, so that none wraps; the entries are
summed up exactly, and rounded when they are stored.

* `accumulate_eq`: the accumulator of a program has the entries of the product.
* `qkv_splits`: the three results are the three parts of the product, by head, for hidden states of
  any number of dimensions. -/

namespace MoeInfinity.Kernel.FusedQkv

open MoeInfinity.Python MoeInfinity.Lib.Grid MoeInfinity.Lib.Strided MoeInfinity.Kernel.Triton
open MoeInfinity.Kernel.Gemm
open MoeInfinity.Lib.RowMajor (index_lt)

variable {α : Type} [Field α]

/-- The arguments of the kernel. -/
structure Args (α : Type) where
  hidden : Tensor α
  weight : Tensor α
  M : ℕ
  N : ℕ
  K : ℕ
  Q_DIM : ℕ
  KV_DIM : ℕ
  BLOCK_M : ℕ
  BLOCK_N : ℕ
  BLOCK_K : ℕ

/-- The loop of the kernel. -/
def accumulate (a : Args α) (program : ℕ × ℕ) : Option (ℕ → ℕ → α) :=
  (List.range (cdiv a.K a.BLOCK_K)).foldlM (fun acc k_start => do
    let hidden ← loadMatrix a.hidden a.BLOCK_M a.BLOCK_K (program.1 * a.BLOCK_M + ·)
      (k_start * a.BLOCK_K + ·) a.M a.K
    let weight ← loadMatrix a.weight a.BLOCK_K a.BLOCK_N (k_start * a.BLOCK_K + ·)
      (program.2 * a.BLOCK_N + ·) a.K a.N
    some fun i j => acc i j + dotTiles a.BLOCK_K hidden weight i j) fun _ _ => 0

/-- `_fused_qkv_kernel`: the cells a program stores to the query, the key and the value. -/
def fusedQkvKernel (cast : α → α) (a : Args α) (program : ℕ × ℕ) :
    Option (List (ℕ × α) × List (ℕ × α) × List (ℕ × α)) := do
  let acc ← accumulate a program
  let out := fun i j => cast (acc i j)
  let q ← storeCols a.BLOCK_M a.BLOCK_N a.M 0 a.Q_DIM program out
  let k ← storeCols a.BLOCK_M a.BLOCK_N a.M a.Q_DIM (a.Q_DIM + a.KV_DIM) program out
  let v ← storeCols a.BLOCK_M a.BLOCK_N a.M (a.Q_DIM + a.KV_DIM) a.N program out
  some (q, k, v)

/-- The arguments of `fused_qkv_proj`. -/
structure Inputs (α : Type) where
  hiddenStates : Tensor α
  weightQkv : Tensor α
  numQHeads : ℕ
  numKvHeads : ℕ
  headDim : ℕ

namespace Inputs

variable (x : Inputs α)

/-- `orig_shape[:-1]`. -/
def prefixShape : List ℕ := x.hiddenStates.shape.dropLast

def K : ℕ := x.hiddenStates.shape.getLastD 0

def M : ℕ := x.prefixShape.prod

def qDim : ℕ := x.numQHeads * x.headDim

def kvDim : ℕ := x.numKvHeads * x.headDim

def totalDim : ℕ := x.qDim + 2 * x.kvDim

/-- The checks of `fused_qkv_proj`. -/
def check : Except KernelError Unit := do
  refuse (x.hiddenStates.shape.length < 2)
    (.py (.valueError
      s!"hidden_states must be at least 2D, got shape {tupleStr x.hiddenStates.shape}"))
  refuse (¬(x.hiddenStates.dtype = .float16 ∨ x.hiddenStates.dtype = .bfloat16))
    (.typeError s!"hidden_states must be fp16 or bf16, got {x.hiddenStates.dtype.str}")
  refuse (¬(x.weightQkv.dtype = .float16 ∨ x.weightQkv.dtype = .bfloat16))
    (.typeError s!"weight_qkv must be fp16 or bf16, got {x.weightQkv.dtype.str}")
  refuse (x.hiddenStates.dtype ≠ x.weightQkv.dtype)
    (.typeError ("hidden_states and weight_qkv must share the same dtype, got " ++
      s!"{x.hiddenStates.dtype.str} and {x.weightQkv.dtype.str}"))
  refuse (!x.hiddenStates.isCuda || !x.weightQkv.isCuda)
    (.py (.valueError "hidden_states and weight_qkv must be CUDA tensors"))
  refuse (x.K = 0)
    (.py (.runtimeError ("cannot reshape tensor of 0 elements into shape [-1, 0] because the " ++
      "unspecified dimension size -1 can be any value and is ambiguous")))
  refuse (x.weightQkv.shape.length ≠ 2)
    (.py (.valueError s!"weight_qkv must be 2D, got shape {tupleStr x.weightQkv.shape}"))
  refuse (x.weightQkv.shape.getD 0 0 ≠ x.K)
    (.py (.valueError
      s!"hidden dimension mismatch: hidden_states={x.K}, weight_qkv={x.weightQkv.shape.getD 0 0}"))
  refuse (x.weightQkv.shape.getD 1 0 ≠ x.totalDim)
    (.py (.valueError
      s!"output dimension mismatch: expected {x.totalDim}, got {x.weightQkv.shape.getD 1 0}"))

/-- The arguments of the launch. -/
def args (BLOCK_M BLOCK_N BLOCK_K : ℕ) : Args α where
  hidden := x.hiddenStates.reshape [x.M, x.K]
  weight := x.weightQkv
  M := x.M
  N := x.totalDim
  K := x.K
  Q_DIM := x.qDim
  KV_DIM := x.kvDim
  BLOCK_M := BLOCK_M
  BLOCK_N := BLOCK_N
  BLOCK_K := BLOCK_K

/-- A result, after the launch stored these cells. -/
def result (schedule : List (ℕ × α) → List (ℕ × α)) (empty : ℕ → α) (heads : ℕ)
    (cells : List (List (ℕ × α))) :
    Tensor α :=
  Tensor.reshape ⟨[x.M, heads * x.headDim], fun idx =>
    stored empty (schedule cells.flatten) (offset (strides [x.M, heads * x.headDim]) idx),
      x.hiddenStates.dtype,
    x.hiddenStates.device⟩ (x.prefixShape ++ [heads, x.headDim])

end Inputs

/-- `fused_qkv_proj`, with the order in which the programs store, and what `torch.empty` has. -/
def fusedQkvProj (cast : α → α) (schedule : List (ℕ × α) → List (ℕ × α)) (empty : ℕ → α)
    (BLOCK_M BLOCK_N BLOCK_K : ℕ) (x : Inputs α) :
    Except KernelError (Option (Tensor α × Tensor α × Tensor α)) := do
  x.check
  let cells := (grid2 (cdiv x.M BLOCK_M) (cdiv x.totalDim BLOCK_N)).mapM
    (fusedQkvKernel cast (x.args BLOCK_M BLOCK_N BLOCK_K))
  .ok (cells.map fun cells => (x.result schedule empty x.numQHeads (cells.map (·.1)),
    x.result schedule empty x.numKvHeads (cells.map (·.2.1)),
    x.result schedule empty x.numKvHeads (cells.map (·.2.2))))

/-! ### What it computes -/

section Program

variable {a : Args α} {cast : α → α} {program : ℕ × ℕ}

/-- An entry of the product. -/
def product (a : Args α) (i j : ℕ) : α :=
  ((List.range a.K).map fun k => a.hidden.entry [i, k] * a.weight.entry [k, j]).sum

/-- Tensors of the right shapes, with fewer than 2³¹ entries. -/
structure Args.Fits (a : Args α) : Prop where
  hidden : a.hidden.shape = [a.M, a.K]
  weight : a.weight.shape = [a.K, a.N]
  dims : a.N = a.Q_DIM + a.KV_DIM + a.KV_DIM
  blockK : 0 < a.BLOCK_K
  hiddenSmall : a.hidden.shape.prod < 2 ^ 31
  weightSmall : a.weight.shape.prod < 2 ^ 31
  qSmall : a.M * a.Q_DIM < 2 ^ 31
  kvSmall : a.M * a.KV_DIM < 2 ^ 31

/-- **The accumulator** has the entries of the product. -/
theorem accumulate_eq (h : a.Fits) (program : ℕ × ℕ) : ∃ acc, accumulate a program = some acc ∧
    ∀ i < a.BLOCK_M, ∀ j < a.BLOCK_N, program.1 * a.BLOCK_M + i < a.M →
      program.2 * a.BLOCK_N + j < a.N →
      acc i j = product a (program.1 * a.BLOCK_M + i) (program.2 * a.BLOCK_N + j) := by
  let hiddenAt := fun T i t => if program.1 * a.BLOCK_M + i < a.M ∧ T * a.BLOCK_K + t < a.K then
    a.hidden.entry [program.1 * a.BLOCK_M + i, T * a.BLOCK_K + t] else 0
  let weightAt := fun T t j => if T * a.BLOCK_K + t < a.K ∧ program.2 * a.BLOCK_N + j < a.N then
    a.weight.entry [T * a.BLOCK_K + t, program.2 * a.BLOCK_N + j] else 0
  obtain ⟨acc, hacc, hsum⟩ : ∃ acc, accumulate a program = some acc ∧ ∀ i < a.BLOCK_M,
      ∀ j < a.BLOCK_N, acc i j = ((List.range (cdiv a.K a.BLOCK_K)).map fun T =>
        sumLanes a.BLOCK_K fun t => hiddenAt T i t * weightAt T t j).sum := by
    refine loop_sum fun T _ acc => ?_
    obtain ⟨hidden, hhidden, hhidden'⟩ := loadMatrix_eq h.hidden h.hiddenSmall a.BLOCK_M a.BLOCK_K
      (program.1 * a.BLOCK_M + ·) (T * a.BLOCK_K + ·)
    obtain ⟨weight, hweight, hweight'⟩ := loadMatrix_eq h.weight h.weightSmall a.BLOCK_K a.BLOCK_N
      (T * a.BLOCK_K + ·) (program.2 * a.BLOCK_N + ·)
    refine ⟨_,
      Option.bind_eq_some_iff.mpr ⟨_, hhidden, Option.bind_eq_some_iff.mpr ⟨_, hweight, rfl⟩⟩,
      fun i hi j hj =>
        congrArg (acc i j + ·) (congrArg List.sum (List.map_congr_left fun t ht => ?_))⟩
    rw [hhidden' i hi t (List.mem_range.mp ht), hweight' t (List.mem_range.mp ht) j hj]
  refine ⟨acc, hacc, fun i hi j hj hrow hcol => ?_⟩
  rw [hsum i hi j hj, product, ← sum_tiles h.blockK fun k =>
    a.hidden.entry [program.1 * a.BLOCK_M + i, k] * a.weight.entry [k, program.2 * a.BLOCK_N + j]]
  refine congrArg List.sum
    (List.map_congr_left fun T _ => congrArg List.sum (List.map_congr_left fun t _ => ?_))
  dsimp only [hiddenAt, weightAt]
  by_cases hk : T * a.BLOCK_K + t < a.K
  · rw [if_pos ⟨hrow, hk⟩, if_pos ⟨hk, hcol⟩, if_pos hk]
  · rw [if_neg fun hand => hk hand.2, if_neg hk, zero_mul]

/-- **A program** returns, and stores its columns of the product to the three tensors. -/
theorem kernel_eq (h : a.Fits) : fusedQkvKernel cast a program =
    some (cells a.BLOCK_M a.BLOCK_N a.M 0 a.Q_DIM (fun i j => cast (product a i j)) program,
      cells a.BLOCK_M a.BLOCK_N a.M a.Q_DIM (a.Q_DIM + a.KV_DIM)
        (fun i j => cast (product a i j)) program,
      cells a.BLOCK_M a.BLOCK_N a.M (a.Q_DIM + a.KV_DIM) a.N (fun i j => cast (product a i j))
        program) := by
  obtain ⟨acc, hacc, hentries⟩ := accumulate_eq h program
  have hdims := h.dims
  have hstore : ∀ lo hi, hi ≤ a.N → a.M * (hi - lo) < 2 ^ 31 →
      storeCols a.BLOCK_M a.BLOCK_N a.M lo hi program (fun i j => cast (acc i j)) =
        some (cells a.BLOCK_M a.BLOCK_N a.M lo hi (fun i j => cast (product a i j)) program) := by
    intro lo hi hle hsmall
    refine storeCols_eq hsmall fun l hl => ?_
    obtain ⟨⟨hi', hj⟩, hrow, -, hcol⟩ := mem_lanesOf.mp hl
    rw [hentries l.1 hi' l.2 hj hrow (hcol.trans_le hle)]
  have hkv : a.Q_DIM + a.KV_DIM - a.Q_DIM = a.KV_DIM := by omega
  have hv : a.N - (a.Q_DIM + a.KV_DIM) = a.KV_DIM := by omega
  exact Option.bind_eq_some_iff.mpr ⟨_, hacc,
    Option.bind_eq_some_iff.mpr ⟨_, hstore 0 a.Q_DIM (by omega) h.qSmall,
      Option.bind_eq_some_iff.mpr
        ⟨_, hstore a.Q_DIM (a.Q_DIM + a.KV_DIM) (by omega) (by rw [hkv]; exact h.kvSmall),
          Option.bind_eq_some_iff.mpr
            ⟨_, hstore (a.Q_DIM + a.KV_DIM) a.N le_rfl (by rw [hv]; exact h.kvSmall), rfl⟩⟩⟩⟩

end Program

/-- The entry of `hidden_states @ weight_qkv` at an index of the prefix and a column. -/
def projected (x : Inputs α) (idx : List ℕ) (col : ℕ) : α :=
  ((List.range x.K).map fun k => x.hiddenStates.entry (idx ++ [k]) * x.weightQkv.entry [k, col]).sum

/-- The tensors have fewer than 2³¹ entries. -/
structure Inputs.Fits (x : Inputs α) : Prop where
  hidden : x.M * x.K < 2 ^ 31
  weight : x.K * x.totalDim < 2 ^ 31
  q : x.M * x.qDim < 2 ^ 31
  kv : x.M * x.kvDim < 2 ^ 31

section Launch

variable {x : Inputs α} {BLOCK_M BLOCK_N BLOCK_K : ℕ} {schedule : List (ℕ × α) → List (ℕ × α)}
  {empty : ℕ → α}

omit [Field α] in
/-- An entry of a result is where the launch stored its column. -/
theorem result_entry {heads h e : ℕ} {idx : List ℕ} (cells : List (List (ℕ × α)))
    (hidx : Inside idx x.prefixShape) (hh : h < heads) (he : e < x.headDim) :
    (x.result schedule empty heads cells).entry (idx ++ [h, e]) =
      stored empty (schedule cells.flatten)
        (offset (strides [x.M, heads * x.headDim])
          [offset (strides x.prefixShape) idx, h * x.headDim + e]) := by
  have hinside : Inside [offset (strides x.prefixShape) idx, h * x.headDim + e]
      [x.M, heads * x.headDim] :=
    .cons (offset_lt hidx) (.cons (index_lt hh he) .nil)
  refine Tensor.reshape_entry hinside ?_
  rw [offset_append hidx.length_eq, offset_two, offset_two, List.prod_cons, List.prod_singleton]

omit [Field α] in
/-- What the checks say. -/
theorem shapes_of_check (h : x.check = .ok ()) : x.hiddenStates.shape = x.prefixShape ++ [x.K] ∧
    x.weightQkv.shape = [x.K, x.totalDim] := by
  unfold Inputs.check at h
  simp only [refuse_bind_eq_ok, refuse_eq_ok, not_not] at h
  obtain ⟨hdim, -, -, -, -, -, hweight, hrows, hcols⟩ := h
  refine ⟨eq_dropLast_append fun hnil => hdim ?_, ?_⟩
  · rw [hnil]
    exact Nat.two_pos
  · rw [← hrows, ← hcols]
    exact eq_of_length_two hweight

omit [Field α] in
/-- The launch fits. -/
theorem args_fits (hK : 0 < BLOCK_K) (hcheck : x.check = .ok ()) (hfits : x.Fits) :
    (x.args BLOCK_M BLOCK_N BLOCK_K).Fits := by
  obtain ⟨-, hweight⟩ := shapes_of_check hcheck
  refine ⟨rfl, hweight, ?_, hK, ?_, ?_, hfits.q, hfits.kv⟩
  · show x.qDim + 2 * x.kvDim = x.qDim + x.kvDim + x.kvDim
    omega
  · exact lt_of_eq_of_lt (by simp [Inputs.args, Tensor.reshape]) hfits.hidden
  · exact lt_of_eq_of_lt (by simp [Inputs.args, hweight]) hfits.weight

/-- The product of the launch is that of the rows of the prefix. -/
theorem product_args {idx : List ℕ} (hcheck : x.check = .ok ())
    (hidx : Inside idx x.prefixShape) (col : ℕ) :
    product (x.args BLOCK_M BLOCK_N BLOCK_K) (offset (strides x.prefixShape) idx) col =
      projected x idx col := by
  obtain ⟨hhidden, -⟩ := shapes_of_check hcheck
  refine congrArg List.sum (List.map_congr_left fun k hk => ?_)
  exact congrArg (· * _) (Tensor.rows_entry hhidden hidx (List.mem_range.mp hk))

end Launch

/-- **The fused projection** gives the three parts of the product of the hidden states with the
weights, by head, when the hidden states, the weights and the three results have fewer than 2³¹
entries each. -/
theorem qkv_splits {cast : α → α} {schedule : List (ℕ × α) → List (ℕ × α)}
    (hschedule : ∀ cells, (schedule cells).Perm cells) (empty : ℕ → α) {BLOCK_M BLOCK_N BLOCK_K : ℕ}
    (hM : 0 < BLOCK_M) (hN : 0 < BLOCK_N) (hK : 0 < BLOCK_K) {x : Inputs α}
    (hcheck : x.check = .ok ()) (hfits : x.Fits) :
    ∃ q k v, fusedQkvProj cast schedule empty BLOCK_M BLOCK_N BLOCK_K x = .ok (some (q, k, v)) ∧
      q.shape = x.prefixShape ++ [x.numQHeads, x.headDim] ∧
      k.shape = x.prefixShape ++ [x.numKvHeads, x.headDim] ∧
      v.shape = x.prefixShape ++ [x.numKvHeads, x.headDim] ∧ ∀ idx, Inside idx x.prefixShape →
      ∀ e < x.headDim,
        (∀ h < x.numQHeads, q.entry (idx ++ [h, e]) = cast (projected x idx (h * x.headDim + e))) ∧
        ∀ h < x.numKvHeads,
          k.entry (idx ++ [h, e]) = cast (projected x idx (x.qDim + (h * x.headDim + e))) ∧
          v.entry (idx ++ [h, e]) =
            cast (projected x idx (x.qDim + x.kvDim + (h * x.headDim + e))) := by
  let a := x.args BLOCK_M BLOCK_N BLOCK_K
  have hcells : (grid2 (cdiv x.M BLOCK_M) (cdiv x.totalDim BLOCK_N)).mapM (fusedQkvKernel cast a) =
      some ((grid2 (cdiv x.M BLOCK_M) (cdiv x.totalDim BLOCK_N)).map fun program =>
        (cells BLOCK_M BLOCK_N x.M 0 x.qDim (fun i j => cast (product a i j)) program,
          cells BLOCK_M BLOCK_N x.M x.qDim (x.qDim + x.kvDim)
            (fun i j => cast (product a i j)) program,
          cells BLOCK_M BLOCK_N x.M (x.qDim + x.kvDim) x.totalDim
              (fun i j => cast (product a i j)) program)) :=
    mapM_eq_pure fun program _ => kernel_eq (args_fits hK hcheck hfits)
  have hentry : ∀ lo hi heads : ℕ, hi ≤ x.totalDim → hi = lo + heads * x.headDim →
      ∀ idx, Inside idx x.prefixShape →
      ∀ e < x.headDim, ∀ h < heads, (x.result schedule empty heads
        ((grid2 (cdiv x.M BLOCK_M) (cdiv x.totalDim BLOCK_N)).map
          (cells BLOCK_M BLOCK_N x.M lo hi fun i j => cast (product a i j)))).entry
          (idx ++ [h, e]) =
        cast (projected x idx (lo + (h * x.headDim + e))) := by
    intro lo hi heads hle hhi idx hidx e he h hh
    have hcol : h * x.headDim + e < heads * x.headDim := index_lt hh he
    have hstored := stored_cols hschedule empty (fun i j => cast (product a i j)) hM hN hle
      (offset_lt hidx) (Nat.le_add_right lo (h * x.headDim + e)) (by omega)
    rw [show hi - lo = heads * x.headDim by omega, Nat.add_sub_cancel_left] at hstored
    rw [result_entry _ hidx hh he]
    exact hstored.trans (congrArg cast (product_args hcheck hidx _))
  have hproj : fusedQkvProj cast schedule empty BLOCK_M BLOCK_N BLOCK_K x = .ok (some
      (x.result schedule empty x.numQHeads ((grid2 (cdiv x.M BLOCK_M) (cdiv x.totalDim BLOCK_N)).map
          (cells BLOCK_M BLOCK_N x.M 0 x.qDim fun i j => cast (product a i j))),
        x.result schedule empty x.numKvHeads
          ((grid2 (cdiv x.M BLOCK_M) (cdiv x.totalDim BLOCK_N)).map
            (cells BLOCK_M BLOCK_N x.M x.qDim (x.qDim + x.kvDim) fun i j => cast (product a i j))),
        x.result schedule empty x.numKvHeads
          ((grid2 (cdiv x.M BLOCK_M) (cdiv x.totalDim BLOCK_N)).map
            (cells BLOCK_M BLOCK_N x.M (x.qDim + x.kvDim) x.totalDim fun i j =>
              cast (product a i j))))) := by
    unfold fusedQkvProj
    rw [hcheck]
    show Except.ok (((grid2 _ _).mapM (fusedQkvKernel cast a)).map _) = _
    rw [hcells, Option.map_some, List.map_map, List.map_map, List.map_map]
    rfl
  refine ⟨_, _, _, hproj, rfl, rfl, rfl,
    fun idx hidx e he => ⟨fun h hh => ?_, fun h hh => ⟨?_, ?_⟩⟩⟩
  · have hq :=
      hentry 0 x.qDim x.numQHeads (Nat.le_add_right _ _) (Nat.zero_add _).symm idx hidx e he h hh
    rwa [Nat.zero_add] at hq
  · exact hentry x.qDim (x.qDim + x.kvDim) x.numKvHeads (by unfold Inputs.totalDim; omega) rfl idx
      hidx e he h hh
  · refine hentry (x.qDim + x.kvDim) x.totalDim x.numKvHeads le_rfl ?_ idx hidx e he h hh
    show x.qDim + 2 * x.kvDim = x.qDim + x.kvDim + x.kvDim
    omega

/-- Two tokens of a batch of one, with one head of two dimensions for query, key and value. -/
def twoStates : Inputs ℚ where
  hiddenStates := ⟨[1, 2, 3], fun idx => idx.getD 1 0 + idx.getD 2 0, .bfloat16, .cuda 0⟩
  weightQkv := ⟨[3, 6], fun idx => idx.getD 1 0, .bfloat16, .cuda 0⟩
  numQHeads := 1
  numKvHeads := 1
  headDim := 2

theorem qkv_splits_twoStates :
    ∃ q k v, fusedQkvProj id List.reverse (fun _ => 0) 1 4 2 twoStates = .ok (some (q, k, v)) ∧
      q.entry [0, 1, 0, 1] = 6 ∧ k.entry [0, 1, 0, 1] = 18 ∧ v.entry [0, 1, 0, 1] = 30 := by
  obtain ⟨q, k, v, hproj, -, -, -, hentry⟩ :=
    @qkv_splits ℚ _ id List.reverse List.reverse_perm (fun _ => 0) 1 4 2 (by decide) (by decide)
      (by decide) twoStates rfl ⟨by decide, by decide, by decide, by decide⟩
  obtain ⟨hq, hkv⟩ := hentry [0, 1] (.cons (by decide) (.cons (by decide) .nil)) 1 (by decide)
  obtain ⟨hk, hv⟩ := hkv 0 Nat.one_pos
  refine ⟨q, k, v, hproj, (hq 0 Nat.one_pos).trans ?_, hk.trans ?_, hv.trans ?_⟩
  · decide +kernel
  · decide +kernel
  · decide +kernel

end MoeInfinity.Kernel.FusedQkv
