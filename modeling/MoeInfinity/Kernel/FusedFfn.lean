import Mathlib.Analysis.Complex.Exponential
import MoeInfinity.Kernel.Gemm

/-! # The fused feed-forward network

`kernel/fused_ffn.py`: the products with the gate and the up weights in one pass over the tiles of
the input, with the activation on the accumulators, and the product with the down weights by
`torch.matmul`.

* `accumulate_eq`: the two accumulators of a program have the entries of the two products.
* `ffn_reference`: for tensors with fewer than 2³¹ entries the result is that of the three products,
  rounded where the kernel and `matmul` round; without rounding it is that of `reference_ffn`. -/

namespace MoeInfinity.Kernel.FusedFfn

open MoeInfinity.Python MoeInfinity.Lib.Grid MoeInfinity.Lib.Strided MoeInfinity.Kernel.Triton
open MoeInfinity.Kernel.Gemm

variable {α : Type} [Field α]

/-- The logistic function, for an exponential function. -/
def sigmoid (exp : α → α) (x : α) : α := 1 / (1 + exp (-x))

def silu (exp : α → α) (x : α) : α := x * sigmoid exp x

/-- The arguments of the kernel. -/
structure Args (α : Type) where
  x : Tensor α
  gateWeight : Tensor α
  upWeight : Tensor α
  M : ℕ
  N : ℕ
  K : ℕ
  BLOCK_M : ℕ
  BLOCK_N : ℕ
  BLOCK_K : ℕ

/-- The loop of the kernel: `gate_acc` and `up_acc`. -/
def accumulate (a : Args α) (program : ℕ × ℕ) : Option (ℕ → ℕ → α × α) :=
  (List.range (cdiv a.K a.BLOCK_K)).foldlM (fun acc k_block => do
    let x_tile ← loadMatrix a.x a.BLOCK_M a.BLOCK_K (program.1 * a.BLOCK_M + ·)
      (k_block * a.BLOCK_K + ·) a.M a.K
    let gate_tile ← loadMatrix a.gateWeight a.BLOCK_N a.BLOCK_K (program.2 * a.BLOCK_N + ·)
      (k_block * a.BLOCK_K + ·) a.N a.K
    let up_tile ← loadMatrix a.upWeight a.BLOCK_N a.BLOCK_K (program.2 * a.BLOCK_N + ·)
      (k_block * a.BLOCK_K + ·) a.N a.K
    some fun i j => acc i j + (dotTiles a.BLOCK_K x_tile (trans gate_tile) i j,
      dotTiles a.BLOCK_K x_tile (trans up_tile) i j)) fun _ _ => 0

/-- `_fused_gate_up_silu_kernel`: the cells a program stores to the intermediate activations. -/
def fusedGateUpSiluKernel (exp cast : α → α) (a : Args α) (program : ℕ × ℕ) :
    Option (List (ℕ × α)) := do
  let acc ← accumulate a program
  storeCols a.BLOCK_M a.BLOCK_N a.M 0 a.N program fun i j =>
    cast (silu exp (acc i j).1 * (acc i j).2)

/-- The arguments of `fused_ffn`. -/
structure Inputs (α : Type) where
  x : Tensor α
  gateWeight : Tensor α
  upWeight : Tensor α
  downWeight : Tensor α

namespace Inputs

variable (f : Inputs α)

def M : ℕ := f.x.shape.getD 0 0

def K : ℕ := f.x.shape.getD 1 0

def I : ℕ := f.gateWeight.shape.getD 0 0

def KOut : ℕ := f.downWeight.shape.getD 0 0

/-- The checks of `fused_ffn`. -/
def check : Except KernelError Unit := do
  refuse (f.x.shape.length ≠ 2)
    (.py (.valueError s!"x must be 2D [M, K], got shape {tupleStr f.x.shape}"))
  refuse (f.gateWeight.shape.length ≠ 2 ∨ f.upWeight.shape.length ≠ 2 ∨
    f.downWeight.shape.length ≠
      2) (.py (.valueError "gate_weight, up_weight, and down_weight must be 2D"))
  refuse (f.x.dtype ≠ .bfloat16) (.typeError s!"x must be bf16, got {f.x.dtype.str}")
  refuse (f.gateWeight.dtype ≠ .bfloat16)
    (.typeError s!"gate_weight must be bf16, got {f.gateWeight.dtype.str}")
  refuse (f.upWeight.dtype ≠ .bfloat16)
    (.typeError s!"up_weight must be bf16, got {f.upWeight.dtype.str}")
  refuse (f.downWeight.dtype ≠ .bfloat16)
    (.typeError s!"down_weight must be bf16, got {f.downWeight.dtype.str}")
  refuse (!f.x.isCuda) (.py (.valueError "x must be a CUDA tensor"))
  refuse (!f.gateWeight.isCuda || !f.upWeight.isCuda || !f.downWeight.isCuda)
    (.py (.valueError "all weights must be CUDA tensors"))
  refuse (f.gateWeight.device ≠ f.x.device ∨ f.upWeight.device ≠ f.x.device ∨
    f.downWeight.device ≠
      f.x.device) (.py (.valueError "x and all weights must be on the same CUDA device"))
  refuse (f.gateWeight.shape.getD 1 0 ≠ f.K ∨ f.upWeight.shape.getD 1 0 ≠ f.K)
    (.py (.valueError (s!"projection K mismatch: x has K={f.K}, " ++
      s!"gate has K={f.gateWeight.shape.getD 1 0}, up has K={f.upWeight.shape.getD 1 0}")))
  refuse (f.upWeight.shape.getD 0 0 ≠ f.I)
    (.py (.valueError
      s!"intermediate size mismatch: gate has I={f.I}, up has I={f.upWeight.shape.getD 0 0}"))
  refuse (f.downWeight.shape.getD 1 0 ≠ f.I)
    (.py (.valueError
      s!"down projection mismatch: intermediate I={f.I}, down expects I={f.downWeight.shape.getD 1 0}"))

/-- The arguments of the launch. -/
def args (BLOCK_M BLOCK_N BLOCK_K : ℕ) : Args α where
  x := f.x
  gateWeight := f.gateWeight
  upWeight := f.upWeight
  M := f.M
  N := f.I
  K := f.K
  BLOCK_M := BLOCK_M
  BLOCK_N := BLOCK_N
  BLOCK_K := BLOCK_K

end Inputs

/-- `a @ b.T`, with the inner dimension `k`. -/
def matmulT (cast : α → α) (k : ℕ) (a b : Tensor α) : Tensor α :=
  { a with
    shape := [a.shape.getD 0 0, b.shape.getD 0 0]
    entry := fun idx =>
      cast ((List.range k).map fun i => a.entry [idx.getD 0 0, i] * b.entry [idx.getD 1 0, i]).sum }

/-- `fused_ffn`, with the order in which the programs store, and what `torch.empty` has. -/
def fusedFfn (exp cast : α → α) (schedule : List (ℕ × α) → List (ℕ × α)) (empty : ℕ → α)
    (BLOCK_M BLOCK_N BLOCK_K : ℕ) (f : Inputs α) : Except KernelError (Option (Tensor α)) := do
  f.check
  let cells := (grid2 (cdiv f.M BLOCK_M) (cdiv f.I BLOCK_N)).mapM
    (fusedGateUpSiluKernel exp cast (f.args BLOCK_M BLOCK_N BLOCK_K))
  .ok (cells.map fun cells =>
    let intermediate : Tensor α := ⟨[f.M, f.I], fun idx =>
      stored empty (schedule cells.flatten) (offset (strides [f.M, f.I]) idx),
        .bfloat16, f.x.device⟩
    matmulT cast f.I intermediate f.downWeight)

/-- `reference_ffn`. -/
def referenceFfn (exp cast : α → α) (f : Inputs α) : Tensor α :=
  let gate := matmulT cast f.K f.x f.gateWeight
  let up := matmulT cast f.K f.x f.upWeight
  matmulT cast f.I
    { gate with entry := fun idx => cast (cast (silu exp (gate.entry idx)) * up.entry idx) }
      f.downWeight

/-! ### What it computes -/

section Program

variable {a : Args α} {exp cast : α → α} {program : ℕ × ℕ}

/-- An entry of the product of the rows of the input with those of a weight. -/
def product (a : Args α) (weight : Tensor α) (i j : ℕ) : α :=
  ((List.range a.K).map fun k => a.x.entry [i, k] * weight.entry [j, k]).sum

/-- Tensors of the right shapes, with fewer than 2³¹ entries. -/
structure Args.Fits (a : Args α) : Prop where
  x : a.x.shape = [a.M, a.K]
  gate : a.gateWeight.shape = [a.N, a.K]
  up : a.upWeight.shape = [a.N, a.K]
  blockK : 0 < a.BLOCK_K
  xSmall : a.x.shape.prod < 2 ^ 31
  gateSmall : a.gateWeight.shape.prod < 2 ^ 31
  upSmall : a.upWeight.shape.prod < 2 ^ 31
  small : a.M * a.N < 2 ^ 31

/-- A tile of the input, and one of a weight. -/
def xAt (a : Args α) (program : ℕ × ℕ) (T i t : ℕ) : α :=
  if program.1 * a.BLOCK_M + i < a.M ∧ T * a.BLOCK_K + t < a.K then
    a.x.entry [program.1 * a.BLOCK_M + i, T * a.BLOCK_K + t]
  else 0

def weightAt (a : Args α) (weight : Tensor α) (program : ℕ × ℕ) (T j t : ℕ) : α :=
  if program.2 * a.BLOCK_N + j < a.N ∧ T * a.BLOCK_K + t < a.K then
    weight.entry [program.2 * a.BLOCK_N + j, T * a.BLOCK_K + t]
  else 0

/-- The rounds add up to an entry of the product. -/
theorem sum_rounds (weight : Tensor α) (hK : 0 < a.BLOCK_K) {i j : ℕ}
    (hrow : program.1 * a.BLOCK_M + i < a.M) (hcol : program.2 * a.BLOCK_N + j < a.N) :
    ((List.range (cdiv a.K a.BLOCK_K)).map fun T =>
      sumLanes a.BLOCK_K fun t => xAt a program T i t * weightAt a weight program T j t).sum =
        product a weight (program.1 * a.BLOCK_M + i) (program.2 * a.BLOCK_N + j) := by
  rw [product, ← sum_tiles hK fun k =>
    a.x.entry [program.1 * a.BLOCK_M + i, k] * weight.entry [program.2 * a.BLOCK_N + j, k]]
  refine congrArg List.sum
    (List.map_congr_left fun T _ => congrArg List.sum (List.map_congr_left fun t _ => ?_))
  unfold xAt weightAt
  by_cases hk : T * a.BLOCK_K + t < a.K
  · rw [if_pos ⟨hrow, hk⟩, if_pos ⟨hcol, hk⟩, if_pos hk]
  · rw [if_neg fun hand => hk hand.2, if_neg hk, zero_mul]

/-- **The accumulators** have the entries of the two products. -/
theorem accumulate_eq (h : a.Fits) (program : ℕ × ℕ) : ∃ acc, accumulate a program = some acc ∧
    ∀ i < a.BLOCK_M, ∀ j < a.BLOCK_N, program.1 * a.BLOCK_M + i < a.M →
      program.2 * a.BLOCK_N + j < a.N →
      acc i j = (product a a.gateWeight (program.1 * a.BLOCK_M + i) (program.2 * a.BLOCK_N + j),
        product a a.upWeight (program.1 * a.BLOCK_M + i) (program.2 * a.BLOCK_N + j)) := by
  obtain ⟨acc, hacc, hsum⟩ : ∃ acc, accumulate a program = some acc ∧ ∀ i < a.BLOCK_M,
      ∀ j < a.BLOCK_N, acc i j = ((List.range (cdiv a.K a.BLOCK_K)).map fun T =>
        (sumLanes a.BLOCK_K fun t => xAt a program T i t * weightAt a a.gateWeight program T j t,
          sumLanes a.BLOCK_K fun t =>
            xAt a program T i t * weightAt a a.upWeight program T j t)).sum := by
    refine loop_sum fun T _ acc => ?_
    obtain ⟨x, hx, hx'⟩ :=
      loadMatrix_eq h.x h.xSmall a.BLOCK_M a.BLOCK_K (program.1 * a.BLOCK_M + ·) (T * a.BLOCK_K + ·)
    obtain ⟨gate, hgate, hgate'⟩ :=
      loadMatrix_eq h.gate h.gateSmall a.BLOCK_N a.BLOCK_K (program.2 * a.BLOCK_N + ·)
        (T * a.BLOCK_K + ·)
    obtain ⟨up, hup, hup'⟩ :=
      loadMatrix_eq h.up h.upSmall a.BLOCK_N a.BLOCK_K (program.2 * a.BLOCK_N + ·)
        (T * a.BLOCK_K + ·)
    refine ⟨_, Option.bind_eq_some_iff.mpr ⟨_, hx, Option.bind_eq_some_iff.mpr ⟨_, hgate,
      Option.bind_eq_some_iff.mpr ⟨_, hup, rfl⟩⟩⟩,
      fun i hi j hj => congrArg (acc i j + ·) (Prod.ext ?_ ?_)⟩
    · refine congrArg List.sum (List.map_congr_left fun t ht => ?_)
      exact congrArg₂ (· * ·) (hx' i hi t (List.mem_range.mp ht))
        (hgate' j hj t (List.mem_range.mp ht))
    · refine congrArg List.sum (List.map_congr_left fun t ht => ?_)
      exact congrArg₂ (· * ·) (hx' i hi t (List.mem_range.mp ht))
        (hup' j hj t (List.mem_range.mp ht))
  refine ⟨acc, hacc, fun i hi j hj hrow hcol => ?_⟩
  rw [hsum i hi j hj, ← sum_rounds a.gateWeight h.blockK hrow hcol,
    ← sum_rounds a.upWeight h.blockK hrow hcol]
  refine Prod.ext ?_ ?_
  · exact (map_list_sum (AddMonoidHom.fst α α) _).trans (by rw [List.map_map]; rfl)
  · exact (map_list_sum (AddMonoidHom.snd α α) _).trans (by rw [List.map_map]; rfl)

end Program

/-- The tensors have fewer than 2³¹ entries. -/
structure Inputs.Fits (f : Inputs α) : Prop where
  x : f.M * f.K < 2 ^ 31
  weight : f.I * f.K < 2 ^ 31
  intermediate : f.M * f.I < 2 ^ 31

omit [Field α] in
/-- What the checks say. -/
theorem shapes_of_check {f : Inputs α} (h : f.check = .ok ()) : f.x.shape = [f.M, f.K] ∧
    f.gateWeight.shape = [f.I, f.K] ∧ f.upWeight.shape = [f.I, f.K] := by
  unfold Inputs.check at h
  simp only [refuse_bind_eq_ok, refuse_eq_ok, not_or, not_not] at h
  obtain ⟨hx, ⟨hgate, hup, -⟩, -, -, -, -, -, -, -, ⟨hgateK, hupK⟩, hupI, -⟩ := h
  refine ⟨eq_of_length_two hx, (eq_of_length_two hgate).trans ?_, (eq_of_length_two hup).trans ?_⟩
  · rw [hgateK]
    rfl
  · rw [hupK, hupI]

/-- The product of a row of the input with one of a weight. -/
def rowProduct (f : Inputs α) (weight : Tensor α) (m i : ℕ) : α :=
  ((List.range f.K).map fun k => f.x.entry [m, k] * weight.entry [i, k]).sum

/-- **The fused network**, for tensors with fewer than 2³¹ entries, has the entries of the three
products, rounded after the activation and at the end. Where nothing is rounded they are those of
the reference. -/
theorem ffn_reference {exp cast : α → α} {schedule : List (ℕ × α) → List (ℕ × α)}
    (hschedule : ∀ cells, (schedule cells).Perm cells) (empty : ℕ → α) {BLOCK_M BLOCK_N BLOCK_K : ℕ}
    (hM : 0 < BLOCK_M) (hN : 0 < BLOCK_N) (hK : 0 < BLOCK_K) {f : Inputs α}
    (hcheck : f.check = .ok ()) (hfits : f.Fits) :
    ∃ out, fusedFfn exp cast schedule empty BLOCK_M BLOCK_N BLOCK_K f = .ok (some out) ∧
      out.shape = [f.M, f.KOut] ∧ ∀ m < f.M, ∀ o < f.KOut,
        out.entry [m, o] = cast ((List.range f.I).map fun i =>
          cast (silu exp (rowProduct f f.gateWeight m i) * rowProduct f f.upWeight m i) *
            f.downWeight.entry [o, i]).sum ∧
        ((∀ y, cast y = y) → out.entry [m, o] = (referenceFfn exp cast f).entry [m, o]) := by
  obtain ⟨hx, hgate, hup⟩ := shapes_of_check hcheck
  let a := f.args BLOCK_M BLOCK_N BLOCK_K
  have ha : a.Fits := by
    refine ⟨hx, hgate, hup, hK, ?_, ?_, ?_, hfits.intermediate⟩
    · exact lt_of_eq_of_lt (by simp [a, Inputs.args, hx]) hfits.x
    · exact lt_of_eq_of_lt (by simp [a, Inputs.args, hgate]) hfits.weight
    · exact lt_of_eq_of_lt (by simp [a, Inputs.args, hup]) hfits.weight
  let fused : ℕ → ℕ → α := fun m i =>
    cast (silu exp (rowProduct f f.gateWeight m i) * rowProduct f f.upWeight m i)
  have hcells : (grid2 (cdiv f.M BLOCK_M) (cdiv f.I BLOCK_N)).mapM
      (fusedGateUpSiluKernel exp cast a) =
        some ((grid2 (cdiv f.M BLOCK_M) (cdiv f.I BLOCK_N)).map
          (cells BLOCK_M BLOCK_N f.M 0 f.I fused)) := by
    refine mapM_eq_pure fun program _ => ?_
    obtain ⟨acc, hacc, hentries⟩ := accumulate_eq ha program
    refine Option.bind_eq_some_iff.mpr ⟨acc, hacc, storeCols_eq hfits.intermediate fun l hl => ?_⟩
    obtain ⟨⟨hi, hj⟩, hrow, -, hcol⟩ := mem_lanesOf.mp hl
    rw [hentries l.1 hi l.2 hj hrow hcol]
    rfl
  have hstored : ∀ m < f.M, ∀ i < f.I,
      stored empty
        (schedule
          ((grid2 (cdiv f.M BLOCK_M) (cdiv f.I BLOCK_N)).map
            (cells BLOCK_M BLOCK_N f.M 0 f.I fused)).flatten) (offset (strides [f.M, f.I]) [m,
            i]) = fused m i :=
    fun m hm i hi => stored_cols hschedule empty fused hM hN le_rfl hm (Nat.zero_le i) hi
  have hentry : ∀ m < f.M, ∀ o, cast ((List.range f.I).map fun i => stored empty (schedule
      ((grid2 (cdiv f.M BLOCK_M) (cdiv f.I BLOCK_N)).map
        (cells BLOCK_M BLOCK_N f.M 0 f.I fused)).flatten) (offset (strides [f.M, f.I]) [m,
        i]) * f.downWeight.entry [o, i]).sum =
      cast ((List.range f.I).map fun i => fused m i * f.downWeight.entry [o, i]).sum := by
    intro m hm o
    refine congrArg cast (congrArg List.sum (List.map_congr_left fun i hi => ?_))
    rw [hstored m hm i (List.mem_range.mp hi)]
  have hffn : fusedFfn exp cast schedule empty BLOCK_M BLOCK_N BLOCK_K f =
      .ok (some
        (matmulT cast f.I
          ⟨[f.M, f.I],
            fun idx =>
              stored empty
                (schedule
                  ((grid2 (cdiv f.M BLOCK_M) (cdiv f.I BLOCK_N)).map
                    (cells BLOCK_M BLOCK_N f.M 0 f.I fused)).flatten) (offset (strides
                    [f.M, f.I]) idx), .bfloat16, f.x.device⟩
      f.downWeight)) := by
    unfold fusedFfn
    rw [hcheck]
    show Except.ok (((grid2 _ _).mapM (fusedGateUpSiluKernel exp cast a)).map _) = _
    rw [hcells, Option.map_some]
  refine ⟨_, hffn, rfl, fun m hm o _ => ⟨hentry m hm o, fun hcast => (hentry m hm o).trans ?_⟩⟩
  refine congrArg cast (congrArg List.sum (List.map_congr_left fun i _ => congrArg (· * _) ?_))
  show cast _ = cast (cast (silu exp (cast _)) * cast _)
  simp only [hcast]
  rfl

/-- Two inputs of three dimensions, an intermediate size of two, an output of one. -/
def twoRows : Inputs ℝ where
  x := ⟨[2, 3], fun idx => ((idx.getD 1 0 : ℕ) : ℝ), .bfloat16, .cuda 0⟩
  gateWeight := ⟨[2, 3], fun _ => 1, .bfloat16, .cuda 0⟩
  upWeight := ⟨[2, 3], fun idx => ((idx.getD 0 0 : ℕ) : ℝ), .bfloat16, .cuda 0⟩
  downWeight := ⟨[1, 2], fun _ => 1, .bfloat16, .cuda 0⟩

theorem ffn_reference_twoRows :
    ∃ out, fusedFfn Real.exp id List.reverse (fun _ => 0) 1 2 2 twoRows = .ok (some out) ∧
      out.entry [1, 0] = silu Real.exp 3 * 3 ∧
      out.entry [1, 0] = (referenceFfn Real.exp id twoRows).entry [1, 0] := by
  obtain ⟨out, hout, -, hentry⟩ :=
    @ffn_reference ℝ _ Real.exp id List.reverse List.reverse_perm (fun _ => 0) 1 2 2 (by decide)
      (by decide) (by decide) twoRows rfl ⟨by decide, by decide, by decide⟩
  obtain ⟨hsum, hreference⟩ := hentry 1 (by decide) 0 (by decide)
  refine ⟨out, hout, hsum.trans ?_, hreference fun _ => rfl⟩
  have hgate : ∀ i, rowProduct twoRows twoRows.gateWeight 1 i = 3 := by
    intro i
    norm_num [rowProduct, twoRows, Inputs.K, List.range_succ]
  have hup : ∀ i, rowProduct twoRows twoRows.upWeight 1 i = 3 * i := by
    intro i
    norm_num [rowProduct, twoRows, Inputs.K, List.range_succ]
    ring
  simp only [hgate, hup]
  simp [twoRows, Inputs.I, List.range_succ]

end MoeInfinity.Kernel.FusedFfn
