import MoeInfinity.Lib.OnlineSoftmax
import MoeInfinity.Lib.Strided
import MoeInfinity.Python

/-! # What the kernels use of the GPU

A kernel loads and stores entries of tensors in memory. A place is the sum of the numbers of the
index times the strides; Triton computes each product in 32 bits where the stride is a 32-bit
integer. A load outside the memory fails, and so does a number that is not finite. A vector has an
entry for each lane, and a load of a vector fails if that of one lane does. The arithmetic on floats
is that of a field; only the conversion of a result to bfloat16 rounds, and is a parameter.

* `Tensor.load_eq`: inside a tensor with fewer than 2³¹ entries a load gives the entry. -/

namespace MoeInfinity.Kernel.Triton

open MoeInfinity.Lib.Grid MoeInfinity.Lib.OnlineSoftmax MoeInfinity.Lib.Strided MoeInfinity.Python

/-- What the functions around the kernels raise. -/
inductive KernelError where
  | py (e : PyError)
  | typeError (msg : String)
  | assertionError (msg : String)
deriving DecidableEq, Repr

/-- `if p: raise e`. -/
def refuse {ε : Type} (p : Prop) [Decidable p] (e : ε) : Except ε Unit :=
  if p then .error e else .ok ()

inductive Dtype where
  | bfloat16
  | float16
  | float32
  | int32
  | int64
  | uint8
deriving DecidableEq, Repr

/-- A dtype, as `str` has it. -/
def Dtype.str : Dtype → String
  | .bfloat16 => "torch.bfloat16"
  | .float16 => "torch.float16"
  | .float32 => "torch.float32"
  | .int32 => "torch.int32"
  | .int64 => "torch.int64"
  | .uint8 => "torch.uint8"

inductive TorchDevice where
  | cpu
  | cuda (index : ℕ)
deriving DecidableEq, Repr

structure Tensor (α : Type) where
  shape : List ℕ
  entry : List ℕ → α
  dtype : Dtype
  device : TorchDevice

def TorchDevice.isCuda : TorchDevice → Bool
  | .cpu => false
  | .cuda _ => true

def Tensor.isCuda {α : Type} (t : Tensor α) : Bool := t.device.isCuda

/-- A shape, as `str(tuple(shape))` has it. -/
def tupleStr : List ℕ → String
  | [n] => s!"({n},)"
  | shape => "(" ++ ", ".intercalate (shape.map toString) ++ ")"

/-- `t.reshape(shape)`, of as many entries: they keep their order. -/
def Tensor.reshape {α : Type} (t : Tensor α) (shape : List ℕ) : Tensor α :=
  { t with
    shape := shape, entry := fun idx => t.entry (unravel t.shape (offset (strides shape) idx)) }

/-! ### Memory -/

/-- A number of an index times a stride. -/
def mul32 (i : ℤ) (stride : ℕ) : ℤ :=
  if stride < 2 ^ 31 then (i * stride).bmod (2 ^ 32) else i * stride

def ptr (stride : List ℕ) (idx : List ℤ) : ℤ := (List.zipWith mul32 idx stride).sum

def ptr64 (stride : List ℕ) (idx : List ℤ) : ℤ :=
  (List.zipWith (fun (i : ℤ) (s : ℕ) => i * s) idx stride).sum

def load {α : Type} (mem : List α) (ptr : ℤ) : Option α := if ptr < 0 then none else mem[ptr.toNat]?

/-- A load from a contiguous tensor. -/
def Tensor.load {α : Type} (t : Tensor α) (idx : List ℤ) : Option α :=
  Triton.load (ravel t.shape t.entry) (ptr (strides t.shape) idx)

/-- A load by a kernel that computes places in 64 bits. -/
def Tensor.load64 {α : Type} (t : Tensor α) (idx : List ℤ) : Option α :=
  Triton.load (ravel t.shape t.entry) (ptr64 (strides t.shape) idx)

/-- The cell of a store, in a memory of `size` entries. -/
def place {α : Type} (size : ℕ) (ptr : ℤ) (x : α) : Option (ℕ × α) :=
  if 0 ≤ ptr ∧ ptr < size then some (ptr.toNat, x) else none

/-- A store to a contiguous tensor. -/
def store {α : Type} (shape : List ℕ) (idx : List ℤ) (x : α) : Option (ℕ × α) :=
  place shape.prod (ptr (strides shape) idx) x

def store64 {α : Type} (shape : List ℕ) (idx : List ℤ) (x : α) : Option (ℕ × α) :=
  place shape.prod (ptr64 (strides shape) idx) x

/-- A store of the lanes below `width`. -/
def storeLanes {α : Type} (n width : ℕ) (shape : List ℕ) (idx : ℕ → List ℤ) (v : ℕ → α) :
    Option (List (ℕ × α)) :=
  ((List.range n).filter (· < width)).mapM fun d => store shape (idx d) (v d)

/-- A vector of `n` lanes. -/
def loadLanes {β : Type} [Zero β] (n : ℕ) (f : ℕ → Option β) : Option (ℕ → β) :=
  if (List.range n).all fun i => (f i).isSome then some fun i => (f i).getD 0 else none

/-- A tile of `n` times `m` lanes. -/
def loadTile {β : Type} [Zero β] (n m : ℕ) (f : ℕ → ℕ → Option β) : Option (ℕ → ℕ → β) :=
  loadLanes n fun i => loadLanes m (f i)

/-- `exp(x - m)`, for a score that may be minus infinity. -/
def expSub {α : Type} [Ring α] (exp : α → α) (x : WithBot α) : WithBot α → Option α
  | ⊥ => none
  | (m : α) => some (weight exp (shift m x))

/-- `tl.sum` of a vector. -/
def sumLanes {α : Type} [AddMonoid α] (n : ℕ) (v : ℕ → α) : α := ((List.range n).map v).sum

/-- `tl.max` of a vector. -/
def maxLanes {α : Type} [LinearOrder α] (n : ℕ) (v : ℕ → WithBot α) : WithBot α :=
  (List.range n).foldl (fun m i => max m (v i)) ⊥

/-! ### What they do -/

theorem mul32_eq {i stride : ℕ} (h : i * stride < 2 ^ 31) : mul32 i stride = (i * stride : ℕ) := by
  unfold mul32
  split_ifs
  · rw [← Nat.cast_mul]
    exact Int.bmod_eq_of_le (by omega) (by omega)
  · exact (Nat.cast_mul i stride).symm

theorem ptr_eq {idx stride : List ℕ} (h : ∀ p ∈ idx.zip stride, p.1 * p.2 < 2 ^ 31) :
    ptr stride (idx.map Nat.cast) = offset stride idx := by
  induction idx generalizing stride with
  | nil => rfl
  | cons i idx ih =>
    cases stride with
    | nil => rfl
    | cons s stride =>
      have hrest := ih fun p hp => h p (List.mem_cons_of_mem _ hp)
      have hhead := mul32_eq (h (i, s) List.mem_cons_self)
      unfold ptr offset at hrest ⊢
      rw [List.map_cons, List.zipWith_cons_cons, List.zipWith_cons_cons, List.sum_cons,
        List.sum_cons, hhead, hrest, Nat.cast_add]

theorem ptr64_eq (idx stride : List ℕ) : ptr64 stride (idx.map Nat.cast) = offset stride idx := by
  induction idx generalizing stride with
  | nil => rfl
  | cons i idx ih =>
    cases stride with
    | nil => rfl
    | cons s stride =>
      have hrest := ih stride
      unfold ptr64 offset at hrest ⊢
      rw [List.map_cons, List.zipWith_cons_cons, List.zipWith_cons_cons, List.sum_cons,
        List.sum_cons, hrest, Nat.cast_add, Nat.cast_mul]

theorem load_natCast {α : Type} (mem : List α) (a : ℕ) : load mem a = mem[a]? := by
  unfold load
  rw [if_neg (Int.not_lt.mpr (Int.natCast_nonneg a)), Int.toNat_natCast]

theorem place_natCast {α : Type} {size a : ℕ} (h : a < size) (x : α) :
    place size a x = some (a, x) := by
  unfold place
  rw [if_pos ⟨Int.natCast_nonneg a, Int.ofNat_lt.mpr h⟩, Int.toNat_natCast]

/-- A reshape keeps the entry at a place. -/
theorem Tensor.reshape_entry {α : Type} {t : Tensor α} {idx idx' shape : List ℕ}
    (h : Inside idx t.shape) (hplace : offset (strides shape) idx' = offset (strides t.shape) idx) :
    (t.reshape shape).entry idx' = t.entry idx := by
  unfold Tensor.reshape
  dsimp only
  rw [hplace, unravel_offset h]

/-- The rows of `t.reshape(-1, K)`. -/
theorem Tensor.rows_entry {α : Type} {t : Tensor α} {idx s : List ℕ} {K k : ℕ}
    (hshape : t.shape = s ++ [K]) (hidx : Inside idx s) (hk : k < K) :
    (t.reshape [s.prod, K]).entry [offset (strides s) idx, k] = t.entry (idx ++ [k]) := by
  have hinside : Inside (idx ++ [k]) t.shape := hshape ▸ hidx.append (.cons hk .nil)
  refine Tensor.reshape_entry hinside ?_
  rw [hshape, offset_append hidx.length_eq, offset_two, List.prod_singleton, offset_one]

/-- **A load gives the entry.** -/
theorem Tensor.load_eq {α : Type} {t : Tensor α} {idx : List ℕ} (h : Inside idx t.shape)
    (hsmall : t.shape.prod < 2 ^ 31) : t.load (idx.map Nat.cast) = some (t.entry idx) := by
  unfold Tensor.load
  rw [ptr_eq fun p hp => (mul_stride_lt h hp).trans hsmall, load_natCast, getElem?_ravel _ h]

theorem Tensor.load64_eq {α : Type} {t : Tensor α} {idx : List ℕ} (h : Inside idx t.shape) :
    t.load64 (idx.map Nat.cast) = some (t.entry idx) := by
  unfold Tensor.load64
  rw [ptr64_eq, load_natCast, getElem?_ravel _ h]

theorem store_eq {α : Type} {shape idx : List ℕ} (h : Inside idx shape)
    (hsmall : shape.prod < 2 ^ 31) (x : α) :
    store shape (idx.map Nat.cast) x = some (offset (strides shape) idx, x) := by
  unfold store
  rw [ptr_eq fun p hp => (mul_stride_lt h hp).trans hsmall, place_natCast (offset_lt h)]

theorem store64_eq {α : Type} {shape idx : List ℕ} (h : Inside idx shape) (x : α) :
    store64 shape (idx.map Nat.cast) x = some (offset (strides shape) idx, x) := by
  unfold store64
  rw [ptr64_eq, place_natCast (offset_lt h)]

theorem storeLanes_eq {α : Type} {n : ℕ} {shape : List ℕ} {idx : ℕ → List ℕ} (v : ℕ → α)
    (h : ∀ d < n, Inside (idx d) shape) (hsmall : shape.prod < 2 ^ 31) :
    storeLanes n n shape (fun d => (idx d).map Nat.cast) v =
      some ((List.range n).map fun d => (offset (strides shape) (idx d), v d)) := by
  unfold storeLanes
  rw [List.filter_eq_self.mpr fun d hd => decide_eq_true (List.mem_range.mp hd)]
  exact mapM_eq_pure fun d hd => store_eq (h d (List.mem_range.mp hd)) hsmall (v d)

/-- **A launch with a program for each row of a tensor of three dimensions** stores all entries, in
whatever order. -/
theorem stored_rows {α : Type} {rows cols width : ℕ} {schedule : List (ℕ × α) → List (ℕ × α)}
    (hschedule : ∀ cells, (schedule cells).Perm cells) (mem : ℕ → α) (f : ℕ → ℕ → ℕ → α) {b h d : ℕ}
    (hb : b < rows) (hh : h < cols) (hd : d < width) :
    stored mem (schedule ((grid2 rows cols).map fun p => (List.range width).map fun d =>
      (offset (strides [rows, cols, width]) [p.1, p.2, d], f p.1 p.2 d)).flatten)
        (offset (strides [rows, cols, width]) [b, h, d]) = f b h d := by
  have hlaunch : IsLaunch (grid2 rows cols) (fun p => (List.range width).map fun d =>
      (offset (strides [rows, cols, width]) [p.1, p.2, d], f p.1 p.2 d)) (schedule _) := hschedule _
  refine hlaunch.stored_eq (fun p hp c hc haddr => ?_) ⟨(b, h), mem_grid2.mpr ⟨hb, hh⟩, ?_⟩
  · obtain ⟨d', hd', rfl⟩ := List.mem_map.mp hc
    obtain ⟨hp1, hp2⟩ := mem_grid2.mp hp
    have hsame := offset_inj (.cons hp1 (.cons hp2 (.cons (List.mem_range.mp hd') .nil)))
      (.cons hb (.cons hh (.cons hd .nil))) haddr
    simp only [List.cons.injEq, and_true] at hsame
    obtain ⟨rfl, rfl, rfl⟩ := hsame
    rfl
  · exact ⟨_, List.mem_map_of_mem (List.mem_range.mpr hd), rfl⟩

theorem refuse_bind {ε β : Type} {p : Prop} [Decidable p] (h : ¬p) (e : ε) (f : Unit → Except ε β) :
    (refuse p e >>= f) = f () := by
  unfold refuse
  rw [if_neg h]
  rfl

@[simp] theorem refuse_eq_ok {ε : Type} {p : Prop} [Decidable p] {e : ε} :
    refuse p e = .ok () ↔ ¬p := by
  unfold refuse
  by_cases h : p
  · rw [if_pos h]
    refine ⟨fun h' => ?_, fun h' => absurd h h'⟩
    cases h'
  · rw [if_neg h]
    exact ⟨fun _ => h, fun _ => rfl⟩

@[simp] theorem refuse_bind_eq_ok {ε β : Type} {p : Prop} [Decidable p] {e : ε}
    {f : Unit → Except ε β} {x : β} : (refuse p e >>= f) = .ok x ↔ ¬p ∧ f () = .ok x := by
  unfold refuse
  by_cases h : p
  · rw [if_pos h]
    refine ⟨fun h' => ?_, fun h' => absurd h h'.1⟩
    cases h'
  · rw [if_neg h]
    exact ⟨fun h' => ⟨h, h'⟩, fun h' => h'.2⟩

section Shapes

theorem eq_of_length_one {s : List ℕ} (h : s.length = 1) : s = [s.getD 0 0] := by
  obtain ⟨a, rfl⟩ := List.length_eq_one_iff.mp h
  rfl

theorem eq_of_length_two {s : List ℕ} (h : s.length = 2) : s = [s.getD 0 0, s.getD 1 0] := by
  obtain ⟨a, b, rfl⟩ := List.length_eq_two.mp h
  rfl

theorem eq_of_length_four :
    ∀ {s : List ℕ}, s.length = 4 → s = [s.getD 0 0, s.getD 1 0, s.getD 2 0, s.getD 3 0]
  | [_, _, _, _], _ => rfl

theorem eq_dropLast_append {s : List ℕ} (h : s ≠ []) : s = s.dropLast ++ [s.getLastD 0] := by
  obtain rfl | ⟨s, n, rfl⟩ := s.eq_nil_or_concat
  · exact absurd rfl h
  · simp

end Shapes

section Lanes

variable {β : Type} [Zero β] {n m : ℕ}

theorem loadLanes_eq {f : ℕ → Option β} {g : ℕ → β} (h : ∀ i < n, f i = some (g i)) :
    ∃ v, loadLanes n f = some v ∧ ∀ i < n, v i = g i := by
  refine ⟨fun i => (f i).getD 0, ?_, fun i hi => ?_⟩
  · unfold loadLanes
    rw [if_pos]
    refine List.all_eq_true.mpr fun i hi => ?_
    rw [h i (List.mem_range.mp hi)]
    rfl
  · show (f i).getD 0 = g i
    rw [h i hi, Option.getD_some]

theorem loadTile_eq {f : ℕ → ℕ → Option β} {g : ℕ → ℕ → β}
    (h : ∀ i < n, ∀ j < m, f i j = some (g i j)) :
    ∃ v, loadTile n m f = some v ∧ ∀ i < n, ∀ j < m, v i j = g i j := by
  have hrow : ∀ i, ∃ w, i < n → loadLanes m (f i) = some w ∧ ∀ j < m, w j = g i j := by
    intro i
    by_cases hi : i < n
    · obtain ⟨w, hw⟩ := loadLanes_eq (h i hi)
      exact ⟨w, fun _ => hw⟩
    · exact ⟨0, fun h => absurd h hi⟩
  choose w hw using hrow
  obtain ⟨v, hv, hrows⟩ := loadLanes_eq (f := fun i => loadLanes m (f i)) (g := w)
    fun i hi => (hw i hi).1
  refine ⟨v, hv, fun i hi j hj => ?_⟩
  rw [hrows i hi, (hw i hi).2 j hj]

end Lanes

section Scores

variable {α : Type}

theorem le_foldl_max [LinearOrder α] (v : ℕ → WithBot α) (l : List ℕ) (m : WithBot α) :
    m ≤ l.foldl (fun m i => max m (v i)) m ∧ ∀ i ∈ l, v i ≤ l.foldl (fun m i => max m (v i)) m := by
  induction l generalizing m with
  | nil => exact ⟨le_rfl, fun i hi => absurd hi List.not_mem_nil⟩
  | cons i l ih =>
    obtain ⟨hm, hrest⟩ := ih (max m (v i))
    refine ⟨(le_max_left _ _).trans hm, fun j hj => ?_⟩
    rcases List.mem_cons.mp hj with rfl | hj
    · exact (le_max_right _ _).trans hm
    · exact hrest j hj

theorem le_maxLanes [LinearOrder α] {n : ℕ} (v : ℕ → WithBot α) {i : ℕ} (hi : i < n) :
    v i ≤ maxLanes n v :=
  (le_foldl_max v _ ⊥).2 i (List.mem_range.mpr hi)

@[simp] theorem expSub_coe [Ring α] (exp : α → α) (x : WithBot α) (m : α) :
    expSub exp x (m : WithBot α) = some (weight exp (shift m x)) := rfl

end Scores

end MoeInfinity.Kernel.Triton
