import Mathlib.Algebra.Order.Group.Int
import Mathlib.Tactic.Ring
import MoeInfinity.Lib.RowMajor

/-! # The Marlin weight layout

`kernel/marlin_gemm.py`: the permutation tables, `pack_marlin_weight`, and the unpacking of
`reference_dequant_gemm` up to the float arithmetic. Weights are 32-bit integers, scales values of
any type. A tensor operation that raises gives `none`.

* `weight_injective`: the packed weight determines the weight.
* `scales_perm`: with groups of 128 rows the packed scales are a permutation of the scales. With one
  group they come from every 32 columns' first 8 only (`single_scales`).
* `unpack_eq_none`: the reference can unpack nothing that was packed: it assigns rows of length 2 N
  to rows of length N. So packing is never undone (`not_lossless`). -/

namespace MoeInfinity.Kernel.MarlinGemm

open MoeInfinity.Lib.RowMajor MoeInfinity.Lib.RowMajor.Tensor

/-! ### The tables -/

/-- `_PERM`. -/
def perm : List ℕ :=
  (List.range 32).flatMap fun i =>
    let col := i / 4
    let perm1 := [0, 1].flatMap fun block =>
      [2 * (i % 4), 2 * (i % 4) + 1, 2 * (i % 4 + 4), 2 * (i % 4 + 4) + 1].map fun row =>
        16 * row + col + 8 * block
    (List.range 4).flatMap fun j => perm1.map fun p => p + 256 * j

/-- `_SCALE_PERM`. -/
def scalePerm : List ℕ := (List.range 8).flatMap fun i => (List.range 8).map fun j => i + 8 * j

/-- `_SCALE_PERM_SINGLE`. -/
def scalePermSingle : List ℕ :=
  (List.range 4).flatMap fun i => (List.replicate 4 ((List.range 2).map fun j => 2 * i + j)).flatten

/-! ### Packing -/

/-- The tiles of 16 rows and 16 columns, each as one stretch of a row: `reshape(K // 16, 16, N //
16, 16)`, `permute(0, 2, 1, 3)`, `reshape(K // 16, N * 16)`. -/
def tile (weight : Tensor (BitVec 32)) : Tensor (BitVec 32) :=
  ofFn (weight.rows / 16) (weight.cols * 16) fun i x =>
    weight.get (16 * i + x / 16 % 16) (16 * (x / 256) + x % 16)

/-- Eight values as one: the value of each `shift` has the bits from `4 * shift`. -/
def nibbles (w : ℕ → BitVec 32) : BitVec 32 :=
  (List.range 8).foldl (fun packed shift => packed ||| ((w shift &&& 0xF#32) <<< (4 * shift))) 0

/-- `packed |= (w[:, shift::8] & 0xF) << (4 * shift)` for the eight shifts. -/
def packNibbles (w : Tensor (BitVec 32)) : Tensor (BitVec 32) :=
  ofFn w.rows (w.cols / 8) fun i j => nibbles fun shift => w.get i (8 * j + shift)

variable {α : Type} [Inhabited α]

/-- The layout of the weight. -/
def packWeight (weight : Tensor (BitVec 32)) : Option (Tensor (BitVec 32)) := do
  let w ← (tile weight).blockPermute perm
  let w ← w.reshape (weight.rows / 16) (weight.cols * 16)
  some (packNibbles w)

/-- The layout of the scales. -/
def packScales (scales : Tensor α) (groupsize : ℤ) (N : ℕ) : Option (Tensor α) := do
  let s ← scales.blockPermute (if groupsize = -1 then scalePermSingle else scalePerm)
  s.reshapeRows N

def packMarlinWeight (weight : Tensor (BitVec 32)) (scales : Tensor α) (groupsize : ℤ) :
    Option (Tensor (BitVec 32) × Tensor α) := do
  guard (groupsize = -1 ∨ groupsize = 128)
  guard (weight.rows % 128 = 0)
  guard (weight.cols % 256 = 0)
  let packed ← packWeight weight
  let s ← packScales scales groupsize weight.cols
  some (packed, s)

/-! ### Unpacking -/

/-- `w[shift::8, :] = rhs`, with the broadcast of dimensions of size 1. -/
def assignRows (w : Tensor (BitVec 32)) (shift : ℕ) (rhs : Tensor (BitVec 32)) :
    Option (Tensor (BitVec 32)) :=
  if (rhs.rows = (w.rows - shift + 7) / 8 ∨ rhs.rows = 1) ∧ (rhs.cols = w.cols ∨ rhs.cols = 1) then
    some (ofFn w.rows w.cols fun i j =>
      if i % 8 = shift
        then rhs.get (if rhs.rows = 1 then 0 else i / 8) (if rhs.cols = 1 then 0 else j)
      else w.get i j)
  else
    none

def argsort (xs : List ℕ) : List ℕ :=
  (List.range xs.length).mergeSort fun a b => decide (xs.getD a 0 ≤ xs.getD b 0)

/-- What `reference_dequant_gemm` multiplies: the weight of 4-bit values, and the scales. -/
def unpack (packed : Tensor (BitVec 32)) (scales : Tensor α) (K N : ℕ) :
    Option (Tensor (BitVec 32) × Tensor α) := do
  let w ← (List.range 8).foldlM
    (fun w shift => assignRows w shift (packed.map fun x => x.sshiftRight (4 * shift) &&& 0xF#32))
    (ofFn K N fun _ _ => 0)
  let w ← w.blockPermute (argsort perm)
  let w ← w.reshape K N
  some (w, scales)

/-- All entries are in 0..15. -/
def Small (weight : Tensor (BitVec 32)) : Prop := ∀ x ∈ weight.data, x ≤ 15#32

/-- **Packing loses nothing**: the packed scales are a permutation of the scales, the packed weight
determines the weight, and the unpacking of the reference gives both back. -/
def Lossless (weight : Tensor (BitVec 32)) (scales : Tensor α) (groupsize : ℤ) : Prop :=
  ∃ packed s, packMarlinWeight weight scales groupsize = some (packed, s) ∧
    s.data.Perm scales.data ∧
    (∀ weight' s', Small weight' → packMarlinWeight weight' scales groupsize = some (packed, s') →
      weight' = weight) ∧
    unpack packed s weight.rows weight.cols = some (weight, scales)

/-! ### The weight -/

theorem getLsbD_foldl_or (w : ℕ → BitVec 32) (b : ℕ) (shifts : List ℕ) (acc : BitVec 32) :
    (shifts.foldl (fun packed shift => packed ||| ((w shift &&& 0xF#32) <<< (4 * shift)))
      acc).getLsbD b = (acc.getLsbD b || shifts.any fun shift =>
        ((w shift &&& 0xF#32) <<< (4 * shift)).getLsbD b) := by
  induction shifts generalizing acc with
  | nil => simp
  | cons shift shifts ih =>
    rw [List.foldl_cons, ih, BitVec.getLsbD_or, List.any_cons, Bool.or_assoc]

theorem getLsbD_nibble (w : BitVec 32) (shift : ℕ) {s b : ℕ} (hs : s < 8) (hb : b < 4) :
    ((w &&& 0xF#32) <<< (4 * shift)).getLsbD (4 * s + b) = (decide (shift = s) && w.getLsbD b) := by
  have hmask : ∀ i, (0xF#32).getLsbD i = decide (i < 4) := by
    intro i
    by_cases hi : i < 32
    · revert i
      decide
    · rw [BitVec.getLsbD_of_ge _ _ (by omega), eq_comm, decide_eq_false_iff_not]
      omega
  rw [BitVec.getLsbD_shiftLeft, BitVec.getLsbD_and, hmask]
  by_cases heq : shift = s
  · subst heq
    simp [hb, show 4 * shift + b < 32 by omega]
  · simp only [heq, decide_false, Bool.false_and]
    by_cases hlt : 4 * s + b < 4 * shift
    · simp [hlt]
    · have hge : ¬ 4 * s + b - 4 * shift < 4 := by omega
      simp [hge]

/-- The bits of a nibble. -/
theorem getLsbD_nibbles (w : ℕ → BitVec 32) {s b : ℕ} (hs : s < 8) (hb : b < 4) :
    (nibbles w).getLsbD (4 * s + b) = (w s).getLsbD b := by
  rw [nibbles, getLsbD_foldl_or]
  simp only [getLsbD_nibble _ _ hs hb, BitVec.ofNat_eq_ofNat, BitVec.getLsbD_zero, Bool.false_or]
  rw [Bool.eq_iff_iff, List.any_eq_true]
  constructor
  · rintro ⟨shift, -, h⟩
    rw [Bool.and_eq_true, decide_eq_true_eq] at h
    obtain ⟨rfl, h⟩ := h
    exact h
  · intro h
    exact ⟨s, List.mem_range.mpr hs, by rw [h, decide_eq_true rfl, Bool.and_self]⟩

theorem getLsbD_of_small {x : BitVec 32} (hx : x ≤ 15#32) {b : ℕ} (hb : 4 ≤ b) :
    x.getLsbD b = false := by
  have hlt : x.toNat < 2 ^ 4 := Nat.lt_succ_of_le (BitVec.le_def.mp hx)
  exact Nat.testBit_lt_two_pow (hlt.trans_le (Nat.pow_le_pow_right Nat.two_pos hb))

theorem eq_of_nibbles_eq {w w' : ℕ → BitVec 32} (h : nibbles w = nibbles w') {s : ℕ} (hs : s < 8)
    (hw : w s ≤ 15#32) (hw' : w' s ≤ 15#32) : w s = w' s := by
  refine BitVec.eq_of_getLsbD_eq fun b _ => ?_
  by_cases hb : b < 4
  · rw [← getLsbD_nibbles w hs hb, h, getLsbD_nibbles w' hs hb]
  · rw [getLsbD_of_small hw (Nat.not_lt.mp hb), getLsbD_of_small hw' (Nat.not_lt.mp hb)]

theorem length_perm : perm.length = 1024 := by decide +kernel

/-- The 1024 columns of a block are permuted: `p` stands at the place of its tile, its column and
its row. -/
theorem perm_perm : perm.Perm (List.range perm.length) := by
  rw [length_perm]
  refine length_perm ▸ perm_range
    (fun p => 32 * (4 * (p % 8) + p % 256 / 16 % 8 / 2) + 8 * (p / 256) +
      (4 * (p % 16 / 8) + (p % 256 / 16 % 2 + 2 * (p % 256 / 16 / 8)))) ?_ ?_
  · rw [length_perm]
    decide +kernel
  · rw [length_perm]
    decide +kernel

theorem packWeight_eq_some {weight packed : Tensor (BitVec 32)}
    (h : packWeight weight = some packed) :
    ∃ w v, (tile weight).blockPermute perm = some v ∧ w.data = v.data ∧ w.rows = weight.rows / 16 ∧
      w.cols = weight.cols * 16 ∧ packed = packNibbles w := by
  simp only [packWeight, Option.bind_eq_bind, Option.bind_eq_some_iff] at h
  obtain ⟨v, hv, w, hw, h⟩ := h
  obtain ⟨hrows, hcols, hdata⟩ := reshape_eq_some hw
  exact ⟨w, v, hv, hdata, hrows, hcols, (Option.some_inj.mp h).symm⟩

theorem shape_packed {weight packed : Tensor (BitVec 32)} (h : packWeight weight = some packed) :
    packed.rows = weight.rows / 16 ∧ packed.cols = 2 * weight.cols := by
  obtain ⟨w, v, -, -, hrows, hcols, rfl⟩ := packWeight_eq_some h
  refine ⟨hrows, ?_⟩
  rw [packNibbles, ofFn]
  dsimp only
  omega

theorem small_tile {weight : Tensor (BitVec 32)} (h : Small weight) (hN : weight.cols % 256 = 0) :
    Small (tile weight) := by
  intro y hy
  obtain ⟨i, hi, x, hx, rfl⟩ := mem_ofFn hy
  exact h _ (get_mem (by omega) (by omega))

theorem small_of_packWeight {weight w v : Tensor (BitVec 32)} (h : Small weight)
    (hN : weight.cols % 256 = 0) (hv : (tile weight).blockPermute perm = some v)
    (hw : w.data = v.data) : Small w := by
  intro y hy
  rw [hw] at hy
  exact small_tile h hN y ((perm_blockPermute perm_perm hv).subset hy)

theorem get_tile {weight : Tensor (BitVec 32)} (hrows : weight.rows % 16 = 0)
    (hcols : weight.cols % 16 = 0) {r c : ℕ} (hr : r < weight.rows) (hc : c < weight.cols) :
    (tile weight).get (r / 16) (256 * (c / 16) + (16 * (r % 16) + c % 16)) = weight.get r c := by
  have hx : 16 * (r % 16) + c % 16 < 256 := by omega
  rw [tile, get_ofFn _ (by omega) (by omega)]
  congr 1
  · have hrow : (256 * (c / 16) + (16 * (r % 16) + c % 16)) / 16 % 16 = r % 16 := by omega
    rw [hrow]
    omega
  · rw [Nat.mul_add_div (by decide), Nat.div_eq_of_lt hx]
    omega

/-- **The packed weight determines the weight.** -/
theorem weight_injective {weight weight' packed : Tensor (BitVec 32)}
    (h : packWeight weight = some packed) (h' : packWeight weight' = some packed)
    (hsmall : Small weight) (hsmall' : Small weight') (hK : weight.rows % 128 = 0)
    (hK' : weight'.rows % 128 = 0) (hN : weight.cols % 256 = 0) (hN' : weight'.cols % 256 = 0) :
    weight' = weight := by
  obtain ⟨hrows, hcols⟩ := shape_packed h
  obtain ⟨hrows', hcols'⟩ := shape_packed h'
  have heqrows : weight'.rows = weight.rows := by omega
  have heqcols : weight'.cols = weight.cols := by omega
  obtain ⟨w, v, hv, hdata, hwrows, hwcols, rfl⟩ := packWeight_eq_some h
  obtain ⟨w', v', hv', hdata', hwrows', hwcols', heq⟩ := packWeight_eq_some h'
  have hw : w = w' := by
    refine ext_get (by omega) (by omega) fun i hi x hx => ?_
    have hi' : i < w'.rows := by omega
    have hget := congrArg (fun t : Tensor (BitVec 32) => t.get i (x / 8)) heq
    rw [packNibbles, packNibbles, get_ofFn _ hi (by omega), get_ofFn _ hi' (by omega)] at hget
    have hx8 : 8 * (x / 8) + x % 8 = x := Nat.div_add_mod x 8
    have hentry := eq_of_nibbles_eq hget (Nat.mod_lt x (by decide))
      (small_of_packWeight hsmall hN hv hdata _ (get_mem hi (by omega)))
      (small_of_packWeight hsmall' hN' hv' hdata' _ (get_mem hi' (by omega)))
    rwa [hx8] at hentry
  have htile : tile weight' = tile weight := by
    refine Tensor.ext (by rw [tile, tile, ofFn, ofFn, heqrows])
      (by rw [tile, tile, ofFn, ofFn, heqcols]) ?_
    refine blockPermute_injective perm_perm hv' hv ?_
    rw [← hdata, ← hdata', hw]
  refine ext_get heqrows heqcols fun r hr c hc => ?_
  have hr' : r < weight.rows := by omega
  have hc' : c < weight.cols := by omega
  rw [← get_tile (by omega) (by omega) hr hc, ← get_tile (by omega) (by omega) hr' hc', htile]

/-! ### The scales -/

theorem scalePerm_perm : scalePerm.Perm (List.range scalePerm.length) :=
  perm_range (fun p => 8 * (p % 8) + p / 8) (by decide) (by decide)

theorem packScales_eq_some {scales s : Tensor α} {groupsize : ℤ} {N : ℕ}
    (h : packScales scales groupsize N = some s) : N ≠ 0 ∧
      ∃ v, scales.blockPermute (if groupsize = -1 then scalePermSingle else scalePerm) = some v ∧
        s.data = v.data := by
  rw [packScales, Option.bind_eq_bind, Option.bind_eq_some_iff] at h
  obtain ⟨v, hv, h⟩ := h
  refine ⟨?_, v, hv, (reshapeRows_eq_some h).2⟩
  rintro rfl
  rw [reshapeRows, if_pos rfl] at h
  cases h

/-- **With groups of 128 rows the scales are permuted.** -/
theorem scales_perm {scales s : Tensor α} {N : ℕ} (h : packScales scales 128 N = some s) :
    s.data.Perm scales.data := by
  obtain ⟨-, v, hv, hdata⟩ := packScales_eq_some h
  rw [if_neg (by decide)] at hv
  rw [hdata]
  exact perm_blockPermute scalePerm_perm hv

/-- **With one group, only the first 8 of every 32 scales are left.** -/
theorem single_scales {scales s : Tensor α} {N : ℕ} (h : packScales scales (-1) N = some s) :
    ∀ y ∈ s.data, ∃ x < scales.data.length, x % 32 < 8 ∧ y = scales.data.getD x default := by
  obtain ⟨-, v, hv, hdata⟩ := packScales_eq_some h
  rw [if_pos rfl] at hv
  obtain ⟨hdvd, hv⟩ := blockPermute_eq_some hv
  intro y hy
  rw [hdata, hv] at hy
  obtain ⟨x, hx, rfl⟩ := List.mem_map.mp hy
  rw [List.mem_range] at hx
  have hlen : scalePermSingle.length = 32 := by decide
  have hlt : ∀ i < 32, scalePermSingle.getD i 0 < 8 := by decide
  have hp := hlt (x % 32) (Nat.mod_lt x (by decide))
  rw [hlen] at hdvd
  rw [blockIndex, hlen]
  exact ⟨_, by omega, by omega, rfl⟩

/-! ### The reference -/

omit [Inhabited α] in
/-- **The reference unpacks nothing that was packed**: the rows it assigns are twice as long as its
own. -/
theorem unpack_eq_none {weight packed : Tensor (BitVec 32)} (h : packWeight weight = some packed)
    (hN : weight.cols ≠ 0) (s : Tensor α) : unpack packed s weight.rows weight.cols = none := by
  have hassign : ∀ f : BitVec 32 → BitVec 32,
      assignRows (ofFn weight.rows weight.cols fun _ _ => 0) 0 (packed.map f) = none := by
    intro f
    obtain ⟨-, hcols⟩ := shape_packed h
    refine if_neg fun hshape => ?_
    rcases hshape.2 with heq | heq
    · have heq : packed.cols = weight.cols := heq
      omega
    · have heq : packed.cols = 1 := heq
      omega
  rw [unpack, show List.range 8 = 0 :: (List.range 7).map Nat.succ from rfl,
    List.foldlM_cons, hassign]
  rfl

theorem packMarlinWeight_eq_some {weight packed : Tensor (BitVec 32)} {scales s : Tensor α}
    {groupsize : ℤ} (h : packMarlinWeight weight scales groupsize = some (packed, s)) :
    packWeight weight = some packed ∧ packScales scales groupsize weight.cols = some s := by
  unfold packMarlinWeight at h
  simp only [Option.bind_eq_bind, Option.bind_eq_some_iff] at h
  obtain ⟨-, -, -, -, -, -, packed', hpacked, s', hs, h⟩ := h
  cases h
  exact ⟨hpacked, hs⟩

/-- Packing is defined on every valid shape. -/
theorem exists_packMarlinWeight {weight : Tensor (BitVec 32)} {scales : Tensor α} {groupsize : ℤ}
    (hgroup : groupsize = -1 ∨ groupsize = 128) (hK : weight.rows % 128 = 0)
    (hN : weight.cols % 256 = 0) (hpos : weight.cols ≠ 0) (hscales : scales.cols = weight.cols) :
    ∃ packed s, packMarlinWeight weight scales groupsize = some (packed, s) := by
  obtain ⟨a, ha⟩ := Nat.dvd_of_mod_eq_zero hK
  obtain ⟨b, hb⟩ := Nat.dvd_of_mod_eq_zero hN
  have htile : (tile weight).data.length = 1024 * (32 * a * b) := by
    rw [(tile weight).size, tile, ofFn]
    dsimp only
    rw [ha, hb, show 128 * a / 16 = 8 * a by omega]
    ring
  obtain ⟨v, hv, hvlen⟩ := exists_blockPermute (t := tile weight) (by rw [length_perm]; decide)
    (by rw [length_perm, htile]; exact Nat.dvd_mul_right _ _)
  have hw : v.reshape (weight.rows / 16) (weight.cols * 16) =
      some ⟨weight.rows / 16, weight.cols * 16, v.data, hvlen.trans (tile weight).size⟩ :=
    dif_pos (hvlen.trans (tile weight).size)
  have hlen : scales.data.length = scales.rows * weight.cols := by rw [scales.size, hscales]
  have hdvd : (if groupsize = -1 then scalePermSingle else scalePerm).length ∣
      scales.data.length := by
    rw [hlen, hb]
    split_ifs
    · exact Dvd.dvd.mul_left (Dvd.dvd.mul_right (by decide) b) _
    · exact Dvd.dvd.mul_left (Dvd.dvd.mul_right (by decide) b) _
  obtain ⟨u, hu, hulen⟩ := exists_blockPermute (by split_ifs <;> decide) hdvd
  obtain ⟨s, hs⟩ := exists_reshapeRows (t := u) hpos
    (by rw [hulen, hlen]; exact Nat.dvd_mul_left _ _)
  refine ⟨packNibbles ⟨weight.rows / 16, weight.cols * 16, v.data, hvlen.trans (tile weight).size⟩,
    s, ?_⟩
  unfold packMarlinWeight packWeight packScales
  simp only [guard, if_pos hgroup, if_pos hK, if_pos hN, hv, hw, hu, hs, Option.bind_eq_bind,
    Option.bind_some]
  rfl

/-- **Packing is never undone**: for no weight and no scales does it lose nothing. -/
theorem not_lossless (weight : Tensor (BitVec 32)) (scales : Tensor α) (groupsize : ℤ) :
    ¬ Lossless weight scales groupsize := by
  rintro ⟨packed, s, hpack, -, -, hunpack⟩
  obtain ⟨hpacked, hs⟩ := packMarlinWeight_eq_some hpack
  rw [unpack_eq_none hpacked (packScales_eq_some hs).1] at hunpack
  nomatch hunpack

/-- A weight of zeros whose scales are all different: they are packed, but of every 32 scales 24 are
lost, and nothing is unpacked. -/
theorem scale_lost : (∃ packed s,
    packMarlinWeight (ofFn 128 256 fun _ _ => 0) (ofFn 1 256 fun _ j => j) (-1) = some (packed, s) ∧
    8 ∉ s.data ∧
      unpack packed s 128 256 = none) ∧ ¬ Lossless (ofFn 128 256 fun _ _ => 0) (ofFn 1 256
        fun _ j => j) (-1) := by
  obtain ⟨packed, s, hpack⟩ :=
    @exists_packMarlinWeight ℕ _ (ofFn 128 256 fun _ _ => 0) (ofFn 1 256 fun _ j => j) (-1)
      (Or.inl rfl) rfl rfl (by decide) rfl
  obtain ⟨hpacked, hs⟩ := packMarlinWeight_eq_some hpack
  have hunpack := unpack_eq_none hpacked (packScales_eq_some hs).1 s
  refine ⟨⟨packed, s, hpack, fun hmem => ?_, hunpack⟩, ?_⟩
  · obtain ⟨x, hx, hmod, heq⟩ := single_scales hs 8 hmem
    rw [Tensor.size] at hx
    have hlt : x < 1 * 256 := hx
    rw [getD_ofFn _ hlt] at heq
    omega
  · rintro ⟨packed', s', hpack', -, -, hunpack'⟩
    rw [hpack, Option.some_inj, Prod.mk.injEq] at hpack'
    rw [← hpack'.1, ← hpack'.2, hunpack] at hunpack'
    nomatch hunpack'

end MoeInfinity.Kernel.MarlinGemm
