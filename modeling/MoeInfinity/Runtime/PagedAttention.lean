import Mathlib.Data.List.GetD
import MoeInfinity.Lib.Runs
import MoeInfinity.Python

/-! # Paged attention (`runtime/attention_backend.py`, `models/qwen3_paged_attention.py`)

All layers of a paged class share one backend through the class-level paged context. The backend
keeps one row of keys and values per slot. A prefill forward writes its rows and attends over the
rows it was given; a decode forward attends over the rows of the cache and writes nothing. The model
of a forward returns, for every layer and every query token, the rows that the attention is computed
over; `κ` is the type of a row of keys and values.

A decode forward therefore sees the rows of the last layer, and not the current token
(`decode_sees_last_layer`). A prefill forward of one sequence attends over its own rows
(`ownRows_of_onePrefill`). -/

namespace MoeInfinity.Runtime.PagedAttention

open MoeInfinity.Python MoeInfinity.Lib.Imperative MoeInfinity.Lib.Runs

variable {κ : Type}

/-! ### The backend -/

/-- What the FlashInfer wrappers attend over: the cache, the block tables and the sequence lengths
determine the rows for each query token. -/
structure FlashInfer (κ : Type) where
  prefill : (ℕ → κ) → List (List ℕ) → List ℕ → List (List κ)
  decode : (ℕ → κ) → List (List ℕ) → List ℕ → List (List κ)

/-- `k_cache` and `v_cache` by slot, and the second cache that is kept for FlashInfer. -/
structure PagedAttentionBackend (κ : Type) where
  blockSize : ℕ
  numGpuBlocks : ℕ
  cache : ℕ → κ
  fiCache : ℕ → κ
  flashinfer : Option (FlashInfer κ)

structure AttentionMetadata where
  isPrefill : Bool
  blockTables : List (List ℕ)
  slotMapping : List ℕ
  seqLens : List ℕ
deriving DecidableEq, Repr

/-- The common body of `write_kv` and `write_kv_flashinfer`. -/
def writeRows (put : ℕ → κ → PagedAttentionBackend κ → PagedAttentionBackend κ) (rows : List κ)
    (slotMapping : List ℕ) : Prog PyError (PagedAttentionBackend κ) Unit :=
  if slotMapping.length ≠ rows.length then
    raise (.valueError "slot_mapping must have shape [num_tokens]")
  else
    forEach (fun p : ℕ × κ => do
      let b ← current
      if b.numGpuBlocks ≤ p.1 / b.blockSize then
        raise (.valueError "slot_mapping points past allocated GPU blocks")
      else update (put p.1 p.2)) (slotMapping.zip rows)

def writeKv : List κ → List ℕ → Prog PyError (PagedAttentionBackend κ) Unit :=
  writeRows fun slot row b => { b with cache := Function.update b.cache slot row }

def writeKvFlashinfer : List κ → List ℕ → Prog PyError (PagedAttentionBackend κ) Unit :=
  writeRows fun slot row b => { b with fiCache := Function.update b.fiCache slot row }

/-- `scaled_dot_product_attention` with `is_causal` over the packed rows: token `j` sees the rows up
to its own. -/
def causalRows (rows : List κ) : List (List κ) :=
  (List.range rows.length).map fun j => rows.take (j + 1)

/-- The rows of one sequence in the cache, as `paged_attention_fwd` gathers them. -/
def gatherRows (blockSize : ℕ) (cache : ℕ → κ) (table : List ℕ) (seqLen : ℕ) : List κ :=
  (List.range seqLen).map fun p => cache (table.getD (p / blockSize) 0 * blockSize + p % blockSize)

/-- `_prefill_forward`. -/
def prefillForward (rows : List κ) (m : AttentionMetadata) (b : PagedAttentionBackend κ) :
    List (List κ) :=
  match b.flashinfer with
  | some fi => fi.prefill b.fiCache m.blockTables m.seqLens
  | none => causalRows rows

/-- `_decode_forward`. -/
def decodeForward (m : AttentionMetadata) (b : PagedAttentionBackend κ) : List (List κ) :=
  match b.flashinfer with
  | some fi => fi.decode b.fiCache m.blockTables m.seqLens
  | none => (m.blockTables.zip m.seqLens).map fun p => gatherRows b.blockSize b.cache p.1 p.2

/-- `PagedAttentionBackend.forward`: the rows that each query token attends over. -/
def backendForward (rows : List κ) (m : AttentionMetadata) :
    Prog PyError (PagedAttentionBackend κ) (List (List κ)) := do
  if m.isPrefill then
    writeKv rows m.slotMapping
    let b ← current
    if b.flashinfer.isSome then writeKvFlashinfer rows m.slotMapping else pure ()
    let b ← current
    return prefillForward rows m b
  else
    let b ← current
    return decodeForward m b

/-! ### Forwards of the model -/

/-- The tokens of one sequence in a forward. -/
structure Row where
  seq : ℕ
  context : ℕ
  count : ℕ
deriving DecidableEq, Repr

/-- A forward of the model: its sequences, and the rows that layer `l` computes for the token at
position `p` of sequence `q`. -/
structure Forward (κ : Type) where
  isPrefill : Bool
  rows : List Row
  kv : ℕ → ℕ → ℕ → κ

namespace Forward

/-- The width of the padded inputs. -/
def width (f : Forward κ) : ℕ := (f.rows.map (·.count)).foldl max 0

/-- Sequence and position of each token, in packed order. -/
def tokens (f : Forward κ) : List (ℕ × ℕ) :=
  f.rows.flatMap fun r => (List.range r.count).map fun j => (r.seq, r.context + j)

/-- The keys and values that layer `l` hands to the backend: the padding is not removed. -/
def layerRows (f : Forward κ) (l : ℕ) : List κ :=
  f.rows.flatMap fun r => (List.range f.width).map fun j => f.kv l r.seq (r.context + j)

/-- The slot of position `p` by a block table. -/
def slot (blockSize : ℕ) (table : List ℕ) (p : ℕ) : ℕ :=
  table.getD (p / blockSize) 0 * blockSize + p % blockSize

/-- The metadata of the paged context. -/
def metadata (f : Forward κ) (blockSize : ℕ) (tables : ℕ → List ℕ) : AttentionMetadata where
  isPrefill := f.isPrefill
  blockTables := f.rows.map fun r => tables r.seq
  slotMapping := f.tokens.map fun t => slot blockSize (tables t.1) t.2
  seqLens := f.rows.map fun r => r.context + r.count

end Forward

/-- The paged attention layers of the model, one after the other, on the shared backend. -/
def forwardLayers (f : Forward κ) (m : AttentionMetadata) :
    List ℕ → Prog PyError (PagedAttentionBackend κ) (List (List (List κ)))
  | [] => pure []
  | l :: ls => do
    let attended ← backendForward (f.layerRows l) m
    let rest ← forwardLayers f m ls
    return attended :: rest

/-! ### Runs -/

/-- The backend, and what each layer has last computed for each position of each sequence. -/
structure State (κ : Type) where
  backend : PagedAttentionBackend κ
  own : ℕ → ℕ → ℕ → Option κ

/-- The rows computed so far, with those of the forward `f`. -/
def ownAfter (f : Forward κ) (own : ℕ → ℕ → ℕ → Option κ) : ℕ → ℕ → ℕ → Option κ :=
  fun l q p => if (q, p) ∈ f.tokens then some (f.kv l q p) else own l q p

/-- The layers of a model with `n` layers, run on the block tables `tables`. -/
def runLayers (n : ℕ) (tables : ℕ → List ℕ) (b : PagedAttentionBackend κ) (f : Forward κ) :
    PagedAttentionBackend κ × Except PyError (List (List (List κ))) :=
  (forwardLayers f (f.metadata b.blockSize tables) (List.range n)).run b

/-- One forward of a model with `n` layers; one that raises computes nothing. -/
def step (n : ℕ) (tables : ℕ → List ℕ) (s : State κ) (f : Forward κ) : State κ :=
  match runLayers n tables s.backend f with
  | (b, .ok _) => ⟨b, ownAfter f s.own⟩
  | (b, .error _) => ⟨b, s.own⟩

/-- The attention of layer `l` for the token at position `i` of a sequence is over exactly the rows
that layer `l` computed for the positions `0, …, i` of this sequence. -/
def OwnRows (n : ℕ) (tables : ℕ → List ℕ) (s : State κ) (f : Forward κ) : Prop :=
  match (runLayers n tables s.backend f).2 with
  | .error _ => True
  | .ok attended => ∀ l < n, ∀ j q i : ℕ, f.tokens[j]? = some (q, i) →
      ∃ rows : List κ, (attended.getD l [])[j]? = some rows ∧
        rows.map some = (List.range (i + 1)).map (ownAfter f s.own l q)

/-- The condition on a forward: it is a prefill of a single sequence from its first token on. -/
def OnePrefill (_ : State κ) (f : Forward κ) : Prop :=
  f.isPrefill = true ∧ ∃ r, f.rows = [r] ∧ r.context = 0

instance (s : State κ) (f : Forward κ) : Decidable (OnePrefill s f) :=
  match h : f.rows with
  | [r] =>
    if h' : f.isPrefill = true ∧ r.context = 0 then isTrue ⟨h'.1, r, h, h'.2⟩
    else isFalse fun ⟨h1, r', h2, h3⟩ => h' ⟨h1, by
      rw [h, List.cons.injEq] at h2
      rw [h2.1]
      exact h3⟩
  | [] => isFalse fun ⟨_, r', h2, _⟩ => by rw [h] at h2; cases h2
  | _ :: _ :: _ => isFalse fun ⟨_, r', h2, _⟩ => by rw [h] at h2; cases h2

/-! ### Prefill forwards -/

theorem wp_writeRows {put : ℕ → κ → PagedAttentionBackend κ → PagedAttentionBackend κ}
    (hput : ∀ slot row b, (put slot row b).flashinfer = b.flashinfer) (rows : List κ)
    (slotMapping : List ℕ) (b : PagedAttentionBackend κ) :
    wp (writeRows put rows slotMapping) (fun _ b' => b'.flashinfer = b.flashinfer)
      (fun _ b' => b'.flashinfer = b.flashinfer) b := by
  unfold writeRows
  simp only [wp_ite, wp_raise]
  refine ⟨fun _ => trivial, fun _ => ?_⟩
  refine wp_forEach (fun _ (b' : PagedAttentionBackend κ) => b'.flashinfer = b.flashinfer)
    (fun p rest b' hb => ?_) _ _ rfl
  simp only [wp_bind, wp_current, wp_ite, wp_raise, wp_update]
  exact ⟨fun _ => hb, fun _ => by rw [hput]; exact hb⟩

/-- Without FlashInfer, a prefill attends over the packed rows it is given. -/
theorem wp_backendForward (rows : List κ) {m : AttentionMetadata} (hm : m.isPrefill = true)
    {b : PagedAttentionBackend κ} (hb : b.flashinfer = none) :
    wp (backendForward rows m) (fun attended b' => attended = causalRows rows ∧
      b'.flashinfer = none) (fun _ b' => b'.flashinfer = none) b := by
  unfold backendForward
  simp only [hm, if_true, wp_bind, wp_current, wp_ite, wp_pure]
  have hwrite : wp (writeKv rows m.slotMapping) (fun _ b' => b'.flashinfer = b.flashinfer)
      (fun _ b' => b'.flashinfer = b.flashinfer) b := by
    refine wp_writeRows ?_ rows m.slotMapping b
    intro slot row b
    rfl
  refine wp_mono hwrite (fun _ b' hb' => ?_) fun _ b' hb' => hb'.trans hb
  have hnone : b'.flashinfer = none := hb'.trans hb
  refine ⟨fun h0 => ?_, fun _ => ⟨?_, hnone⟩⟩
  · rw [hnone] at h0; cases h0
  · unfold prefillForward
    rw [hnone]

theorem wp_forwardLayers (f : Forward κ) {m : AttentionMetadata} (hm : m.isPrefill = true) :
    ∀ (layers : List ℕ) (b : PagedAttentionBackend κ), b.flashinfer = none →
    wp (forwardLayers f m layers) (fun attended b' =>
      attended = layers.map (fun l => causalRows (f.layerRows l)) ∧ b'.flashinfer = none)
      (fun _ b' => b'.flashinfer = none) b
  | [], _, hb => ⟨rfl, hb⟩
  | l :: layers, b, hb => by
    simp only [forwardLayers, wp_bind, wp_pure]
    refine wp_mono (wp_backendForward (f.layerRows l) hm hb) ?_ fun _ _ h => h
    rintro attended b₁ ⟨rfl, hb₁⟩
    refine wp_mono (wp_forwardLayers f hm layers b₁ hb₁) ?_ fun _ _ h => h
    rintro rest b₂ ⟨rfl, hb₂⟩
    exact ⟨rfl, hb₂⟩

/-- A forward with one sequence has no padding. -/
theorem tokens_of_single {f : Forward κ} {r : Row} (h : f.rows = [r]) (hc : r.context = 0) :
    f.tokens = (List.range r.count).map fun p => (r.seq, p) := by
  unfold Forward.tokens
  rw [h, List.flatMap_singleton, hc]
  simp only [Nat.zero_add]

theorem layerRows_of_single {f : Forward κ} {r : Row} (h : f.rows = [r]) (hc : r.context = 0)
    (l : ℕ) : f.layerRows l = (List.range r.count).map (f.kv l r.seq) := by
  unfold Forward.layerRows Forward.width
  rw [h, List.flatMap_singleton, hc]
  simp

/-- The rows that a prefill of one sequence attends over are its own. -/
theorem causalRows_own {f : Forward κ} {r : Row} (h : f.rows = [r]) (hc : r.context = 0)
    (own : ℕ → ℕ → ℕ → Option κ) {l j q i : ℕ} (ht : f.tokens[j]? = some (q, i)) :
    ∃ rows : List κ, (causalRows (f.layerRows l))[j]? = some rows ∧
      rows.map some = (List.range (i + 1)).map (ownAfter f own l q) := by
  rw [tokens_of_single h hc, List.getElem?_map, Option.map_eq_some_iff] at ht
  obtain ⟨j', hj, heq⟩ := ht
  obtain ⟨rfl, rfl⟩ := Prod.mk.inj heq
  have hlt : j < r.count := by
    have := (List.getElem?_eq_some_iff.mp hj).1
    rwa [List.length_range] at this
  rw [List.getElem?_range hlt] at hj
  obtain rfl := Option.some.inj hj
  refine ⟨(f.layerRows l).take (j + 1), ?_, ?_⟩
  · unfold causalRows
    rw [List.getElem?_map, List.getElem?_range]
    · rfl
    · rw [layerRows_of_single h hc, List.length_map, List.length_range]
      exact hlt
  · rw [layerRows_of_single h hc, ← List.map_take, List.take_range, Nat.min_eq_left (by omega),
      List.map_map]
    refine List.map_congr_left fun p hp => ?_
    have hp : p < j + 1 := List.mem_range.mp hp
    unfold ownAfter
    rw [if_pos]
    · rfl
    · rw [tokens_of_single h hc, List.mem_map]
      exact ⟨p, List.mem_range.mpr (by omega), rfl⟩

/-- **Every layer attends over its own rows** in every run whose forwards are prefills of one
sequence, on a backend without FlashInfer. -/
theorem ownRows_of_onePrefill (n : ℕ) (tables : ℕ → List ℕ) (s : State κ)
    (hs : s.backend.flashinfer = none) (fs : List (Forward κ))
    (h : Along (step n tables) OnePrefill s fs) :
    Along (step n tables) (OwnRows n tables) s fs := by
  have hlayers : ∀ (s : State κ) (f : Forward κ), s.backend.flashinfer = none → OnePrefill s f →
      wp (forwardLayers f (f.metadata s.backend.blockSize tables) (List.range n))
        (fun attended b' =>
        attended = (List.range n).map (fun l => causalRows (f.layerRows l)) ∧ b'.flashinfer = none)
        (fun _ b' => b'.flashinfer = none) s.backend := fun s f hb hf =>
    wp_forwardLayers f hf.1 (List.range n) s.backend hb
  refine along_of_inv (I := fun s => s.backend.flashinfer = none) (fun s f hb hf => ?_)
    (fun s f hb hf => ?_) fs s hs h
  · have hwp := hlayers s f hb hf
    unfold step runLayers
    cases hrun : (forwardLayers f (f.metadata s.backend.blockSize tables) (List.range n)).run
        s.backend with
    | mk b' r =>
      cases r with
      | ok attended =>
        have hnone := (wp_ok hwp hrun).2
        exact hnone
      | error err =>
        have hnone := wp_error hwp hrun
        exact hnone
  · have hwp := hlayers s f hb hf
    obtain ⟨-, r, hr, hc⟩ := hf
    unfold OwnRows runLayers
    cases hrun : (forwardLayers f (f.metadata s.backend.blockSize tables) (List.range n)).run
        s.backend with
    | mk b' res =>
      cases res with
      | error err => exact trivial
      | ok attended =>
        obtain ⟨rfl, -⟩ := wp_ok hwp hrun
        intro l hl j q i ht
        rw [List.getD_eq_getElem _ _ (by simpa using hl)]
        simp only [List.getElem_map, List.getElem_range]
        exact causalRows_own hr hc s.own ht

/-! ### Both cases with two layers -/

/-- A backend with four blocks of two slots, all rows zero. -/
def zeroState : State ℕ := ⟨⟨2, 4, fun _ => 0, fun _ => 0, none⟩, fun _ _ _ => none⟩

/-- Two blocks for every sequence. -/
def twoEach (q : ℕ) : List ℕ := [2 * q, 2 * q + 1]

/-- The row that layer `l` computes for position `p` of sequence `q`. -/
def labelled (l q p : ℕ) : ℕ := 100 * (l + 1) + 10 * q + p

/-- Two sequences, one after the other. -/
def twoPrompts : List (Forward ℕ) :=
  [⟨true, [⟨0, 0, 3⟩], labelled⟩, ⟨true, [⟨1, 0, 2⟩], labelled⟩]

theorem ownRows_twoPrompts :
    Along (step 2 twoEach) OnePrefill zeroState twoPrompts ∧
      Along (step 2 twoEach) (OwnRows 2 twoEach) zeroState twoPrompts ∧
      (exec (step 2 twoEach) zeroState twoPrompts).backend.cache 5 = 211 :=
  ⟨by decide, ownRows_of_onePrefill _ _ _ rfl _ (by decide), by decide⟩

/-- Two tokens are prefilled and the third is decoded, with two layers: the first layer attends over
the rows `200, 201` of the second one, and over the row of the third token, which is still zero. -/
theorem decode_sees_last_layer : ¬ ∀ (n : ℕ) (tables : ℕ → List ℕ) (b : PagedAttentionBackend ℕ)
    (fs : List (Forward ℕ)), (∀ q, (tables q).Nodup) →
    (∀ q q', q ≠ q' → List.Disjoint (tables q) (tables q')) →
    Along (step n tables) (OwnRows n tables) ⟨b, fun _ _ _ => none⟩ fs := by
  intro h
  have hrun := h 2 twoEach zeroState.backend
    [⟨true, [⟨0, 0, 2⟩], labelled⟩, ⟨false, [⟨0, 2, 1⟩], labelled⟩] (fun q => by simp [twoEach])
    (fun q q' hne x hx hx' => by
      simp only [twoEach, List.mem_cons, List.not_mem_nil, or_false] at hx hx'
      omega)
  have hlast := hrun.2.1
  have hout : (runLayers 2 twoEach (step 2 twoEach zeroState
      ⟨true, [⟨0, 0, 2⟩], labelled⟩).backend ⟨false, [⟨0, 2, 1⟩], labelled⟩).2 =
      .ok [[[200, 201, 0]], [[200, 201, 0]]] := by decide
  unfold OwnRows at hlast
  rw [show (⟨zeroState.backend, fun _ _ _ => none⟩ : State ℕ) = zeroState from rfl, hout] at hlast
  obtain ⟨rows, hrows, hown⟩ := hlast 0 (by decide) 0 0 2 (by decide)
  have hr : rows = [200, 201, 0] := (Option.some.inj hrows).symm
  rw [hr] at hown
  exact absurd hown (by decide)

end MoeInfinity.Runtime.PagedAttention
