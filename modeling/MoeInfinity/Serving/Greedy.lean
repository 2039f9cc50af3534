import MoeInfinity.Serving.Rowwise

/-! # Greedy outputs of the engine

A causal model gives logits for new tokens from the past of the tokens before them, and a forward on
new tokens with the past of a prefix is the forward on the whole (`CausalModel`). Greedy decoding
appends the `argmax` of the full forward, token by token (`greedyText`).

The runner passes no `past_key_values`, so a decode step, which feeds one token only, runs the model
on that token alone (`decode_without_past`). Prefill steps feed the whole prompt, so in runs without
decode steps and without a paged context all outputs are greedy (`greedy_of_prefillOnly`). -/

namespace MoeInfinity.Serving.Greedy

open MoeInfinity.Python MoeInfinity.Lib.Imperative MoeInfinity.Lib.Runs
open MoeInfinity.Serving.Sequence MoeInfinity.Serving.KvCache MoeInfinity.Serving.KvCacheSpec
open MoeInfinity.Serving.Schedule MoeInfinity.Serving.Lifecycle MoeInfinity.Serving.ScheduleSpec
open MoeInfinity.Serving.ScheduleCall MoeInfinity.Serving.Batch MoeInfinity.Serving.ModelRunner
open MoeInfinity.Serving.Engine MoeInfinity.Serving.EngineInv MoeInfinity.Serving.EngineStep

variable {β ρ : Type}

/-! ### Causal models -/

/-- A causal model with a past: one row of logits per new token, given with its position. -/
structure CausalModel (ρ : Type) where
  Past : Type
  empty : Past
  forward : Past → List (ℕ × ℕ) → List ρ × Past
  length_forward : ∀ p xs, (forward p xs).1.length = xs.length
  /-- A forward with the past of a prefix is the full forward. -/
  forward_append : ∀ p xs ys, forward p (xs ++ ys) =
    ((forward p xs).1 ++ (forward (forward p xs).2 ys).1, (forward (forward p xs).2 ys).2)

namespace CausalModel

variable (M : CausalModel ρ)

/-- The logits of all tokens, without a past. -/
def fullLogits (xs : List (ℕ × ℕ)) : List ρ := (M.forward M.empty xs).1

/-- The logits of the last token of a text, by a full forward. -/
def full (tokens : List ℕ) : Option ρ :=
  (M.fullLogits (tokens.zip (List.range tokens.length))).getLast?

/-- Greedy decoding. -/
def greedyText (argmax : ρ → ℕ) (prompt : List ℕ) : ℕ → List ℕ
  | 0 => []
  | n + 1 => greedyText argmax prompt n ++
      ((M.full (prompt ++ greedyText argmax prompt n)).map argmax).toList

/-- Every output is the `argmax` of the full forward on the text before it. -/
def IsGreedy (argmax : ρ → ℕ) (prompt outputs : List ℕ) : Prop :=
  ∀ k t, outputs[k]? = some t → (M.full (prompt ++ outputs.take k)).map argmax = some t

theorem IsGreedy.take {M : CausalModel ρ} {argmax : ρ → ℕ} {prompt outputs : List ℕ}
    (h : M.IsGreedy argmax prompt outputs) :
    ∀ n ≤ outputs.length, outputs.take n = M.greedyText argmax prompt n := by
  intro n
  induction n with
  | zero => exact fun _ => List.take_zero
  | succ n ih =>
    intro hn
    have hlt : n < outputs.length := by omega
    have hget := h n outputs[n] (List.getElem?_eq_getElem hlt)
    rw [greedyText, ← ih (by omega), hget, List.take_succ_eq_append_getElem hlt]
    rfl

/-- The logits of a prefix do not depend on what follows. -/
theorem take_fullLogits (M : CausalModel ρ) (xs : List (ℕ × ℕ)) (n : ℕ) :
    (M.fullLogits xs).take n = M.fullLogits (xs.take n) := by
  have hlen := M.length_forward M.empty (xs.take n)
  have happ := congrArg Prod.fst (M.forward_append M.empty (xs.take n) (xs.drop n))
  rw [List.take_append_drop] at happ
  unfold fullLogits
  rw [happ]
  by_cases hn : n ≤ xs.length
  · rw [List.take_left' (by rw [hlen, List.length_take]; omega)]
  · rw [List.drop_eq_nil_of_le (by omega), List.take_of_length_le]
    · have hnil := M.length_forward (M.forward M.empty (xs.take n)).2 []
      rw [List.eq_nil_of_length_eq_zero hnil, List.append_nil]
    · rw [List.length_append, hlen, M.length_forward, List.length_take]
      simp only [List.length_nil]
      omega

/-- Greedy outputs are the text that greedy decoding produces. -/
theorem IsGreedy.eq_greedyText {M : CausalModel ρ} {argmax : ρ → ℕ} {prompt outputs : List ℕ}
    (h : M.IsGreedy argmax prompt outputs) :
    outputs = M.greedyText argmax prompt outputs.length := by
  rw [← h.take _ (le_refl _), List.take_length]

end CausalModel

/-! ### The engine's calls of such a model -/

/-- The rows of a call without past: the logits of the tokens that are not padding are those of a
forward on the row's tokens and positions. -/
def RowsFollow (M : CausalModel ρ) :
    List (List ℕ) → List (List ℕ) → List (List ℕ) → List (List ρ) → Prop
  | ids :: inputIds, ps :: positionIds, mask :: masks, row :: rows =>
    row.take mask.sum = M.fullLogits ((ids.zip ps).take mask.sum) ∧
      RowsFollow M inputIds positionIds masks rows
  | [], [], [], [] => True
  | _, _, _, _ => False

/-- The model of the engine follows the HuggingFace interface: without a paged context its logits
are those of `M`. -/
def FollowsHf (env : Env ρ) (M : CausalModel ρ) : Prop :=
  ∀ history inputs logits, inputs.metadata = none → env.forward history inputs = .ok logits →
    ∃ rows, logits = .rank3 rows ∧
      RowsFollow M inputs.inputIds inputs.positionIds inputs.attentionMask rows

/-- The logits of a row of the batch. -/
def rowLogits (M : CausalModel ρ) (r : BatchRow) : List ρ :=
  M.fullLogits (r.tokens.zip (positions r))

theorem length_rowLogits (M : CausalModel ρ) (r : BatchRow) :
    (rowLogits M r).length = r.tokens.length := by
  unfold rowLogits CausalModel.fullLogits positions
  rw [M.length_forward, List.length_zip, List.length_range', Nat.min_self]

/-- The rows of a causal model without past. -/
def CausalModel.rowModel (M : CausalModel ρ) : Rowwise.RowModel ρ :=
  ⟨M.fullLogits, M.length_forward M.empty⟩

theorem forall₂_of_rowsFollow (M : CausalModel ρ) : ∀ (inputIds positionIds masks : List (List ℕ))
    (rows : List (List ρ)), RowsFollow M inputIds positionIds masks rows →
    List.Forall₂ (fun xs l => l.take xs.length = M.fullLogits xs)
      ((inputIds.zip (positionIds.zip masks)).map fun row =>
        (row.1.zip row.2.1).take row.2.2.sum) rows
  | ids :: inputIds, ps :: positionIds, mask :: masks, row :: rows, h => by
    obtain ⟨hrow, hrest⟩ := h
    refine .cons ?_ (forall₂_of_rowsFollow M inputIds positionIds masks rows hrest)
    have hlen : (M.fullLogits ((ids.zip ps).take mask.sum)).length =
        ((ids.zip ps).take mask.sum).length :=
      M.length_forward M.empty _
    rw [← hrow, List.length_take] at hlen
    rw [← hrow, ← hlen]
    exact List.take_eq_take_min.symm
  | [], [], [], [], _ => .nil

theorem rowLocal_of_followsHf {env : Env ρ} {M : CausalModel ρ} (h : FollowsHf env M) :
    Rowwise.RowLocal env M.rowModel := by
  intro history inputs logits hmeta hf
  obtain ⟨rows, rfl, hrows⟩ := h history inputs logits hmeta hf
  exact forall₂_of_rowsFollow M _ _ _ _ hrows

/-! ### The property and the condition -/

/-- The outputs of all sequences with temperature `0` are greedy. -/
def GreedyOutputs (env : Env ρ) (M : CausalModel ρ) (e : ContinuousBatchingEngine β) : Prop :=
  ∀ i, (e.scheduler.store i).samplingParams.temperature = 0 →
    M.IsGreedy env.argmax (e.scheduler.store i).promptTokenIds
      (e.scheduler.store i).outputTokenIds ∧
      (e.scheduler.store i).outputTokenIds = M.greedyText env.argmax
        (e.scheduler.store i).promptTokenIds (e.scheduler.store i).outputTokenIds.length

/-- The outputs are greedy after every operation. -/
def StaysGreedy (env : Env ρ) (M : CausalModel ρ) (e : ContinuousBatchingEngine β)
    (o : Op) : Prop :=
  GreedyOutputs env M (runOp env e o)

/-- Nothing is selected for decode. -/
def NoDecode : Except PyError SchedulerOutput → Prop
  | .ok out => out.decodeSeqIds = []
  | .error _ => True

instance : ∀ r, Decidable (NoDecode r)
  | .ok _ => inferInstanceAs (Decidable (_ = _))
  | .error _ => isTrue trivial

/-- The condition on a step: the model runs without a paged context, and `schedule` selects nothing
for decode. -/
def PrefillWithoutContext (env : Env ρ) (e : ContinuousBatchingEngine β) : Op → Prop
  | .step predict => env.usePagedContext = false ∧
      NoDecode ((Scheduler.schedule predict).run e.scheduler).2
  | _ => True

instance (env : Env ρ) (e : ContinuousBatchingEngine β) :
    ∀ o : Op, Decidable (PrefillWithoutContext env e o)
  | .step _ => inferInstanceAs (Decidable (_ ∧ _))
  | .addRequest _ _ _ _ _ => isTrue trivial
  | .abortRequest _ => isTrue trivial

/-- The operation returns. -/
def OpReturns (env : Env ρ) (e : ContinuousBatchingEngine β) : Op → Prop
  | .addRequest rid prompt params n onToken =>
    ((ContinuousBatchingEngine.addRequest rid prompt params n onToken).run e).2.isOk = true
  | .step predict => ((ContinuousBatchingEngine.step env predict).run e).2.isOk = true
  | .abortRequest rid => ((ContinuousBatchingEngine.abortRequest env rid).run e).2.isOk = true

instance (env : Env ρ) (e : ContinuousBatchingEngine β) : ∀ o : Op, Decidable (OpReturns env e o)
  | .addRequest _ _ _ _ _ => inferInstanceAs (Decidable (_ = _))
  | .step _ => inferInstanceAs (Decidable (_ = _))
  | .abortRequest _ => inferInstanceAs (Decidable (_ = _))

/-! ### The invariant -/

/-- A sequence that waits has no outputs and no computed tokens; all outputs so far are greedy. -/
structure GreedySoFar (env : Env ρ) (M : CausalModel ρ)
    (e : ContinuousBatchingEngine β) : Prop where
  consistent : Consistent e
  blank : ∀ i, (e.scheduler.store i).status = .waiting →
    (e.scheduler.store i).outputTokenIds = [] ∧ (e.scheduler.store i).numComputedTokens = 0
  greedy : ∀ i, (e.scheduler.store i).samplingParams.temperature = 0 →
    M.IsGreedy env.argmax (e.scheduler.store i).promptTokenIds (e.scheduler.store i).outputTokenIds

theorem isGreedy_nil (M : CausalModel ρ) (argmax : ρ → ℕ) (prompt : List ℕ) :
    M.IsGreedy argmax prompt [] := fun _ _ h => by cases h

theorem greedySoFar_start (env : Env ρ) (M : CausalModel ρ) (cfg : SchedConfig) (kvCfg : KvConfig)
    (kv : ℕ → β) : GreedySoFar env M (start cfg kvCfg kv) :=
  ⟨consistent_new cfg kvCfg kv, fun _ _ => ⟨rfl, rfl⟩, fun _ _ => isGreedy_nil M _ _⟩

theorem GreedySoFar.outputs {env : Env ρ} {M : CausalModel ρ} {e : ContinuousBatchingEngine β}
    (h : GreedySoFar env M e) : GreedyOutputs env M e := fun i hi =>
  ⟨h.greedy i hi, (h.greedy i hi).eq_greedyText⟩

theorem GreedySoFar.of_statusOnly {env : Env ρ} {M : CausalModel ρ}
    {e e' : ContinuousBatchingEngine β} (h : GreedySoFar env M e) (hcons : Consistent e')
    (hstore : ∀ i, StatusOnly (e.scheduler.store i) (e'.scheduler.store i)) :
    GreedySoFar env M e' := by
  refine ⟨hcons, fun i hw => ?_, fun i hi => ?_⟩
  · rw [(hstore i).1]
    exact h.blank i ((hstore i).2 hw)
  · rw [(hstore i).1] at hi ⊢
    exact h.greedy i hi

/-- The first output of a sequence whose whole prompt was the row of the batch. -/
theorem isGreedy_first {env : Env ρ} {M : CausalModel ρ} {calls : List Call} {r : BatchRow}
    {prompt : List ℕ} {row : ρ} {t : ℕ} (htok : r.tokens = prompt) (hctx : r.contextLength = 0)
    (hlast : (rowLogits M r).getLast? = some row)
    (hs : sampleRow env calls row r.samplingParams = .ok t)
    (htemp : r.samplingParams.temperature = 0) :
    M.IsGreedy env.argmax prompt [t] := by
  have ht : env.argmax row = t := by
    unfold sampleRow at hs
    rw [if_pos htemp] at hs
    exact Except.ok.inj hs
  intro k t' hk
  cases k with
  | succ k => cases hk
  | zero =>
    rw [← Option.some.inj hk, List.take_zero, List.append_nil, CausalModel.full]
    unfold rowLogits positions at hlast
    rw [hctx, htok, ← List.range_eq_range'] at hlast
    rw [hlast, Option.map_some, ht]

/-- **A step without decode** gives the sequences of the batch their first, greedy output. -/
theorem GreedySoFar.step {env : Env ρ} {M : CausalModel ρ} (hM : FollowsHf env M)
    {e : ContinuousBatchingEngine β} (h : GreedySoFar env M e)
    {predict : Option (String → List ℕ → ℚ)} (hg : PrefillWithoutContext env e (.step predict)) :
    GreedySoFar env M (runOp env e (.step predict)) := by
  obtain ⟨hpaged, hno⟩ := hg
  rcases step_cases env predict h.consistent with ⟨out, h0⟩ | ⟨out, s₁, tokens, outputs, e₁, hacc,
    hclose, -⟩
  · exact h.of_statusOnly h0.consistent (statusOnly_scheduled h0.scheduled)
  · have hs := hacc.scheduled
    rw [hacc.ran] at hno
    have hdec : out.decodeSeqIds = [] := hno
    have hids : batchIds out = out.prefillSeqIds := by
      unfold batchIds
      rw [hdec, List.append_nil]
    have hmid := statusOnly_scheduled hs
    have hend := hclose.store
    -- a sequence of the batch waited before and has its first output now
    have hfirst : ∀ i ∈ batchIds out, ∃ t,
        e₁.scheduler.store i = ((life s₁ i).appended t).data ∧
        (e.scheduler.store i).outputTokenIds = [] ∧
        ((e.scheduler.store i).samplingParams.temperature = 0 →
          M.IsGreedy env.argmax (e.scheduler.store i).promptTokenIds [t]) := by
      intro i hi
      obtain ⟨t, hmem, hl⟩ := hacc.lives.each i hi
      rw [hids] at hi
      obtain ⟨hout, hcomp⟩ := h.blank i (hs.entered i hi)
      refine ⟨t, congrArg Life.data hl, hout, fun htemp => ?_⟩
      rw [← seqIds_batchOf s₁ out] at hmem
      obtain ⟨r, hr, hid, row, hget, hrow⟩ :=
        Rowwise.sampled_row (rowLocal_of_followsHf hM) hpaged hacc.sampled hmem
      unfold batchOf at hr
      rw [hdec, List.map_nil, List.append_nil] at hr
      obtain ⟨j, -, rfl⟩ := List.mem_map.mp hr
      have hj : j = i := hid
      subst hj
      refine isGreedy_first ?_ ?_ hget hrow ?_
      · show (s₁.store j).promptTokenIds.drop (s₁.store j).numComputedTokens = _
        rw [(hmid j).1, hcomp, List.drop_zero]
      · show (s₁.store j).numComputedTokens = 0
        rw [(hmid j).1, hcomp]
      · show (s₁.store j).samplingParams.temperature = 0
        rw [(hmid j).1]
        exact htemp
    refine ⟨hclose.consistent, fun i hw => ?_, fun i htemp => ?_⟩
    · have hw₁ := (hend i).2 hw
      rw [(hend i).1]
      by_cases hi : i ∈ batchIds out
      · obtain ⟨t, hdata, -, -⟩ := hfirst i hi
        rw [hdata] at hw₁
        rcases (batch_spec hs).2 i hi with h1 | h1 | h1 <;>
          rw [show (s₁.store i).status = .waiting from hw₁] at h1 <;> cases h1
      · have hsame : e₁.scheduler.store i = s₁.store i :=
          congrArg Life.data (hacc.lives.other i hi)
        rw [hsame] at hw₁ ⊢
        rw [(hmid i).1]
        exact h.blank i ((hmid i).2 hw₁)
    · rw [(hend i).1] at htemp ⊢
      by_cases hi : i ∈ batchIds out
      · obtain ⟨t, hdata, hout, hgreedy⟩ := hfirst i hi
        rw [hdata] at htemp ⊢
        have hstart : (life s₁ i).data = s₁.store i := rfl
        simp only [Life.appended, hstart] at htemp ⊢
        rw [(hmid i).1] at htemp ⊢
        simp only [hout, List.nil_append] at htemp ⊢
        exact hgreedy htemp
      · have hsame : e₁.scheduler.store i = s₁.store i :=
          congrArg Life.data (hacc.lives.other i hi)
        rw [hsame, (hmid i).1] at htemp ⊢
        exact h.greedy i htemp

/-! ### Runs -/

/-- **One operation** of a run without decode steps keeps the invariant. -/
theorem GreedySoFar.runOp {env : Env ρ} {M : CausalModel ρ} (hM : FollowsHf env M)
    {e : ContinuousBatchingEngine β} (h : GreedySoFar env M e) {o : Op}
    (hg : PrefillWithoutContext env e o) : GreedySoFar env M (runOp env e o) := by
  cases o with
  | step predict => exact h.step hM hg
  | addRequest rid prompt params n onToken =>
    rcases add_cases rid prompt params n onToken h.consistent env with h0 | ⟨hcons, h0⟩
    · rw [h0]; exact h
    · refine ⟨hcons, fun i hw => ?_, fun i hi => ?_⟩
      · by_cases hnew : e.nextSeqId ≤ i ∧ i < e.nextSeqId + n
        · rw [h0.new i hnew.1 hnew.2]
          exact ⟨rfl, rfl⟩
        · rw [h0.other i hnew] at hw ⊢
          exact h.blank i hw
      · by_cases hnew : e.nextSeqId ≤ i ∧ i < e.nextSeqId + n
        · rw [h0.new i hnew.1 hnew.2]
          exact isGreedy_nil M _ _
        · rw [h0.other i hnew] at hi ⊢
          exact h.greedy i hi
  | abortRequest rid =>
    obtain ⟨hcons, -, -, -, hlives⟩ := abort_cases rid h.consistent env
    exact h.of_statusOnly hcons fun i => statusOnly_cancelled (hlives i)

/-- **All outputs are greedy** in every run of a causal model without a paged context in which no
step selects a sequence for decode. -/
theorem greedy_of_prefillOnly (env : Env ρ) (M : CausalModel ρ) (hM : FollowsHf env M)
    (cfg : SchedConfig) (kvCfg : KvConfig) (kv : ℕ → β) (ops : List Op)
    (h : Along (runOp env) (PrefillWithoutContext env) (start cfg kvCfg kv) ops) :
    Along (runOp env) (StaysGreedy env M) (start cfg kvCfg kv) ops :=
  along_of_inv (I := GreedySoFar env M) (fun _ _ hs hg => hs.runOp hM hg)
    (fun _ _ hs hg => (hs.runOp hM hg).outputs) ops _ (greedySoFar_start env M cfg kvCfg kv) h

/-! ### A model of running sums -/

/-- The sums of the tokens so far, from a start value. -/
def runningSums (start : ℕ) : List (ℕ × ℕ) → List ℕ × ℕ
  | [] => ([], start)
  | x :: xs => ((start + x.1) :: (runningSums (start + x.1) xs).1, (runningSums (start + x.1) xs).2)

theorem length_runningSums : ∀ (start : ℕ) (xs : List (ℕ × ℕ)),
    (runningSums start xs).1.length = xs.length
  | _, [] => rfl
  | start, x :: xs => congrArg (· + 1) (length_runningSums (start + x.1) xs)

theorem runningSums_append : ∀ (start : ℕ) (xs ys : List (ℕ × ℕ)),
    runningSums start (xs ++ ys) = ((runningSums start xs).1 ++
      (runningSums (runningSums start xs).2 ys).1, (runningSums (runningSums start xs).2 ys).2)
  | _, [], _ => rfl
  | start, x :: xs, ys => by
    rw [List.cons_append, runningSums, runningSums_append (start + x.1) xs ys]
    rfl

/-- The model whose logits are the sum of all tokens so far. -/
def sumModel : CausalModel ℕ where
  Past := ℕ
  empty := 0
  forward := runningSums
  length_forward := length_runningSums
  forward_append := runningSums_append

/-- The rows of a call of the model `M`. -/
def hfRows (M : CausalModel ρ) :
    List (List ℕ) → List (List ℕ) → List (List ℕ) → Option (List (List ρ))
  | ids :: inputIds, ps :: positionIds, _ :: masks =>
    (hfRows M inputIds positionIds masks).map (M.fullLogits (ids.zip ps) :: ·)
  | [], [], [] => some []
  | _, _, _ => none

/-! ### A small engine -/

theorem four_slots : 0 < 4 := by decide

theorem eight_sequences : 0 < 8 := by decide

theorem sixtyFour_tokens : 0 < 64 := by decide

/-- An engine environment that runs `M` without a paged context. -/
def hfEnv (M : CausalModel ρ) (argmax : ρ → ℕ) : Env ρ where
  pagedClasses := false
  hasBackend := false
  runnerBlockSize := 4
  runnerBlockSize_pos := four_slots
  forward := fun _ inputs =>
    match hfRows M inputs.inputIds inputs.positionIds inputs.attentionMask with
    | some rows => .ok (.rank3 rows)
    | none => .error (.valueError "shapes do not match")
  argmax := argmax
  draw := fun _ row _ => argmax row
  eosTokenId := none
  decodeTokens := fun _ => none

theorem rowsFollow_hfRows (M : CausalModel ρ) : ∀ (inputIds positionIds masks : List (List ℕ))
    (rows : List (List ρ)), hfRows M inputIds positionIds masks = some rows →
    RowsFollow M inputIds positionIds masks rows
  | ids :: inputIds, ps :: positionIds, mask :: masks, rows, h => by
    rw [hfRows, Option.map_eq_some_iff] at h
    obtain ⟨rest, hrest, rfl⟩ := h
    exact ⟨M.take_fullLogits _ _, rowsFollow_hfRows M inputIds positionIds masks rest hrest⟩
  | [], [], [], rows, h => by
    rw [← Option.some.inj h]
    exact trivial
  | [], [], _ :: _, _, h => by cases h
  | [], _ :: _, _, _, h => by cases h
  | _ :: _, [], _, _, h => by cases h
  | _ :: _, _ :: _, [], _, h => by cases h

theorem followsHf_hfEnv (M : CausalModel ρ) (argmax : ρ → ℕ) : FollowsHf (hfEnv M argmax) M := by
  intro history inputs logits _ hf
  simp only [hfEnv] at hf
  cases hrows : hfRows M inputs.inputIds inputs.positionIds inputs.attentionMask with
  | none => rw [hrows] at hf; cases hf
  | some rows =>
    rw [hrows] at hf
    exact ⟨rows, (Except.ok.inj hf).symm, rowsFollow_hfRows M _ _ _ rows hrows⟩

/-- An engine with four blocks of four slots. -/
def smallEngine : ContinuousBatchingEngine ℕ :=
  start ⟨8, 64, eight_sequences, sixtyFour_tokens⟩ ⟨4, 4, four_slots, four_slots⟩ fun b => b

/-- Two requests that end with their prefill step. -/
def firstTokens : List Op :=
  [.addRequest "a" [1, 2] { temperature := 0, maxTokens := 1 } 1 none,
    .addRequest "b" [4, 5, 6] { temperature := 0, maxTokens := 1 } 1 none, .step none]

theorem greedy_firstTokens :
    Along (runOp (hfEnv sumModel id)) (PrefillWithoutContext (hfEnv sumModel id)) smallEngine
        firstTokens ∧
      Along (runOp (hfEnv sumModel id)) (StaysGreedy (hfEnv sumModel id) sumModel) smallEngine
        firstTokens ∧
      ((exec (runOp (hfEnv sumModel id)) smallEngine firstTokens).scheduler.store
        1).outputTokenIds = [15] :=
  ⟨by decide, greedy_of_prefillOnly _ _ (followsHf_hfEnv _ _) _ _ _ _ (by decide), by decide⟩

/-- A request with two output tokens. -/
def twoTokens : List Op :=
  [.addRequest "a" [1, 2] { temperature := 0, maxTokens := 2 } 1 none, .step none, .step none]

/-- No call raises, and the second output for the prompt `1, 2` is `3`, the sum of the one token
that the decode step feeds; greedy decoding gives `6`. -/
theorem decode_without_past : ¬ ∀ (env : Env ℕ) (M : CausalModel ℕ) (cfg : SchedConfig)
    (kvCfg : KvConfig) (kv : ℕ → ℕ) (ops : List Op), FollowsHf env M → env.usePagedContext = false →
    Along (runOp env) (OpReturns env) (start cfg kvCfg kv) ops →
    Along (runOp env) (StaysGreedy env M) (start cfg kvCfg kv) ops := by
  intro h
  have hrun := h (hfEnv sumModel id) sumModel ⟨8, 64, by decide, by decide⟩
    ⟨4, 4, by decide, by decide⟩ (fun b => b) twoTokens (followsHf_hfEnv _ _) rfl (by decide)
  have hlast : GreedyOutputs (hfEnv sumModel id) sumModel
    (exec (runOp (hfEnv sumModel id)) smallEngine twoTokens) := hrun.2.2.1
  have htext := (hlast 0 (by decide)).2
  have hout : ((exec (runOp (hfEnv sumModel id)) smallEngine twoTokens).scheduler.store
    0).outputTokenIds = [3, 3] := by decide
  have hprompt : ((exec (runOp (hfEnv sumModel id)) smallEngine twoTokens).scheduler.store
    0).promptTokenIds = [1, 2] := by decide
  rw [hout, hprompt] at htext
  exact absurd htext (by decide)

end MoeInfinity.Serving.Greedy
