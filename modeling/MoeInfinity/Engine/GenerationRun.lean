import Mathlib.Data.List.GetD
import MoeInfinity.Engine.GenerationLoop
import MoeInfinity.Memory.KvCalls

/-! # What a generation does

While `generate` runs, its request owns a table of distinct blocks (`Owns`), which only grows. The
forwards pass the tokens of the text one after the other, each with the slot that the table has for
its place (`PassedInOrder`), and since the table only grows and has no block twice, no slot is
passed twice (`nodup_passedSlots`).

The forwards and draws are arbitrary. What they keep of the text that was passed to them, and what
follows for the tokens they give, is the pair of a relation and a property in `Follows`. -/

namespace MoeInfinity.Engine.GenerationRun

open MoeInfinity.Python MoeInfinity.Lib.Imperative
open MoeInfinity.Memory.KvManager MoeInfinity.Memory.KvManagerSpec MoeInfinity.Memory.RefCounts
open MoeInfinity.Memory.KvCalls
open MoeInfinity.Engine.Schedule (SequenceStatus)
open MoeInfinity.Engine.GenerationLoop MoeInfinity.Engine.GenerationLoop.GenerationEngine

variable {ω ρ : Type} {e : GenerationEngine ω ρ}

/-! ### Slots -/

/-- The slot of the token at index `i`. -/
def slotOf (blockSize : ℕ) (table : List ℕ) (i : ℕ) : ℕ :=
  table.getD (i / blockSize) 0 * blockSize + i % blockSize

section Slots

variable {bs n i j : ℕ} {table table' : List ℕ}

theorem div_lt_length (h : i < table.length * bs) : i / bs < table.length :=
  Nat.div_lt_of_lt_mul (by rwa [Nat.mul_comm])

theorem computeSlotMapping_eq (hbs : 0 < e.kvSpec.blockSize)
    (hn : n ≤ table.length * e.kvSpec.blockSize) :
    e.computeSlotMapping table n = .ok ((List.range n).map (slotOf e.kvSpec.blockSize table)) := by
  unfold GenerationEngine.computeSlotMapping
  rw [if_neg fun h => absurd h.1 (by omega), ← List.filterMap_eq_map]
  refine congrArg Except.ok (List.filterMap_congr fun i hi => ?_)
  have hlt : i / e.kvSpec.blockSize < table.length :=
    div_lt_length (lt_of_lt_of_le (List.mem_range.mp hi) hn)
  rw [List.getElem?_eq_getElem hlt]
  simp [slotOf, List.getD_eq_getElem?_getD, List.getElem?_eq_getElem hlt]

/-- The last of the slots, as it is cut off for a decode. -/
theorem drop_slots (f : ℕ → ℕ) :
    ((List.range (i + 1)).map f).drop (((List.range (i + 1)).map f).length - 1) = [f i] := by
  rw [List.length_map, List.length_range, List.range_succ, List.map_append]
  exact List.drop_left' (by simp)

theorem slotOf_of_isPrefix (h : table <+: table') (hi : i < table.length * bs) :
    slotOf bs table' i = slotOf bs table i := by
  obtain ⟨rest, rfl⟩ := h
  unfold slotOf
  rw [List.getD_append _ _ _ _ (div_lt_length hi)]

/-- **Different tokens get different slots.** -/
theorem slotOf_inj (hbs : 0 < bs) (hnd : table.Nodup) (hi : i < table.length * bs)
    (hj : j < table.length * bs) (h : slotOf bs table i = slotOf bs table j) : i = j := by
  unfold slotOf at h
  rw [List.getD_eq_getElem _ _ (div_lt_length hi), List.getD_eq_getElem _ _ (div_lt_length hj)] at h
  have hdiv := congrArg (· / bs) h
  have hmod := congrArg (· % bs) h
  simp only [Nat.mul_add_mod_self_right, Nat.mod_mod] at hmod
  simp only [Nat.mul_comm _ bs, Nat.mul_add_div hbs, Nat.div_eq_of_lt (Nat.mod_lt _ hbs),
    Nat.add_zero] at hdiv
  have hblock : i / bs = j / bs := (List.Nodup.getElem_inj_iff hnd).mp hdiv
  rw [← Nat.div_add_mod i bs, ← Nat.div_add_mod j bs, hblock, hmod]

end Slots

/-! ### Forwards in order -/

/-- The forward on a prompt, with the slots of all its tokens. -/
structure Prefilled (bs : ℕ) (rid : String) (prompt : List ℤ) (c : ForwardCall) : Prop where
  tokens : c.tokenIds = prompt
  covered : prompt.length ≤ (c.manager.getBlockTable rid).length * bs
  metadata : c.attentionMetadata = prefillMetadata (c.manager.getBlockTable rid)
    ((List.range prompt.length).map (slotOf bs (c.manager.getBlockTable rid))) prompt.length

/-- The forward on the token at index `i`, with its slot. -/
structure Decoded (bs : ℕ) (rid : String) (i : ℕ) (c : ForwardCall) : Prop where
  token : c.tokenIds.length = 1
  covered : i < (c.manager.getBlockTable rid).length * bs
  metadata : c.attentionMetadata = decodeMetadata (c.manager.getBlockTable rid)
    [slotOf bs (c.manager.getBlockTable rid) i] (i + 1)

/-- Forwards on single tokens from index `i` on. -/
def DecodedFrom (bs : ℕ) (rid : String) : ℕ → List ForwardCall → Prop
  | _, [] => True
  | i, c :: cs => Decoded bs rid i c ∧ DecodedFrom bs rid (i + 1) cs

/-- One forward on the prompt and then forwards on the tokens after it, as far as it got. -/
def PassedInOrder (bs : ℕ) (rid : String) (prompt : List ℤ) : List ForwardCall → Prop
  | [] => True
  | c :: cs => Prefilled bs rid prompt c ∧ DecodedFrom bs rid prompt.length cs

def passedTokens (calls : List ForwardCall) : List ℤ := calls.flatMap ForwardCall.tokenIds

def passedSlots (calls : List ForwardCall) : List ℕ :=
  calls.flatMap fun c => c.attentionMetadata.slotMapping

section Passed

variable {bs : ℕ} {rid : String} {prompt : List ℤ} {table : List ℕ}

theorem slots_of_decodedFrom : ∀ (calls : List ForwardCall) (i : ℕ), DecodedFrom bs rid i calls →
    (∀ c ∈ calls, c.manager.getBlockTable rid <+: table) → i ≤ table.length * bs →
    passedSlots calls = (List.range' i calls.length).map (slotOf bs table) ∧
      i + calls.length ≤ table.length * bs
  | [], i, _, _, hi => ⟨rfl, hi⟩
  | c :: cs, i, ⟨hc, hcs⟩, hin, _ => by
    have hpre := hin c List.mem_cons_self
    have hlt : i < table.length * bs :=
      lt_of_lt_of_le hc.covered (Nat.mul_le_mul_right bs hpre.length_le)
    obtain ⟨hslots, hlen⟩ := slots_of_decodedFrom cs (i + 1) hcs
      (fun d hd => hin d (List.mem_cons_of_mem c hd)) hlt
    constructor
    · rw [List.length_cons, List.range'_succ, List.map_cons,
        slotOf_of_isPrefix hpre hc.covered, ← hslots]
      change c.attentionMetadata.slotMapping ++ passedSlots cs = _
      rw [hc.metadata]
      rfl
    · rw [List.length_cons]
      omega

/-- **No slot is passed twice.** -/
theorem nodup_passedSlots {calls : List ForwardCall} (hbs : 0 < bs) (hnd : table.Nodup)
    (h : PassedInOrder bs rid prompt calls)
    (hin : ∀ c ∈ calls, c.manager.getBlockTable rid <+: table) :
    (passedSlots calls).Nodup := by
  cases calls with
  | nil => exact List.nodup_nil
  | cons c cs =>
    obtain ⟨hc, hcs⟩ := h
    have hpre := hin c List.mem_cons_self
    have hn : prompt.length ≤ table.length * bs :=
      le_trans hc.covered (Nat.mul_le_mul_right bs hpre.length_le)
    obtain ⟨hslots, hlen⟩ := slots_of_decodedFrom cs prompt.length hcs
      (fun d hd => hin d (List.mem_cons_of_mem c hd)) hn
    have hfirst : (List.range prompt.length).map (slotOf bs (c.manager.getBlockTable rid)) =
        (List.range prompt.length).map (slotOf bs table) := by
      refine List.map_congr_left fun i hi => (slotOf_of_isPrefix hpre ?_).symm
      exact lt_of_lt_of_le (List.mem_range.mp hi) hc.covered
    have hall : passedSlots (c :: cs) =
        (List.range (prompt.length + cs.length)).map (slotOf bs table) := by
      change c.attentionMetadata.slotMapping ++ passedSlots cs = _
      rw [hc.metadata, hslots, List.range_eq_range', List.range_eq_range', ← List.range'_append_1,
        List.map_append, Nat.zero_add, ← List.range_eq_range', ← hfirst]
      rfl
    rw [hall]
    refine List.Nodup.map_on (fun i hi j hj hij => ?_) List.nodup_range
    exact slotOf_inj hbs hnd (lt_of_lt_of_le (List.mem_range.mp hi) hlen)
      (lt_of_lt_of_le (List.mem_range.mp hj) hlen) hij

end Passed

/-! ### What the forwards and draws are like -/

/-- `Kept` says what the forwards keep of the text that was passed to them so far, `Next` what
follows for a token that is drawn after a text. -/
structure Follows (e : GenerationEngine ω ρ) (sp : SamplingParams) (prompt : List ℤ)
    (Kept : List ℤ → ω → Prop) (Next : List ℤ → ℤ → Prop) : Prop where
  prefill : ∀ w m, Kept [] w → m.isPrefill = true → wp (e.forward prompt m) (fun logits w' =>
    Kept prompt w' ∧ wp (e.sample (logits.drop (logits.length - 1)) sp) (fun t w'' =>
      Kept prompt w'' ∧ Next prompt t) (fun _ _ => True) w') (fun _ _ => True) w
  decode : ∀ text t w m, Kept text w → m.isPrefill = false → wp (e.forward [t] m) (fun logits w' =>
    wp (e.sample logits sp) (fun u w'' => Kept (text ++ [t]) w'' ∧ Next (text ++ [t]) u)
      (fun _ _ => True) w') (fun _ _ => True) w

/-- Nothing is known of the forwards and draws. -/
theorem follows_true (e : GenerationEngine ω ρ) (sp : SamplingParams) (prompt : List ℤ) :
    Follows e sp prompt (fun _ _ => True) (fun _ _ => True) where
  prefill := fun _ _ _ _ => wp_of_forall
    (fun _ _ => ⟨trivial, wp_of_forall (fun _ _ => ⟨trivial, trivial⟩) fun _ _ => trivial⟩)
    fun _ _ => trivial
  decode := fun _ _ _ _ _ _ => wp_of_forall
    (fun _ _ => wp_of_forall (fun _ _ => ⟨trivial, trivial⟩) fun _ _ => trivial) fun _ _ => trivial

/-- Every token is one that may follow the text before it. -/
def EachNext (Next : List ℤ → ℤ → Prop) : List ℤ → List ℤ → Prop
  | _, [] => True
  | text, t :: ts => Next text t ∧ EachNext Next (text ++ [t]) ts

/-! ### The decode loop -/

section Run

variable {k₀ : KVCacheManager} {held : Multiset ℕ} {rid : String} {sp : SamplingParams}
  {prompt : List ℤ}
variable {Kept : List ℤ → ω → Prop} {Next : List ℤ → ℤ → Prop}

/-- The state after some forwards, which have begun with the token at index `i` and may have let the
table grow. -/
structure Progress (e : GenerationEngine ω ρ) (k₀ : KVCacheManager) (held : Multiset ℕ)
    (rid : String) (i : ℕ) (table : List ℕ) (s : EngineState ω) (calls : List ForwardCall)
    (table' : List ℕ) (s' : EngineState ω) : Prop where
  logged : s'.calls = s.calls ++ calls
  owns : Owns k₀ held rid table' s'.kvMgr
  decoded : DecodedFrom e.kvSpec.blockSize rid i calls
  within : ∀ c ∈ calls, c.manager.getBlockTable rid <+: table'
  grown : table <+: table'

theorem Progress.refl {i : ℕ} {table : List ℕ} {s s' : EngineState ω}
    (h : Owns k₀ held rid table s'.kvMgr) (hc : s'.calls = s.calls) :
    Progress e k₀ held rid i table s [] table s' :=
  ⟨by rw [hc, List.append_nil], h, trivial, nofun, List.prefix_rfl⟩

/-- One more forward in front. -/
theorem Progress.cons {i : ℕ} {table table₁ table' : List ℕ} {s s₁ s' : EngineState ω}
    {c : ForwardCall} {calls : List ForwardCall}
    (h : Progress e k₀ held rid (i + 1) table₁ s₁ calls table' s') (hs : s₁.calls = s.calls ++ [c])
    (hc : Decoded e.kvSpec.blockSize rid i c) (htable : c.manager.getBlockTable rid = table₁)
    (hgrown : table <+: table₁) :
    Progress e k₀ held rid i table s (c :: calls) table' s' := by
  refine ⟨?_, h.owns, ⟨hc, h.decoded⟩, ?_, hgrown.trans h.grown⟩
  · rw [h.logged, hs, List.append_assoc]
    rfl
  · intro d hd
    rcases List.mem_cons.mp hd with rfl | hd
    · rw [htable]; exact h.grown
    · exact h.within d hd

/-- How the loop ends, after the token `t` that follows `text`, with at most `n` more tokens
`more`. -/
structure Ended (e : GenerationEngine ω ρ) (k₀ : KVCacheManager) (Next : List ℤ → ℤ → Prop)
    (text : List ℤ) (t : ℤ) (n : ℕ) (calls : List ForwardCall) (more : List ℤ)
    (reason : SequenceStatus) : Prop where
  few : more.length ≤ n
  passed : passedTokens calls = (t :: more).dropLast
  noEos : e.eosTokenId ∉ (t :: more).dropLast
  next : EachNext Next (text ++ [t]) more
  finish : reason = .finishedLength ∨
    (reason = .finishedStopped ∧ (t :: more).getLast? = some e.eosTokenId)
  why : more.length = n ∨ (t :: more).getLast? = some e.eosTokenId ∨
    k₀.gpuPool.numFreeBlocks * e.kvSpec.blockSize < text.length + (t :: more).length

/-- The loop ends at once. -/
theorem Ended.nil {text : List ℤ} {t : ℤ} {n : ℕ} {reason : SequenceStatus}
    (hreason : reason = .finishedLength ∨ (reason = .finishedStopped ∧ t = e.eosTokenId))
    (hwhy : n = 0 ∨ t = e.eosTokenId ∨ k₀.gpuPool.numFreeBlocks * e.kvSpec.blockSize <
      text.length + 1) :
    Ended e k₀ Next text t n [] [] reason where
  few := Nat.zero_le n
  passed := rfl
  noEos := nofun
  next := trivial
  finish := hreason.imp_right fun h => ⟨h.1, by rw [h.2]; rfl⟩
  why := hwhy.imp Eq.symm (Or.imp_left fun h => by rw [h]; rfl)

/-- One more token in front. -/
theorem Ended.cons {text : List ℤ} {t u : ℤ} {n : ℕ} {c : ForwardCall} {calls : List ForwardCall}
    {more : List ℤ} {reason : SequenceStatus}
    (h : Ended e k₀ Next (text ++ [t]) u n calls more reason) (hc : c.tokenIds = [t])
    (ht : t ≠ e.eosTokenId) (hu : Next (text ++ [t]) u) :
    Ended e k₀ Next text t (n + 1) (c :: calls) (u :: more) reason where
  few := Nat.succ_le_succ h.few
  passed := by
    change c.tokenIds ++ passedTokens calls = _
    rw [hc, h.passed]
    rfl
  noEos := by
    rw [List.dropLast_cons_of_ne_nil (List.cons_ne_nil u more), List.mem_cons, not_or]
    exact ⟨ht.symm, h.noEos⟩
  next := ⟨hu, h.next⟩
  finish := by
    rw [List.getLast?_cons_cons]
    exact h.finish
  why := by
    rw [List.getLast?_cons_cons]
    refine h.why.imp (congrArg (· + 1)) (Or.imp_right fun hlt => ?_)
    simp only [List.length_append, List.length_cons, List.length_nil] at hlt ⊢
    omega

/-- The table has room for one token more, or no block was left. -/
theorem wp_growTable {table : List ℕ} {s : EngineState ω} {i : ℕ} (hk : Holds k₀ held)
    (hbs : 0 < e.kvSpec.blockSize) (h : Owns k₀ held rid table s.kvMgr)
    (hi : i ≤ table.length * e.kvSpec.blockSize) {R : PyError → EngineState ω → Prop} :
    wp (growTable e rid (i + 1) table) (fun r s' => s'.calls = s.calls ∧ s'.oracle = s.oracle ∧
      ((r = none ∧ Owns k₀ held rid table s'.kvMgr ∧
          k₀.gpuPool.numFreeBlocks * e.kvSpec.blockSize < i + 1) ∨
        ∃ table', r = some table' ∧ table <+: table' ∧ Owns k₀ held rid table' s'.kvMgr ∧
          i < table'.length * e.kvSpec.blockSize)) R s := by
  unfold growTable
  simp only [wp_ite, wp_pure, wp_bind, onKv, wp_zoom]
  refine ⟨fun hlt => ?_,
    fun hlt => ⟨trivial, trivial, Or.inr ⟨table, rfl, List.prefix_rfl, h, by omega⟩⟩⟩
  refine wp_mono (h.wp_appendTokenBlock (R := fun _ _ => False)) ?_ fun _ _ h0 => h0.elim
  rintro appended k (⟨rfl, hq, h'⟩ | ⟨rfl, b, h'⟩)
  · refine ⟨fun _ => ⟨trivial, trivial, Or.inl ⟨trivial, h', ?_⟩⟩, fun h0 => absurd rfl h0⟩
    have hfree := Nat.mul_le_mul_right e.kvSpec.blockSize (h'.exhausted hk hq)
    omega
  · refine ⟨fun h0 => absurd h0 (by decide), fun _ => ⟨rfl, rfl, Or.inr ⟨_, rfl, ?_, ?_, ?_⟩⟩⟩
    · rw [h'.getBlockTable]
      exact List.prefix_append table [b]
    · rw [h'.getBlockTable]
      exact h'
    · rw [h'.getBlockTable, List.length_append, List.length_singleton, Nat.add_mul, Nat.one_mul]
      omega

/-- **The decode loop**, after the token `t` that follows the outputs `xs`. -/
theorem wp_decodeLoop (hk : Holds k₀ held) (hbs : 0 < e.kvSpec.blockSize)
    (hf : Follows e sp prompt Kept Next) :
    ∀ (n : ℕ) (table : List ℕ) (xs : List ℤ) (t : ℤ) (s : EngineState ω),
    Owns k₀ held rid table s.kvMgr → prompt.length + xs.length ≤ table.length * e.kvSpec.blockSize →
    Kept (prompt ++ xs) s.oracle →
    wp (decodeLoop e rid sp prompt.length n table (xs ++ [t]))
      (fun r s' => ∃ calls table' more,
        Progress e k₀ held rid (prompt.length + xs.length) table s calls table' s' ∧
          r.1 = xs ++ t :: more ∧ Ended e k₀ Next (prompt ++ xs) t n calls more r.2)
      (fun _ s' => ∃ calls table',
        Progress e k₀ held rid (prompt.length + xs.length) table s calls table' s') s
  | 0, table, xs, t, s, h, _, _ =>
    ⟨[], table, [], Progress.refl h rfl, rfl, Ended.nil (Or.inl rfl) (Or.inl rfl)⟩
  | n + 1, table, xs, t, s, h, hi, hkept => by
    have hlast : (xs ++ [t]).getLast? = some t := List.getLast?_concat
    have hlen : prompt.length + (xs ++ [t]).length = prompt.length + xs.length + 1 := by
      rw [List.length_append, List.length_singleton]
      omega
    rw [decodeLoop, hlast, hlen]
    simp only [wp_ite, wp_pure, wp_bind]
    refine ⟨fun heos => ?_, fun hne => ?_⟩
    · have heos : t = e.eosTokenId := Option.some.inj heos
      exact ⟨[], table, [], Progress.refl h rfl, rfl,
        Ended.nil (Or.inr ⟨rfl, heos⟩) (Or.inr (Or.inl heos))⟩
    have ht : t ≠ e.eosTokenId := fun h0 => hne (by rw [h0])
    refine wp_mono (wp_growTable (R := fun _ _ => False) hk hbs h hi) ?_ fun _ _ h0 => h0.elim
    rintro _ s₁ ⟨hcalls, horacle, ⟨rfl, h₁, hfull⟩ | ⟨table₁, rfl, hgrown, h₁, hlt⟩⟩
    · refine ⟨[], table, [], Progress.refl h₁ hcalls, rfl,
        Ended.nil (Or.inl rfl) (Or.inr (Or.inr ?_))⟩
      rwa [List.length_append]
    · set c : ForwardCall := ⟨[t], decodeMetadata table₁
        [slotOf e.kvSpec.blockSize table₁ (prompt.length + xs.length)]
          (prompt.length + xs.length + 1),
        s₁.kvMgr⟩ with hc
      have htable : c.manager.getBlockTable rid = table₁ := h₁.getBlockTable
      have hdec : Decoded e.kvSpec.blockSize rid (prompt.length + xs.length) c := by
        refine ⟨rfl, ?_, ?_⟩
        · rw [htable]; exact hlt
        · rw [htable]
      have hone : ∀ w, Progress e k₀ held rid (prompt.length + xs.length) table s [c] table₁
          ⟨s₁.kvMgr, w, s₁.calls ++ [c]⟩ := fun w =>
        have hrefl : Progress e k₀ held rid (prompt.length + xs.length + 1) table₁
            ⟨s₁.kvMgr, w, s₁.calls ++ [c]⟩ [] table₁ ⟨s₁.kvMgr, w, s₁.calls ++ [c]⟩ :=
            Progress.refl h₁ rfl
        hrefl.cons (by rw [hcalls]) hdec htable hgrown
      rw [wp_bind, computeSlotMapping_eq hbs hlt, wp_ofExcept_ok, drop_slots]
      simp only [runForward, onOracle, wp_bind, wp_update, wp_zoom]
      rw [horacle]
      refine wp_mono (hf.decode (prompt ++ xs) t s.oracle _ hkept rfl) ?_ ?_
      · intro logits w hsample
        refine wp_mono hsample ?_ ?_
        · rintro u w' ⟨hkept', hnext⟩
          rw [List.append_assoc] at hkept'
          have hloop := wp_decodeLoop hk hbs hf n table₁ (xs ++ [t]) u
            ⟨s₁.kvMgr, w', s₁.calls ++ [c]⟩ h₁ (by rw [hlen]; exact hlt) hkept'
          rw [hlen] at hloop
          refine wp_mono hloop ?_ ?_
          · rintro r s' ⟨calls, table', more, hp, hr, hend⟩
            refine ⟨c :: calls, table', u :: more,
              hp.cons (by rw [hcalls]) hdec htable hgrown, ?_, ?_⟩
            · rw [hr, List.append_assoc]
              rfl
            · rw [← List.append_assoc] at hend
              exact hend.cons rfl ht hnext
          · rintro _ s' ⟨calls, table', hp⟩
            exact ⟨c :: calls, table', hp.cons (by rw [hcalls]) hdec htable hgrown⟩
        · intro _ w' _
          exact ⟨[c], table₁, hone w'⟩
      · intro _ w _
        exact ⟨[c], table₁, hone w⟩

/-! ### The whole call -/

/-- The state after some forwards of a call, the first of them on the prompt. -/
structure Running (e : GenerationEngine ω ρ) (k₀ : KVCacheManager) (held : Multiset ℕ)
    (rid : String) (prompt : List ℤ) (s : EngineState ω) (calls : List ForwardCall)
    (s' : EngineState ω) : Prop where
  logged : s'.calls = s.calls ++ calls
  owns : ∃ table, Owns k₀ held rid table s'.kvMgr ∧
    ∀ c ∈ calls, c.manager.getBlockTable rid <+: table
  passed : PassedInOrder e.kvSpec.blockSize rid prompt calls

/-- What a call that returns has produced. -/
structure Produced (e : GenerationEngine ω ρ) (k₀ : KVCacheManager) (sp : SamplingParams)
    (prompt : List ℤ) (Next : List ℤ → ℤ → Prop) (calls : List ForwardCall) (outputs : List ℤ)
    (reason : SequenceStatus) :
    Prop where
  few : (outputs.length : ℤ) ≤ max 0 sp.maxTokens
  passed : passedTokens calls = prompt ++ outputs.dropLast
  noEos : e.eosTokenId ∉ outputs.dropLast
  next : EachNext Next prompt outputs
  finish : reason = if outputs.getLast? = some e.eosTokenId then .finishedStopped
    else .finishedLength
  why : (outputs.length : ℤ) = max 0 sp.maxTokens ∨ outputs.getLast? = some e.eosTokenId ∨
    k₀.gpuPool.numFreeBlocks * e.kvSpec.blockSize < prompt.length + outputs.length

theorem Progress.running {table table' : List ℕ} {s s₁ s' : EngineState ω} {c : ForwardCall}
    {calls : List ForwardCall} (h : Progress e k₀ held rid prompt.length table s₁ calls table' s')
    (hs : s₁.calls = s.calls ++ [c]) (hc : Prefilled e.kvSpec.blockSize rid prompt c)
    (htable : c.manager.getBlockTable rid = table) :
    Running e k₀ held rid prompt s (c :: calls) s' := by
  refine ⟨?_, ⟨table', h.owns, ?_⟩, hc, h.decoded⟩
  · rw [h.logged, hs, List.append_assoc]
    rfl
  · intro d hd
    rcases List.mem_cons.mp hd with rfl | hd
    · rw [htable]; exact h.grown
    · exact h.within d hd

/-- What the loop has ended with is what the call has produced. -/
theorem Ended.produced {t : ℤ} {c : ForwardCall} {calls : List ForwardCall} {more : List ℤ}
    {reason : SequenceStatus}
    (h : Ended e k₀ Next prompt t (sp.maxTokens - 1).toNat calls more reason)
    (hmax : 0 < sp.maxTokens) (hc : c.tokenIds = prompt) (ht : Next prompt t) :
    Produced e k₀ sp prompt Next (c :: calls) (t :: more)
      (if (t :: more).getLast? = some e.eosTokenId then .finishedStopped else reason) where
  few := by
    have := h.few
    rw [List.length_cons]
    omega
  passed := by
    change c.tokenIds ++ passedTokens calls = _
    rw [hc, h.passed]
  noEos := h.noEos
  next := ⟨ht, h.next⟩
  finish := by
    split_ifs with hlast
    · rfl
    · exact h.finish.resolve_right fun h0 => hlast h0.2
  why := by
    refine h.why.imp (fun hn => ?_) id
    rw [List.length_cons, hn]
    omega

/-- **The `try` block.** -/
theorem wp_produce {table : List ℕ} {s : EngineState ω} (hk : Holds k₀ held)
    (hbs : 0 < e.kvSpec.blockSize) (hf : Follows e sp prompt Kept Next)
    (h : Owns k₀ held rid table s.kvMgr) (hn : prompt.length ≤ table.length * e.kvSpec.blockSize)
    (hkept : Kept [] s.oracle) :
    wp (produce e rid sp prompt)
      (fun r s' => ∃ calls, Running e k₀ held rid prompt s calls s' ∧
        Produced e k₀ sp prompt Next calls r.1 r.2)
      (fun _ s' => ∃ calls, Running e k₀ held rid prompt s calls s') s := by
  unfold produce
  simp only [wp_bind, wp_current]
  rw [h.getBlockTable, computeSlotMapping_eq hbs hn, wp_ofExcept_ok]
  set c : ForwardCall := ⟨prompt, prefillMetadata table
    ((List.range prompt.length).map (slotOf e.kvSpec.blockSize table)) prompt.length, s.kvMgr⟩
  have htable : c.manager.getBlockTable rid = table := h.getBlockTable
  have hc : Prefilled e.kvSpec.blockSize rid prompt c := by
    refine ⟨rfl, ?_, ?_⟩
    · rw [htable]; exact hn
    · rw [htable]
  have hone : ∀ w, Running e k₀ held rid prompt s [c] ⟨s.kvMgr, w, s.calls ++ [c]⟩ := fun w =>
    have hrefl : Progress e k₀ held rid prompt.length table ⟨s.kvMgr, w, s.calls ++ [c]⟩ [] table
      ⟨s.kvMgr, w, s.calls ++ [c]⟩ := Progress.refl h rfl
    hrefl.running rfl hc htable
  simp only [runForward, onOracle, wp_bind, wp_update, wp_zoom]
  refine wp_mono (hf.prefill s.oracle _ hkept rfl) ?_ fun _ w _ => ⟨[c], hone w⟩
  rintro logits w ⟨-, hsample⟩
  simp only [wp_ite, wp_pure, wp_bind, wp_zoom]
  refine ⟨fun hmax => ⟨[c], hone w, ?_⟩, fun hmax => ?_⟩
  · refine ⟨?_, ?_, fun h0 => absurd h0 List.not_mem_nil, trivial, rfl, Or.inl ?_⟩
    · rw [max_eq_left hmax]
      exact le_rfl
    · rfl
    · rw [max_eq_left hmax]
      rfl
  · refine wp_mono hsample ?_ fun _ w' _ => ⟨[c], hone w'⟩
    rintro t w' ⟨hkept', ht⟩
    rw [← List.append_nil prompt] at hkept'
    refine wp_mono (wp_decodeLoop hk hbs hf (sp.maxTokens - 1).toNat table [] t
      ⟨s.kvMgr, w', s.calls ++ [c]⟩ h hn hkept') ?_ ?_
    · rintro ⟨outputIds, finishReason⟩ s' ⟨calls, table', more, hp, hr, hend⟩
      have hr : outputIds = t :: more := hr
      rw [List.append_nil] at hend
      have hrun := hp.running rfl hc htable
      have hout := hend.produced (by omega) (c := c) rfl ht
      subst hr
      refine ⟨fun hlast => ⟨c :: calls, hrun, ?_⟩, fun hlast => ⟨c :: calls, hrun, ?_⟩⟩
      · rwa [if_pos hlast] at hout
      · rwa [if_neg hlast] at hout
    · rintro _ s' ⟨calls, table', hp⟩
      exact ⟨c :: calls, hp.running rfl hc htable⟩

/-- After the call: the manager is as before, and the forwards were in order. -/
structure Finished (e : GenerationEngine ω ρ) (held : Multiset ℕ) (rid : String) (prompt : List ℤ)
    (s : EngineState ω) (calls : List ForwardCall) (s' : EngineState ω) : Prop where
  logged : s'.calls = s.calls ++ calls
  unchanged : Unchanged s.kvMgr s'.kvMgr held
  passed : PassedInOrder e.kvSpec.blockSize rid prompt calls
  slots : (passedSlots calls).Nodup

theorem le_ceilDiv_mul {n k : ℕ} (hk : 0 < k) : n ≤ ceilDiv n k * k := by
  unfold ceilDiv
  have := Nat.div_add_mod (n + k - 1) k
  have := Nat.mod_lt (n + k - 1) hk
  rw [Nat.mul_comm]
  omega

/-- **`generate`**, whatever the forwards and draws do. -/
theorem wp_generate {s : EngineState ω} {samplingParams : Option SamplingParams}
    {requestId : Option String} {uuid4 : String} (hk : Holds s.kvMgr held)
    (hbs : s.kvMgr.blockSize = e.kvSpec.blockSize)
    (hf : Follows e (samplingParams.getD {}) prompt Kept Next) (hkept : Kept [] s.oracle)
    (hid : NotInUse (requestIdOr requestId uuid4) s.kvMgr) :
    wp (generate e prompt samplingParams requestId uuid4)
      (fun r s' => r.requestId = requestIdOr requestId uuid4 ∧ r.promptTokenIds = prompt ∧
        ∃ calls, Finished e held (requestIdOr requestId uuid4) prompt s calls s' ∧
          Produced e s.kvMgr (samplingParams.getD {}) prompt Next calls r.outputTokenIds
            r.finishReason)
      (fun _ s' => ∃ calls, Finished e held (requestIdOr requestId uuid4) prompt s calls s') s := by
  have hnone : ∀ k', Unchanged s.kvMgr k' held →
      Finished e held (requestIdOr requestId uuid4) prompt s []
        { s with kvMgr := k' } := fun k' h' =>
    ⟨(List.append_nil _).symm, h', trivial, List.nodup_nil⟩
  have hsame := hnone s.kvMgr (Unchanged.refl hk)
  unfold generate
  simp only [wp_ite, wp_raise, wp_bind, onKv, wp_zoom, wp_finallyDo, wp_pure]
  refine ⟨fun _ => ⟨[], hsame⟩, fun _ => ⟨fun _ => ⟨[], hsame⟩, fun _ => ?_⟩⟩
  refine wp_mono (wp_allocateBlocksForSequence hk prompt.length) ?_ ?_
  · rintro allocated k₁ ⟨hpos, ⟨rfl, hun⟩ | ⟨rfl, table, hlen, howns⟩⟩
    · exact ⟨fun _ => ⟨[], hnone k₁ hun⟩, fun h0 => absurd rfl h0⟩
    · refine ⟨fun h0 => absurd h0 (by decide), fun _ => ?_⟩
      have hpos : 0 < e.kvSpec.blockSize := by
        rw [← hbs]
        omega
      have hn : prompt.length ≤ table.length * e.kvSpec.blockSize := by
        rw [hlen, hbs]
        exact le_ceilDiv_mul hpos
      have hfinish : ∀ calls (s' : EngineState ω) (R : PyError → KVCacheManager → Prop),
          Running e s.kvMgr held (requestIdOr requestId uuid4) prompt
            { s with kvMgr := k₁ } calls s' →
          wp (KVCacheManager.freeSequence (requestIdOr requestId uuid4)) (fun _ k' =>
            Finished e held (requestIdOr requestId uuid4) prompt s calls { s' with kvMgr := k' }) R
                s'.kvMgr := by
        rintro calls s' R ⟨hlog, ⟨table', howns', hin⟩, hpassed⟩
        refine wp_mono (howns'.wp_freeSequence hid (R := fun _ _ => False)) ?_ fun _ _ h0 => h0.elim
        exact fun _ k' hun => ⟨hlog, hun, hpassed, nodup_passedSlots hpos howns'.nodup hpassed hin⟩
      refine wp_mono (wp_produce (s := { s with kvMgr := k₁ }) hk hpos hf howns hn hkept) ?_ ?_
      · rintro ⟨outputIds, finishReason⟩ s' ⟨calls, hrun, hout⟩
        refine wp_mono (hfinish calls s' (fun _ _ => False) hrun) ?_ fun _ _ h0 => h0.elim
        exact fun _ k' hfin => ⟨trivial, trivial, calls, hfin, hout⟩
      · rintro _ s' ⟨calls, hrun⟩
        refine wp_mono (hfinish calls s' (fun _ _ => False) hrun) ?_ fun _ _ h0 => h0.elim
        exact fun _ k' hfin => ⟨calls, hfin⟩
  · rintro _ _ rfl
    exact ⟨[], hsame⟩

end Run

/-! ### The property -/

/-- The free blocks, the references and the tables are the same. -/
structure SameBlocks (k k' : KVCacheManager) : Prop where
  freeGpu : ∀ b, b ∈ k'.gpuPool.freeQueue ↔ b ∈ k.gpuPool.freeQueue
  freeCpu : ∀ c, c ∈ k'.cpuPool.freeQueue ↔ c ∈ k.cpuPool.freeQueue
  refCntGpu : ∀ b, (k'.gpuPool.blocks b).refCnt = (k.gpuPool.blocks b).refCnt
  refCntCpu : ∀ c, (k'.cpuPool.blocks c).refCnt = (k.cpuPool.blocks c).refCnt
  tables : k'.seqToGpuBlocks = k.seqToGpuBlocks

/-- The manager is as before, and the forwards `calls` of the call passed the tokens in order, with
slots of the request's table that are all different. -/
structure Orderly (e : GenerationEngine ω ρ) (rid : String) (prompt : List ℤ) (s : EngineState ω)
    (calls : List ForwardCall) (s' : EngineState ω) : Prop where
  same : SameBlocks s.kvMgr s'.kvMgr
  logged : s'.calls = s.calls ++ calls
  passed : PassedInOrder e.kvSpec.blockSize rid prompt calls
  slots : (passedSlots calls).Nodup

/-- The outputs are no more than asked for, and the first `eos` ends them, which is when the reason
is `FINISHED_STOPPED`. -/
structure Delivered (e : GenerationEngine ω ρ) (prompt : List ℤ) (maxTokens : ℤ)
    (calls : List ForwardCall) (r : GenerationResult) : Prop where
  few : (r.outputTokenIds.length : ℤ) ≤ max 0 maxTokens
  eosLast : e.eosTokenId ∉ r.outputTokenIds.dropLast
  finish : r.finishReason = .finishedStopped ↔ r.outputTokenIds.getLast? = some e.eosTokenId
  passed : passedTokens calls = prompt ++ r.outputTokenIds.dropLast

theorem sameBlocks_of_unchanged {k k' : KVCacheManager} {held : Multiset ℕ}
    (h : Unchanged k k' held) (hk : Holds k held) : SameBlocks k k' where
  freeGpu := h.free hk
  freeCpu := fun c => by rw [h.cpuPool]
  refCntGpu := h.refCnt hk
  refCntCpu := fun c => by rw [h.cpuPool]
  tables := h.tables

/-- **A generation leaves the manager as it was**, whether it returns or raises. Its forwards pass
the text token by token with slots of the request's table, none of them twice, and what it returns
ends with the first `eos`. -/
theorem generate_orderly (e : GenerationEngine ω ρ) (prompt : List ℤ)
    (samplingParams : Option SamplingParams) (requestId : Option String) (uuid4 : String)
    (s : EngineState ω) (hk : Reachable s.kvMgr) (hbs : s.kvMgr.blockSize = e.kvSpec.blockSize)
    (hid : NotInUse (requestIdOr requestId uuid4) s.kvMgr) :
    wp (generate e prompt samplingParams requestId uuid4)
      (fun r s' => ∃ calls, Orderly e (requestIdOr requestId uuid4) prompt s calls s' ∧
        Delivered e prompt (samplingParams.getD {}).maxTokens calls r)
      (fun _ s' => ∃ calls, Orderly e (requestIdOr requestId uuid4) prompt s calls s') s := by
  obtain ⟨held, hheld⟩ := hk.holds
  refine wp_mono (wp_generate hheld hbs (follows_true e _ prompt) trivial hid) ?_ ?_
  · rintro r s' ⟨-, -, calls, hfin, hout⟩
    refine ⟨calls,
      ⟨sameBlocks_of_unchanged hfin.unchanged hheld, hfin.logged, hfin.passed, hfin.slots⟩,
      hout.few, hout.noEos, ?_, hout.passed⟩
    rw [hout.finish]
    split_ifs with hlast
    · simp [hlast]
    · simp [hlast]
  · rintro _ s' ⟨calls, hfin⟩
    exact ⟨calls, sameBlocks_of_unchanged hfin.unchanged hheld, hfin.logged,
      hfin.passed, hfin.slots⟩

/-- An engine whose forward and draw add one to the last token, until `9`. -/
def countingEngine : GenerationEngine Unit ℤ where
  kvSpec := ⟨2⟩
  vocabSize := 10
  modelForward := some fun tokenIds _ => pure tokenIds
  eosTokenId := 9
  randn := fun n _ => pure (List.replicate n 0)
  sample := fun logits _ => pure (logits.getLastD 0 + 1)

/-- Three blocks of two tokens. -/
def threePairs : EngineState Unit := ⟨KVCacheManager.new 3 0 2, (), []⟩

theorem generate_orderly_counting :
    ((generate countingEngine [5, 6] (some { maxTokens := 10 }) (some "r") "").run
      threePairs).2.toOption =
        some ⟨"r", [5, 6], [7, 8, 9], .finishedStopped⟩ ∧
      wp (generate countingEngine [5, 6] (some { maxTokens := 10 }) (some "r") "")
        (fun r s' => ∃ calls, Orderly countingEngine "r" [5, 6] threePairs calls s' ∧
          Delivered countingEngine [5, 6] 10 calls r)
        (fun _ s' => ∃ calls, Orderly countingEngine "r" [5, 6] threePairs calls s') threePairs :=
  ⟨by decide +kernel, generate_orderly countingEngine [5,
    6] (some { maxTokens := 10 }) (some "r") "" threePairs ⟨3, 0, 2, [], rfl⟩ rfl ⟨rfl, rfl⟩⟩

end MoeInfinity.Engine.GenerationRun
