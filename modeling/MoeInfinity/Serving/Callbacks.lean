import MoeInfinity.Serving.Engine

/-! # The callbacks of a step

At its end a step passes its outputs to the callbacks of their requests and tells the eviction hook
of the requests that have finished. Either may raise, and then nothing that comes after it is told.
`Announced`: the rest of the engine stays as it is, whatever they do. `wp_callCallbacks` and
`wp_announce`: the outputs passed are those of the calls up to the first one that raises; `Heard` is
the condition under which every output is passed to its callback or returned. -/

namespace MoeInfinity.Serving.Callbacks

open MoeInfinity.Python MoeInfinity.Lib.Imperative
open MoeInfinity.Serving.ModelRunner MoeInfinity.Serving.Engine
open MoeInfinity.Serving.Engine.ContinuousBatchingEngine

variable {β ρ γ : Type}

/-! ### What is left as it is -/

/-- `f` depends neither on the callbacks nor on the records of what they and the hook were told. -/
def Unheard (f : ContinuousBatchingEngine β → γ) : Prop := ∀ e C c d v,
  f { e with completedRequestIds := C, callbacks := c, delivered := d, evictions := v } = f e

section Leaves

variable {f : ContinuousBatchingEngine β → γ}

theorem leaves_notifyEviction (h : Unheard f) (env : Env ρ) (event : EvictionEvent) (rid : String) :
    Leaves f (notifyEviction env event rid) :=
  leaves_bind leaves_current fun _ => leaves_bind (leaves_update fun e => h e _ _ _ _)
    fun _ => leaves_ofExcept _

theorem leaves_popCallbacks (h : Unheard f) (rid : String) : Leaves f (popCallbacks rid) :=
  leaves_update fun e => h e _ _ _ _

theorem leaves_callCallback (h : Unheard f) (o : RequestOutput) (callback : Callback) :
    Leaves f (callCallback o callback) :=
  leaves_bind leaves_current fun _ => leaves_bind (leaves_update fun e => h e _ _ _ _)
    fun _ => leaves_ofExcept _

theorem leaves_callCallbacks (h : Unheard f) (outputs : List RequestOutput) :
    Leaves f (callCallbacks outputs) :=
  leaves_forEach (fun o => leaves_bind leaves_current fun _ =>
    leaves_forEach (leaves_callCallback h o) _) outputs

theorem leaves_closeRequests (h : Unheard f) (env : Env ρ) (requestIds : List String) :
    Leaves f (closeRequests env requestIds) :=
  leaves_forEach (fun rid => leaves_bind (leaves_notifyEviction h env .completed rid) fun _ =>
    leaves_popCallbacks h rid) _

theorem leaves_announce (h : Unheard f) (env : Env ρ) (outputs : List RequestOutput) :
    Leaves f (announce env outputs) :=
  leaves_bind leaves_current fun _ => leaves_bind (leaves_update fun e => h e _ _ _ _) fun _ =>
    leaves_bind (leaves_callCallbacks h outputs) fun _ => leaves_closeRequests h env _

end Leaves

/-- `e'` is `e` after something was told. -/
def Announced (e e' : ContinuousBatchingEngine β) : Prop := ∃ C c d v,
  e' = { e with completedRequestIds := C, callbacks := c, delivered := d, evictions := v }

theorem announced_of_leaves {ε α : Type} {m : Prog ε (ContinuousBatchingEngine β) α}
    (h : ∀ {γ : Type} {f : ContinuousBatchingEngine β → γ}, Unheard f → Leaves f m)
    (e : ContinuousBatchingEngine β) : Announced e (m.state e) := by
  have hcore := h (f := fun e : ContinuousBatchingEngine β =>
    { e with completedRequestIds := ∅, callbacks := fun _ => [], delivered := [], evictions := [] })
    (fun _ _ _ _ _ => rfl) e
  generalize m.state e = e' at hcore
  refine ⟨e'.completedRequestIds, e'.callbacks, e'.delivered, e'.evictions, ?_⟩
  cases e
  cases e'
  cases hcore
  rfl

/-- **The announcements** change nothing else, whether they return or raise. -/
theorem wp_announce_announced (env : Env ρ) (outputs : List RequestOutput)
    (e : ContinuousBatchingEngine β) :
    wp (announce env outputs) (fun _ e' => Announced e e') (fun _ e' => Announced e e') e :=
  wp_of_state (I := Announced e) (announced_of_leaves (fun h => leaves_announce h env outputs) e)

/-- What holds of the scheduler holds after the announcements. -/
theorem wp_announce_scheduler (env : Env ρ) (outputs : List RequestOutput)
    {e : ContinuousBatchingEngine β} {I : Schedule.Scheduler β → Prop} (h : I e.scheduler) :
    wp (announce env outputs) (fun _ e' => I e'.scheduler) (fun _ e' => I e'.scheduler) e := by
  have hkept : ∀ e', Announced e e' → I e'.scheduler := by
    rintro _ ⟨C, c, d, v, rfl⟩
    exact h
  exact wp_mono (wp_announce_announced env outputs e) (fun _ e' ha => hkept e' ha)
    fun _ e' ha => hkept e' ha

/-! ### A step and its announcements -/

/-- `step` up to `update_after_step`, that included. -/
def advance (env : Env ρ) (predict : Option (String → List ℕ → ℚ)) :
    Prog PyError (ContinuousBatchingEngine β) (Option (List RequestOutput)) := do
  match ← stepTokens env predict with
  | none => return none
  | some outputs =>
    onScheduler
      (Schedule.Scheduler.updateAfterStep (completedSeqIds outputs) (newDecodeSeqIds outputs))
    return some outputs

theorem wp_step_iff_advance {env : Env ρ} {predict : Option (String → List ℕ → ℚ)}
    {e : ContinuousBatchingEngine β} {Q : List RequestOutput → ContinuousBatchingEngine β → Prop}
    {R : PyError → ContinuousBatchingEngine β → Prop} :
    wp (step env predict) Q R e ↔ wp (advance env predict) (fun r e₁ => match r with
      | none => Q [] e₁
      | some outputs => wp (announce env outputs) (fun _ e' => Q outputs e') R
          { e₁ with numSteps := e₁.numSteps + 1 }) R e := by
  rw [step, advance, wp_bind, wp_bind]
  unfold wp
  split
  · next e₁ r hrun =>
    cases r with
    | none => exact Iff.rfl
    | some outputs =>
      change wp _ Q R e₁ ↔ wp _ _ R e₁
      simp only [wp_bind, onScheduler, wp_zoom, wp_update, wp_pure]
      exact Iff.rfl
  · exact Iff.rfl

/-- **What holds before the announcements** holds after the step, whether they return or raise. -/
theorem step_of_advance {env : Env ρ} {predict : Option (String → List ℕ → ℚ)}
    {e : ContinuousBatchingEngine β} {I : ContinuousBatchingEngine β → Prop}
    (hI : ∀ e₁ n e', Announced { e₁ with numSteps := n } e' → I e₁ → I e')
    (hadvance : wp (advance env predict) (fun _ => I) (fun _ _ => True) e)
    (hok : ((advance env predict).run e).2.isOk = true) : I ((step env predict).state e) := by
  refine inv_of_wp (wp_step_iff_advance.mpr ?_)
  refine wp_mono (wp_and hadvance (wp_isOk (advance env predict) e)) ?_ fun _ _ h => ?_
  · rintro r e₁ ⟨h, -⟩
    cases r with
    | none => exact h
    | some outputs =>
      exact wp_mono (wp_announce_announced env outputs _) (fun _ e' ha => hI e₁ _ e' ha h)
        fun _ e' ha => hI e₁ _ e' ha h
  · have hraised := h.2
    rw [hok] at hraised
    cases hraised

theorem wp_notifyEviction (env : Env ρ) (event : EvictionEvent) (rid : String)
    {e : ContinuousBatchingEngine β} :
    wp (notifyEviction env event rid)
      (fun _ e' => (env.evictionSync e.evictions event rid).isOk = true ∧
        e' = { e with evictions := e.evictions ++ [(event, rid)] })
      (fun _ e' => (env.evictionSync e.evictions event rid).isOk = false ∧
        e' = { e with evictions := e.evictions ++ [(event, rid)] }) e := by
  simp only [notifyEviction, wp_bind, wp_current, wp_update]
  cases env.evictionSync e.evictions event rid with
  | ok _ => exact ⟨rfl, rfl⟩
  | error _ => exact ⟨rfl, rfl⟩

/-! ### The calls of the callbacks -/

/-- The calls of the callbacks, in order. -/
def callbackCalls (e : ContinuousBatchingEngine β) (outputs : List RequestOutput) :
    List (RequestOutput × Callback) :=
  outputs.flatMap fun o => (e.callbacks o.requestId).map fun callback => (o, callback)

/-- The calls return, made in order after the outputs `past` were passed. -/
def CallsReturn : List RequestOutput → List (RequestOutput × Callback) → Prop
  | _, [] => True
  | past, (o, callback) :: rest => (callback past o).isOk = true ∧ CallsReturn (past ++ [o]) rest

instance decidableCallsReturn : ∀ past calls, Decidable (CallsReturn past calls)
  | _, [] => isTrue trivial
  | past, (o, callback) :: rest =>
    have := decidableCallsReturn (past ++ [o]) rest
    inferInstanceAs (Decidable ((callback past o).isOk = true ∧ CallsReturn (past ++ [o]) rest))

theorem callsReturn_append {past : List RequestOutput}
    {calls calls' : List (RequestOutput × Callback)} :
    CallsReturn past (calls ++ calls') ↔
      CallsReturn past calls ∧ CallsReturn (past ++ calls.map Prod.fst) calls' := by
  induction calls generalizing past with
  | nil => simp [CallsReturn]
  | cons p calls ih =>
    rw [List.cons_append, CallsReturn, CallsReturn, ih, and_assoc, List.map_cons, List.append_assoc]
    rfl

/-- All calls have returned. -/
def Returned (e : ContinuousBatchingEngine β) (calls : List (RequestOutput × Callback))
    (e' : ContinuousBatchingEngine β) : Prop :=
  CallsReturn e.delivered calls ∧ e' = { e with delivered := e.delivered ++ calls.map Prod.fst }

/-- A call has raised, after `done` have returned. -/
def Raised (e : ContinuousBatchingEngine β) (calls : List (RequestOutput × Callback))
    (e' : ContinuousBatchingEngine β) : Prop :=
  ∃ done last rest, calls = done ++ last :: rest ∧ CallsReturn e.delivered done ∧
    ¬ CallsReturn e.delivered (done ++ [last]) ∧
    e' = { e with delivered := e.delivered ++ (done ++ [last]).map Prod.fst }

theorem Returned.append {e t e' : ContinuousBatchingEngine β}
    {xs ys : List (RequestOutput × Callback)} (h : Returned e xs t) (h' : Returned t ys e') :
    Returned e (xs ++ ys) e' := by
  obtain ⟨hxs, rfl⟩ := h
  obtain ⟨hys, rfl⟩ := h'
  exact ⟨callsReturn_append.mpr ⟨hxs, hys⟩, by simp only [List.map_append, List.append_assoc]⟩

theorem Raised.append {e e' : ContinuousBatchingEngine β} {xs : List (RequestOutput × Callback)}
    (h : Raised e xs e') (ys : List (RequestOutput × Callback)) : Raised e (xs ++ ys) e' := by
  obtain ⟨done, last, rest, rfl, hdone, hno, rfl⟩ := h
  exact ⟨done, last, rest ++ ys, by rw [List.append_assoc, List.cons_append], hdone, hno, rfl⟩

theorem Returned.raised {e t e' : ContinuousBatchingEngine β}
    {xs ys : List (RequestOutput × Callback)} (h : Returned e xs t) (h' : Raised t ys e') :
    Raised e (xs ++ ys) e' := by
  obtain ⟨hxs, rfl⟩ := h
  obtain ⟨done, last, rest, rfl, hdone, hno, rfl⟩ := h'
  refine ⟨xs ++ done, last, rest, (List.append_assoc ..).symm, callsReturn_append.mpr ⟨hxs, hdone⟩,
    fun h0 => hno ?_, ?_⟩
  · rw [List.append_assoc] at h0
    exact (callsReturn_append.mp h0).2
  · simp only [List.map_append, List.append_assoc]

theorem wp_callCallback (o : RequestOutput) (callback : Callback) (e : ContinuousBatchingEngine β) :
    wp (callCallback o callback) (fun _ => Returned e [(o, callback)])
      (fun _ => Raised e [(o, callback)]) e := by
  simp only [callCallback, wp_bind, wp_current, wp_update]
  cases hcall : callback e.delivered o with
  | ok _ => exact ⟨⟨by rw [hcall]; rfl, trivial⟩, rfl⟩
  | error _ =>
    refine ⟨[], (o, callback), [], rfl, trivial, fun h0 => ?_, rfl⟩
    have hok := h0.1
    rw [hcall] at hok
    cases hok

/-- The callbacks of one output. -/
theorem wp_callEach (o : RequestOutput) :
    ∀ (callbacks : List Callback) (e : ContinuousBatchingEngine β),
      wp (forEach (callCallback o) callbacks)
        (fun _ => Returned e (callbacks.map fun callback => (o, callback)))
      (fun _ => Raised e (callbacks.map fun callback => (o, callback))) e
  | [], _ => ⟨trivial, by rw [List.map_nil, List.map_nil, List.append_nil]⟩
  | callback :: callbacks, e => by
    rw [forEach, wp_bind]
    refine wp_mono (wp_callCallback o callback e) (fun _ t ht => ?_) fun _ _ h => h.append _
    exact wp_mono (wp_callEach o callbacks t) (fun _ _ h => ht.append h) fun _ _ h => ht.raised h

/-- **The callbacks of a step** are called in order, up to the first one that raises. -/
theorem wp_callCallbacks : ∀ (outputs : List RequestOutput) (e : ContinuousBatchingEngine β),
    wp (callCallbacks outputs) (fun _ => Returned e (callbackCalls e outputs))
      (fun _ => Raised e (callbackCalls e outputs)) e
  | [], _ => ⟨trivial, by rw [callbackCalls, List.flatMap_nil, List.map_nil, List.append_nil]⟩
  | o :: outputs, e => by
    unfold callCallbacks
    rw [forEach, wp_bind, wp_bind, wp_current]
    refine wp_mono (wp_callEach o (e.callbacks o.requestId) e) (fun _ t ht => ?_)
      fun _ _ h => h.append _
    have hcalls : callbackCalls t outputs = callbackCalls e outputs := by
      rw [ht.2]
      rfl
    refine wp_mono (wp_callCallbacks outputs t) (fun _ _ h => ?_) fun _ _ h => ?_
    · rw [hcalls] at h
      exact ht.append h
    · rw [hcalls] at h
      exact ht.raised h

/-! ### The eviction hook -/

/-- The hook returns for the finished requests, told of them in order after `past`. -/
def HookReturns (env : Env ρ) : List (EvictionEvent × String) → List String → Prop
  | _, [] => True
  | past, rid :: rest => (env.evictionSync past .completed rid).isOk = true ∧
      HookReturns env (past ++ [(.completed, rid)]) rest

instance decidableHookReturns (env : Env ρ) : ∀ past rids, Decidable (HookReturns env past rids)
  | _, [] => isTrue trivial
  | past, rid :: rest =>
    have : Decidable (HookReturns env (past ++ [(.completed, rid)]) rest) :=
      decidableHookReturns env _ rest
    inferInstanceAs (Decidable ((env.evictionSync past .completed rid).isOk = true ∧
      HookReturns env (past ++ [(.completed, rid)]) rest))

/-- The finished requests in the order in which `step` visits them. -/
def visited (env : Env ρ) (requestIds : List String) : List String :=
  requestIds.insertionSort fun a b => env.setRank a ≤ env.setRank b

theorem wp_visit (env : Env ρ) : ∀ (rids : List String) (e : ContinuousBatchingEngine β),
    wp (forEach (fun rid => do
        notifyEviction env .completed rid
        popCallbacks rid) rids)
      (fun _ e' => HookReturns env e.evictions rids ∧ e'.delivered = e.delivered)
      (fun _ e' => ¬ HookReturns env e.evictions rids ∧ e'.delivered = e.delivered) e
  | [], _ => ⟨trivial, rfl⟩
  | rid :: rids, e => by
    simp only [forEach, wp_bind, popCallbacks, wp_update]
    refine wp_mono (wp_notifyEviction env .completed rid) ?_ ?_
    · rintro _ t ⟨hok, rfl⟩
      exact wp_mono (wp_visit env rids _) (fun _ _ h => ⟨⟨hok, h.1⟩, h.2⟩)
        fun _ _ h => ⟨fun h0 => h.1 h0.2, h.2⟩
    · rintro _ t ⟨hno, rfl⟩
      refine ⟨fun h0 => ?_, rfl⟩
      rw [h0.1] at hno
      cases hno

/-- Callbacks have at most been popped. -/
def Popped (e e' : ContinuousBatchingEngine β) : Prop :=
  ∀ r, e'.callbacks r = e.callbacks r ∨ e'.callbacks r = []

theorem Popped.refl (e : ContinuousBatchingEngine β) : Popped e e := fun _ => Or.inl rfl

theorem Popped.pop {e e' : ContinuousBatchingEngine β} (h : Popped e e') (rid : String)
    {e'' : ContinuousBatchingEngine β} (h' : e''.callbacks = Function.update e'.callbacks rid []) :
    Popped e e'' := by
  intro r
  rw [h']
  by_cases hr : r = rid
  · rw [hr, Function.update_self]
    exact Or.inr rfl
  · rw [Function.update_of_ne hr]
    exact h r

theorem wp_announce_popped (env : Env ρ) (outputs : List RequestOutput)
    (e : ContinuousBatchingEngine β) :
    wp (announce env outputs) (fun _ e' => Popped e e') (fun _ e' => Popped e e') e := by
  simp only [announce, wp_bind, wp_current, wp_update]
  refine wp_mono (wp_callCallbacks outputs _) ?_ ?_
  · rintro _ t ⟨-, rfl⟩
    refine wp_forEach (I := fun _ t => Popped e t) (fun rid _ t ht => ?_) _ _ (Popped.refl e)
    simp only [wp_bind, popCallbacks, wp_update]
    refine wp_mono (wp_notifyEviction env .completed rid) ?_ ?_
    · rintro _ _ ⟨-, rfl⟩
      exact ht.pop rid rfl
    · rintro _ _ ⟨-, rfl⟩
      exact ht
  · rintro _ t ⟨_, _, _, -, -, -, rfl⟩
    exact Popped.refl e

/-! ### What is passed on -/

/-- **The announcements**: they return when all calls and the hook do, and otherwise the outputs of
the calls up to the one that raised have been passed on. -/
theorem wp_announce (env : Env ρ) (outputs : List RequestOutput) (e : ContinuousBatchingEngine β) :
    wp (announce env outputs)
      (fun _ _ => CallsReturn e.delivered (callbackCalls e outputs) ∧
        HookReturns env e.evictions (visited env (finishedRequestIds e outputs)))
      (fun _ e' => ∃ passed rest, callbackCalls e outputs = passed ++ rest ∧
        e'.delivered = e.delivered ++ passed.map Prod.fst ∧
        ((rest = [] ∧ CallsReturn e.delivered passed ∧
          ¬ HookReturns env e.evictions (visited env (finishedRequestIds e outputs))) ∨
          CallsReturn e.delivered passed.dropLast ∧ ¬ CallsReturn e.delivered passed)) e := by
  simp only [announce, wp_bind, wp_current, wp_update]
  refine wp_mono (wp_callCallbacks outputs _) ?_ ?_
  · rintro _ t ⟨hcalls, rfl⟩
    refine wp_mono (wp_visit env _ _) (fun _ _ h => ⟨hcalls, h.1⟩) fun _ e' h => ?_
    exact ⟨callbackCalls e outputs, [], (List.append_nil _).symm, h.2, Or.inl ⟨rfl, hcalls, h.1⟩⟩
  · rintro _ t ⟨done, last, rest, hsplit, hdone, hno, rfl⟩
    refine ⟨done ++ [last], rest, ?_, rfl, Or.inr ⟨?_, hno⟩⟩
    · rw [List.append_assoc]
      exact hsplit
    · rw [List.dropLast_concat]
      exact hdone

/-- Every output is passed to its callback, or the step returns: all calls and the hook return, or
each output has a callback and at most the last call raises. -/
def Heard (env : Env ρ) (e : ContinuousBatchingEngine β) (outputs : List RequestOutput) : Prop :=
  (CallsReturn e.delivered (callbackCalls e outputs) ∧
    HookReturns env e.evictions (visited env (finishedRequestIds e outputs))) ∨
  ((∀ o ∈ outputs, e.callbacks o.requestId ≠ []) ∧
    CallsReturn e.delivered (callbackCalls e outputs).dropLast)

instance (env : Env ρ) (e : ContinuousBatchingEngine β) (outputs : List RequestOutput) :
    Decidable (Heard env e outputs) := inferInstanceAs (Decidable (_ ∧ _ ∨ (∀ _ ∈ _, _) ∧ _))

/-- With one callback for each output, the calls pass the outputs. -/
theorem map_fst_callbackCalls {e : ContinuousBatchingEngine β} {outputs : List RequestOutput}
    (h : ∀ o ∈ outputs, (e.callbacks o.requestId).length = 1) :
    (callbackCalls e outputs).map Prod.fst = outputs := by
  induction outputs with
  | nil => rfl
  | cons o outputs ih =>
    obtain ⟨callback, hone⟩ := List.length_eq_one_iff.mp (h o List.mem_cons_self)
    have hrest := ih fun o' ho' => h o' (List.mem_cons_of_mem o ho')
    unfold callbackCalls at hrest ⊢
    rw [List.flatMap_cons, List.map_append, hrest, hone]
    rfl

/-- With at most one callback for each output, the calls pass outputs in their order. -/
theorem sublist_callbackCalls {e : ContinuousBatchingEngine β}
    (hone : ∀ r, (e.callbacks r).length ≤ 1) :
    ∀ outputs : List RequestOutput, ((callbackCalls e outputs).map Prod.fst).Sublist outputs
  | [] => List.Sublist.refl _
  | o :: outputs => by
    have ih := sublist_callbackCalls hone outputs
    unfold callbackCalls at ih ⊢
    rw [List.flatMap_cons, List.map_append]
    cases hc : e.callbacks o.requestId with
    | nil => exact ih.cons o
    | cons callback more =>
      have hlen := hone o.requestId
      rw [hc, List.length_cons] at hlen
      rw [List.eq_nil_of_length_eq_zero (l := more) (by omega)]
      exact ih.cons_cons o

/-- **Every output is passed on** where the announcements raise, exactly under the condition. -/
theorem heard_iff {env : Env ρ} {e : ContinuousBatchingEngine β} {outputs : List RequestOutput}
    (hone : ∀ r, (e.callbacks r).length ≤ 1)
    {passed rest : List (RequestOutput × Callback)}
    (hsplit : callbackCalls e outputs = passed ++ rest)
    (hraised : (rest = [] ∧ CallsReturn e.delivered passed ∧
        ¬ HookReturns env e.evictions (visited env (finishedRequestIds e outputs))) ∨
      CallsReturn e.delivered passed.dropLast ∧ ¬ CallsReturn e.delivered passed) :
    Heard env e outputs ↔ passed.map Prod.fst = outputs := by
  have hall : (∀ o ∈ outputs, e.callbacks o.requestId ≠ []) →
      (callbackCalls e outputs).map Prod.fst = outputs := fun hne =>
        map_fst_callbackCalls fun o ho =>
    le_antisymm (hone _) (List.length_pos_of_ne_nil (hne o ho))
  constructor
  · rintro (⟨hcalls, hhook⟩ | ⟨hne, hcalls⟩)
    · rw [hsplit, callsReturn_append] at hcalls
      rcases hraised with ⟨-, -, hno⟩ | ⟨-, hno⟩
      · exact absurd hhook hno
      · exact absurd hcalls.1 hno
    · have hnil : rest = [] := by
        rcases hraised with ⟨hnil, -⟩ | ⟨-, hno⟩
        · exact hnil
        · by_contra hrest
          rw [hsplit, List.dropLast_append_of_ne_nil hrest, callsReturn_append] at hcalls
          exact hno hcalls.1
      rw [hnil, List.append_nil] at hsplit
      rw [← hsplit]
      exact hall hne
  · intro hpassed
    have hne : ∀ o ∈ outputs, e.callbacks o.requestId ≠ [] := by
      intro o ho hnil
      rw [← hpassed] at ho
      obtain ⟨p, hp, rfl⟩ := List.mem_map.mp ho
      have hmem : p ∈ callbackCalls e outputs := by
        rw [hsplit]
        exact List.mem_append_left rest hp
      obtain ⟨o, -, hcall⟩ := List.mem_flatMap.mp hmem
      obtain ⟨callback, hcallback, rfl⟩ := List.mem_map.mp hcall
      rw [hnil] at hcallback
      exact List.not_mem_nil hcallback
    have hlen := congrArg List.length (hall hne)
    rw [hsplit, List.map_append, List.length_append, hpassed, List.length_map] at hlen
    have hnil : rest = [] := List.eq_nil_of_length_eq_zero (by omega)
    rw [hnil, List.append_nil] at hsplit
    refine Or.inr ⟨hne, ?_⟩
    rw [hsplit]
    rcases hraised with ⟨-, hcalls, -⟩ | ⟨hcalls, -⟩
    · rcases List.eq_nil_or_concat passed with rfl | ⟨done, last, rfl⟩
      · exact trivial
      · rw [List.concat_eq_append] at hcalls ⊢
        rw [List.dropLast_concat]
        exact (callsReturn_append.mp hcalls).1
    · exact hcalls

end MoeInfinity.Serving.Callbacks
