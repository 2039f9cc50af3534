import MoeInfinity.Lib.Runs
import MoeInfinity.Python

/-! # Token streams (`serving/stream.py`, the event generators of
`entrypoints/openai/api_server_v2.py`)

The engine pushes the tokens of a request into a queue, a Python generator takes them out, and an
event generator of the server polls that one from worker threads: each poll calls `next(stream)` in
a new thread and waits for it for 0.1 s. A poll that times out does not stop its thread, which
remains blocked in the generator. The next poll then finds the generator executing and raises, or,
if a token comes first, the thread takes it to a caller that is gone. So the client gets the events
as they were pushed exactly as long as no thread is left behind in this way (`delivered_iff`).

An event is its contents; the JSON text around them is left out. -/

namespace MoeInfinity.Entrypoints.EventStream

open MoeInfinity.Python MoeInfinity.Lib.Runs

/-! ### Events -/

structure StreamChunk where
  id : String
  model : String
  created : ℕ
  /-- `delta["content"]`, if the key is there. -/
  content : Option String
  finishReason : Option String
deriving DecidableEq, Repr

/-- What the engine pushes: `format_sse_event` of a chunk, or `format_done_event`. -/
inductive Event where
  | chunk (c : StreamChunk)
  | done
deriving DecidableEq, Repr

structure CompletionStreamResponse where
  id : String
  created : ℕ
  model : String
  text : String
  finishReason : Option String
deriving DecidableEq, Repr

/-- What the client gets. -/
inductive ClientEvent where
  | chat (c : StreamChunk)
  | completion (c : CompletionStreamResponse)
  | done
deriving DecidableEq, Repr

/-- The two event generators, with the arguments that they put into their answers. -/
inductive Endpoint where
  | completion (requestId : String) (created : ℕ) (modelName : String)
  | chat
deriving DecidableEq, Repr

/-- `_make_completion_stream_chunk`. -/
def makeCompletionStreamChunk (requestId : String) (created : ℕ) (modelName tokenText : String)
    (finishReason : Option String) : CompletionStreamResponse where
  id := "cmpl-" ++ requestId
  created := created
  model := modelName
  text := tokenText
  finishReason :=
    if finishReason = some "stop" then some "stop"
    else if finishReason = some "length" then some "length"
    else none

/-- What an event generator yields for an event. -/
def send : Endpoint → Event → ClientEvent
  | _, .done => .done
  | .chat, .chunk c => .chat c
  | .completion requestId created modelName, .chunk c =>
    .completion
      (makeCompletionStreamChunk requestId created modelName (c.content.getD "") c.finishReason)

/-! ### State -/

/-- The thread in the generator belongs to the current poll or to one that has timed out. -/
inductive Caller where
  | current
  | abandoned
deriving DecidableEq, Repr

/-- The generator object. -/
inductive Gen where
  | suspended
  | running (c : Caller)
  | closed
deriving DecidableEq, Repr

inductive Ending where
  | returned
  | raised (e : PyError)
deriving DecidableEq, Repr

/-- The event generator: its poll has not called `next` yet, waits for it, or the generator has
ended. -/
inductive Consumer where
  | polling
  | waiting
  | ended (o : Ending)
deriving DecidableEq, Repr

/-- The `_StreamState` of the request, the generators over it, and what was pushed and sent so
far. -/
structure State where
  streamId : String
  model : String
  created : ℕ
  queue : List Event
  finished : Bool
  /-- The request is in `_streams`. -/
  registered : Bool
  gen : Gen
  consumer : Consumer
  pushed : List Event
  sent : List ClientEvent

/-- `create_stream`, and the event generator is started. -/
def start (streamId model : String) (created : ℕ) : State :=
  ⟨streamId, model, created, [], false, true, .suspended, .polling, [], []⟩

/-! ### Steps -/

/-- `format_completion_chunk`. -/
def formatCompletionChunk (s : State) (tokenText : String) (finishReason : Option String) :
    StreamChunk where
  id := s.streamId
  model := s.model
  created := s.created
  content := if tokenText = "" then none else some tokenText
  finishReason := finishReason

/-- The events of one `push_token`. -/
def eventsOf (s : State) (tokenText : String) (finished : Bool) (finishReason : Option String) :
    List Event :=
  let finishReason := if finished ∧ finishReason = none then some "stop" else finishReason
  .chunk (formatCompletionChunk s tokenText finishReason) :: if finished then [.done] else []

def pushToken (tokenText : String) (finished : Bool) (finishReason : Option String)
    (s : State) : State :=
  if s.registered then
    { s with
      queue := s.queue ++ eventsOf s tokenText finished finishReason
      finished := s.finished || finished
      pushed := s.pushed ++ eventsOf s tokenText finished finishReason }
  else s

/-- The poll's thread calls `next(stream)`. -/
def call (s : State) : State :=
  match s.consumer with
  | .polling => match s.gen with
    | .running _ =>
      { s with consumer := .ended (.raised (.valueError "generator already executing")) }
    | .closed => { s with consumer := .ended .returned }
    | .suspended => { s with gen := .running .current, consumer := .waiting }
  | _ => s

/-- The event generator gets an event, or `None` at the end of the stream. -/
def receive (ep : Endpoint) (event : Option Event) (s : State) : State :=
  match event with
  | none => { s with consumer := .ended .returned }
  | some e => { s with
      sent := s.sent ++ [send ep e]
      consumer := if e = .done then .ended .returned else .polling }

/-- The result of `next(stream)` goes to its caller, or nowhere. -/
def handOver (ep : Endpoint) (c : Caller) (event : Option Event) (s : State) : State :=
  match c with
  | .current => receive ep event s
  | .abandoned => s

/-- The thread in the generator looks at the queue, under the lock; it goes on waiting if there is
nothing. -/
def take (ep : Endpoint) (s : State) : State :=
  match s.gen with
  | .running c => match s.queue with
    | e :: rest => handOver ep c (some e) { s with queue := rest, gen := .suspended }
    | [] =>
      if s.finished then handOver ep c none { s with gen := .closed, registered := false }
      else s
  | _ => s

/-- The poll times out while its thread is blocked, and the event generator polls again. -/
def timeout (s : State) : State :=
  match s.consumer with
  | .waiting => { s with gen := .running .abandoned, consumer := .polling }
  | _ => s

inductive Op where
  | pushToken (tokenText : String) (finished : Bool) (finishReason : Option String)
  | call
  | take
  | timeout
deriving DecidableEq, Repr

def step (ep : Endpoint) (s : State) : Op → State
  | .pushToken tokenText finished finishReason => pushToken tokenText finished finishReason s
  | .call => call s
  | .take => take ep s
  | .timeout => timeout s

/-! ### What is required -/

/-- The client has got the pushed events in order, up to those in the queue, and the event generator
has not ended without `[DONE]`. -/
structure Delivered (ep : Endpoint) (s : State) : Prop where
  events : s.pushed.map (send ep) = s.sent ++ s.queue.map (send ep)
  ended : ∀ o, s.consumer = .ended o → o = .returned ∧ s.sent.getLast? = some .done

/-- No thread of a poll that has timed out is in the generator when the next poll calls it, or when
there is an event. -/
def Unhindered (s : State) : Op → Prop
  | .call => s.consumer = .polling → s.gen ≠ .running .abandoned
  | .take => s.gen = .running .abandoned → s.queue = []
  | _ => True

instance (s : State) : ∀ o, Decidable (Unhindered s o)
  | .call => inferInstanceAs (Decidable (_ → _ ≠ _))
  | .take => inferInstanceAs (Decidable (_ → _ = []))
  | .pushToken _ _ _ => isTrue trivial
  | .timeout => isTrue trivial

/-! ### The invariant -/

/-- As long as the event generator has not ended, the end of a finished stream is still in the
queue. -/
structure Inv (ep : Endpoint) (s : State) : Prop where
  delivered : Delivered ep s
  waiting : s.consumer = .waiting ↔ s.gen = .running .current
  open_ : s.gen ≠ .closed
  after : ∀ o, s.consumer = .ended o → s.gen = .suspended
  toCome : s.finished = true → (∀ o, s.consumer ≠ .ended o) → .done ∈ s.queue

variable {ep : Endpoint} {s : State}

theorem inv_start (ep : Endpoint) (streamId model : String) (created : ℕ) :
    Inv ep (start streamId model created) where
  delivered := ⟨rfl, fun _ h => by cases h⟩
  waiting := ⟨fun h => (by cases h), fun h => (by cases h)⟩
  open_ := fun h => by cases h
  after := fun _ h => by cases h
  toCome := fun h => by cases h

theorem done_mem_eventsOf (s : State) (tokenText : String) (finishReason : Option String) :
    Event.done ∈ eventsOf s tokenText true finishReason := by
  simp [eventsOf]

theorem Inv.pushToken (h : Inv ep s) (tokenText : String) (finished : Bool)
    (finishReason : Option String) : Inv ep (pushToken tokenText finished finishReason s) := by
  unfold EventStream.pushToken
  split_ifs
  · refine ⟨⟨?_, h.delivered.ended⟩, h.waiting, h.open_, h.after, fun hf hne => ?_⟩
    · simp only [List.map_append]
      rw [h.delivered.events, List.append_assoc]
    · cases finished with
      | true => exact List.mem_append_right _ (done_mem_eventsOf s tokenText finishReason)
      | false =>
        have hf : s.finished = true := by simpa using hf
        exact List.mem_append_left _ (h.toCome hf hne)
  · exact h

theorem Inv.timeout (h : Inv ep s) : Inv ep (timeout s) := by
  unfold EventStream.timeout
  split
  · next hw =>
    refine ⟨⟨h.delivered.events, fun _ h0 => (by cases h0)⟩,
      ⟨fun h0 => (by cases h0), fun h0 => (by cases h0)⟩, fun h0 => (by cases h0),
      fun _ h0 => (by cases h0), fun hf _ => h.toCome hf fun o ho => ?_⟩
    rw [hw] at ho
    cases ho
  · exact h

theorem Inv.call (h : Inv ep s) (hu : Unhindered s .call) : Inv ep (call s) := by
  unfold EventStream.call
  split
  · next hp =>
    split
    · next c hg =>
      cases c with
      | current =>
        have hw := h.waiting.mpr hg
        rw [hp] at hw
        cases hw
      | abandoned => exact absurd hg (hu hp)
    · next hg => exact absurd hg h.open_
    · refine ⟨⟨h.delivered.events, fun _ h0 => (by cases h0)⟩, ⟨fun _ => rfl, fun _ => rfl⟩,
        fun h0 => (by cases h0), fun _ h0 => (by cases h0), fun hf _ => h.toCome hf fun o ho => ?_⟩
      rw [hp] at ho
      cases ho
  · exact h

/-- The current poll gets the next event. -/
theorem Inv.takeCurrent (h : Inv ep s) (hg : s.gen = .running .current) {e : Event}
    {rest : List Event} (hq : s.queue = e :: rest) :
    Inv ep (receive ep (some e) { s with queue := rest, gen := .suspended }) := by
  have hw := h.waiting.mpr hg
  have hev : s.pushed.map (send ep) = (s.sent ++ [send ep e]) ++ rest.map (send ep) := by
    rw [h.delivered.events, hq]
    simp
  refine ⟨⟨hev, fun o ho => ?_⟩, ⟨fun h0 => ?_, fun h0 => (by cases h0)⟩, fun h0 => (by cases h0),
    fun _ _ => rfl, fun hf hne => ?_⟩
  · change (if e = .done then Consumer.ended .returned else .polling) = .ended o at ho
    split_ifs at ho with he
    cases ho
    refine ⟨rfl, ?_⟩
    change (s.sent ++ [send ep e]).getLast? = _
    rw [List.getLast?_append, he]
    rfl
  · change (if e = .done then Consumer.ended .returned else .polling) = .waiting at h0
    split_ifs at h0
  · have hmem : Event.done ∈ s.queue := by
      refine h.toCome hf fun o ho => ?_
      rw [hw] at ho
      cases ho
    rw [hq] at hmem
    rcases List.mem_cons.mp hmem with he | hmem
    · refine absurd ?_ (hne .returned)
      change (if e = .done then Consumer.ended .returned else .polling) = _
      rw [if_pos he.symm]
    · exact hmem

/-- A finished stream is not empty while a thread is in the generator. -/
theorem Inv.not_finished (h : Inv ep s) {c : Caller} (hg : s.gen = .running c) (hq : s.queue = []) :
    s.finished = false := by
  cases hf : s.finished with
  | false => rfl
  | true =>
    have hmem : Event.done ∈ s.queue := by
      refine h.toCome hf fun o ho => ?_
      have h0 := h.after o ho
      rw [hg] at h0
      cases h0
    rw [hq] at hmem
    cases hmem

theorem Inv.take (h : Inv ep s) (hu : Unhindered s .take) : Inv ep (take ep s) := by
  unfold EventStream.take
  split
  · next c hg =>
    split
    · next e rest hq =>
      cases c with
      | current => exact h.takeCurrent hg hq
      | abandoned =>
        have hnil := hu hg
        rw [hq] at hnil
        cases hnil
    · next hq =>
      rw [h.not_finished hg hq, if_neg (by simp)]
      exact h
  · exact h

/-- **One step** that is not hindered keeps the invariant. -/
theorem Inv.step (h : Inv ep s) {o : Op} (hu : Unhindered s o) : Inv ep (step ep s o) := by
  cases o with
  | pushToken tokenText finished finishReason => exact h.pushToken tokenText finished finishReason
  | call => exact h.call hu
  | take => exact h.take hu
  | timeout => exact h.timeout

/-- A hindered poll raises. -/
theorem not_delivered_call (hp : s.consumer = .polling) (hg : s.gen = .running .abandoned) :
    ¬ Delivered ep (call s) := by
  intro h
  have hcall : (call s).consumer =
      .ended (.raised (.valueError "generator already executing")) := by
    unfold call
    rw [hp, hg]
  have hend := (h.ended _ hcall).1
  cases hend

/-- An event that an abandoned thread takes is lost. -/
theorem not_delivered_take (h : Inv ep s) (hg : s.gen = .running .abandoned) (hq : s.queue ≠ []) :
    ¬ Delivered ep (take ep s) := by
  intro h'
  obtain ⟨e, rest, hq⟩ := List.exists_cons_of_ne_nil hq
  have htake : take ep s = { s with queue := rest, gen := .suspended } := by
    unfold take
    rw [hg, hq]
    rfl
  have h1 := congrArg List.length h.delivered.events
  have h2 := congrArg List.length h'.events
  rw [htake] at h2
  rw [hq] at h1
  simp only [List.length_map, List.length_append, List.length_cons] at h1 h2
  omega

/-- **A step delivers** if and only if it is not hindered. -/
theorem Inv.step_delivers (h : Inv ep s) (o : Op) :
    Delivered ep (EventStream.step ep s o) ↔ Unhindered s o := by
  constructor
  · intro hd
    cases o with
    | pushToken tokenText finished finishReason => trivial
    | call => exact fun hp hg => not_delivered_call hp hg hd
    | take => exact fun hg => by_contra fun hq => not_delivered_take h hg hq hd
    | timeout => trivial
  · intro hu
    exact (h.step hu).delivered

/-- **The client gets the events as they were pushed**, at every point of a run, if and only if no
thread of a poll that has timed out is in the generator when it is called or an event is there. -/
theorem delivered_iff (ep : Endpoint) (streamId model : String) (created : ℕ) (ops : List Op) :
    Along (step ep) (fun s o => Delivered ep (step ep s o)) (start streamId model created) ops ↔
      Along (step ep) Unhindered (start streamId model created) ops :=
  along_iff_of_inv (I := Inv ep) (fun _ _ hs hu => hs.step hu)
    (fun _ o hs => hs.step_delivers o) ops _ (inv_start ep streamId model created)

/-! ### A poll that times out -/

/-- The first poll times out before the first token comes. -/
def slowFirstToken : List Op :=
  [.call, .timeout, .pushToken "a" true none, .take, .call, .take]

/-- The token is lost: the client gets `[DONE]` only. -/
theorem token_lost : ¬ ∀ (ep : Endpoint) (ops : List Op),
    Delivered ep (exec (step ep) (start "s" "m" 0) ops) := by
  intro h
  have hev := (h .chat slowFirstToken).events
  have hne : (exec (step .chat) (start "s" "m" 0) slowFirstToken).pushed.map (send .chat) ≠
      (exec (step .chat) (start "s" "m" 0) slowFirstToken).sent ++
        (exec (step .chat) (start "s" "m" 0) slowFirstToken).queue.map (send .chat) := by decide
  exact hne hev

end MoeInfinity.Entrypoints.EventStream
