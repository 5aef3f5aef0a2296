import Sogx.Lib.Machine
import Sogx.Native.Recog

/-!
`rabbit.cpp`: the worker threads of the recognition server, and the broker that
they take their requests from.

A `Worker` is one thread in `runBlocking`, with the messages that sit in the
socket of its current channel. `Worker.work` is its next step on its own;
`step` puts any number of workers next to a broker that routes requests to the
queue, pushes them to consumers (`no_ack` is set, so as many as it likes) and
loses the reply queues of callers that gave up.

* `run_accounted`: in a run in which no worker drops a channel that still holds
  a message, and some worker serves as long as requests wait, every request is
  handled once and answered once.
* `workers_in_loop_iff`: every worker stays in its loop exactly in the runs
  whose every reply finds its reply queue.
-/

namespace Sogx

open Sogx.Lib

/-- `BasicMessage`, as far as the server reads it. -/
structure BasicMessage where
  body : List Byte
  replyTo : Option String
  correlationId : Option String
deriving DecidableEq, Repr

/-- A property that is not set reads as the empty string. -/
def BasicMessage.ReplyTo (m : BasicMessage) : String := m.replyTo.getD ""

def BasicMessage.CorrelationId (m : BasicMessage) : String := m.correlationId.getD ""

/-- A message published to the default exchange. -/
structure Response where
  routingKey : String
  contentType : String
  correlationId : String
  body : String
deriving DecidableEq, Repr

namespace RabbitRpcServer

/-- Where a thread is in `runBlocking`. -/
inductive Position where
  | createChannel | bindQueue | basicConsume | basicConsumeMessage
  | handleEnvelope (env : BasicMessage)
  | basicPublish (env : BasicMessage) (body : String)
  | endOfIteration
  /-- The `break`: the channel goes out of scope, then the loop is over. -/
  | breakLoop
  | returned
  /-- An exception left the thread function: `std::terminate`. -/
  | terminated
deriving DecidableEq, Repr

structure Worker where
  position : Position
  /-- Delivered on the current channel and not yet consumed, oldest first. -/
  channel : List BasicMessage
deriving DecidableEq, Repr

/-- What one step of a worker leaves: the worker, what it passed to
`handleMessage`, and what it published. -/
structure Effect where
  worker : Worker
  handled : List BasicMessage
  published : List Response
deriving DecidableEq, Repr

/-- `BasicPublish` with `mandatory` set throws `MessageReturnedException`, a
`std::runtime_error`, when nothing takes the message. -/
def basicPublish (replyQueues : List String) (response : Response) : Except Thrown Response :=
  if response.routingKey ∈ replyQueues then .ok response else .error .runtimeError

/-- The `catch` clause around consuming and handling. -/
def caught : Thrown → Position
  | .runtimeError => .breakLoop
  | .exception | .other => .terminated

/-- The response that `handleEnvelope` sends for `body`. -/
def response (env : BasicMessage) (body : String) : Response where
  routingKey := env.ReplyTo
  contentType := "application/json"
  correlationId := env.CorrelationId
  body := body

namespace Position

/-- Between `BasicConsume` and the destruction of the channel the broker has a
consumer to deliver to. -/
def consuming : Position → Bool
  | .basicConsumeMessage | .handleEnvelope _ | .basicPublish _ _ | .endOfIteration
  | .breakLoop => true
  | .createChannel | .bindQueue | .basicConsume | .returned | .terminated => false

/-- The thread is in its `while` loop. -/
def inLoop : Position → Bool
  | .breakLoop | .returned | .terminated => false
  | _ => true

/-- The thread function has ended. -/
def stopped : Position → Bool
  | .returned | .terminated => true
  | _ => false

/-- The next step destroys the channel. -/
def dropsChannel : Position → Bool
  | .endOfIteration | .breakLoop => true
  | _ => false

end Position

namespace Worker

/-- The next step of the thread; `none` while it waits for a message, and when
it is over. Destroying a channel discards what was delivered to it. -/
def work (handleMessage : BasicMessage → Except Thrown String) (replyQueues : List String)
    (w : Worker) : Option Effect :=
  match w.position with
  | .createChannel => some ⟨⟨.bindQueue, w.channel⟩, [], []⟩
  | .bindQueue => some ⟨⟨.basicConsume, w.channel⟩, [], []⟩
  | .basicConsume => some ⟨⟨.basicConsumeMessage, w.channel⟩, [], []⟩
  | .basicConsumeMessage =>
    match w.channel with
    | [] => none
    | env :: rest => some ⟨⟨.handleEnvelope env, rest⟩, [], []⟩
  | .handleEnvelope env =>
    match handleMessage env with
    | .ok body => some ⟨⟨.basicPublish env body, w.channel⟩, [env], []⟩
    | .error x => some ⟨⟨caught x, w.channel⟩, [env], []⟩
  | .basicPublish env body =>
    match basicPublish replyQueues (response env body) with
    | .ok sent => some ⟨⟨.endOfIteration, w.channel⟩, [], [sent]⟩
    | .error x => some ⟨⟨caught x, w.channel⟩, [], []⟩
  | .endOfIteration => some ⟨⟨.createChannel, []⟩, [], []⟩
  | .breakLoop => some ⟨⟨.returned, []⟩, [], []⟩
  | .returned | .terminated => none

/-- Delivered to the worker and not yet passed to `handleMessage`. -/
def pending (w : Worker) : List BasicMessage :=
  match w.position with
  | .handleEnvelope env => env :: w.channel
  | _ => w.channel

/-- Passed to `handleMessage` and not yet answered. -/
def answering (w : Worker) : List BasicMessage :=
  match w.position with
  | .basicPublish env _ => [env]
  | _ => []

end Worker

structure State where
  /-- Sent by callers, not yet routed to the queue. -/
  unrouted : List BasicMessage
  queue : List BasicMessage
  replyQueues : List String
  workers : List Worker
  /-- The calls of `handleMessage` and of `BasicPublish` so far. -/
  handled : List BasicMessage
  published : List Response
deriving DecidableEq, Repr

inductive Label where
  | route
  | deliver (i : Nat)
  | work (i : Nat)
  | deleteReplyQueue (name : String)
deriving DecidableEq, Repr

/-- `runAndJoin`, before its threads take a step. -/
def runAndJoin (requests : List BasicMessage) (replyQueues : List String) (threadCount : Nat) :
    State where
  unrouted := requests
  queue := []
  replyQueues := replyQueues
  workers := List.replicate threadCount ⟨.createChannel, []⟩
  handled := []
  published := []

/-- One step of the server or of the broker. The process is gone once a thread
was terminated. -/
def step (handleMessage : BasicMessage → Except Thrown String) (l : Label) (s : State) :
    Option State :=
  if s.workers.any (·.position = .terminated) then none
  else match l with
    | .route =>
      match s.unrouted with
      | [] => none
      | m :: rest => some { s with unrouted := rest, queue := s.queue ++ [m] }
    | .deliver i =>
      match s.queue, s.workers[i]? with
      | m :: rest, some w =>
        if w.position.consuming then
          some { s with queue := rest, workers := s.workers.set i ⟨w.position, w.channel ++ [m]⟩ }
        else none
      | _, _ => none
    | .work i => do
      let w ← s.workers[i]?
      let e ← w.work handleMessage s.replyQueues
      return { s with
        workers := s.workers.set i e.worker
        handled := s.handled ++ e.handled
        published := s.published ++ e.published }
    | .deleteReplyQueue name =>
      if name ∈ s.replyQueues then
        some { s with replyQueues := s.replyQueues.filter (· ≠ name) }
      else none

namespace State

/-- The requests that `handleMessage` has yet to see. -/
def pending (s : State) : List BasicMessage :=
  s.unrouted ++ s.queue ++ s.workers.flatMap Worker.pending

def answering (s : State) : List BasicMessage := s.workers.flatMap Worker.answering

end State

/-! ### What a step can do -/

/-- The steps of the system, one constructor for each label. -/
inductive Steps (handleMessage : BasicMessage → Except Thrown String) (s : State) :
    Label → State → Prop where
  | route {m : BasicMessage} {rest : List BasicMessage} :
      s.unrouted = m :: rest →
      Steps handleMessage s .route { s with unrouted := rest, queue := s.queue ++ [m] }
  | deliver {i : Nat} {w : Worker} {m : BasicMessage} {rest : List BasicMessage} :
      s.queue = m :: rest → s.workers[i]? = some w → w.position.consuming = true →
      Steps handleMessage s (.deliver i)
        { s with queue := rest, workers := s.workers.set i ⟨w.position, w.channel ++ [m]⟩ }
  | work {i : Nat} {w : Worker} {e : Effect} :
      s.workers[i]? = some w → w.work handleMessage s.replyQueues = some e →
      Steps handleMessage s (.work i)
        { s with
          workers := s.workers.set i e.worker
          handled := s.handled ++ e.handled
          published := s.published ++ e.published }
  | deleteReplyQueue {name : String} :
      name ∈ s.replyQueues →
      Steps handleMessage s (.deleteReplyQueue name)
        { s with replyQueues := s.replyQueues.filter (· ≠ name) }

/-- What a step can do, with all its conditions. -/
theorem step_steps {handleMessage : BasicMessage → Except Thrown String} {l : Label}
    {s s' : State} (h : step handleMessage l s = some s') : Steps handleMessage s l s' := by
  unfold step at h
  split at h
  · cases h
  cases l with
  | route =>
    simp only at h
    split at h
    · cases h
    · rename_i hu
      cases h
      exact .route hu
  | deliver i =>
    simp only at h
    split at h
    · rename_i hq hw
      split at h
      · rename_i hc
        cases h
        exact .deliver hq hw hc
      · cases h
    · cases h
  | work i =>
    obtain ⟨w, hw, h⟩ := Option.bind_eq_some_iff.mp h
    obtain ⟨e, he, h⟩ := Option.bind_eq_some_iff.mp h
    cases h
    exact .work hw he
  | deleteReplyQueue name =>
    simp only at h
    split at h
    · rename_i hmem
      cases h
      exact .deleteReplyQueue hmem
    · cases h

/-- Each of these is a step while no worker has terminated. -/
theorem step_of_steps {handleMessage : BasicMessage → Except Thrown String} {l : Label}
    {s s' : State} (halive : ∀ w ∈ s.workers, w.position ≠ .terminated)
    (h : Steps handleMessage s l s') : step handleMessage l s = some s' := by
  have hany : s.workers.any (·.position = .terminated) = false := by
    rw [List.any_eq_false]
    intro w hw
    simpa using halive w hw
  cases h with
  | route hu => simp [step, hany, hu]
  | deliver hq hw hc => simp [step, hany, hq, hw, hc]
  | work hw he => simp [step, hany, hw, he]
  | deleteReplyQueue hmem => simp [step, hany, hmem]

/-- The steps of a worker whose `handleMessage` answers everything. -/
inductive Works (answer : BasicMessage → String) (replyQueues : List String) :
    Worker → Effect → Prop where
  | createChannel {channel : List BasicMessage} :
      Works answer replyQueues ⟨.createChannel, channel⟩ ⟨⟨.bindQueue, channel⟩, [], []⟩
  | bindQueue {channel : List BasicMessage} :
      Works answer replyQueues ⟨.bindQueue, channel⟩ ⟨⟨.basicConsume, channel⟩, [], []⟩
  | basicConsume {channel : List BasicMessage} :
      Works answer replyQueues ⟨.basicConsume, channel⟩ ⟨⟨.basicConsumeMessage, channel⟩, [], []⟩
  | consume {env : BasicMessage} {rest : List BasicMessage} :
      Works answer replyQueues ⟨.basicConsumeMessage, env :: rest⟩
        ⟨⟨.handleEnvelope env, rest⟩, [], []⟩
  | handle {env : BasicMessage} {channel : List BasicMessage} :
      Works answer replyQueues ⟨.handleEnvelope env, channel⟩
        ⟨⟨.basicPublish env (answer env), channel⟩, [env], []⟩
  | publish {env : BasicMessage} {body : String} {channel : List BasicMessage} :
      env.ReplyTo ∈ replyQueues →
      Works answer replyQueues ⟨.basicPublish env body, channel⟩
        ⟨⟨.endOfIteration, channel⟩, [], [response env body]⟩
  | messageReturned {env : BasicMessage} {body : String} {channel : List BasicMessage} :
      env.ReplyTo ∉ replyQueues →
      Works answer replyQueues ⟨.basicPublish env body, channel⟩ ⟨⟨.breakLoop, channel⟩, [], []⟩
  | endOfIteration {channel : List BasicMessage} :
      Works answer replyQueues ⟨.endOfIteration, channel⟩ ⟨⟨.createChannel, []⟩, [], []⟩
  | breakLoop {channel : List BasicMessage} :
      Works answer replyQueues ⟨.breakLoop, channel⟩ ⟨⟨.returned, []⟩, [], []⟩

section Answering

variable {answer : BasicMessage → String} {replyQueues : List String} {w : Worker} {e : Effect}

/-- What a worker can do, with the effect that it has. -/
theorem work_works (h : w.work (fun m => .ok (answer m)) replyQueues = some e) :
    Works answer replyQueues w e := by
  obtain ⟨position, channel⟩ := w
  cases position with
  | createChannel => cases h; exact .createChannel
  | bindQueue => cases h; exact .bindQueue
  | basicConsume => cases h; exact .basicConsume
  | basicConsumeMessage =>
    cases channel with
    | nil => cases h
    | cons env rest => cases h; exact .consume
  | handleEnvelope env => cases h; exact .handle
  | basicPublish env body =>
    by_cases hq : env.ReplyTo ∈ replyQueues
    · have hsent : basicPublish replyQueues (response env body) = .ok (response env body) :=
        if_pos hq
      simp only [Worker.work, hsent] at h
      cases h
      exact .publish hq
    · have hsent : basicPublish replyQueues (response env body) = .error .runtimeError :=
        if_neg hq
      simp only [Worker.work, hsent] at h
      cases h
      exact .messageReturned hq
  | endOfIteration => cases h; exact .endOfIteration
  | breakLoop => cases h; exact .breakLoop
  | returned => cases h
  | terminated => cases h

/-- A step that loses no channel content takes from the pending requests what it
passes to `handleMessage`. -/
theorem Works.pending (h : Works answer replyQueues w e)
    (hdrop : w.position.dropsChannel = true → w.channel = []) :
    (e.worker.pending ++ e.handled).Perm w.pending := by
  cases h with
  | consume => simp [Worker.pending]
  | handle =>
    simp only [Worker.pending]
    exact List.perm_append_singleton _ _
  | endOfIteration =>
    have hnil := hdrop rfl
    simp only at hnil
    simp [Worker.pending, hnil]
  | breakLoop =>
    have hnil := hdrop rfl
    simp only at hnil
    simp [Worker.pending, hnil]
  | _ => simp [Worker.pending]

/-- What was passed to `handleMessage` is answered, or returned because its
reply queue does not exist. -/
theorem Works.answering (h : Works answer replyQueues w e)
    (hbody : ∀ env body, w.position = .basicPublish env body → body = answer env) :
    ∃ answered returned, (e.worker.answering ++ (answered ++ returned)).Perm
        (w.answering ++ e.handled) ∧
      e.published = answered.map (fun m => response m (answer m)) ∧
      ∀ m ∈ returned, m.ReplyTo ∉ replyQueues := by
  cases h with
  | publish hq =>
    rename_i env body channel
    obtain rfl := hbody env body rfl
    exact ⟨[env], [], .refl _, rfl, by simp⟩
  | messageReturned hq =>
    rename_i env body channel
    exact ⟨[], [env], .refl _, rfl, by simpa using hq⟩
  | _ => exact ⟨[], [], .refl _, rfl, by simp⟩

/-- What holds of every thread between two steps. -/
structure Worker.Sound (answer : BasicMessage → String) (w : Worker) : Prop where
  body : ∀ env body, w.position = .basicPublish env body → body = answer env
  closed : w.position.consuming = false → w.channel = []
  alive : w.position ≠ .terminated

/-- A worker stays sound. -/
theorem Works.sound (h : Works answer replyQueues w e) (hw : w.Sound answer) :
    e.worker.Sound answer := by
  cases h with
  | handle =>
    refine ⟨?_, ?_, ?_⟩
    · rintro env' body' heq
      cases heq
      rfl
    · intro hc
      cases hc
    · intro hp
      cases hp
  | createChannel => exact ⟨by simp, fun _ => hw.closed rfl, by simp⟩
  | bindQueue => exact ⟨by simp, fun _ => hw.closed rfl, by simp⟩
  | _ => exact ⟨by simp, by simp [Position.consuming], by simp⟩

end Answering

/-! ### Whole runs -/

section Runs

variable {answer : BasicMessage → String}

/-- The thread does not drop a channel with a message left in it, and does not
end while no other thread serves and a request waits. -/
def Worker.LeavesNothing (s : State) (w : Worker) : Prop :=
  (w.position.dropsChannel = true → w.channel = []) ∧
    (w.position = .breakLoop →
      (∃ w' ∈ s.workers, w'.position.inLoop = true) ∨ (s.unrouted = [] ∧ s.queue = []))

instance (s : State) (w : Worker) : Decidable (w.LeavesNothing s) :=
  inferInstanceAs (Decidable (_ ∧ _))

/-- The thread that takes the step leaves nothing behind. -/
def Careful (s : State) : Label → Prop
  | .work i => ∀ w ∈ s.workers[i]?, w.LeavesNothing s
  | .route | .deliver _ | .deleteReplyQueue _ => True

instance : DecidableRel Careful := fun s l =>
  match l with
  | .work i => inferInstanceAs (Decidable (∀ w ∈ s.workers[i]?, w.LeavesNothing s))
  | .route | .deliver _ | .deleteReplyQueue _ => isTrue trivial

/-- Every request is pending or was handled, once; every handled one is being
answered, was answered once with its own reply, or had no reply queue. -/
structure Accounted (answer : BasicMessage → String) (requests : List BasicMessage) (s : State) :
    Prop where
  handled : (s.handled ++ s.pending).Perm requests
  answered : ∃ answered returned,
    s.handled.Perm (s.answering ++ (answered ++ returned)) ∧
    s.published = answered.map (fun m => response m (answer m)) ∧
    ∀ m ∈ returned, m.ReplyTo ∉ s.replyQueues

/-- Nothing is left for the broker to route or deliver or for a thread to do. -/
def Quiescent (step : Label → State → Option State) (s : State) : Prop :=
  ∀ l s', step l s = some s' → ∃ name, l = .deleteReplyQueue name

structure Invariant (answer : BasicMessage → String) (requests : List BasicMessage) (s : State) :
    Prop where
  accounted : Accounted answer requests s
  workers : ∀ w ∈ s.workers, w.Sound answer
  served : (∃ w ∈ s.workers, w.position.stopped = false) ∨ (s.unrouted = [] ∧ s.queue = [])

theorem pending_deliver (w : Worker) (m : BasicMessage) :
    Worker.pending ⟨w.position, w.channel ++ [m]⟩ = w.pending ++ [m] := by
  obtain ⟨position, channel⟩ := w
  cases position <;> rfl

/-- What is pending and what is being answered only ever moves on to where it
is due. -/
theorem accounted_step {requests : List BasicMessage} {s s' : State} {l : Label}
    (hinv : Accounted answer requests s) (hsound : ∀ w ∈ s.workers, w.Sound answer)
    (hok : Careful s l) (h : step (fun m => .ok (answer m)) l s = some s') :
    Accounted answer requests s' := by
  obtain ⟨hhandled, answered, returned, hperm, hpublished, hreturned⟩ := hinv
  cases step_steps h with
  | route hu =>
    refine ⟨List.Perm.trans ?_ hhandled, answered, returned, hperm, hpublished, hreturned⟩
    rw [List.perm_iff_count]
    intro m
    simp only [State.pending, hu, List.count_append, List.count_cons, List.count_nil]
    omega
  | deliver hq hw hc =>
    rename_i i w m rest
    have hpending : (Worker.pending ⟨w.position, w.channel ++ [m]⟩ ++ []).Perm
        (w.pending ++ [m]) := by
      rw [pending_deliver, List.append_nil]
    have hanswering : (Worker.answering ⟨w.position, w.channel ++ [m]⟩ ++ []).Perm
        (w.answering ++ []) := .refl _
    have hpool := flatMap_set_exchange Worker.pending hw hpending
    have hpool' := flatMap_set_exchange Worker.answering hw hanswering
    simp only [List.append_nil] at hpool hpool'
    refine ⟨List.Perm.trans ?_ hhandled, answered, returned, hperm.trans ?_, hpublished,
      hreturned⟩
    · rw [List.perm_iff_count] at hpool ⊢
      intro x
      have hx := hpool x
      simp only [State.pending, hq, List.count_append, List.count_cons, List.count_nil] at hx ⊢
      omega
    · exact hpool'.symm.append_right _
  | work hw he =>
    rename_i i w e
    have hworks := work_works he
    obtain ⟨answered', returned', hanswering, hpublished', hreturned'⟩ :=
      hworks.answering (hsound w (List.mem_of_getElem? hw)).body
    have hpending : (e.worker.pending ++ e.handled).Perm (w.pending ++ []) := by
      rw [List.append_nil]
      exact hworks.pending (hok w hw).1
    have hpool := flatMap_set_exchange Worker.pending hw hpending
    have hpool' := flatMap_set_exchange Worker.answering hw hanswering
    refine ⟨List.Perm.trans ?_ hhandled, answered ++ answered', returned ++ returned', ?_, ?_, ?_⟩
    · rw [List.perm_iff_count] at hpool ⊢
      intro x
      have hx := hpool x
      simp only [State.pending, List.count_append, List.append_nil] at hx ⊢
      omega
    · rw [List.perm_iff_count] at hpool' hperm ⊢
      intro x
      have hx := hpool' x
      have hx' := hperm x
      simp only [State.answering, List.count_append] at hx hx' ⊢
      omega
    · simp only [hpublished, hpublished', List.map_append]
    · intro m hm
      rcases List.mem_append.mp hm with hm | hm
      · exact hreturned m hm
      · exact hreturned' m hm
  | deleteReplyQueue hmem =>
    refine ⟨hhandled, answered, returned, hperm, hpublished, ?_⟩
    intro m hm hmem'
    exact hreturned m hm (List.mem_of_mem_filter hmem')

/-- A step keeps all workers sound. -/
theorem sound_step {s s' : State} {l : Label} (hsound : ∀ w ∈ s.workers, w.Sound answer)
    (h : step (fun m => .ok (answer m)) l s = some s') : ∀ w ∈ s'.workers, w.Sound answer := by
  cases step_steps h with
  | route => exact hsound
  | deliver hq hw hc =>
    rename_i i w m rest
    have hw' := hsound w (List.mem_of_getElem? hw)
    refine forall_mem_set hsound ⟨hw'.body, ?_, hw'.alive⟩
    intro hidle
    rw [hc] at hidle
    cases hidle
  | work hw he =>
    exact forall_mem_set hsound ((work_works he).sound (hsound _ (List.mem_of_getElem? hw)))
  | deleteReplyQueue => exact hsound

/-- A thread's function ends only behind its `break`. -/
theorem Works.stopped {replyQueues : List String} {w : Worker} {e : Effect}
    (h : Works answer replyQueues w e) :
    w.position.stopped = false ∧ (e.worker.position.stopped = true → w.position = .breakLoop) := by
  cases h <;> exact ⟨rfl, by simp [Position.stopped]⟩

theorem stopped_of_inLoop {p : Position} (h : p.inLoop = true) : p.stopped = false := by
  cases p with
  | returned => cases h
  | terminated => cases h
  | _ => rfl

/-- A step that is careful leaves a worker that serves, or nothing to serve. -/
theorem served_step {s s' : State} {l : Label}
    (hserved : (∃ w ∈ s.workers, w.position.stopped = false) ∨ (s.unrouted = [] ∧ s.queue = []))
    (hok : Careful s l) (h : step (fun m => .ok (answer m)) l s = some s') :
    (∃ w ∈ s'.workers, w.position.stopped = false) ∨ (s'.unrouted = [] ∧ s'.queue = []) := by
  cases step_steps h with
  | route hu =>
    rcases hserved with hw | ⟨hnil, -⟩
    · exact .inl hw
    · rw [hu] at hnil
      cases hnil
  | deliver hq hw hc =>
    rcases hserved with hex | ⟨-, hnil⟩
    · exact .inl (exists_mem_set hw (fun hover => hover) hex)
    · rw [hq] at hnil
      cases hnil
  | work hw he =>
    rename_i i w e
    cases hover : e.worker.position.stopped with
    | false =>
      exact .inl ⟨e.worker, List.mem_set (List.getElem?_eq_some_iff.mp hw).1 _, hover⟩
    | true =>
      have hbreak := (work_works he).stopped.2 hover
      rcases (hok w hw).2 hbreak with hex | hidle
      · left
        have hloop : ∃ w' ∈ s.workers.set i e.worker, w'.position.inLoop = true := by
          refine exists_mem_set hw ?_ hex
          intro hin
          rw [hbreak] at hin
          cases hin
        obtain ⟨w', hw', hin⟩ := hloop
        exact ⟨w', hw', stopped_of_inLoop hin⟩
      · exact .inr hidle
  | deleteReplyQueue => exact hserved

/-- A careful step keeps the invariant. -/
theorem invariant_step {requests : List BasicMessage} (s : State) (l : Label) (s' : State)
    (hinv : Invariant answer requests s) (hok : Careful s l)
    (h : step (fun m => .ok (answer m)) l s = some s') : Invariant answer requests s' where
  accounted := accounted_step hinv.accounted hinv.workers hok h
  workers := sound_step hinv.workers h
  served := served_step hinv.served hok h

/-- With a worker the server begins with the invariant. -/
theorem invariant_runAndJoin {requests : List BasicMessage} {replyQueues : List String}
    {threadCount : Nat} (hpos : 0 < threadCount) :
    Invariant answer requests (runAndJoin requests replyQueues threadCount) where
  accounted := by
    have hpending : (List.replicate threadCount (⟨.createChannel, []⟩ : Worker)).flatMap
        Worker.pending = [] := by
      rw [List.flatMap_eq_nil_iff]
      intro w hw
      rw [List.eq_of_mem_replicate hw]
      rfl
    have hanswering : (List.replicate threadCount (⟨.createChannel, []⟩ : Worker)).flatMap
        Worker.answering = [] := by
      rw [List.flatMap_eq_nil_iff]
      intro w hw
      rw [List.eq_of_mem_replicate hw]
      rfl
    refine ⟨?_, [], [], ?_, rfl, by simp⟩
    · simp [State.pending, runAndJoin, hpending]
    · simp [State.answering, runAndJoin, hanswering]
  workers := by
    intro w hw
    rw [List.eq_of_mem_replicate hw]
    exact ⟨by simp, fun _ => rfl, by simp⟩
  served := .inl ⟨⟨.createChannel, []⟩, List.mem_replicate.mpr ⟨by omega, rfl⟩, rfl⟩

/-- A thread that has nothing to do has nothing in hand. -/
theorem idle_of_work_eq_none {replyQueues : List String} {w : Worker} (hw : w.Sound answer)
    (h : w.work (fun m => .ok (answer m)) replyQueues = none) :
    w.pending = [] ∧ w.answering = [] ∧
      (w.position.stopped = false → w.position.consuming = true) := by
  obtain ⟨position, channel⟩ := w
  cases position with
  | basicConsumeMessage =>
    cases channel with
    | nil => exact ⟨rfl, rfl, fun _ => rfl⟩
    | cons m rest => cases h
  | basicPublish env body =>
    by_cases hq : env.ReplyTo ∈ replyQueues
    · simp [Worker.work, basicPublish, response, hq] at h
    · simp [Worker.work, basicPublish, response, hq] at h
  | returned =>
    obtain rfl : channel = [] := hw.closed rfl
    exact ⟨rfl, rfl, fun hover => by cases hover⟩
  | terminated => exact absurd rfl hw.alive
  | _ => cases h

/-- When nothing more can happen, nothing is pending and no answer is unsent. -/
theorem quiescent_done {requests : List BasicMessage} {s : State}
    (hinv : Invariant answer requests s) (h : Quiescent (step fun m => .ok (answer m)) s) :
    s.pending = [] ∧ s.answering = [] := by
  have halive : ∀ w ∈ s.workers, w.position ≠ .terminated :=
    fun w hw => (hinv.workers w hw).alive
  have hidle : ∀ w ∈ s.workers, w.work (fun m => .ok (answer m)) s.replyQueues = none := by
    intro w hw
    obtain ⟨i, hi⟩ := List.getElem?_of_mem hw
    cases he : w.work (fun m => .ok (answer m)) s.replyQueues with
    | none => rfl
    | some e =>
      obtain ⟨name, hl⟩ := h (.work i) _ (step_of_steps halive (.work hi he))
      cases hl
  have hunrouted : s.unrouted = [] := by
    cases hu : s.unrouted with
    | nil => rfl
    | cons m rest =>
      obtain ⟨name, hl⟩ := h .route _ (step_of_steps halive (.route hu))
      cases hl
  have hqueue : s.queue = [] := by
    rcases hinv.served with ⟨w, hw, hover⟩ | ⟨-, hq⟩
    · have hc := (idle_of_work_eq_none (hinv.workers w hw) (hidle w hw)).2.2 hover
      obtain ⟨i, hi⟩ := List.getElem?_of_mem hw
      cases hq : s.queue with
      | nil => rfl
      | cons m rest =>
        obtain ⟨name, hl⟩ := h (.deliver i) _ (step_of_steps halive (.deliver hq hi hc))
        cases hl
    · exact hq
  constructor
  · simp only [State.pending, hunrouted, hqueue, List.nil_append, List.flatMap_eq_nil_iff]
    intro w hw
    exact (idle_of_work_eq_none (hinv.workers w hw) (hidle w hw)).1
  · simp only [State.answering, List.flatMap_eq_nil_iff]
    intro w hw
    exact (idle_of_work_eq_none (hinv.workers w hw) (hidle w hw)).2.1

/-- What a thread can still do by itself, with the messages on its channel. -/
def Worker.potential (w : Worker) : Nat :=
  7 * w.channel.length + match w.position with
    | .handleEnvelope _ => 6
    | .basicPublish _ _ => 5
    | .endOfIteration => 4
    | .createChannel => 3
    | .bindQueue => 2
    | .basicConsume => 1
    | .breakLoop => 1
    | .basicConsumeMessage | .returned | .terminated => 0

def State.potential (s : State) : Nat :=
  9 * s.unrouted.length + 8 * s.queue.length + (s.workers.map Worker.potential).sum +
    s.replyQueues.length

/-- Each thing that a worker does brings it nearer to the end. -/
theorem Works.potential_lt {replyQueues : List String} {w : Worker} {e : Effect}
    (h : Works answer replyQueues w e) : e.worker.potential < w.potential := by
  cases h with
  | consume =>
    simp only [Worker.potential, List.length_cons]
    omega
  | endOfIteration =>
    simp only [Worker.potential, List.length_nil]
    omega
  | breakLoop =>
    simp only [Worker.potential, List.length_nil]
    omega
  | _ => simp [Worker.potential]

theorem potential_step {s s' : State} {l : Label}
    (h : step (fun m => .ok (answer m)) l s = some s') : s'.potential < s.potential := by
  cases step_steps h with
  | route hu =>
    simp only [State.potential, hu, List.length_append, List.length_cons, List.length_nil]
    omega
  | deliver hq hw hc =>
    rename_i i w m rest
    have hpool := sum_map_set Worker.potential hw ⟨w.position, w.channel ++ [m]⟩
    have hone : Worker.potential ⟨w.position, w.channel ++ [m]⟩ = w.potential + 7 := by
      simp only [Worker.potential, List.length_append, List.length_singleton]
      omega
    simp only [State.potential, hq, List.length_cons]
    omega
  | work hw he =>
    rename_i i w e
    have hpool := sum_map_set Worker.potential hw e.worker
    have hone := (work_works he).potential_lt
    simp only [State.potential]
    omega
  | deleteReplyQueue hmem =>
    rename_i name
    have hlt : (s.replyQueues.filter (· ≠ name)).length < s.replyQueues.length := by
      rw [List.length_filter_lt_length_iff_exists]
      exact ⟨name, hmem, by simp⟩
    simp only [State.potential]
    omega

theorem potential_runAndJoin (requests : List BasicMessage) (replyQueues : List String)
    (threadCount : Nat) :
    (runAndJoin requests replyQueues threadCount).potential =
      9 * requests.length + 3 * threadCount + replyQueues.length := by
  have hstart : Worker.potential ⟨.createChannel, []⟩ = 3 := rfl
  simp [State.potential, runAndJoin, hstart, Nat.mul_comm]

end Runs

/-! ### Staying in the loop -/

section Loop

variable {answer : BasicMessage → String}

/-- A response that the thread is about to publish has its reply queue. -/
def Worker.FindsReplyQueue (replyQueues : List String) (w : Worker) : Prop :=
  match w.position with
  | .basicPublish env _ => env.ReplyTo ∈ replyQueues
  | _ => True

instance (replyQueues : List String) (w : Worker) : Decidable (w.FindsReplyQueue replyQueues) := by
  unfold Worker.FindsReplyQueue
  split <;> infer_instance

/-- No response is published to a reply queue that does not exist. -/
def Found (s : State) : Label → Prop
  | .work i => ∀ w ∈ s.workers[i]?, w.FindsReplyQueue s.replyQueues
  | .route | .deliver _ | .deleteReplyQueue _ => True

instance : DecidableRel Found := fun s l =>
  match l with
  | .work i => inferInstanceAs (Decidable (∀ w ∈ s.workers[i]?, w.FindsReplyQueue s.replyQueues))
  | .route | .deliver _ | .deleteReplyQueue _ => isTrue trivial

/-- Some thread has left its consume loop. -/
def Left (s : State) : Prop := ∃ w ∈ s.workers, w.position.inLoop = false

/-- A worker is out of its loop if it was before, or if its reply queue is not found. -/
theorem Works.inLoop_eq_false {replyQueues : List String} {w : Worker} {e : Effect}
    (h : Works answer replyQueues w e) :
    e.worker.position.inLoop = false ↔
      w.position.inLoop = false ∨ ¬ w.FindsReplyQueue replyQueues := by
  cases h with
  | publish hq => simp [Position.inLoop, Worker.FindsReplyQueue, hq]
  | messageReturned hq => simp [Position.inLoop, Worker.FindsReplyQueue, hq]
  | _ => simp [Position.inLoop, Worker.FindsReplyQueue]

/-- A thread that left stays away. -/
theorem left_step (s : State) (l : Label) (s' : State) (hleft : Left s)
    (h : step (fun m => .ok (answer m)) l s = some s') : Left s' := by
  cases step_steps h with
  | route => exact hleft
  | deliver hq hw hc => exact exists_mem_set hw (fun hout => hout) hleft
  | work hw he =>
    exact exists_mem_set hw (fun hout => (work_works he).inLoop_eq_false.mpr (.inl hout)) hleft
  | deleteReplyQueue => exact hleft

/-- A response that does not find its reply queue takes its thread along. -/
theorem left_of_not_found (s : State) (l : Label) (s' : State)
    (h : step (fun m => .ok (answer m)) l s = some s') (hnot : ¬ Found s l) : Left s' := by
  cases step_steps h with
  | work hw he =>
    rename_i i w e
    have hmem : e.worker ∈ s.workers.set i e.worker :=
      List.mem_set (List.getElem?_eq_some_iff.mp hw).1 _
    refine ⟨e.worker, hmem, (work_works he).inLoop_eq_false.mpr (.inr ?_)⟩
    intro hfinds
    apply hnot
    intro w₁ hw₁
    obtain rfl : w = w₁ := Option.some.inj (hw.symm.trans hw₁)
    exact hfinds
  | _ => exact absurd trivial hnot

/-- A step whose reply queues are found leaves all workers in their loops. -/
theorem not_left_step (s : State) (l : Label) (s' : State) (hstay : ¬ Left s) (hok : Found s l)
    (h : step (fun m => .ok (answer m)) l s = some s') : ¬ Left s' := by
  have hall : ∀ w ∈ s.workers, w.position.inLoop ≠ false := fun w hw hout => hstay ⟨w, hw, hout⟩
  rintro ⟨w', hmem, hout⟩
  cases step_steps h with
  | route => exact hall w' hmem hout
  | deliver hq hw hc =>
    rename_i i w m rest
    exact forall_mem_set (q := ⟨w.position, w.channel ++ [m]⟩) hall
      (hall w (List.mem_of_getElem? hw)) w' hmem hout
  | work hw he =>
    refine forall_mem_set hall ?_ w' hmem hout
    intro hleft
    rcases (work_works he).inLoop_eq_false.mp hleft with hout' | hnot
    · exact hall _ (List.mem_of_getElem? hw) hout'
    · exact hnot (hok _ hw)
  | deleteReplyQueue => exact hall w' hmem hout

/-- `n` steps of the thread in a row. -/
def Worker.run (handleMessage : BasicMessage → Except Thrown String) (replyQueues : List String) :
    Nat → Worker → Option Worker
  | 0, w => some w
  | n + 1, w => (w.work handleMessage replyQueues).bind fun e =>
      Worker.run handleMessage replyQueues n e.worker

/-- The steps of one worker alone are a run of it. -/
theorem run_work_iff {s : State} (hsound : ∀ w ∈ s.workers, w.Sound answer) {i n : Nat}
    {w w' : Worker} (hw : s.workers[i]? = some w) :
    (∃ t, Run (step fun m => .ok (answer m)) Unrestricted s (List.replicate n (.work i)) t ∧
        t.workers[i]? = some w') ↔
      w.run (fun m => .ok (answer m)) s.replyQueues n = some w' := by
  induction n generalizing s w with
  | zero =>
    constructor
    · rintro ⟨t, hrun, ht⟩
      cases hrun
      exact hw.symm.trans ht
    · intro h
      cases h
      exact ⟨s, .nil s, hw⟩
  | succ n ih =>
    have hlt : i < s.workers.length := (List.getElem?_eq_some_iff.mp hw).1
    constructor
    · rintro ⟨t, hrun, ht⟩
      cases hrun with
      | cons _ hstep hrest =>
        have hsound' := sound_step hsound hstep
        cases step_steps hstep with
        | work hw₁ he =>
          obtain rfl := Option.some.inj (hw.symm.trans hw₁)
          rw [Worker.run, he]
          exact (ih hsound' (by simp [hlt])).mp ⟨t, hrest, ht⟩
    · intro h
      obtain ⟨e, he, hrest⟩ := Option.bind_eq_some_iff.mp h
      have hstep := step_of_steps (fun w hw => (hsound w hw).alive) (.work hw he)
      have hsound' := sound_step hsound hstep
      obtain ⟨t, hrun, ht⟩ := (ih hsound' (w := e.worker) (by simp [hlt])).mpr hrest
      exact ⟨t, .cons trivial hstep hrun, ht⟩

/-- Six steps lead from a consumed request back to waiting, unless its reply
queue does not exist. -/
theorem run_handleEnvelope (answer : BasicMessage → String) (replyQueues : List String)
    (env : BasicMessage) (channel : List BasicMessage) :
    (∃ w', Worker.run (fun m => .ok (answer m)) replyQueues 6 ⟨.handleEnvelope env, channel⟩ =
        some w' ∧ w'.position = .basicConsumeMessage) ↔ env.ReplyTo ∈ replyQueues := by
  by_cases hq : env.ReplyTo ∈ replyQueues
  · have hsent : ∀ body, basicPublish replyQueues (response env body) =
        .ok (response env body) := fun body => if_pos hq
    simp [Worker.run, Worker.work, hsent, hq]
  · have hsent : ∀ body, basicPublish replyQueues (response env body) =
        .error .runtimeError := fun body => if_neg hq
    simp [Worker.run, Worker.work, hsent, hq, caught]

end Loop

/-! ### The recognition server -/

section Recognition

variable {Mat : Type} (imdecode : Image → Except Thrown Mat)
  (count : Mat → Except Thrown CoinResult)

/-- The reply of `Main::handleMessage`, which lets no exception out. -/
def recognition (m : BasicMessage) : String := Main.handleMessage imdecode count m.body

/-- `RabbitRpcServer` with the `handleMessage` of `Main`. -/
def mainStep : Label → State → Option State :=
  step fun m => .ok (recognition imdecode count m)

/-- In every run whose steps are `Careful`, every request is handled at most
once and answered at most once, with its own reply; the run ends, and where it
ends every request was handled and every one that has a reply queue was
answered. -/
theorem run_accounted (requests : List BasicMessage) (replyQueues : List String)
    (threadCount : Nat) (hpos : 0 < threadCount) (ls : List Label) (s : State)
    (h : Run (mainStep imdecode count) Careful (runAndJoin requests replyQueues threadCount)
      ls s) :
    Accounted (recognition imdecode count) requests s ∧
      ls.length ≤ 9 * requests.length + 3 * threadCount + replyQueues.length ∧
      (Quiescent (mainStep imdecode count) s →
        s.handled.Perm requests ∧ s.answering = []) := by
  have hstart : Invariant (recognition imdecode count) requests
      (runAndJoin requests replyQueues threadCount) := invariant_runAndJoin hpos
  have hinv : Invariant (recognition imdecode count) requests s :=
    h.invariant invariant_step hstart
  have hlen := h.length_le invariant_step (fun _ _ _ _ _ hstep => potential_step hstep) hstart
  rw [potential_runAndJoin] at hlen
  refine ⟨hinv.accounted, by omega, ?_⟩
  intro hquiescent
  obtain ⟨hpending, hanswering⟩ := quiescent_done hinv hquiescent
  have hhandled := hinv.accounted.handled
  rw [hpending, List.append_nil] at hhandled
  exact ⟨hhandled, hanswering⟩

/-- Every thread that `runAndJoin` started is in its consume loop exactly in the
runs in which every response finds its reply queue; and handling one request
leads back to waiting for the next exactly when its reply queue exists. -/
theorem workers_in_loop_iff (requests : List BasicMessage) (replyQueues : List String)
    (threadCount : Nat) (ls : List Label) (s : State)
    (h : Run (mainStep imdecode count) Unrestricted
      (runAndJoin requests replyQueues threadCount) ls s) :
    ((∀ w ∈ s.workers, w.position.inLoop = true) ↔
        Run (mainStep imdecode count) Found (runAndJoin requests replyQueues threadCount) ls s) ∧
      ∀ i env channel, s.workers[i]? = some ⟨.handleEnvelope env, channel⟩ →
        ((∃ t w, Run (mainStep imdecode count) Unrestricted s (List.replicate 6 (.work i)) t ∧
            t.workers[i]? = some w ∧ w.position = .basicConsumeMessage) ↔
          env.ReplyTo ∈ s.replyQueues) := by
  have hstart : ∀ w ∈ (runAndJoin requests replyQueues threadCount).workers,
      w = ⟨.createChannel, []⟩ := fun w hw => List.eq_of_mem_replicate hw
  constructor
  · constructor
    · intro hall
      refine h.restrict left_of_not_found left_step ?_
      rintro ⟨w, hw, hout⟩
      rw [hall w hw] at hout
      cases hout
    · intro hfound w hw
      have hstay : ¬ Left s := by
        refine hfound.invariant not_left_step ?_
        rintro ⟨w, hw, hout⟩
        rw [hstart w hw] at hout
        cases hout
      cases hloop : w.position.inLoop with
      | true => rfl
      | false => exact absurd ⟨w, hw, hloop⟩ hstay
  · intro i env channel hw
    have hsound : ∀ w ∈ s.workers, w.Sound (recognition imdecode count) := by
      refine h.invariant (fun _ _ _ hinv _ hstep => sound_step hinv hstep) ?_
      intro w hw
      rw [hstart w hw]
      exact ⟨by simp, fun _ => rfl, by simp⟩
    rw [← run_handleEnvelope (recognition imdecode count) _ _ channel]
    constructor
    · rintro ⟨t, w, hrun, ht, hp⟩
      exact ⟨w, (run_work_iff hsound hw).mp ⟨t, hrun, ht⟩, hp⟩
    · rintro ⟨w, hrun, hp⟩
      obtain ⟨t, hrun, ht⟩ := (run_work_iff hsound hw).mpr hrun
      exact ⟨t, w, hrun, ht, hp⟩

end Recognition

section Witnesses

/-- Two requests of two callers, on a server that decodes nothing. -/
def undecodable : Image → Except Thrown Unit := fun _ => .error .exception

def uncounted : Unit → Except Thrown CoinResult := fun _ => .error .exception

def first : BasicMessage := ⟨[0xff], some "amq.gen-1", some "1"⟩

def second : BasicMessage := ⟨[0xfe], some "amq.gen-2", some "2"⟩

theorem run_accounted_one_request :
    ∃ s, Run (mainStep undecodable uncounted) Careful (runAndJoin [first] ["amq.gen-1"] 1)
        [.work 0, .work 0, .work 0, .route, .deliver 0, .work 0, .work 0, .work 0, .work 0,
          .work 0, .work 0, .work 0] s ∧
      s.published = [response first (recognition undecodable uncounted first)] ∧
      Accounted (recognition undecodable uncounted) [first] s := by
  obtain ⟨s, hs, hpublished⟩ : ∃ s, exec (mainStep undecodable uncounted) Careful
      [.work 0, .work 0, .work 0, .route, .deliver 0, .work 0, .work 0, .work 0, .work 0,
        .work 0, .work 0, .work 0] (runAndJoin [first] ["amq.gen-1"] 1) = some s ∧
      s.published = [response first (recognition undecodable uncounted first)] :=
    ⟨_, rfl, rfl⟩
  have hrun := exec_iff_run.mp hs
  exact ⟨s, hrun, hpublished, (run_accounted _ _ [first] ["amq.gen-1"] 1 (by decide) _ _ hrun).1⟩

/-- Both requests sit in the channel when the first is consumed; the second is
gone with the channel, while its caller waits at an existing reply queue. -/
theorem delivered_request_is_lost :
    ∃ s, Run (mainStep undecodable uncounted) Unrestricted
        (runAndJoin [first, second] ["amq.gen-1", "amq.gen-2"] 1)
        [.work 0, .work 0, .work 0, .route, .route, .deliver 0, .deliver 0, .work 0, .work 0,
          .work 0, .work 0, .work 0, .work 0, .work 0] s ∧
      Quiescent (mainStep undecodable uncounted) s ∧ s.handled = [first] ∧
      second.ReplyTo ∈ s.replyQueues ∧ ¬ s.handled.Perm [first, second] := by
  let s : State := {
    unrouted := []
    queue := []
    replyQueues := ["amq.gen-1", "amq.gen-2"]
    workers := [⟨.basicConsumeMessage, []⟩]
    handled := [first]
    published := [response first (recognition undecodable uncounted first)] }
  refine ⟨s, exec_iff_run.mp rfl, ?_, rfl, by decide, ?_⟩
  · intro l s' h
    cases step_steps h with
    | route hu => cases hu
    | deliver hq => cases hq
    | work hw he =>
      rename_i i w e
      cases i with
      | zero =>
        cases hw
        cases he
      | succ i => cases hw
    | deleteReplyQueue => exact ⟨_, rfl⟩
  · intro hperm
    have hlen := hperm.length_eq
    simp [s] at hlen

theorem workers_in_loop_of_undecodable_image :
    ∃ s, Run (mainStep undecodable uncounted) Unrestricted (runAndJoin [first] ["amq.gen-1"] 1)
        [.work 0, .work 0, .work 0, .route, .deliver 0, .work 0, .work 0, .work 0, .work 0] s ∧
      ∀ w ∈ s.workers, w.position.inLoop = true := by
  obtain ⟨s, hs⟩ : ∃ s, exec (mainStep undecodable uncounted) Found
      [.work 0, .work 0, .work 0, .route, .deliver 0, .work 0, .work 0, .work 0, .work 0]
      (runAndJoin [first] ["amq.gen-1"] 1) = some s := ⟨_, rfl⟩
  have hrun := exec_iff_run.mp hs
  exact ⟨s, hrun.unrestricted,
    (workers_in_loop_iff _ _ [first] ["amq.gen-1"] 1 _ _ hrun.unrestricted).1.mpr hrun⟩

/-- The caller gives up and its reply queue goes; the response comes back and
the only thread is over. -/
theorem returned_response_ends_worker :
    ∃ s, Run (mainStep undecodable uncounted) Unrestricted (runAndJoin [first] ["amq.gen-1"] 1)
        [.work 0, .work 0, .work 0, .route, .deliver 0, .work 0, .work 0,
          .deleteReplyQueue "amq.gen-1", .work 0, .work 0] s ∧
      s.workers = [⟨.returned, []⟩] ∧ ¬ ∀ w ∈ s.workers, w.position.inLoop = true :=
  ⟨_, exec_iff_run.mp rfl, rfl, by decide⟩

end Witnesses

end RabbitRpcServer

end Sogx
