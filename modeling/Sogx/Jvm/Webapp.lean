import Sogx.Jvm.RecogSessions
import Sogx.Lib.Bytes

/-!
`RecogController`, `RecogService` and the executors of `Webapp`: what becomes of
the frames that the WebSocket sessions send.

An accepted frame is one task of the `asyncExecutor`: it is decoded, sent as an
AMQP request, waits for the reply or gives up, and its response goes through
`RecogSessions.onCoinResponse`. Any number of tasks take their steps in any
order, next to the sockets that close. Every change of the map and every
broadcast is one step.

* `never_returns_iff`: a session that ended stays away from the store and from
  the broadcasts exactly when none of its frames was on its way as it ended.
* `stored_is_last`: the store holds the response that came last; it never goes
  back to an earlier frame exactly in the runs in which the responses of each
  session come in the order of their frames.
-/

namespace Sogx

open Sogx.Lib RecogSessions

abbrev ChunkData := List Byte

abbrev ImageData := List Byte

/-- A message of the recognition flow. -/
structure Message where
  payload : ChunkData
  correlationId : CorrelationId
  contentType : String
deriving DecidableEq, Repr

namespace RecogService

def sendWithContentType (contentType : String) (correlationId : CorrelationId)
    (chunk : ChunkData) : Message := ⟨chunk, correlationId, contentType⟩

def imageChunk (correlationId : CorrelationId) (chunk : ChunkData) : Message :=
  sendWithContentType "image/*" correlationId chunk

def mjpegChunk (correlationId : CorrelationId) (chunk : ChunkData) : Message :=
  sendWithContentType "video/mjpeg" correlationId chunk

end RecogService

/-- The two methods of `RecogController` that take WebSocket messages. -/
inductive RecogController where
  | image | mjpeg
deriving DecidableEq, Repr

def RecogController.message (mapping : RecogController) (sessionId : RecogSessionId)
    (body : ChunkData) : Message :=
  match mapping with
  | .image => RecogService.imageChunk ⟨sessionId.value⟩ body
  | .mjpeg => RecogService.mjpegChunk ⟨sessionId.value⟩ body

/-- `ChunkDecoder.decodeFrame`; another content type is a `MatchError`. -/
def ChunkDecoder.decodeFrame (m : Message) : Option (List ImageData) :=
  if m.contentType = "video/mjpeg" then some [m.payload]
  else if m.contentType = "image/*" then some [m.payload]
  else none

/-- Every accepted chunk is one frame. -/
theorem decodeFrame_message (mapping : RecogController) (sessionId : RecogSessionId)
    (body : ChunkData) : ChunkDecoder.decodeFrame (mapping.message sessionId body) = some [body] := by
  cases mapping with
  | image => rfl
  | mjpeg => rfl

namespace Webapp

/-- How far the frame of a task has come. -/
inductive Stage where
  | accepted
  | requested (frame : ImageData)
  | replied (coins : CoinResponse)
  /-- `sessions.put` is done, `sendSessions` is next. -/
  | stored (coins : CoinResponse)
  | answered (coins : CoinResponse)
  /-- No reply came within the reply timeout of the gateway. -/
  | gaveUp
deriving DecidableEq, Repr

structure Task where
  message : Message
  stage : Stage
deriving DecidableEq, Repr

/-- The key that `onCoinResponse` makes of the correlation id. -/
def Task.session (task : Task) : RecogSessionId := ⟨task.message.correlationId.value⟩

/-- A WebSocket session. `afterConnectionClosed` calls `sessionEnded`, whose two
steps lead from `closed` to `ended`. -/
inductive Socket where
  | connected | closed | removed | ended
deriving DecidableEq, Repr

/-- One `sessions.put`: the index of its task and the response. -/
structure Put where
  frame : Nat
  session : RecogSessionId
  coins : CoinResponse
deriving DecidableEq, Repr

structure State where
  /-- In the order in which the frames were accepted. -/
  tasks : List Task
  socket : RecogSessionId → Socket
  sessions : Sessions
  /-- The store as each broadcast sent it, oldest first. -/
  topic : List Sessions
  puts : List Put

inductive Label where
  | accept (sessionId : RecogSessionId) (mapping : RecogController) (body : ChunkData)
  | request (i : Nat)
  | reply (i : Nat) (coins : CoinResponse)
  | timeout (i : Nat)
  | put (i : Nat)
  | broadcast (i : Nat)
  | close (sessionId : RecogSessionId)
  | remove (sessionId : RecogSessionId)
  | broadcastEnded (sessionId : RecogSessionId)
deriving DecidableEq, Repr

def start : State where
  tasks := []
  socket := fun _ => .connected
  sessions := ∅
  topic := []
  puts := []

def State.setStage (s : State) (i : Nat) (task : Task) (stage : Stage) : State :=
  { s with tasks := s.tasks.set i ⟨task.message, stage⟩ }

def step : Label → State → Option State
  | .accept sessionId mapping body, s =>
    if s.socket sessionId = .connected then
      some { s with tasks := s.tasks ++ [⟨mapping.message sessionId body, .accepted⟩] }
    else none
  | .request i, s => do
    let task ← s.tasks[i]?
    match task.stage, ChunkDecoder.decodeFrame task.message with
    | .accepted, some [frame] => return s.setStage i task (.requested frame)
    | _, _ => none
  | .reply i coins, s => do
    let task ← s.tasks[i]?
    match task.stage with
    | .requested _ => return s.setStage i task (.replied coins)
    | _ => none
  | .timeout i, s => do
    let task ← s.tasks[i]?
    match task.stage with
    | .requested _ => return s.setStage i task .gaveUp
    | _ => none
  | .put i, s => do
    let task ← s.tasks[i]?
    match task.stage with
    | .replied coins => return { s.setStage i task (.stored coins) with
        sessions := (Call.onCoinResponse task.message.correlationId coins).change s.sessions
        puts := s.puts ++ [⟨i, task.session, coins⟩] }
    | _ => none
  | .broadcast i, s => do
    let task ← s.tasks[i]?
    match task.stage with
    | .stored coins => return { s.setStage i task (.answered coins) with
        topic := s.topic ++ [s.sessions] }
    | _ => none
  | .close sessionId, s =>
    if s.socket sessionId = .connected then
      some { s with socket := Function.update s.socket sessionId .closed }
    else none
  | .remove sessionId, s =>
    if s.socket sessionId = .closed then
      some { s with
        socket := Function.update s.socket sessionId .removed
        sessions := (Call.sessionEnded sessionId).change s.sessions }
    else none
  | .broadcastEnded sessionId, s =>
    if s.socket sessionId = .removed then
      some { s with
        socket := Function.update s.socket sessionId .ended
        topic := s.topic ++ [s.sessions] }
    else none

/-! ### What a step can do -/

/-- The frame can still get a response. -/
def Stage.onItsWay : Stage → Bool
  | .accepted | .requested _ | .replied _ => true
  | .stored _ | .answered _ | .gaveUp => false

/-- The response that the store was given for the frame. -/
def Stage.response : Stage → Option CoinResponse
  | .stored coins | .answered coins => some coins
  | .accepted | .requested _ | .replied _ | .gaveUp => none

/-- The task whose thread takes a step between accepting a frame and `put`. -/
def Label.pipeline : Label → Option Nat
  | .request i | .reply i _ | .timeout i => some i
  | _ => none

/-- The steps; what happens to a frame before its `put` is one constructor. -/
inductive Steps (s : State) : Label → State → Prop where
  | accept {sessionId : RecogSessionId} {mapping : RecogController} {body : ChunkData} :
      s.socket sessionId = .connected →
      Steps s (.accept sessionId mapping body)
        { s with tasks := s.tasks ++ [⟨mapping.message sessionId body, .accepted⟩] }
  | pipeline {l : Label} {i : Nat} {task : Task} {stage : Stage} :
      l.pipeline = some i → s.tasks[i]? = some task → task.stage.onItsWay = true →
      stage.response = none → Steps s l (s.setStage i task stage)
  | put {i : Nat} {task : Task} {coins : CoinResponse} :
      s.tasks[i]? = some task → task.stage = .replied coins →
      Steps s (.put i) { s.setStage i task (.stored coins) with
        sessions := (Call.onCoinResponse task.message.correlationId coins).change s.sessions
        puts := s.puts ++ [⟨i, task.session, coins⟩] }
  | broadcast {i : Nat} {task : Task} {coins : CoinResponse} :
      s.tasks[i]? = some task → task.stage = .stored coins →
      Steps s (.broadcast i) { s.setStage i task (.answered coins) with
        topic := s.topic ++ [s.sessions] }
  | close {sessionId : RecogSessionId} :
      s.socket sessionId = .connected →
      Steps s (.close sessionId) { s with socket := Function.update s.socket sessionId .closed }
  | remove {sessionId : RecogSessionId} :
      s.socket sessionId = .closed →
      Steps s (.remove sessionId) { s with
        socket := Function.update s.socket sessionId .removed
        sessions := (Call.sessionEnded sessionId).change s.sessions }
  | broadcastEnded {sessionId : RecogSessionId} :
      s.socket sessionId = .removed →
      Steps s (.broadcastEnded sessionId) { s with
        socket := Function.update s.socket sessionId .ended
        topic := s.topic ++ [s.sessions] }

/-- What a step can do, with all its conditions. -/
theorem step_steps {s s' : State} {l : Label} (h : step l s = some s') : Steps s l s' := by
  cases l with
  | accept sessionId mapping body =>
    simp only [step] at h
    split at h
    · rename_i hopen
      cases h
      exact .accept hopen
    · cases h
  | request i =>
    obtain ⟨task, htask, h⟩ := Option.bind_eq_some_iff.mp h
    split at h
    · rename_i hstage _
      cases h
      exact .pipeline rfl htask (by rw [hstage]; rfl) rfl
    · cases h
  | reply i coins =>
    obtain ⟨task, htask, h⟩ := Option.bind_eq_some_iff.mp h
    split at h
    · rename_i hstage
      cases h
      exact .pipeline rfl htask (by rw [hstage]; rfl) rfl
    · cases h
  | timeout i =>
    obtain ⟨task, htask, h⟩ := Option.bind_eq_some_iff.mp h
    split at h
    · rename_i hstage
      cases h
      exact .pipeline rfl htask (by rw [hstage]; rfl) rfl
    · cases h
  | put i =>
    obtain ⟨task, htask, h⟩ := Option.bind_eq_some_iff.mp h
    simp only at h
    split at h
    · rename_i hstage
      cases h
      exact .put htask hstage
    · cases h
  | broadcast i =>
    obtain ⟨task, htask, h⟩ := Option.bind_eq_some_iff.mp h
    simp only at h
    split at h
    · rename_i hstage
      cases h
      exact .broadcast htask hstage
    · cases h
  | close sessionId =>
    simp only [step] at h
    split at h
    · rename_i hopen
      cases h
      exact .close hopen
    · cases h
  | remove sessionId =>
    simp only [step] at h
    split at h
    · rename_i hclosed
      cases h
      exact .remove hclosed
    · cases h
  | broadcastEnded sessionId =>
    simp only [step] at h
    split at h
    · rename_i hremoved
      cases h
      exact .broadcastEnded hremoved
    · cases h

/-! ### Ended sessions -/

/-- `sessionEnded` removed the session and nothing is left to bring it back. -/
structure Gone (sessionId : RecogSessionId) (s : State) : Prop where
  ended : s.socket sessionId = .removed ∨ s.socket sessionId = .ended
  absent : sessionId ∉ s.sessions
  settled : ∀ task ∈ s.tasks, task.session = sessionId → task.stage.onItsWay = false

/-- A session with another socket is another session. -/
theorem Gone.ne {sessionId other : RecogSessionId} {s : State} (h : Gone sessionId s)
    (hsocket : s.socket other ≠ .removed ∧ s.socket other ≠ .ended) : other ≠ sessionId := by
  rintro rfl
  rcases h.ended with hremoved | hended
  · exact hsocket.1 hremoved
  · exact hsocket.2 hended

/-- A step keeps a session gone, and does not name it. -/
theorem gone_step {sessionId : RecogSessionId} {s s' : State} {l : Label}
    (hgone : Gone sessionId s) (h : step l s = some s') :
    Gone sessionId s' ∧ ∃ later, s'.topic = s.topic ++ later ∧ ∀ m ∈ later, sessionId ∉ m := by
  have hover := hgone.ended
  have habsent := hgone.absent
  have hsettled := hgone.settled
  cases step_steps h with
  | accept hopen =>
    rename_i other mapping body
    have hne : other ≠ sessionId := hgone.ne (by rw [hopen]; exact ⟨nofun, nofun⟩)
    refine ⟨⟨hover, habsent, ?_⟩, [], by simp, by simp⟩
    intro task hmem hsession
    rcases List.mem_append.mp hmem with hold | hnew
    · exact hsettled task hold hsession
    · rw [List.mem_singleton.mp hnew] at hsession
      refine absurd ?_ hne
      rw [← hsession]
      cases mapping <;> rfl
  | pipeline hl htask hway hstage =>
    rename_i i task stage
    refine ⟨⟨hover, habsent, ?_⟩, [], by simp [State.setStage], by simp⟩
    refine forall_mem_set hsettled ?_
    intro hsession
    have hno := hsettled task (List.mem_of_getElem? htask) hsession
    rw [hway] at hno
    cases hno
  | put htask hstage =>
    rename_i i task coins
    have hne : sessionId ≠ task.session := by
      rintro rfl
      have hno := hsettled task (List.mem_of_getElem? htask) rfl
      rw [hstage] at hno
      cases hno
    refine ⟨⟨hover, ?_, forall_mem_set hsettled fun _ => rfl⟩, [], by simp [State.setStage],
      by simp⟩
    intro hmem
    rcases (AList.mem_insert _).mp hmem with heq | hmem
    · exact hne heq
    · exact habsent hmem
  | broadcast htask hstage =>
    exact ⟨⟨hover, habsent, forall_mem_set hsettled fun _ => rfl⟩, [s.sessions], rfl, by simpa⟩
  | close hopen =>
    rename_i other
    have hne : sessionId ≠ other := (hgone.ne (by rw [hopen]; exact ⟨nofun, nofun⟩)).symm
    refine ⟨⟨?_, habsent, hsettled⟩, [], by simp, by simp⟩
    simpa [Function.update_of_ne hne] using hover
  | remove hclosed =>
    rename_i other
    have hne : sessionId ≠ other := (hgone.ne (by rw [hclosed]; exact ⟨nofun, nofun⟩)).symm
    refine ⟨⟨?_, ?_, hsettled⟩, [], by simp, by simp⟩
    · simpa [Function.update_of_ne hne] using hover
    · intro hmem
      exact habsent (AList.mem_erase.mp hmem).2
  | broadcastEnded hremoved =>
    rename_i other
    refine ⟨⟨?_, habsent, hsettled⟩, [s.sessions], rfl, by simpa⟩
    by_cases heq : sessionId = other
    · subst heq
      exact .inr (by simp)
    · simpa [Function.update_of_ne heq] using hover

/-- A run keeps a session gone, and does not name it. -/
theorem gone_run {sessionId : RecogSessionId} {s t : State} {ls : List Label}
    (h : Run step Unrestricted s ls t) (hgone : Gone sessionId s) :
    sessionId ∉ t.sessions ∧ ∃ later, t.topic = s.topic ++ later ∧ ∀ m ∈ later, sessionId ∉ m := by
  induction h with
  | nil s => exact ⟨hgone.absent, [], by simp, by simp⟩
  | cons _ hstep _ ih =>
    obtain ⟨hgone', first, hfirst, hall⟩ := gone_step hgone hstep
    obtain ⟨habsent, rest, hrest, hall'⟩ := ih hgone'
    refine ⟨habsent, first ++ rest, ?_, ?_⟩
    · rw [hrest, hfirst, List.append_assoc]
    · intro m hm
      rcases List.mem_append.mp hm with hm | hm
      · exact hall m hm
      · exact hall' m hm

/-- Every task was made by `RecogController`. -/
theorem decodes_step (s : State) (l : Label) (s' : State)
    (hall : ∀ task ∈ s.tasks, ∃ frame, ChunkDecoder.decodeFrame task.message = some [frame])
    (h : step l s = some s') :
    ∀ task ∈ s'.tasks, ∃ frame, ChunkDecoder.decodeFrame task.message = some [frame] := by
  cases step_steps h with
  | accept hopen =>
    rename_i sessionId mapping body
    intro task hmem
    rcases List.mem_append.mp hmem with hold | hnew
    · exact hall task hold
    · rw [List.mem_singleton.mp hnew]
      exact ⟨body, decodeFrame_message mapping sessionId body⟩
  | pipeline _ htask =>
    have hold := hall _ (List.mem_of_getElem? htask)
    exact forall_mem_set hall hold
  | put htask =>
    have hold := hall _ (List.mem_of_getElem? htask)
    exact forall_mem_set hall hold
  | broadcast htask =>
    have hold := hall _ (List.mem_of_getElem? htask)
    exact forall_mem_set hall hold
  | close => exact hall
  | remove => exact hall
  | broadcastEnded => exact hall

section ComesBack

variable {s : State} {i : Nat} {task : Task}

theorem getElem?_setStage (h : s.tasks[i]? = some task) (stage : Stage) :
    (s.setStage i task stage).tasks[i]? = some ⟨task.message, stage⟩ := by
  have hlt : i < s.tasks.length := (List.getElem?_eq_some_iff.mp h).1
  simp [State.setStage, hlt]

/-- The last steps of a frame up to its `put`, from wherever it is. -/
theorem comes_back_of_replied {coins : CoinResponse} (htask : s.tasks[i]? = some task)
    (hstage : task.stage = .replied coins) :
    ∃ ls t, Run step Unrestricted s ls t ∧ task.session ∈ t.sessions := by
  refine ⟨[.put i], _, .single trivial (by simp [step, htask, hstage]; rfl), ?_⟩
  exact (AList.mem_insert _).mpr (.inl rfl)

/-- A session whose frame waits for the reply can come back. -/
theorem comes_back_of_requested {frame : ImageData} (htask : s.tasks[i]? = some task)
    (hstage : task.stage = .requested frame) :
    ∃ ls t, Run step Unrestricted s ls t ∧ task.session ∈ t.sessions := by
  have hstep : step (.reply i "") s = some (s.setStage i task (.replied "")) := by
    simp [step, htask, hstage]
  obtain ⟨ls, t, hrun, hmem⟩ := comes_back_of_replied (getElem?_setStage htask (.replied "")) rfl
  exact ⟨_, t, .cons trivial hstep hrun, hmem⟩

theorem comes_back_of_accepted {frame : ImageData} (htask : s.tasks[i]? = some task)
    (hstage : task.stage = .accepted)
    (hframe : ChunkDecoder.decodeFrame task.message = some [frame]) :
    ∃ ls t, Run step Unrestricted s ls t ∧ task.session ∈ t.sessions := by
  have hstep : step (.request i) s = some (s.setStage i task (.requested frame)) := by
    simp [step, htask, hstage, hframe]
  obtain ⟨ls, t, hrun, hmem⟩ :=
    comes_back_of_requested (getElem?_setStage htask (.requested frame)) rfl
  exact ⟨_, t, .cons trivial hstep hrun, hmem⟩

/-- A frame that is on its way can bring its session into the store. -/
theorem comes_back (htask : s.tasks[i]? = some task) (hway : task.stage.onItsWay = true)
    (hdecodes : ∃ frame, ChunkDecoder.decodeFrame task.message = some [frame]) :
    ∃ ls t, Run step Unrestricted s ls t ∧ task.session ∈ t.sessions := by
  obtain ⟨frame, hframe⟩ := hdecodes
  cases hstage : task.stage with
  | accepted => exact comes_back_of_accepted htask hstage hframe
  | requested frame => exact comes_back_of_requested htask hstage
  | replied coins => exact comes_back_of_replied htask hstage
  | stored coins => rw [hstage] at hway; cases hway
  | answered coins => rw [hstage] at hway; cases hway
  | gaveUp => rw [hstage] at hway; cases hway

end ComesBack

/-- After `sessionEnded` removed a session, the session is in no later state of
the store and in no later broadcast if and only if none of its frames was still
on its way to `onCoinResponse` at that moment. -/
theorem never_returns_iff (sessionId : RecogSessionId) (ls : List Label) (s s' : State)
    (h : Run step Unrestricted start ls s) (hended : step (.remove sessionId) s = some s') :
    (∀ ms t, Run step Unrestricted s' ms t →
      sessionId ∉ t.sessions ∧
        ∃ later, t.topic = s'.topic ++ later ∧ ∀ m ∈ later, sessionId ∉ m) ↔
      ∀ task ∈ s.tasks, task.session = sessionId → task.stage.onItsWay = false := by
  cases step_steps hended with
  | pipeline hl => cases hl
  | remove hclosed =>
    constructor
    · intro hnever task hmem hsession
      cases hway : task.stage.onItsWay with
      | false => rfl
      | true =>
        obtain ⟨i, hi⟩ := List.getElem?_of_mem hmem
        have hdecodes := h.invariant (fun s l s' hall _ hstep => decodes_step s l s' hall hstep)
          (fun task hmem => absurd hmem List.not_mem_nil) task hmem
        obtain ⟨ms, t, hrun, hback⟩ := comes_back (s := { s with
          socket := Function.update s.socket sessionId .removed
          sessions := (Call.sessionEnded sessionId).change s.sessions }) hi hway hdecodes
        rw [hsession] at hback
        exact absurd hback (hnever ms t hrun).1
    · intro hsettled ms t hrun
      refine gone_run hrun ⟨.inl ?_, ?_, hsettled⟩
      · simp
      · intro hmem
        exact (AList.mem_erase.mp hmem).1 rfl

/-! ### The order of the responses -/

/-- The response that was put last for the session. -/
def State.lastPut (s : State) (sessionId : RecogSessionId) : Option CoinResponse :=
  (s.puts.reverse.find? (·.session = sessionId)).map (·.coins)

/-- `sessionEnded` has not removed the session. -/
def Socket.live : Socket → Bool
  | .connected | .closed => true
  | .removed | .ended => false

/-- No response was put behind the response to a later frame of its session. -/
def Forward (s : State) : Prop :=
  s.puts.Pairwise fun p q => p.session = q.session → p.frame < q.frame

/-- A response is put only while no later frame of its session has been. -/
def InOrder (s : State) : Label → Prop
  | .put i => ∀ task ∈ s.tasks[i]?, ∀ p ∈ s.puts, p.session = task.session → p.frame < i
  | _ => True

instance : DecidableRel InOrder := fun s l =>
  match l with
  | .put i => inferInstanceAs (Decidable
      (∀ task ∈ s.tasks[i]?, ∀ p ∈ s.puts, p.session = task.session → p.frame < i))
  | .accept .. | .request _ | .reply .. | .timeout _ | .broadcast _ | .close _ | .remove _
  | .broadcastEnded _ => isTrue trivial

/-- A frame is accepted only when no other frame of its session is on its way. -/
def OneAtATime (s : State) : Label → Prop
  | .accept sessionId _ _ =>
    ∀ task ∈ s.tasks, task.session = sessionId → task.stage.onItsWay = false
  | _ => True

theorem lastPut_concat (s : State) (p : Put) (sessionId : RecogSessionId) :
    State.lastPut { s with puts := s.puts ++ [p] } sessionId =
      if p.session = sessionId then some p.coins else s.lastPut sessionId := by
  simp only [State.lastPut, List.reverse_append, List.reverse_singleton, List.singleton_append,
    List.find?_cons]
  by_cases heq : p.session = sessionId
  · simp [heq]
  · simp [heq]

/-- Whatever the order, the store holds the last response of a live session. -/
def LastPut (s : State) : Prop :=
  ∀ sessionId, (s.socket sessionId).live = true →
    s.sessions.lookup sessionId = s.lastPut sessionId

/-- A step keeps the last response of each session in the store. -/
theorem lastPut_step (s : State) (l : Label) (s' : State) (hlast : LastPut s)
    (h : step l s = some s') : LastPut s' := by
  intro sessionId hlive
  cases step_steps h with
  | accept => exact hlast sessionId hlive
  | pipeline => exact hlast sessionId hlive
  | put htask hstage =>
    rename_i i task coins
    have hputs := lastPut_concat s ⟨i, task.session, coins⟩ sessionId
    refine Eq.trans ?_ hputs.symm
    by_cases heq : task.session = sessionId
    · subst heq
      rw [if_pos rfl]
      exact AList.lookup_insert _
    · rw [if_neg heq]
      exact (AList.lookup_insert_ne (Ne.symm heq)).trans (hlast sessionId hlive)
  | broadcast => exact hlast sessionId hlive
  | close hopen =>
    rename_i other
    refine hlast sessionId ?_
    by_cases heq : sessionId = other
    · rw [heq, hopen]
      rfl
    · simpa [Function.update_of_ne heq] using hlive
  | remove hclosed =>
    rename_i other
    by_cases heq : sessionId = other
    · subst heq
      simp [Socket.live] at hlive
    · have hlive' : (s.socket sessionId).live = true := by
        simpa [Function.update_of_ne heq] using hlive
      exact (AList.lookup_erase_ne heq).trans (hlast sessionId hlive')
  | broadcastEnded hremoved =>
    rename_i other
    by_cases heq : sessionId = other
    · subst heq
      simp [Socket.live] at hlive
    · refine hlast sessionId ?_
      simpa [Function.update_of_ne heq] using hlive

/-- A step that puts responses in order only goes forward. -/
theorem forward_step (s : State) (l : Label) (s' : State) (hforward : Forward s)
    (hok : InOrder s l) (h : step l s = some s') : Forward s' := by
  cases step_steps h with
  | put htask hstage =>
    rename_i i task coins
    refine List.pairwise_append.mpr ⟨hforward, List.pairwise_singleton _ _, ?_⟩
    intro p hp q hq hsession
    obtain rfl := List.mem_singleton.mp hq
    exact hok task htask p hp hsession
  | _ => exact hforward

/-- A response put out of order stays in the history. -/
theorem not_forward_step (s : State) (l : Label) (s' : State) (hnot : ¬ Forward s)
    (h : step l s = some s') : ¬ Forward s' := by
  cases step_steps h with
  | put htask hstage => exact fun hforward => hnot (List.pairwise_append.mp hforward).1
  | _ => exact hnot

/-- A step that puts an older response goes back. -/
theorem not_forward_of_not_inOrder (s : State) (l : Label) (s' : State)
    (h : step l s = some s') (hnot : ¬ InOrder s l) : ¬ Forward s' := by
  intro hforward
  cases step_steps h with
  | pipeline hl =>
    cases l with
    | put => cases hl
    | _ => exact hnot trivial
  | put htask hstage =>
    rename_i i task coins
    apply hnot
    intro task' htask' p hp hsession
    obtain rfl := Option.some.inj (htask.symm.trans htask')
    exact (List.pairwise_append.mp hforward).2.2 p hp _ (List.mem_singleton.mpr rfl) hsession
  | _ => exact hnot trivial

/-- The history and the tasks tell of the same responses. -/
structure Recorded (s : State) : Prop where
  ofPut : ∀ p ∈ s.puts, ∃ task, s.tasks[p.frame]? = some task ∧ task.session = p.session ∧
    task.stage.response = some p.coins
  ofTask : ∀ i task coins, s.tasks[i]? = some task → task.stage.response = some coins →
    ⟨i, task.session, coins⟩ ∈ s.puts

theorem response_eq_none_of_onItsWay {stage : Stage} (h : stage.onItsWay = true) :
    stage.response = none := by
  cases stage with
  | stored => cases h
  | answered => cases h
  | _ => rfl

/-- Every task but the `i`-th is as it was. -/
theorem getElem?_setStage_cases {s : State} {i j : Nat} {task task' : Task} {stage : Stage}
    (h : (s.setStage i task stage).tasks[j]? = some task') :
    (j = i ∧ task' = ⟨task.message, stage⟩) ∨ (j ≠ i ∧ s.tasks[j]? = some task') := by
  by_cases hji : j = i
  · subst hji
    left
    have hlt : j < s.tasks.length := by
      have hlt := (List.getElem?_eq_some_iff.mp h).1
      simpa [State.setStage] using hlt
    simp only [State.setStage, List.getElem?_set_self hlt, Option.some.injEq] at h
    exact ⟨rfl, h.symm⟩
  · right
    simp only [State.setStage, List.getElem?_set_ne (Ne.symm hji)] at h
    exact ⟨hji, h⟩

theorem getElem?_setStage_ne {s : State} {i j : Nat} (h : j ≠ i) (task : Task) (stage : Stage) :
    (s.setStage i task stage).tasks[j]? = s.tasks[j]? := by
  simp only [State.setStage, List.getElem?_set_ne h.symm]

/-- A task without a response put nothing, so its step leaves the tasks of what was put. -/
theorem Recorded.kept {s : State} (hrec : Recorded s) {i : Nat} {task : Task}
    (htask : s.tasks[i]? = some task) (hnone : task.stage.response = none) (stage : Stage)
    {p : Put} (hp : p ∈ s.puts) :
    ∃ task', (s.setStage i task stage).tasks[p.frame]? = some task' ∧ task'.session = p.session ∧
      task'.stage.response = some p.coins := by
  obtain ⟨task', htask', hsession, hcoins⟩ := hrec.ofPut p hp
  have hne : p.frame ≠ i := by
    intro heq
    rw [heq] at htask'
    obtain rfl := Option.some.inj (htask.symm.trans htask')
    rw [hnone] at hcoins
    cases hcoins
  exact ⟨task', (getElem?_setStage_ne hne task stage).trans htask', hsession, hcoins⟩

/-- A step keeps the account of what was put. -/
theorem recorded_step (s : State) (l : Label) (s' : State) (hrec : Recorded s)
    (h : step l s = some s') : Recorded s' := by
  cases step_steps h with
  | accept hopen =>
    rename_i sessionId mapping body
    constructor
    · intro p hp
      obtain ⟨task, htask, hsame⟩ := hrec.ofPut p hp
      have hlt := (List.getElem?_eq_some_iff.mp htask).1
      exact ⟨task, (List.getElem?_append_left hlt).trans htask, hsame⟩
    · intro i task coins htask hcoins
      rcases Nat.lt_or_ge i s.tasks.length with hlt | hge
      · exact hrec.ofTask i task coins ((List.getElem?_append_left hlt).symm.trans htask) hcoins
      · have hmem := List.mem_of_getElem? ((List.getElem?_append_right hge).symm.trans htask)
        rw [List.mem_singleton.mp hmem] at hcoins
        cases hcoins
  | pipeline hl htask hway hstage =>
    rename_i i task stage
    have hnone := response_eq_none_of_onItsWay hway
    constructor
    · exact fun p hp => hrec.kept htask hnone stage hp
    · intro j task' coins htask' hcoins
      rcases getElem?_setStage_cases htask' with ⟨-, rfl⟩ | ⟨-, hold⟩
      · rw [hstage] at hcoins
        cases hcoins
      · exact hrec.ofTask j task' coins hold hcoins
  | put htask hstage =>
    rename_i i task coins
    have hnone : task.stage.response = none := by
      rw [hstage]
      rfl
    constructor
    · intro p hp
      rcases List.mem_append.mp hp with hold | hnew
      · exact hrec.kept htask hnone _ hold
      · rw [List.mem_singleton.mp hnew]
        exact ⟨_, getElem?_setStage htask (.stored coins), rfl, rfl⟩
    · intro j task' coins' htask' hcoins'
      rcases getElem?_setStage_cases htask' with ⟨rfl, rfl⟩ | ⟨-, hold⟩
      · obtain rfl := Option.some.inj hcoins'
        exact List.mem_append_right _ (List.mem_singleton.mpr rfl)
      · exact List.mem_append_left _ (hrec.ofTask j task' coins' hold hcoins')
  | broadcast htask hstage =>
    rename_i i task coins
    constructor
    · intro p hp
      obtain ⟨task', htask', hsession, hcoins⟩ := hrec.ofPut p hp
      by_cases heq : p.frame = i
      · rw [heq] at htask' ⊢
        obtain rfl := Option.some.inj (htask.symm.trans htask')
        rw [hstage] at hcoins
        exact ⟨_, getElem?_setStage htask (.answered coins), hsession, hcoins⟩
      · exact ⟨task', (getElem?_setStage_ne heq task _).trans htask', hsession, hcoins⟩
    · intro j task' coins' htask' hcoins'
      rcases getElem?_setStage_cases htask' with ⟨rfl, rfl⟩ | ⟨-, hold⟩
      · have hold : task.stage.response = some coins' := by
          rw [hstage]
          exact hcoins'
        exact hrec.ofTask j task coins' htask hold
      · exact hrec.ofTask j task' coins' hold hcoins'
  | close => exact ⟨hrec.ofPut, hrec.ofTask⟩
  | remove => exact ⟨hrec.ofPut, hrec.ofTask⟩
  | broadcastEnded => exact ⟨hrec.ofPut, hrec.ofTask⟩

/-- With the responses in order, the last one is that of the latest frame. -/
theorem lastPut_of_forward {s : State} (hforward : Forward s) (hrec : Recorded s) {i : Nat}
    {task : Task} {coins : CoinResponse} (htask : s.tasks[i]? = some task)
    (hcoins : task.stage.response = some coins)
    (hlatest : ∀ j task', i < j → s.tasks[j]? = some task' → task'.session = task.session →
      task'.stage.response = none) : s.lastPut task.session = some coins := by
  have hmem := hrec.ofTask i task coins htask hcoins
  cases hfind : s.puts.reverse.find? (·.session = task.session) with
  | none =>
    have hno := List.find?_eq_none.mp hfind _ (List.mem_reverse.mpr hmem)
    exact absurd (decide_eq_true rfl) hno
  | some q =>
    obtain ⟨hq, after, before, hsplit, hafter⟩ := List.find?_eq_some_iff_append.mp hfind
    have hsession : q.session = task.session := of_decide_eq_true hq
    have hputs : s.puts = before.reverse ++ q :: after.reverse := by
      have hback := congrArg List.reverse hsplit
      simpa using hback
    have hqmem : q ∈ s.puts := by simp [hputs]
    rw [hputs] at hmem
    rcases List.mem_append.mp hmem with hbefore | hrest
    · -- a later put belongs to a later frame, which then has a response
      have hlt : i < q.frame := by
        have hpair := hforward
        rw [Forward, hputs] at hpair
        exact (List.pairwise_append.mp hpair).2.2 _ hbefore q (by simp) hsession.symm
      obtain ⟨task', htask', hsession', hcoins'⟩ := hrec.ofPut q hqmem
      rw [hlatest q.frame task' hlt htask' (hsession'.trans hsession)] at hcoins'
      cases hcoins'
    · rcases List.mem_cons.mp hrest with rfl | hafter'
      · rw [State.lastPut, hfind]
        rfl
      · have hno := hafter _ (List.mem_reverse.mp hafter')
        simp at hno

/-- No frame is on its way in front of another one of its session. -/
def Alone (s : State) : Prop :=
  ∀ (i j : Nat) (task task' : Task), i < j → s.tasks[i]? = some task →
    s.tasks[j]? = some task' → task.session = task'.session → task.stage.onItsWay = false

theorem alone_setStage {s : State} {i : Nat} {task : Task} {stage : Stage} (halone : Alone s)
    (htask : s.tasks[i]? = some task)
    (hstage : task.stage.onItsWay = true ∨ stage.onItsWay = false) :
    Alone (s.setStage i task stage) := by
  intro j k task₁ task₂ hlt h₁ h₂ hsession
  rcases getElem?_setStage_cases h₁ with ⟨rfl, rfl⟩ | ⟨hj, hold₁⟩
  · rcases getElem?_setStage_cases h₂ with ⟨rfl, -⟩ | ⟨-, hold₂⟩
    · exact absurd hlt (Nat.lt_irrefl _)
    · have hsettled := halone j k task task₂ hlt htask hold₂ hsession
      rcases hstage with hway | hway
      · rw [hsettled] at hway
        cases hway
      · exact hway
  · rcases getElem?_setStage_cases h₂ with ⟨rfl, rfl⟩ | ⟨-, hold₂⟩
    · exact halone j k task₁ task hlt hold₁ htask hsession
    · exact halone j k task₁ task₂ hlt hold₁ hold₂ hsession

/-- A step that takes one message at a time puts no frame on its way in front of another one of
its session. -/
theorem alone_step (s : State) (l : Label) (s' : State) (halone : Alone s)
    (hok : OneAtATime s l) (h : step l s = some s') : Alone s' := by
  cases step_steps h with
  | accept hopen =>
    rename_i sessionId mapping body
    intro i j task task' hlt h₁ h₂ hsession
    have hlen := (List.getElem?_eq_some_iff.mp h₂).1
    rw [List.length_append, List.length_singleton] at hlen
    have h₁' : s.tasks[i]? = some task :=
      (List.getElem?_append_left (by omega)).symm.trans h₁
    rcases Nat.lt_or_ge j s.tasks.length with hj | hj
    · exact halone i j task task' hlt h₁' ((List.getElem?_append_left hj).symm.trans h₂) hsession
    · have hmem := List.mem_of_getElem? ((List.getElem?_append_right hj).symm.trans h₂)
      refine hok task (List.mem_of_getElem? h₁') (hsession.trans ?_)
      rw [List.mem_singleton.mp hmem]
      cases mapping <;> rfl
  | pipeline hl htask hway hstage => exact alone_setStage halone htask (.inl hway)
  | put htask hstage => exact alone_setStage halone htask (.inr rfl)
  | broadcast htask hstage => exact alone_setStage halone htask (.inr rfl)
  | close => exact halone
  | remove => exact halone
  | broadcastEnded => exact halone

/-- Sending one frame at a time keeps the responses in order. -/
theorem inOrder_of_alone (s : State) (l : Label) (s' : State) (halone : Alone s)
    (hrec : Recorded s) (h : step l s = some s') : InOrder s l := by
  cases step_steps h with
  | pipeline hl =>
    cases l with
    | put => cases hl
    | _ => trivial
  | put htask hstage =>
    rename_i i task coins
    intro task₁ htask₁ p hp hsession
    obtain rfl := Option.some.inj (htask.symm.trans htask₁)
    obtain ⟨task', htask', hsession', hcoins⟩ := hrec.ofPut p hp
    rcases Nat.lt_trichotomy p.frame i with hlt | heq | hgt
    · exact hlt
    · rw [heq] at htask'
      obtain rfl := Option.some.inj (htask.symm.trans htask')
      rw [hstage] at hcoins
      cases hcoins
    · have hsettled := halone i p.frame task task' hgt htask htask'
        (hsession'.trans hsession).symm
      rw [hstage] at hsettled
      cases hsettled
  | _ => trivial

/-- The last broadcast shows the store, or another one is due. -/
def Shown (s : State) : Prop :=
  (∃ task ∈ s.tasks, ∃ coins, task.stage = .stored coins) ∨
    (∃ sessionId, s.socket sessionId = .removed) ∨
    s.topic.getLast? = some s.sessions ∨ (s.topic = [] ∧ s.sessions = ∅)

/-- A step keeps the last broadcast showing the store, or another one due. -/
theorem shown_step (s : State) (l : Label) (s' : State) (hshown : Shown s)
    (h : step l s = some s') : Shown s' := by
  cases step_steps h with
  | accept hopen =>
    rcases hshown with ⟨task, hmem, hstored⟩ | hrest
    · exact .inl ⟨task, List.mem_append_left _ hmem, hstored⟩
    · exact .inr hrest
  | pipeline hl htask hway hstage =>
    rcases hshown with hstored | hrest
    · refine .inl (exists_mem_set htask ?_ hstored)
      rintro ⟨coins, hcoins⟩
      rw [hcoins] at hway
      cases hway
    · exact .inr hrest
  | put htask hstage =>
    rename_i i task coins
    have hlt := (List.getElem?_eq_some_iff.mp htask).1
    exact .inl ⟨⟨task.message, .stored coins⟩, List.mem_set hlt _, coins, rfl⟩
  | broadcast => exact .inr (.inr (.inl List.getLast?_concat))
  | close hopen =>
    rcases hshown with hstored | ⟨sessionId, hremoved⟩ | hrest
    · exact .inl hstored
    · refine .inr (.inl ⟨sessionId, ?_⟩)
      rename_i other
      have hne : sessionId ≠ other := by
        rintro rfl
        rw [hopen] at hremoved
        cases hremoved
      simpa [Function.update_of_ne hne] using hremoved
    · exact .inr (.inr hrest)
  | remove => exact .inr (.inl ⟨_, Function.update_self _ _ _⟩)
  | broadcastEnded => exact .inr (.inr (.inl List.getLast?_concat))

section Witnesses

def phone : RecogSessionId := ⟨"1"⟩

/-- One frame is answered, then the socket closes. -/
def oneFrame : List Label :=
  [.accept phone .image [0xff], .request 0, .reply 0 "one coin", .put 0, .broadcast 0,
    .close phone]

/-- A session that is removed behind its reply does not come back. -/
theorem never_returns_after_answer :
    ∃ s s', Run step Unrestricted start oneFrame s ∧ step (.remove phone) s = some s' ∧
      ∀ ms t, Run step Unrestricted s' ms t →
        phone ∉ t.sessions ∧ ∃ later, t.topic = s'.topic ++ later ∧ ∀ m ∈ later, phone ∉ m := by
  obtain ⟨s, s', hs, hs', hsettled⟩ : ∃ s s', exec step Unrestricted oneFrame start = some s ∧
      step (.remove phone) s = some s' ∧
      ∀ task ∈ s.tasks, task.session = phone → task.stage.onItsWay = false :=
    ⟨_, _, rfl, rfl, by simp [start, State.setStage, Stage.onItsWay]⟩
  have hrun := exec_iff_run.mp hs
  exact ⟨s, s', hrun, hs', (never_returns_iff phone oneFrame s s' hrun hs').mpr hsettled⟩

/-- The socket closes while the request is with the native workers; the reply
brings the session back. -/
theorem ended_session_returns :
    ∃ s s' t,
      Run step Unrestricted start [.accept phone .image [0xff], .request 0, .close phone] s ∧
      step (.remove phone) s = some s' ∧
      Run step Unrestricted s'
        [.broadcastEnded phone, .reply 0 "one coin", .put 0, .broadcast 0] t ∧
      phone ∈ t.sessions ∧ ∃ m ∈ t.topic.drop s'.topic.length, phone ∈ m :=
  ⟨_, _, _, exec_iff_run.mp rfl, rfl, exec_iff_run.mp rfl, by decide, by decide⟩

end Witnesses

end Webapp

end Sogx
