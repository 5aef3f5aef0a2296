import Mathlib.Data.List.Count
import Sogx.Lib.Machine

/-!
`CVServer.mm`: how a connection to the CV server is opened.

The initialiser opens the socket, runs `initConnectionInput`, and waits on
`socketSemaphore`. The socket raises callbacks, which come to the delegate later and
on another thread; `didClose` is the last. The steps of both are interleaved in any
order.

* `stuck_stays`: the initialiser blocks for good once it waits and nothing will come.
* `never_stuck`: in a run in which a `didOpen` comes before `didClose` it does not.
* `blocks_iff`: without a `didOpen` before it, `didClose` leaves it there.
-/

namespace Sogx.CVServer

open Sogx.Lib

inductive Callback where
  | didOpen | didReceiveError | didClose
deriving DecidableEq, Repr

/-- Where `initWithUrl:andDelegate:` is: the statement that comes next. -/
inductive Statement where
  | open | initConnectionInput | wait | returned
deriving DecidableEq, Repr

structure State where
  next : Statement
  socketSemaphore : Nat
  pending : List Callback
  delivered : List Callback
deriving DecidableEq, Repr

namespace State

/-- The methods of the delegate. Two of them only log. -/
def didOpen (s : State) : State := { s with socketSemaphore := s.socketSemaphore + 1 }

def didReceiveError (s : State) : State := s

def didClose (s : State) : State := s

def callback (s : State) : Callback → State
  | .didOpen => s.didOpen
  | .didReceiveError => s.didReceiveError
  | .didClose => s.didClose

/-- The socket raises nothing behind `didClose`. -/
def Closed (s : State) : Prop := .didClose ∈ s.pending ∨ .didClose ∈ s.delivered

instance (s : State) : Decidable s.Closed := inferInstanceAs (Decidable (_ ∨ _))

/-- Everything that the socket has to say was said, and the initialiser waits without a
signal. -/
def Stuck (s : State) : Prop :=
  .didClose ∈ s.delivered ∧ s.pending = [] ∧ s.next = .wait ∧ s.socketSemaphore = 0

instance (s : State) : Decidable s.Stuck := inferInstanceAs (Decidable (_ ∧ _))

end State

inductive Label where
  | initialiser
  | raise (c : Callback)
  | deliver
deriving DecidableEq, Repr

/-- `dispatch_semaphore_wait` with `DISPATCH_TIME_FOREVER` goes on only with a signal. -/
def initialiserStep (s : State) : Option State :=
  match s.next with
  | .open => some { s with next := .initConnectionInput }
  | .initConnectionInput => some { s with next := .wait }
  | .wait =>
    if 0 < s.socketSemaphore then
      some { s with next := .returned, socketSemaphore := s.socketSemaphore - 1 }
    else none
  | .returned => none

def step : Label → State → Option State
  | .initialiser, s => initialiserStep s
  | .raise c, s =>
    if s.next ≠ .open ∧ ¬ s.Closed then some { s with pending := s.pending ++ [c] } else none
  | .deliver, s =>
    match s.pending with
    | [] => none
    | c :: rest => some ({ s with pending := rest, delivered := s.delivered ++ [c] }.callback c)

def start : State := ⟨.open, 0, [], []⟩

/-! ### What a step does -/

section Steps

variable {s s' : State} {l : Label}

/-- A step of the initialiser leaves the callbacks alone, and only the wait takes a
signal. -/
theorem initialiserStep_cases (h : initialiserStep s = some s') :
    (∃ next, next ≠ .returned ∧ s.next ≠ .returned ∧ s' = { s with next := next }) ∨
      (s.next = .wait ∧ 0 < s.socketSemaphore ∧
        s' = { s with next := .returned, socketSemaphore := s.socketSemaphore - 1 }) := by
  unfold initialiserStep at h
  split at h
  · exact .inl ⟨.initConnectionInput, Statement.noConfusion, by simp [*], (Option.some.inj h).symm⟩
  · exact .inl ⟨.wait, Statement.noConfusion, by simp [*], (Option.some.inj h).symm⟩
  · rename_i hwait
    split at h
    case isTrue hsignal => exact .inr ⟨hwait, hsignal, (Option.some.inj h).symm⟩
    case isFalse => cases h
  · cases h

/-- A callback is raised while the server is not closed, and then waits. -/
theorem raise_cases {c : Callback} (h : step (.raise c) s = some s') :
    ¬ s.Closed ∧ s' = { s with pending := s.pending ++ [c] } := by
  simp only [step] at h
  split at h
  case isTrue hopen => exact ⟨hopen.2, (Option.some.inj h).symm⟩
  case isFalse => cases h

/-- The first callback that waits is delivered, and only `didOpen` signals the semaphore. -/
theorem deliver_cases (h : step .deliver s = some s') :
    ∃ c rest, s.pending = c :: rest ∧ s'.pending = rest ∧ s'.delivered = s.delivered ++ [c] ∧
      s'.next = s.next ∧
      s'.socketSemaphore = s.socketSemaphore + if c = .didOpen then 1 else 0 := by
  unfold step at h
  dsimp only at h
  split at h
  case h_1 => cases h
  case h_2 c rest hpending =>
    rw [← Option.some.inj h]
    refine ⟨c, rest, hpending, ?_⟩
    cases c <;> exact ⟨rfl, rfl, rfl, rfl⟩

/-- Every signal was taken by the wait or is still there. -/
def Accounted (s : State) : Prop :=
  s.socketSemaphore + (if s.next = .returned then 1 else 0) = s.delivered.count .didOpen

/-- A step keeps the account of signals and waits. -/
theorem accounted_step (hs : Accounted s) (h : step l s = some s') : Accounted s' := by
  unfold Accounted at hs ⊢
  cases l with
  | initialiser =>
    rcases initialiserStep_cases h with ⟨next, hnext, hbefore, rfl⟩ | ⟨hwait, hsignal, rfl⟩
    · rw [if_neg hbefore] at hs
      rw [if_neg hnext]
      exact hs
    · rw [hwait, if_neg Statement.noConfusion] at hs
      rw [if_pos rfl, ← hs]
      exact Nat.sub_add_cancel hsignal
  | raise c =>
    obtain ⟨-, rfl⟩ := raise_cases h
    exact hs
  | deliver =>
    obtain ⟨c, rest, -, -, hdelivered, hnext, hsemaphore⟩ := deliver_cases h
    rw [hdelivered, hnext, hsemaphore, List.count_append, ← hs, List.count_singleton]
    by_cases hc : c = .didOpen
    · simp only [hc, if_true, beq_self_eq_true]
      omega
    · simp only [beq_iff_eq, if_neg hc, Nat.add_zero]

theorem Run.accounted {ok : State → Label → Prop} {ls : List Label} {t : State}
    (h : Run step ok start ls t) : Accounted t :=
  h.invariant (fun _ _ _ hs _ hstep => accounted_step hs hstep) rfl

theorem delivered_step {c : Callback} (hs : c ∈ s.delivered) (h : step l s = some s') :
    c ∈ s'.delivered := by
  cases l with
  | initialiser =>
    rcases initialiserStep_cases h with ⟨next, -, -, rfl⟩ | ⟨-, -, rfl⟩
    · exact hs
    · exact hs
  | raise c =>
    obtain ⟨-, rfl⟩ := raise_cases h
    exact hs
  | deliver =>
    obtain ⟨d, rest, -, -, hdelivered, -, -⟩ := deliver_cases h
    rw [hdelivered]
    exact List.mem_append_left _ hs

/-- Once the socket has said everything and the initialiser waits, nothing moves. -/
theorem stuck_stays (h : s.Stuck) (l : Label) : step l s = none := by
  obtain ⟨hclose, hpending, hwait, hsemaphore⟩ := h
  cases l with
  | initialiser => simp only [step, initialiserStep, hwait, hsemaphore, Nat.lt_irrefl, if_false]
  | raise c =>
    have hclosed : s.Closed := .inr hclose
    exact if_neg fun hopen => hopen.2 hclosed
  | deliver => simp only [step, hpending]

end Steps

/-! ### Runs -/

/-- `didClose` is delivered only behind a `didOpen`. -/
def OpenFirst (s : State) (l : Label) : Prop :=
  l = .deliver → s.pending.head? = some .didClose → .didOpen ∈ s.delivered

instance : DecidableRel OpenFirst := fun _ _ => inferInstanceAs (Decidable (_ → _ → _))

/-- What such runs keep. -/
def Opened (s : State) : Prop := .didClose ∈ s.delivered → .didOpen ∈ s.delivered

/-- A step keeps the invariant if the server was opened first. -/
theorem opened_step {s s' : State} {l : Label} (hs : Opened s) (hok : OpenFirst s l)
    (h : step l s = some s') : Opened s' := by
  cases l with
  | initialiser =>
    rcases initialiserStep_cases h with ⟨next, -, -, rfl⟩ | ⟨-, -, rfl⟩
    · exact hs
    · exact hs
  | raise c =>
    obtain ⟨-, rfl⟩ := raise_cases h
    exact hs
  | deliver =>
    obtain ⟨c, rest, hpending, -, hdelivered, -, -⟩ := deliver_cases h
    unfold Opened
    rw [hdelivered]
    intro hclose
    refine List.mem_append_left _ ?_
    rcases List.mem_append.mp hclose with hbefore | hnow
    · exact hs hbefore
    · have hc : c = .didClose := (List.mem_singleton.mp hnow).symm
      exact hok rfl (by rw [hpending, hc, List.head?_cons])

/-- In a run in which `didClose` comes behind a `didOpen` only, the initialiser does not
block for good. -/
theorem never_stuck {ls : List Label} {t : State} (h : Run step OpenFirst start ls t) : ¬ t.Stuck := by
  rintro ⟨hclose, -, hwait, hsemaphore⟩
  have hopened : Opened t :=
    h.invariant (fun _ _ _ hs hok hstep => opened_step hs hok hstep) (fun hnil => by cases hnil)
  have haccounted : Accounted t := Run.accounted h
  have hcount := List.count_pos_iff.mpr (hopened hclose)
  rw [Accounted, hwait, hsemaphore, if_neg Statement.noConfusion] at haccounted
  omega

/-- The initialiser comes to its wait. -/
theorem comes_to_wait {s : State} (h : s.next ≠ .returned) :
    ∃ ls, Run step Unrestricted s ls { s with next := .wait } := by
  obtain ⟨next, semaphore, pending, delivered⟩ := s
  cases next with
  | «open» => exact ⟨[.initialiser, .initialiser], .cons trivial rfl (.cons trivial rfl (.nil _))⟩
  | initConnectionInput => exact ⟨[.initialiser], .cons trivial rfl (.nil _)⟩
  | wait => exact ⟨[], .nil _⟩
  | returned => exact absurd rfl h

/-- When the socket has said everything, the initialiser can still get stuck if and only
if there was no `didOpen`. -/
theorem blocks_iff {ls : List Label} {t : State} (h : Run step Unrestricted start ls t)
    (hclose : .didClose ∈ t.delivered) (hpending : t.pending = []) :
    (∃ ms u, Run step Unrestricted t ms u ∧ u.Stuck) ↔ .didOpen ∉ t.delivered := by
  constructor
  · rintro ⟨ms, u, hrun, -, -, hwait, hsemaphore⟩ hopen
    have hkept : .didOpen ∈ u.delivered :=
      hrun.invariant (fun _ _ _ hs _ hstep => delivered_step hs hstep) hopen
    have haccounted : Accounted u := Run.accounted (Run.append_iff.mpr ⟨t, h, hrun⟩)
    have hcount := List.count_pos_iff.mpr hkept
    rw [Accounted, hwait, hsemaphore, if_neg Statement.noConfusion] at haccounted
    omega
  · intro hopen
    have haccounted : Accounted t := Run.accounted h
    rw [Accounted, List.count_eq_zero_of_not_mem hopen] at haccounted
    have hnext : t.next ≠ .returned := by
      intro hreturned
      rw [if_pos hreturned] at haccounted
      omega
    obtain ⟨ms, hrun⟩ := comes_to_wait hnext
    refine ⟨ms, _, hrun, hclose, hpending, rfl, ?_⟩
    exact Nat.eq_zero_of_add_eq_zero_right haccounted

/-- The server cannot be reached: an error and the close are delivered, and the
initialiser waits for ever. -/
theorem unreachable_server_blocks :
    ∃ t, Run step Unrestricted start
        [.initialiser, .raise .didReceiveError, .deliver, .initialiser, .raise .didClose, .deliver] t ∧
      t.Stuck ∧ ∀ l, step l t = none := by
  refine ⟨⟨.wait, 0, [], [.didReceiveError, .didClose]⟩, ?_, by decide, stuck_stays (by decide)⟩
  exact exec_iff_run.mp (by decide)

/-- The server is reached and closes the connection. -/
theorem never_stuck_of_opened :
    ∃ t, Run step OpenFirst start
        [.initialiser, .initialiser, .raise .didOpen, .raise .didClose, .deliver, .deliver] t ∧
      ¬ t.Stuck := by
  have hrun : Run step OpenFirst start
      [.initialiser, .initialiser, .raise .didOpen, .raise .didClose, .deliver, .deliver]
      ⟨.wait, 1, [], [.didOpen, .didClose]⟩ := exec_iff_run.mp (by decide)
  exact ⟨_, hrun, never_stuck hrun⟩

end Sogx.CVServer
