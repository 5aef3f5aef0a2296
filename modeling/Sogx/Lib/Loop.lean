import Mathlib.Logic.Relation

/-!
Loops that may run for ever.

A computation is given as what it yields with so much fuel; it is `Steady` when
more fuel does not change a result, and it `Gives` what it yields with enough.

* `gives_bind_iff`: one computation behind another.
* `gives_loop_iff`: what a loop gives.
* `terminates_loop_iff`: a loop whose turns lower a measure, or change nothing, ends
  if and only if every turn that it gets to ends and changes something.
-/

namespace Sogx.Lib

/-- Why there is no result: not yet, or because of a fault. -/
inductive Failure where
  | running | fault
deriving DecidableEq, Repr

abbrev Fueled (A : Type) := Nat → Except Failure A

/-- One turn of a loop: go on with another state, or leave with a result. -/
inductive Turn (S R : Type) where
  | again (s : S)
  | done (r : R)

/-! ### Results and errors -/

section Results

variable {E A B : Type}

/-- Two computations one behind the other give what the second does with the result of the
first. -/
theorem bind_eq_ok {x : Except E A} {f : A → Except E B} {b : B} :
    x >>= f = .ok b ↔ ∃ a, x = .ok a ∧ f a = .ok b := by
  cases x with
  | error e => simp [bind, Except.bind]
  | ok a => simp [bind, Except.bind]

/-- Two computations one behind the other fail where the first one does, or the second does
with its result. -/
theorem bind_eq_error {x : Except E A} {f : A → Except E B} {e : E} :
    x >>= f = .error e ↔ x = .error e ∨ ∃ a, x = .ok a ∧ f a = .error e := by
  cases x with
  | error e' => simp [bind, Except.bind]
  | ok a => simp [bind, Except.bind]

end Results

/-! ### Computations with fuel -/

section Computations

variable {A B : Type}

def Gives (f : Fueled A) (a : A) : Prop := ∃ n, f n = .ok a

def Terminates (f : Fueled A) : Prop := ∃ a, Gives f a

def Steady (f : Fueled A) : Prop := ∀ n m a, n ≤ m → f n = .ok a → f m = .ok a

theorem Gives.terminates {f : Fueled A} {a : A} (h : Gives f a) : Terminates f := ⟨a, h⟩

theorem steady_const (x : Except Failure A) : Steady fun _ => x := fun _ _ _ _ h => h

theorem gives_const_iff {x : Except Failure A} {a : A} : Gives (fun _ => x) a ↔ x = .ok a :=
  ⟨fun ⟨_, h⟩ => h, fun h => ⟨0, h⟩⟩

theorem not_terminates_of_running {f : Fueled A} (h : ∀ n, f n = .error .running) :
    ¬ Terminates f := by
  rintro ⟨a, n, hn⟩
  rw [h n] at hn
  cases hn

/-- A steady computation gives one result. -/
theorem Gives.unique {f : Fueled A} (hf : Steady f) {a b : A} (ha : Gives f a) (hb : Gives f b) :
    a = b := by
  obtain ⟨n, hn⟩ := ha
  obtain ⟨m, hm⟩ := hb
  have hn' := hf n (max n m) a (Nat.le_max_left n m) hn
  have hm' := hf m (max n m) b (Nat.le_max_right n m) hm
  exact Except.ok.inj (hn'.symm.trans hm')

/-- Steady computations one behind the other are steady. -/
theorem Steady.bind {f : Fueled A} {g : A → Fueled B} (hf : Steady f) (hg : ∀ a, Steady (g a)) :
    Steady fun n => f n >>= fun a => g a n := by
  intro n m b hle h
  obtain ⟨a, ha, hb⟩ := bind_eq_ok.mp h
  exact bind_eq_ok.mpr ⟨a, hf n m a hle ha, hg a n m b hle hb⟩

/-- Two computations in a row give what the second gives for the result of the first. -/
theorem gives_bind_iff {f : Fueled A} {g : A → Fueled B} (hf : Steady f) (hg : ∀ a, Steady (g a))
    {b : B} : Gives (fun n => f n >>= fun a => g a n) b ↔ ∃ a, Gives f a ∧ Gives (g a) b := by
  constructor
  · rintro ⟨n, h⟩
    obtain ⟨a, ha, hb⟩ := bind_eq_ok.mp h
    exact ⟨a, ⟨n, ha⟩, ⟨n, hb⟩⟩
  · rintro ⟨a, ⟨n, ha⟩, ⟨m, hb⟩⟩
    refine ⟨max n m, bind_eq_ok.mpr ⟨a, ?_, ?_⟩⟩
    · exact hf n (max n m) a (Nat.le_max_left n m) ha
    · exact hg a m (max n m) b (Nat.le_max_right n m) hb

/-- Two computations in a row end if the first one does and the second one does for its result. -/
theorem terminates_bind_iff {f : Fueled A} {g : A → Fueled B} (hf : Steady f) (hg : ∀ a, Steady (g a)) :
    Terminates (fun n => f n >>= fun a => g a n) ↔ Terminates f ∧ ∀ a, Gives f a → Terminates (g a) := by
  constructor
  · rintro ⟨b, h⟩
    obtain ⟨a, ha, hb⟩ := (gives_bind_iff hf hg).mp h
    refine ⟨ha.terminates, ?_⟩
    intro a' ha'
    rw [ha'.unique hf ha]
    exact hb.terminates
  · rintro ⟨⟨a, ha⟩, h⟩
    obtain ⟨b, hb⟩ := h a ha
    exact ⟨b, (gives_bind_iff hf hg).mpr ⟨a, ha, hb⟩⟩

end Computations

/-! ### Loops -/

section Loops

variable {S R : Type}

def turns (body : S → Except Failure (Turn S R)) : Nat → S → Except Failure R
  | 0, _ => .error .running
  | n + 1, s => do
    match ← body s with
    | .again s => turns body n s
    | .done r => .ok r

/-- Turns of which each has fuel of its own. -/
def loop (body : S → Fueled (Turn S R)) (s : S) : Fueled R :=
  fun n => turns (fun s => body s n) n s

/-- A turn at `s` goes on with `t`. -/
def Again (body : S → Fueled (Turn S R)) (s t : S) : Prop := Gives (body s) (.again t)

variable {body : S → Fueled (Turn S R)}

/-- A loop that ends makes a turn and ends, or leaves it in this turn. -/
theorem turns_succ_ok {one : S → Except Failure (Turn S R)} {n : Nat} {s : S} {r : R} :
    turns one (n + 1) s = .ok r ↔
      (∃ t, one s = .ok (.again t) ∧ turns one n t = .ok r) ∨ one s = .ok (.done r) := by
  rw [turns, bind_eq_ok]
  constructor
  · rintro ⟨t | r', hturn, h⟩
    · exact .inl ⟨t, hturn, h⟩
    · rw [← Except.ok.inj h]
      exact .inr hturn
  · rintro (⟨t, hturn, h⟩ | hturn)
    · exact ⟨.again t, hturn, h⟩
    · exact ⟨.done r, hturn, rfl⟩

/-- More fuel, in the turns and in the loop, does not change a result. -/
theorem turns_mono {one two : S → Except Failure (Turn S R)}
    (h : ∀ s t, one s = .ok t → two s = .ok t) {n m : Nat} (hle : n ≤ m) {s : S} {r : R}
    (hr : turns one n s = .ok r) : turns two m s = .ok r := by
  induction n generalizing m s with
  | zero => cases hr
  | succ n ih =>
    obtain ⟨m, rfl⟩ : ∃ k, m = k + 1 := ⟨m - 1, by omega⟩
    rcases turns_succ_ok.mp hr with ⟨t, hturn, hrest⟩ | hturn
    · exact turns_succ_ok.mpr (.inl ⟨t, h s _ hturn, ih (Nat.le_of_succ_le_succ hle) hrest⟩)
    · exact turns_succ_ok.mpr (.inr (h s _ hturn))

theorem steady_loop (hbody : ∀ s, Steady (body s)) (s : S) : Steady (loop body s) := by
  intro n m r hle h
  exact turns_mono (fun t u hu => hbody t n m u hle hu) hle h

/-- A loop gives what a turn leaves it with, and the turns before go on. -/
theorem gives_loop_iff (hbody : ∀ s, Steady (body s)) {s : S} {r : R} :
    Gives (loop body s) r ↔
      ∃ t, Relation.ReflTransGen (Again body) s t ∧ Gives (body t) (.done r) := by
  constructor
  · rintro ⟨n, h⟩
    have hturns : ∀ k s, turns (fun s => body s n) k s = .ok r →
        ∃ t, Relation.ReflTransGen (Again body) s t ∧ Gives (body t) (.done r) := by
      intro k
      induction k with
      | zero =>
        intro s hzero
        cases hzero
      | succ k ih =>
        intro s hsucc
        rcases turns_succ_ok.mp hsucc with ⟨t, hturn, hrest⟩ | hturn
        · obtain ⟨u, hreach, hdone⟩ := ih t hrest
          exact ⟨u, hreach.head ⟨n, hturn⟩, hdone⟩
        · exact ⟨s, .refl, n, hturn⟩
    exact hturns n s h
  · rintro ⟨t, hreach, hdone⟩
    induction hreach using Relation.ReflTransGen.head_induction_on with
    | refl =>
      obtain ⟨n, hn⟩ := hdone
      refine ⟨n + 1, turns_succ_ok.mpr (.inr ?_)⟩
      exact hbody t n (n + 1) _ (Nat.le_succ n) hn
    | @head s u hagain _ ih =>
      obtain ⟨n, hn⟩ := hagain
      obtain ⟨m, hm⟩ := ih
      have hn' := Nat.le_succ_of_le (Nat.le_max_left n m)
      have hm' := Nat.le_succ_of_le (Nat.le_max_right n m)
      refine ⟨max n m + 1, turns_succ_ok.mpr (.inl ⟨u, hbody s n _ _ hn' hn, ?_⟩)⟩
      exact turns_mono (fun t u hu => hbody t m _ u hm' hu) (Nat.le_max_right n m) hm

/-- The first turn, and the loop behind it. -/
theorem gives_loop_turn (hbody : ∀ s, Steady (body s)) {s : S} {r : R} :
    Gives (loop body s) r ↔
      Gives (body s) (.done r) ∨ ∃ t, Again body s t ∧ Gives (loop body t) r := by
  simp only [gives_loop_iff hbody]
  constructor
  · rintro ⟨last, hreach, hdone⟩
    rcases hreach.cases_head with rfl | ⟨t, hagain, hrest⟩
    · exact .inl hdone
    · exact .inr ⟨t, hagain, last, hrest, hdone⟩
  · rintro (hdone | ⟨t, hagain, last, hrest, hdone⟩)
    · exact ⟨s, .refl, hdone⟩
    · exact ⟨last, hrest.head hagain, hdone⟩

theorem again_unique (hbody : ∀ s, Steady (body s)) {s t u : S} (ht : Again body s t)
    (hu : Again body s u) : t = u :=
  Turn.again.inj (ht.unique (hbody s) hu)

theorem not_again_of_done (hbody : ∀ s, Steady (body s)) {s t : S} {r : R}
    (hdone : Gives (body s) (.done r)) : ¬ Again body s t := by
  intro hagain
  cases hdone.unique (hbody s) hagain

/-- A turn that changes nothing is followed by nothing else. -/
theorem stays_of_again (hbody : ∀ s, Steady (body s)) {s t : S} (hsame : Again body s s)
    (h : Relation.ReflTransGen (Again body) s t) : t = s := by
  induction h with
  | refl => rfl
  | tail _ hagain ih =>
    rw [ih] at hagain
    exact again_unique hbody hagain hsame

/-- A turn that changes nothing is made for ever. -/
theorem turns_running {one : S → Except Failure (Turn S R)} {s : S} (hsame : one s = .ok (.again s))
    (n : Nat) : turns one n s = .error .running := by
  induction n with
  | zero => rfl
  | succ n ih =>
    rw [turns, hsame]
    exact ih

/-- A loop that a turn brings to a state in which nothing changes runs for ever. -/
theorem loop_running {s t : S} (hagain : ∀ n, body s n = .ok (.again t))
    (hsame : ∀ n, body t n = .ok (.again t)) (n : Nat) : loop body s n = .error .running := by
  cases n with
  | zero => rfl
  | succ n =>
    rw [loop, turns, hagain]
    exact turns_running (hsame (n + 1)) n

/-- With a measure that a turn lowers unless it changes nothing. -/
theorem terminates_loop_iff (hbody : ∀ s, Steady (body s)) (measure : S → Nat)
    (hlower : ∀ s t, Again body s t → t = s ∨ measure t < measure s) {s : S} :
    Terminates (loop body s) ↔
      ∀ t, Relation.ReflTransGen (Again body) s t → Terminates (body t) ∧ ¬ Again body t t := by
  constructor
  · rintro ⟨r, hr⟩ t hreach
    obtain ⟨last, hlast, hdone⟩ := (gives_loop_iff hbody).mp hr
    have hunique : Relator.RightUnique (Again body) := fun _ _ _ hu hv => again_unique hbody hu hv
    have hline := Relation.ReflTransGen.total_of_right_unique hunique hreach hlast
    -- the last turn goes nowhere, so every state reached is in front of it
    have hbefore : Relation.ReflTransGen (Again body) t last := by
      rcases hline with hbefore | hbehind
      · exact hbefore
      · rcases hbehind.cases_head with rfl | ⟨u, hagain, -⟩
        · exact .refl
        · exact absurd hagain (not_again_of_done hbody hdone)
    rcases hbefore.cases_head with rfl | ⟨u, hagain, hrest⟩
    · exact ⟨hdone.terminates, not_again_of_done hbody hdone⟩
    · refine ⟨hagain.terminates, ?_⟩
      intro hsame
      have hlast := stays_of_again hbody hsame hbefore
      rw [hlast] at hdone
      exact not_again_of_done hbody hdone hsame
  · intro h
    induction hn : measure s using Nat.strongRecOn generalizing s with
    | ind n ih =>
      subst hn
      obtain ⟨⟨turn, hturn⟩, hmoves⟩ := h s .refl
      cases turn with
      | done r => exact ((gives_loop_turn hbody).mpr (.inl hturn)).terminates
      | again t =>
        have hless : measure t < measure s := by
          rcases hlower s t hturn with rfl | hless
          · exact absurd hturn hmoves
          · exact hless
        have hrest : ∀ u, Relation.ReflTransGen (Again body) t u →
            Terminates (body u) ∧ ¬ Again body u u :=
          fun u hu => h u (hu.head hturn)
        obtain ⟨r, hr⟩ := ih (measure t) hless hrest rfl
        exact ((gives_loop_turn hbody).mpr (.inr ⟨t, hturn, hr⟩)).terminates

end Loops

end Sogx.Lib
