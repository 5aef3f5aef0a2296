import Mathlib.Data.List.Perm.Basic
import Mathlib.Data.List.Flatten
import Mathlib.Algebra.Ring.Nat

/-!
Labelled machines: a partial step function, its runs, and pools of processes.

* `Run step ok` is the relation of the runs whose every step meets the side
  condition `ok` in the state before it, so `Run step Unrestricted` is
  reachability; `exec` replays a list of labels (`exec_iff_run`).
* `Run.invariant` is the induction every safety result uses; `Run.length_le`
  bounds runs by a measure that each step lowers, and `Run.restrict` reads a
  side condition off the state that a run reaches.
* A pool of processes is a list of which one step replaces one member.
  `flatMap_set_perm` and `flatMap_perm` split off that member from anything
  the whole pool holds, and `flatMap_set_exchange` is the account of one step.
-/

namespace Sogx.Lib

section Runs

variable {S L : Type} (step : L → S → Option S)

/-- The runs each of whose steps meets `ok` in the state it starts from. -/
inductive Run (ok : S → L → Prop) : S → List L → S → Prop where
  | nil (s : S) : Run ok s [] s
  | cons {s s' s'' : S} {l : L} {ls : List L} :
      ok s l → step l s = some s' → Run ok s' ls s'' → Run ok s (l :: ls) s''

/-- No side condition. -/
def Unrestricted : S → L → Prop := fun _ _ => True

instance : DecidableRel (Unrestricted (S := S) (L := L)) := fun _ _ => isTrue trivial

/-- Replay the labels in order; `none` as soon as one is not enabled or does
not meet `ok`. -/
def exec (ok : S → L → Prop) [DecidableRel ok] : List L → S → Option S
  | [], s => some s
  | l :: ls, s => if ok s l then (step l s).bind (exec ok ls) else none

variable {step} {ok : S → L → Prop}

/-- A run is what the execution of its labels gives. -/
theorem exec_iff_run [DecidableRel ok] {ls : List L} {s t : S} :
    exec step ok ls s = some t ↔ Run step ok s ls t := by
  constructor
  · intro h
    induction ls generalizing s with
    | nil =>
      obtain rfl : s = t := by simpa [exec] using h
      exact .nil s
    | cons l ls ih =>
      rw [exec] at h
      split at h
      · rename_i hok
        obtain ⟨s', hstep, hrest⟩ := Option.bind_eq_some_iff.mp h
        exact .cons hok hstep (ih hrest)
      · cases h
  · intro h
    induction h with
    | nil s => rfl
    | cons hok hstep _ ih => simp [exec, hok, hstep, ih]

/-- A run is cut anywhere into two runs. -/
theorem Run.append_iff {s t : S} {ls ms : List L} :
    Run step ok s (ls ++ ms) t ↔ ∃ m, Run step ok s ls m ∧ Run step ok m ms t := by
  induction ls generalizing s with
  | nil =>
    constructor
    · intro h
      exact ⟨s, .nil s, h⟩
    · rintro ⟨m, hfirst, hrest⟩
      cases hfirst
      exact hrest
  | cons l ls ih =>
    constructor
    · intro h
      cases h with
      | cons hok hstep hbehind =>
        obtain ⟨m, hfirst, hrest⟩ := ih.mp hbehind
        exact ⟨m, .cons hok hstep hfirst, hrest⟩
    · rintro ⟨m, hfirst, hrest⟩
      cases hfirst with
      | cons hok hstep hbehind => exact .cons hok hstep (ih.mpr ⟨m, hbehind, hrest⟩)

theorem Run.mono {ok' : S → L → Prop} (himp : ∀ s l, ok s l → ok' s l)
    {s t : S} {ls : List L} (h : Run step ok s ls t) : Run step ok' s ls t := by
  induction h with
  | nil s => exact .nil s
  | cons hok hstep _ ih => exact .cons (himp _ _ hok) hstep ih

theorem Run.unrestricted {s t : S} {ls : List L} (h : Run step ok s ls t) :
    Run step Unrestricted s ls t :=
  h.mono fun _ _ _ => trivial

theorem Run.single {s t : S} {l : L} (hok : ok s l) (hstep : step l s = some t) :
    Run step ok s [l] t :=
  .cons hok hstep (.nil t)

/-- What holds at the start and is kept by every step that meets the side
condition holds in every state a run reaches. -/
theorem Run.invariant {Inv : S → Prop}
    (hkeep : ∀ s l s', Inv s → ok s l → step l s = some s' → Inv s')
    {s t : S} {ls : List L} (h : Run step ok s ls t) (hs : Inv s) : Inv t := by
  induction h with
  | nil s => exact hs
  | cons hok hstep _ ih => exact ih (hkeep _ _ _ hs hok hstep)

/-- Under an invariant one side condition gives another. -/
theorem Run.mono_of_invariant {ok' : S → L → Prop} {Inv : S → Prop}
    (hkeep : ∀ s l s', Inv s → ok s l → step l s = some s' → Inv s')
    (himp : ∀ s l s', Inv s → ok s l → step l s = some s' → ok' s l)
    {s t : S} {ls : List L} (h : Run step ok s ls t) (hs : Inv s) : Run step ok' s ls t := by
  induction h with
  | nil s => exact .nil s
  | cons hok hstep _ ih =>
    exact .cons (himp _ _ _ hs hok hstep) hstep (ih (hkeep _ _ _ hs hok hstep))

/-- A measure that every step lowers bounds the length of every run. -/
theorem Run.length_le {Inv : S → Prop} {measure : S → Nat}
    (hkeep : ∀ s l s', Inv s → ok s l → step l s = some s' → Inv s')
    (hlower : ∀ s l s', Inv s → ok s l → step l s = some s' → measure s' < measure s)
    {s t : S} {ls : List L} (h : Run step ok s ls t) (hs : Inv s) :
    ls.length + measure t ≤ measure s := by
  induction h with
  | nil s => simp
  | cons hok hstep _ ih =>
    have hrest := ih (hkeep _ _ _ hs hok hstep)
    have hone := hlower _ _ _ hs hok hstep
    simp only [List.length_cons]
    omega

/-- When a step outside `ok'` leaves a mark that stays, a run that ends without
the mark met `ok'` all along. -/
theorem Run.restrict {ok' : S → L → Prop} {Mark : S → Prop}
    (hleaves : ∀ s l s', step l s = some s' → ¬ ok' s l → Mark s')
    (hstays : ∀ s l s', Mark s → step l s = some s' → Mark s')
    {s t : S} {ls : List L} (h : Run step ok s ls t) (ht : ¬ Mark t) : Run step ok' s ls t := by
  induction h with
  | nil s => exact .nil s
  | cons _ hstep hrest ih =>
    refine .cons ?_ hstep (ih ht)
    by_contra hnot
    have hmark := hleaves _ _ _ hstep hnot
    exact ht (hrest.invariant (fun _ _ _ hm _ hs => hstays _ _ _ hm hs) hmark)

end Runs

/-! ### Pools of processes -/

section Pools

variable {P A : Type} {ps : List P} {i : Nat} {p q : P}

/-- What a pool holds after its `i`-th member became `q`. -/
theorem flatMap_set_perm (f : P → List A) (h : ps[i]? = some p) (q : P) :
    ((ps.set i q).flatMap f).Perm (f q ++ (ps.eraseIdx i).flatMap f) := by
  induction ps generalizing i with
  | nil => simp at h
  | cons r rs ih =>
    cases i with
    | zero => simp
    | succ i =>
      have hrest := ih (i := i) (by simpa using h)
      simp only [List.set_cons_succ, List.eraseIdx_cons_succ, List.flatMap_cons]
      -- the new member's share moves to the front, past the members before it
      refine (hrest.append_left (f r)).trans ?_
      rw [← List.append_assoc, ← List.append_assoc]
      exact List.perm_append_comm.append_right _

theorem flatMap_perm (f : P → List A) (h : ps[i]? = some p) :
    (ps.flatMap f).Perm (f p ++ (ps.eraseIdx i).flatMap f) := by
  have hsame : ps.set i p = ps := by
    rw [List.getElem?_eq_some_iff] at h
    obtain ⟨hi, rfl⟩ := h
    exact List.set_getElem_self hi
  simpa [hsame] using flatMap_set_perm f h p

/-- A member that hands out `out` and takes in `inn` changes what the pool
holds by just that. -/
theorem flatMap_set_exchange (f : P → List A) (h : ps[i]? = some p) {out inn : List A}
    (hq : (f q ++ out).Perm (f p ++ inn)) :
    ((ps.set i q).flatMap f ++ out).Perm (ps.flatMap f ++ inn) := by
  have hset := flatMap_set_perm f h q
  have hold := flatMap_perm f h
  calc
    (ps.set i q).flatMap f ++ out
    _ |>.Perm (f q ++ (ps.eraseIdx i).flatMap f ++ out) := hset.append_right out
    _ |>.Perm (f q ++ out ++ (ps.eraseIdx i).flatMap f) := by
      rw [List.append_assoc, List.append_assoc]
      exact List.perm_append_comm.append_left _
    _ |>.Perm (f p ++ inn ++ (ps.eraseIdx i).flatMap f) := hq.append_right _
    _ |>.Perm (f p ++ (ps.eraseIdx i).flatMap f ++ inn) := by
      rw [List.append_assoc, List.append_assoc]
      exact List.perm_append_comm.append_left _
    _ |>.Perm (ps.flatMap f ++ inn) := (hold.append_right inn).symm

/-- The weight of the pool after its `i`-th member became `q`. -/
theorem sum_map_set (f : P → Nat) (h : ps[i]? = some p) (q : P) :
    ((ps.set i q).map f).sum + f p = (ps.map f).sum + f q := by
  induction ps generalizing i with
  | nil => simp at h
  | cons r rs ih =>
    cases i with
    | zero =>
      obtain rfl : r = p := by simpa using h
      simp only [List.set_cons_zero, List.map_cons, List.sum_cons]
      omega
    | succ i =>
      have hrest := ih (i := i) (by simpa using h)
      simp only [List.set_cons_succ, List.map_cons, List.sum_cons]
      omega

/-- A property of all members survives when the new member has it too. -/
theorem forall_mem_set {Q : P → Prop} (hall : ∀ r ∈ ps, Q r) (hq : Q q) :
    ∀ r ∈ ps.set i q, Q r := by
  intro r hr
  rcases List.mem_or_eq_of_mem_set hr with hmem | rfl
  · exact hall r hmem
  · exact hq

/-- A property of some member survives when the new member inherits it. -/
theorem exists_mem_set {Q : P → Prop} (h : ps[i]? = some p) (hq : Q p → Q q)
    (hex : ∃ r ∈ ps, Q r) : ∃ r ∈ ps.set i q, Q r := by
  obtain ⟨r, hr, hQ⟩ := hex
  obtain ⟨j, hj⟩ := List.getElem?_of_mem hr
  by_cases hij : i = j
  · subst hij
    obtain rfl : p = r := Option.some.inj (h.symm.trans hj)
    exact ⟨q, List.mem_set (List.getElem?_eq_some_iff.mp h).1 q, hq hQ⟩
  · exact ⟨r, List.mem_of_getElem? ((List.getElem?_set_ne hij).trans hj), hQ⟩

end Pools

end Sogx.Lib
