import Mathlib.Data.List.Basic

/-!
Regular expressions with groups, matched by backtracking.

`ways r t` lists the ways in which `r` matches a front of `t`, in the order in which
a backtracking matcher tries them: what is repeated as often as it can be first, what
is optional with it first. `fullMatch` takes the first way that uses up the text.

* `mem_ways_iff`: the ways are those of the declared meaning `Matches`.
* `fullMatch_eq_none_iff`, `fullMatch_eq_some`: whether there is a match, and which if
  there is only one.
-/

namespace Sogx.Lib

/-- What the groups took, the last one to close first. -/
abbrev Captures (A : Type) := List (Nat × List A)

inductive Regex (A : Type) where
  | text (l : List A)
  | many (least : Nat) (p : A → Bool)
  | seq (r s : Regex A)
  | opt (r : Regex A)
  | group (i : Nat) (r : Regex A)

namespace Regex

variable {A : Type}

/-- The text `w` as a match, with its captures. -/
def Matches : Regex A → List A → Captures A → Prop
  | text l, w, c => w = l ∧ c = []
  | many least p, w, c => (∀ a ∈ w, p a = true) ∧ least ≤ w.length ∧ c = []
  | seq r s, w, c => ∃ w₁ w₂ c₁ c₂, Matches r w₁ c₁ ∧ Matches s w₂ c₂ ∧ w = w₁ ++ w₂ ∧ c = c₂ ++ c₁
  | opt r, w, c => Matches r w c ∨ (w = [] ∧ c = [])
  | group i r, w, c => ∃ c', Matches r w c' ∧ c = (i, w) :: c'

/-- The cuts behind marks of a class, the longest front first. -/
def cuts (p : A → Bool) : List A → List (List A × List A)
  | [] => [([], [])]
  | a :: t => (if p a then (cuts p t).map fun cut => (a :: cut.1, cut.2) else []) ++ [([], a :: t)]

/-- The cuts are all ways to take letters that `p` allows from the front. -/
theorem mem_cuts_iff {p : A → Bool} {t : List A} {cut : List A × List A} :
    cut ∈ cuts p t ↔ t = cut.1 ++ cut.2 ∧ ∀ a ∈ cut.1, p a = true := by
  induction t generalizing cut with
  | nil =>
    obtain ⟨front, rest⟩ := cut
    simp only [cuts, List.mem_singleton, Prod.mk.injEq, List.nil_eq, List.append_eq_nil_iff]
    constructor
    · rintro ⟨rfl, rfl⟩
      simp
    · rintro ⟨h, -⟩
      exact h
  | cons b t ih =>
    obtain ⟨front, rest⟩ := cut
    rw [cuts, List.mem_append]
    constructor
    · rintro (h | h)
      · split at h
        case isTrue hb =>
          obtain ⟨⟨front', rest'⟩, hcut, heq⟩ := List.mem_map.mp h
          obtain ⟨rfl, rfl⟩ := Prod.mk.inj heq
          obtain ⟨ht, hall⟩ := ih.mp hcut
          refine ⟨congrArg (b :: ·) ht, ?_⟩
          intro a ha
          rcases List.mem_cons.mp ha with rfl | ha
          · exact hb
          · exact hall a ha
        case isFalse => cases h
      · obtain ⟨rfl, rfl⟩ := Prod.mk.inj (List.mem_singleton.mp h)
        refine ⟨rfl, ?_⟩
        intro a ha
        cases ha
    · rintro ⟨ht, hall⟩
      cases front with
      | nil =>
        right
        rw [List.mem_singleton, ht]
        rfl
      | cons a front =>
        obtain ⟨rfl, ht'⟩ := List.cons.inj ht
        left
        rw [if_pos (hall b (List.mem_cons_self ..))]
        refine List.mem_map.mpr ⟨(front, rest), ih.mpr ⟨ht', ?_⟩, rfl⟩
        exact fun a ha => hall a (List.mem_cons_of_mem b ha)

/-- A way to match a front of a text: the front, what is left, and the captures. -/
structure Way (A : Type) where
  taken : List A
  rest : List A
  captures : Captures A
deriving DecidableEq, Repr

section Matching

variable [DecidableEq A]

def ways : Regex A → List A → List (Way A)
  | text l, t => if l.isPrefixOf t then [⟨l, t.drop l.length, []⟩] else []
  | many least p, t =>
    ((cuts p t).filter fun cut => least ≤ cut.1.length).map fun cut => ⟨cut.1, cut.2, []⟩
  | seq r s, t => (ways r t).flatMap fun x => (ways s x.rest).map fun y =>
      ⟨x.taken ++ y.taken, y.rest, y.captures ++ x.captures⟩
  | opt r, t => ways r t ++ [⟨[], t, []⟩]
  | group i r, t => (ways r t).map fun x => { x with captures := (i, x.taken) :: x.captures }

/-- The captures of the first way to match the whole of a text. -/
def fullMatch (r : Regex A) (t : List A) : Option (Captures A) :=
  ((ways r t).find? fun x => x.rest.isEmpty).map Way.captures

/-- The ways of `r` are its matches, in any text. -/
def Agrees (r : Regex A) : Prop :=
  ∀ (t : List A) (x : Way A), x ∈ ways r t ↔ t = x.taken ++ x.rest ∧ Matches r x.taken x.captures

theorem agrees_text (l : List A) : Agrees (text l) := by
  rintro t ⟨taken, rest, c⟩
  rw [ways]
  constructor
  · intro h
    split at h
    case isTrue hfront =>
      obtain ⟨tail, rfl⟩ := List.isPrefixOf_iff_prefix.mp hfront
      obtain ⟨rfl, rfl, rfl⟩ := Way.mk.inj (List.mem_singleton.mp h)
      exact ⟨by rw [List.drop_left], rfl, rfl⟩
    case isFalse => cases h
  · rintro ⟨rfl, rfl, rfl⟩
    rw [if_pos (List.isPrefixOf_iff_prefix.mpr (List.prefix_append _ _)), List.drop_left]
    exact List.mem_singleton.mpr rfl

theorem agrees_many (least : Nat) (p : A → Bool) : Agrees (many least p) := by
  rintro t ⟨taken, rest, c⟩
  rw [ways, List.mem_map]
  constructor
  · rintro ⟨⟨front, tail⟩, hcut, heq⟩
    obtain ⟨rfl, rfl, rfl⟩ := Way.mk.inj heq
    obtain ⟨hmem, hleast⟩ := List.mem_filter.mp hcut
    obtain ⟨ht, hall⟩ := mem_cuts_iff.mp hmem
    exact ⟨ht, hall, of_decide_eq_true hleast, rfl⟩
  · rintro ⟨ht, hall, hleast, rfl⟩
    refine ⟨(taken, rest), List.mem_filter.mpr ⟨?_, decide_eq_true hleast⟩, rfl⟩
    exact mem_cuts_iff.mpr ⟨ht, hall⟩

theorem Agrees.seq {r s : Regex A} (hr : Agrees r) (hs : Agrees s) : Agrees (seq r s) := by
  rintro t ⟨taken, rest, c⟩
  rw [ways, List.mem_flatMap]
  constructor
  · rintro ⟨x, hx, hrest⟩
    obtain ⟨y, hy, heq⟩ := List.mem_map.mp hrest
    obtain ⟨rfl, rfl, rfl⟩ := Way.mk.inj heq
    obtain ⟨ht, hmatch⟩ := (hr t x).mp hx
    obtain ⟨ht', hmatch'⟩ := (hs x.rest y).mp hy
    refine ⟨?_, _, _, _, _, hmatch, hmatch', rfl, rfl⟩
    rw [ht, ht', List.append_assoc]
  · rintro ⟨ht, w₁, w₂, c₁, c₂, hmatch, hmatch', hw, hc⟩
    dsimp only at ht hw hc
    subst hw hc
    refine ⟨⟨w₁, w₂ ++ rest, c₁⟩, (hr _ _).mpr ⟨?_, hmatch⟩, ?_⟩
    · rw [ht, List.append_assoc]
    · exact List.mem_map.mpr ⟨⟨w₂, rest, c₂⟩, (hs _ _).mpr ⟨rfl, hmatch'⟩, rfl⟩

theorem Agrees.opt {r : Regex A} (hr : Agrees r) : Agrees (opt r) := by
  rintro t ⟨taken, rest, c⟩
  rw [ways, List.mem_append, hr, List.mem_singleton]
  constructor
  · rintro (⟨ht, hmatch⟩ | heq)
    · exact ⟨ht, .inl hmatch⟩
    · obtain ⟨rfl, rfl, rfl⟩ := Way.mk.inj heq
      exact ⟨rfl, .inr ⟨rfl, rfl⟩⟩
  · rintro ⟨ht, hmatch | ⟨hw, hc⟩⟩
    · exact .inl ⟨ht, hmatch⟩
    · dsimp only at ht hw hc
      rw [ht, hw, hc]
      exact .inr rfl

theorem Agrees.group {r : Regex A} (hr : Agrees r) (i : Nat) : Agrees (group i r) := by
  rintro t ⟨taken, rest, c⟩
  rw [ways, List.mem_map]
  constructor
  · rintro ⟨x, hx, heq⟩
    obtain ⟨rfl, rfl, rfl⟩ := Way.mk.inj heq
    obtain ⟨ht, hmatch⟩ := (hr t x).mp hx
    exact ⟨ht, _, hmatch, rfl⟩
  · rintro ⟨ht, c', hmatch, hc⟩
    refine ⟨⟨taken, rest, c'⟩, (hr _ _).mpr ⟨ht, hmatch⟩, ?_⟩
    dsimp only at hc
    rw [hc]

/-- The matcher agrees with the relation on every expression, by induction on it. -/
theorem agrees (r : Regex A) : Agrees r := by
  induction r with
  | text l => exact agrees_text l
  | many least p => exact agrees_many least p
  | seq r s ihr ihs => exact ihr.seq ihs
  | opt r ih => exact ih.opt
  | group i r ih => exact ih.group i

/-- The ways are the matches of the fronts. -/
theorem mem_ways_iff {r : Regex A} {t : List A} {x : Way A} :
    x ∈ ways r t ↔ t = x.taken ++ x.rest ∧ Matches r x.taken x.captures :=
  agrees r t x

/-- What the matcher captures is a match. -/
theorem matches_of_fullMatch {r : Regex A} {t : List A} {c : Captures A}
    (h : fullMatch r t = some c) : Matches r t c := by
  obtain ⟨x, hfind, rfl⟩ := Option.map_eq_some_iff.mp h
  obtain ⟨ht, hmatch⟩ := mem_ways_iff.mp (List.mem_of_find?_eq_some hfind)
  have hempty : x.rest.isEmpty = true :=
    List.find?_some (p := fun y : Way A => y.rest.isEmpty) hfind
  have hrest : x.rest = [] := List.isEmpty_iff.mp hempty
  rw [hrest, List.append_nil] at ht
  rw [ht]
  exact hmatch

/-- The matcher finds no match if and only if there is none. -/
theorem fullMatch_eq_none_iff {r : Regex A} {t : List A} :
    fullMatch r t = none ↔ ∀ c, ¬ Matches r t c := by
  constructor
  · intro h c hmatch
    have hnone := List.find?_eq_none.mp (Option.map_eq_none_iff.mp h) ⟨t, [], c⟩
      (mem_ways_iff.mpr ⟨(List.append_nil t).symm, hmatch⟩)
    exact hnone rfl
  · intro h
    cases hfull : fullMatch r t with
    | none => rfl
    | some c => exact absurd (matches_of_fullMatch hfull) (h c)

/-- A match without another is the one that is found, in whatever order it is looked for. -/
theorem fullMatch_eq_some {r : Regex A} {t : List A} {c : Captures A} (h : Matches r t c)
    (hunique : ∀ c', Matches r t c' → c' = c) : fullMatch r t = some c := by
  cases hfull : fullMatch r t with
  | none => exact absurd h (fullMatch_eq_none_iff.mp hfull c)
  | some c' => rw [hunique c' (matches_of_fullMatch hfull)]

end Matching

end Regex

end Sogx.Lib
