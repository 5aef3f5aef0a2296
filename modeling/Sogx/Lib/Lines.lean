import Mathlib.Data.List.Basic

/-!
Texts in lines that end with two marks, such as CR and LF.

* `lines_withMarks`: the lines come back from the text they were written to.
* `Grows` are the properties that a line keeps when more of it comes. What no
  line of a text has, no line of a part of it has: `not_of_append` for a front,
  where the last line may be cut, and `tail_not_of_append` for any part and its
  lines but the first.
-/

namespace Sogx.Lib

section Properties

variable {A : Type} {cr lf : A}

/-- Lines, each with its marks. -/
def withMarks (cr lf : A) (ls : List (List A)) : List A := ls.flatMap (· ++ [cr, lf])

/-- A property that a line keeps when more of it comes, and that the first mark
does not bring about. -/
structure Grows (cr : A) (P : List A → Prop) : Prop where
  append : ∀ l m, P l → P (l ++ m)
  mark : ∀ l, P (l ++ [cr]) → P l

theorem Grows.cons {P : List A → Prop} (h : Grows cr P) (a : A) :
    Grows cr fun l => P (a :: l) where
  append l m hl := h.append (a :: l) m hl
  mark l hl := h.mark (a :: l) hl

theorem Grows.nil {P : List A → Prop} (h : Grows cr P) {l : List A} (hl : ¬ P l) : ¬ P [] :=
  fun hnil => hl (h.append [] l hnil)

theorem grows_false : Grows cr fun _ => False where
  append _ _ h := h
  mark _ h := h

end Properties

section Lines

variable {A : Type} [DecidableEq A] (cr lf : A)

/-- The pieces between the pairs `cr`, `lf`. -/
def lines : List A → List (List A)
  | [] => [[]]
  | [a] => [[a]]
  | a :: b :: t =>
    if a = cr ∧ b = lf then [] :: lines t else (lines (b :: t)).modifyHead (a :: ·)

variable {cr lf}

theorem lines_ne_nil (t : List A) : lines cr lf t ≠ [] := by
  fun_induction lines cr lf t with
  | case1 => exact List.cons_ne_nil _ _
  | case2 a => exact List.cons_ne_nil _ _
  | case3 a b t h ih => exact List.cons_ne_nil _ _
  | case4 a b t h ih =>
    rw [ne_eq, List.modifyHead_eq_nil_iff]
    exact ih

theorem lines_eq_cons (cr lf : A) (t : List A) : ∃ l ls, lines cr lf t = l :: ls :=
  List.exists_cons_of_ne_nil (lines_ne_nil t)

/-- A mark in front ends an empty line. -/
theorem lines_marks (t : List A) : lines cr lf (cr :: lf :: t) = [] :: lines cr lf t := by
  rw [lines, if_pos ⟨rfl, rfl⟩]

/-- A letter that begins no mark belongs to the first line. -/
theorem lines_cons {a : A} {t : List A} (h : ¬ (a = cr ∧ t.head? = some lf)) :
    lines cr lf (a :: t) = (lines cr lf t).modifyHead (a :: ·) := by
  cases t with
  | nil => rfl
  | cons b t =>
    rw [lines, if_neg]
    rintro ⟨ha, rfl⟩
    exact h ⟨ha, rfl⟩

/-- A line has no marks inside. -/
theorem lines_append_marks {l : List A} (hne : cr ≠ lf) (h : lines cr lf l = [l]) (t : List A) :
    lines cr lf (l ++ cr :: lf :: t) = l :: lines cr lf t := by
  induction l with
  | nil => exact lines_marks t
  | cons a l ih =>
    have hno : ¬ (a = cr ∧ (l ++ cr :: lf :: t).head? = some lf) := by
      rintro ⟨rfl, hhead⟩
      cases l with
      | nil => exact hne (Option.some.inj hhead)
      | cons b l =>
        obtain rfl := Option.some.inj hhead
        rw [lines_marks] at h
        cases h
    have hno' : ¬ (a = cr ∧ l.head? = some lf) := by
      rintro ⟨ha, hhead⟩
      apply hno
      rw [List.head?_append, hhead]
      exact ⟨ha, rfl⟩
    obtain ⟨m, ms, hlines⟩ := lines_eq_cons cr lf l
    rw [lines_cons hno', hlines, List.modifyHead_cons] at h
    obtain ⟨hm, rfl⟩ := List.cons.inj h
    rw [(List.cons.inj hm).2] at hlines
    rw [List.cons_append, lines_cons hno, ih hlines, List.modifyHead_cons]

/-- Lines that hold no mark come back from their text. -/
theorem lines_withMarks {ls : List (List A)} (hne : cr ≠ lf) (h : ∀ l ∈ ls, lines cr lf l = [l])
    (t : List A) : lines cr lf (withMarks cr lf ls ++ t) = ls ++ lines cr lf t := by
  induction ls with
  | nil => rfl
  | cons l ls ih =>
    have hl := h l List.mem_cons_self
    have hrest := ih fun m hm => h m (List.mem_cons_of_mem l hm)
    rw [withMarks, List.flatMap_cons, List.append_assoc, List.append_assoc, List.cons_append,
      List.cons_append, List.nil_append, lines_append_marks hne hl]
    exact congrArg (l :: ·) hrest

/-! ### Parts of a text -/

/-- The first line does not have `P`, and no other line has `Q`. -/
def Lacks (cr lf : A) (P Q : List A → Prop) (t : List A) : Prop :=
  ∃ l ls, lines cr lf t = l :: ls ∧ ¬ P l ∧ ∀ m ∈ ls, ¬ Q m

theorem lacks_marks {P Q : List A → Prop} {t : List A} :
    Lacks cr lf P Q (cr :: lf :: t) ↔ ¬ P [] ∧ Lacks cr lf Q Q t := by
  unfold Lacks
  rw [lines_marks]
  constructor
  · rintro ⟨l, ls, heq, hl, hls⟩
    obtain ⟨rfl, rfl⟩ := List.cons.inj heq
    obtain ⟨m, ms, hm⟩ := lines_eq_cons cr lf t
    rw [hm] at hls
    exact ⟨hl, m, ms, hm, hls m List.mem_cons_self, fun k hk => hls k (List.mem_cons_of_mem m hk)⟩
  · rintro ⟨hnil, m, ms, hm, hfirst, hrest⟩
    refine ⟨[], _, rfl, hnil, ?_⟩
    rw [hm]
    exact List.forall_mem_cons.mpr ⟨hfirst, hrest⟩

theorem lacks_cons {P Q : List A → Prop} {a : A} {t : List A}
    (h : ¬ (a = cr ∧ t.head? = some lf)) :
    Lacks cr lf P Q (a :: t) ↔ Lacks cr lf (fun l => P (a :: l)) Q t := by
  obtain ⟨m, ms, hm⟩ := lines_eq_cons cr lf t
  unfold Lacks
  rw [lines_cons h, hm, List.modifyHead_cons]
  constructor
  · rintro ⟨l, ls, heq, hl, hls⟩
    obtain ⟨rfl, rfl⟩ := List.cons.inj heq
    exact ⟨m, ms, rfl, hl, hls⟩
  · rintro ⟨l, ls, heq, hl, hls⟩
    obtain ⟨rfl, rfl⟩ := List.cons.inj heq
    exact ⟨a :: m, ms, rfl, hl, hls⟩

/-- A front of a text, however it is cut. -/
theorem lacks_of_append {P Q : List A → Prop} (hP : Grows cr P) (hQ : Grows cr Q) {x y : List A}
    (h : Lacks cr lf P Q (x ++ y)) : Lacks cr lf P Q x := by
  induction hn : x.length using Nat.strongRecOn generalizing x P with
  | ind n ih =>
    cases x with
    | nil =>
      obtain ⟨l, ls, -, hl, -⟩ := h
      exact ⟨[], [], rfl, hP.nil hl, fun m hm => (List.not_mem_nil hm).elim⟩
    | cons a x =>
      subst hn
      by_cases hmark : a = cr ∧ (x ++ y).head? = some lf
      · obtain ⟨rfl, hhead⟩ := hmark
        cases x with
        | nil =>
          -- the cut is between the two marks
          cases y with
          | nil => cases hhead
          | cons b y =>
            obtain rfl := Option.some.inj hhead
            have hnil := (lacks_marks.mp h).1
            exact ⟨[a], [], rfl, fun hmark => hnil (hP.mark [] hmark),
              fun m hm => (List.not_mem_nil hm).elim⟩
        | cons b x =>
          obtain rfl := Option.some.inj hhead
          obtain ⟨hnil, hrest⟩ := lacks_marks.mp h
          have hshorter : x.length < x.length + 2 := Nat.lt_add_of_pos_right Nat.two_pos
          exact lacks_marks.mpr ⟨hnil, ih x.length hshorter hQ hrest rfl⟩
      · have hmark' : ¬ (a = cr ∧ x.head? = some lf) := by
          rintro ⟨ha, hhead⟩
          apply hmark
          rw [List.head?_append, hhead]
          exact ⟨ha, rfl⟩
        rw [List.cons_append, lacks_cons hmark] at h
        rw [lacks_cons hmark']
        exact ih x.length (Nat.lt_succ_self _) (hP.cons a) h rfl

/-- Behind a cut, the lines but the first are lines of the whole text. -/
theorem tail_lines_suffix (hne : cr ≠ lf) (x y : List A) :
    (lines cr lf y).tail <:+ (lines cr lf (x ++ y)).tail := by
  fun_induction lines cr lf x with
  | case1 => exact List.suffix_refl _
  | case2 a =>
    by_cases hmark : a = cr ∧ y.head? = some lf
    · obtain ⟨rfl, hhead⟩ := hmark
      cases y with
      | nil => cases hhead
      | cons b y =>
        obtain rfl := Option.some.inj hhead
        have hno : ¬ (b = a ∧ y.head? = some b) := fun hmark => hne hmark.1.symm
        rw [List.cons_append, List.nil_append, lines_marks, lines_cons hno, List.tail_modifyHead]
        exact List.tail_suffix _
    · have htail : (lines cr lf ([a] ++ y)).tail = (lines cr lf y).tail := by
        rw [List.cons_append, List.nil_append, lines_cons hmark, List.tail_modifyHead]
      exact htail ▸ List.suffix_refl _
  | case3 a b t h ih =>
    obtain ⟨rfl, rfl⟩ := h
    rw [List.cons_append, List.cons_append, lines_marks]
    exact ih.trans (List.tail_suffix _)
  | case4 a b t h ih =>
    have hno : ¬ (a = cr ∧ (b :: t ++ y).head? = some lf) :=
      fun hmark => h ⟨hmark.1, Option.some.inj hmark.2⟩
    rw [List.cons_append, lines_cons hno, List.tail_modifyHead]
    exact ih

/-- The first line does not have `P`, and no line behind it has `Q`. -/
theorem lacks_iff {P Q : List A → Prop} {t : List A} :
    Lacks cr lf P Q t ↔
      (∀ l, (lines cr lf t).head? = some l → ¬ P l) ∧ ∀ l ∈ (lines cr lf t).tail, ¬ Q l := by
  obtain ⟨l, ls, hl⟩ := lines_eq_cons cr lf t
  unfold Lacks
  rw [hl]
  constructor
  · rintro ⟨m, ms, heq, hm, hms⟩
    obtain ⟨rfl, rfl⟩ := List.cons.inj heq
    refine ⟨?_, hms⟩
    intro k hk
    rwa [← Option.some.inj hk]
  · rintro ⟨hfirst, hrest⟩
    exact ⟨l, ls, rfl, hfirst l rfl, hrest⟩

/-- What no line of a text has, none of a front of it has. -/
theorem not_of_append {Q : List A → Prop} (hQ : Grows cr Q) {x y : List A}
    (h : ∀ l ∈ lines cr lf (x ++ y), ¬ Q l) : ∀ l ∈ lines cr lf x, ¬ Q l := by
  obtain ⟨l, ls, hl⟩ := lines_eq_cons cr lf (x ++ y)
  rw [hl] at h
  have hlacks : Lacks cr lf Q Q (x ++ y) :=
    ⟨l, ls, hl, h l List.mem_cons_self, fun m hm => h m (List.mem_cons_of_mem l hm)⟩
  obtain ⟨m, ms, hm, hfirst, hrest⟩ := lacks_of_append hQ hQ hlacks
  rw [hm]
  exact List.forall_mem_cons.mpr ⟨hfirst, hrest⟩

/-- The same of the lines but the first, for any part of the text. -/
theorem tail_not_of_append {Q : List A → Prop} (hne : cr ≠ lf) (hQ : Grows cr Q) {x y z : List A}
    (h : ∀ l ∈ (lines cr lf (x ++ y ++ z)).tail, ¬ Q l) : ∀ l ∈ (lines cr lf y).tail, ¬ Q l := by
  have hbehind : ∀ l ∈ (lines cr lf (y ++ z)).tail, ¬ Q l := by
    intro l hl
    rw [List.append_assoc] at h
    exact h l ((tail_lines_suffix hne x (y ++ z)).subset hl)
  have hlacks : Lacks cr lf (fun _ => False) Q (y ++ z) := lacks_iff.mpr ⟨fun _ _ h => h, hbehind⟩
  exact (lacks_iff.mp (lacks_of_append grows_false hQ hlacks)).2

end Lines

end Sogx.Lib
