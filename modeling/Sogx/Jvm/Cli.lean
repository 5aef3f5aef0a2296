import Mathlib.Algebra.Ring.Int.Defs
import Mathlib.Algebra.Ring.Nat
import Mathlib.Data.List.Forall2
import Sogx.Jvm.Utils
import Sogx.Lib.Loop
import Sogx.Lib.Regex

/-!
`Cli.scala`: the command line.

A line is the quit command, an image command, an mjpeg command, or none of them. The
loop reads lines until the quit command. Behind the end of the input
`Console.readLine` returns `null` for ever.

* `unapply_of_form`, `unapply_of_none`: the mjpeg command in terms of its grammar.
* `line_parses_iff`: a line is parsed without an exception if and only if its rate
  fits an `Int`.
* `commandLoop_returns_iff`: the loop returns if and only if it gets to a quit command.
-/

namespace Sogx.Cli

open Sogx.Lib

/-- A `String`; `none` is `null`. -/
abbrev JString := Option (List Char)

/-- `NumberFormatException`, with the input string of its message. -/
inductive NumberFormatException where
  | forInputString (s : List Char)
deriving DecidableEq, Repr

def value (digits : List Char) : Nat := digits.foldl (fun n c => 10 * n + (c.toNat - 48)) 0

/-- `toInt` of a string of decimal digits. -/
def toInt (digits : List Char) : Except NumberFormatException Int :=
  if value digits < 2 ^ 31 then .ok (value digits) else .error (.forInputString digits)

/-- `Regex.unapplySeq`: the groups of a match of the whole target. A group without a
part in the match is `null`; a `null` target does not match. -/
def unapplySeq (regex : Regex Char) (groupCount : Nat) (target : JString) : Option (List JString) :=
  target.bind fun s => (regex.fullMatch s).map fun captures =>
    (List.range groupCount).map fun i => captures.lookup (i + 1)

namespace Commands

def QuitCommand : List Char := "quit".toList

/-- `.` takes everything but these. -/
def lineTerminators : List Char := ['\n', '\r', '\u0085', '\u2028', '\u2029']

/-- `"image:(.*)".r` -/
def ImageCommand : Regex Char :=
  .seq (.text "image:".toList) (.group 1 (.many 0 fun c => c ∉ lineTerminators))

namespace MJPEGCommand

/-- `"mjpeg:([^?]*)(\\?fps=(\\d+))?".r` -/
def regex : Regex Char :=
  .seq (.text "mjpeg:".toList)
    (.seq (.group 1 (.many 0 fun c => c ≠ '?'))
      (.opt (.group 2 (.seq (.text "?fps=".toList) (.group 3 (.many 1 Char.isDigit))))))

def unapply (input : JString) : Except NumberFormatException (Option (JString × Int)) :=
  match unapplySeq regex 3 input with
  | some [fileName, _, fps] => do
    let fps ← fps.elim (.ok 10) toInt
    .ok (some (fileName, fps))
  | _ => .ok none

end MJPEGCommand

end Commands

open Commands

/-- What the arms of the match do, and what is done behind the loop. -/
inductive Action where
  | quit
  | readAll (fileName : JString)
  | readChunks (fileName : JString) (fps : Int)
  | nothing
  | wtf
  | close
deriving DecidableEq, Repr

/-- The match of `commandLoop`, with its arms in their order. -/
def matchLine (line : JString) : Except NumberFormatException Action :=
  if line = some QuitCommand then .ok .quit
  else
    match unapplySeq ImageCommand 1 line with
    | some [fileName] => .ok (.readAll fileName)
    | _ => do
      match ← MJPEGCommand.unapply line with
      | some (fileName, fps) => .ok (.readChunks fileName fps)
      | none => if line = none then .ok .nothing else .ok .wtf

/-- The lines that are still to come, and what was done for those before. -/
structure State where
  input : List (List Char)
  handled : List Action

/-- `Console.readLine` -/
def readLine (input : List (List Char)) : JString × List (List Char) := (input.head?, input.tail)

/-- One turn of `commandLoop`; an exception leaves it. -/
def turn (s : State) : Except Failure (Turn State (List Action)) :=
  let (line, rest) := readLine s.input
  match matchLine line with
  | .error _ => .error .fault
  | .ok .quit => .ok (.done s.handled)
  | .ok .nothing => .ok (.again ⟨rest, s.handled⟩)
  | .ok action => .ok (.again ⟨rest, s.handled ++ [action]⟩)

def commandLoop (input : List (List Char)) : Fueled (List Action) :=
  loop (fun s _ => turn s) ⟨input, []⟩

/-- The body of `Cli` from the loop on. -/
def main (input : List (List Char)) : Fueled (List Action) := fun n =>
  commandLoop input n >>= fun handled => .ok (handled ++ [.close])

/-! ### The grammar of the mjpeg command -/

/-- `mjpeg:<name>` or `mjpeg:<name>?fps=<digits>`. -/
inductive Form : List Char → List Char → Option (List Char) → Prop where
  | plain {name : List Char} : '?' ∉ name → Form ("mjpeg:".toList ++ name) name none
  | rated {name digits : List Char} : '?' ∉ name → digits ≠ [] → (∀ c ∈ digits, c.isDigit = true) →
      Form ("mjpeg:".toList ++ (name ++ ("?fps=".toList ++ digits))) name (some digits)

/-- The captures of a form. -/
def captured (name : List Char) (fps : Option (List Char)) : Captures Char :=
  fps.elim [] (fun digits => [(2, "?fps=".toList ++ digits), (3, digits)]) ++ [(1, name)]

theorem not_mem_of_class {name : List Char} :
    (∀ c ∈ name, decide (c ≠ '?') = true) ↔ '?' ∉ name := by
  simp only [decide_eq_true_eq]
  constructor
  · intro h hmem
    exact h '?' hmem rfl
  · rintro h c hc rfl
    exact h hc

/-- The expression matches the lines of the form, and captures their name and their rate. -/
theorem matches_regex_iff {s : List Char} {c : Captures Char} :
    MJPEGCommand.regex.Matches s c ↔ ∃ name fps, Form s name fps ∧ c = captured name fps := by
  constructor
  · rintro ⟨w, w', c₁, c₂, ⟨rfl, rfl⟩, ⟨name, tail, c₃, c₄, ⟨c₅, ⟨hname, -, rfl⟩, rfl⟩, hopt, rfl, rfl⟩,
      rfl, rfl⟩
    have hmark := not_mem_of_class.mp hname
    rcases hopt with ⟨c₆, ⟨w, digits, c₇, c₈, ⟨rfl, rfl⟩, ⟨c₉, ⟨hdigits, hleast, rfl⟩, rfl⟩, rfl, rfl⟩,
      rfl⟩ | ⟨rfl, rfl⟩
    · have hne : digits ≠ [] := List.length_pos_iff.mp hleast
      exact ⟨name, some digits, .rated hmark hne hdigits, rfl⟩
    · rw [List.append_nil]
      exact ⟨name, none, .plain hmark, rfl⟩
  · rintro ⟨name, fps, hform, rfl⟩
    have hgroup : ∀ {name}, '?' ∉ name →
        (Regex.group 1 (.many 0 fun c => c ≠ '?')).Matches name [(1, name)] := by
      intro name hmark
      exact ⟨[], ⟨not_mem_of_class.mpr hmark, Nat.zero_le _, rfl⟩, rfl⟩
    cases hform with
    | plain hmark =>
      exact ⟨_, name, [], _, ⟨rfl, rfl⟩,
        ⟨name, [], [(1, name)], [], hgroup hmark, .inr ⟨rfl, rfl⟩, (List.append_nil name).symm, rfl⟩,
        rfl, rfl⟩
    | @rated _ digits hmark hne hdigits =>
      have hleast : 1 ≤ digits.length := List.length_pos_iff.mpr hne
      exact ⟨_, _, [], _, ⟨rfl, rfl⟩,
        ⟨name, _, [(1, name)], [(2, _), (3, digits)], hgroup hmark,
          .inl ⟨[(3, digits)], ⟨_, digits, [], [(3, digits)], ⟨rfl, rfl⟩,
            ⟨[], ⟨hdigits, hleast, rfl⟩, rfl⟩, rfl, rfl⟩, rfl⟩, rfl, rfl⟩, rfl, rfl⟩

theorem mark_notMem_digits {digits : List Char} (h : ∀ c ∈ digits, c.isDigit = true) :
    '?' ∉ "fps=".toList ++ digits := by
  intro hmem
  rcases List.mem_append.mp hmem with hmem | hmem
  · exact absurd hmem (by decide)
  · exact absurd (h '?' hmem) (by decide)

/-- The mark ends the name, so a line has one form. -/
theorem Form.unique {s name name' : List Char} {fps fps' : Option (List Char)} (h : Form s name fps)
    (h' : Form s name' fps') : name = name' ∧ fps = fps' := by
  generalize hs : s = t at h'
  cases h with
  | plain hmark =>
    cases h' with
    | plain => exact ⟨List.append_cancel_left hs, rfl⟩
    | rated hmark' =>
      have hname := List.append_cancel_left hs
      rw [hname] at hmark
      exact absurd (by simp) hmark
  | @rated _ digits hmark _ hdigits =>
    cases h' with
    | plain hmark' =>
      have hname := List.append_cancel_left hs
      rw [← hname] at hmark'
      exact absurd (by simp) hmark'
    | @rated _ digits' =>
      have hcut : name ++ '?' :: ("fps=".toList ++ digits) =
          name' ++ '?' :: ("fps=".toList ++ digits') := List.append_cancel_left hs
      obtain ⟨hname, -, htail⟩ :=
        (List.append_cons_inj_of_notMem hmark (mark_notMem_digits hdigits)).mp hcut
      exact ⟨hname, congrArg some (List.append_cancel_left htail)⟩

namespace Commands.MJPEGCommand

/-- A line of the form has its name and its rate as groups. -/
theorem groups_of_form {s name : List Char} {fps : Option (List Char)} (h : Form s name fps) :
    ∃ second, unapplySeq regex 3 (some s) = some [some name, second, fps] := by
  have hfull : regex.fullMatch s = some (captured name fps) := by
    refine Regex.fullMatch_eq_some (matches_regex_iff.mpr ⟨name, fps, h, rfl⟩) ?_
    intro c hmatch
    obtain ⟨name', fps', h', rfl⟩ := matches_regex_iff.mp hmatch
    obtain ⟨rfl, rfl⟩ := h.unique h'
    rfl
  refine ⟨(captured name fps).lookup 2, ?_⟩
  rw [unapplySeq, Option.bind_some, hfull]
  cases fps <;> rfl

/-- A line of the grammar gives the name and the rate, ten if there is none. -/
theorem unapply_of_form {s name : List Char} {fps : Option (List Char)} (h : Form s name fps) :
    unapply (some s) = (fps.elim (.ok 10) toInt).map fun n => some (some name, n) := by
  obtain ⟨second, hgroups⟩ := groups_of_form h
  rw [unapply, hgroups]
  dsimp only
  cases fps.elim (Except.ok 10) toInt <;> rfl

theorem unapply_of_none {s : List Char} (h : ∀ name fps, ¬ Form s name fps) :
    unapply (some s) = .ok none := by
  have hfull : regex.fullMatch s = none := by
    refine Regex.fullMatch_eq_none_iff.mpr ?_
    intro c hmatch
    obtain ⟨name, fps, hform, -⟩ := matches_regex_iff.mp hmatch
    exact h name fps hform
  rw [unapply, unapplySeq, Option.bind_some, hfull]
  rfl

end Commands.MJPEGCommand

/-- A rate that does not fit an `Int`. -/
def Overlong (s : List Char) : Prop :=
  ∃ name digits, Form s name (some digits) ∧ 2 ^ 31 ≤ value digits

/-- The mjpeg command as it is documented, with a rate that is an `Int`. -/
def Grammar (s name : List Char) (n : Int) : Prop :=
  '?' ∉ name ∧ ((s = "mjpeg:".toList ++ name ∧ n = 10) ∨
    ∃ digits, digits ≠ [] ∧ (∀ c ∈ digits, c.isDigit = true) ∧
      s = "mjpeg:".toList ++ (name ++ ("?fps=".toList ++ digits)) ∧
      n = value digits ∧ value digits < 2 ^ 31)

/-- A line is in the grammar if it has the form and its rate is a number for an `Int`. -/
theorem grammar_iff {s name : List Char} {n : Int} :
    Grammar s name n ↔ ∃ fps, Form s name fps ∧ fps.elim (.ok 10) toInt = .ok n := by
  constructor
  · rintro ⟨hmark, ⟨rfl, rfl⟩ | ⟨digits, hne, hdigits, rfl, rfl, hlt⟩⟩
    · exact ⟨none, .plain hmark, rfl⟩
    · exact ⟨some digits, .rated hmark hne hdigits, if_pos hlt⟩
  · rintro ⟨fps, hform, hn⟩
    cases hform with
    | plain hmark => exact ⟨hmark, .inl ⟨rfl, (Except.ok.inj hn).symm⟩⟩
    | @rated _ digits hmark hne hdigits =>
      rw [Option.elim_some, toInt] at hn
      split at hn
      case isTrue hlt =>
        exact ⟨hmark, .inr ⟨digits, hne, hdigits, rfl, (Except.ok.inj hn).symm, hlt⟩⟩
      case isFalse => cases hn

/-- The rates that are parsed are not negative. -/
theorem rate_nonneg {s name : List Char} {n : Int} (h : Grammar s name n) : 0 ≤ n ∧ n < 2 ^ 31 := by
  obtain ⟨-, ⟨-, rfl⟩ | ⟨digits, -, -, -, rfl, hlt⟩⟩ := h
  · exact ⟨by decide, by decide⟩
  · exact ⟨Int.natCast_nonneg _, by omega⟩

/-- Of the rates of a line only 0 has no pause, so that `readChunks` delivers nothing. -/
theorem paced_iff_of_line {s name : List Char} {n : Int} (h : Grammar s name n) :
    Utils.Paced n ↔ n ≠ 0 := by
  obtain ⟨hnonneg, -⟩ := rate_nonneg h
  unfold Utils.Paced
  omega

/-- A rate of a line of the form is too long if and only if `toInt` throws. -/
theorem overlong_iff_of_form {s name : List Char} {fps : Option (List Char)} (h : Form s name fps) :
    Overlong s ↔ ∃ e, fps.elim (.ok 10) toInt = .error e := by
  constructor
  · rintro ⟨name', digits, hform, hge⟩
    obtain ⟨-, rfl⟩ := h.unique hform
    exact ⟨.forInputString digits, if_neg (Nat.not_lt.mpr hge)⟩
  · rintro ⟨e, hrate⟩
    cases fps with
    | none => cases hrate
    | some digits =>
      refine ⟨name, digits, h, ?_⟩
      by_contra hlt
      rw [Option.elim_some, toInt, if_pos (Nat.not_le.mp hlt)] at hrate
      cases hrate

/-- The parse of a line whose rate does not fit an `Int`, and of every other line. -/
theorem unapply_cases (s : List Char) :
    (Overlong s ∧ ∃ e, MJPEGCommand.unapply (some s) = .error e) ∨
      (¬ Overlong s ∧ ∃ r, MJPEGCommand.unapply (some s) = .ok r ∧
        ∀ name n, r = some (name, n) ↔ ∃ file, name = some file ∧ Grammar s file n) := by
  by_cases hform : ∃ name fps, Form s name fps
  · obtain ⟨name, fps, hform⟩ := hform
    have hunapply := MJPEGCommand.unapply_of_form hform
    rw [overlong_iff_of_form hform]
    cases hrate : fps.elim (Except.ok 10) toInt with
    | error e =>
      rw [hrate] at hunapply
      exact .inl ⟨⟨e, rfl⟩, e, hunapply⟩
    | ok n =>
      rw [hrate] at hunapply
      refine .inr ⟨?_, some (some name, n), hunapply, ?_⟩
      · rintro ⟨e, he⟩
        cases he
      · intro name' n'
        constructor
        · intro heq
          obtain ⟨rfl, rfl⟩ := Prod.mk.inj (Option.some.inj heq)
          exact ⟨name, rfl, grammar_iff.mpr ⟨fps, hform, hrate⟩⟩
        · rintro ⟨file, rfl, hgrammar⟩
          obtain ⟨fps', hform', hrate'⟩ := grammar_iff.mp hgrammar
          obtain ⟨rfl, rfl⟩ := hform.unique hform'
          rw [Except.ok.inj (hrate.symm.trans hrate')]
  · have hnone : ∀ name fps, ¬ Form s name fps := fun name fps h => hform ⟨name, fps, h⟩
    refine .inr ⟨?_, none, MJPEGCommand.unapply_of_none hnone, ?_⟩
    · rintro ⟨name, digits, h, -⟩
      exact hnone name _ h
    · intro name n
      constructor
      · intro heq
        cases heq
      · rintro ⟨file, -, hgrammar⟩
        obtain ⟨fps, h, -⟩ := grammar_iff.mp hgrammar
        exact absurd h (hnone file fps)

/-! ### The arms of the match -/

/-- The three patterns with a command, in terms of the code's extractors. -/
def QuitMatches (s : List Char) : Prop := s = QuitCommand

def ImageMatches (s : List Char) : Prop := unapplySeq ImageCommand 1 (some s) ≠ none

def MJPEGMatches (s : List Char) : Prop := MJPEGCommand.unapply (some s) ≠ .ok none

/-- The pattern of images takes a file name without line ends. -/
theorem unapplySeq_image {s : List Char} {groups : List JString} :
    unapplySeq ImageCommand 1 (some s) = some groups ↔
      ∃ file, s = "image:".toList ++ file ∧ (∀ c ∈ file, c ∉ lineTerminators) ∧
        groups = [some file] := by
  have hmatches : ∀ c, ImageCommand.Matches s c ↔
      ∃ file, s = "image:".toList ++ file ∧ (∀ c ∈ file, c ∉ lineTerminators) ∧ c = [(1, file)] := by
    intro c
    constructor
    · rintro ⟨w, file, c₁, c₂, ⟨rfl, rfl⟩, ⟨c₃, ⟨hfile, -, rfl⟩, rfl⟩, rfl, rfl⟩
      exact ⟨file, rfl, fun c hc => of_decide_eq_true (hfile c hc), rfl⟩
    · rintro ⟨file, rfl, hfile, rfl⟩
      have hclass : ∀ c ∈ file, decide (c ∉ lineTerminators) = true :=
        fun c hc => decide_eq_true (hfile c hc)
      exact ⟨_, file, [], _, ⟨rfl, rfl⟩, ⟨[], ⟨hclass, Nat.zero_le _, rfl⟩, rfl⟩, rfl, rfl⟩
  rw [unapplySeq, Option.bind_some]
  constructor
  · intro h
    obtain ⟨c, hfull, rfl⟩ := Option.map_eq_some_iff.mp h
    obtain ⟨file, hs, hfile, rfl⟩ := (hmatches c).mp (Regex.matches_of_fullMatch hfull)
    exact ⟨file, hs, hfile, rfl⟩
  · rintro ⟨file, rfl, hfile, rfl⟩
    have hfull : ImageCommand.fullMatch ("image:".toList ++ file) = some [(1, file)] := by
      refine Regex.fullMatch_eq_some ((hmatches _).mpr ⟨file, rfl, hfile, rfl⟩) ?_
      intro c hmatch
      obtain ⟨file', hs, -, rfl⟩ := (hmatches c).mp hmatch
      rw [List.append_cancel_left hs]
    rw [hfull]
    rfl

theorem image_of_matches {s : List Char} (h : ImageMatches s) : ∃ file, s = "image:".toList ++ file := by
  obtain ⟨groups, hgroups⟩ := Option.ne_none_iff_exists'.mp h
  obtain ⟨file, hs, -, -⟩ := unapplySeq_image.mp hgroups
  exact ⟨file, hs⟩

theorem form_of_matches {s : List Char} (h : MJPEGMatches s) : ∃ name fps, Form s name fps := by
  by_contra hnone
  exact h (MJPEGCommand.unapply_of_none fun name fps hform => hnone ⟨name, fps, hform⟩)

/-! The commands differ in their first letters. -/

theorem head_of_form {s name : List Char} {fps : Option (List Char)} (h : Form s name fps) :
    s.head? = some 'm' := by
  cases h <;> rfl

theorem not_image_of_quit {s : List Char} (h : QuitMatches s) : ¬ ImageMatches s := by
  intro himage
  obtain ⟨file, hs⟩ := image_of_matches himage
  have hhead := congrArg List.head? (h.symm.trans hs)
  exact absurd (Option.some.inj hhead) (by decide)

theorem not_quit_of_form {s name : List Char} {fps : Option (List Char)} (h : Form s name fps) :
    ¬ QuitMatches s := by
  intro hquit
  have hhead := (congrArg List.head? hquit).symm.trans (head_of_form h)
  exact absurd (Option.some.inj hhead) (by decide)

theorem not_image_of_form {s name : List Char} {fps : Option (List Char)} (h : Form s name fps) :
    ¬ ImageMatches s := by
  intro himage
  obtain ⟨file, hs⟩ := image_of_matches himage
  have hhead := (congrArg List.head? hs).symm.trans (head_of_form h)
  exact absurd (Option.some.inj hhead) (by decide)

/-- At most one of the three commands. -/
def Single (s : List Char) : Prop :=
  ¬ (QuitMatches s ∧ ImageMatches s) ∧ ¬ (QuitMatches s ∧ MJPEGMatches s) ∧
    ¬ (ImageMatches s ∧ MJPEGMatches s)

/-- No line matches two of the patterns. -/
theorem single (s : List Char) : Single s := by
  refine ⟨?_, ?_, ?_⟩
  · rintro ⟨hquit, himage⟩
    exact not_image_of_quit hquit himage
  · rintro ⟨hquit, hmjpeg⟩
    obtain ⟨name, fps, hform⟩ := form_of_matches hmjpeg
    exact not_quit_of_form hform hquit
  · rintro ⟨himage, hmjpeg⟩
    obtain ⟨name, fps, hform⟩ := form_of_matches hmjpeg
    exact not_image_of_form hform himage

theorem matchLine_null : matchLine none = .ok .nothing := rfl

theorem matchLine_quit : matchLine (some QuitCommand) = .ok .quit := if_pos rfl

/-- A line that names an image has its file read. -/
theorem matchLine_image {s : List Char} {groups : List JString}
    (h : unapplySeq ImageCommand 1 (some s) = some groups) :
    ∃ file, matchLine (some s) = .ok (.readAll file) := by
  have himage : ImageMatches s := Option.ne_none_iff_exists'.mpr ⟨groups, h⟩
  have hquit : some s ≠ some QuitCommand := fun heq => not_image_of_quit (Option.some.inj heq) himage
  obtain ⟨file, -, -, rfl⟩ := unapplySeq_image.mp h
  refine ⟨some file, ?_⟩
  rw [matchLine, if_neg hquit, h]

/-- The last arms, behind those of the quit and the image command. -/
theorem matchLine_rest {s : List Char} (hquit : ¬ QuitMatches s) (himage : ¬ ImageMatches s) :
    matchLine (some s) = (MJPEGCommand.unapply (some s)).map fun r =>
      r.elim .wtf fun command => .readChunks command.1 command.2 := by
  have hquit' : some s ≠ some QuitCommand := fun heq => hquit (Option.some.inj heq)
  have himage' : unapplySeq ImageCommand 1 (some s) = none := not_not.mp himage
  rw [matchLine, if_neg hquit', himage']
  cases hunapply : MJPEGCommand.unapply (some s) with
  | error e => rfl
  | ok r => cases r <;> rfl

/-- Only a rate that is too long throws. -/
theorem matchLine_ok_iff {s : List Char} : (∃ action, matchLine (some s) = .ok action) ↔ ¬ Overlong s := by
  by_cases hover : Overlong s
  · obtain ⟨name, digits, hform, hge⟩ := hover
    have hthrow : toInt digits = .error (.forInputString digits) := if_neg (Nat.not_lt.mpr hge)
    rw [matchLine_rest (not_quit_of_form hform) (not_image_of_form hform), MJPEGCommand.unapply_of_form hform, Option.elim_some, hthrow]
    constructor
    · rintro ⟨action, haction⟩
      cases haction
    · intro hnot
      exact absurd ⟨name, digits, hform, hge⟩ hnot
  · refine ⟨fun _ => hover, fun _ => ?_⟩
    by_cases hquit : QuitMatches s
    · rw [hquit]
      exact ⟨.quit, matchLine_quit⟩
    cases himage : unapplySeq ImageCommand 1 (some s) with
    | some groups =>
      obtain ⟨file, hline⟩ := matchLine_image himage
      exact ⟨.readAll file, hline⟩
    | none =>
      rw [matchLine_rest hquit (not_not.mpr himage)]
      rcases unapply_cases s with ⟨h, -⟩ | ⟨-, r, hr, -⟩
      · exact absurd h hover
      · rw [hr]
        exact ⟨_, rfl⟩

/-- A line is parsed as its grammar says, without an exception, and by one command at
most, exactly if it has no rate that is too large. -/
theorem line_parses_iff (s : List Char) :
    ((∃ r, MJPEGCommand.unapply (some s) = .ok r ∧
        ∀ name n, r = some (name, n) ↔ ∃ file, name = some file ∧ Grammar s file n) ∧
      Single s ∧ ∃ action, matchLine (some s) = .ok action) ↔ ¬ Overlong s := by
  rw [matchLine_ok_iff]
  constructor
  · rintro ⟨-, -, h⟩
    exact h
  · intro h
    rcases unapply_cases s with ⟨hover, -⟩ | ⟨-, hparse⟩
    · exact absurd hover h
    · exact ⟨hparse, single s, h⟩

/-- A line with such a rate ends the loop by an exception. -/
theorem turn_overlong {s : List Char} {rest : List (List Char)} {handled : List Action}
    (h : Overlong s) : turn ⟨s :: rest, handled⟩ = .error .fault := by
  cases hline : matchLine (some s) with
  | ok action => exact absurd h (matchLine_ok_iff.mp ⟨action, hline⟩)
  | error e => simp only [turn, readLine, List.head?_cons, hline]

/-- A rate of 2^31 frames a second ends the loop. -/
theorem overlong_rate_throws :
    MJPEGCommand.unapply (some "mjpeg:a?fps=2147483648".toList) =
        .error (.forInputString "2147483648".toList) ∧
      turn ⟨["mjpeg:a?fps=2147483648".toList], []⟩ = .error .fault := by
  have hform : Form "mjpeg:a?fps=2147483648".toList ['a'] (some "2147483648".toList) :=
    @Form.rated ['a'] "2147483648".toList (by decide) (by decide) (List.all_eq_true.mp (by decide))
  have hge : 2 ^ 31 ≤ value "2147483648".toList := by decide
  refine ⟨?_, turn_overlong ⟨['a'], _, hform, hge⟩⟩
  rw [MJPEGCommand.unapply_of_form hform, Option.elim_some, toInt, if_neg (by omega)]
  rfl

/-! ### The loop -/

section CommandLoop

variable {input : List (List Char)} {handled : List Action}

/-- The arm that a line takes. -/
def Handles (line : List Char) (action : Action) : Prop := matchLine (some line) = .ok action

def beforeQuit (input : List (List Char)) : List (List Char) :=
  input.takeWhile fun line => decide (line ≠ QuitCommand)

/-- Only the quit command leaves the loop, and no line takes the arm of `null`. -/
theorem action_of_line {line : List Char} {action : Action} (hquit : line ≠ QuitCommand)
    (h : Handles line action) : action ≠ .quit ∧ action ≠ .nothing := by
  cases himage : unapplySeq ImageCommand 1 (some line) with
  | some groups =>
    obtain ⟨file, hline⟩ := matchLine_image himage
    rw [Except.ok.inj (h.symm.trans hline)]
    exact ⟨Action.noConfusion, Action.noConfusion⟩
  | none =>
    have hrest := matchLine_rest hquit (not_not.mpr himage)
    rw [Handles, hrest] at h
    cases hunapply : MJPEGCommand.unapply (some line) with
    | error e =>
      rw [hunapply] at h
      cases h
    | ok r =>
      rw [hunapply] at h
      rw [← Except.ok.inj h]
      cases r with
      | none => exact ⟨Action.noConfusion, Action.noConfusion⟩
      | some command => exact ⟨Action.noConfusion, Action.noConfusion⟩

/-- At the end of the input a turn changes nothing. -/
theorem turn_nil : turn ⟨[], handled⟩ = .ok (.again ⟨[], handled⟩) := by
  simp only [turn, readLine, List.head?_nil, List.tail_nil, matchLine_null]

theorem turn_quit : turn ⟨QuitCommand :: input, handled⟩ = .ok (.done handled) := by
  simp only [turn, readLine, List.head?_cons, matchLine_quit]

/-- The action of a line is added to those handled, and the loop goes on. -/
theorem turn_line {line : List Char} {action : Action} (hquit : line ≠ QuitCommand)
    (h : Handles line action) :
    turn ⟨line :: input, handled⟩ = .ok (.again ⟨input, handled ++ [action]⟩) := by
  obtain ⟨hnotQuit, hnotNothing⟩ := action_of_line hquit h
  simp only [turn, readLine, List.head?_cons, List.tail_cons, Handles] at h ⊢
  rw [h]
  cases action with
  | quit => exact absurd rfl hnotQuit
  | nothing => exact absurd rfl hnotNothing
  | readAll => rfl
  | readChunks => rfl
  | wtf => rfl
  | close => rfl

abbrev commands (s : State) : Fueled (List Action) := loop (fun s _ => turn s) s

theorem steady_turn (s : State) : Steady fun _ => turn s := steady_const (turn s)

/-- The loop gives what its turns give. -/
theorem gives_commands_iff {s : State} {r : List Action} :
    Gives (commands s) r ↔
      turn s = .ok (.done r) ∨ ∃ t, turn s = .ok (.again t) ∧ Gives (commands t) r := by
  have hturn := gives_loop_turn steady_turn (s := s) (r := r)
  simpa only [Again, gives_const_iff] using hturn

/-- Without a further line the loop does not return. -/
theorem not_gives_nil {r : List Action} : ¬ Gives (commands ⟨[], handled⟩) r := by
  intro h
  obtain ⟨t, hreach, hdone⟩ := (gives_loop_iff steady_turn).mp h
  have hagain : Again (fun s (_ : Nat) => turn s) ⟨[], handled⟩ ⟨[], handled⟩ :=
    gives_const_iff.mpr turn_nil
  have hsame := stays_of_again steady_turn hagain hreach
  rw [hsame] at hdone
  exact not_again_of_done steady_turn hdone hagain

theorem gives_quit {r : List Action} :
    Gives (commands ⟨QuitCommand :: input, handled⟩) r ↔ r = handled := by
  rw [gives_commands_iff, turn_quit]
  constructor
  · rintro (hdone | ⟨t, hagain, -⟩)
    · exact (Turn.done.inj (Except.ok.inj hdone)).symm
    · cases hagain
  · rintro rfl
    exact .inl rfl

theorem gives_line {line : List Char} {action : Action} (hquit : line ≠ QuitCommand)
    (h : Handles line action) {r : List Action} :
    Gives (commands ⟨line :: input, handled⟩) r ↔
      Gives (commands ⟨input, handled ++ [action]⟩) r := by
  rw [gives_commands_iff, turn_line hquit h]
  constructor
  · rintro (hdone | ⟨t, hagain, hrest⟩)
    · cases hdone
    · rw [Turn.again.inj (Except.ok.inj hagain)]
      exact hrest
  · intro hrest
    exact .inr ⟨_, rfl, hrest⟩

/-- Behind a rate that is too long the loop gives nothing. -/
theorem not_gives_overlong {line : List Char} (h : Overlong line) {r : List Action} :
    ¬ Gives (commands ⟨line :: input, handled⟩) r := by
  rw [gives_commands_iff, turn_overlong h]
  rintro (hdone | ⟨t, hagain, -⟩)
  · cases hdone
  · cases hagain

/-- What the loop returns behind what was handled before. -/
theorem gives_commands {r : List Action} :
    Gives (commands ⟨input, handled⟩) r ↔
      QuitCommand ∈ input ∧
        ∃ actions, List.Forall₂ Handles (beforeQuit input) actions ∧ r = handled ++ actions := by
  induction input generalizing handled with
  | nil =>
    constructor
    · intro h
      exact absurd h not_gives_nil
    · rintro ⟨h, -⟩
      cases h
  | cons line input ih =>
    by_cases hquit : line = QuitCommand
    · subst hquit
      have hnone : beforeQuit (QuitCommand :: input) = [] := rfl
      rw [gives_quit, hnone]
      constructor
      · rintro rfl
        exact ⟨List.mem_cons_self .., [], .nil, (List.append_nil r).symm⟩
      · rintro ⟨-, actions, hactions, rfl⟩
        cases hactions
        exact List.append_nil handled
    · have hbefore : beforeQuit (line :: input) = line :: beforeQuit input :=
        List.takeWhile_cons_of_pos (decide_eq_true hquit)
      rw [hbefore, List.mem_cons, or_iff_right (Ne.symm hquit)]
      by_cases hover : Overlong line
      · constructor
        · intro h
          exact absurd h (not_gives_overlong hover)
        · rintro ⟨-, actions, hactions, -⟩
          obtain ⟨action, _, haction, -, -⟩ := List.forall₂_cons_left_iff.mp hactions
          exact absurd hover (matchLine_ok_iff.mp ⟨action, haction⟩)
      · obtain ⟨action, haction⟩ := matchLine_ok_iff.mpr hover
        rw [gives_line hquit haction, ih]
        constructor
        · rintro ⟨hmem, actions, hactions, rfl⟩
          exact ⟨hmem, action :: actions, .cons haction hactions, List.append_assoc ..⟩
        · rintro ⟨hmem, actions, hactions, rfl⟩
          obtain ⟨action', actions', haction', hactions', rfl⟩ := List.forall₂_cons_left_iff.mp hactions
          obtain rfl := Except.ok.inj (haction.symm.trans haction')
          exact ⟨hmem, actions', hactions', (List.append_assoc handled [action] actions').symm⟩

/-- All lines are handled if and only if none has such a rate. -/
theorem exists_handled_iff {ls : List (List Char)} :
    (∃ actions, List.Forall₂ Handles ls actions) ↔ ∀ line ∈ ls, ¬ Overlong line := by
  induction ls with
  | nil =>
    constructor
    · intro _ line hline
      cases hline
    · intro _
      exact ⟨[], .nil⟩
  | cons line ls ih =>
    rw [List.forall_mem_cons, ← matchLine_ok_iff, ← ih]
    constructor
    · rintro ⟨actions, hactions⟩
      obtain ⟨action, actions', haction, hrest, -⟩ := List.forall₂_cons_left_iff.mp hactions
      exact ⟨⟨action, haction⟩, actions', hrest⟩
    · rintro ⟨⟨action, haction⟩, actions, hactions⟩
      exact ⟨action :: actions, .cons haction hactions⟩

/-- The program does what its loop does and closes. -/
theorem gives_main_iff {r : List Action} :
    Gives (main input) r ↔ ∃ actions, Gives (commandLoop input) actions ∧ r = actions ++ [.close] := by
  have hbind := gives_bind_iff (f := commandLoop input)
    (g := fun actions _ => (.ok (actions ++ [.close]) : Except Failure (List Action)))
    (steady_loop steady_turn _) (fun actions => steady_const _) (b := r)
  refine hbind.trans ?_
  simp only [gives_const_iff, Except.ok.injEq, eq_comm]

/-- The loop returns behind every line in front of the first quit command, each handled
once and in order, and the context is closed: exactly if there is a quit command and no
line in front of it has a rate that is too large. -/
theorem commandLoop_returns_iff (input : List (List Char)) :
    (∃ actions, Gives (commandLoop input) actions ∧
        List.Forall₂ Handles (beforeQuit input) actions ∧
        Gives (main input) (actions ++ [.close])) ↔
      QuitCommand ∈ input ∧ ∀ line ∈ beforeQuit input, ¬ Overlong line := by
  rw [← exists_handled_iff]
  constructor
  · rintro ⟨actions, hgives, hactions, -⟩
    exact ⟨(gives_commands.mp hgives).1, actions, hactions⟩
  · rintro ⟨hmem, actions, hactions⟩
    have hgives : Gives (commandLoop input) actions :=
      gives_commands.mpr ⟨hmem, actions, hactions, rfl⟩
    exact ⟨actions, hgives, hactions, gives_main_iff.mpr ⟨actions, hgives, rfl⟩⟩

end CommandLoop

/-- One image and the end of the input: the loop does not return after any number of
turns. -/
theorem end_of_input_runs_on : ¬ Terminates (commandLoop ["image:/coins2.png".toList]) := by
  have hname : "/coins2.png".toList.all (fun c => decide (c ∉ lineTerminators)) = true := by decide
  have hplain : ∀ c ∈ "/coins2.png".toList, c ∉ lineTerminators :=
    fun c hc => of_decide_eq_true (List.all_eq_true.mp hname c hc)
  have himage : ∃ file, matchLine (some "image:/coins2.png".toList) = .ok (.readAll file) :=
    matchLine_image (unapplySeq_image.mpr ⟨"/coins2.png".toList, rfl, hplain, rfl⟩)
  obtain ⟨file, hline⟩ := himage
  have hturn : turn ⟨["image:/coins2.png".toList], []⟩ = .ok (.again ⟨[], [] ++ [.readAll file]⟩) :=
    turn_line (by decide) hline
  exact not_terminates_of_running (loop_running (fun _ => hturn) (fun _ => turn_nil))

end Sogx.Cli
