import Sogx.Lib.Bytes
import Sogx.Lib.Lines

/-!
`RTSPMessage.m`: what a callback's data say as a request.

A message is the text of one callback. Its command is the first word of its
first line, and an option is a later line with exactly one colon. Texts are lists
of characters; lengths and positions count UTF-16 units, as in `NSString`.

* `createWithData_utf8`: of a text that was encoded the message is that of the
  text.
* `valueForOption_append`: lines that do not name an option add nothing to it.
-/

namespace Sogx

open Sogx.Lib

abbrev NSString := List Char

namespace NSString

/-- `initWithData:encoding:` of UTF-8; `none` is `nil`. -/
def initWithData (data : List Byte) : Option NSString :=
  (data.map UInt8.ofBitVec).toByteArray.utf8Decode?.map Array.toList

/-- `dataUsingEncoding:` of UTF-8. -/
def utf8 (s : NSString) : List Byte := (s.flatMap String.utf8EncodeChar).map UInt8.toBitVec

def units (c : Char) : Nat := if c.toNat < 0x10000 then 1 else 2

def length (s : NSString) : Nat := s.foldl (fun n c => n + units c) 0

/-- `substringFromIndex:`. A character that the index cuts leaves half of its
units, which is no character. -/
def substringFromIndex : Nat → NSString → NSString
  | 0, s => s
  | _, [] => []
  | 1, c :: s => if units c = 1 then s else '\uFFFD' :: s
  | n + 2, c :: s => substringFromIndex (n + 2 - units c) s
termination_by structural _ s => s

/-- Letters without their case. Beside `A` to `Z` only these two fold to an ASCII
letter, and one of two texts compared is always ASCII. -/
def fold (c : Char) : Char :=
  if c = '\u017f' then 's' else if c = '\u212a' then 'k' else c.toLower

/-- `caseInsensitiveCompare:` is `NSOrderedSame`. -/
def sameIgnoringCase (s t : NSString) : Bool := s.map fold == t.map fold

/-- The space separators, the tab and the line ends. -/
def whitespaceAndNewline (c : Char) : Bool :=
  c.toNat ∈ [0x09, 0x0a, 0x0b, 0x0c, 0x0d, 0x20, 0x85, 0xa0, 0x1680, 0x2028, 0x2029, 0x202f, 0x205f,
    0x3000] || (0x2000 ≤ c.toNat && c.toNat ≤ 0x200a)

def trim (s : NSString) : NSString :=
  ((s.dropWhile whitespaceAndNewline).reverse.dropWhile whitespaceAndNewline).reverse

def digits (s : NSString) : Int :=
  (s.takeWhile Char.isDigit).foldl (fun n c => 10 * n + (c.toNat - 48 : Nat)) (0 : Nat)

/-- The decimal number at the front, 0 if there is none. -/
def decimal (s : NSString) : Int :=
  match s.dropWhile whitespaceAndNewline with
  | '-' :: s => - digits s
  | '+' :: s => digits s
  | s => digits s

/-- The ends of the type stand for what is beyond them. -/
def clamp (bits : Nat) (n : Int) : Int := max (- 2 ^ (bits - 1)) (min n (2 ^ (bits - 1) - 1))

def intValue (s : NSString) : Int := clamp 32 (decimal s)

def integerValue (s : NSString) : Int := clamp 64 (decimal s)

theorem length_eq_sum (s : NSString) : length s = (s.map units).sum := by
  have hfold : ∀ n, s.foldl (fun n c => n + units c) n = n + (s.map units).sum := by
    induction s with
    | nil => exact fun n => rfl
    | cons c s ih =>
      intro n
      rw [List.foldl_cons, ih, List.map_cons, List.sum_cons, Nat.add_assoc]
  rw [length, hfold, Nat.zero_add]

theorem units_pos (c : Char) : 0 < units c := by
  unfold units
  split_ifs <;> decide

theorem le_length (s : NSString) : List.length s ≤ length s := by
  rw [length_eq_sum]
  induction s with
  | nil => exact Nat.le_refl 0
  | cons c s ih =>
    have hpos := units_pos c
    rw [List.length_cons, List.map_cons, List.sum_cons]
    omega

theorem length_eq_of_units {s : NSString} (h : ∀ c ∈ s, units c = 1) : length s = List.length s := by
  rw [length_eq_sum]
  induction s with
  | nil => rfl
  | cons c s ih =>
    obtain ⟨hone, hrest⟩ := List.forall_mem_cons.mp h
    rw [List.map_cons, List.sum_cons, ih hrest, hone, List.length_cons, Nat.add_comm]

/-- A string is decoded from its bytes. -/
theorem initWithData_utf8 (s : NSString) : initWithData (utf8 s) = some s := by
  have hback : (utf8 s).map UInt8.ofBitVec = s.flatMap String.utf8EncodeChar := by
    rw [utf8, List.map_map]
    exact List.map_id _
  rw [initWithData, hback]
  change (List.utf8Encode s).utf8Decode?.map Array.toList = some s
  rw [List.utf8Decode?_utf8Encode]
  rfl

theorem utf8_append (s t : NSString) : utf8 (s ++ t) = utf8 s ++ utf8 t := by
  rw [utf8, List.flatMap_append, List.map_append]
  rfl

theorem utf8_flatten (ss : List NSString) : (ss.map utf8).flatten = utf8 ss.flatten := by
  induction ss with
  | nil => rfl
  | cons s ss ih => rw [List.map_cons, List.flatten_cons, List.flatten_cons, utf8_append, ih]

theorem utf8_ne_nil {s : NSString} (h : s ≠ []) : utf8 s ≠ [] := by
  cases s with
  | nil => exact absurd rfl h
  | cons c s =>
    rw [utf8, List.flatMap_cons, List.map_append]
    intro hnil
    have hfirst := List.map_eq_nil_iff.mp (List.append_eq_nil_iff.mp hnil).1
    exact String.utf8EncodeChar_ne_nil hfirst

end NSString

open NSString

structure RTSPMessage where
  lines : List NSString
  request : NSString
  cseq : Int
deriving DecidableEq, Repr

namespace RTSPMessage

/-- One turn of the loop of `valueForOption:`. -/
def optionOf (option line : NSString) : Option NSString :=
  match line.splitOn ':' with
  | [name, val] => if sameIgnoringCase option name = true then some (trim val) else none
  | _ => none

def valueForOption (option : NSString) (lines : List NSString) : Option NSString :=
  (lines.drop 1).findSome? (optionOf option)

/-- `initWithData:` once the text is there. -/
def ofText (msg : NSString) : Option RTSPMessage :=
  let lines := Lib.lines '\r' '\n' msg
  if lines.length < 2 then none
  else
    let lineone := (lines.headD []).splitOn ' '
    match valueForOption "CSeq".toList lines with
    | none => none
    | some strSeq => some ⟨lines, lineone.headD [], intValue strSeq⟩

def createWithData (data : List Byte) : Option RTSPMessage :=
  (initWithData data).bind ofText

/-- `createResponse:text:`. -/
def createResponse (msg : RTSPMessage) (code : Nat) (desc : String) : String :=
  "RTSP/1.0 " ++ toString code ++ " " ++ desc ++ "\r\nCSeq: " ++ toString msg.cseq ++ "\r\n"

/-- A message is made from the text of its bytes. -/
theorem createWithData_utf8 (s : NSString) : createWithData (utf8 s) = ofText s := by
  rw [createWithData, initWithData_utf8]
  rfl

/-! ### Lines that name an option -/

/-- What stands before the first colon of a line is the option. -/
def Names (option line : NSString) : Prop :=
  ∃ name val, line = name ++ ':' :: val ∧ ':' ∉ name ∧ sameIgnoringCase option name = true

theorem takeWhile_colon {name : NSString} (h : ':' ∉ name) (val : NSString) :
    (name ++ ':' :: val).takeWhile (· ≠ ':') = name := by
  have hall : ∀ c ∈ name, decide (c ≠ ':') = true := by
    intro c hc
    rw [decide_eq_true_eq]
    rintro rfl
    exact h hc
  rw [List.takeWhile_append_of_pos hall, List.takeWhile_cons_of_neg (by decide), List.append_nil]

/-- A line names an option if what is in front of its first colon is the name. -/
theorem names_iff {option line : NSString} :
    Names option line ↔
      ':' ∈ line ∧ sameIgnoringCase option (line.takeWhile (· ≠ ':')) = true := by
  constructor
  · rintro ⟨name, val, rfl, hname, hsame⟩
    rw [takeWhile_colon hname]
    exact ⟨List.mem_append_right _ List.mem_cons_self, hsame⟩
  · rintro ⟨hcolon, hsame⟩
    obtain ⟨name, val, rfl, hname⟩ := List.eq_append_cons_of_mem hcolon
    rw [takeWhile_colon hname] at hsame
    exact ⟨name, val, rfl, hname, hsame⟩

instance (option line : NSString) : Decidable (Names option line) := decidable_of_iff _ names_iff.symm

/-- A line that names an option still does when more of it comes. -/
theorem grows_names (option : NSString) : Grows '\r' (Names option) where
  append := by
    rintro l m ⟨name, val, rfl, hname, hsame⟩
    refine ⟨name, val ++ m, ?_, hname, hsame⟩
    rw [List.append_assoc, List.cons_append]
  mark := by
    rintro l ⟨name, val, hl, hname, hsame⟩
    rcases List.eq_nil_or_concat val with rfl | ⟨val, c, rfl⟩
    · obtain ⟨-, hlast⟩ := List.append_inj' hl rfl
      exact absurd (List.cons.inj hlast).1 (by decide)
    · rw [List.concat_eq_append, ← List.cons_append, ← List.append_assoc] at hl
      obtain ⟨hfront, -⟩ := List.append_inj' hl rfl
      exact ⟨name, val, hfront, hname, hsame⟩

theorem optionOf_eq_none {option line : NSString} (h : ¬ Names option line) :
    optionOf option line = none := by
  by_cases hcolon : ':' ∈ line
  · obtain ⟨name, val, rfl, hname⟩ := List.eq_append_cons_of_mem hcolon
    have hsplit : (name ++ ':' :: val).splitOn ':' = name :: val.splitOn ':' :=
      List.splitOn_append_cons_self_of_not_mem hname val
    have hdiffers : ¬ sameIgnoringCase option name = true :=
      fun hsame => h ⟨name, val, rfl, hname, hsame⟩
    unfold optionOf
    rw [hsplit]
    split
    · rename_i name' val' heq
      rw [(List.cons.inj heq).1] at hdiffers
      exact if_neg hdiffers
    · rfl
  · have hsplit : line.splitOn ':' = [line] := List.splitOn_eq_singleton hcolon
    unfold optionOf
    rw [hsplit]

/-- A line that names the option gives it a value, less the white space around it, when
it has no second colon. -/
theorem optionOf_header {option name : NSString} (hname : ':' ∉ name)
    (hsame : sameIgnoringCase option name = true) (val : NSString) :
    optionOf option (name ++ ':' :: val) = if ':' ∈ val then none else some (trim val) := by
  unfold optionOf
  rw [List.splitOn_append_cons_self_of_not_mem hname val]
  by_cases hcolon : ':' ∈ val
  · obtain ⟨first, second, rfl, hfirst⟩ := List.eq_append_cons_of_mem hcolon
    obtain ⟨piece, pieces, hpieces⟩ := List.exists_cons_of_ne_nil (List.splitOn_ne_nil ':' second)
    rw [List.splitOn_append_cons_self_of_not_mem hfirst second, hpieces, if_pos hcolon]
  · rw [List.splitOn_eq_singleton hcolon, if_neg hcolon]
    exact if_pos hsame

theorem findSome?_optionOf {option : NSString} {ls : List NSString}
    (h : ∀ l ∈ ls, ¬ Names option l) : ls.findSome? (optionOf option) = none :=
  List.findSome?_eq_none_iff.mpr fun l hl => optionOf_eq_none (h l hl)

/-- Lines behind that do not name an option do not change its value. -/
theorem valueForOption_append {option line : NSString} {ls ms : List NSString}
    (h : ∀ m ∈ ms, ¬ Names option m) :
    valueForOption option (line :: ls ++ ms) = valueForOption option (line :: ls) := by
  rw [valueForOption, valueForOption, List.cons_append, List.drop_one, List.tail_cons, List.drop_one,
    List.tail_cons, List.findSome?_append, findSome?_optionOf h, Option.or_none]

/-- A text without a line for `CSeq` behind its first line is no message. -/
theorem ofText_eq_none {msg : NSString}
    (h : ∀ l ∈ (Lib.lines '\r' '\n' msg).tail, ¬ Names "CSeq".toList l) : ofText msg = none := by
  have hnone : valueForOption "CSeq".toList (Lib.lines '\r' '\n' msg) = none := by
    rw [valueForOption, List.drop_one]
    exact findSome?_optionOf h
  unfold ofText
  dsimp only
  rw [hnone]
  exact ite_self none

end RTSPMessage

end Sogx
