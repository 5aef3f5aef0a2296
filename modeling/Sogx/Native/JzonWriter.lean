import Mathlib.Data.List.Basic

/-!
`jzon.cpp`, its nodes with their types and `Writer` with every `Format`.

A `std::string` is the list of its characters.

* `unescapeString_escapeString`: escaping loses nothing, whatever follows the text.
-/

namespace Sogx.Jzon

/-- `Value::ValueType`. -/
inductive ValueType where
  | vtNull | vtString | vtNumber | vtBool
deriving DecidableEq, Repr

/-- `Node::Type`. -/
inductive NodeType where
  | tObject | tArray | tValue
deriving DecidableEq, Repr

/-- A `Node` with the types of its values. -/
inductive TypedNode where
  | object (children : List (List Char × TypedNode))
  | array (children : List TypedNode)
  | value (type : ValueType) (valueStr : List Char)

namespace TypedNode

def getType : TypedNode → NodeType
  | .object _ => .tObject
  | .array _ => .tArray
  | .value _ _ => .tValue

/-- A `Node` as it is made by its default constructor. -/
def ofType : NodeType → TypedNode
  | .tObject => .object []
  | .tArray => .array []
  | .tValue => .value .vtNull []

/-- `Value::Set(const int)`. -/
def ofInt (value : Int) : TypedNode := .value .vtNumber (toString value).toList

/-- `Value::Set(const bool)`. -/
def ofBool (value : Bool) : TypedNode := .value .vtBool (if value then "true".toList else "false".toList)

end TypedNode

/-! ### Escapes -/

/-- `charsUnescaped` and `charsEscaped`. -/
def escapes : List (Char × Char × Char) :=
  [('\\', '\\', '\\'), ('"', '\\', '"'), ('\n', '\\', 'n'), ('\t', '\\', 't'), ('\x08', '\\', 'b'),
    ('\x0c', '\\', 'f'), ('\r', '\\', 'r')]

def getEscaped (c : Char) : Option (Char × Char) :=
  (escapes.find? fun e => c == e.1).map (·.2)

def getUnescaped (c1 c2 : Char) : Option Char :=
  (escapes.find? fun e => c1 == e.2.1 && c2 == e.2.2).map (·.1)

/-- `Value::EscapeString`. -/
def escapeString : List Char → List Char
  | [] => []
  | c :: value =>
    match getEscaped c with
    | some (a0, a1) => a0 :: a1 :: escapeString value
    | none => c :: escapeString value

/-- `Value::UnescapeString`. -/
def unescapeString : List Char → List Char
  | [] => []
  | [c] =>
    match getUnescaped c '\x00' with
    | some a => [a]
    | none => [c]
  | c :: c2 :: value =>
    match getUnescaped c c2 with
    | some a => a :: unescapeString value
    | none => c :: unescapeString (c2 :: value)

/-- An escape starts with a backslash and stands for its character alone. -/
theorem getEscaped_eq_some {c a0 a1 : Char} (h : getEscaped c = some (a0, a1)) :
    a0 = '\\' ∧ getUnescaped a0 a1 = some c ∧ (a1 = '\\' ↔ c = '\\') := by
  have htable : escapes.all fun e =>
      e.2.1 = '\\' && getUnescaped e.2.1 e.2.2 = some e.1 && ((e.2.2 = '\\') == (e.1 = '\\')) := by
    decide
  rw [getEscaped, Option.map_eq_some_iff] at h
  obtain ⟨⟨c', a⟩, hfind, rfl⟩ := h
  have hc : c = c' := by simpa using List.find?_some hfind
  have hrow := List.all_eq_true.mp htable _ (List.mem_of_find?_eq_some hfind)
  subst hc
  simpa [and_assoc] using hrow

/-- What is not escaped is neither a backslash nor a quote. -/
theorem getEscaped_eq_none {c : Char} (h : getEscaped c = none) : c ≠ '\\' ∧ c ≠ '"' := by
  constructor
  · rintro rfl
    exact absurd h (by decide)
  · rintro rfl
    exact absurd h (by decide)

/-- Only a backslash starts an escape. -/
theorem getUnescaped_eq_none {c : Char} (hc : c ≠ '\\') (c2 : Char) : getUnescaped c c2 = none := by
  have htable : escapes.all fun e => e.2.1 = '\\' := by decide
  rw [getUnescaped, Option.map_eq_none_iff, List.find?_eq_none]
  intro e he
  have hrow : e.2.1 = '\\' := by simpa using List.all_eq_true.mp htable e he
  simp [hrow, hc]

theorem unescapeString_cons {c : Char} (hc : c ≠ '\\') (value : List Char) :
    unescapeString (c :: value) = c :: unescapeString value := by
  cases value with
  | nil => simp [unescapeString, getUnescaped_eq_none hc]
  | cons c2 value => simp [unescapeString, getUnescaped_eq_none hc]

/-- What was escaped is the string again. -/
theorem unescapeString_escapeString (value rest : List Char) :
    unescapeString (escapeString value ++ rest) = value ++ unescapeString rest := by
  induction value with
  | nil => rfl
  | cons c value ih =>
      rw [escapeString]
      split
      · next a0 a1 ha =>
          obtain ⟨-, hback, -⟩ := getEscaped_eq_some ha
          simp [unescapeString, hback, ih]
      · next ha =>
          obtain ⟨hc, -⟩ := getEscaped_eq_none ha
          simp [unescapeString_cons hc, ih]

/-! ### The writer -/

structure Format where
  newline : Bool
  spacing : Bool
  useTabs : Bool
  indentSize : Nat

def standardFormat : Format := ⟨true, true, true, 1⟩

def noFormat : Format := ⟨false, false, false, 0⟩

/-! `FormatInterpreter`. -/

namespace Format

variable (format : Format)

def indentationChar : Char := if format.useTabs then '\t' else ' '

def getSpacing : List Char := if format.spacing then [' '] else []

def getNewline : List Char := if format.newline then ['\n'] else format.getSpacing

/-- The product is one of `unsigned int`s. -/
def getIndentation (level : Nat) : List Char :=
  if !format.newline then [] else List.replicate (format.indentSize * level % 4294967296) format.indentationChar

end Format

namespace Writer

/-- `Value::ToString`. -/
def valueToString : ValueType → List Char → List Char
  | .vtNull, _ => "null".toList
  | _, valueStr => valueStr

def writeValue (type : ValueType) (valueStr : List Char) : List Char :=
  match type with
  | .vtString => '"' :: (escapeString (valueToString type valueStr) ++ ['"'])
  | _ => valueToString type valueStr

variable (format : Format)

/-- What stands in front of a child: a comma, unless it is the first, and the
indentation. -/
def lead (first : Bool) (level : Nat) : List Char :=
  (if first then [] else ',' :: format.getNewline) ++ format.getIndentation level

mutual

def writeNode : TypedNode → Nat → List Char
  | .object children, level =>
    '{' :: (format.getNewline ++ writeMembers true children (level + 1) ++ format.getNewline
      ++ format.getIndentation level ++ ['}'])
  | .array children, level =>
    '[' :: (format.getNewline ++ writeElements true children (level + 1) ++ format.getNewline
      ++ format.getIndentation level ++ [']'])
  | .value type valueStr, _ => writeValue type valueStr

/-- The loop of `writeObject`; `level` is that of the children. -/
def writeMembers : Bool → List (List Char × TypedNode) → Nat → List Char
  | _, [], _ => []
  | first, (name, value) :: rest, level =>
    lead format first level ++ '"' :: (name ++ '"' :: ':' :: (format.getSpacing ++ writeNode value level))
      ++ writeMembers false rest level

/-- The loop of `writeArray`. -/
def writeElements : Bool → List TypedNode → Nat → List Char
  | _, [], _ => []
  | first, value :: rest, level =>
    lead format first level ++ writeNode value level ++ writeElements false rest level

end

/-- `Writer::Write`. -/
def write (root : TypedNode) : List Char := writeNode format root 0

end Writer

/-! ### `NoFormat` -/

open Writer

@[simp] theorem getNewline_noFormat : noFormat.getNewline = [] := rfl

@[simp] theorem getSpacing_noFormat : noFormat.getSpacing = [] := rfl

@[simp] theorem getIndentation_noFormat (level : Nat) : noFormat.getIndentation level = [] := rfl

@[simp] theorem lead_noFormat (first : Bool) (level : Nat) :
    lead noFormat first level = if first then [] else [','] := by
  simp [lead]

end Sogx.Jzon
