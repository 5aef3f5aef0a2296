import Sogx.Native.JzonParser
import Sogx.Native.Recog

/-!
What `Parser` reads of the texts that `Writer` writes.

* `parse_write`: in every format a node is read back, behind what the root held, if the
  cursor can count its text.
* `parse_string`: a string that ends with a backslash comes back with a quote too much.
* `reply_read`: each reply of `Main.handleMessage` is read back.
-/

namespace Sogx.Jzon

open Sogx.Lib Writer

/-! ### Texts between quotes -/

/-- Each quote of the text is escaped; `c` is the character in front. -/
def Quoted : Char → List Char → Prop
  | _, [] => True
  | c, d :: text => (d = '"' → c = '\\') ∧ Quoted d text

/-- An escaped string holds no quote that would end it. -/
theorem quoted_escapeString (c : Char) (value : List Char) : Quoted c (escapeString value) := by
  induction value generalizing c with
  | nil => trivial
  | cons d value ih =>
      rw [escapeString]
      split
      · next a0 a1 ha =>
          obtain ⟨rfl, -, -⟩ := getEscaped_eq_some ha
          exact ⟨fun h => absurd h (by decide), fun _ => rfl, ih a1⟩
      · next ha =>
          obtain ⟨-, hquote⟩ := getEscaped_eq_none ha
          exact ⟨fun h => absurd h hquote, ih d⟩

theorem getLastD_congr {c c' : Char} (h : c = '\\' ↔ c' = '\\') (text : List Char) :
    text.getLastD c = '\\' ↔ text.getLastD c' = '\\' := by
  cases text with
  | nil => exact h
  | cons d text => rw [List.getLastD_cons, List.getLastD_cons]

/-- The text as escaped ends with a backslash when it does itself. -/
theorem getLastD_escapeString (c : Char) (value : List Char) :
    (escapeString value).getLastD c = '\\' ↔ value.getLastD c = '\\' := by
  induction value generalizing c with
  | nil => rfl
  | cons d value ih =>
      rw [escapeString]
      split
      · next a0 a1 ha =>
          obtain ⟨-, -, hlast⟩ := getEscaped_eq_some ha
          rw [List.getLastD_cons, List.getLastD_cons, ih, List.getLastD_cons]
          exact getLastD_congr hlast value
      · rw [List.getLastD_cons, ih, List.getLastD_cons]

/-- A text that stands between quotes as it is. -/
def Quotable (text : List Char) : Prop := Quoted '"' text ∧ text.getLastD '"' ≠ '\\'

theorem Quoted.of_ne {c c' : Char} (hc : c ≠ '\\') {text : List Char} (h : Quoted c text) :
    Quoted c' text := by
  cases text with
  | nil => trivial
  | cons d text => exact ⟨fun hd => absurd (h.1 hd) hc, h.2⟩

theorem quoted_of_all {text : List Char} (h : text.all (fun c => c ≠ '"' && c ≠ '\\') = true) (c : Char) :
    Quoted c text ∧ (c ≠ '\\' → text.getLastD c ≠ '\\') := by
  induction text generalizing c with
  | nil => exact ⟨trivial, id⟩
  | cons d text ih =>
      simp only [List.all_cons, Bool.and_eq_true, decide_eq_true_eq] at h
      obtain ⟨⟨hquote, hslash⟩, htext⟩ := h
      obtain ⟨hquoted, hlast⟩ := ih htext d
      rw [List.getLastD_cons]
      exact ⟨⟨fun hd => absurd hd hquote, hquoted⟩, fun _ => hlast hslash⟩

theorem quotable_of_all {text : List Char} (h : text.all (fun c => c ≠ '"' && c ≠ '\\') = true) :
    Quotable text :=
  ⟨(quoted_of_all h '"').1, (quoted_of_all h '"').2 (by decide)⟩

theorem readString_append {c : Char} {text : List Char} (h : Quoted c text) (json : List Char) :
    readString c (text ++ json)
      = (text ++ (readString (text.getLastD c) json).1, (readString (text.getLastD c) json).2) := by
  induction text generalizing c with
  | nil => rfl
  | cons d text ih =>
      have hinside : ¬(c ≠ '\\' ∧ d = '"') := fun hd => hd.1 (h.1 hd.2)
      rw [List.cons_append, readString, List.getLastD_cons, ih h.2]
      simp [hinside]

/-- A quote that is not escaped ends the string. -/
theorem readString_quote {c1 : Char} (h : c1 ≠ '\\') (json : List Char) :
    readString c1 ('"' :: json) = ([], json) := by
  simp [readString, h]

/-- A quoted text is read up to its closing quote. -/
theorem readString_quotable {text : List Char} (h : Quotable text) (json : List Char) :
    readString '\x00' (text ++ '"' :: json) = (text, json) := by
  have hlast : text.getLastD '\x00' ≠ '\\' := by
    have hsame : '\x00' = '\\' ↔ '"' = '\\' := by decide
    rw [Ne, getLastD_congr hsame]
    exact h.2
  rw [readString_append (h.1.of_ne (by decide)), readString_quote hlast, List.append_nil]

/-! ### What `RemoveWhitespace` leaves -/

/-- Inside of a string nothing is removed. -/
theorem removeWhitespace_quoted {c0 : Char} {text : List Char} (h : Quoted c0 text) (json : List Char) :
    removeWhitespace c0 false 0 true (text ++ json)
      = text ++ removeWhitespace (text.getLastD c0) false 0 true json := by
  induction text generalizing c0 with
  | nil => rfl
  | cons d text ih =>
      have hinside : ¬(c0 ≠ '\\' ∧ d = '"') := fun hd => hd.1 (h.1 hd.2)
      rw [List.cons_append, removeWhitespace, List.getLastD_cons]
      simp [hinside, ih h.2]

/-- A quote begins or ends a string. -/
theorem removeWhitespace_quote {c0 : Char} (h : c0 ≠ '\\') (inString : Bool) (json : List Char) :
    removeWhitespace c0 false 0 inString ('"' :: json)
      = '"' :: removeWhitespace '"' false 0 (!inString) json := by
  rw [removeWhitespace]
  simp [h, isSpace]

/-- A character that stays and opens no comment. -/
def isPlain (c : Char) : Bool := !isSpace c && c ≠ '"' && c ≠ '/' && c ≠ '*' && c ≠ '\\'

theorem removeWhitespace_plain {c : Char} (h : isPlain c = true) (c0 : Char) (json : List Char) :
    removeWhitespace c0 false 0 false (c :: json) = c :: removeWhitespace c false 0 false json := by
  simp only [isPlain, Bool.and_eq_true, Bool.not_eq_true', decide_eq_true_eq] at h
  obtain ⟨⟨⟨⟨hspace, hquote⟩, hslash⟩, hstar⟩, -⟩ := h
  rw [removeWhitespace]
  simp [hspace, hquote, hslash, hstar]

theorem removeWhitespace_space {c : Char} (h : isSpace c = true) (c0 : Char) (json : List Char) :
    removeWhitespace c0 false 0 false (c :: json) = removeWhitespace c false 0 false json := by
  have hc : c ≠ '"' ∧ c ≠ '/' ∧ c ≠ '*' := by
    refine ⟨?_, ?_, ?_⟩
    all_goals
      rintro rfl
      exact absurd h (by decide)
  rw [removeWhitespace]
  simp [h, hc]

/-- Of the text `x` outside of strings `y` is left, whatever follows. -/
def Clean (x y : List Char) : Prop :=
  ∀ (c0 : Char) (json : List Char), c0 ≠ '\\' →
    ∃ c1, c1 ≠ '\\' ∧
      removeWhitespace c0 false 0 false (x ++ json) = y ++ removeWhitespace c1 false 0 false json

namespace Clean

theorem nil : Clean [] [] := fun c0 _ h => ⟨c0, h, rfl⟩

theorem append {x y x' y' : List Char} (h : Clean x y) (h' : Clean x' y') : Clean (x ++ x') (y ++ y') := by
  intro c0 json hc0
  obtain ⟨c1, hc1, hx⟩ := h c0 (x' ++ json) hc0
  obtain ⟨c2, hc2, hx'⟩ := h' c1 json hc1
  refine ⟨c2, hc2, ?_⟩
  rw [List.append_assoc, hx, hx', List.append_assoc]

theorem plain {c : Char} (h : isPlain c = true) : Clean [c] [c] := by
  intro c0 json _
  refine ⟨c, ?_, removeWhitespace_plain h c0 json⟩
  rintro rfl
  exact absurd h (by decide)

theorem space {c : Char} (h : isSpace c = true) : Clean [c] [] := by
  intro c0 json _
  refine ⟨c, ?_, removeWhitespace_space h c0 json⟩
  rintro rfl
  exact absurd h (by decide)

theorem cons {c : Char} {x y : List Char} (h : isPlain c = true) (h' : Clean x y) :
    Clean (c :: x) (c :: y) :=
  (plain h).append h'

theorem all_plain {text : List Char} (h : text.all isPlain = true) : Clean text text := by
  induction text with
  | nil => exact nil
  | cons c text ih =>
      rw [List.all_cons, Bool.and_eq_true] at h
      exact cons h.1 (ih h.2)

theorem all_space {text : List Char} (h : ∀ c ∈ text, isSpace c = true) : Clean text [] := by
  induction text with
  | nil => exact nil
  | cons c text ih =>
      exact (space (h c List.mem_cons_self)).append (ih fun d hd => h d (List.mem_cons_of_mem _ hd))

theorem quotable {text : List Char} (h : Quotable text) :
    Clean ('"' :: (text ++ ['"'])) ('"' :: (text ++ ['"'])) := by
  intro c0 json hc0
  refine ⟨'"', by decide, ?_⟩
  have hclose := removeWhitespace_quoted h.1 ('"' :: json)
  rw [removeWhitespace_quote h.2] at hclose
  simpa [removeWhitespace_quote hc0] using hclose

theorem newline (format : Format) : Clean format.getNewline [] := by
  refine all_space fun c hc => ?_
  rw [Format.getNewline] at hc
  split at hc
  · rw [List.mem_singleton.mp hc]
    rfl
  · rw [Format.getSpacing] at hc
    split at hc
    · rw [List.mem_singleton.mp hc]
      rfl
    · exact absurd hc List.not_mem_nil

theorem spacing (format : Format) : Clean format.getSpacing [] := by
  refine all_space fun c hc => ?_
  rw [Format.getSpacing] at hc
  split at hc
  · rw [List.mem_singleton.mp hc]
    rfl
  · exact absurd hc List.not_mem_nil

theorem indentation (format : Format) (level : Nat) : Clean (format.getIndentation level) [] := by
  refine all_space fun c hc => ?_
  rw [Format.getIndentation] at hc
  split at hc
  · exact absurd hc List.not_mem_nil
  · rw [List.eq_of_mem_replicate hc, Format.indentationChar]
    split
    · rfl
    · rfl

/-- In front of a child only the comma is kept. -/
theorem lead (format : Format) (first : Bool) (level : Nat) :
    Clean (lead format first level) (lead noFormat first level) := by
  cases first with
  | true => exact nil.append (indentation format level)
  | false => exact (cons rfl (newline format)).append (indentation format level)

end Clean

/-! ### The nodes that are read back -/

/-- The values that are written with nothing lost. -/
def ReadableValue : ValueType → List Char → Prop
  | .vtNull, valueStr => valueStr = []
  | .vtBool, valueStr => valueStr = "true".toList ∨ valueStr = "false".toList
  | .vtNumber, valueStr => valueStr ≠ [] ∧ valueStr.all isNumber = true
  | .vtString, valueStr => valueStr.getLast? ≠ some '\\'

mutual

/-- The names are not escaped, so they have to stand between quotes as they are. -/
def Readable : TypedNode → Prop
  | .object children => ReadableMembers children
  | .array children => ReadableElements children
  | .value type valueStr => ReadableValue type valueStr

def ReadableMembers : List (List Char × TypedNode) → Prop
  | [] => True
  | (name, value) :: rest => Quotable name ∧ Readable value ∧ ReadableMembers rest

def ReadableElements : List TypedNode → Prop
  | [] => True
  | value :: rest => Readable value ∧ ReadableElements rest

end

theorem getLast?_eq_backslash {value : List Char} :
    value.getLast? = some '\\' ↔ value.getLastD '"' = '\\' := by
  cases h : value.getLast? with
  | none => simp [List.getLastD_eq_getLast?, h]
  | some c => simp [List.getLastD_eq_getLast?, h]

/-- An escaped string can be quoted if it does not end with a backslash. -/
theorem quotable_escapeString {value : List Char} (h : value.getLast? ≠ some '\\') :
    Quotable (escapeString value) :=
  ⟨quoted_escapeString _ _, fun hlast =>
    h (getLast?_eq_backslash.mpr ((getLastD_escapeString _ _).mp hlast))⟩

/-- What holds of the ten digits, the point and the minus holds of each `isNumber`. -/
theorem of_isNumber {p : Char → Bool} (hp : ("0123456789.-".toList.all p) = true) {c : Char}
    (h : isNumber c = true) : p c = true := by
  refine List.all_eq_true.mp hp c ?_
  simp only [isNumber, Bool.or_eq_true, Bool.and_eq_true, decide_eq_true_eq] at h
  obtain (⟨hlow, hhigh⟩ | rfl) | rfl := h
  · have hlow : 48 ≤ c.toNat := hlow
    have hhigh : c.toNat ≤ 57 := hhigh
    rw [← Char.ofNat_toNat c]
    interval_cases c.toNat
    all_goals decide
  · decide
  · decide

/-- The text of a value is kept. -/
theorem clean_writeValue {type : ValueType} {valueStr : List Char} (h : ReadableValue type valueStr) :
    Clean (writeValue type valueStr) (writeValue type valueStr) := by
  cases type with
  | vtNull => exact Clean.all_plain rfl
  | vtBool =>
      obtain rfl | rfl := h
      · exact Clean.all_plain rfl
      · exact Clean.all_plain rfl
  | vtNumber =>
      refine Clean.all_plain ?_
      rw [List.all_eq_true]
      exact fun c hc => of_isNumber (by decide) (List.all_eq_true.mp h.2 c hc)
  | vtString => exact Clean.quotable (quotable_escapeString h)

mutual

/-- What is left of a node in any format is its text without a format, by recursion on the
node. -/
theorem clean_writeNode (format : Format) : ∀ (node : TypedNode) (level : Nat), Readable node →
    Clean (Writer.writeNode format node level) (Writer.writeNode noFormat node level)
  | .object children, level, h => by
      have hchildren := clean_writeMembers format true children (level + 1) h
      rw [Writer.writeNode, Writer.writeNode]
      exact .cons rfl (((((Clean.newline format).append hchildren).append (.newline format)).append
        (.indentation format level)).append (.plain rfl))
  | .array children, level, h => by
      have hchildren := clean_writeElements format true children (level + 1) h
      rw [Writer.writeNode, Writer.writeNode]
      exact .cons rfl (((((Clean.newline format).append hchildren).append (.newline format)).append
        (.indentation format level)).append (.plain rfl))
  | .value type valueStr, level, h => by
      rw [Writer.writeNode, Writer.writeNode]
      exact clean_writeValue h

theorem clean_writeMembers (format : Format) : ∀ (first : Bool) (children : List (List Char × TypedNode))
    (level : Nat), ReadableMembers children →
      Clean (writeMembers format first children level) (writeMembers noFormat first children level)
  | first, [], level, _ => by
      rw [writeMembers, writeMembers]
      exact .nil
  | first, (name, value) :: rest, level, h => by
      obtain ⟨hname, hvalue, hrest⟩ := h
      have hmember := (Clean.quotable hname).append (.cons (c := ':') rfl
        ((Clean.spacing format).append (clean_writeNode format value level hvalue)))
      have hchild := ((Clean.lead format first level).append hmember).append
        (clean_writeMembers format false rest level hrest)
      rw [writeMembers, writeMembers]
      simpa using hchild

theorem clean_writeElements (format : Format) : ∀ (first : Bool) (children : List TypedNode)
    (level : Nat), ReadableElements children →
      Clean (writeElements format first children level) (writeElements noFormat first children level)
  | first, [], level, _ => by
      rw [writeElements, writeElements]
      exact .nil
  | first, value :: rest, level, h => by
      rw [writeElements, writeElements]
      exact ((Clean.lead format first level).append (clean_writeNode format value level h.1)).append
        (clean_writeElements format false rest level h.2)

end

/-- Every format comes to the same text. -/
theorem freshJson_write (format : Format) {node : TypedNode} (h : Readable node) :
    freshJson (write format node) = write noFormat node := by
  obtain ⟨c1, -, hclean⟩ := clean_writeNode format node 0 h '\x00' [] (by decide)
  simpa [freshJson, write, removeWhitespace] using hclean

/-! ### The tokens of a node -/

/-- What is in the data of a value; `Set` unescapes a string only later. -/
def datumOf : ValueType → List Char → ValueType × List Char
  | .vtString, valueStr => (.vtString, escapeString valueStr)
  | type, valueStr => (type, valueStr)

/-- The comma in front of a child. -/
def separator (first : Bool) : Queues := if first then ⟨[], []⟩ else ⟨[.tSeparatorNode], []⟩

mutual

def queuesOf : TypedNode → Queues
  | .object children => ⟨[.tObjBegin], []⟩ ++ memberQueues true children ++ ⟨[.tObjEnd], []⟩
  | .array children => ⟨[.tArrayBegin], []⟩ ++ elementQueues true children ++ ⟨[.tArrayEnd], []⟩
  | .value type valueStr => ⟨[.tValue], [datumOf type valueStr]⟩

def memberQueues : Bool → List (List Char × TypedNode) → Queues
  | _, [] => ⟨[], []⟩
  | first, (name, value) :: rest =>
    separator first ++ ⟨[.tValue, .tSeparatorName], [(.vtString, name)]⟩ ++ queuesOf value
      ++ memberQueues false rest

def elementQueues : Bool → List TypedNode → Queues
  | _, [] => ⟨[], []⟩
  | first, value :: rest => separator first ++ queuesOf value ++ elementQueues false rest

end

/-- What can follow a value: the end of the text or a token of one character. -/
def Follows (json : List Char) : Prop := ∀ c ∈ json.head?, (tokenOf c).isSome = true

@[simp] theorem saveBuffer_nil : saveBuffer [] = ⟨[], []⟩ := rfl

theorem tokenize_token {c : Char} {token : Token} (h : tokenOf c = some token) (valueBuffer json : List Char) :
    tokenize valueBuffer (c :: json) = saveBuffer valueBuffer ++ ⟨[token], []⟩ ++ tokenize [] json := by
  rw [tokenize, h]

/-- A quoted text is one value. -/
theorem tokenize_quotable {text : List Char} (h : Quotable text) (json : List Char) :
    tokenize [] ('"' :: (text ++ '"' :: json)) = ⟨[.tValue], [(.vtString, text)]⟩ ++ tokenize [] json := by
  have hnone : tokenOf '"' = none := rfl
  rw [tokenize, hnone]
  simp only [if_pos, readString_quotable h]
  rfl

/-- A character that goes to `valueBuffer`. -/
def isBuffered (c : Char) : Bool := tokenOf c = none && c ≠ '"'

/-- Other characters are collected up to the next token. -/
theorem tokenize_buffered {text : List Char} (htext : text.all isBuffered = true) (hne : text ≠ [])
    (valueBuffer : List Char) {json : List Char} (hjson : Follows json) :
    tokenize valueBuffer (text ++ json) = saveBuffer (valueBuffer ++ text) ++ tokenize [] json := by
  induction text generalizing valueBuffer with
  | nil => exact absurd rfl hne
  | cons c text ih =>
      simp only [List.all_cons, Bool.and_eq_true, isBuffered, decide_eq_true_eq] at htext
      obtain ⟨⟨hnone, hquote⟩, htext⟩ := htext
      rw [List.cons_append, tokenize, hnone]
      simp only [if_neg hquote]
      cases text with
      | cons d text =>
          rw [if_neg (by simp), ih htext (by simp), List.append_assoc]
          rfl
      | nil =>
          rw [List.nil_append]
          cases json with
          | nil => simp [tokenize]
          | cons d json =>
              obtain ⟨token, htoken⟩ := Option.isSome_iff_exists.mp (hjson d rfl)
              rw [if_neg (by simp), tokenize_token htoken, tokenize_token htoken, saveBuffer_nil,
                Queues.nil_append, Queues.append_assoc]

theorem interpretValue_number {value : List Char} (h : value.all isNumber = true) :
    interpretValue value = some (.vtNumber, value) := by
  have hupper : value.map Char.toUpper = value := by
    conv_rhs => rw [← List.map_id value]
    refine List.map_congr_left fun c hc => ?_
    have hsame := of_isNumber (p := fun c => c.toUpper = c) (by decide) (List.all_eq_true.mp h c hc)
    exact of_decide_eq_true hsame
  have hword : ∀ word : List Char, word.all isNumber = false → value ≠ word := by
    rintro word hword rfl
    rw [h] at hword
    cases hword
  simp only [interpretValue, hupper, h, if_neg (hword ['N', 'U', 'L', 'L'] rfl),
    if_neg (hword ['T', 'R', 'U', 'E'] rfl), if_neg (hword ['F', 'A', 'L', 'S', 'E'] rfl), if_true]

/-- The text of a value is one value. -/
theorem tokenize_writeValue {type : ValueType} {valueStr : List Char} (h : ReadableValue type valueStr)
    {json : List Char} (hjson : Follows json) :
    tokenize [] (writeValue type valueStr ++ json)
      = ⟨[.tValue], [datumOf type valueStr]⟩ ++ tokenize [] json := by
  cases type with
  | vtNull =>
      subst h
      exact tokenize_buffered rfl (by decide) [] hjson
  | vtBool =>
      obtain rfl | rfl := h
      · exact tokenize_buffered rfl (by decide) [] hjson
      · exact tokenize_buffered rfl (by decide) [] hjson
  | vtNumber =>
      have hbuffered : valueStr.all isBuffered = true := List.all_eq_true.mpr fun c hc =>
        of_isNumber (by decide) (List.all_eq_true.mp h.2 c hc)
      have htext : writeValue .vtNumber valueStr = valueStr := rfl
      rw [htext, tokenize_buffered hbuffered h.1 [] hjson, List.nil_append, saveBuffer, if_neg h.1,
        interpretValue_number h.2]
      rfl
  | vtString =>
      have hquotable := quotable_escapeString h
      simpa [writeValue, valueToString, datumOf] using tokenize_quotable hquotable json

theorem follows_cons {c : Char} (h : (tokenOf c).isSome = true) (json : List Char) : Follows (c :: json) := by
  intro d hd
  cases hd
  exact h

theorem follows_nil : Follows [] := nofun

theorem tokenize_separator (first : Bool) (level : Nat) (json : List Char) :
    tokenize [] (lead noFormat first level ++ json) = separator first ++ tokenize [] json := by
  cases first with
  | true => simp [separator]
  | false =>
      rw [lead_noFormat]
      exact tokenize_token rfl [] json

/-- Behind a child comes a comma or the end of its parent. -/
theorem follows_members (children : List (List Char × TypedNode)) (level : Nat) {json : List Char}
    (h : Follows json) : Follows (writeMembers noFormat false children level ++ json) := by
  cases children with
  | nil => simpa [writeMembers] using h
  | cons child rest => simpa [writeMembers] using follows_cons rfl _

theorem follows_elements (children : List TypedNode) (level : Nat) {json : List Char}
    (h : Follows json) : Follows (writeElements noFormat false children level ++ json) := by
  cases children with
  | nil => simpa [writeElements] using h
  | cons child rest => simpa [writeElements] using follows_cons rfl _

mutual

/-- A node that is written without a format is tokenized as its queues, by recursion on the
node. -/
theorem tokenize_writeNode : ∀ (node : TypedNode) (level : Nat) {json : List Char}, Readable node →
    Follows json →
      tokenize [] (Writer.writeNode noFormat node level ++ json) = queuesOf node ++ tokenize [] json
  | .object children, level, json, h, _ => by
      have hend : tokenOf '}' = some .tObjEnd := rfl
      have hchildren := tokenize_writeMembers true children (level + 1) h (follows_cons (c := '}') rfl json)
      have htext : Writer.writeNode noFormat (.object children) level ++ json
          = '{' :: (writeMembers noFormat true children (level + 1) ++ '}' :: json) := by
        simp [Writer.writeNode]
      rw [htext, tokenize_token rfl, hchildren, tokenize_token hend, queuesOf]
      simp [Queues.append_assoc]
  | .array children, level, json, h, _ => by
      have hend : tokenOf ']' = some .tArrayEnd := rfl
      have hchildren := tokenize_writeElements true children (level + 1) h (follows_cons (c := ']') rfl json)
      have htext : Writer.writeNode noFormat (.array children) level ++ json
          = '[' :: (writeElements noFormat true children (level + 1) ++ ']' :: json) := by
        simp [Writer.writeNode]
      rw [htext, tokenize_token rfl, hchildren, tokenize_token hend, queuesOf]
      simp [Queues.append_assoc]
  | .value type valueStr, level, json, h, hjson => by
      rw [Writer.writeNode, queuesOf]
      exact tokenize_writeValue h hjson

theorem tokenize_writeMembers : ∀ (first : Bool) (children : List (List Char × TypedNode)) (level : Nat)
    {json : List Char}, ReadableMembers children → Follows json →
      tokenize [] (writeMembers noFormat first children level ++ json)
        = memberQueues first children ++ tokenize [] json
  | first, [], level, json, _, _ => by simp [writeMembers, memberQueues]
  | first, (name, value) :: rest, level, json, h, hjson => by
      obtain ⟨hname, hvalue, hrest⟩ := h
      have hcolon : tokenOf ':' = some .tSeparatorName := rfl
      have htext : writeMembers noFormat first ((name, value) :: rest) level ++ json
          = lead noFormat first level ++ ('"' :: (name ++ '"' :: (':' :: (Writer.writeNode noFormat value level
            ++ (writeMembers noFormat false rest level ++ json))))) := by
        simp [writeMembers]
      rw [htext, tokenize_separator, tokenize_quotable hname, tokenize_token hcolon,
        tokenize_writeNode value level hvalue (follows_members rest level hjson),
        tokenize_writeMembers false rest level hrest hjson, memberQueues]
      simp only [saveBuffer_nil, Queues.nil_append, Queues.append_assoc]
      rfl

theorem tokenize_writeElements : ∀ (first : Bool) (children : List TypedNode) (level : Nat)
    {json : List Char}, ReadableElements children → Follows json →
      tokenize [] (writeElements noFormat first children level ++ json)
        = elementQueues first children ++ tokenize [] json
  | first, [], level, json, _, _ => by simp [writeElements, elementQueues]
  | first, value :: rest, level, json, h, hjson => by
      have htext : writeElements noFormat first (value :: rest) level ++ json
          = lead noFormat first level ++ (Writer.writeNode noFormat value level
            ++ (writeElements noFormat false rest level ++ json)) := by
        simp [writeElements]
      rw [htext, tokenize_separator, tokenize_writeNode value level h.1 (follows_elements rest level hjson),
        tokenize_writeElements false rest level h.2 hjson, elementQueues]
      simp only [Queues.append_assoc]

end

/-- A whole text is tokenized as the queues of its node. -/
theorem tokenize_write {node : TypedNode} (h : Readable node) :
    tokenize [] (write noFormat node) = queuesOf node := by
  have htokens := tokenize_writeNode node 0 h follows_nil
  simpa [write, tokenize] using htokens

/-! ### The node of the tokens -/

/-- `Set` undoes what the writer has escaped. -/
theorem valueOf_datumOf (type : ValueType) (valueStr : List Char) :
    valueOf (datumOf type valueStr) = .value type valueStr := by
  cases type with
  | vtString =>
      have hback := unescapeString_escapeString valueStr []
      simp only [List.append_nil, unescapeString] at hback
      rw [datumOf, valueOf, hback]
  | vtNull => rfl
  | vtNumber => rfl
  | vtBool => rfl

/-- The tokens that can come behind a node. -/
def Closed (tokens : List Token) : Prop := tokens.head? ≠ some .tSeparatorName

/-- A value is put into the container on top of the stack. -/
theorem assemble_value {tokens : List Token} (hclosed : Closed tokens) {s : Assembly}
    {datum : ValueType × List Char} {data : List (ValueType × List Char)} (hdata : s.data = datum :: data)
    (hroot : s.nodeStack = [] → s.root.getType = .tValue) :
    assemble (.tValue :: tokens) s = assemble tokens (s.setValue datum data) := by
  rw [assemble]
  · rw [if_neg (by simpa using hroot), hdata]
  · rintro tokens' rfl
    exact hclosed rfl

/-- A text in front of a colon names the next child. -/
theorem assemble_name {tokens : List Token} {s : Assembly} {name : List Char}
    {data : List (ValueType × List Char)} (hdata : s.data = (.vtString, name) :: data) :
    assemble (.tValue :: .tSeparatorName :: tokens) s = assemble tokens { s with name, data } := by
  rw [assemble, hdata]
  rfl

theorem assemble_separator (first : Bool) (tokens : List Token) (s : Assembly) :
    assemble ((separator first).tokens ++ tokens) s = assemble tokens s := by
  cases first with
  | true => rfl
  | false => rfl

@[simp] theorem data_separator (first : Bool) : (separator first).data = [] := by
  cases first with
  | true => rfl
  | false => rfl

theorem closed_members (children : List (List Char × TypedNode)) {tokens : List Token} (h : Closed tokens) :
    Closed ((memberQueues false children).tokens ++ tokens) := by
  cases children with
  | nil => exact h
  | cons child rest => simp [memberQueues, separator, Closed]

theorem closed_elements (children : List TypedNode) {tokens : List Token} (h : Closed tokens) :
    Closed ((elementQueues false children).tokens ++ tokens) := by
  cases children with
  | nil => exact h
  | cons child rest => simp [elementQueues, separator, Closed]

/-- An object that was begun above another node comes to its end. -/
theorem assemble_objEnd {root top top' : TypedNode} {name topName : List Char}
    {children below : List (List Char × TypedNode)} (hadd : top.add name (.object children) = some top')
    (tokens : List Token) (data : List (ValueType × List Char)) :
    assemble (.tObjEnd :: tokens) ⟨root, (name, .object children) :: (topName, top) :: below, [], data⟩
      = assemble tokens ⟨root, (topName, top') :: below, [], data⟩ := by
  simp [assemble, Assembly.finish, TypedNode.getType, hadd]

/-- At its end an array goes into the container below it. -/
theorem assemble_arrayEnd {root top top' : TypedNode} {name topName : List Char} {children : List TypedNode}
    {below : List (List Char × TypedNode)} (hadd : top.add name (.array children) = some top')
    (tokens : List Token) (data : List (ValueType × List Char)) :
    assemble (.tArrayEnd :: tokens) ⟨root, (name, .array children) :: (topName, top) :: below, [], data⟩
      = assemble tokens ⟨root, (topName, top') :: below, [], data⟩ := by
  simp [assemble, Assembly.finish, TypedNode.getType, hadd]

mutual

/-- A node below the root is added to the node on top. -/
theorem assemble_queuesOf : ∀ (node : TypedNode) {top top' : TypedNode} {root : TypedNode}
    {topName name : List Char} {below : List (List Char × TypedNode)} {tokens : List Token}
    {data : List (ValueType × List Char)}, top.add name node = some top' → Closed tokens →
      assemble ((queuesOf node).tokens ++ tokens)
          ⟨root, (topName, top) :: below, name, (queuesOf node).data ++ data⟩
        = assemble tokens ⟨root, (topName, top') :: below, [], data⟩
  | .object children, top, top', root, topName, name, below, tokens, data, hadd, _ => by
      rw [queuesOf]
      simp only [Queues.tokens_append, Queues.data_append, List.append_assoc, List.nil_append,
        List.cons_append]
      rw [assemble]
      refine (assemble_memberQueues true children (by simp [Closed])).trans ?_
      exact assemble_objEnd hadd tokens data
  | .array children, top, top', root, topName, name, below, tokens, data, hadd, _ => by
      rw [queuesOf]
      simp only [Queues.tokens_append, Queues.data_append, List.append_assoc, List.nil_append,
        List.cons_append]
      rw [assemble]
      refine (assemble_elementQueues true children (by simp [Closed])).trans ?_
      exact assemble_arrayEnd hadd tokens data
  | .value type valueStr, top, top', root, topName, name, below, tokens, data, hadd, hclosed => by
      rw [queuesOf]
      refine (assemble_value hclosed rfl (by simp)).trans ?_
      simp [Assembly.setValue, valueOf_datumOf, hadd]

/-- The members of an object are added one by one, by induction on them. -/
theorem assemble_memberQueues : ∀ (first : Bool) (children : List (List Char × TypedNode)) {root : TypedNode}
    {topName : List Char} {cs : List (List Char × TypedNode)} {below : List (List Char × TypedNode)}
    {tokens : List Token} {data : List (ValueType × List Char)}, Closed tokens →
      assemble ((memberQueues first children).tokens ++ tokens)
          ⟨root, (topName, .object cs) :: below, [], (memberQueues first children).data ++ data⟩
        = assemble tokens ⟨root, (topName, .object (cs ++ children)) :: below, [], data⟩
  | first, [], root, topName, cs, below, tokens, data, _ => by simp [memberQueues]
  | first, (name, value) :: rest, root, topName, cs, below, tokens, data, hclosed => by
      rw [memberQueues]
      simp only [Queues.tokens_append, Queues.data_append, List.append_assoc, List.nil_append,
        List.cons_append, data_separator]
      rw [assemble_separator, assemble_name rfl,
        assemble_queuesOf value rfl (closed_members rest hclosed), assemble_memberQueues false rest hclosed,
        List.append_assoc, List.singleton_append]

/-- The elements of an array are added one by one. -/
theorem assemble_elementQueues : ∀ (first : Bool) (children : List TypedNode) {root : TypedNode}
    {topName : List Char} {cs : List TypedNode} {below : List (List Char × TypedNode)}
    {tokens : List Token} {data : List (ValueType × List Char)}, Closed tokens →
      assemble ((elementQueues first children).tokens ++ tokens)
          ⟨root, (topName, .array cs) :: below, [], (elementQueues first children).data ++ data⟩
        = assemble tokens ⟨root, (topName, .array (cs ++ children)) :: below, [], data⟩
  | first, [], root, topName, cs, below, tokens, data, _ => by simp [elementQueues]
  | first, value :: rest, root, topName, cs, below, tokens, data, hclosed => by
      rw [elementQueues]
      simp only [Queues.tokens_append, Queues.data_append, List.append_assoc, List.nil_append,
        data_separator]
      rw [assemble_separator, assemble_queuesOf value rfl (closed_elements rest hclosed),
        assemble_elementQueues false rest hclosed, List.append_assoc, List.singleton_append]

end

/-! ### Reading what was written -/

/-- The root with what a node holds behind its own. -/
def TypedNode.take (root node : TypedNode) : TypedNode :=
  match root, node with
  | .object children, .object children' => .object (children ++ children')
  | .array children, .array children' => .array (children ++ children')
  | _, node => node

/-- The tokens of a node in a root of its type. -/
theorem assemble_root {root node : TypedNode} (htype : root.getType = node.getType) :
    assemble (queuesOf node).tokens ⟨root, [], [], (queuesOf node).data⟩ = .parsed (root.take node) := by
  cases node with
  | object children =>
      cases root with
      | array cs => cases htype
      | value type valueStr => cases htype
      | object cs =>
          have hclosed : Closed [.tObjEnd] := by simp [Closed]
          rw [queuesOf]
          simp only [Queues.tokens_append, Queues.data_append, List.nil_append, List.cons_append]
          rw [assemble]
          refine (assemble_memberQueues true children hclosed).trans ?_
          simp [assemble, Assembly.finish, Assembly.result, TypedNode.getType, TypedNode.take]
  | array children =>
      cases root with
      | object cs => cases htype
      | value type valueStr => cases htype
      | array cs =>
          have hclosed : Closed [.tArrayEnd] := by simp [Closed]
          rw [queuesOf]
          simp only [Queues.tokens_append, Queues.data_append, List.nil_append, List.cons_append]
          rw [assemble]
          refine (assemble_elementQueues true children hclosed).trans ?_
          simp [assemble, Assembly.finish, Assembly.result, TypedNode.getType, TypedNode.take]
  | value type valueStr =>
      cases root with
      | object cs => cases htype
      | array cs => cases htype
      | value type' valueStr' =>
          rw [queuesOf]
          refine (assemble_value (by simp [Closed]) rfl (fun _ => rfl)).trans ?_
          simp [assemble, Assembly.setValue, Assembly.result, TypedNode.take, valueOf_datumOf]

/-- The type that the reader can choose its root by. -/
theorem determineType_write (format : Format) {node : TypedNode} (h : Readable node) :
    determineType (write format node) = some node.getType := by
  rw [determineType, freshJson_write format h]
  cases node with
  | object children => rfl
  | array children => rfl
  | value type valueStr =>
      cases type with
      | vtNull => rfl
      | vtString => rfl
      | vtBool =>
          obtain rfl | rfl := h
          · rfl
          · rfl
      | vtNumber =>
          obtain ⟨hne, hnumber⟩ := h
          cases valueStr with
          | nil => exact absurd rfl hne
          | cons c valueStr =>
              rw [List.all_cons, Bool.and_eq_true] at hnumber
              have hc := of_isNumber (p := fun c => typeOf c = .tValue) (by decide) hnumber.1
              exact congrArg some (of_decide_eq_true hc)

/-- What was written is parsed into a root of its type. -/
theorem parse_root_write (format : Format) {node root : TypedNode} (h : Readable node)
    (htype : root.getType = node.getType) : parse root (write format node) = .parsed (root.take node) := by
  rw [parse, freshJson_write format h, tokenize_write h]
  exact assemble_root htype

/-- The parser reads no more characters than there are. -/
theorem freshJson_length (json : List Char) : (freshJson json).length ≤ json.length := by
  have hall : ∀ (c0 : Char) (comment : Bool) (multicomment : Int) (inString : Bool) (text : List Char),
      (removeWhitespace c0 comment multicomment inString text).length ≤ text.length := by
    intro c0 comment multicomment inString text
    fun_induction removeWhitespace c0 comment multicomment inString text with
    | case1 => exact Nat.le_refl _
    | case2 => simp_all; omega
    | case3 => simp_all; omega
    | case4 => simp_all; omega
    | case5 => simp_all; omega
    | case6 => simp_all
  exact hall _ _ _ _ json

/-- What is written in a format is read into a root of the type that is seen in the
text: the root then holds the node behind what it held. -/
theorem parse_write (format : Format) (node : TypedNode) (h : Readable node)
    (hsize : (write format node).length + 1 < 2 ^ 32) :
    determineType (write format node) = some node.getType ∧
      ∀ root : TypedNode, root.getType = node.getType →
        Gives (Parser.Parse root (write format node)) (.parsed (root.take node)) := by
  refine ⟨determineType_write format h, fun root htype => ?_⟩
  have hfresh := freshJson_length (write format node)
  rw [Parser.gives_Parse_iff (Nat.lt_of_le_of_lt (Nat.succ_le_succ hfresh) hsize)]
  exact (parse_root_write format h htype).symm

theorem parse_write_of_list :
    Gives (Parser.Parse (.object []) (write standardFormat
        (.object [(['a'], .array [.value .vtString ['x', '"'], .value .vtNumber ['-', '1'], .value .vtNull []])])))
      (.parsed (.object [(['a'], .array [.value .vtString ['x', '"'], .value .vtNumber ['-', '1'],
          .value .vtNull []])])) :=
  (parse_write standardFormat (.object [(['a'], .array [.value .vtString ['x', '"'],
      .value .vtNumber ['-', '1'], .value .vtNull []])])
    ⟨quotable_of_all (by decide), ⟨by simp [Readable, ReadableValue], ⟨by simp, by decide⟩, rfl, trivial⟩,
      trivial⟩ (by decide)).2 (.object []) rfl

/-- The closing quote of a string that ends with a backslash is taken for an escaped one. -/
theorem tokenize_unclosed {value : List Char} (h : value.getLast? = some '\\') :
    tokenize [] (freshJson ('"' :: (escapeString value ++ ['"'])))
      = ⟨[.tValue], [(.vtString, escapeString value ++ ['"'])]⟩ := by
  have hlast (c : Char) (hc : c = '\\' ↔ '"' = '\\') : (escapeString value).getLastD c = '\\' :=
    (getLastD_escapeString c value).mpr ((getLastD_congr hc value).mpr (getLast?_eq_backslash.mp h))
  have hfresh : freshJson ('"' :: (escapeString value ++ ['"'])) = '"' :: (escapeString value ++ ['"']) := by
    rw [freshJson, removeWhitespace_quote (by decide), Bool.not_false,
      removeWhitespace_quoted (quoted_escapeString _ _), hlast _ (by decide)]
    simp [removeWhitespace]
  have hread : readString '\x00' (escapeString value ++ ['"']) = (escapeString value ++ ['"'], []) := by
    rw [readString_append (quoted_escapeString _ _), hlast _ (by decide)]
    simp [readString]
  have hnone : tokenOf '"' = none := rfl
  rw [hfresh, tokenize, hnone]
  simp only [if_pos, hread, tokenize]
  rfl

/-- Of the strings those come back that do not end with a backslash; any other one comes
back with a quote behind it. -/
theorem parse_string_eq (format : Format) (valueStr : List Char) {root : TypedNode}
    (hroot : root.getType = .tValue) :
    parse root (write format (.value .vtString valueStr))
      = .parsed (.value .vtString
          (if valueStr.getLast? = some '\\' then valueStr ++ ['"'] else valueStr)) := by
  split
  · next hlast =>
      have htokens := tokenize_unclosed hlast
      have hback := unescapeString_escapeString valueStr ['"']
      rw [parse]
      simp only [write, Writer.writeNode, writeValue, valueToString, htokens]
      refine (assemble_value (by simp [Closed]) rfl (fun _ => hroot)).trans ?_
      simp [assemble, Assembly.setValue, Assembly.result, valueOf, hback, unescapeString, getUnescaped, escapes]
  · next hlast =>
      rw [show parse root (write format (.value .vtString valueStr)) = _ from parse_root_write format hlast hroot]
      cases root with
      | object children => cases hroot
      | array children => cases hroot
      | value type valueStr' => rfl

/-- The parser reads each string back as `parse_string_eq` says, if the cursor can count the
text. -/
theorem parse_string (format : Format) (valueStr : List Char)
    (hsize : (write format (.value .vtString valueStr)).length + 1 < 2 ^ 32) {root : TypedNode}
    (hroot : root.getType = .tValue) :
    Gives (Parser.Parse root (write format (.value .vtString valueStr)))
      (.parsed (.value .vtString
        (if valueStr.getLast? = some '\\' then valueStr ++ ['"'] else valueStr))) := by
  have hfresh := freshJson_length (write format (.value .vtString valueStr))
  rw [Parser.gives_Parse_iff (Nat.lt_of_le_of_lt (Nat.succ_le_succ hfresh) hsize)]
  exact (parse_string_eq format valueStr hroot).symm

theorem parse_string_of_backslash :
    Gives (Parser.Parse (.value .vtNull []) (write noFormat (.value .vtString ['a', '\\'])))
      (.parsed (.value .vtString ['a', '\\', '"'])) :=
  parse_string noFormat ['a', '\\'] (by decide) rfl

end Sogx.Jzon

/-! ### The replies -/

namespace Sogx.Main

open Sogx.Lib Sogx.Jzon

theorem all_isNumber_repr (n : Nat) : n.repr.toList ≠ [] ∧ n.repr.toList.all isNumber = true := by
  rw [Nat.toList_repr]
  refine ⟨Nat.toDigits_ne_nil, ?_⟩
  rw [List.all_eq_true]
  intro c hc
  have hdigit := Nat.isDigit_of_mem_toDigits (by decide) (by decide) hc
  rw [Char.isDigit, Bool.and_eq_true, decide_eq_true_eq, decide_eq_true_eq] at hdigit
  simp only [isNumber, Bool.or_eq_true, Bool.and_eq_true, decide_eq_true_eq]
  exact .inl (.inl hdigit)

theorem readable_ofInt (value : Int) : Readable (.ofInt value) := by
  rw [TypedNode.ofInt, Int.toString_eq_repr, Int.repr_eq_if]
  split
  · exact all_isNumber_repr _
  · obtain ⟨-, hall⟩ := all_isNumber_repr (-value).toNat
    refine ⟨by simp, ?_⟩
    rw [String.toList_append, List.all_append, hall]
    rfl

theorem readable_ofBool (value : Bool) : Readable (.ofBool value) := by
  cases value with
  | true => exact .inl rfl
  | false => exact .inr rfl

/-- The coins of a reply are readable. -/
theorem readable_coins (coins : List Coin) : ReadableElements (coins.map coinJson) := by
  induction coins with
  | nil => trivial
  | cons coin coins ih =>
      have hcenter : Readable (.object [("x".toList, .ofInt coin.center.x), ("y".toList, .ofInt coin.center.y)]) :=
        ⟨quotable_of_all (by decide), readable_ofInt _, quotable_of_all (by decide), readable_ofInt _, trivial⟩
      exact ⟨⟨quotable_of_all (by decide), hcenter, quotable_of_all (by decide), readable_ofInt _, trivial⟩, ih⟩

/-- Each reply is readable. -/
theorem readable_reply (result : Except Thrown CoinResult) : Readable (reply result) := by
  cases result with
  | error thrown => exact ⟨quotable_of_all (by decide), readable_ofBool false, trivial⟩
  | ok result =>
      have hrest : ReadableMembers
          [("coins".toList, .array (result.coins.map coinJson)), ("succeeded".toList, .ofBool true)] :=
        ⟨quotable_of_all (by decide), readable_coins _, quotable_of_all (by decide), readable_ofBool true, trivial⟩
      rw [reply, Readable]
      cases result.hasRing with
      | none => exact hrest
      | some ring => exact ⟨quotable_of_all (by decide), readable_ofBool ring, hrest⟩

/-- Whatever the body and whatever is thrown, the reply is the text of an object, and the
parser reads each of its values back with its type. -/
theorem reply_read {Mat : Type} (imdecode : Image → Except Thrown Mat)
    (count : Mat → Except Thrown CoinResult) (body : List Byte) :
    determineType (handleMessage imdecode count body).toList = some .tObject ∧
      parse (.object []) (handleMessage imdecode count body).toList
        = .parsed (reply (recognise imdecode count body)) := by
  have hreadable := readable_reply (recognise imdecode count body)
  rw [handleMessage, String.toList_ofList]
  cases hresult : recognise imdecode count body with
  | error thrown =>
      rw [hresult] at hreadable
      exact ⟨determineType_write noFormat hreadable, parse_root_write noFormat hreadable rfl⟩
  | ok result =>
      rw [hresult] at hreadable
      exact ⟨determineType_write noFormat hreadable, parse_root_write noFormat hreadable rfl⟩

end Sogx.Main
