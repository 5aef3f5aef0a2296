import Sogx.Native.JzonWriter
import Sogx.Lib.Loop
import Mathlib.Algebra.Ring.Nat

/-!
`jzon.cpp`, `Parser`: comments and whitespace are removed first, then the text is
cut into tokens, then the tokens are put together on a stack of nodes.

The parser goes through the text with its `cursor`, an `unsigned int`; `tokenize` and
`parse` are what this comes to on a text that it can count.

* `parse_keeps`: no text makes the parser take an element from an empty queue, and the
  root only grows.
* `gives_Parse_iff`, `not_terminates_Parse`: the loops with the cursor come to `parse` if
  the text is shorter than 4 GiB - 1, and from 4 GiB on they never end.
-/

namespace Sogx.Jzon

/-! ### `RemoveWhitespace` -/

/-- What is dropped outside of strings. -/
def isSpace (c : Char) : Bool := c = '\n' || c = ' ' || c = '\t' || c = '\r' || c = '\x0c'

/-- The loop of `RemoveWhitespace`; `c0` is the character in front. -/
def removeWhitespace (c0 : Char) (comment : Bool) (multicomment : Int) (inString : Bool) :
    List Char → List Char
  | [] => []
  | c1 :: rest =>
    let c2 := rest.headD '\x00'
    let inString := if c0 ≠ '\\' && c1 = '"' then !inString else inString
    if !inString && c1 = '/' && c2 = '*' then
      removeWhitespace c2 comment (multicomment + 1) inString rest.tail
    else if !inString && c1 = '*' && c2 = '/' then
      removeWhitespace c2 comment (multicomment - 1) inString rest.tail
    else if !inString && c1 = '/' && c2 = '/' then
      removeWhitespace c2 true multicomment inString rest.tail
    else
      let comment := if !inString && c1 = '\n' then false else comment
      if comment || 0 < multicomment || (!inString && isSpace c1) then
        removeWhitespace c1 comment multicomment inString rest
      else
        c1 :: removeWhitespace c1 comment multicomment inString rest
termination_by json => json.length
decreasing_by all_goals (simp; try omega)

/-- `RemoveWhitespace`. -/
def freshJson (json : List Char) : List Char := removeWhitespace '\x00' false 0 false json

/-- The `switch` of `Node::DetermineType`. -/
def typeOf : Char → NodeType
  | '{' => .tObject
  | '[' => .tArray
  | _ => .tValue

/-- `Node::DetermineType`, which throws on a text with nothing in it. -/
def determineType (json : List Char) : Option NodeType := (freshJson json).head?.map typeOf

/-! ### `tokenize` -/

/-- `Parser::Token`. -/
inductive Token where
  | tUnknown | tObjBegin | tObjEnd | tArrayBegin | tArrayEnd | tSeparatorNode | tSeparatorName | tValue
deriving DecidableEq, Repr

/-- The queues `tokens` and `data`. -/
structure Queues where
  tokens : List Token
  data : List (ValueType × List Char)
deriving DecidableEq, Repr

/-- What is pushed first, and then. -/
def Queues.append (q q' : Queues) : Queues := ⟨q.tokens ++ q'.tokens, q.data ++ q'.data⟩

instance : Append Queues := ⟨Queues.append⟩

@[simp] theorem Queues.tokens_append (q q' : Queues) : (q ++ q').tokens = q.tokens ++ q'.tokens := rfl

@[simp] theorem Queues.data_append (q q' : Queues) : (q ++ q').data = q.data ++ q'.data := rfl

namespace Queues

@[simp] theorem nil_append (q : Queues) : (⟨[], []⟩ : Queues) ++ q = q := rfl

@[simp] theorem append_nil (q : Queues) : q ++ (⟨[], []⟩ : Queues) = q :=
  congrArg₂ Queues.mk (List.append_nil q.tokens) (List.append_nil q.data)

theorem append_assoc (q q' q'' : Queues) : q ++ q' ++ q'' = q ++ (q' ++ q'') :=
  congrArg₂ Queues.mk (List.append_assoc q.tokens q'.tokens q''.tokens)
    (List.append_assoc q.data q'.data q''.data)

end Queues

/-- The tokens of one character. -/
def tokenOf : Char → Option Token
  | '{' => some .tObjBegin
  | '}' => some .tObjEnd
  | '[' => some .tArrayBegin
  | ']' => some .tArrayEnd
  | ',' => some .tSeparatorNode
  | ':' => some .tSeparatorName
  | _ => none

/-- What `Parser::readString` reads behind the opening quote: the string and what is left
behind its closing quote. -/
def readString (c1 : Char) : List Char → List Char × List Char
  | [] => ([], [])
  | c2 :: json =>
    if c1 ≠ '\\' && c2 = '"' then ([], json)
    else (c2 :: (readString c2 json).1, (readString c2 json).2)

theorem readString_length (c1 : Char) (json : List Char) :
    (readString c1 json).2.length ≤ json.length := by
  induction json generalizing c1 with
  | nil => simp [readString]
  | cons c2 json ih =>
      rw [readString]
      split
      · simp
      · exact Nat.le_succ_of_le (ih c2)

def isNumber (c : Char) : Bool := ('0' ≤ c && c ≤ '9') || c = '.' || c = '-'

/-- `Parser::interpretValue`, the datum that it pushes. -/
def interpretValue (value : List Char) : Option (ValueType × List Char) :=
  let upperValue := value.map Char.toUpper
  if upperValue = ['N', 'U', 'L', 'L'] then some (.vtNull, [])
  else if upperValue = ['T', 'R', 'U', 'E'] then some (.vtBool, ['t', 'r', 'u', 'e'])
  else if upperValue = ['F', 'A', 'L', 'S', 'E'] then some (.vtBool, ['f', 'a', 'l', 's', 'e'])
  else if value.all isNumber then some (.vtNumber, value)
  else none

/-- What is pushed for `valueBuffer` when it is saved. -/
def saveBuffer (valueBuffer : List Char) : Queues :=
  if valueBuffer = [] then ⟨[], []⟩
  else
    match interpretValue valueBuffer with
    | some datum => ⟨[.tValue], [datum]⟩
    | none => ⟨[.tUnknown], [(.vtString, valueBuffer)]⟩

/-- What `Parser::tokenize` pushes for a text. A string has pushed its datum before
`valueBuffer` is saved. -/
def tokenize (valueBuffer : List Char) : List Char → Queues
  | [] => ⟨[], []⟩
  | c :: json =>
    match tokenOf c with
    | some token => saveBuffer valueBuffer ++ ⟨[token], []⟩ ++ tokenize [] json
    | none =>
      if c = '"' then
        ⟨[], [(.vtString, (readString '\x00' json).1)]⟩ ++ saveBuffer valueBuffer ++ ⟨[.tValue], []⟩
          ++ tokenize [] (readString '\x00' json).2
      else if json = [] then saveBuffer (valueBuffer ++ [c])
      else tokenize (valueBuffer ++ [c]) json
termination_by json => json.length
decreasing_by
  all_goals simp
  have := readString_length '\x00' json
  omega

/-! ### `assemble` -/

/-- The locals of `assemble` with the root and the data. At the bottom of the stack
is the root itself. -/
structure Assembly where
  root : TypedNode
  nodeStack : List (List Char × TypedNode)
  name : List Char
  data : List (ValueType × List Char)

/-- What `Parse` comes to: `front` of an empty queue, `false` with an error, or `true`. -/
inductive Outcome where
  | undefined
  | failed (root : TypedNode) (error : String)
  | parsed (root : TypedNode)

namespace Assembly

variable (s : Assembly)

/-- The root as it is. -/
def result : TypedNode :=
  match s.nodeStack.getLast? with
  | some (_, node) => node
  | none => s.root

end Assembly

/-- `Object::Add` or `Array::Add`, of the two the one that `top` has. -/
def TypedNode.add (top : TypedNode) (name : List Char) (node : TypedNode) : Option TypedNode :=
  match top with
  | .object children => some (.object (children ++ [(name, node)]))
  | .array children => some (.array (children ++ [node]))
  | .value _ _ => none

/-- The datum as a value; a string is unescaped by `Set`. -/
def valueOf : ValueType × List Char → TypedNode
  | (.vtString, value) => .value .vtString (unescapeString value)
  | (type, value) => .value type value

namespace Assembly

/-- `T_OBJ_BEGIN` and `T_ARRAY_BEGIN`: a node is pushed, and the first one is the root. -/
def begin (type : NodeType) (error : String) (s : Assembly) : Except String Assembly :=
  if s.nodeStack = [] && s.root.getType ≠ type then .error error
  else .ok { s with
    nodeStack := (s.name, if s.nodeStack = [] then s.root else .ofType type) :: s.nodeStack
    name := [] }

/-- `T_OBJ_END` and `T_ARRAY_END`: the node on top is added to the one below. -/
def finish (type : NodeType) (error : String) (s : Assembly) : Except String Assembly :=
  match s.nodeStack with
  | [] => .error "Found end of object or array without beginning"
  | (name, node) :: nodeStack =>
    if node.getType ≠ type then .error error
    else
      match nodeStack with
      | [] => .ok { s with root := node, nodeStack := [] }
      | (topName, top) :: below =>
        match top.add name node with
        | some top => .ok { s with nodeStack := (topName, top) :: below }
        | none => .error "Can only add elements to objects and arrays"

/-- `T_VALUE` in front of `T_SEPARATOR_NAME`. -/
def setName (datum : ValueType × List Char) (data : List (ValueType × List Char)) (s : Assembly) :
    Except String Assembly :=
  if datum.1 ≠ .vtString then .error "A name has to be a string"
  else .ok { s with name := datum.2, data }

/-- Any other `T_VALUE`. It is not added to a root that is a value. -/
def setValue (datum : ValueType × List Char) (data : List (ValueType × List Char)) (s : Assembly) :
    Assembly :=
  { s with
    nodeStack :=
      match s.nodeStack with
      | [] => [(s.name, valueOf datum)]
      | (topName, top) :: below => (topName, (top.add s.name (valueOf datum)).getD top) :: below
    name := []
    data }

end Assembly

/-- `Parser::assemble`. -/
def assemble : List Token → Assembly → Outcome
  | [], s => .parsed s.result
  | .tUnknown :: _, s =>
    match s.data with
    | [] => .undefined
    | (_, unknownToken) :: _ => .failed s.result ("Unknown token: " ++ String.ofList unknownToken)
  | .tObjBegin :: tokens, s =>
    match s.begin .tObject "The given root node is not an object" with
    | .error error => .failed s.result error
    | .ok s' => assemble tokens s'
  | .tArrayBegin :: tokens, s =>
    match s.begin .tArray "The given root node is not an array" with
    | .error error => .failed s.result error
    | .ok s' => assemble tokens s'
  | .tObjEnd :: tokens, s =>
    match s.finish .tObject "Mismatched end and beginning of object" with
    | .error error => .failed s.result error
    | .ok s' => assemble tokens s'
  | .tArrayEnd :: tokens, s =>
    match s.finish .tArray "Mismatched end and beginning of array" with
    | .error error => .failed s.result error
    | .ok s' => assemble tokens s'
  | .tSeparatorNode :: tokens, s => assemble tokens s
  | .tSeparatorName :: tokens, s => assemble tokens s
  | .tValue :: .tSeparatorName :: tokens, s =>
    match s.data with
    | [] => .undefined
    | datum :: data =>
      match s.setName datum data with
      | .error error => .failed s.result error
      | .ok s' => assemble tokens s'
  | .tValue :: tokens, s =>
    if s.nodeStack = [] && s.root.getType ≠ .tValue then
      .failed s.result "The given root node is not a value"
    else
      match s.data with
      | [] => .undefined
      | datum :: data => assemble tokens (s.setValue datum data)

/-- What `Parser::Parse` comes to. -/
def parse (root : TypedNode) (json : List Char) : Outcome :=
  let queues := tokenize [] (freshJson json)
  assemble queues.tokens ⟨root, [], [], queues.data⟩

/-! ### Each value token has its datum -/

/-- The tokens that `assemble` takes a datum for. -/
def Token.hasDatum (token : Token) : Bool := token = .tValue || token = .tUnknown

theorem saveBuffer_count (valueBuffer : List Char) :
    (saveBuffer valueBuffer).tokens.countP Token.hasDatum = (saveBuffer valueBuffer).data.length := by
  rw [saveBuffer]
  split
  · rfl
  · split
    · rfl
    · rfl

theorem tokenOf_hasDatum {c : Char} {token : Token} (h : tokenOf c = some token) :
    token.hasDatum = false := by
  unfold tokenOf at h
  split at h
  all_goals first | cases h; rfl | cases h

/-- There are as many data as tokens that take one. -/
theorem tokenize_count (valueBuffer json : List Char) :
    (tokenize valueBuffer json).tokens.countP Token.hasDatum = (tokenize valueBuffer json).data.length := by
  fun_induction tokenize valueBuffer json with
  | case1 valueBuffer => rfl
  | case2 valueBuffer c json token htoken ih =>
      simp [saveBuffer_count, tokenOf_hasDatum htoken, ih]
  | case3 valueBuffer json htoken ih =>
      have hvalue : Token.hasDatum .tValue = true := rfl
      simp [saveBuffer_count, hvalue, ih]
      omega
  | case4 valueBuffer c htoken hquote => exact saveBuffer_count _
  | case5 valueBuffer c json htoken hquote hne ih => exact ih

/-! ### The root only grows -/

namespace TypedNode

/-- `node'` has the type of `node` and its children in front. -/
def Extends : TypedNode → TypedNode → Prop
  | .object children, .object children' => children <+: children'
  | .array children, .array children' => children <+: children'
  | .value _ _, .value _ _ => True
  | _, _ => False

theorem Extends.refl (node : TypedNode) : node.Extends node := by
  cases node with
  | object children => exact List.prefix_rfl
  | array children => exact List.prefix_rfl
  | value type valueStr => trivial

theorem Extends.trans {node node' node'' : TypedNode} (h : node.Extends node')
    (h' : node'.Extends node'') : node.Extends node'' := by
  cases node <;> cases node' <;> cases node'' <;>
    first | exact List.IsPrefix.trans h h' | trivial

theorem extends_of_getType {node : TypedNode} {type : ValueType} {valueStr : List Char}
    (h : node.getType = .tValue) : node.Extends (.value type valueStr) := by
  cases node with
  | object children => cases h
  | array children => cases h
  | value type valueStr => trivial

/-- A container that gets a child extends itself. -/
theorem extends_add {top top' node : TypedNode} {name : List Char} (h : top.add name node = some top') :
    top.Extends top' := by
  cases top with
  | object children =>
      cases h
      exact List.prefix_append _ _
  | array children =>
      cases h
      exact List.prefix_append _ _
  | value type valueStr => cases h

theorem extends_add_getD (top node : TypedNode) (name : List Char) :
    top.Extends ((top.add name node).getD top) := by
  cases h : top.add name node with
  | none => exact Extends.refl top
  | some top' => exact extends_add h

end TypedNode

namespace Assembly

open TypedNode

/-- What one token does to the root, with the data it leaves. -/
theorem result_nil {s : Assembly} (h : s.nodeStack = []) : s.result = s.root := by
  simp [result, h]

theorem result_cons (s : Assembly) {name : List Char} {node : TypedNode}
    {below : List (List Char × TypedNode)} (h : s.nodeStack = (name, node) :: below) :
    s.result = (below.getLast?.map (·.2)).getD node := by
  simp only [result, h, List.getLast?_cons]
  cases below.getLast? with
  | none => rfl
  | some bottom => rfl

/-- Beginning a container changes neither the result nor the data. -/
theorem begin_keeps {type : NodeType} {error : String} {s s' : Assembly}
    (h : s.begin type error = .ok s') : s'.result = s.result ∧ s'.data = s.data := by
  rw [begin] at h
  split at h
  · cases h
  · cases h
    refine ⟨?_, rfl⟩
    cases hstack : s.nodeStack with
    | nil => simp [result, hstack]
    | cons top below => simp [result, hstack, List.getLast?_cons]

/-- The bottom of the stack grows when the node on top does. -/
theorem result_grows (s s' : Assembly) {name : List Char} {top top' : TypedNode}
    {below : List (List Char × TypedNode)} (hs : s.nodeStack = (name, top) :: below)
    (hs' : s'.nodeStack = (name, top') :: below) (h : top.Extends top') : s.result.Extends s'.result := by
  rw [result_cons s hs, result_cons s' hs']
  cases below.getLast? with
  | none => exact h
  | some bottom => exact Extends.refl _

/-- Finishing a container only adds to the result. -/
theorem finish_keeps {type : NodeType} {error : String} {s s' : Assembly}
    (h : s.finish type error = .ok s') : s.result.Extends s'.result ∧ s'.data = s.data := by
  unfold finish at h
  split at h
  · cases h
  · next name node nodeStack hstack =>
      split at h
      · cases h
      · split at h
        · cases h
          rw [result_cons s hstack]
          exact ⟨Extends.refl _, rfl⟩
        · next topName top below =>
            split at h
            · next top' hadd =>
                cases h
                refine ⟨?_, rfl⟩
                rw [result_cons s hstack]
                -- the node on top is not the bottom, so it can be left out
                have hbelow : ((((topName, top) :: below).getLast?).map (·.2)).getD node
                    = (below.getLast?.map (·.2)).getD top := by
                  rw [List.getLast?_cons]
                  cases below.getLast? with
                  | none => rfl
                  | some bottom => rfl
                have hgrows := result_grows { s with nodeStack := (topName, top) :: below }
                  { s with nodeStack := (topName, top') :: below } rfl rfl (extends_add hadd)
                rw [hbelow]
                rwa [result_cons { s with nodeStack := (topName, top) :: below } rfl] at hgrows
            · cases h

/-- A name takes its datum and leaves the result. -/
theorem setName_keeps {datum : ValueType × List Char} {data : List (ValueType × List Char)} {s s' : Assembly}
    (h : s.setName datum data = .ok s') : s'.result = s.result ∧ s'.data = data := by
  rw [setName] at h
  split at h
  · cases h
  · cases h
    exact ⟨rfl, rfl⟩

theorem valueOf_eq (datum : ValueType × List Char) : ∃ type valueStr, valueOf datum = .value type valueStr := by
  obtain ⟨type, valueStr⟩ := datum
  cases type
  all_goals exact ⟨_, _, rfl⟩

theorem setValue_nil {datum : ValueType × List Char} {data : List (ValueType × List Char)} {s : Assembly}
    (h : s.nodeStack = []) : (s.setValue datum data).nodeStack = [(s.name, valueOf datum)] := by
  simp [setValue, h]

theorem setValue_cons {datum : ValueType × List Char} {data : List (ValueType × List Char)} {s : Assembly}
    {topName : List Char} {top : TypedNode} {below : List (List Char × TypedNode)}
    (h : s.nodeStack = (topName, top) :: below) :
    (s.setValue datum data).nodeStack = (topName, (top.add s.name (valueOf datum)).getD top) :: below := by
  simp [setValue, h]

/-- A value only adds to the result. -/
theorem setValue_keeps {datum : ValueType × List Char} {data : List (ValueType × List Char)} {s : Assembly}
    (h : s.nodeStack = [] → s.root.getType = .tValue) :
    s.result.Extends (s.setValue datum data).result := by
  cases hstack : s.nodeStack with
  | nil =>
      obtain ⟨type, valueStr, hvalue⟩ := valueOf_eq datum
      rw [result_nil hstack, result_cons _ (setValue_nil hstack)]
      simpa [hvalue] using extends_of_getType (h hstack)
  | cons top below =>
      obtain ⟨topName, top⟩ := top
      exact result_grows s _ hstack (setValue_cons hstack) (extends_add_getD top _ _)

end Assembly

open TypedNode

/-- The data suffice for the tokens. -/
def Outcome.Grows (root : TypedNode) : Outcome → Prop
  | .undefined => False
  | .failed root' _ => root.Extends root'
  | .parsed root' => root.Extends root'

theorem Outcome.Grows.of_extends {root root' : TypedNode} {outcome : Outcome}
    (h : root.Extends root') (h' : outcome.Grows root') : outcome.Grows root := by
  cases outcome with
  | undefined => exact h'
  | failed root'' error => exact h.trans h'
  | parsed root'' => exact h.trans h'

/-- With a datum for each token that takes one, `assemble` adds to the root only. -/
theorem assemble_grows (tokens : List Token) (s : Assembly)
    (hcount : tokens.countP Token.hasDatum ≤ s.data.length) : (assemble tokens s).Grows s.result := by
  fun_induction assemble tokens s with
  | case1 s => exact Extends.refl _
  | case2 tokens s hdata => simp [hdata, Token.hasDatum] at hcount
  | case3 => exact Extends.refl _
  | case4 => exact Extends.refl _
  | case5 tokens s s' hbegin ih | case7 tokens s s' hbegin ih =>
      obtain ⟨hresult, hdata⟩ := Assembly.begin_keeps hbegin
      rw [← hresult]
      exact ih (by rw [hdata]; exact hcount)
  | case6 => exact Extends.refl _
  | case8 => exact Extends.refl _
  | case9 tokens s s' hfinish ih | case11 tokens s s' hfinish ih =>
      obtain ⟨hresult, hdata⟩ := Assembly.finish_keeps hfinish
      exact (ih (by rw [hdata]; exact hcount)).of_extends hresult
  | case10 => exact Extends.refl _
  | case12 tokens s ih | case13 tokens s ih => exact ih hcount
  | case14 tokens s hdata => simp [hdata, Token.hasDatum] at hcount
  | case15 => exact Extends.refl _
  | case16 tokens s datum data hdata s' hname ih =>
      obtain ⟨hresult, hdata'⟩ := Assembly.setName_keeps hname
      rw [← hresult]
      refine ih ?_
      rw [List.countP_cons_of_pos rfl, hdata, List.length_cons] at hcount
      rw [hdata']
      exact Nat.le_of_succ_le_succ hcount
  | case17 => exact Extends.refl _
  | case18 tokens s hroot hno hdata => simp [hdata, Token.hasDatum] at hcount
  | case19 tokens s hname hno datum data hdata ih =>
      have hroot : s.nodeStack = [] → s.root.getType = .tValue := by simpa using hno
      refine (ih ?_).of_extends (Assembly.setValue_keeps hroot)
      rw [List.countP_cons_of_pos rfl, hdata, List.length_cons] at hcount
      exact Nat.le_of_succ_le_succ hcount

/-- Whatever the text, each `front` has an element, and with or without an error the
root keeps its type and the children it had. -/
theorem parse_keeps (root : TypedNode) (json : List Char) :
    ∃ root', root.Extends root' ∧
      (parse root json = .parsed root' ∨ ∃ error, parse root json = .failed root' error) := by
  have hgrows := assemble_grows (tokenize [] (freshJson json)).tokens
    ⟨root, [], [], (tokenize [] (freshJson json)).data⟩ (Nat.le_of_eq (tokenize_count _ _))
  change (parse root json).Grows root at hgrows
  cases h : parse root json with
  | undefined =>
      rw [h] at hgrows
      exact hgrows.elim
  | failed root' error =>
      rw [h] at hgrows
      exact ⟨root', hgrows, .inr ⟨error, rfl⟩⟩
  | parsed root' =>
      rw [h] at hgrows
      exact ⟨root', hgrows, .inl rfl⟩

/-! ### The cursor -/

namespace Parser

open Sogx.Lib

/-- The loop of `Parser::readString`. There is no character where the cursor has reached
`json.size()`. -/
def readString (json : List Char) (cursor : BitVec 32) (c1 : Char) (str : List Char) :
    Fueled (List Char × BitVec 32)
  | 0 => .error .running
  | fuel + 1 =>
    match json[cursor.toNat]? with
    | none => .ok (str, cursor)
    | some c2 =>
      if c1 ≠ '\\' && c2 = '"' then .ok (str, cursor)
      else readString json (cursor + 1) c2 (str ++ [c2]) fuel

/-- The loop of `Parser::tokenize`. -/
def tokenize (json : List Char) (cursor : BitVec 32) (valueBuffer : List Char) (queues : Queues) : Fueled Queues
  | 0 => .error .running
  | fuel + 1 =>
    match json[cursor.toNat]? with
    | none => .ok queues
    | some c =>
      match tokenOf c with
      | some token => tokenize json (cursor + 1) [] (queues ++ (saveBuffer valueBuffer ++ ⟨[token], []⟩)) fuel
      | none =>
        if c = '"' then do
          let (str, cursor) ← readString json (cursor + 1) '\x00' [] fuel
          tokenize json (cursor + 1) []
            (queues ++ (⟨[], [(.vtString, str)]⟩ ++ saveBuffer valueBuffer ++ ⟨[.tValue], []⟩)) fuel
        else if cursor.toNat = json.length - 1 then
          tokenize json (cursor + 1) [] (queues ++ saveBuffer (valueBuffer ++ [c])) fuel
        else tokenize json (cursor + 1) (valueBuffer ++ [c]) queues fuel

/-- `Parser::Parser` and `Parser::Parse`. -/
def Parse (root : TypedNode) (json : List Char) : Fueled Outcome := fun fuel => do
  let queues ← tokenize (freshJson json) 0 [] ⟨[], []⟩ fuel
  return assemble queues.tokens ⟨root, [], [], queues.data⟩

/-- More fuel does not change a string that was read. -/
theorem steady_readString (json : List Char) (cursor : BitVec 32) (c1 : Char) (str : List Char) :
    Steady (readString json cursor c1 str) := by
  intro n
  induction n generalizing cursor c1 str with
  | zero => exact fun m a _ h => by cases h
  | succ n ih =>
      intro m a hle h
      obtain ⟨m, rfl⟩ := Nat.exists_eq_add_one_of_ne_zero (Nat.ne_zero_of_lt hle)
      rw [readString] at h ⊢
      split
      · next hend => rwa [hend] at h
      · next c2 hc2 =>
          rw [hc2] at h
          dsimp only at h
          split
          · next hclosing => rwa [if_pos hclosing] at h
          · next hclosing =>
              rw [if_neg hclosing] at h
              exact ih _ _ _ m a (Nat.le_of_succ_le_succ hle) h

/-- More fuel does not change the tokens of a text that was gone through. -/
theorem steady_tokenize (json : List Char) (cursor : BitVec 32) (valueBuffer : List Char) (queues : Queues) :
    Steady (tokenize json cursor valueBuffer queues) := by
  intro n
  induction n generalizing cursor valueBuffer queues with
  | zero => exact fun m a _ h => by cases h
  | succ n ih =>
      intro m a hle h
      obtain ⟨m, rfl⟩ := Nat.exists_eq_add_one_of_ne_zero (Nat.ne_zero_of_lt hle)
      have hle : n ≤ m := Nat.le_of_succ_le_succ hle
      rw [tokenize] at h ⊢
      split
      · next hend => rwa [hend] at h
      · next c hc =>
          rw [hc] at h
          dsimp only at h
          split
          · next token htoken =>
              rw [htoken] at h
              exact ih _ _ _ m a hle h
          · next htoken =>
              rw [htoken] at h
              dsimp only at h
              split
              · next hquote =>
                  rw [if_pos hquote] at h
                  obtain ⟨r, hread, hrest⟩ := bind_eq_ok.mp h
                  exact bind_eq_ok.mpr ⟨r, steady_readString _ _ _ _ n m r hle hread, ih _ _ _ m a hle hrest⟩
              · next hquote =>
                  rw [if_neg hquote] at h
                  split
                  · next hlast =>
                      rw [if_pos hlast] at h
                      exact ih _ _ _ m a hle h
                  · next hlast =>
                      rw [if_neg hlast] at h
                      exact ih _ _ _ m a hle h

theorem steady_Parse (root : TypedNode) (json : List Char) : Steady (Parse root json) :=
  (steady_tokenize (freshJson json) 0 [] ⟨[], []⟩).bind fun _ => steady_const _

section Counted

variable {json : List Char}

/-- Where the cursor stands on a text that it can count. -/
theorem cursor_toNat {n : Nat} (hsize : json.length + 1 < 2 ^ 32) (hn : n ≤ json.length + 1) :
    (BitVec.ofNat 32 n).toNat = n := by
  rw [BitVec.toNat_ofNat, Nat.mod_eq_of_lt (Nat.lt_of_le_of_lt hn hsize)]

/-- The cursor counts modulo 2^32. -/
theorem cursor_next (n : Nat) : BitVec.ofNat 32 n + 1 = BitVec.ofNat 32 (n + 1) := (BitVec.ofNat_add n 1).symm

/-- What is left of the text at a place, and behind the character that stands there. -/
theorem drop_succ_of_cons {n : Nat} {c : Char} {rest : List Char} (h : json.drop n = c :: rest) :
    json[n]? = some c ∧ json.drop (n + 1) = rest ∧ json.length = n + (rest.length + 1) := by
  have hn : n < json.length := by
    rw [← Nat.sub_pos_iff_lt, ← List.length_drop, h]
    exact Nat.succ_pos _
  refine ⟨?_, ?_, ?_⟩
  · rw [← Nat.add_zero n, ← List.getElem?_drop, h]
    rfl
  · rw [← List.drop_drop, h]
    rfl
  · have hlength := congrArg List.length h
    rw [List.length_drop, List.length_cons] at hlength
    omega

/-- The loop reads the string, and ends at its closing quote or behind the text. -/
theorem readString_eq (hsize : json.length + 1 < 2 ^ 32) :
    ∀ (rest : List Char) {n fuel : Nat} (c1 : Char) (str : List Char), json.drop n = rest → n ≤ json.length →
      rest.length < fuel → ∃ n', readString json (BitVec.ofNat 32 n) c1 str fuel
          = .ok (str ++ (Jzon.readString c1 rest).1, BitVec.ofNat 32 n') ∧
        n' ≤ json.length ∧ json.drop (n' + 1) = (Jzon.readString c1 rest).2
  | [], n, fuel, c1, str, hrest, hn, hfuel => by
      obtain ⟨fuel, rfl⟩ := Nat.exists_eq_add_one_of_ne_zero (Nat.ne_zero_of_lt hfuel)
      have hend : json.length ≤ n := List.drop_eq_nil_iff.mp hrest
      refine ⟨n, ?_, hn, List.drop_of_length_le (Nat.le_succ_of_le hend)⟩
      rw [readString, cursor_toNat hsize (Nat.le_succ_of_le hn), List.getElem?_eq_none hend]
      simp [Jzon.readString]
  | c2 :: rest, n, fuel, c1, str, hrest, hn, hfuel => by
      obtain ⟨fuel, rfl⟩ := Nat.exists_eq_add_one_of_ne_zero (Nat.ne_zero_of_lt hfuel)
      obtain ⟨hc2, hdrop, hlength⟩ := drop_succ_of_cons hrest
      rw [readString, cursor_toNat hsize (Nat.le_succ_of_le hn), hc2, Jzon.readString]
      dsimp only
      split
      · exact ⟨n, by rw [List.append_nil], hn, hdrop⟩
      · obtain ⟨n', hread, hn', hdrop'⟩ := readString_eq hsize rest c2 (str ++ [c2]) hdrop
          (show n + 1 ≤ json.length by omega) (Nat.lt_of_succ_lt_succ hfuel)
        refine ⟨n', ?_, hn', hdrop'⟩
        rw [cursor_next, hread, List.append_assoc]
        rfl

/-- The loop pushes what the rest of the text comes to. -/
theorem tokenize_eq (hsize : json.length + 1 < 2 ^ 32) (fuel : Nat) :
    ∀ {n : Nat} {rest : List Char} (valueBuffer : List Char) (queues : Queues), json.drop n = rest →
      n ≤ json.length + 1 → rest.length < fuel →
        tokenize json (BitVec.ofNat 32 n) valueBuffer queues fuel = .ok (queues ++ Jzon.tokenize valueBuffer rest) := by
  induction fuel with
  | zero => exact fun _ _ _ _ hfuel => absurd hfuel (Nat.not_lt_zero _)
  | succ fuel ih =>
      intro n rest valueBuffer queues hrest hn hfuel
      rw [tokenize, cursor_toNat hsize hn]
      cases rest with
      | nil =>
          rw [List.getElem?_eq_none (List.drop_eq_nil_iff.mp hrest)]
          simp [Jzon.tokenize]
      | cons c rest =>
          obtain ⟨hc, hdrop, hlength⟩ := drop_succ_of_cons hrest
          have hfuel : rest.length < fuel := Nat.lt_of_succ_lt_succ hfuel
          have hnext : n + 1 ≤ json.length + 1 := by omega
          rw [hc, Jzon.tokenize]
          dsimp only
          cases htoken : tokenOf c with
          | some token =>
              dsimp only
              rw [cursor_next, ih _ _ hdrop hnext hfuel, Queues.append_assoc]
          | none =>
              dsimp only
              by_cases hquote : c = '"'
              · obtain ⟨n', hread, hn', hdrop'⟩ := readString_eq hsize rest '\x00' [] hdrop
                  (show n + 1 ≤ json.length by omega) hfuel
                have hshorter := readString_length '\x00' rest
                rw [if_pos hquote, if_pos hquote, cursor_next, hread]
                simp only [bind, Except.bind]
                rw [cursor_next, ih _ _ hdrop' (Nat.succ_le_succ hn') (Nat.lt_of_le_of_lt hshorter hfuel), Queues.append_assoc,
                  List.nil_append]
              · have hlast : n = json.length - 1 ↔ rest = [] := by
                  rw [← List.length_eq_zero_iff]
                  omega
                rw [if_neg hquote, if_neg hquote]
                by_cases hempty : rest = []
                · have hnil : Jzon.tokenize [] rest = ⟨[], []⟩ := by
                    rw [hempty, Jzon.tokenize]
                  rw [if_pos (hlast.mpr hempty), if_pos hempty, cursor_next, ih _ _ hdrop hnext hfuel, hnil,
                    Queues.append_nil]
                · rw [if_neg (hempty ∘ hlast.mp), if_neg hempty, cursor_next, ih _ _ hdrop hnext hfuel]

/-- On a text that the cursor can count, with one to spare, `Parse` comes to an end, and to
`parse`. -/
theorem gives_Parse_iff {root : TypedNode} {outcome : Outcome} (hsize : (freshJson json).length + 1 < 2 ^ 32) :
    Gives (Parse root json) outcome ↔ outcome = parse root json := by
  have hgives : Gives (Parse root json) (parse root json) := by
    refine ⟨(freshJson json).length + 1, ?_⟩
    have htokens := tokenize_eq hsize ((freshJson json).length + 1) [] ⟨[], []⟩ List.drop_zero
      (Nat.zero_le _) (Nat.lt_succ_self _)
    exact bind_eq_ok.mpr ⟨_, htokens, rfl⟩
  constructor
  · exact fun h => h.unique (steady_Parse root json) hgives
  · rintro rfl
    exact hgives

/-- From 2^32 characters on there is one wherever the cursor stands. -/
theorem tokenize_ne_ok (hsize : 2 ^ 32 ≤ json.length) (fuel : Nat) (cursor : BitVec 32) (valueBuffer : List Char)
    (queues result : Queues) : tokenize json cursor valueBuffer queues fuel ≠ .ok result := by
  induction fuel generalizing cursor valueBuffer queues with
  | zero => exact nofun
  | succ fuel ih =>
      have hthere : json[cursor.toNat]? = some (json.get ⟨cursor.toNat, Nat.lt_of_lt_of_le cursor.isLt hsize⟩) :=
        List.getElem?_eq_getElem _
      rw [tokenize, hthere]
      dsimp only
      split
      · exact ih _ _ _
      · split
        · intro h
          obtain ⟨r, -, hrest⟩ := bind_eq_ok.mp h
          exact ih _ _ _ hrest
        · split
          · exact ih _ _ _
          · exact ih _ _ _

/-- From 4 GiB on the cursor wraps around in front of the end, and the parser never ends. -/
theorem not_terminates_Parse (root : TypedNode) (hsize : 2 ^ 32 ≤ (freshJson json).length) :
    ¬ Terminates (Parse root json) := by
  rintro ⟨outcome, fuel, h⟩
  obtain ⟨queues, htokens, -⟩ := bind_eq_ok.mp h
  exact tokenize_ne_ok hsize fuel 0 [] ⟨[], []⟩ queues htokens

end Counted

end Parser

end Sogx.Jzon
