import Sogx.Ios.RTSPMessage

/-!
`HandshakeHeader.m` and the header texts of `WebSocket.m`.

* `buildHeadersFromString_lines`: headers are read back from their lines.
* `requestHeaders_build`: what is built from headers is read as these headers, behind
  the two that every request has.
-/

namespace Sogx

open Sogx.Lib NSString

structure HandshakeHeader where
  value : NSString
  key : NSString
deriving DecidableEq, Repr

namespace HandshakeHeader

def keyMatchesCaseInsensitiveString (aStringToCompare : NSString) (header : HandshakeHeader) : Bool :=
  sameIgnoringCase header.key aStringToCompare

/-- `whitespaceCharacterSet`. -/
def whitespace (c : Char) : Bool :=
  c.toNat ∈ [0x09, 0x20, 0xa0, 0x1680, 0x202f, 0x205f, 0x3000] || (0x2000 ≤ c.toNat && c.toNat ≤ 0x200a)

/-- `stringByTrimmingCharactersInSet:` of that set. -/
def trimmed (s : NSString) : NSString := ((s.dropWhile whitespace).reverse.dropWhile whitespace).reverse

/-- The header of one item of `buildHeadersFromString:`, split at its first colon. -/
def ofItem (item : NSString) : Option HandshakeHeader :=
  if ':' ∈ item then
    some ⟨trimmed ((item.dropWhile (· ≠ ':')).drop 1), trimmed (item.takeWhile (· ≠ ':'))⟩
  else none

def buildHeadersFromString (aHeaders : NSString) : List HandshakeHeader :=
  (lines '\r' '\n' aHeaders).filterMap ofItem

/-- `%@: %@` of a header. -/
def item (header : HandshakeHeader) : NSString := header.key ++ ':' :: ' ' :: header.value

/-- The request line of `buildStringFromHeaders:resource:`. -/
def requestLine (aResource : NSString) : NSString := "GET ".toList ++ aResource ++ " HTTP/1.1".toList

/-- The headers that each request has. -/
def upgradeHeaders : List HandshakeHeader :=
  [⟨"WebSocket".toList, "Upgrade".toList⟩, ⟨"Upgrade".toList, "Connection".toList⟩]

/-- `buildStringFromHeaders:resource:`. -/
def buildStringFromHeaders (aHeaders : List HandshakeHeader) (aResource : NSString) : NSString :=
  withMarks '\r' '\n' (requestLine aResource :: (upgradeHeaders ++ aHeaders).map item) ++ ['\r', '\n']

def headerForKey (aKey : NSString) (aHeaders : List HandshakeHeader) : Option HandshakeHeader :=
  aHeaders.find? (keyMatchesCaseInsensitiveString aKey)

def headersForKey (aKey : NSString) (aHeaders : List HandshakeHeader) : List HandshakeHeader :=
  aHeaders.filter (keyMatchesCaseInsensitiveString aKey)

/-- The values of a list in one header. -/
def listItems (value : NSString) : List NSString :=
  ((value.splitOn ',').map trimmed).filter (· ≠ [])

def getServerVersions (aServerHeaders : List HandshakeHeader) : List NSString :=
  (headersForKey "Sec-WebSocket-Version".toList aServerHeaders ++
    headersForKey "Sec-WebSocket-Version-Server".toList aServerHeaders).flatMap fun header =>
      listItems header.value

def getServerExtensions (aServerHeaders : List HandshakeHeader) : List NSString :=
  match headerForKey "Sec-WebSocket-Extensions".toList aServerHeaders with
  | some header => listItems header.value
  | none => []

/-! ### Round trip -/

/-- A header that its item holds: neither part has white space around it or a carriage
return in it, and the key has no colon. -/
structure Plain (header : HandshakeHeader) : Prop where
  key_trimmed : trimmed header.key = header.key
  value_trimmed : trimmed header.value = header.value
  colon : ':' ∉ header.key
  key_return : '\r' ∉ header.key
  value_return : '\r' ∉ header.value

theorem trimmed_space (s : NSString) : trimmed (' ' :: s) = trimmed s := by
  have hspace : whitespace ' ' = true := by decide
  rw [trimmed, List.dropWhile_cons_of_pos hspace, trimmed]

/-- A plain header is read back from its line. -/
theorem ofItem_item {header : HandshakeHeader} (h : Plain header) : ofItem header.item = some header := by
  have hcolon : ':' ∈ header.item := List.mem_append_right _ List.mem_cons_self
  have hbefore : header.item.takeWhile (· ≠ ':') = header.key := RTSPMessage.takeWhile_colon h.colon _
  have hbehind : header.item.dropWhile (· ≠ ':') = ':' :: ' ' :: header.value := by
    have hsplit := List.takeWhile_append_dropWhile (p := (· ≠ ':')) (l := header.item)
    rw [hbefore] at hsplit
    exact List.append_cancel_left hsplit
  rw [ofItem, if_pos hcolon, hbefore, hbehind, List.drop_one, List.tail_cons, trimmed_space, h.key_trimmed,
    h.value_trimmed]

theorem ofItem_eq_none {line : NSString} (h : ':' ∉ line) : ofItem line = none := if_neg h

theorem lines_of_no_return {line : NSString} (h : '\r' ∉ line) : lines '\r' '\n' line = [line] := by
  induction line with
  | nil => rfl
  | cons c line ih =>
    have hno : ¬ (c = '\r' ∧ line.head? = some '\n') := by
      rintro ⟨rfl, -⟩
      exact h List.mem_cons_self
    rw [lines_cons hno, ih fun hmem => h (List.mem_cons_of_mem c hmem), List.modifyHead_cons]

theorem item_no_return {header : HandshakeHeader} (h : Plain header) : '\r' ∉ header.item := by
  intro hmem
  rcases List.mem_append.mp hmem with hkey | hrest
  · exact h.key_return hkey
  · rcases List.mem_cons.mp hrest with hcolon | hrest
    · exact absurd hcolon (by decide)
    · rcases List.mem_cons.mp hrest with hspace | hvalue
      · exact absurd hspace (by decide)
      · exact h.value_return hvalue

/-- Plain headers are read back from their lines. -/
theorem filterMap_items {headers : List HandshakeHeader} (h : ∀ header ∈ headers, Plain header) :
    (headers.map item).filterMap ofItem = headers := by
  induction headers with
  | nil => rfl
  | cons header headers ih =>
    have hrest := ih fun header' hmem => h header' (List.mem_cons_of_mem header hmem)
    rw [List.map_cons, List.filterMap_cons_some (ofItem_item (h header List.mem_cons_self)), hrest]

/-- A message is cut into the lines that it was built of. -/
theorem lines_build {first : NSString} (hreturn : '\r' ∉ first) {headers : List HandshakeHeader}
    (hplain : ∀ header ∈ headers, Plain header) :
    lines '\r' '\n' (withMarks '\r' '\n' (first :: headers.map item) ++ ['\r', '\n']) =
      first :: (headers.map item ++ [[], []]) := by
  have hlines : ∀ line ∈ first :: headers.map item, lines '\r' '\n' line = [line] := by
    refine List.forall_mem_cons.mpr ⟨lines_of_no_return hreturn, ?_⟩
    intro line hline
    obtain ⟨header, hheader, rfl⟩ := List.mem_map.mp hline
    exact lines_of_no_return (item_no_return (hplain header hheader))
  have hends : lines '\r' '\n' ['\r', '\n'] = [[], []] := rfl
  rw [lines_withMarks (by decide) hlines, hends, List.cons_append]

theorem filterMap_build {headers : List HandshakeHeader} (h : ∀ header ∈ headers, Plain header) :
    (headers.map item ++ [[], []]).filterMap ofItem = headers := by
  have hitems := filterMap_items h
  rw [List.filterMap_append, hitems]
  exact List.append_nil headers

/-- Headers behind a first line that is none. -/
theorem buildHeadersFromString_lines {first : NSString} (hcolon : ':' ∉ first) (hreturn : '\r' ∉ first)
    {headers : List HandshakeHeader} (hplain : ∀ header ∈ headers, Plain header) :
    buildHeadersFromString (withMarks '\r' '\n' (first :: headers.map item) ++ ['\r', '\n']) = headers := by
  rw [buildHeadersFromString, lines_build hreturn hplain, List.filterMap_cons_none (ofItem_eq_none hcolon),
    filterMap_build hplain]

theorem plain_upgradeHeaders : ∀ header ∈ upgradeHeaders, Plain header := by
  have hUpgrade : trimmed "Upgrade".toList = "Upgrade".toList := by decide
  have hWebSocket : trimmed "WebSocket".toList = "WebSocket".toList := by decide
  have hConnection : trimmed "Connection".toList = "Connection".toList := by decide
  exact List.forall_mem_cons.mpr ⟨⟨hUpgrade, hWebSocket, by decide, by decide, by decide⟩,
    List.forall_mem_singleton.mpr ⟨hConnection, hUpgrade, by decide, by decide, by decide⟩⟩

/-- The headers of a request, as the other side reads them behind the request line. -/
def requestHeaders (aRequest : NSString) : List HandshakeHeader :=
  ((lines '\r' '\n' aRequest).drop 1).filterMap ofItem

/-- What is built from headers is read as these headers. -/
theorem requestHeaders_build {headers : List HandshakeHeader} {resource : NSString}
    (hplain : ∀ header ∈ headers, Plain header) (hreturn : '\r' ∉ resource) :
    requestHeaders (buildStringFromHeaders headers resource) = upgradeHeaders ++ headers := by
  have hall : ∀ header ∈ upgradeHeaders ++ headers, Plain header := by
    intro header hheader
    rcases List.mem_append.mp hheader with hmem | hmem
    · exact plain_upgradeHeaders header hmem
    · exact hplain header hmem
  have hline : '\r' ∉ requestLine resource := by
    intro hmem
    rcases List.mem_append.mp hmem with hmem | hmem
    · rcases List.mem_append.mp hmem with hfront | hresource
      · exact absurd hfront (by decide)
      · exact hreturn hresource
    · exact absurd hmem (by decide)
  rw [requestHeaders, buildStringFromHeaders, lines_build hline hall, List.drop_one, List.tail_cons,
    filterMap_build hall]

end HandshakeHeader

end Sogx
