import Sogx.Ios.WebSocketSender
import Sogx.Ios.Base64Category

/-!
`WebSocket.m`: opening a connection.

`getSHA1` is the hash of the security library. The time that a key is made of comes as
its text.

* `sendHandshakes_config`: every handshake on one configuration adds its headers to
  those of the ones before it.
* `answer_accepted_iff`: so a request carries the keys of all of them, and with
  `verifySecurityKey` the answer to one of these keys is accepted only if it is also the
  answer to the last.
-/

namespace Sogx

open Sogx.Lib HandshakeHeader

namespace WebSocketExtension

/-- The items one behind the other, with the separator where something is before it. -/
def joined (separator : String) (items : List NSString) : NSString :=
  items.foldl (fun fragment item =>
    (if fragment ≠ [] then fragment ++ separator.toList else fragment) ++ item) []

def text : WebSocketExtension → NSString
  | .single extension => extension
  | .ordered extensions => joined ", " extensions

/-- `getExtensionsAsString:`. -/
def getExtensionsAsString (aExtensions : List WebSocketExtension) : NSString :=
  joined "; " (aExtensions.map text)

/-- `isValidServerExtension:`, of what the configuration asks for. -/
def isValidServerExtension (extensions : List WebSocketExtension) (aServerExtensions : List NSString) : Bool :=
  if extensions ≠ [] then
    (match aServerExtensions with
      | [serverExtension] => .single serverExtension ∈ extensions
      | _ => false) || .ordered aServerExtensions ∈ extensions
  else aServerExtensions = []

end WebSocketExtension

namespace WebSocketSender

variable (getSHA1 : List Byte → List Byte)

/-- The text that the other side has to send back for a key. -/
def accept (key : NSString) : NSString :=
  NSData.base64EncodedString (getSHA1 (NSString.utf8 (key ++ "258EAFA5-E914-47DA-95CA-C5AB0DC85B11".toList)))

/-- `wsSecKey` of a time. -/
def secKey (initialString : NSString) : NSString := NSData.base64EncodedString (NSString.utf8 initialString)

def generateSecKeys (initialString : NSString) (s : WebSocketSender) : WebSocketSender :=
  let wsSecKey := secKey initialString
  { s with wsSecKey, wsSecKeyHandshake := accept getSHA1 wsSecKey }

/-- The headers that a handshake adds. -/
def addedHeaders (wsSecKey : NSString) (config : WebSocketConnectConfig) : List HandshakeHeader :=
  let version :=
    if config.version = WebSocketVersion.version10 then 8
    else if config.version = WebSocketVersion.rfc6455 then 13
    else config.version
  let protocolFragment := WebSocketExtension.joined ", " config.protocols
  let extensionFragment := WebSocketExtension.getExtensionsAsString config.extensions
  [⟨wsSecKey, "Sec-WebSocket-Key".toList⟩, ⟨config.host, "Host".toList⟩] ++
    (if config.useOrigin = true then
      if config.version < WebSocketVersion.rfc6455 then [⟨config.origin, "Sec-WebSocket-Origin".toList⟩]
      else [⟨config.origin, "Origin".toList⟩]
    else []) ++
    [⟨(toString version).toList, "Sec-WebSocket-Version".toList⟩] ++
    (if protocolFragment ≠ [] then [⟨protocolFragment, "Sec-WebSocket-Protocol".toList⟩] else []) ++
    (if extensionFragment ≠ [] then [⟨extensionFragment, "Sec-WebSocket-Extensions".toList⟩] else [])

/-- `getRequest:`. The headers are added to the array of the configuration. -/
def getRequest (initialString aRequestPath : NSString) (s : WebSocketSender) : NSString × WebSocketSender :=
  let s := s.generateSecKeys getSHA1 initialString
  let headers := s.config.headers ++ addedHeaders s.wsSecKey s.config
  (buildStringFromHeaders headers aRequestPath, { s with config := { s.config with headers } })

def requestPath (config : WebSocketConnectConfig) : NSString :=
  let requestPath := match config.path with
    | some path => if path ≠ [] then path else ['/']
    | none => ['/']
  match config.query with
  | some query => requestPath ++ '?' :: query
  | none => requestPath

def sendHandshake (initialString : NSString) (s : WebSocketSender) : WebSocketSender :=
  let (getRequest, s) := s.getRequest getSHA1 initialString (requestPath s.config)
  s.act (.writeHandshake getRequest)

/-- How `connectToHost:onPort:error:` comes out. -/
inductive Connect where
  | yes | no | threw
deriving DecidableEq, Repr

/-- `open`. -/
def openSocket (connected : Connect) (s : WebSocketSender) : WebSocketSender :=
  let s := s.act .connectToHost
  let s :=
    if connected = .threw then s
    else { s with
      closeStatusCode :=
        if s.config.version = WebSocketVersion.version07 then WebSocketCloseStatus.normal else 0
      closeMessage := none }
  if connected = .yes then s else s.act (.didClose WebSocketCloseStatus.protocolError none)

/-! ### The response -/

/-- The value of the first such header. -/
def valueForKey (aKey : String) (aHeaders : List HandshakeHeader) : Option NSString :=
  (headerForKey aKey.toList aHeaders).map HandshakeHeader.value

/-- What `isUpgradeResponse:` tests of the headers. A header that is missing is none of
the values. -/
def acceptsHeaders (s : WebSocketSender) (serverHeaders : List HandshakeHeader) : Bool :=
  (!s.config.verifySecurityKey || valueForKey "Sec-WebSocket-Accept" serverHeaders == some s.wsSecKeyHandshake) &&
    (valueForKey "Upgrade" serverHeaders).any (NSString.sameIgnoringCase "websocket".toList) &&
    (valueForKey "Connection" serverHeaders).any (NSString.sameIgnoringCase "Upgrade".toList)

/-- `isUpgradeResponse:`. -/
def isUpgradeResponse (aResponse : Option NSString) (s : WebSocketSender) : WebSocketSender × Bool :=
  match aResponse with
  | some aResponse =>
    if "HTTP/1.1 101".toList.isPrefixOf aResponse = true then
      let serverHeaders := buildHeadersFromString aResponse
      ({ s with config := { s.config with serverHeaders } }, s.acceptsHeaders serverHeaders)
    else (s, false)
  | none => (s, false)

/-- `supportsAnotherSupportedVersion:`. -/
def supportsAnotherSupportedVersion (aResponse : Option NSString) : Bool :=
  aResponse.any fun aResponse =>
    "HTTP/1.1 400".toList.isPrefixOf aResponse && "Sec-WebSocket-Version".toList <:+: aResponse

/-- The last version of the list that is known. -/
def otherVersion (versions : List NSString) : Option Nat :=
  versions.foldl (fun version text =>
    if NSString.intValue text = WebSocketVersion.version07 then some WebSocketVersion.version07
    else if NSString.intValue text = WebSocketVersion.version10 then some WebSocketVersion.version10
    else version) none

variable (arc4random : Nat → BitVec 32)

/-- The response is one to go on with. `protocols` never contains a header, so for the
RFC the protocol of the server is not kept. -/
def upgrade (s : WebSocketSender) : WebSocketSender :=
  let header := (headerForKey "Sec-WebSocket-Protocol".toList s.config.serverHeaders).or
    (headerForKey "Sec-WebSocket-Protocol-Server".toList s.config.serverHeaders)
  let s := match header with
    | some header =>
      if s.config.version < WebSocketVersion.rfc6455 then
        { s with config := { s.config with serverProtocol := some header.value } }
      else s
    | none => s
  let extensions := getServerExtensions s.config.serverHeaders
  if WebSocketVersion.rfc6455 ≤ s.config.version ∧ s.config.extensions ≠ [] ∧
      WebSocketExtension.isValidServerExtension s.config.extensions extensions = false then
    s.close arc4random WebSocketCloseStatus.missingExtensions
      (some (WebSocketExtension.getExtensionsAsString s.config.extensions))
  else
    { s with
      config := { s.config with serverExtensions := extensions }
      readystate := .opened }.act .didOpen

/-- `socket:didReadData:withTag:` of the response to a handshake. -/
def didReadHandshake (response : Option NSString) (connected : Connect) (s : WebSocketSender) : WebSocketSender :=
  let (s, upgrades) := s.isUpgradeResponse response
  if upgrades = true then s.upgrade arc4random
  else if supportsAnotherSupportedVersion response = true then
    let versions := getServerVersions s.config.serverHeaders
    match if s.config.retryOtherVersion = true then otherVersion versions else none with
    | some version => { s with config := { s.config with version } }.openSocket connected
    | none => s.act (.didReceiveError "Unsupported Version")
  else s.act (.didReceiveError "Bad handshake")

/-- `socketDidDisconnect:withError:`. -/
def socketDidDisconnect (aError : Bool) (s : WebSocketSender) : WebSocketSender :=
  let closingError := aError && s.readystate != .closing && s.readystate != .closed
  let closeStatusCode :=
    if WebSocketVersion.version07 < s.config.version ∧ s.closeStatusCode = 0 then
      if closingError = true then WebSocketCloseStatus.abnormalButMissingStatus
      else WebSocketCloseStatus.normalButMissingStatus
    else s.closeStatusCode
  { s with readystate := .closed, closeStatusCode }.act (.didClose closeStatusCode s.closeMessage)

/-! ### One handshake behind the other -/

/-- A text that can be the value of a header. -/
def PlainValue (value : NSString) : Prop := trimmed value = value ∧ '\r' ∉ value

/-- What the headers of a request are made of can be read back from them. -/
structure PlainConfig (config : WebSocketConnectConfig) : Prop where
  headers : ∀ header ∈ config.headers, Plain header
  host : PlainValue config.host
  origin : PlainValue config.origin
  protocols : PlainValue (WebSocketExtension.joined ", " config.protocols)
  extensions : PlainValue (WebSocketExtension.getExtensionsAsString config.extensions)
  path : '\r' ∉ requestPath config

theorem trimmed_of_all {s : NSString} (h : ∀ c ∈ s, whitespace c = false) : trimmed s = s := by
  have hfront : ∀ t : NSString, (∀ c ∈ t, whitespace c = false) → t.dropWhile whitespace = t := by
    intro t ht
    cases t with
    | nil => rfl
    | cons c t => exact List.dropWhile_cons_of_neg (by simp [ht c List.mem_cons_self])
  rw [trimmed, hfront s h, hfront s.reverse fun c hc => h c (List.mem_reverse.mp hc), List.reverse_reverse]

/-- The code of few bytes is one line. -/
theorem plainValue_base64 {data : List Byte} (h : data.length ≤ 48) :
    PlainValue (NSData.base64EncodedString data) := by
  have halphabet : Base64.alphabet.all (fun c => !whitespace c && c != '\r') = true := by decide
  have hall : ∀ c ∈ NSData.base64EncodedString data, whitespace c = false ∧ c ≠ '\r' := by
    intro c hc
    have hone : (Base64.encode data).length ≤ 64 := by
      rw [Base64.length_encode]
      omega
    rw [NSData.base64EncodedString, NSData.newBase64Encode_eq, if_pos rfl, NSData.inLines, if_pos hone] at hc
    rcases Base64.mem_encode hc with hc | rfl
    · simpa using List.all_eq_true.mp halphabet c hc
    · decide
  exact ⟨trimmed_of_all fun c hc => (hall c hc).1, fun hmem => (hall _ hmem).2 rfl⟩

instance (value : NSString) : Decidable (PlainValue value) := inferInstanceAs (Decidable (_ ∧ _))

/-- A text that can be the key of a header. -/
def PlainKey (key : NSString) : Prop := trimmed key = key ∧ ':' ∉ key ∧ '\r' ∉ key

instance (key : NSString) : Decidable (PlainKey key) := inferInstanceAs (Decidable (_ ∧ _))

theorem plain_of_value {key value : NSString} (hkey : PlainKey key) (h : PlainValue value) :
    Plain ⟨value, key⟩ :=
  ⟨hkey.1, h.1, hkey.2.1, hkey.2.2, h.2⟩

theorem plainValue_number (n : Nat) : PlainValue (toString n).toList := by
  have hdigit : ∀ c ∈ (toString n).toList, 48 ≤ c.toNat ∧ c.toNat ≤ 57 := by
    intro c hc
    rw [Nat.toString_eq_repr, Nat.toList_repr] at hc
    have hc := Nat.isDigit_of_mem_toDigits (by norm_num) (by norm_num) hc
    rw [Char.isDigit, Bool.and_eq_true] at hc
    exact ⟨of_decide_eq_true hc.1, of_decide_eq_true hc.2⟩
  constructor
  · refine trimmed_of_all fun c hc => ?_
    obtain ⟨hge, hle⟩ := hdigit c hc
    simp only [whitespace, List.mem_cons, List.not_mem_nil, or_false, Bool.or_eq_false_iff,
      Bool.and_eq_false_iff, decide_eq_false_iff_not]
    omega
  · intro hmem
    exact absurd (hdigit _ hmem).1 (by decide)

/-- The headers that a handshake adds are plain. -/
theorem plain_addedHeaders {config : WebSocketConnectConfig} (h : PlainConfig config) {wsSecKey : NSString}
    (hkey : PlainValue wsSecKey) : ∀ header ∈ addedHeaders wsSecKey config, Plain header := by
  have hsec : Plain ⟨wsSecKey, "Sec-WebSocket-Key".toList⟩ := plain_of_value (by decide) hkey
  have hhost : Plain ⟨config.host, "Host".toList⟩ := plain_of_value (by decide) h.host
  have horigin : Plain ⟨config.origin, "Origin".toList⟩ := plain_of_value (by decide) h.origin
  have horigin' : Plain ⟨config.origin, "Sec-WebSocket-Origin".toList⟩ := plain_of_value (by decide) h.origin
  have hversion (n : Nat) : Plain ⟨(toString n).toList, "Sec-WebSocket-Version".toList⟩ :=
    plain_of_value (by decide) (plainValue_number n)
  have hprotocol : Plain ⟨WebSocketExtension.joined ", " config.protocols, "Sec-WebSocket-Protocol".toList⟩ :=
    plain_of_value (by decide) h.protocols
  have hextension : Plain ⟨WebSocketExtension.getExtensionsAsString config.extensions,
      "Sec-WebSocket-Extensions".toList⟩ := plain_of_value (by decide) h.extensions
  have hone {b : Prop} [Decidable b] {a : HandshakeHeader} (ha : Plain a) :
      ∀ header ∈ (if b then [a] else []), Plain header := by
    split
    · exact List.forall_mem_singleton.mpr ha
    · exact fun header hheader => absurd hheader List.not_mem_nil
  intro header hheader
  rw [addedHeaders] at hheader
  simp only [List.mem_append] at hheader
  rcases hheader with (((hfirst | hmem) | hmem) | hmem) | hmem
  · simp only [List.mem_cons, List.not_mem_nil, or_false] at hfirst
    rcases hfirst with rfl | rfl
    · exact hsec
    · exact hhost
  · split at hmem
    · split at hmem
      · rw [List.mem_singleton.mp hmem]
        exact horigin'
      · rw [List.mem_singleton.mp hmem]
        exact horigin
    · exact absurd hmem List.not_mem_nil
  · rw [List.mem_singleton.mp hmem]
    exact hversion _
  · exact hone hprotocol header hmem
  · exact hone hextension header hmem

/-- The headers behind those that are there, for handshakes at these times. -/
def allHeaders (times : List NSString) (config : WebSocketConnectConfig) : List HandshakeHeader :=
  config.headers ++ times.flatMap fun time => addedHeaders (secKey time) config

/-- What a handshake leaves: its headers, its key, and its request. -/
theorem sendHandshake_spec (time : NSString) (s : WebSocketSender) :
    let s' := s.sendHandshake getSHA1 time
    s'.config = { s.config with headers := allHeaders [time] s.config } ∧
      s'.wsSecKeyHandshake = accept getSHA1 (secKey time) ∧
      s'.actions = s.actions ++
        [.writeHandshake (buildStringFromHeaders (allHeaders [time] s.config) (requestPath s.config))] := by
  have hone : allHeaders [time] s.config = s.config.headers ++ addedHeaders (secKey time) s.config := by
    rw [allHeaders, List.flatMap_singleton]
  rw [hone]
  exact ⟨rfl, rfl, rfl⟩

def sendHandshakes (times : List NSString) (s : WebSocketSender) :
    WebSocketSender :=
  times.foldl (fun s time => s.sendHandshake getSHA1 time) s

/-- After handshakes the configuration has the headers of all of them. -/
theorem sendHandshakes_config (times : List NSString) (s : WebSocketSender) :
    (s.sendHandshakes getSHA1 times).config = { s.config with headers := allHeaders times s.config } := by
  induction times generalizing s with
  | nil => simp [sendHandshakes, allHeaders]
  | cons time times ih =>
    have hfirst := (sendHandshake_spec getSHA1 time s).1
    have hrest := ih (s.sendHandshake getSHA1 time)
    have hadded (k : NSString) (headers : List HandshakeHeader) :
        addedHeaders k { s.config with headers } = addedHeaders k s.config := rfl
    rw [hfirst] at hrest
    rw [sendHandshakes, List.foldl_cons, ← sendHandshakes, hrest]
    simp [allHeaders, hadded]

theorem requestPath_headers (config : WebSocketConnectConfig) (headers : List HandshakeHeader) :
    requestPath { config with headers } = requestPath config := rfl

/-- The last of several handshakes has its own key, and the headers of all. -/
theorem sendHandshakes_last (times : List NSString) (last : NSString) (s : WebSocketSender) :
    (s.sendHandshakes getSHA1 (times ++ [last])).wsSecKeyHandshake = accept getSHA1 (secKey last) ∧
      (s.sendHandshakes getSHA1 (times ++ [last])).actions.getLast? = some (.writeHandshake
        (buildStringFromHeaders (allHeaders (times ++ [last]) s.config) (requestPath s.config))) := by
  have hconfig := sendHandshakes_config getSHA1 times s
  obtain ⟨-, hkey, hactions⟩ := sendHandshake_spec getSHA1 last (s.sendHandshakes getSHA1 times)
  have hadded (k : NSString) (headers : List HandshakeHeader) :
      addedHeaders k { s.config with headers } = addedHeaders k s.config := rfl
  rw [sendHandshakes, List.foldl_append, List.foldl_cons, List.foldl_nil, ← sendHandshakes]
  refine ⟨hkey, ?_⟩
  rw [hactions, hconfig, requestPath_headers, List.getLast?_append_of_ne_nil _ (List.cons_ne_nil _ _)]
  simp [allHeaders, hadded]

/-- The keys in some headers, in their order. -/
def keysOf (aHeaders : List HandshakeHeader) : List NSString :=
  (headersForKey "Sec-WebSocket-Key".toList aHeaders).map HandshakeHeader.value

theorem keysOf_append (headers headers' : List HandshakeHeader) :
    keysOf (headers ++ headers') = keysOf headers ++ keysOf headers' := by
  rw [keysOf, headersForKey, List.filter_append, List.map_append]
  rfl

/-- A handshake adds one key. -/
theorem keysOf_addedHeaders (key : NSString) (config : WebSocketConnectConfig) :
    keysOf (addedHeaders key config) = [key] := by
  have hother {name : NSString} (hname : NSString.sameIgnoringCase name "Sec-WebSocket-Key".toList = false)
      (value : NSString) : keysOf [⟨value, name⟩] = [] := by
    have hmatch : keyMatchesCaseInsensitiveString "Sec-WebSocket-Key".toList ⟨value, name⟩ = false := hname
    rw [keysOf, headersForKey, List.filter_cons_of_neg (Bool.eq_false_iff.mp hmatch), List.filter_nil, List.map_nil]
  have hone {b : Prop} [Decidable b] {header : HandshakeHeader} (h : keysOf [header] = []) :
      keysOf (if b then [header] else []) = [] := by
    split
    · exact h
    · rfl
  have horigin : keysOf (if config.useOrigin = true then
      if config.version < WebSocketVersion.rfc6455 then [⟨config.origin, "Sec-WebSocket-Origin".toList⟩]
      else [⟨config.origin, "Origin".toList⟩]
      else []) = [] := by
    split
    · split
      · exact hother (by decide) _
      · exact hother (by decide) _
    · rfl
  rw [addedHeaders]
  simp only [keysOf_append]
  rw [horigin, hone (hother (by decide) _), hone (hother (by decide) _)]
  rfl

/-- The request of the last handshake carries the keys of all of them. -/
theorem keysOf_allHeaders (times : List NSString) (config : WebSocketConnectConfig) :
    keysOf (upgradeHeaders ++ allHeaders times config) = keysOf config.headers ++ times.map secKey := by
  have hupgrade : keysOf upgradeHeaders = [] := by decide
  have hadded : keysOf (times.flatMap fun time => addedHeaders (secKey time) config) = times.map secKey := by
    induction times with
    | nil => rfl
    | cons time times ih =>
      have hone := keysOf_addedHeaders (secKey time) config
      rw [List.flatMap_cons, keysOf_append, hone, ih, List.map_cons, List.singleton_append]
  rw [allHeaders, keysOf_append, hupgrade, List.nil_append, keysOf_append, hadded]

/-- A `101` response of these headers. `reason` is what stands behind the number. -/
def switchingProtocols (reason : NSString) (serverHeaders : List HandshakeHeader) : NSString :=
  withMarks '\r' '\n' (("HTTP/1.1 101".toList ++ reason) :: serverHeaders.map item) ++ ['\r', '\n']

/-- The headers of a response that answers `key`: those that the RFC asks for, among any
others. -/
structure Answers (key : NSString) (serverHeaders : List HandshakeHeader) : Prop where
  plain : ∀ header ∈ serverHeaders, Plain header
  upgrade : (valueForKey "Upgrade" serverHeaders).any (NSString.sameIgnoringCase "websocket".toList) = true
  connection : (valueForKey "Connection" serverHeaders).any (NSString.sameIgnoringCase "Upgrade".toList) = true
  accept : valueForKey "Sec-WebSocket-Accept" serverHeaders = some (accept getSHA1 key)

/-- An answer to a key is accepted if it is the one that was computed for the last
request. -/
theorem isUpgradeResponse_answer {key reason : NSString} {serverHeaders : List HandshakeHeader}
    (hanswers : Answers getSHA1 key serverHeaders) (hreason : ':' ∉ reason ∧ '\r' ∉ reason) (s : WebSocketSender) :
    (s.isUpgradeResponse (some (switchingProtocols reason serverHeaders))).2 = true ↔
      s.config.verifySecurityKey = false ∨ accept getSHA1 key = s.wsSecKeyHandshake := by
  have hfront : "HTTP/1.1 101".toList.isPrefixOf (switchingProtocols reason serverHeaders) = true := rfl
  have hfirst {c : Char} (hc : c ∉ "HTTP/1.1 101".toList) (hc' : c ∉ reason) : c ∉ "HTTP/1.1 101".toList ++ reason :=
    fun hmem => (List.mem_append.mp hmem).elim hc hc'
  have hheaders : buildHeadersFromString (switchingProtocols reason serverHeaders) = serverHeaders :=
    buildHeadersFromString_lines (hfirst (by decide) hreason.1) (hfirst (by decide) hreason.2) hanswers.plain
  rw [isUpgradeResponse]
  dsimp only
  rw [if_pos hfront, hheaders, acceptsHeaders, hanswers.upgrade, hanswers.connection, hanswers.accept]
  simp

def someTime : NSString := "400000000.000000".toList

def laterTime : NSString := "400000060.000000".toList

/-- The hashes for the keys of `someTime` and of `laterTime`. -/
def someHash (aPlainText : List Byte) : List Byte :=
  if aPlainText = NSString.utf8 (secKey laterTime ++ "258EAFA5-E914-47DA-95CA-C5AB0DC85B11".toList) then
    [0x0e, 0xfa, 0x6c, 0x70, 0xc6, 0x74, 0x4d, 0x41, 0x16, 0x4c, 0x7c, 0xdf, 0xef, 0xe2, 0xa1, 0x63, 0xe7, 0xde, 0x82, 0x65]
  else
    [0x06, 0xb4, 0x2b, 0xba, 0xb9, 0xe9, 0x11, 0xb5, 0x41, 0x4e, 0xd1, 0x5c, 0x41, 0xf3, 0x4b, 0x30, 0x29, 0x5a, 0x9b, 0x34]

/-- `ready`, with the security key to be verified. -/
def verifying : WebSocketSender := { ready with config := { ready.config with verifySecurityKey := true } }

/-- The headers of a response to the handshake at `someTime`. -/
def someAnswer : List HandshakeHeader :=
  [⟨"websocket".toList, "Upgrade".toList⟩, ⟨"Upgrade".toList, "Connection".toList⟩,
    ⟨"BrQrurnpEbVBTtFcQfNLMClamzQ=".toList, "Sec-WebSocket-Accept".toList⟩]

end WebSocketSender

end Sogx
