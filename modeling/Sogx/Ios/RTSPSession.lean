import Sogx.Ios.RTSPClientConnection
import Sogx.Ios.RTSPMessage
import Sogx.Lib.Machine

/-!
`RTSPClientConnection.mm`: the requests of one client, and the session that they
open and close.

* `onSocketData_change`: what one callback can change.
* `step_consistent_iff`: a step leaves a consistent session behind if and only if
  it does not tear down a session in use, and gets the sockets that it asks for.
* `run_sessionConsistent`: such steps keep the session consistent.
-/

namespace Sogx

open Sogx.Lib

/-- One connection. `s` and `recvRTCP` say that these sockets are there; the other
fields are those of `conn`. -/
structure RTSPSession (Pts : Type) where
  conn : RTSPClientConnection Pts
  s : Bool
  recvRTCP : Bool

/-- What a request finds around it: the date, the address, the SDP for a version
number, the random numbers it draws, and whether a socket can be had. -/
structure Host where
  date : String
  localaddr : String
  makeSDP : BitVec 64 → String
  random1 : BitVec 64
  random2 : BitVec 64
  rtpSocket : Bool
  rtcpSocket : Bool
  recvSocket : Bool

/-- A response, with its code, and the value of its `Session` header where it has
one. -/
structure RTSPResponse where
  code : Nat
  session : Option (Option String)
  text : String
deriving DecidableEq, Repr

inductive RTSPMethod where
  | options | describe | setup | play | teardown | unknown
deriving DecidableEq, Repr

namespace RTSPMessage

/-- The comparisons of `onSocketData:`, in its order. -/
def method (msg : RTSPMessage) : RTSPMethod :=
  if NSString.sameIgnoringCase msg.request "options".toList = true then .options
  else if NSString.sameIgnoringCase msg.request "describe".toList = true then .describe
  else if NSString.sameIgnoringCase msg.request "setup".toList = true then .setup
  else if NSString.sameIgnoringCase msg.request "play".toList = true then .play
  else if NSString.sameIgnoringCase msg.request "teardown".toList = true then .teardown
  else .unknown

/-- The test of one transport property: `compare:` is not 0 when the texts differ. -/
def takesPorts (s : NSString) : Bool :=
  14 < NSString.length s && s.take 12 ≠ "client-port=".toList

/-- The ports that `SETUP` reads, if it finds two. -/
def ports (msg : RTSPMessage) : Option (Int × Int) := do
  let transport ← valueForOption "transport".toList msg.lines
  let s ← (transport.splitOn ';').find? takesPorts
  match (NSString.substringFromIndex 12 s).splitOn '-' with
  | [portRTP, portRTCP] =>
    some ((BitVec.ofInt 32 (NSString.integerValue portRTP)).toInt,
      (BitVec.ofInt 32 (NSString.integerValue portRTCP)).toInt)
  | _ => none

end RTSPMessage

namespace RTSPSession

variable {Pts : Type}

/-- `initWithSocket:Server:`; `zero` is a time of which nothing is read. -/
def initWithSocket (zero : Pts) : RTSPSession Pts where
  conn := {
    sRTP := none
    sRTCP := none
    session := none
    state := .serverIdle
    packets := 0
    bytesSent := 0
    ssrc := 0
    bFirst := false
    ntpBase := 0
    rtpBase := 0
    ptsBase := zero
    packetsReported := 0
    bytesReported := 0
    sentRTCP := none }
  s := true
  recvRTCP := false

/-- A socket for datagrams to a port, when it can be had. -/
def socketTo (created : Bool) (port : Int) : Option Nat :=
  if created = true then some (BitVec.ofInt 16 port).toNat else none

/-- `createSession:rtcp:`, which does not look at whether it got its sockets. -/
def createSession (host : Host) (portRTP portRTCP : Int) (s : RTSPSession Pts) :
    RTSPSession Pts × Option String :=
  let session := some (toString host.random1.toInt)
  ({ s with
    conn := { s.conn with
      sRTP := socketTo host.rtpSocket portRTP
      sRTCP := socketTo host.rtcpSocket portRTCP
      session
      state := .setup
      ssrc := host.random2
      packets := 0
      bytesSent := 0
      rtpBase := 0
      sentRTCP := none
      packetsReported := 0
      bytesReported := 0 }
    recvRTCP := host.recvSocket }, session)

def tearDown (s : RTSPSession Pts) : RTSPSession Pts :=
  { s with
    conn := { s.conn with sRTP := none, sRTCP := none, session := none }
    recvRTCP := false }

def shutdown (s : RTSPSession Pts) : RTSPSession Pts := { s.tearDown with s := false }

/-- What `%@` writes. -/
def description (session : Option String) : String := session.getD "(null)"

/-- `onSocketData:` from the message on. -/
def respond (host : Host) (msg : RTSPMessage) (s : RTSPSession Pts) : RTSPSession Pts × RTSPResponse :=
  match msg.method with
  | .options =>
    (s, ⟨200, none, msg.createResponse 200 "OK" ++ "Server: Paycasso Verify/1.0\r\n" ++
      "Public: DESCRIBE, SETUP, TEARDOWN, PLAY, OPTIONS\r\n\r\n"⟩)
  | .describe =>
    let sdp := host.makeSDP host.random1
    (s, ⟨200, none, msg.createResponse 200 "OK" ++
      "Content-base: rtsp://" ++ host.localaddr ++ "/\r\n" ++
      "Date: " ++ host.date ++ "\r\nContent-Type: application/sdp\r\nContent-Length: " ++
      toString (NSString.length sdp.toList) ++ "\r\n\r\n" ++ sdp⟩)
  | .setup =>
    match msg.ports with
    | some (portRTP, portRTCP) =>
      let (s, session_name) := s.createSession host portRTP portRTCP
      if session_name ≠ none then
        (s, ⟨200, some session_name, msg.createResponse 200 "OK" ++
          "Session: " ++ description session_name ++
          "\r\nTransport: RTP/AVP;unicast;client_port=" ++ toString portRTP ++ "-" ++
          toString portRTCP ++ ";server_port=6970-6971\r\n\r\n"⟩)
      else (s, ⟨451, none, msg.createResponse 451 "Need better error string here"⟩)
    | none => (s, ⟨451, none, msg.createResponse 451 "Need better error string here"⟩)
  | .play =>
    if s.conn.state ≠ .setup then (s, ⟨451, none, msg.createResponse 451 "Wrong state"⟩)
    else
      ({ s with conn := { s.conn with state := .playing, bFirst := true } },
        ⟨200, some s.conn.session, msg.createResponse 200 "OK" ++
          "Session: " ++ description s.conn.session ++ "\r\n\r\n"⟩)
  | .teardown => (s.tearDown, ⟨200, none, msg.createResponse 200 "OK"⟩)
  | .unknown => (s, ⟨451, none, msg.createResponse 451 "Method not recognised"⟩)

def onSocketData (host : Host) (data : List Byte) (s : RTSPSession Pts) :
    RTSPSession Pts × Option RTSPResponse :=
  if data.length = 0 then ({ s.tearDown with s := false }, none)
  else
    match RTSPMessage.createWithData data with
    | some msg =>
      let answered := s.respond host msg
      (answered.1, some answered.2)
    | none => (s, none)

/-- The data of a text. -/
theorem onSocketData_utf8 {text : NSString} {msg : RTSPMessage} (hne : text ≠ [])
    (hmsg : RTSPMessage.ofText text = some msg) (host : Host) (s : RTSPSession Pts) :
    s.onSocketData host (NSString.utf8 text) =
      ((s.respond host msg).1, some (s.respond host msg).2) := by
  have hlength : ¬ (NSString.utf8 text).length = 0 :=
    fun h => NSString.utf8_ne_nil hne (List.length_eq_zero_iff.mp h)
  rw [onSocketData, if_neg hlength, RTSPMessage.createWithData_utf8, hmsg]

/-- A text that is no message is not answered. -/
theorem onSocketData_utf8_none {text : NSString} (hne : text ≠ [])
    (hmsg : RTSPMessage.ofText text = none) (host : Host) (s : RTSPSession Pts) :
    s.onSocketData host (NSString.utf8 text) = (s, none) := by
  have hlength : ¬ (NSString.utf8 text).length = 0 :=
    fun h => NSString.utf8_ne_nil hne (List.length_eq_zero_iff.mp h)
  rw [onSocketData, if_neg hlength, RTSPMessage.createWithData_utf8, hmsg]

/-! ### What a request does -/

/-- `onSocketData:` by its cases. -/
inductive Change (host : Host) (data : List Byte) (s : RTSPSession Pts) :
    RTSPSession Pts → Option RTSPResponse → Prop where
  | disconnect : data = [] → Change host data s { s.tearDown with s := false } none
  | ignored : data ≠ [] → RTSPMessage.createWithData data = none → Change host data s s none
  | inert {msg : RTSPMessage} {response : RTSPResponse} : data ≠ [] →
      RTSPMessage.createWithData data = some msg → msg.method ≠ .teardown →
      (msg.method = .setup → msg.ports = none) →
      (msg.method = .play → s.conn.state ≠ .setup ∧ response.code = 451) →
      response.session = none → Change host data s s (some response)
  | setup {msg : RTSPMessage} {portRTP portRTCP : Int} (text : String) : data ≠ [] →
      RTSPMessage.createWithData data = some msg → msg.method = .setup →
      msg.ports = some (portRTP, portRTCP) →
      Change host data s (s.createSession host portRTP portRTCP).1
        (some ⟨200, some (some (toString host.random1.toInt)), text⟩)
  | play {msg : RTSPMessage} (text : String) : data ≠ [] →
      RTSPMessage.createWithData data = some msg → msg.method = .play → s.conn.state = .setup →
      Change host data s { s with conn := { s.conn with state := .playing, bFirst := true } }
        (some ⟨200, some s.conn.session, text⟩)
  | teardown {msg : RTSPMessage} (text : String) : data ≠ [] →
      RTSPMessage.createWithData data = some msg → msg.method = .teardown →
      Change host data s s.tearDown (some ⟨200, none, text⟩)

/-- What data on the socket can do, and how it is answered. -/
theorem onSocketData_change (host : Host) (data : List Byte) (s : RTSPSession Pts) :
    Change host data s (s.onSocketData host data).1 (s.onSocketData host data).2 := by
  by_cases hdata : data = []
  · subst hdata
    exact .disconnect rfl
  · have hlength : ¬ data.length = 0 := fun h => hdata (List.length_eq_zero_iff.mp h)
    unfold onSocketData
    rw [if_neg hlength]
    cases hmsg : RTSPMessage.createWithData data with
    | none => exact .ignored hdata hmsg
    | some msg =>
      dsimp only
      unfold respond
      cases hmethod : msg.method with
      | options =>
        exact .inert hdata hmsg (by rw [hmethod]; nofun) (by rw [hmethod]; nofun)
          (by rw [hmethod]; nofun) rfl
      | describe =>
        exact .inert hdata hmsg (by rw [hmethod]; nofun) (by rw [hmethod]; nofun)
          (by rw [hmethod]; nofun) rfl
      | setup =>
        cases hports : msg.ports with
        | none =>
          exact .inert hdata hmsg (by rw [hmethod]; nofun) (fun _ => hports)
            (by rw [hmethod]; nofun) rfl
        | some ports => exact .setup _ hdata hmsg hmethod hports
      | play =>
        by_cases hstate : s.conn.state = .setup
        · dsimp only
          rw [if_neg (not_not.mpr hstate)]
          exact .play _ hdata hmsg hmethod hstate
        · dsimp only
          rw [if_pos hstate]
          exact .inert hdata hmsg (by rw [hmethod]; nofun) (by rw [hmethod]; nofun)
            (fun _ => ⟨hstate, rfl⟩) rfl
      | teardown => exact .teardown _ hdata hmsg hmethod
      | unknown =>
        exact .inert hdata hmsg (by rw [hmethod]; nofun) (by rw [hmethod]; nofun)
          (by rw [hmethod]; nofun) rfl

/-! ### Runs -/

/-- What may happen next: data or a disconnect, a frame, and the server's shutdown. -/
inductive Event (Pts : Type) where
  | onSocketData (host : Host) (data : List Byte)
  | onVideoData (env : Env Pts) (pts : Pts) (data : List NALU)
  | shutdown

/-- Once its socket is invalidated a connection gets no data, and its server has
dropped it. -/
def step : Event Pts → RTSPSession Pts → Option (RTSPSession Pts)
  | .onSocketData host data, s => if s.s = true then some (s.onSocketData host data).1 else none
  | .onVideoData env pts data, s =>
    if s.s = true then
      (RTSPClientConnection.onVideoData env pts data s.conn).map fun r => { s with conn := r.1 }
    else none
  | .shutdown, s => if s.s = true then some s.shutdown else none

/-- In use only with a session and both sockets. -/
structure Consistent (conn : RTSPClientConnection Pts) : Prop where
  session : conn.state ≠ .serverIdle → conn.session ≠ none
  sRTP : conn.state ≠ .serverIdle → conn.sRTP ≠ none
  sRTCP : conn.state ≠ .serverIdle → conn.sRTCP ≠ none

/-- Data that are a `TEARDOWN`, or a disconnect. -/
def TearsDown (data : List Byte) : Prop :=
  data = [] ∨ ∃ msg, RTSPMessage.createWithData data = some msg ∧ msg.method = .teardown

/-- Data that are a `SETUP` with two ports. -/
def SetsUp (data : List Byte) : Prop :=
  data ≠ [] ∧ ∃ msg, RTSPMessage.createWithData data = some msg ∧ msg.method = .setup ∧
    msg.ports ≠ none

/-- A session in use is not torn down, and a `SETUP` gets its two sockets. -/
def KeepsSession (s : RTSPSession Pts) : Event Pts → Prop
  | .onSocketData host data =>
    (TearsDown data → s.conn.state = .serverIdle) ∧
      (SetsUp data → host.rtpSocket = true ∧ host.rtcpSocket = true)
  | .onVideoData _ _ _ => True
  | .shutdown => s.conn.state = .serverIdle

def Event.Closes : Event Pts → Prop
  | .onSocketData _ data => TearsDown data
  | .onVideoData _ _ _ => False
  | .shutdown => True

def Event.Opens : Event Pts → Prop
  | .onSocketData _ data => SetsUp data
  | .onVideoData _ _ _ => False
  | .shutdown => False

/-- The session was closed, and none was opened since. -/
def Closed (es : List (Event Pts)) : Prop :=
  ∃ before e after, es = before ++ e :: after ∧ e.Closes ∧ ∀ e' ∈ after, ¬ e'.Opens

/-- The session is consistent, and so are the answers: while it is closed, `PLAY`
is refused and no packet is built, and no session that is not there is named. -/
structure SessionConsistent (es : List (Event Pts)) (s : RTSPSession Pts) : Prop where
  consistent : Consistent s.conn
  play : Closed es → ∀ host data msg, data ≠ [] → RTSPMessage.createWithData data = some msg →
    msg.method = .play →
    ∃ response, s.onSocketData host data = (s, some response) ∧ response.code = 451
  named : ∀ host data response, (s.onSocketData host data).2 = some response →
    response.code = 200 → response.session ≠ some none
  video : Closed es → ∀ env pts data, s.conn.onVideoData env pts data = some (s.conn, [])

theorem consistent_of_idle {conn : RTSPClientConnection Pts} (h : conn.state = .serverIdle) :
    Consistent conn :=
  ⟨fun hne => absurd h hne, fun hne => absurd h hne, fun hne => absurd h hne⟩

/-- Without a session the server is idle. -/
theorem Consistent.idle {conn : RTSPClientConnection Pts} (h : Consistent conn)
    (hnone : conn.session = none) : conn.state = .serverIdle := by
  by_contra hne
  exact h.session hne hnone

/-- What is torn down is consistent only when it was not in use. -/
theorem consistent_tearDown_iff {s : RTSPSession Pts} :
    Consistent s.tearDown.conn ↔ s.conn.state = .serverIdle := by
  constructor
  · intro h
    exact h.idle rfl
  · intro h
    exact consistent_of_idle h

theorem socketTo_ne_none {created : Bool} {port : Int} :
    socketTo created port ≠ none ↔ created = true := by
  cases created with
  | false => simp [socketTo]
  | true => simp [socketTo]

/-- A new session is consistent if and only if both sockets are there. -/
theorem consistent_createSession_iff {host : Host} {portRTP portRTCP : Int}
    {s : RTSPSession Pts} :
    Consistent (s.createSession host portRTP portRTCP).1.conn ↔
      host.rtpSocket = true ∧ host.rtcpSocket = true := by
  have hstate : (s.createSession host portRTP portRTCP).1.conn.state ≠ .serverIdle := nofun
  constructor
  · intro h
    exact ⟨socketTo_ne_none.mp (h.sRTP hstate), socketTo_ne_none.mp (h.sRTCP hstate)⟩
  · rintro ⟨hrtp, hrtcp⟩
    exact ⟨fun _ => Option.some_ne_none _, fun _ => socketTo_ne_none.mpr hrtp,
      fun _ => socketTo_ne_none.mpr hrtcp⟩

theorem Consistent.congr {conn conn' : RTSPClientConnection Pts} (h : Consistent conn)
    (hsame : RTSPClientConnection.SameSession conn conn') : Consistent conn' := by
  refine ⟨?_, ?_, ?_⟩
  · rw [hsame.state, hsame.session]
    exact h.session
  · rw [hsame.state, hsame.sRTP]
    exact h.sRTP
  · rw [hsame.state, hsame.sRTCP]
    exact h.sRTCP

/-! ### What data are -/

/-- A message tears down if it is a TEARDOWN. -/
theorem tearsDown_iff {data : List Byte} {msg : RTSPMessage} (hdata : data ≠ [])
    (hmsg : RTSPMessage.createWithData data = some msg) :
    TearsDown data ↔ msg.method = .teardown := by
  constructor
  · rintro (hnil | ⟨msg', hmsg', hmethod⟩)
    · exact absurd hnil hdata
    · obtain rfl := Option.some.inj (hmsg.symm.trans hmsg')
      exact hmethod
  · intro hmethod
    exact .inr ⟨msg, hmsg, hmethod⟩

/-- A message sets up if it is a SETUP with ports. -/
theorem setsUp_iff {data : List Byte} {msg : RTSPMessage} (hdata : data ≠ [])
    (hmsg : RTSPMessage.createWithData data = some msg) :
    SetsUp data ↔ msg.method = .setup ∧ msg.ports ≠ none := by
  constructor
  · rintro ⟨-, msg', hmsg', hsetup⟩
    obtain rfl := Option.some.inj (hmsg.symm.trans hmsg')
    exact hsetup
  · intro hsetup
    exact ⟨hdata, msg, hmsg, hsetup⟩

theorem not_setsUp_nil : ¬ SetsUp [] := fun h => h.1 rfl

theorem tearsDown_nil : TearsDown [] := .inl rfl

theorem not_tearsDown_of_none {data : List Byte} (hdata : data ≠ [])
    (hmsg : RTSPMessage.createWithData data = none) : ¬ TearsDown data := by
  rintro (hnil | ⟨msg, hmsg', -⟩)
  · exact hdata hnil
  · rw [hmsg] at hmsg'
    cases hmsg'

theorem not_setsUp_of_none {data : List Byte} (hmsg : RTSPMessage.createWithData data = none) :
    ¬ SetsUp data := by
  rintro ⟨-, msg, hmsg', -⟩
  rw [hmsg] at hmsg'
  cases hmsg'

/-! ### One step -/

theorem step_onVideoData {env : Env Pts} {pts : Pts} {data : List NALU} {s s' : RTSPSession Pts}
    (h : step (.onVideoData env pts data) s = some s') :
    RTSPClientConnection.SameSession s.conn s'.conn := by
  obtain ⟨-, h⟩ := Option.ite_none_right_eq_some.mp h
  obtain ⟨r, hr, rfl⟩ := Option.map_eq_some_iff.mp h
  exact RTSPClientConnection.sameSession_onVideoData hr

/-- A step on data is one of the changes. -/
theorem step_onSocketData {host : Host} {data : List Byte} {s s' : RTSPSession Pts}
    (h : step (.onSocketData host data) s = some s') : ∃ response, Change host data s s' response := by
  obtain ⟨-, h⟩ := Option.ite_none_right_eq_some.mp h
  cases h
  exact ⟨_, onSocketData_change host data s⟩

theorem step_shutdown {s s' : RTSPSession Pts} (h : step .shutdown s = some s') :
    s' = s.shutdown := by
  obtain ⟨-, h⟩ := Option.ite_none_right_eq_some.mp h
  exact (Option.some.inj h).symm

/-- Exactly these steps keep the session consistent. -/
theorem step_consistent_iff {s s' : RTSPSession Pts} {e : Event Pts} (h : Consistent s.conn)
    (hstep : step e s = some s') : Consistent s'.conn ↔ KeepsSession s e := by
  cases e with
  | onVideoData env pts data =>
    have hs' := h.congr (step_onVideoData hstep)
    exact ⟨fun _ => trivial, fun _ => hs'⟩
  | shutdown =>
    rw [step_shutdown hstep]
    exact consistent_tearDown_iff (s := s)
  | onSocketData host data =>
    obtain ⟨response, hchange⟩ := step_onSocketData hstep
    rw [KeepsSession]
    cases hchange with
    | disconnect hdata =>
      subst hdata
      have htorn := consistent_tearDown_iff (s := s)
      constructor
      · intro hs'
        exact ⟨fun _ => htorn.mp hs', fun hup => absurd hup not_setsUp_nil⟩
      · rintro ⟨hidle, -⟩
        exact htorn.mpr (hidle tearsDown_nil)
    | ignored hdata hmsg =>
      constructor
      · intro _
        exact ⟨fun hdown => absurd hdown (not_tearsDown_of_none hdata hmsg),
          fun hup => absurd hup (not_setsUp_of_none hmsg)⟩
      · intro _
        exact h
    | inert hdata hmsg hteardown hports _ _ =>
      rw [tearsDown_iff hdata hmsg, setsUp_iff hdata hmsg]
      constructor
      · intro _
        exact ⟨fun hdown => absurd hdown hteardown, fun hup => absurd (hports hup.1) hup.2⟩
      · intro _
        exact h
    | setup text hdata hmsg hmethod hports =>
      rw [tearsDown_iff hdata hmsg, setsUp_iff hdata hmsg, consistent_createSession_iff]
      constructor
      · intro hsockets
        refine ⟨?_, fun _ => hsockets⟩
        intro hdown
        rw [hmethod] at hdown
        cases hdown
      · rintro ⟨-, hsockets⟩
        exact hsockets ⟨hmethod, by rw [hports]; exact Option.some_ne_none _⟩
    | play text hdata hmsg hmethod hstate =>
      rw [tearsDown_iff hdata hmsg, setsUp_iff hdata hmsg, hmethod]
      have hused : s.conn.state ≠ .serverIdle := by
        rw [hstate]
        nofun
      constructor
      · intro _
        exact ⟨nofun, fun hup => nomatch hup.1⟩
      · intro _
        exact ⟨fun _ => h.session hused, fun _ => h.sRTP hused, fun _ => h.sRTCP hused⟩
    | teardown text hdata hmsg hmethod =>
      rw [tearsDown_iff hdata hmsg, setsUp_iff hdata hmsg, hmethod, consistent_tearDown_iff]
      constructor
      · intro hidle
        exact ⟨fun _ => hidle, fun hup => nomatch hup.1⟩
      · rintro ⟨hidle, -⟩
        exact hidle rfl

/-- Without a `SETUP` a session that is closed stays closed. -/
theorem step_session_none {s s' : RTSPSession Pts} {e : Event Pts} (hnone : s.conn.session = none)
    (hopens : ¬ e.Opens) (hstep : step e s = some s') : s'.conn.session = none := by
  cases e with
  | onVideoData env pts data => exact (step_onVideoData hstep).session.trans hnone
  | shutdown =>
    rw [step_shutdown hstep]
    rfl
  | onSocketData host data =>
    obtain ⟨response, hchange⟩ := step_onSocketData hstep
    cases hchange with
    | disconnect _ => rfl
    | ignored _ _ => exact hnone
    | inert _ _ _ _ _ _ => exact hnone
    | setup text hdata hmsg hmethod hports =>
      have hup : SetsUp data :=
        (setsUp_iff hdata hmsg).mpr ⟨hmethod, by rw [hports]; exact Option.some_ne_none _⟩
      exact absurd hup hopens
    | play _ _ _ _ _ => exact hnone
    | teardown _ _ _ _ => rfl

/-- An event that closes leaves no session. -/
theorem step_closes {s s' : RTSPSession Pts} {e : Event Pts} (hcloses : e.Closes)
    (hstep : step e s = some s') : s'.conn.session = none := by
  cases e with
  | onVideoData env pts data => exact hcloses.elim
  | shutdown =>
    rw [step_shutdown hstep]
    rfl
  | onSocketData host data =>
    have hdown : TearsDown data := hcloses
    obtain ⟨response, hchange⟩ := step_onSocketData hstep
    cases hchange with
    | disconnect _ => rfl
    | ignored hdata hmsg => exact absurd hdown (not_tearsDown_of_none hdata hmsg)
    | inert hdata hmsg hteardown _ _ _ =>
      exact absurd ((tearsDown_iff hdata hmsg).mp hdown) hteardown
    | setup text hdata hmsg hmethod hports =>
      rw [tearsDown_iff hdata hmsg, hmethod] at hdown
      cases hdown
    | play text hdata hmsg hmethod hstate =>
      rw [tearsDown_iff hdata hmsg, hmethod] at hdown
      cases hdown
    | teardown _ _ _ _ => rfl

/-! ### The answers -/

/-- PLAY without a session is refused with 451, and nothing changes. -/
theorem onSocketData_play_idle {host : Host} {data : List Byte} {msg : RTSPMessage}
    {s : RTSPSession Pts} (hidle : s.conn.state = .serverIdle) (hdata : data ≠ [])
    (hmsg : RTSPMessage.createWithData data = some msg) (hmethod : msg.method = .play) :
    ∃ response, s.onSocketData host data = (s, some response) ∧ response.code = 451 := by
  have hlength : ¬ data.length = 0 := fun h => hdata (List.length_eq_zero_iff.mp h)
  have hstate : s.conn.state ≠ .setup := by
    rw [hidle]
    nofun
  unfold onSocketData
  rw [if_neg hlength, hmsg]
  dsimp only
  unfold respond
  rw [hmethod]
  dsimp only
  rw [if_pos hstate]
  exact ⟨_, rfl, rfl⟩

/-- Only `SETUP` and `PLAY` name a session, and both have one. -/
theorem named_of_consistent {host : Host} {data : List Byte} {response : RTSPResponse}
    {s : RTSPSession Pts} (h : Consistent s.conn)
    (hresponse : (s.onSocketData host data).2 = some response) : response.session ≠ some none := by
  have hchange := onSocketData_change host data s
  rw [hresponse] at hchange
  generalize (s.onSocketData host data).1 = s' at hchange
  cases hchange with
  | inert _ _ _ _ _ hsession =>
    rw [hsession]
    nofun
  | setup _ _ _ _ _ => nofun
  | play text hdata hmsg hmethod hstate =>
    have hused : s.conn.state ≠ .serverIdle := by
      rw [hstate]
      nofun
    intro hnone
    exact h.session hused (Option.some.inj hnone)
  | teardown _ _ _ _ => nofun

/-! ### Runs that keep the session -/

/-- Without an event that opens there is no session later. -/
theorem run_session_none {ok : RTSPSession Pts → Event Pts → Prop} {s t : RTSPSession Pts}
    {es : List (Event Pts)} (h : Run step ok s es t) (hnone : s.conn.session = none)
    (hopens : ∀ e ∈ es, ¬ e.Opens) : t.conn.session = none := by
  induction h with
  | nil s => exact hnone
  | cons hok hstep hrest ih =>
    obtain ⟨hfirst, hothers⟩ := List.forall_mem_cons.mp hopens
    exact ih (step_session_none hnone hfirst hstep) hothers

/-- Whatever happened before, a closed session has no name. -/
theorem run_closed {ok : RTSPSession Pts → Event Pts → Prop} {s t : RTSPSession Pts}
    {es : List (Event Pts)} (h : Run step ok s es t) (hclosed : Closed es) :
    t.conn.session = none := by
  obtain ⟨before, e, after, rfl, hcloses, hopens⟩ := hclosed
  obtain ⟨m, -, hrest⟩ := Run.append_iff.mp h
  cases hrest with
  | cons hok hstep hafter => exact run_session_none hafter (step_closes hcloses hstep) hopens

/-- In every run whose steps do not tear down a session in use, and get the
sockets they ask for. -/
theorem run_sessionConsistent {zero : Pts} {es : List (Event Pts)} {s : RTSPSession Pts}
    (h : Run step KeepsSession (initWithSocket zero) es s) : SessionConsistent es s := by
  have hkeep : ∀ (s : RTSPSession Pts) (e : Event Pts) (s' : RTSPSession Pts),
      Consistent s.conn → KeepsSession s e → step e s = some s' → Consistent s'.conn :=
    fun s e s' hs hok hstep => (step_consistent_iff hs hstep).mpr hok
  have hconsistent : Consistent s.conn := h.invariant hkeep (consistent_of_idle rfl)
  have hidle : Closed es → s.conn.state = .serverIdle :=
    fun hclosed => hconsistent.idle (run_closed h hclosed)
  refine ⟨hconsistent, ?_, ?_, ?_⟩
  · intro hclosed host data msg hdata hmsg hmethod
    exact onSocketData_play_idle (hidle hclosed) hdata hmsg hmethod
  · intro host data response hresponse hcode
    exact named_of_consistent hconsistent hresponse
  · intro hclosed env pts data
    have hnot : s.conn.state ≠ .playing := by
      rw [hidle hclosed]
      nofun
    exact if_pos hnot

def phone : Host where
  date := "21 February 2013 10:00:00"
  localaddr := "192.168.0.2"
  makeSDP := fun verid => "v=0\r\no=- " ++ toString verid.toInt ++ "\r\n"
  random1 := 7
  random2 := 11
  rtpSocket := true
  rtcpSocket := true
  recvSocket := true

def setupText : NSString := ("SETUP rtsp://192.168.0.2/ RTSP/1.0\r\nCSeq: 1\r\n" ++
  "Transport: RTP/AVP;unicast;client_port=5000-5001\r\n\r\n").toList

def playText : NSString := "PLAY rtsp://192.168.0.2/ RTSP/1.0\r\nCSeq: 2\r\n\r\n".toList

def teardownText : NSString := "TEARDOWN rtsp://192.168.0.2/ RTSP/1.0\r\nCSeq: 3\r\n\r\n".toList

theorem step_text {text : NSString} {msg : RTSPMessage} {s : RTSPSession Pts} (hopen : s.s = true)
    (hne : text ≠ []) (hmsg : RTSPMessage.ofText text = some msg) (host : Host) :
    step (.onSocketData host (NSString.utf8 text)) s = some (s.respond host msg).1 := by
  rw [step, if_pos hopen, onSocketData_utf8 hne hmsg]

theorem keeps_text {text : NSString} {msg : RTSPMessage} {s : RTSPSession Pts} (hne : text ≠ [])
    (hmsg : RTSPMessage.ofText text = some msg) (hmethod : msg.method ≠ .teardown) :
    KeepsSession s (.onSocketData phone (NSString.utf8 text)) := by
  have hdata := NSString.utf8_ne_nil hne
  have hmessage := (RTSPMessage.createWithData_utf8 text).trans hmsg
  refine ⟨?_, fun _ => ⟨rfl, rfl⟩⟩
  rw [tearsDown_iff hdata hmessage]
  exact fun hdown => absurd hdown hmethod

theorem run_sessionConsistent_of_played : ∃ s : RTSPSession Int,
    Run step KeepsSession (initWithSocket 0)
      [.onSocketData phone (NSString.utf8 setupText), .onSocketData phone (NSString.utf8 playText)]
      s ∧ s.conn.state = .playing ∧
    SessionConsistent
      [.onSocketData phone (NSString.utf8 setupText), .onSocketData phone (NSString.utf8 playText)]
      s := by
  have hrun : Run step KeepsSession (initWithSocket (0 : Int))
      [.onSocketData phone (NSString.utf8 setupText), .onSocketData phone (NSString.utf8 playText)]
      _ :=
    .cons (keeps_text (by decide) rfl (by decide)) (step_text rfl (by decide) rfl phone)
      (.cons (keeps_text (by decide) rfl (by decide)) (step_text rfl (by decide) rfl phone)
        (.nil _))
  exact ⟨_, hrun, rfl, run_sessionConsistent hrun⟩

/-- A session is set up and torn down, and the state is still that of one in use. -/
theorem torn_down_is_inconsistent : ∃ (es : List (Event Int)) (s : RTSPSession Int),
    Run step Unrestricted (initWithSocket 0) es s ∧ ¬ SessionConsistent es s := by
  refine ⟨[.onSocketData phone (NSString.utf8 setupText),
    .onSocketData phone (NSString.utf8 teardownText)], _,
    .cons trivial (step_text rfl (by decide) rfl phone)
      (.cons trivial (step_text rfl (by decide) rfl phone) (.nil _)), ?_⟩
  intro h
  exact h.consistent.session (by decide) rfl

end RTSPSession

end Sogx
