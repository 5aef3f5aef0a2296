import Sogx.Ios.WebSocketFragment
import Sogx.Ios.HandshakeHeader

/-!
`WebSocket.m`: sending and closing.

`WebSocketSender` is the part of a socket that these work on. What it has told its
socket and its delegate stands in `actions`, in that order. `arc4random` are the
random numbers that masks are made of.

* `sendMessage_sends`: a message is written as the masked frames of that message.
* `sends_arrive`: what the other side reads are the messages that were sent, in
  order.
-/

namespace Sogx

open Sogx.Lib Sogx.Lib.Rfc6455

inductive WebSocketReadyState where
  | connecting | opened | closing | closed
deriving DecidableEq, Repr

namespace WebSocketVersion

def version07 : Nat := 7
def version10 : Nat := 10
def rfc6455 : Nat := 6455

end WebSocketVersion

namespace WebSocketCloseStatus

def normal : Nat := 1000
def protocolError : Nat := 1002
def normalButMissingStatus : Nat := 1005
def abnormalButMissingStatus : Nat := 1006
def invalidData : Nat := 1007
def missingExtensions : Nat := 1010

end WebSocketCloseStatus

/-- An extension, or a list of extensions in their order. -/
inductive WebSocketExtension where
  | single (extension : NSString)
  | ordered (extensions : List NSString)
deriving DecidableEq, Repr

/-- The configuration of a socket. `path` and `query` are those of its URL, and
`closeTimeout` is in seconds. -/
structure WebSocketConnectConfig where
  path : Option NSString
  query : Option NSString
  host : NSString
  useOrigin : Bool
  origin : NSString
  protocols : List NSString
  headers : List HandshakeHeader
  version : Nat
  maxPayloadSize : Nat
  closeTimeout : Int
  activeExtensionModifiesReservedBits : Bool
  retryOtherVersion : Bool
  verifySecurityKey : Bool
  extensions : List WebSocketExtension
  serverHeaders : List HandshakeHeader
  serverProtocol : Option NSString
  serverExtensions : List NSString
deriving DecidableEq, Repr

/-- What the socket and the delegate are told. -/
inductive WebSocketAction where
  | connectToHost
  | writeHandshake (getRequest : NSString)
  | writeData (data : List Byte)
  | disconnectAfterWriting
  | scheduleForceCloseCheck
  | didOpen
  | didReceiveError (aError : String)
  | didClose (aStatusCode : Nat) (aMessage : Option NSString)
  | didReceiveTextMessage (aMessage : NSString)
  | didReceiveBinaryMessage (aMessage : List Byte)
  | didSendPong (aMessage : Option (List Byte))
deriving DecidableEq, Repr

structure WebSocketSender where
  config : WebSocketConnectConfig
  readystate : WebSocketReadyState
  isClosing : Bool
  closeStatusCode : Nat
  closeMessage : Option NSString
  wsSecKey : NSString
  wsSecKeyHandshake : NSString
  /-- How many masks have been drawn. -/
  drawn : Nat
  actions : List WebSocketAction
deriving DecidableEq, Repr

namespace WebSocketSender

variable (arc4random : Nat → BitVec 32)

def act (a : WebSocketAction) (s : WebSocketSender) : WebSocketSender :=
  { s with actions := s.actions ++ [a] }

/-- `fragmentWithOpCode:isFinal:payload:`. -/
def newFragment (aOpCode : Int) (aIsFinal : Bool) (aPayload : Option (List Byte)) (s : WebSocketSender) :
    WebSocketFragment × WebSocketSender :=
  (WebSocketFragment.fragmentWithOpCode (arc4random s.drawn) aOpCode aIsFinal aPayload,
    { s with drawn := s.drawn + 1 })

/-- `sendMessage:` of a fragment. -/
def sendFragment (aFragment : WebSocketFragment) (s : WebSocketSender) : WebSocketSender :=
  if s.isClosing = false ∨ aFragment.opCode = MessageOpCode.close then
    s.act (.writeData (aFragment.fragment.getD []))
  else s

/-- The loop that builds fragments, from `i` on, with so many left. -/
def buildFragments (aMessage : List Byte) (aOpCode : Int) (fragmentCount : Nat) :
    Nat → Nat → WebSocketSender → List WebSocketFragment × WebSocketSender
  | 0, _, s => ([], s)
  | left + 1, i, s =>
    let maxPayloadSize := s.config.maxPayloadSize
    let payload (fragmentLength : Nat) := some ((aMessage.drop (i * maxPayloadSize)).take fragmentLength)
    let fragmentLength := maxPayloadSize % 2 ^ 32
    let (fragment, s) :=
      if i = 0 then s.newFragment arc4random aOpCode false (payload fragmentLength)
      else if i = fragmentCount - 1 then
        let rest := aMessage.length % maxPayloadSize % 2 ^ 32
        s.newFragment arc4random MessageOpCode.continuation true
          (payload (if rest = 0 then fragmentLength else rest))
      else s.newFragment arc4random MessageOpCode.continuation false (payload fragmentLength)
    let (fragments, s) := buildFragments aMessage aOpCode fragmentCount left (i + 1) s
    (fragment :: fragments, s)

/-- `sendMessage:messageWithOpCode:`. -/
def sendMessage (aMessage : Option (List Byte)) (aOpCode : Int) (s : WebSocketSender) : WebSocketSender :=
  if s.isClosing = false then
    let message := aMessage.getD []
    let messageLength := message.length
    if messageLength ≤ s.config.maxPayloadSize then
      let (fragment, s) := s.newFragment arc4random aOpCode true aMessage
      s.sendFragment fragment
    else
      let fragmentCount := messageLength / s.config.maxPayloadSize % 2 ^ 32
      let fragmentCount :=
        if messageLength % s.config.maxPayloadSize = 0 then fragmentCount else (fragmentCount + 1) % 2 ^ 32
      let (fragments, s) := buildFragments arc4random message aOpCode fragmentCount fragmentCount 0 s
      fragments.foldl (fun s fragment => s.sendFragment fragment) s
  else s

/-- The payload of a Close frame: the status, if there is one, and the message. -/
def closePayload (aStatusCode : Nat) (aMessage : Option NSString) : Option (List Byte) :=
  if 0 < aStatusCode then
    some ([BitVec.ofNat 8 (aStatusCode / 0x100), BitVec.ofNat 8 (aStatusCode % 0x100)] ++
      NSString.utf8 (aMessage.getD []))
  else none

def setClose (aStatusCode : Nat) (aMessage : Option NSString) (s : WebSocketSender) : WebSocketSender :=
  if 0 < aStatusCode then
    { s with
      closeStatusCode := aStatusCode
      closeMessage := if aMessage.isSome = true then aMessage else s.closeMessage }
  else s

/-- `sendClose:message:`. -/
def sendClose (aStatusCode : Nat) (aMessage : Option NSString) (s : WebSocketSender) : WebSocketSender :=
  let s := s.setClose aStatusCode aMessage
  let (fragment, s) := s.newFragment arc4random MessageOpCode.close true (closePayload aStatusCode aMessage)
  let s := s.sendFragment fragment
  if 0 ≤ s.config.closeTimeout then s.act .scheduleForceCloseCheck else s

/-- `close:message:`. A list of characters can always be encoded. -/
def close (aStatusCode : Nat) (aMessage : Option NSString) (s : WebSocketSender) : WebSocketSender :=
  let s := { s with readystate := .closing }
  let s := s.sendClose arc4random aStatusCode aMessage
  { s with isClosing := true }

def closeSocket (s : WebSocketSender) : WebSocketSender :=
  { s with readystate := .closing }.act .disconnectAfterWriting

/-- The timer of `scheduleForceCloseCheck`. -/
def checkClose (s : WebSocketSender) : WebSocketSender :=
  if s.readystate = .closing then s.closeSocket else s

def sendText (aMessage : Option NSString) (s : WebSocketSender) : WebSocketSender :=
  if s.isClosing = false then
    match aMessage with
    | some aMessage => s.sendMessage arc4random (some (NSString.utf8 aMessage)) MessageOpCode.text
    | none => s
  else s

def sendBinary (aMessage : Option (List Byte)) (s : WebSocketSender) : WebSocketSender :=
  s.sendMessage arc4random aMessage MessageOpCode.binary

def sendPing (aMessage : Option (List Byte)) (s : WebSocketSender) : WebSocketSender :=
  s.sendMessage arc4random aMessage MessageOpCode.ping

/-- The timer of `startPingTimer`. -/
def repeatPing (s : WebSocketSender) : WebSocketSender :=
  if s.readystate = .opened then s.sendPing arc4random none else s

def handlePing (aMessage : Option (List Byte)) (s : WebSocketSender) : WebSocketSender :=
  (s.sendMessage arc4random aMessage MessageOpCode.pong).act (.didSendPong aMessage)

/-- What a complete text comes to: a text for the delegate if the data are one. -/
def receiveText (payloadData : List Byte) (s : WebSocketSender) : WebSocketSender :=
  if payloadData.length = 0 then s.act (.didReceiveTextMessage [])
  else
    match NSString.initWithData payloadData with
    | some textMsg => s.act (.didReceiveTextMessage textMsg)
    | none =>
      if WebSocketVersion.version10 ≤ s.config.version then
        s.close arc4random WebSocketCloseStatus.invalidData none
      else s

/-- `handleClose:` of a fragment with this payload. -/
def handleClose (payloadData : List Byte) (s : WebSocketSender) : WebSocketSender :=
  let (invalidUTF8, s) :=
    match payloadData with
    | first :: second :: rest =>
      let s := { s with closeStatusCode := first.toNat <<< 8 ||| second.toNat }
      if rest = [] then (false, s)
      else
        let closeMessage := NSString.initWithData rest
        (closeMessage.isNone, { s with closeMessage })
    | _ => (false, s)
  if s.isClosing = true then s.closeSocket
  else
    let s := { s with isClosing := true }
    if invalidUTF8 = false ∨ s.config.version < WebSocketVersion.version10 then s.close arc4random 0 none
    else s.close arc4random WebSocketCloseStatus.invalidData none

/-! ### What is written -/

/-- The bytes that the socket is told to write. -/
def written : List WebSocketAction → List Byte
  | [] => []
  | .writeData data :: rest => data ++ written rest
  | _ :: rest => written rest

theorem written_append (as bs : List WebSocketAction) : written (as ++ bs) = written as ++ written bs := by
  induction as with
  | nil => rfl
  | cons a as ih => cases a <;> simp [written, ih]

theorem written_writeData (fs : List Frame) :
    written (fs.map fun f => .writeData f.bytes) = fs.flatMap Frame.bytes := by
  induction fs with
  | nil => rfl
  | cons f fs ih => simp [written, ih]

/-- From `s` to `s'` these frames are written, and nothing else happens. -/
structure Sends (fs : List Frame) (s s' : WebSocketSender) : Prop where
  actions : s'.actions = s.actions ++ fs.map fun f => .writeData f.bytes
  config : s'.config = s.config
  readystate : s'.readystate = s.readystate
  isClosing : s'.isClosing = s.isClosing
  closeStatusCode : s'.closeStatusCode = s.closeStatusCode
  closeMessage : s'.closeMessage = s.closeMessage

/-- Frames that are sent one after the other are sent together. -/
theorem Sends.append {fs gs : List Frame} {s s' s'' : WebSocketSender} (h : Sends fs s s')
    (h' : Sends gs s' s'') : Sends (fs ++ gs) s s'' where
  actions := by rw [h'.actions, h.actions, List.map_append, List.append_assoc]
  config := h'.config.trans h.config
  readystate := h'.readystate.trans h.readystate
  isClosing := h'.isClosing.trans h.isClosing
  closeStatusCode := h'.closeStatusCode.trans h.closeStatusCode
  closeMessage := h'.closeMessage.trans h.closeMessage

/-- A frame as this side sends it: masked, and no longer than is allowed. -/
structure Own (maxPayloadSize : Nat) (f : Frame) : Prop where
  masked : f.key.isSome = true
  rsv : f.rsv = 0
  length : f.payload.length ≤ maxPayloadSize

variable {arc4random}

/-- A fragment is sent as its frame while the socket is open. -/
theorem sendFragment_sends {g : Frame} {fragment : WebSocketFragment} {s : WebSocketSender}
    (hfragment : fragment.fragment = some g.bytes)
    (hopen : s.isClosing = false ∨ fragment.opCode = MessageOpCode.close) :
    Sends [g] s (s.sendFragment fragment) := by
  rw [sendFragment, if_pos hopen, hfragment]
  exact ⟨rfl, rfl, rfl, rfl, rfl, rfl⟩

/-- The frame of a new fragment. -/
theorem newFragment_fragment (arc4random : Nat → BitVec 32) (opcode : BitVec 4) (fin : Bool)
    (payload : Option (List Byte)) (s : WebSocketSender) (h : (payload.getD []).length < 2 ^ 31) :
    ∃ g : Frame, (s.newFragment arc4random opcode.toNat fin payload).1.fragment = some g.bytes ∧
      g.payload = payload.getD [] ∧ g.key.isSome = true ∧ Piece opcode fin g :=
  ⟨_, WebSocketFragment.fragmentWithOpCode_fragment _ opcode fin payload h, rfl, rfl, rfl, rfl, rfl⟩

/-- Sending what has been built. -/
theorem sendFragments_sends {gs : List Frame} {fragments : List WebSocketFragment} {s : WebSocketSender}
    (h : fragments.map WebSocketFragment.fragment = gs.map fun g => some g.bytes)
    (hopen : s.isClosing = false) :
    Sends gs s (fragments.foldl (fun s fragment => s.sendFragment fragment) s) := by
  induction fragments generalizing gs s with
  | nil =>
    cases gs with
    | nil => exact ⟨by simp, rfl, rfl, rfl, rfl, rfl⟩
    | cons g gs => simp at h
  | cons fragment fragments ih =>
    cases gs with
    | nil => simp at h
    | cons g gs =>
      obtain ⟨hfirst, hrest⟩ := List.cons.inj h
      have hone := sendFragment_sends hfirst (s := s) (.inl hopen)
      exact hone.append (ih hrest (hone.isClosing.trans hopen))

/-! ### A message in fragments -/

section Fragments

variable {message : List Byte} {fragmentCount : Nat} {s : WebSocketSender}

/-- `fragmentCount` fragments are just enough. -/
structure Cuts (max : Nat) (message : List Byte) (fragmentCount : Nat) : Prop where
  enough : message.length ≤ fragmentCount * max
  needed : (fragmentCount - 1) * max < message.length
  several : 2 ≤ fragmentCount

/-- A message below 2 GiB is cut into payloads of the largest size and a rest. -/
theorem cuts_of_lt {max : Nat} (hmax : 0 < max) (hlong : max < message.length)
    (hlt : message.length < 2 ^ 31) : Cuts max message
      (if message.length % max = 0 then message.length / max % 2 ^ 32
        else (message.length / max % 2 ^ 32 + 1) % 2 ^ 32) := by
  have hquotient : message.length / max ≤ message.length := Nat.div_le_self _ _
  have hone : 1 ≤ message.length / max := (Nat.one_le_div_iff hmax).mpr hlong.le
  have hsplit := Nat.div_add_mod' message.length max
  have hrest := Nat.mod_lt message.length hmax
  generalize message.length % max = r at hsplit hrest
  generalize message.length / max = q at hquotient hone hsplit
  have hq : q % 2 ^ 32 = q := Nat.mod_eq_of_lt (by omega)
  have hq' : (q + 1) % 2 ^ 32 = q + 1 := Nat.mod_eq_of_lt (by omega)
  rw [hq, hq']
  by_cases hzero : r = 0
  · rw [if_pos hzero]
    have htwo : q ≠ 1 := by
      rintro rfl
      omega
    obtain ⟨k, rfl⟩ : ∃ k, q = k + 2 := ⟨q - 2, by omega⟩
    have hstep : (k + 2) * max = (k + 2 - 1) * max + max := Nat.succ_mul (k + 1) max
    exact ⟨by omega, by omega, by omega⟩
  · rw [if_neg hzero]
    have hstep : (q + 1) * max = q * max + max := Nat.succ_mul q max
    refine ⟨by omega, ?_, by omega⟩
    rw [Nat.add_sub_cancel]
    omega

/-- The length of the last fragment. -/
theorem Cuts.rest {max : Nat} (h : Cuts max message fragmentCount) :
    ∃ r, 0 < r ∧ r ≤ max ∧ message.length = (fragmentCount - 1) * max + r ∧
      (if message.length % max = 0 then max else message.length % max) = r := by
  have hstep : fragmentCount * max = (fragmentCount - 1) * max + max := by
    rw [← Nat.succ_mul, Nat.succ_eq_add_one, Nat.sub_add_cancel (by have := h.several; omega)]
  have henough := h.enough
  have hneeded := h.needed
  have hlength : message.length = (fragmentCount - 1) * max + (message.length - (fragmentCount - 1) * max) := by
    omega
  generalize message.length - (fragmentCount - 1) * max = r at hlength
  have hmod : message.length % max = r % max := by
    rw [hlength, Nat.mul_add_mod']
  refine ⟨r, by omega, by omega, hlength, ?_⟩
  rw [hmod]
  rcases Nat.eq_or_lt_of_le (show r ≤ max by omega) with rfl | hlt
  · rw [Nat.mod_self, if_pos rfl]
  · rw [Nat.mod_eq_of_lt hlt, if_neg (by omega)]

/-- A fragment of a message. -/
theorem newFragment_piece (arc4random : Nat → BitVec 32) (opcode : BitVec 4) (fin : Bool) (s : WebSocketSender)
    (start : Nat) {count : Nat} (hcount : count ≤ s.config.maxPayloadSize)
    (hlt : message.length < 2 ^ 31) :
    ∃ g : Frame, (s.newFragment arc4random opcode.toNat fin
        (some ((message.drop start).take count))).1.fragment = some g.bytes ∧
      g.payload = (message.drop start).take count ∧ Piece opcode fin g ∧
      Own s.config.maxPayloadSize g := by
  have hlength : ((message.drop start).take count).length ≤ message.length := by
    rw [List.length_take, List.length_drop]
    omega
  obtain ⟨g, hfragment, hpayload, hkey, hpiece⟩ := newFragment_fragment arc4random opcode fin
    (some ((message.drop start).take count)) s (hlength.trans_lt hlt)
  refine ⟨g, hfragment, hpayload, hpiece, hkey, hpiece.rsv, ?_⟩
  rw [hpayload, Option.getD_some, List.length_take]
  omega

/-- What the loop has built: the frames of the message from `start` on, the last of
them final. -/
structure BuiltRest (message : List Byte) (start : Nat) (s : WebSocketSender)
    (result : List WebSocketFragment × WebSocketSender) (gs : List Frame) (g : Frame) : Prop where
  fragments : result.1.map WebSocketFragment.fragment = (gs ++ [g]).map fun f => some f.bytes
  sender : ∃ drawn, result.2 = { s with drawn }
  middle : ∀ f ∈ gs, Piece 0 false f
  last : Piece 0 true g
  own : ∀ f ∈ gs ++ [g], Own s.config.maxPayloadSize f
  payload : gs.flatMap Frame.payload ++ g.payload = message.drop start

/-- The fragments behind the first one. -/
theorem buildFragments_rest (arc4random : Nat → BitVec 32) (aOpCode : Int) {left i : Nat}
    (hcuts : Cuts s.config.maxPayloadSize message fragmentCount) (hlt : message.length < 2 ^ 31)
    (hi : 0 < i) (hsum : i + left + 1 = fragmentCount) :
    ∃ gs g, BuiltRest message (i * s.config.maxPayloadSize) s
      (buildFragments arc4random message aOpCode fragmentCount (left + 1) i s) gs g := by
  obtain ⟨r, hpos, hle, hlength, hrest⟩ := hcuts.rest
  have hseveral := hcuts.several
  have hmul := Nat.le_mul_of_pos_left s.config.maxPayloadSize (show 0 < fragmentCount - 1 by omega)
  have hmod : s.config.maxPayloadSize % 2 ^ 32 = s.config.maxPayloadSize := Nat.mod_eq_of_lt (by omega)
  have hmod' : message.length % s.config.maxPayloadSize % 2 ^ 32 =
      message.length % s.config.maxPayloadSize :=
    Nat.mod_eq_of_lt ((Nat.mod_le _ _).trans_lt (hlt.trans (by norm_num)))
  induction left generalizing i s with
  | zero =>
    have hlast : i = fragmentCount - 1 := by omega
    obtain ⟨g, hfragment, hpayload, hpiece, hown⟩ := newFragment_piece arc4random 0 true s
      (i * s.config.maxPayloadSize) hle hlt
    have htail : (message.drop (i * s.config.maxPayloadSize)).take r =
        message.drop (i * s.config.maxPayloadSize) := by
      apply List.take_of_length_le
      rw [List.length_drop, hlast]
      omega
    refine ⟨[], g, ?_, ⟨s.drawn + 1, ?_⟩, by simp, hpiece, by simpa using hown, ?_⟩
    · rw [buildFragments, if_neg hi.ne', if_pos hlast]
      simp only [hmod, hmod', hrest]
      exact congrArg (fun f => [f]) hfragment
    · rw [buildFragments, if_neg hi.ne', if_pos hlast]
      rfl
    · rw [hpayload, htail]
      rfl
  | succ left ih =>
    have hnotlast : i ≠ fragmentCount - 1 := by omega
    obtain ⟨f, hfragment, hpayload, hpiece, hown⟩ := newFragment_piece arc4random 0 false s
      (i * s.config.maxPayloadSize) (Nat.le_refl _) hlt
    obtain ⟨gs, g, hbuilt⟩ := ih (s := { s with drawn := s.drawn + 1 }) hcuts (Nat.succ_pos i) (by omega)
      hle hlength hrest hmul hmod hmod'
    obtain ⟨drawn, hdrawn⟩ := hbuilt.sender
    refine ⟨f :: gs, g, ?_, ⟨drawn, ?_⟩, ?_, hbuilt.last, ?_, ?_⟩
    · rw [buildFragments, if_neg hi.ne', if_neg hnotlast, hmod]
      exact congrArg₂ List.cons hfragment hbuilt.fragments
    · rw [buildFragments, if_neg hi.ne', if_neg hnotlast]
      exact hdrawn
    · exact List.forall_mem_cons.mpr ⟨hpiece, hbuilt.middle⟩
    · exact List.forall_mem_cons.mpr ⟨hown, hbuilt.own⟩
    · have hbehind := hbuilt.payload
      rw [List.flatMap_cons, List.append_assoc, hbehind, hpayload, Nat.succ_mul, ← List.drop_drop]
      exact List.take_append_drop _ _

end Fragments

/-! ### What is sent -/

section Sending

variable {s : WebSocketSender} (payload : Option (List Byte))

theorem Sends.of_drawn {fs : List Frame} {s' : WebSocketSender} (drawn : Nat)
    (h : Sends fs { s with drawn } s') : Sends fs s s' :=
  ⟨h.actions, h.config, h.readystate, h.isClosing, h.closeStatusCode, h.closeMessage⟩

/-- A message that is not too long is written as one frame. -/
theorem sendMessage_short (arc4random : Nat → BitVec 32) (opcode : BitVec 4) (hopen : s.isClosing = false)
    (hshort : (payload.getD []).length ≤ s.config.maxPayloadSize)
    (hlt : (payload.getD []).length < 2 ^ 31) :
    ∃ g : Frame, Sends [g] s (s.sendMessage arc4random payload opcode.toNat) ∧
      g.payload = payload.getD [] ∧ Piece opcode true g ∧ Own s.config.maxPayloadSize g := by
  obtain ⟨g, hfragment, hpayload, hkey, hpiece⟩ := newFragment_fragment arc4random opcode true payload s hlt
  have hsends : Sends [g] { s with drawn := s.drawn + 1 }
      (sendFragment (s.newFragment arc4random opcode.toNat true payload).1
        { s with drawn := s.drawn + 1 }) := sendFragment_sends hfragment (.inl hopen)
  refine ⟨g, ?_, hpayload, hpiece, hkey, hpiece.rsv, hpayload ▸ hshort⟩
  rw [sendMessage, if_pos hopen]
  dsimp only
  rw [if_pos hshort]
  exact hsends.of_drawn _

/-- A longer one is written in pieces. -/
theorem sendMessage_long (arc4random : Nat → BitVec 32) {opcode : BitVec 4} (hmem : opcode ∈ [1#4, 2#4])
    (hopen : s.isClosing = false) (hmax : 0 < s.config.maxPayloadSize)
    (hlong : s.config.maxPayloadSize < (payload.getD []).length)
    (hlt : (payload.getD []).length < 2 ^ 31) :
    ∃ fs, Sends fs s (s.sendMessage arc4random payload opcode.toNat) ∧
      Delivers fs [.message opcode (payload.getD [])] ∧ ∀ f ∈ fs, Own s.config.maxPayloadSize f := by
  generalize hmessage : payload.getD [] = message at hlong hlt
  have hcuts := cuts_of_lt hmax hlong hlt
  rw [sendMessage, if_pos hopen]
  dsimp only
  rw [hmessage, if_neg (Nat.not_le.mpr hlong)]
  generalize hcount : (if message.length % s.config.maxPayloadSize = 0 then
    message.length / s.config.maxPayloadSize % 2 ^ 32
    else (message.length / s.config.maxPayloadSize % 2 ^ 32 + 1) % 2 ^ 32) = fragmentCount at hcuts
  obtain ⟨left, rfl⟩ : ∃ left, fragmentCount = left + 1 + 1 :=
    ⟨fragmentCount - 2, by have := hcuts.several; omega⟩
  -- the first fragment, and the rest
  obtain ⟨f, hfragment, hpayload, hpiece, hown⟩ := newFragment_piece arc4random opcode false s 0
    (Nat.le_refl _) hlt
  obtain ⟨gs, g, hbuilt⟩ := buildFragments_rest (s := { s with drawn := s.drawn + 1 }) arc4random
    opcode.toNat (i := 1) hcuts hlt Nat.one_pos (show 1 + left + 1 = left + 1 + 1 by omega)
  obtain ⟨drawn, hdrawn⟩ := hbuilt.sender
  have hmod : s.config.maxPayloadSize % 2 ^ 32 = s.config.maxPayloadSize := Nat.mod_eq_of_lt (by omega)
  have hfragments := List.map_cons.trans (congrArg₂ List.cons hfragment hbuilt.fragments)
  have hwhole : f.payload ++ gs.flatMap Frame.payload ++ g.payload = message := by
    have hbehind := hbuilt.payload
    rw [List.append_assoc, hbehind, hpayload, Nat.one_mul]
    exact List.take_append_drop _ _
  refine ⟨f :: gs ++ [g], ?_, ?_, ?_⟩
  · rw [buildFragments, if_pos rfl, hmod, Nat.zero_mul]
    dsimp only
    have hsent : Sends (f :: gs ++ [g]) { s with drawn } _ := sendFragments_sends hfragments hopen
    have hall := Sends.of_drawn drawn hsent
    rw [← hdrawn] at hall
    exact hall
  · rw [← hwhole]
    exact delivers_pieces hmem hpiece hbuilt.middle hbuilt.last
  · exact List.forall_mem_cons.mpr ⟨hown, hbuilt.own⟩

/-- A message is written as frames that bring it. -/
theorem sendMessage_sends (arc4random : Nat → BitVec 32) {opcode : BitVec 4} (hmem : opcode ∈ [1#4, 2#4])
    (hopen : s.isClosing = false) (hmax : 0 < s.config.maxPayloadSize)
    (hlt : (payload.getD []).length < 2 ^ 31) :
    ∃ fs, Sends fs s (s.sendMessage arc4random payload opcode.toNat) ∧
      Delivers fs [.message opcode (payload.getD [])] ∧ ∀ f ∈ fs, Own s.config.maxPayloadSize f := by
  rcases Nat.lt_or_ge s.config.maxPayloadSize (payload.getD []).length with hlong | hshort
  · exact sendMessage_long payload arc4random hmem hopen hmax hlong hlt
  · obtain ⟨g, hsends, hpayload, hpiece, hown⟩ := sendMessage_short payload arc4random opcode hopen hshort hlt
    refine ⟨[g], hsends, ?_, List.forall_mem_singleton.mpr hown⟩
    rw [← hpayload]
    exact delivers_one hmem hpiece

/-- A ping or a pong is written as one frame. -/
theorem sendMessage_control (arc4random : Nat → BitVec 32) {opcode : BitVec 4} (hmem : opcode ∈ [9#4, 10#4])
    (hopen : s.isClosing = false) (hmax : 125 ≤ s.config.maxPayloadSize)
    (hshort : (payload.getD []).length ≤ 125) :
    ∃ f, Sends [f] s (s.sendMessage arc4random payload opcode.toNat) ∧
      Delivers [f] [.control opcode (payload.getD [])] ∧ Own s.config.maxPayloadSize f := by
  obtain ⟨g, hsends, hpayload, hpiece, hown⟩ := sendMessage_short payload arc4random opcode hopen
    (hshort.trans hmax) (by omega)
  refine ⟨g, hsends, ?_, hown⟩
  rw [← hpayload]
  exact delivers_control (List.mem_cons_of_mem _ hmem) hpiece (hpayload ▸ hshort)

end Sending

/-! ### What arrives -/

/-- What a user of the socket sends. -/
inductive Send where
  | text (aMessage : NSString)
  | binary (aMessage : List Byte)
  | ping (aMessage : Option (List Byte))

namespace Send

def apply (arc4random : Nat → BitVec 32) : Send → WebSocketSender → WebSocketSender
  | .text aMessage => fun s => s.sendText arc4random (some aMessage)
  | .binary aMessage => fun s => s.sendBinary arc4random (some aMessage)
  | .ping aMessage => fun s => s.sendPing arc4random aMessage

/-- What the other side is to read. -/
def event : Send → Event
  | .text aMessage => .message 1 (NSString.utf8 aMessage)
  | .binary aMessage => .message 2 aMessage
  | .ping aMessage => .control 9 (aMessage.getD [])

/-- An `int` holds the length, and a ping is not too long. -/
def Fits : Send → Prop
  | .text aMessage => (NSString.utf8 aMessage).length < 2 ^ 31
  | .binary aMessage => aMessage.length < 2 ^ 31
  | .ping aMessage => (aMessage.getD []).length ≤ 125

/-- What is sent comes as one event out of masked frames of the size that is allowed. -/
theorem sends (arc4random : Nat → BitVec 32) {send : Send} {s : WebSocketSender} (hfits : send.Fits)
    (hopen : s.isClosing = false) (hmax : 125 ≤ s.config.maxPayloadSize) :
    ∃ fs, Sends fs s (send.apply arc4random s) ∧ Delivers fs [send.event] ∧
      ∀ f ∈ fs, Own s.config.maxPayloadSize f := by
  have hpos : 0 < s.config.maxPayloadSize := Nat.lt_of_lt_of_le (by norm_num) hmax
  cases send with
  | text aMessage =>
    have hsend : apply arc4random (.text aMessage) s =
        s.sendMessage arc4random (some (NSString.utf8 aMessage)) (1#4).toNat := by
      simp only [apply, sendText, if_pos hopen]
      rfl
    rw [hsend]
    exact sendMessage_sends _ arc4random (by simp) hopen hpos hfits
  | binary aMessage =>
    exact sendMessage_sends (some aMessage) arc4random (show 2#4 ∈ [1#4, 2#4] by simp) hopen hpos hfits
  | ping aMessage =>
    obtain ⟨f, hsends, hdelivers, hown⟩ := sendMessage_control aMessage arc4random
      (show 9#4 ∈ [9#4, 10#4] by simp) hopen hmax hfits
    exact ⟨[f], hsends, hdelivers, List.forall_mem_singleton.mpr hown⟩

end Send

/-- Calls one after another are sent as their events, in order. -/
theorem sendAll_sends (arc4random : Nat → BitVec 32) {sends : List Send} {s : WebSocketSender}
    (hfits : ∀ send ∈ sends, send.Fits) (hopen : s.isClosing = false)
    (hmax : 125 ≤ s.config.maxPayloadSize) :
    ∃ fs, Sends fs s (sends.foldl (fun s send => send.apply arc4random s) s) ∧
      Delivers fs (sends.map Send.event) ∧ ∀ f ∈ fs, Own s.config.maxPayloadSize f := by
  induction sends generalizing s with
  | nil => exact ⟨[], ⟨by simp, rfl, rfl, rfl, rfl, rfl⟩, delivers_nil, by simp⟩
  | cons send sends ih =>
    obtain ⟨fs, hfirst, hdelivers, hown⟩ := Send.sends arc4random (hfits send List.mem_cons_self) hopen hmax
    obtain ⟨gs, hrest, hdelivers', hown'⟩ := ih (fun t ht => hfits t (List.mem_cons_of_mem send ht))
      (hfirst.isClosing.trans hopen) (hfirst.config ▸ hmax)
    rw [hfirst.config] at hown'
    exact ⟨fs ++ gs, hfirst.append hrest, hdelivers.append hdelivers',
      fun f hf => (List.mem_append.mp hf).elim (hown f) (hown' f)⟩

/-- A socket just opened, with payloads of at most 125 bytes. -/
def ready : WebSocketSender where
  config := {
    path := none
    query := none
    host := "localhost".toList
    useOrigin := true
    origin := "http://localhost".toList
    protocols := []
    headers := []
    version := WebSocketVersion.rfc6455
    maxPayloadSize := 125
    closeTimeout := 15
    activeExtensionModifiesReservedBits := false
    retryOtherVersion := true
    verifySecurityKey := false
    extensions := []
    serverHeaders := []
    serverProtocol := none
    serverExtensions := [] }
  readystate := .opened
  isClosing := false
  closeStatusCode := 0
  closeMessage := none
  wsSecKey := []
  wsSecKeyHandshake := []
  drawn := 0
  actions := []

end WebSocketSender

end Sogx
