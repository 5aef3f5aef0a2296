import Sogx.Ios.WebSocketSender
import Sogx.Lib.Loop

/-!
`WebSocket.m`: what is received.

`handleMessageData` takes one fragment further with the data of a read; the loop of
`didReadData` goes on while data are left.

* `handleMessageData_whole`, `handleMessageData_cut`: a legal frame is handled when its
  last byte is there, and kept until then.
* `reads_legal`: however a legal stream is cut into reads, each frame has been handled
  as soon as its last byte was read.
-/

namespace Sogx

open Sogx.Lib Sogx.Lib.Rfc6455

structure WebSocket where
  sender : WebSocketSender
  isInContinuation : Bool
  pendingFragments : List WebSocketFragment
deriving DecidableEq, Repr

namespace WebSocketFragment

/-- How the fragment gets its header, if the data hold it. -/
def findHeader (aData : List Byte) (aOffset : Nat) (f : WebSocketFragment) : WebSocketFragment × Bool :=
  if f.isHeaderValid = true then (f, true)
  else
    let f := f.parseOwnHeader
    if f.isHeaderValid = true then (f, true) else f.parseHeader aData aOffset

def append (data : List Byte) (f : WebSocketFragment) : WebSocketFragment :=
  { f with fragment := some (f.fragment.getD [] ++ data) }

/-- `%@` of a `BOOL` in a message. -/
def yesNo (b : Bool) : String := if b = true then "YES" else "NO"

end WebSocketFragment

namespace WebSocket

variable (arc4random : Nat → BitVec 32)

def close (aStatusCode : Nat) (aMessage : String) (s : WebSocket) : WebSocket :=
  { s with sender := s.sender.close arc4random aStatusCode (some aMessage.toList) }

/-- The fragment that is not complete yet, or a new one: those before it, it, and how
much of it is there. -/
def currentFragment (s : WebSocket) : List WebSocketFragment × WebSocketFragment × Nat :=
  match s.pendingFragments.getLast? with
  | none => (s.pendingFragments, .init, 0)
  | some fragment =>
    if fragment.isValid = true then (s.pendingFragments, .init, 0)
    else (s.pendingFragments.dropLast, fragment, fragment.fragmentLength)

/-- The checks of a header. Each failure closes the socket, and the data are taken in
all the same. -/
def validate (fragment : WebSocketFragment) (s : WebSocket) : WebSocket :=
  let failed (aMessage : String) (s : WebSocket) := s.close arc4random WebSocketCloseStatus.protocolError aMessage
  let s :=
    if s.sender.config.activeExtensionModifiesReservedBits = false ∧
        (fragment.isRSV1 = true ∨ fragment.isRSV2 = true ∨ fragment.isRSV3 = true) then
      failed ("No extension is defined that modifies reserved bits: RSV1=" ++
        WebSocketFragment.yesNo fragment.isRSV1 ++ ", RSV2=" ++ WebSocketFragment.yesNo fragment.isRSV2 ++
        ", RSV3=" ++ WebSocketFragment.yesNo fragment.isRSV3) s
    else s
  let s :=
    if fragment.opCode ≠ MessageOpCode.continuation ∧ fragment.opCode ≠ MessageOpCode.text ∧
        fragment.opCode ≠ MessageOpCode.binary ∧ fragment.opCode ≠ MessageOpCode.close ∧
        fragment.opCode ≠ MessageOpCode.ping ∧ fragment.opCode ≠ MessageOpCode.pong then
      failed "Illegal Opcode" s
    else s
  let s :=
    if (fragment.opCode = MessageOpCode.ping ∨ fragment.opCode = MessageOpCode.pong) ∧
        fragment.isFinal = false then
      failed "Control frames cannot be fragmented" s
    else s
  let shown := "isFinal=" ++ WebSocketFragment.yesNo fragment.isFinal ++ ", opCode=" ++ toString fragment.opCode
  if fragment.isFinal = true then
    if fragment.opCode = MessageOpCode.continuation ∧ s.isInContinuation = false then
      failed ("Cannot send the final fragment without a fragmented stream: " ++ shown) s
    else if s.isInContinuation = true ∧ fragment.isControlFrame = false ∧
        fragment.opCode ≠ MessageOpCode.continuation then
      failed ("Cannot embed complete messages in a fragmented stream: " ++ shown) s
    else s
  else if s.isInContinuation = true ∧ fragment.opCode ≠ MessageOpCode.continuation then
    failed ("Cannot embed non-control, non-continuation frames in a fragmented stream: " ++ shown) s
  else if s.isInContinuation = false ∧ fragment.opCode ≠ MessageOpCode.text ∧
      fragment.opCode ≠ MessageOpCode.binary then
    failed "Illegal continuation start frame" s
  else s

/-- `handleCompleteFragments`. -/
def handleCompleteFragments (s : WebSocket) : WebSocket :=
  match s.pendingFragments with
  | [] => s
  | fragment :: fragments =>
    let messageData := (fragment :: fragments).flatMap fun fragment =>
      if 0 < fragment.payloadLength then fragment.payloadData.getD [] else []
    let s := { s with pendingFragments := [] }
    if fragment.opCode = MessageOpCode.text then
      { s with sender := s.sender.receiveText arc4random messageData }
    else if fragment.opCode = MessageOpCode.binary then
      { s with sender := s.sender.act (.didReceiveBinaryMessage messageData) }
    else s

/-- `handleCompleteFragment:`. -/
def handleCompleteFragment (aFragment : WebSocketFragment) (s : WebSocket) : WebSocket :=
  let s :=
    if aFragment.isFinal = true ∧ aFragment.opCode ≠ MessageOpCode.continuation then
      { s with pendingFragments := s.pendingFragments.dropLast }
    else s
  let payloadData := aFragment.payloadData.getD []
  if aFragment.opCode = MessageOpCode.continuation then
    if aFragment.isFinal = true then s.handleCompleteFragments arc4random else s
  else if aFragment.opCode = MessageOpCode.text then
    if aFragment.isFinal = true then { s with sender := s.sender.receiveText arc4random payloadData } else s
  else if aFragment.opCode = MessageOpCode.binary then
    if aFragment.isFinal = true then { s with sender := s.sender.act (.didReceiveBinaryMessage payloadData) }
    else s
  else if aFragment.opCode = MessageOpCode.close then
    { s with sender := s.sender.handleClose arc4random payloadData }
  else if aFragment.opCode = MessageOpCode.ping then
    if 125 < aFragment.payloadLength then
      s.close arc4random WebSocketCloseStatus.protocolError
        "Pings cannot have payloads longer than 125 octets."
    else { s with sender := s.sender.handlePing arc4random aFragment.payloadData }
  else s

/-- The continuation state after a fragment. -/
def setContinuation (fragment : WebSocketFragment) (s : WebSocket) : WebSocket :=
  if fragment.isValid = true then
    if fragment.isFinal = true ∧ fragment.opCode = MessageOpCode.continuation ∧
        s.isInContinuation = true then
      { s with isInContinuation := false }
    else if fragment.isFinal = false ∧
        (fragment.opCode = MessageOpCode.text ∨ fragment.opCode = MessageOpCode.binary) then
      { s with isInContinuation := true }
    else s
  else s

/-- The end of `handleMessageData:offset:`, where the fragment behind `pending` has taken
in its data. -/
def handleFragment (pending : List WebSocketFragment) (fragment : WebSocketFragment) (offset : Option Nat)
    (s : WebSocket) : Option (WebSocket × Option Nat) :=
  let s := { s with pendingFragments := pending ++ [fragment] }
  if fragment.canBeParsed = true then
    if fragment.hasMask = true then
      some (s.close arc4random WebSocketCloseStatus.protocolError "Server cannot mask data.", none)
    else
      fragment.parseOwnContent.map fun fragment =>
        let s := { s with pendingFragments := pending ++ [fragment] }
        let s :=
          if fragment.isValid = true ∧ fragment.isFinal = true then
            s.handleCompleteFragment arc4random fragment
          else s
        (s.setContinuation fragment, offset)
  else some (s.setContinuation fragment, offset)

/-- What is returned for where to go on is an `int`, and the loop of the read ends on a
negative one. -/
def nextOffset (offset : Nat) : Option Nat := if 0 ≤ int offset then some (int offset).toNat else none

/-- `handleMessageData:offset:`, with the offset where to go on; `none` in its place is
a negative one. There is no result when a range is thrown that is not inside the data. -/
def handleMessageData (aData : List Byte) (aOffset : Nat) (s : WebSocket) :
    Option (WebSocket × Option Nat) :=
  let (pending, fragment, existingLength) := s.currentFragment
  let (fragment, found) := fragment.findHeader aData aOffset
  if found = false then
    some ({ s with pendingFragments := pending ++ [fragment.append (aData.drop aOffset)] }, none)
  else
    let s := s.validate arc4random fragment
    let possibleDataLength := aData.length - aOffset
    -- a header that is there but announces a negative length: the range to copy has no end
    if fragment.messageLength < existingLength then none
    else
      let lengthOfRemainder :=
        if fragment.messageLength < possibleDataLength + existingLength then
          possibleDataLength - (fragment.messageLength - existingLength)
        else 0
      let actualDataLength := possibleDataLength - lengthOfRemainder
      let offset :=
        if 0 < fragment.messageLength ∧ 0 < lengthOfRemainder then nextOffset (actualDataLength + aOffset) else none
      s.handleFragment arc4random pending (fragment.append ((aData.drop aOffset).take actualDataLength)) offset

/-- The loop of `didReadData`, with fuel. -/
def readLoop (aData : List Byte) : Nat → Nat → WebSocket → Except Failure WebSocket
  | 0, _, _ => .error .running
  | fuel + 1, offset, s =>
    match s.handleMessageData arc4random aData offset with
    | none => .error .fault
    | some (s, some offset) => readLoop aData fuel offset s
    | some (s, none) => .ok s

/-- `socket:didReadData:withTag:` of a message. -/
def didReadData (aData : List Byte) (s : WebSocket) : Except Failure WebSocket :=
  readLoop arc4random aData (aData.length + 1) 0 s

/-- The data of one read after another. -/
def reads : List (List Byte) → WebSocket → Except Failure WebSocket
  | [], s => .ok s
  | aData :: rest, s => (s.didReadData arc4random aData).bind (reads rest)

theorem nextOffset_of_lt {offset : Nat} (h : offset < 2 ^ 31) : nextOffset offset = some offset := by
  rw [nextOffset, int_of_lt h, if_pos (Int.natCast_nonneg offset), Int.toNat_natCast]

/-! ### What a frame is for -/

/-- What the socket makes of a message or a control frame. -/
def handleEvent (s : WebSocketSender) : Event → WebSocketSender
  | .message opcode payload =>
    if opcode = 1 then s.receiveText arc4random payload else s.act (.didReceiveBinaryMessage payload)
  | .control opcode payload =>
    if opcode = 8 then s.handleClose arc4random payload
    else if opcode = 9 then s.handlePing arc4random (some payload)
    else s

variable {arc4random}

/-! ### Legal frames -/

/-- The frames that a server sends: not masked, of a length that an `int` holds. -/
structure FromServer (g : Frame) : Prop where
  unmasked : g.key = none
  holds : WebSocketFragment.Holds g

/-- What a legal frame can be. -/
theorem legal_cases {b : Begun} {g : Frame} (h : Legal b g) :
    (g.isControl = true ∧ g.fin = true ∧ g.payload.length ≤ 125 ∧ g.opcode ∈ [8#4, 9#4, 10#4]) ∨
      (g.isControl = false ∧ b = none ∧ g.opcode ∈ [1#4, 2#4]) ∨
      (g.isControl = false ∧ b ≠ none ∧ g.opcode = 0) := by
  cases hcontrol : g.isControl with
  | true => exact .inl ⟨rfl, h.control hcontrol⟩
  | false =>
    by_cases hb : b = none
    · exact .inr (.inl ⟨rfl, hb, h.first hcontrol hb⟩)
    · exact .inr (.inr ⟨rfl, hb, h.next hcontrol hb⟩)

/-- A legal frame passes the checks. -/
theorem validate_legal {b : Begun} {g : Frame} (h : Legal b g) (f : WebSocketFragment) {s : WebSocket}
    (hs : s.isInContinuation = b.isSome) : s.validate arc4random (WebSocketFragment.known g f) = s := by
  have hrsv := h.rsv
  rcases legal_cases h with ⟨hcontrol, hfin, -, hmem⟩ | ⟨hcontrol, rfl, hmem⟩ | ⟨hcontrol, hb, hop⟩
  · simp only [List.mem_cons, List.not_mem_nil, or_false] at hmem
    rcases hmem with hop | hop | hop <;>
      simp [validate, WebSocketFragment.known, WebSocketFragment.isControlFrame, hrsv, hop, hfin,
        MessageOpCode.continuation, MessageOpCode.text, MessageOpCode.binary, MessageOpCode.close,
        MessageOpCode.ping, MessageOpCode.pong]
  · simp only [List.mem_cons, List.not_mem_nil, or_false] at hmem
    rcases hmem with hop | hop <;>
      simp [validate, WebSocketFragment.known, hrsv, hop, hs, MessageOpCode.continuation,
        MessageOpCode.text, MessageOpCode.binary, MessageOpCode.ping, MessageOpCode.pong]
  · have hsome : b.isSome = true := Option.isSome_iff_ne_none.mpr hb
    simp [validate, WebSocketFragment.known, hrsv, hop, hs, hsome, MessageOpCode.continuation,
      MessageOpCode.ping, MessageOpCode.pong]

/-! ### Between two frames -/

/-- The data of a queue of fragments. -/
def payloads (q : List WebSocketFragment) : List Byte :=
  q.flatMap fun fragment => if 0 < fragment.payloadLength then fragment.payloadData.getD [] else []

/-- The queue holds the frames of the message that has begun. -/
structure Queued (b : Begun) (q : List WebSocketFragment) : Prop where
  valid : ∀ f ∈ q, f.isValid = true
  none : b = none → q = []
  some : ∀ opcode data, b = some (opcode, data) → opcode ∈ [1#4, 2#4] ∧
    ∃ f rest, q = f :: rest ∧ f.opCode = opcode.toNat ∧ payloads q = data

theorem queued_none : Queued none [] :=
  ⟨fun f hf => absurd hf List.not_mem_nil, fun _ => rfl, fun _ _ h => absurd h (by simp)⟩

theorem payloads_parsed {g : Frame} (h : WebSocketFragment.Holds g) (f : WebSocketFragment) :
    payloads [WebSocketFragment.parsed g f] = g.payload := by
  have hlength : (WebSocketFragment.parsed g f).payloadLength = g.payload.length :=
    int_of_lt h.payload
  have hdata : (WebSocketFragment.parsed g f).payloadData = Option.some g.payload := rfl
  rw [payloads, List.flatMap_cons, List.flatMap_nil, List.append_nil, hlength, hdata, Option.getD_some]
  cases hpayload : g.payload with
  | nil => rfl
  | cons byte rest => exact if_pos (Int.natCast_pos.mpr (Nat.succ_pos _))

/-- A frame that is not final joins the queue. -/
theorem Queued.push {b : Begun} {q : List WebSocketFragment} (hq : Queued b q) {g : Frame}
    (hlegal : Legal b g) (hholds : WebSocketFragment.Holds g) (hcontrol : g.isControl = false) (hfin : g.fin = false)
    (f : WebSocketFragment) : Queued (after b g) (q ++ [WebSocketFragment.parsed g f]) := by
  have hvalid := WebSocketFragment.isValid_parsed hholds f
  have hpayload := payloads_parsed hholds f
  refine ⟨?_, ?_, ?_⟩
  · intro f' hf'
    rcases List.mem_append.mp hf' with hmem | hmem
    · exact hq.valid f' hmem
    · rw [List.mem_singleton.mp hmem]
      exact hvalid
  · intro hafter
    cases b <;> simp [after, hcontrol, hfin] at hafter
  · intro opcode data hafter
    cases b with
    | none =>
      obtain ⟨rfl, rfl⟩ : g.opcode = opcode ∧ g.payload = data := by
        simpa [after, hcontrol, hfin] using hafter
      rw [hq.none rfl]
      exact ⟨hlegal.first hcontrol rfl, _, [], rfl, rfl, hpayload⟩
    | some begun =>
      obtain ⟨opcode', data'⟩ := begun
      obtain ⟨rfl, rfl⟩ : opcode' = opcode ∧ data' ++ g.payload = data := by
        simpa [after, hcontrol, hfin] using hafter
      obtain ⟨hmem, first, rest, rfl, hopcode, hdata⟩ := hq.some opcode' data' rfl
      refine ⟨hmem, first, rest ++ [WebSocketFragment.parsed g f], rfl, hopcode, ?_⟩
      rw [payloads, List.flatMap_append, ← payloads, ← payloads, hdata, hpayload]

variable (arc4random)

/-- What a complete fragment does: it is kept for the rest of its message, or the
message or control frame that it completes is handled. -/
theorem handle_parsed {b : Begun} {g : Frame} (h : Legal b g) (hholds : WebSocketFragment.Holds g)
    {q : List WebSocketFragment} (hq : Queued b q) (f : WebSocketFragment) {s : WebSocket}
    (hs : s.isInContinuation = b.isSome)
    (hpending : s.pendingFragments = q ++ [WebSocketFragment.parsed g f]) :
    let s' := setContinuation (WebSocketFragment.parsed g f)
      (if g.fin = true then s.handleCompleteFragment arc4random (WebSocketFragment.parsed g f) else s)
    s'.sender = (events b g).foldl (handleEvent arc4random) s.sender ∧
      s'.isInContinuation = (after b g).isSome ∧ Queued (after b g) s'.pendingFragments := by
  have hvalid := WebSocketFragment.isValid_parsed hholds f
  have hpayload := payloads_parsed hholds f
  have hopcode : (WebSocketFragment.parsed g f).opCode = g.opcode.toNat := rfl
  have hisFinal : (WebSocketFragment.parsed g f).isFinal = g.fin := rfl
  have hdata : (WebSocketFragment.parsed g f).payloadData = some g.payload := rfl
  have hlength : (WebSocketFragment.parsed g f).payloadLength = g.payload.length :=
    int_of_lt hholds.payload
  rcases legal_cases h with ⟨hcontrol, hfin, hle, hmem⟩ | ⟨hcontrol, rfl, hmem⟩ | ⟨hcontrol, hb, hop⟩
  · have hshort : ¬ (125 : Int) < g.payload.length := by omega
    simp only [List.mem_cons, List.not_mem_nil, or_false] at hmem
    rcases hmem with hop | hop | hop <;>
      simp [handleCompleteFragment, setContinuation, hvalid, hopcode, hisFinal, hdata, hlength, hop, hfin,
        hpending, hs, hq, hshort, events, after, hcontrol, handleEvent, MessageOpCode.continuation,
        MessageOpCode.text, MessageOpCode.binary, MessageOpCode.close, MessageOpCode.ping]
  · have hpushed := hq.push h hholds hcontrol
    simp only [List.mem_cons, List.not_mem_nil, or_false] at hmem
    cases hfin : g.fin with
    | true =>
      rcases hmem with hop | hop <;>
        simp [handleCompleteFragment, setContinuation, hvalid, hopcode, hisFinal, hdata, hop, hfin,
          hpending, hs, hq.none rfl, queued_none, events, after, hcontrol, handleEvent,
          MessageOpCode.continuation, MessageOpCode.text, MessageOpCode.binary]
    | false =>
      have hq' := hpushed hfin f
      rcases hmem with hop | hop <;>
        simpa [setContinuation, hvalid, hopcode, hisFinal, hop, hfin, hpending, events, after, hcontrol,
          MessageOpCode.text, MessageOpCode.binary] using hq'
  · have hpushed := hq.push h hholds hcontrol
    obtain ⟨⟨opcode, data⟩, rfl⟩ := Option.ne_none_iff_exists'.mp hb
    obtain ⟨hmem, first, rest, rfl, hfirst, hqueue⟩ := hq.some opcode data rfl
    cases hfin : g.fin with
    | true =>
      have hall : payloads (first :: (rest ++ [WebSocketFragment.parsed g f])) = data ++ g.payload := by
        rw [← List.cons_append, payloads, List.flatMap_append, ← payloads, ← payloads, hqueue, hpayload]
      unfold payloads at hall
      simp only [List.mem_cons, List.not_mem_nil, or_false] at hmem
      rcases hmem with rfl | rfl <;>
        simp [handleCompleteFragment, handleCompleteFragments, setContinuation, hvalid, hopcode, hisFinal, hop,
          hfin, hpending, hs, hfirst, hall, queued_none, events, after, hcontrol, handleEvent,
          MessageOpCode.continuation, MessageOpCode.text, MessageOpCode.binary]
    | false =>
      have hq' := hpushed hfin f
      simpa [setContinuation, hvalid, hopcode, hisFinal, hop, hfin, hpending, hs, events, after, hcontrol,
        MessageOpCode.text, MessageOpCode.binary] using hq'

/-! ### Inside a frame -/

/-- The fragment holds the first bytes `t` of `g`, and the header if they do. -/
structure Part (g : Frame) (t : List Byte) (f : WebSocketFragment) : Prop where
  bytes : f.fragment.getD [] = t
  less : t.length < g.bytes.length
  prefixed : t <+: g.bytes
  payloadData : f.payloadData = none
  mask : f.mask = 0
  header : (f.payloadStart = 0 ∧ t.length < g.header.length) ∨
    (WebSocketFragment.known g f = f ∧ g.header.length ≤ t.length)

theorem part_init (g : Frame) : Part g [] .init :=
  ⟨rfl, List.length_pos_iff.mpr g.bytes_ne_nil, List.nil_prefix, rfl, rfl, .inl ⟨rfl, g.length_header_pos⟩⟩

section Parts

variable {g : Frame} {t : List Byte} {f f' : WebSocketFragment}

theorem Part.fragmentLength (h : Part g t f) : f.fragmentLength = t.length := by
  rw [WebSocketFragment.fragmentLength, h.bytes]

/-- Until its last byte is there a fragment is not valid. -/
theorem Part.not_valid (h : Part g t f) (hholds : WebSocketFragment.Holds g) : f.isValid = false := by
  unfold WebSocketFragment.isValid
  rcases h.header with ⟨hstart, -⟩ | ⟨hknown, -⟩
  · have hzero : f.messageLength = 0 := by simp [WebSocketFragment.messageLength, hstart]
    rw [hzero]
    rfl
  · have hlength := WebSocketFragment.messageLength_known hholds f
    have hend : WebSocketFragment.unsigned f.contentEnd = g.bytes.length := by
      rw [← hknown, g.length_bytes]
      exact WebSocketFragment.unsigned_contentEnd (int_of_lt hholds.payload) hholds
    have hne : g.bytes.length ≠ t.length := h.less.ne'
    rw [hknown] at hlength
    rw [hlength, if_pos (List.length_pos_iff.mpr g.bytes_ne_nil), h.payloadData]
    dsimp only
    rw [hend, h.fragmentLength]
    exact beq_eq_false_iff_ne.mpr hne

theorem known_known (g : Frame) (f : WebSocketFragment) (hkey : g.key = none) :
    WebSocketFragment.known g (WebSocketFragment.known g f) = WebSocketFragment.known g f := by
  simp [WebSocketFragment.known, hkey]

/-- Bytes that begin a frame are its header, or a part of it. -/
theorem header_of_prefix {x : List Byte} (h : x <+: g.bytes) :
    (x.length < g.header.length ∧ x = g.header.take x.length) ∨
      ∃ tail, x = g.header ++ tail := by
  have htake := List.prefix_iff_eq_take.mp h
  rw [Frame.bytes, List.take_append] at htake
  rcases Nat.lt_or_ge x.length g.header.length with hlt | hge
  · refine .inl ⟨hlt, ?_⟩
    rwa [Nat.sub_eq_zero_of_le hlt.le, List.take_zero, List.append_nil] at htake
  · rw [List.take_of_length_le hge] at htake
    exact .inr ⟨_, htake⟩

/-- Without the header a fragment has nothing but its bytes, and perhaps the fields of
the first of them. -/
structure Bare (f f' : WebSocketFragment) : Prop where
  fragment : f'.fragment = f.fragment
  payloadData : f'.payloadData = none
  mask : f'.mask = 0
  payloadStart : f'.payloadStart = 0

theorem bare_flagged (h : Bare f f') (k : Nat) :
    Bare f (if k = 0 then f' else WebSocketFragment.flagged g f') := by
  split
  · exact h
  · exact ⟨h.fragment, h.payloadData, h.mask, h.payloadStart⟩

/-- A header that is not whole is not found in the bytes before. -/
theorem Part.parseOwnHeader (h : Part g t f) (hstart : f.payloadStart = 0)
    (hlt : t.length < g.header.length) : Bare f f.parseOwnHeader := by
  have hbare : Bare f f := ⟨rfl, h.payloadData, h.mask, hstart⟩
  unfold WebSocketFragment.parseOwnHeader
  split
  · have htake : f.fragment.getD [] ++ ([] : List Byte).drop 0 = g.header.take t.length := by
      rcases header_of_prefix h.prefixed with ⟨-, htake⟩ | ⟨tail, htail⟩
      · rw [h.bytes, List.drop_nil, List.append_nil, ← htake]
      · rw [htail, List.length_append] at hlt
        omega
    rw [WebSocketFragment.parseHeader_short (.inr rfl) hlt htake]
    exact bare_flagged hbare _
  · exact hbare

/-- A header that is not whole is not found with the new bytes either. -/
theorem Part.findHeader_short (h : Part g t f) {aData x : List Byte} {aOffset : Nat}
    (hoffset : f.fragment = none ∨ aOffset = 0) (hx : t ++ aData.drop aOffset = x)
    (hbegins : x <+: g.bytes) (hlt : x.length < g.header.length) :
    ∃ f', f.findHeader aData aOffset = (f', false) ∧ Bare f f' := by
  have hless : t.length < g.header.length := by
    rw [← hx, List.length_append] at hlt
    omega
  have hstart : f.payloadStart = 0 := h.header.elim And.left fun hknown => by omega
  have hbare := h.parseOwnHeader hstart hless
  have htake : f.parseOwnHeader.fragment.getD [] ++ aData.drop aOffset = g.header.take x.length := by
    rw [hbare.fragment, h.bytes, hx]
    rcases header_of_prefix hbegins with ⟨-, htake⟩ | ⟨tail, htail⟩
    · exact htake
    · rw [htail, List.length_append] at hlt
      omega
  have hoffset' : f.parseOwnHeader.fragment = none ∨ aOffset = 0 := hbare.fragment ▸ hoffset
  refine ⟨_, ?_, bare_flagged (g := g) hbare x.length⟩
  have hinvalid : ¬ f.isHeaderValid = true := by simp [WebSocketFragment.isHeaderValid, hstart]
  have hinvalid' : ¬ f.parseOwnHeader.isHeaderValid = true := by
    simp [WebSocketFragment.isHeaderValid, hbare.payloadStart]
  rw [WebSocketFragment.findHeader, if_neg hinvalid]
  dsimp only
  rw [if_neg hinvalid', WebSocketFragment.parseHeader_short hoffset' hlt htake]

/-- A header that becomes whole is found, and its fields are known. -/
theorem Part.findHeader_known (h : Part g t f) {aData tail : List Byte} {aOffset : Nat}
    (hoffset : f.fragment = none ∨ aOffset = 0) (hx : t ++ aData.drop aOffset = g.header ++ tail) :
    ∃ f', f.findHeader aData aOffset = (WebSocketFragment.known g f', true) ∧
      f'.fragment = f.fragment ∧ f'.payloadData = none ∧ f'.mask = 0 := by
  rcases h.header with ⟨hstart, hless⟩ | ⟨hknown, -⟩
  · have hbare := h.parseOwnHeader hstart hless
    have hoffset' : f.parseOwnHeader.fragment = none ∨ aOffset = 0 := hbare.fragment ▸ hoffset
    have hheader : f.parseOwnHeader.fragment.getD [] ++ aData.drop aOffset = g.header ++ tail := by
      rw [hbare.fragment, h.bytes, hx]
    have hinvalid : ¬ f.isHeaderValid = true := by simp [WebSocketFragment.isHeaderValid, hstart]
    have hinvalid' : ¬ f.parseOwnHeader.isHeaderValid = true := by
      simp [WebSocketFragment.isHeaderValid, hbare.payloadStart]
    refine ⟨f.parseOwnHeader, ?_, hbare.fragment, hbare.payloadData, hbare.mask⟩
    rw [WebSocketFragment.findHeader, if_neg hinvalid]
    dsimp only
    rw [if_neg hinvalid', WebSocketFragment.parseHeader_known hoffset' hheader]
  · have hvalid : f.isHeaderValid = true := by
      have hstart : f.payloadStart = g.header.length := by
        rw [← hknown]
        rfl
      simp [WebSocketFragment.isHeaderValid, hstart, g.length_header_pos]
    refine ⟨f, ?_, rfl, h.payloadData, h.mask⟩
    rw [WebSocketFragment.findHeader, if_pos hvalid, hknown]

end Parts

/-! ### One fragment further -/

section Steps

variable {b : Begun} {g : Frame} {t aData : List Byte} {aOffset : Nat} {q : List WebSocketFragment}
  {f : WebSocketFragment} {s : WebSocket}

theorem append_known (data : List Byte) (g : Frame) (f : WebSocketFragment) :
    (WebSocketFragment.known g f).append data = WebSocketFragment.known g (f.append data) := rfl

/-- A frame can be parsed when all of its bytes are there. -/
theorem canBeParsed_known (hholds : WebSocketFragment.Holds g) (f : WebSocketFragment) :
    (WebSocketFragment.known g f).canBeParsed = decide (g.bytes.length ≤ f.fragmentLength) := by
  have hend : WebSocketFragment.unsigned (WebSocketFragment.known g f).contentEnd = g.bytes.length := by
    rw [g.length_bytes]
    exact WebSocketFragment.unsigned_contentEnd (int_of_lt hholds.payload) hholds
  have hvalid : (WebSocketFragment.known g f).isHeaderValid = true := decide_eq_true g.length_header_pos
  rw [WebSocketFragment.canBeParsed, WebSocketFragment.messageLength_known hholds,
    if_pos ⟨List.length_pos_iff.mpr g.bytes_ne_nil, hvalid⟩, hend]
  rfl

/-- Data that do not end the frame are kept. -/
theorem handleMessageData_cut (hlegal : Legal b g) (hserver : FromServer g)
    (hs : s.isInContinuation = b.isSome) (hcurrent : s.currentFragment = (q, f, t.length))
    (hpart : Part g t f) (hoffset : f.fragment = none ∨ aOffset = 0)
    (hbegins : t ++ aData.drop aOffset <+: g.bytes)
    (hless : (t ++ aData.drop aOffset).length < g.bytes.length) :
    ∃ f', s.handleMessageData arc4random aData aOffset =
        some ({ s with pendingFragments := q ++ [f'] }, none) ∧ Part g (t ++ aData.drop aOffset) f' := by
  rcases header_of_prefix hbegins with ⟨hlt, -⟩ | ⟨tail, htail⟩
  · obtain ⟨f', hfind, hbare⟩ := hpart.findHeader_short hoffset rfl hbegins hlt
    refine ⟨f'.append (aData.drop aOffset), ?_, ?_⟩
    · simp only [handleMessageData, hcurrent, hfind, if_true]
    · refine ⟨?_, hless, hbegins, hbare.payloadData, hbare.mask, .inl ⟨hbare.payloadStart, hlt⟩⟩
      rw [WebSocketFragment.append, hbare.fragment, hpart.bytes]
      rfl
  · obtain ⟨f', hfind, hfragment, hdata, hmask⟩ := hpart.findHeader_known hoffset htail
    have hvalidate : s.validate arc4random (WebSocketFragment.known g f') = s :=
      validate_legal hlegal f' hs
    have hbytes : (f'.append (aData.drop aOffset)).fragment = some (t ++ aData.drop aOffset) := by
      rw [WebSocketFragment.append, hfragment, hpart.bytes]
    have hpart' : Part g (t ++ aData.drop aOffset)
        (WebSocketFragment.known g (f'.append (aData.drop aOffset))) := by
      refine ⟨?_, hless, hbegins, hdata, ?_, .inr ⟨known_known g _ hserver.unmasked, ?_⟩⟩
      · exact congrArg (Option.getD · []) hbytes
      · simp [WebSocketFragment.known, WebSocketFragment.append, hserver.unmasked, hmask]
      · rw [htail, List.length_append]
        exact Nat.le_add_right _ _
    have hparsed : (WebSocketFragment.known g (f'.append (aData.drop aOffset))).canBeParsed = false := by
      rw [canBeParsed_known hserver.holds, WebSocketFragment.fragmentLength, hbytes]
      exact decide_eq_false (Nat.not_le.mpr hless)
    have hpossible : aData.length - aOffset = (aData.drop aOffset).length := List.length_drop.symm
    rw [List.length_append] at hless
    have hall : ¬ g.bytes.length < (aData.drop aOffset).length + t.length := by omega
    refine ⟨_, ?_, hpart'⟩
    simp only [handleMessageData, handleFragment, hcurrent, hfind, hvalidate, WebSocketFragment.messageLength_known hserver.holds,
      hpossible, if_neg (Nat.not_lt.mpr hpart.less.le), if_neg hall, Nat.sub_zero, List.take_length,
      append_known, hparsed, Bool.true_eq_false, Bool.false_eq_true, if_false, Nat.lt_irrefl, and_false,
      setContinuation, hpart'.not_valid hserver.holds]

/-- Data that end the frame make it an event, and the rest of them is left for the
next frame. -/
theorem handleMessageData_whole (hlegal : Legal b g) (hserver : FromServer g) (hq : Queued b q)
    (hs : s.isInContinuation = b.isSome) (hcurrent : s.currentFragment = (q, f, t.length))
    (hpart : Part g t f) (hoffset : f.fragment = none ∨ aOffset = 0)
    (hsmall : aData.length < 2 ^ 31) {rest : List Byte} (hx : t ++ aData.drop aOffset = g.bytes ++ rest) :
    ∃ s', s.handleMessageData arc4random aData aOffset =
        some (s', if rest = [] then none else some (g.bytes.length - t.length + aOffset)) ∧
      s'.sender = (events b g).foldl (handleEvent arc4random) s.sender ∧
      s'.isInContinuation = (after b g).isSome ∧ Queued (after b g) s'.pendingFragments := by
  have hheader : t ++ aData.drop aOffset = g.header ++ (g.masked ++ rest) := by
    rw [hx, Frame.bytes, List.append_assoc]
  obtain ⟨f', hfind, hfragment, hdata, hmask⟩ := hpart.findHeader_known hoffset hheader
  have hvalidate : s.validate arc4random (WebSocketFragment.known g f') = s := validate_legal hlegal f' hs
  have hpossible : aData.length - aOffset = (aData.drop aOffset).length := List.length_drop.symm
  have hlengths := congrArg List.length hx
  rw [List.length_append, List.length_append] at hlengths
  have hless := hpart.less
  -- what is taken of the data are the missing bytes of the frame
  have htake : t ++ (aData.drop aOffset).take (g.bytes.length - t.length) = g.bytes := by
    have hfront := congrArg (List.take g.bytes.length) hx
    rwa [List.take_append, List.take_of_length_le hless.le, List.take_left] at hfront
  obtain ⟨f'', happend⟩ : ∃ f'', f'.append ((aData.drop aOffset).take (g.bytes.length - t.length)) = f'' :=
    ⟨_, rfl⟩
  have hbytes : f''.fragment = some g.bytes := by
    rw [← happend, WebSocketFragment.append, hfragment, hpart.bytes, htake]
  have hmask'' : f''.mask = 0 := by
    rw [← happend]
    exact hmask
  have hparsed : (WebSocketFragment.known g f'').canBeParsed = true := by
    rw [canBeParsed_known hserver.holds, WebSocketFragment.fragmentLength, hbytes]
    exact decide_eq_true (Nat.le_refl _)
  have hmask' : (WebSocketFragment.known g f'').hasMask = false := by
    simp [WebSocketFragment.hasMask, WebSocketFragment.known, hserver.unmasked, hmask'']
  have hcontent : (WebSocketFragment.known g f'').parseOwnContent =
      some (WebSocketFragment.parsed g f'') := by
    have hown : (WebSocketFragment.known g f'').fragment = some g.bytes := hbytes
    have hparse := WebSocketFragment.parseContent_known hserver.holds (f := f'') hmask'' []
    rw [List.append_nil] at hparse
    rw [WebSocketFragment.parseOwnContent, hown]
    dsimp only
    rw [hparse]
    rfl
  have hvalid := WebSocketFragment.isValid_parsed hserver.holds f''
  have hhandle := handle_parsed arc4random hlegal hserver.holds hq f''
    (s := { s with pendingFragments := q ++ [WebSocketFragment.parsed g f''] }) hs rfl
  have hremainder : (if g.bytes.length < (aData.drop aOffset).length + t.length then
      (aData.drop aOffset).length - (g.bytes.length - t.length) else 0) = rest.length := by
    split <;> omega
  have hactual : (aData.drop aOffset).length - rest.length = g.bytes.length - t.length := by omega
  have hmore : (if 0 < g.bytes.length ∧ 0 < rest.length then nextOffset (g.bytes.length - t.length + aOffset)
      else none) = if rest = [] then none else some (g.bytes.length - t.length + aOffset) := by
    have hpos := List.length_pos_iff.mpr g.bytes_ne_nil
    cases rest with
    | nil => simp
    | cons byte rest =>
      -- data are left, so the offset lies inside them
      have hinside : g.bytes.length - t.length + aOffset < 2 ^ 31 := by
        rw [List.length_cons] at hlengths
        omega
      rw [nextOffset_of_lt hinside, if_pos ⟨hpos, Nat.succ_pos _⟩, if_neg (List.cons_ne_nil _ _)]
  have hfinal : (WebSocketFragment.parsed g f'').isFinal = g.fin := rfl
  refine ⟨_, ?_, hhandle⟩
  simp only [handleMessageData, handleFragment, hcurrent, hfind, hvalidate, WebSocketFragment.messageLength_known hserver.holds,
    hpossible, if_neg (Nat.not_lt.mpr hless.le), hremainder, hactual, hmore, append_known, happend, hparsed,
    hmask', hcontent, hvalid, hfinal, Bool.true_eq_false, Bool.false_eq_true, if_false, if_true, true_and,
    Option.map_some]

end Steps

/-! ### Reads -/

/-- Between the frames of `b` and the rest of `g`, of which `t` is there. -/
structure Waits (b : Begun) (g : Frame) (t : List Byte) (s : WebSocket) : Prop where
  continuation : s.isInContinuation = b.isSome
  current : ∃ q f, Queued b q ∧ s.currentFragment = (q, f, t.length) ∧ Part g t f

theorem currentFragment_queued {b : Begun} {s : WebSocket} (h : Queued b s.pendingFragments) :
    s.currentFragment = (s.pendingFragments, .init, 0) := by
  rw [currentFragment]
  cases hlast : s.pendingFragments.getLast? with
  | none => rfl
  | some f =>
    have hvalid := h.valid f (List.mem_of_getLast? hlast)
    exact if_pos hvalid

/-- A part of a frame is taken up again. -/
theorem currentFragment_part {g : Frame} {t : List Byte} {f : WebSocketFragment} (h : Part g t f)
    (hholds : WebSocketFragment.Holds g) {q : List WebSocketFragment} {s : WebSocket}
    (hpending : s.pendingFragments = q ++ [f]) : s.currentFragment = (q, f, t.length) := by
  have hvalid : ¬ f.isValid = true := by simp [h.not_valid hholds]
  simp [currentFragment, hpending, hvalid, h.fragmentLength]

/-- Between frames the socket waits for any frame that may come next. -/
theorem waits_of_queued {b : Begun} {s : WebSocket} (hs : s.isInContinuation = b.isSome)
    (hq : Queued b s.pendingFragments) (g : Frame) : Waits b g [] s :=
  ⟨hs, _, _, hq, currentFragment_queued hq, part_init g⟩

/-- A read, or the rest of one, that ends the frames `fs` and holds the first bytes
`tail` of the next. -/
theorem readLoop_legal {g : Frame} {fs : List Frame} {tail aData : List Byte}
    (hserver : ∀ h ∈ fs ++ [g], FromServer h) (hsmall : aData.length < 2 ^ 31)
    (htail : tail <+: g.bytes) (hless : tail.length < g.bytes.length) {b : Begun} {s : WebSocket} {t : List Byte}
    {q : List WebSocketFragment} {f : WebSocketFragment} {fuel offset : Nat}
    (hlegal : LegalAll b (fs ++ [g])) (hs : s.isInContinuation = b.isSome) (hq : Queued b q)
    (hcurrent : s.currentFragment = (q, f, t.length))
    (hpart : ∀ h ∈ (fs ++ [g]).head?, Part h t f) (hoffset : f.fragment = none ∨ offset = 0)
    (hx : t ++ aData.drop offset = fs.flatMap Frame.bytes ++ tail) (hfuel : fs.length < fuel) :
    ∃ s', s.readLoop arc4random aData fuel offset = .ok s' ∧
      s'.sender = (eventsAll b fs).foldl (handleEvent arc4random) s.sender ∧
      Waits (afterAll b fs) g tail s' := by
  induction fs generalizing b s t q f fuel offset with
  | nil =>
    obtain ⟨fuel, rfl⟩ := Nat.exists_eq_succ_of_ne_zero hfuel.ne'
    have hx : t ++ aData.drop offset = tail := hx
    have hserver' := hserver g List.mem_cons_self
    obtain ⟨f', hstep, hpart'⟩ := handleMessageData_cut arc4random hlegal.1 hserver' hs hcurrent
      (hpart g rfl) hoffset (hx.symm ▸ htail) (hx.symm ▸ hless)
    rw [hx] at hpart'
    have hcurrent' := currentFragment_part hpart' hserver'.holds
      (s := { s with pendingFragments := q ++ [f'] }) rfl
    refine ⟨{ s with pendingFragments := q ++ [f'] }, ?_, rfl, hs, q, f', hq, hcurrent', hpart'⟩
    rw [readLoop, hstep]
  | cons h fs ih =>
    obtain ⟨fuel, rfl⟩ := Nat.exists_eq_succ_of_ne_zero (Nat.ne_zero_of_lt hfuel)
    have hx : t ++ aData.drop offset = h.bytes ++ (fs.flatMap Frame.bytes ++ tail) := by
      rw [hx, List.flatMap_cons, List.append_assoc]
    have hpart := hpart h rfl
    obtain ⟨s', hstep, hsender, hs', hq'⟩ := handleMessageData_whole arc4random hlegal.1
      (hserver h List.mem_cons_self) hq hs hcurrent hpart hoffset hsmall hx
    have hevents : ∀ s'' : WebSocketSender, s'' = (eventsAll (after b h) fs).foldl (handleEvent arc4random) s'.sender →
        s'' = (eventsAll b (h :: fs)).foldl (handleEvent arc4random) s.sender := by
      intro s'' hs''
      rw [hs'', hsender, eventsAll, List.foldl_append]
    by_cases hrest : fs.flatMap Frame.bytes ++ tail = []
    · -- the data end with this frame
      obtain ⟨hframes, rfl⟩ := List.append_eq_nil_iff.mp hrest
      obtain rfl : fs = [] := by
        cases fs with
        | nil => rfl
        | cons h' fs => exact absurd (List.append_eq_nil_iff.mp hframes).1 h'.bytes_ne_nil
      rw [if_pos hrest] at hstep
      refine ⟨s', ?_, hevents _ rfl, waits_of_queued hs' hq' g⟩
      rw [readLoop, hstep]
    · rw [if_neg hrest] at hstep
      have hnext : ([] : List Byte) ++ aData.drop (h.bytes.length - t.length + offset) =
          fs.flatMap Frame.bytes ++ tail := by
        have hbehind := congrArg (List.drop h.bytes.length) hx
        rw [List.drop_left, List.drop_append, List.drop_eq_nil_of_le hpart.less.le, List.drop_drop] at hbehind
        rw [Nat.add_comm]
        exact hbehind
      obtain ⟨s'', hloop, hsender', hwaits⟩ := ih (fun h' hh' => hserver h' (List.mem_cons_of_mem h hh'))
        hlegal.2 hs' hq' (currentFragment_queued hq') (fun h' _ => part_init h') (.inl rfl) hnext
        (Nat.lt_of_succ_lt_succ hfuel)
      refine ⟨s'', ?_, hevents _ hsender', hwaits⟩
      rw [readLoop, hstep]
      exact hloop

/-- Where a front of a stream ends: behind the frames `fs₁`, in the frame `h`. -/
theorem front_of_stream {fs : List Frame} {g : Frame} {tail x : List Byte} (htail : tail <+: g.bytes)
    (hless : tail.length < g.bytes.length) (hx : x <+: fs.flatMap Frame.bytes ++ tail) :
    ∃ fs₁ fs₂ h more tail₁, fs = fs₁ ++ fs₂ ∧ fs₂ ++ [g] = h :: more ∧
      x = fs₁.flatMap Frame.bytes ++ tail₁ ∧ tail₁ <+: h.bytes ∧ tail₁.length < h.bytes.length := by
  induction fs generalizing x with
  | nil =>
    have hx : x <+: tail := hx
    exact ⟨[], [], g, [], x, rfl, rfl, rfl, hx.trans htail, hx.length_le.trans_lt hless⟩
  | cons f fs ih =>
    have hx : x <+: f.bytes ++ (fs.flatMap Frame.bytes ++ tail) := by
      rwa [List.flatMap_cons, List.append_assoc] at hx
    rcases Nat.lt_or_ge x.length f.bytes.length with hlt | hge
    · exact ⟨[], f :: fs, f, fs ++ [g], x, rfl, rfl, rfl,
        List.prefix_of_prefix_length_le hx (List.prefix_append _ _) hlt.le, hlt⟩
    · obtain ⟨y, rfl⟩ := List.prefix_of_prefix_length_le (List.prefix_append _ _) hx hge
      obtain ⟨fs₁, fs₂, h, more, tail₁, rfl, hsplit, rfl, hcut⟩ :=
        ih ((List.prefix_append_right_inj _).mp hx)
      refine ⟨f :: fs₁, fs₂, h, more, tail₁, rfl, hsplit, ?_, hcut⟩
      rw [List.flatMap_cons, List.append_assoc]

/-- A read ends at most one frame for each of its bytes. -/
theorem frames_le_read {fs : List Frame} {g : Frame} {t aData tail : List Byte}
    (ht : ∀ h ∈ (fs ++ [g]).head?, t.length < h.bytes.length)
    (hx : t ++ aData = fs.flatMap Frame.bytes ++ tail) : fs.length ≤ aData.length := by
  cases fs with
  | nil => exact Nat.zero_le _
  | cons h fs =>
    have hfirst := ht h rfl
    have hrest := length_le_length_bytes fs
    have hlengths := congrArg List.length hx
    simp only [List.length_append, List.flatMap_cons] at hlengths
    simp only [List.length_cons]
    omega

/-- One read: the socket has handled the frames that ended in it, and waits for the next one
with the bytes of it that were read. -/
theorem read_waits {b : Begun} {fs : List Frame} {g h : Frame} {tail t aData : List Byte} {s : WebSocket}
    (hlegal : LegalAll b (fs ++ [g])) (hserver : ∀ f ∈ fs ++ [g], FromServer f) (hsmall : aData.length < 2 ^ 31)
    (htail : tail <+: g.bytes) (hless : tail.length < g.bytes.length) (hhead : (fs ++ [g]).head? = some h)
    (hwaits : Waits b h t s) (hx : t ++ aData = fs.flatMap Frame.bytes ++ tail) :
    ∃ s', s.didReadData arc4random aData = .ok s' ∧
      s'.sender = (eventsAll b fs).foldl (handleEvent arc4random) s.sender ∧ Waits (afterAll b fs) g tail s' := by
  obtain ⟨q, f, hq, hcurrent, hpart⟩ := hwaits.current
  have hparts : ∀ f' ∈ (fs ++ [g]).head?, Part f' t f := by
    intro f' hf'
    rw [hhead] at hf'
    exact Option.some.inj hf' ▸ hpart
  have hfuel : fs.length < aData.length + 1 :=
    Nat.lt_succ_of_le (frames_le_read (fun f' hf' => (hparts f' hf').less) hx)
  exact readLoop_legal arc4random hserver hsmall htail hless hlegal hwaits.continuation hq hcurrent hparts
    (.inr rfl) (show t ++ aData.drop 0 = _ from hx) hfuel

/-- After each read the socket has handled the frames that ended in it, and waits for the
next one with the bytes of it that were read; by induction on the reads. -/
theorem reads_waits {cuts : List (List Byte)} : ∀ {b : Begun} {fs : List Frame} {g h : Frame}
    {tail t : List Byte} {s : WebSocket}, LegalAll b (fs ++ [g]) → (∀ f ∈ fs ++ [g], FromServer f) →
    (∀ aData ∈ cuts, aData.length < 2 ^ 31) → tail <+: g.bytes → tail.length < g.bytes.length →
    (fs ++ [g]).head? = some h → Waits b h t s →
    t ++ cuts.flatten = fs.flatMap Frame.bytes ++ tail →
    ∃ s', s.reads arc4random cuts = .ok s' ∧
      s'.sender = (eventsAll b fs).foldl (handleEvent arc4random) s.sender ∧ Waits (afterAll b fs) g tail s' := by
  induction cuts with
  | nil =>
    intro b fs g h tail t s hlegal hserver hsmall htail hless hhead hwaits hx
    obtain ⟨q, f, hq, hcurrent, hpart⟩ := hwaits.current
    rw [List.flatten_nil, List.append_nil] at hx
    cases fs with
    | nil =>
      obtain rfl : g = h := Option.some.inj hhead
      have hx : t = tail := hx
      exact ⟨s, rfl, rfl, hx ▸ hwaits⟩
    | cons f' fs =>
      obtain rfl : f' = h := Option.some.inj hhead
      have hlengths := congrArg List.length hx
      have hlt := hpart.less
      simp only [List.length_append, List.flatMap_cons] at hlengths
      omega
  | cons aData cuts ih =>
    intro b fs g h tail t s hlegal hserver hsmall htail hless hhead hwaits hx
    rw [List.flatten_cons, ← List.append_assoc] at hx
    -- this read ends in the frame `h₁`, behind the frames `fs₁`
    obtain ⟨fs₁, fs₂, h₁, more, tail₁, rfl, hsplit, hfront, htail₁, hless₁⟩ := front_of_stream htail hless
      (x := t ++ aData) ⟨cuts.flatten, hx⟩
    have hall : fs₁ ++ fs₂ ++ [g] = fs₁ ++ [h₁] ++ more := by
      rw [List.append_assoc, hsplit, List.append_assoc]
      rfl
    have hhead₁ : (fs₁ ++ [h₁]).head? = some h := by
      rw [hall, List.head?_append_of_ne_nil _ (by simp)] at hhead
      exact hhead
    have hlegal₁ : LegalAll b (fs₁ ++ [h₁]) := ((legalAll_append b (fs₁ ++ [h₁]) more).mp (hall ▸ hlegal)).1
    have hserver₁ : ∀ f ∈ fs₁ ++ [h₁], FromServer f := fun f hf =>
      hserver f (hall ▸ List.mem_append_left more hf)
    obtain ⟨s₁, hread, hsender, hwaits₁⟩ := read_waits arc4random hlegal₁ hserver₁
      (hsmall aData List.mem_cons_self) htail₁ hless₁ hhead₁ hwaits hfront
    have hbehind : tail₁ ++ cuts.flatten = fs₂.flatMap Frame.bytes ++ tail := by
      rw [hfront, List.flatMap_append, List.append_assoc, List.append_assoc] at hx
      exact List.append_cancel_left hx
    rw [List.append_assoc] at hlegal hserver
    obtain ⟨s', hreads, hsender', hwaits'⟩ := ih ((legalAll_append b fs₁ (fs₂ ++ [g])).mp hlegal).2
      (fun f hf => hserver f (List.mem_append_right fs₁ hf))
      (fun aData' hmem => hsmall aData' (List.mem_cons_of_mem aData hmem))
      htail hless (by rw [hsplit]; rfl) hwaits₁ hbehind
    refine ⟨s', ?_, ?_, ?_⟩
    · rw [reads, hread]
      exact hreads
    · rw [hsender', hsender, eventsAll_append, List.foldl_append]
    · rw [afterAll_append]
      exact hwaits'

/-- However a legal stream is cut into reads of less than 2 GiB, what has been handled after
them are the frames whose last byte was read. -/
theorem reads_legal (cuts : List (List Byte)) (fs : List Frame) (g : Frame) (tail : List Byte) (s : WebSocket)
    (hstart : s.isInContinuation = false ∧ s.pendingFragments = [])
    (hlegal : LegalAll none (fs ++ [g])) (hserver : ∀ f ∈ fs ++ [g], FromServer f)
    (hsmall : ∀ aData ∈ cuts, aData.length < 2 ^ 31) (htail : tail <+: g.bytes)
    (hless : tail.length < g.bytes.length)
    (hcuts : cuts.flatten = fs.flatMap Frame.bytes ++ tail) :
    ∃ s', s.reads arc4random cuts = .ok s' ∧
      s'.sender = (eventsAll none fs).foldl (handleEvent arc4random) s.sender := by
  have hq : Queued none s.pendingFragments := hstart.2 ▸ queued_none
  obtain ⟨h, hhead⟩ : ∃ h, (fs ++ [g]).head? = some h := by
    cases fs with
    | nil => exact ⟨g, rfl⟩
    | cons f fs => exact ⟨f, rfl⟩
  obtain ⟨s', hreads, hsender, -⟩ := reads_waits arc4random hlegal hserver hsmall htail hless hhead
    (waits_of_queued hstart.1 hq h) hcuts
  exact ⟨s', hreads, hsender⟩

/-- A message of three bytes, and a ping. -/
def threeBytes : Frame := ⟨true, 0, 2, none, .seven, [1, 2, 3], by decide⟩

def emptyPing : Frame := ⟨true, 0, 9, none, .seven, [], by decide⟩

theorem reads_legal_of_three : ∃ s',
    (WebSocket.mk WebSocketSender.ready false []).reads (fun _ => 0) [[0x82], [3, 1], [2, 3, 0x89]] = .ok s' ∧
    s'.sender = (eventsAll none [threeBytes]).foldl (handleEvent fun _ => 0) WebSocketSender.ready := by
  have hfirst : Legal none threeBytes := ⟨rfl, nofun, by decide, by decide⟩
  have hnext : Legal (after none threeBytes) emptyPing := ⟨rfl, by decide, nofun, nofun⟩
  have hserver : ∀ f ∈ [threeBytes] ++ [emptyPing], FromServer f :=
    List.forall_mem_cons.mpr ⟨⟨rfl, by decide⟩, List.forall_mem_singleton.mpr ⟨rfl, by decide⟩⟩
  exact reads_legal (fun _ => 0) [[0x82], [3, 1], [2, 3, 0x89]] [threeBytes] emptyPing [0x89]
    (WebSocket.mk WebSocketSender.ready false []) ⟨rfl, rfl⟩ ⟨hfirst, hnext, trivial⟩ hserver (by decide)
    (by decide) (by decide) (by decide)

end WebSocket

end Sogx
