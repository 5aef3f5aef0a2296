import Sogx.Native.AmqpSocket
import Mathlib.Logic.Function.Basic

/-!
`ChannelImpl` of `SimpleAmqpClient`: many channels on one connection, and the consumers
on them.

The frames of all channels come in one order. A call that waits on one channel queues
what comes on the others. What is `pending` on a channel is what is in its queue, and
what the connection will still bring on it.

* `take_next`, `take_method`: a call on a channel takes the first of its pending frames
  and leaves what is pending on the other channels.
* `deliveries_in_order`: whatever the interleaving of the channels and whatever the
  order of the calls, each call gets a delivery of its own consumer, and each consumer
  its deliveries in order, none lost and none twice.
-/

namespace Sogx.Amqp

open Sogx.Lib

abbrev Channel := BitVec 16

abbrev Tag := List Byte

/-- What `BasicConsumeMessage` returns. The message is its properties and its body. -/
structure Envelope where
  properties : Properties
  body : List Byte
  consumer_tag : Tag
  delivery_tag : BitVec 64
  exchange : List Byte
  redelivered : Bool
  routing_key : List Byte
  delivery_channel : Channel

structure ChannelImpl where
  m_connection : Connection
  /-- That of the connection; its length is `frame_max`. -/
  outbound_buffer : List Byte
  /-- The error of the socket for the frame at this place of `sent`, if it does not take it. -/
  refused : Nat → Option Status
  m_consumer_channel_map : Tag → Option Channel
  m_open_channels : Channel → Option (List Frame)
  m_is_connected : Bool
  /-- The frames that were handed to `amqp_send_frame`. -/
  sent : List Frame

/-- What is thrown. Two of them are not: with `waits` the call never returns, and with
`bodyOverrun` it has written behind the memory of the body. -/
inductive Thrown where
  | library (status : Option Status)
  | channelNotFound
  | consumerTagNotFound
  | connectionClosed
  | closedByBroker (m : Method)
  | messageReturned (m : Method) (content : Properties × List Byte)
  | unexpectedFrameType
  | bodyOverrun
  | waits

/-- What is thrown comes with the state after it, as a result does. -/
abbrev Outcome := Except (Thrown × ChannelImpl)

def Frame.method? (frame : Frame) : Option Method :=
  match frame.payload with
  | .method m => some m
  | _ => none

/-- `is_expected_method`. -/
def isExpectedMethod (expected_responses : List MethodNumber) (frame : Frame) : Bool :=
  match frame.method? with
  | some m => expected_responses.contains m.id
  | none => false

namespace ChannelImpl

/-- An upper bound of the frames that are still to come. -/
def bound (c : Connection) : Nat := c.queued.length + (c.sock ++ c.reads.flatten).length

/-- The queue of a channel, or `none` for a channel that is erased. -/
def setQueue (s : ChannelImpl) (channel : Channel) (queue : Option (List Frame)) : ChannelImpl :=
  { s with m_open_channels := Function.update s.m_open_channels channel queue }

/-- `CheckForError` of what `amqp_send_frame` returns, up to the first frame that is not
sent. -/
def sendChecked : List Frame → ChannelImpl → Outcome (Unit × ChannelImpl)
  | [], s => .ok ((), s)
  | frame :: frames, s =>
    match amqp_send_frame s.outbound_buffer frame, s.refused s.sent.length with
    | .ok _, none => sendChecked frames { s with sent := s.sent ++ [frame] }
    | .ok _, some status => .error (.library (some status), { s with sent := s.sent ++ [frame] })
    | .error status, _ => .error (.library (some status), { s with sent := s.sent ++ [frame] })

def FinishCloseChannel (channel : Channel) (s : ChannelImpl) : Outcome (Unit × ChannelImpl) :=
  sendChecked [⟨channel, .method ⟨.channelCloseOk, ()⟩⟩] (s.setQueue channel none)

/-- It is not checked whether the answer was sent. -/
def FinishCloseConnection (s : ChannelImpl) : ChannelImpl :=
  { s with m_is_connected := false, sent := s.sent ++ [⟨0, .method ⟨.connectionCloseOk, ()⟩⟩] }

def GetChannelQueueOrThrow (channel : Channel) (s : ChannelImpl) : Outcome (List Frame × ChannelImpl) :=
  match s.m_open_channels channel with
  | some queue => .ok (queue, s)
  | none => .error (.channelNotFound, s)

/-- `GetChannelQueueOrThrow(channel)->second.push_back(frame)`. -/
def pushBack (channel : Channel) (frame : Frame) (s : ChannelImpl) : Outcome (Unit × ChannelImpl) := do
  let (queue, s) ← GetChannelQueueOrThrow channel s
  return ((), s.setQueue channel (some (queue ++ [frame])))

/-- Without a timeout. -/
def GetNextFrameFromBroker (s : ChannelImpl) : Outcome (Frame × ChannelImpl) :=
  match amqp_simple_wait_frame s.m_connection with
  | .ok (some frame, c) => .ok (frame, { s with m_connection := c })
  | .ok (none, c) => .error (.waits, { s with m_connection := c })
  | .error status => .error (.library status, s)

/-- The loop of `GetNextFrameFromBrokerOnChannel`, for at most so many turns. -/
def nextFrameOnChannel (channel : Channel) : Nat → ChannelImpl → Outcome (Frame × ChannelImpl)
  | 0, s => .error (.waits, s)
  | turns + 1, s => do
    let (frame, s) ← GetNextFrameFromBroker s
    if frame.channel = channel then return (frame, s)
    if frame.channel = 0 then
      match frame.method? with
      | some m => if m.id = .connectionClose then throw (.closedByBroker m, FinishCloseConnection s)
      | none => pure ()
      nextFrameOnChannel channel turns s
    else
      let ((), s) ← pushBack frame.channel frame s
      nextFrameOnChannel channel turns s

def GetNextFrameFromBrokerOnChannel (channel : Channel) (s : ChannelImpl) : Outcome (Frame × ChannelImpl) :=
  nextFrameOnChannel channel (bound s.m_connection + 1) s

/-- `CHANNEL_CLOSE` is what a frame from the queue is looked at for. -/
def isChannelClose (frame : Frame) : Option Method :=
  match frame.method? with
  | some m => if m.id = .channelClose then some m else none
  | none => none

def GetNextFrameOnChannel (channel : Channel) (s : ChannelImpl) : Outcome (Frame × ChannelImpl) := do
  let (queue, s) ← GetChannelQueueOrThrow channel s
  match queue with
  | frame :: queue =>
    let s := s.setQueue channel (some queue)
    match isChannelClose frame with
    | some m =>
      let ((), s) ← FinishCloseChannel channel s
      throw (.closedByBroker m, s)
    | none => return (frame, s)
  | [] => GetNextFrameFromBrokerOnChannel channel s

/-- The loop of `GetMethodOnChannel`, for at most so many turns. -/
def methodOnChannel (channel : Channel) (expected_responses : List MethodNumber) :
    Nat → ChannelImpl → Outcome (Frame × ChannelImpl)
  | 0, s => .error (.waits, s)
  | turns + 1, s => do
    let (incoming_frame, s) ← GetNextFrameFromBrokerOnChannel channel s
    if isExpectedMethod expected_responses incoming_frame then return (incoming_frame, s)
    match isChannelClose incoming_frame with
    | some m =>
      let ((), s) ← FinishCloseChannel channel s
      throw (.closedByBroker m, s)
    | none => pure ()
    let ((), s) ← pushBack channel incoming_frame s
    methodOnChannel channel expected_responses turns s

def GetMethodOnChannel (channel : Channel) (expected_responses : List MethodNumber) (s : ChannelImpl) :
    Outcome (Frame × ChannelImpl) := do
  let (channel_queue, s) ← GetChannelQueueOrThrow channel s
  match channel_queue.find? (isExpectedMethod expected_responses) with
  | some frame =>
    let queue := channel_queue.eraseP (isExpectedMethod expected_responses)
    return (frame, s.setQueue channel (some queue))
  | none => methodOnChannel channel expected_responses (bound s.m_connection + 1) s

/-- The loop of `ReadContent`, for at most so many turns; `body` is what was received. -/
def readBody (channel : Channel) (body_size : Nat) : Nat → List Byte → ChannelImpl → Outcome (List Byte × ChannelImpl)
  | 0, _, s => .error (.waits, s)
  | turns + 1, body, s =>
    if body.length < body_size then do
      let (frame, s) ← GetNextFrameOnChannel channel s
      match frame.payload with
      | .bodyFragment bytes =>
        -- it is copied behind the others, into memory for `body_size`
        if body_size < body.length + bytes.length then throw (.bodyOverrun, s)
        readBody channel body_size turns (body ++ bytes) s
      | _ => throw (.unexpectedFrameType, s)
    else return (body, s)

def ReadContent (channel : Channel) (s : ChannelImpl) : Outcome ((Properties × List Byte) × ChannelImpl) := do
  let (frame, s) ← GetNextFrameOnChannel channel s
  match frame.payload with
  | .properties body_size p =>
    let queued := ((s.m_open_channels channel).getD []).length
    let (body, s) ← readBody channel body_size.toNat (queued + bound s.m_connection + 1) [] s
    return ((p, body), s)
  | _ => throw (.unexpectedFrameType, s)

def GetConsumerChannel (consumer_tag : Tag) (s : ChannelImpl) : Outcome (Channel × ChannelImpl) :=
  match s.m_consumer_channel_map consumer_tag with
  | some channel => .ok (channel, s)
  | none => .error (.consumerTagNotFound, s)

/-- The envelope of a `basic.deliver` and its content. -/
def envelopeOf (m : Method) (content : Properties × List Byte) (channel : Channel) : Option Envelope :=
  match m with
  | ⟨.basicDeliver, (consumer_tag, delivery_tag, redelivered, exchange, routing_key, ())⟩ =>
    some {
      properties := content.1, body := content.2, consumer_tag, delivery_tag, exchange
      redelivered := redelivered ≠ 0, routing_key, delivery_channel := channel }
  | _ => none

/-- `Channel::BasicConsumeMessage` without a timeout. -/
def BasicConsumeMessage (consumer_tag : Tag) (s : ChannelImpl) : Outcome (Envelope × ChannelImpl) := do
  if !s.m_is_connected then throw (.connectionClosed, s)
  let (channel, s) ← GetConsumerChannel consumer_tag s
  let (deliver, s) ← GetMethodOnChannel channel [.basicDeliver] s
  let (content, s) ← ReadContent channel s
  match deliver.method?.bind fun m => envelopeOf m content channel with
  | some envelope => return (envelope, s)
  -- it was a `basic.deliver`
  | none => throw (.unexpectedFrameType, s)

/-- Calls one after another. -/
def consumeAll : List Tag → ChannelImpl → Outcome (List Envelope × ChannelImpl)
  | [], s => .ok ([], s)
  | tag :: tags, s => do
    let (envelope, s) ← BasicConsumeMessage tag s
    let (envelopes, s) ← consumeAll tags s
    return (envelope :: envelopes, s)

/-! ### What is pending -/

/-- The frames of a channel, in its queue and among those to come. -/
def pending (s : ChannelImpl) (coming : List Frame) (channel : Channel) : List Frame :=
  (s.m_open_channels channel).getD [] ++ coming.filter fun f => f.channel = channel

/-- Frames come for channels that are there, and none closes the connection. -/
structure Receiving (s : ChannelImpl) (coming : List Frame) : Prop where
  brings : s.m_connection.Brings coming
  known : ∀ f ∈ coming, f.channel ≠ 0 → (s.m_open_channels f.channel).isSome
  stays : ∀ f ∈ coming, f.channel = 0 → ∀ m, f.method? = some m → m.id ≠ .connectionClose

/-- The frames `taken` went from what was pending on `channel`, and nothing else did. -/
structure Takes (channel : Channel) (taken : List Frame) (s : ChannelImpl) (coming : List Frame)
    (s' : ChannelImpl) (coming' : List Frame) : Prop where
  consumers : s'.m_consumer_channel_map = s.m_consumer_channel_map
  connected : s'.m_is_connected = s.m_is_connected
  known : ∀ c, (s'.m_open_channels c).isSome = (s.m_open_channels c).isSome
  receiving : Receiving s' coming'
  own : pending s coming channel = taken ++ pending s' coming' channel
  others : ∀ c, c ≠ channel → c ≠ 0 → pending s' coming' c = pending s coming c

theorem Takes.trans {channel : Channel} {taken taken' : List Frame} {s s' s'' : ChannelImpl}
    {coming coming' coming'' : List Frame} (h : Takes channel taken s coming s' coming')
    (h' : Takes channel taken' s' coming' s'' coming'') :
    Takes channel (taken ++ taken') s coming s'' coming'' where
  consumers := h'.consumers.trans h.consumers
  connected := h'.connected.trans h.connected
  known c := (h'.known c).trans (h.known c)
  receiving := h'.receiving
  own := by rw [h.own, h'.own, List.append_assoc]
  others c hc hzero := (h'.others c hc hzero).trans (h.others c hc hzero)

theorem Takes.refl {channel : Channel} {s : ChannelImpl} {coming : List Frame} (h : Receiving s coming) :
    Takes channel [] s coming s coming :=
  ⟨rfl, rfl, fun _ => rfl, h, rfl, fun _ _ _ => rfl⟩

variable {s : ChannelImpl} {coming : List Frame} {channel : Channel}

/-- Each frame takes a byte at least. -/
theorem ahead_length {input : Input} {bytes : List Byte} {fs : List Frame} (h : Ahead input bytes fs) :
    fs.length ≤ bytes.length := by
  induction h with
  | last => exact Nat.zero_le _
  | next _ _ _ hgot _ ih =>
      rw [List.length_cons, List.length_append, Nat.add_comm]
      exact Nat.add_le_add (List.length_pos_iff.mpr hgot) ih

/-- There are no more frames to come than the bound says. -/
theorem brings_length {c : Connection} {fs : List Frame} (h : c.Brings fs) : fs.length ≤ bound c := by
  obtain ⟨coming, hahead, rfl⟩ := h
  rw [List.length_append, bound]
  exact Nat.add_le_add_left (Nat.le_trans (List.length_filter_le _ _) (ahead_length hahead)) _

/-- The first frame to come is what is got from the broker. -/
theorem next_from_broker {frame : Frame} (h : Receiving s (frame :: coming)) :
    ∃ c, GetNextFrameFromBroker s = .ok (frame, { s with m_connection := c }) ∧
      Receiving { s with m_connection := c } coming := by
  obtain ⟨c, hwait, hbrings⟩ := wait_frame h.brings
  refine ⟨c, ?_, hbrings, fun f hf => h.known f (List.mem_cons_of_mem _ hf),
    fun f hf => h.stays f (List.mem_cons_of_mem _ hf)⟩
  rw [GetNextFrameFromBroker, hwait]
  rfl

theorem queue_self (s : ChannelImpl) (c : Channel) (queue : Option (List Frame)) :
    (s.setQueue c queue).m_open_channels c = queue := Function.update_self _ _ _

theorem queue_of_ne {c c' : Channel} (h : c' ≠ c) (s : ChannelImpl) (queue : Option (List Frame)) :
    (s.setQueue c queue).m_open_channels c' = s.m_open_channels c' := Function.update_of_ne h _ _

theorem isSome_setQueue {c : Channel} (h : (s.m_open_channels c).isSome) (queue : List Frame) (c' : Channel) :
    ((s.setQueue c (some queue)).m_open_channels c').isSome = (s.m_open_channels c').isSome := by
  by_cases hc : c' = c
  · rw [hc, queue_self, h]
    rfl
  · rw [queue_of_ne hc]

theorem Receiving.setQueue {c : Channel} (h : Receiving s coming) (hc : (s.m_open_channels c).isSome)
    (queue : List Frame) : Receiving (s.setQueue c (some queue)) coming :=
  ⟨h.brings, fun f hf hzero => (isSome_setQueue hc queue f.channel).trans (h.known f hf hzero), h.stays⟩

/-- A frame of another channel goes to the queue of that channel. -/
theorem push_other {frame : Frame} {queue : List Frame} (h : Receiving s coming) (hne : frame.channel ≠ channel)
    (hqueue : s.m_open_channels frame.channel = some queue) :
    pushBack frame.channel frame s = .ok ((), s.setQueue frame.channel (some (queue ++ [frame]))) ∧
      Takes channel [] s (frame :: coming) (s.setQueue frame.channel (some (queue ++ [frame]))) coming := by
  have hsome : (s.m_open_channels frame.channel).isSome := by
    rw [hqueue]
    rfl
  refine ⟨?_, rfl, rfl, isSome_setQueue hsome _, h.setQueue hsome _, ?_, fun c hc _ => ?_⟩
  · rw [pushBack, GetChannelQueueOrThrow, hqueue]
    rfl
  · rw [pending, pending, queue_of_ne hne.symm, List.filter_cons_of_neg (by simpa using hne), List.nil_append]
  · by_cases hown : c = frame.channel
    · rw [pending, pending, hown, queue_self, hqueue, List.filter_cons_of_pos (by simp)]
      simp
    · rw [pending, pending, queue_of_ne hown, List.filter_cons_of_neg (by simpa using Ne.symm hown)]

/-- A frame of channel 0 that does not close the connection is dropped. -/
theorem drop_zero {frame : Frame} (h : Receiving s coming) (hzero : frame.channel = 0) (hchannel : channel ≠ 0) :
    Takes channel [] s (frame :: coming) s coming where
  consumers := rfl
  connected := rfl
  known _ := rfl
  receiving := h
  own := by
    rw [pending, pending, List.filter_cons_of_neg (by simpa [hzero] using hchannel.symm), List.nil_append]
  others c _ hc := by
    rw [pending, pending, List.filter_cons_of_neg (by simpa [hzero] using hc.symm)]

/-- The connection of `s` matters to `pending` only by what it brings. -/
theorem takes_connection {s' : ChannelImpl} {coming' taken : List Frame} {c : Connection} {fs : List Frame}
    (h : Takes channel taken { s with m_connection := c } fs s' coming') : Takes channel taken s fs s' coming' :=
  ⟨h.consumers, h.connected, h.known, h.receiving, h.own, h.others⟩

/-- The loop queues what comes on the other channels, until a frame comes on its own. -/
theorem next_of_coming {frame : Frame} {rest : List Frame} (hchannel : channel ≠ 0) :
    ∀ (turns : Nat) (s : ChannelImpl) (coming : List Frame), coming.length < turns → Receiving s coming →
      (s.m_open_channels channel).getD [] = [] → pending s coming channel = frame :: rest →
        ∃ s' coming', nextFrameOnChannel channel turns s = .ok (frame, s') ∧
          Takes channel [frame] s coming s' coming'
  | 0, _, _, hturns, _, _, _ => absurd hturns (Nat.not_lt_zero _)
  | turns + 1, s, [], _, _, hqueue, hpending => by
      rw [pending, hqueue] at hpending
      cases hpending
  | turns + 1, s, first :: coming, hturns, h, hqueue, hpending => by
      obtain ⟨c, hbroker, hreceiving⟩ := next_from_broker h
      by_cases hown : first.channel = channel
      · have hfirst : first = frame := by
          rw [pending, hqueue, List.nil_append, List.filter_cons_of_pos (by simpa using hown)] at hpending
          exact (List.cons.inj hpending).1
        rw [hfirst] at hbroker hown
        refine ⟨{ s with m_connection := c }, coming, ?_, rfl, rfl, fun _ => rfl, hreceiving, ?_, fun c hc _ => ?_⟩
        · rw [nextFrameOnChannel, hbroker]
          simp only [bind, Except.bind, if_pos hown]
          rfl
        · rw [hfirst, pending, pending, hqueue, List.filter_cons_of_pos (by simpa using hown)]
          rfl
        · rw [hfirst, pending, pending,
            List.filter_cons_of_neg (by simpa [hown] using Ne.symm hc)]
      · by_cases hzero : first.channel = 0
        · have htakes := drop_zero hreceiving hzero hchannel
          have hpending' : pending { s with m_connection := c } coming channel = frame :: rest :=
            htakes.own.symm.trans hpending
          obtain ⟨s', coming', hnext, htakes'⟩ := next_of_coming hchannel turns { s with m_connection := c } coming
            (Nat.lt_of_succ_lt_succ hturns) hreceiving hqueue hpending'
          refine ⟨s', coming', ?_, takes_connection (htakes.trans htakes')⟩
          have hstays := h.stays first List.mem_cons_self hzero
          rw [nextFrameOnChannel, hbroker]
          simp only [bind, Except.bind, if_neg hown, if_pos hzero]
          cases hmethod : first.method? with
          | none => exact hnext
          | some m =>
              simp only [if_neg (hstays m hmethod)]
              exact hnext
        · have hsome := h.known first List.mem_cons_self hzero
          obtain ⟨queue, hfirst⟩ := Option.isSome_iff_exists.mp hsome
          obtain ⟨hpush, htakes⟩ := push_other hreceiving hown hfirst
          obtain ⟨s', coming', hnext, htakes'⟩ := next_of_coming hchannel turns _ coming
            (Nat.lt_of_succ_lt_succ hturns) htakes.receiving
            (by rw [queue_of_ne (Ne.symm hown)]; exact hqueue) (htakes.own.symm.trans hpending)
          refine ⟨s', coming', ?_, takes_connection (htakes.trans htakes')⟩
          rw [nextFrameOnChannel, hbroker]
          simp only [bind, Except.bind, if_neg hown, if_neg hzero, hpush]
          exact hnext

/-- The first frame of a queue is taken from it. -/
theorem next_from_queue {frame : Frame} {queue : List Frame} (h : Receiving s coming)
    (hqueue : s.m_open_channels channel = some (frame :: queue)) :
    Takes channel [frame] s coming (s.setQueue channel (some queue)) coming := by
  have hsome : (s.m_open_channels channel).isSome := by
    rw [hqueue]
    rfl
  refine ⟨rfl, rfl, isSome_setQueue hsome _, h.setQueue hsome _, ?_, fun c hc _ => ?_⟩
  · rw [pending, pending, queue_self, hqueue]
    rfl
  · rw [pending, pending, queue_of_ne hc]

/-- The first frame that is pending on a channel is the next one on it. -/
theorem take_next {frame : Frame} {rest : List Frame} (h : Receiving s coming) (hchannel : channel ≠ 0)
    (hknown : (s.m_open_channels channel).isSome) (hpending : pending s coming channel = frame :: rest)
    (hstays : isChannelClose frame = none) :
    ∃ s' coming', GetNextFrameOnChannel channel s = .ok (frame, s') ∧ Takes channel [frame] s coming s' coming' := by
  obtain ⟨queue, hqueue⟩ := Option.isSome_iff_exists.mp hknown
  cases queue with
  | cons first queue =>
      have hfirst : first = frame := by
        rw [pending, hqueue] at hpending
        exact (List.cons.inj hpending).1
      rw [hfirst] at hqueue
      refine ⟨s.setQueue channel (some queue), coming, ?_, next_from_queue h hqueue⟩
      rw [GetNextFrameOnChannel, GetChannelQueueOrThrow, hqueue]
      simp only [bind, Except.bind, hstays]
      rfl
  | nil =>
      obtain ⟨s', coming', hnext, htakes⟩ := next_of_coming hchannel (bound s.m_connection + 1) s coming
        (Nat.lt_succ_of_le (brings_length h.brings)) h (by rw [hqueue]; rfl) hpending
      refine ⟨s', coming', ?_, htakes⟩
      rw [GetNextFrameOnChannel, GetChannelQueueOrThrow, hqueue]
      exact hnext

/-- The next frame of a channel is taken from it if it is a method that is waited for. -/
theorem take_method {frame : Frame} {rest : List Frame} {expected_responses : List MethodNumber}
    (h : Receiving s coming) (hchannel : channel ≠ 0) (hknown : (s.m_open_channels channel).isSome)
    (hpending : pending s coming channel = frame :: rest)
    (hexpected : isExpectedMethod expected_responses frame = true) :
    ∃ s' coming', GetMethodOnChannel channel expected_responses s = .ok (frame, s') ∧
      Takes channel [frame] s coming s' coming' := by
  obtain ⟨queue, hqueue⟩ := Option.isSome_iff_exists.mp hknown
  cases queue with
  | cons first queue =>
      have hfirst : first = frame := by
        rw [pending, hqueue] at hpending
        exact (List.cons.inj hpending).1
      rw [hfirst] at hqueue
      refine ⟨s.setQueue channel (some queue), coming, ?_, next_from_queue h hqueue⟩
      rw [GetMethodOnChannel, GetChannelQueueOrThrow, hqueue]
      simp only [bind, Except.bind, List.find?_cons_of_pos hexpected, List.eraseP_cons_of_pos hexpected]
      rfl
  | nil =>
      obtain ⟨s', coming', hnext, htakes⟩ := next_of_coming hchannel (bound s.m_connection + 1) s coming
        (Nat.lt_succ_of_le (brings_length h.brings)) h (by rw [hqueue]; rfl) hpending
      refine ⟨s', coming', ?_, htakes⟩
      rw [GetMethodOnChannel, GetChannelQueueOrThrow, hqueue]
      simp only [bind, Except.bind, List.find?_nil]
      rw [methodOnChannel, GetNextFrameFromBrokerOnChannel, hnext]
      simp only [bind, Except.bind, if_pos hexpected]
      rfl

/-! ### Deliveries -/

/-- A message with its body cut into frames anyhow. -/
structure Content where
  properties : Properties
  fragments : List (List Byte)
  nonempty : ∀ fragment ∈ fragments, fragment ≠ []
  fits : fragments.flatten.length < 2 ^ 64

def Content.body (content : Content) : List Byte := content.fragments.flatten

def Content.frames (content : Content) (channel : Channel) : List Frame :=
  ⟨channel, .properties (BitVec.ofNat 64 content.body.length) content.properties⟩ ::
    content.fragments.map fun fragment => ⟨channel, .bodyFragment fragment⟩

/-- A `basic.deliver` with its content. -/
structure Delivery where
  consumer_tag : Tag
  delivery_tag : BitVec 64
  redelivered : BitVec 1
  exchange : List Byte
  routing_key : List Byte
  content : Content

namespace Delivery

def frames (d : Delivery) (channel : Channel) : List Frame :=
  ⟨channel, .method (basicDeliver d.consumer_tag d.delivery_tag d.redelivered d.exchange d.routing_key)⟩ ::
    d.content.frames channel

def envelope (d : Delivery) (channel : Channel) : Envelope where
  properties := d.content.properties
  body := d.content.body
  consumer_tag := d.consumer_tag
  delivery_tag := d.delivery_tag
  exchange := d.exchange
  redelivered := d.redelivered ≠ 0
  routing_key := d.routing_key
  delivery_channel := channel

end Delivery

theorem pending_length (s : ChannelImpl) (coming : List Frame) (channel : Channel) :
    (pending s coming channel).length ≤ ((s.m_open_channels channel).getD []).length + coming.length := by
  rw [pending, List.length_append]
  exact Nat.add_le_add_left (List.length_filter_le _ _) _

/-- The body frames that are pending are put together to the size in the header. -/
theorem read_fragments {body_size : Nat} (hchannel : channel ≠ 0) :
    ∀ (fragments : List (List Byte)) (turns : Nat) (body : List Byte) (s : ChannelImpl) (coming : List Frame)
      (rest : List Frame), fragments.length < turns → (∀ fragment ∈ fragments, fragment ≠ []) →
      body.length + fragments.flatten.length = body_size → Receiving s coming →
      (s.m_open_channels channel).isSome →
      pending s coming channel = (fragments.map fun fragment => ⟨channel, .bodyFragment fragment⟩) ++ rest →
        ∃ s' coming', readBody channel body_size turns body s = .ok (body ++ fragments.flatten, s') ∧
          Takes channel (fragments.map fun fragment => ⟨channel, .bodyFragment fragment⟩) s coming s' coming'
  | _, 0, _, _, _, _, hturns, _, _, _, _, _ => absurd hturns (Nat.not_lt_zero _)
  | [], turns + 1, body, s, coming, rest, _, _, hsize, h, _, _ => by
      refine ⟨s, coming, ?_, .refl h⟩
      have hdone : ¬ body.length < body_size := by
        rw [← hsize]
        exact Nat.lt_irrefl _
      rw [readBody, if_neg hdone, List.flatten_nil, List.append_nil]
      rfl
  | fragment :: fragments, turns + 1, body, s, coming, rest, hturns, hne, hsize, h, hknown, hpending => by
      obtain ⟨s₁, coming₁, hnext, htakes⟩ := take_next h hchannel hknown hpending rfl
      have hrest := htakes.own
      rw [hpending, List.map_cons, List.cons_append, List.singleton_append] at hrest
      have hlength : body.length + (fragment.length + fragments.flatten.length) = body_size := by
        rw [← hsize, List.flatten_cons, List.length_append]
      obtain ⟨s₂, coming₂, hread, htakes'⟩ := read_fragments hchannel fragments turns (body ++ fragment) s₁ coming₁ rest
        (Nat.lt_of_succ_lt_succ hturns) (fun f hf => hne f (List.mem_cons_of_mem _ hf))
        (by rw [List.length_append, Nat.add_assoc, hlength]) htakes.receiving
        ((htakes.known channel).trans hknown) (List.cons.inj hrest).2.symm
      refine ⟨s₂, coming₂, ?_, htakes.trans htakes'⟩
      have hpos : 0 < fragment.length := List.length_pos_iff.mpr (hne fragment List.mem_cons_self)
      have hmore : body.length < body_size := by omega
      have hroom : ¬ body_size < body.length + fragment.length := by omega
      rw [readBody, if_pos hmore, hnext]
      simp only [bind, Except.bind, if_neg hroom]
      rw [List.flatten_cons, ← List.append_assoc]
      exact hread

/-- The content that is pending is read as its properties and its body. -/
theorem take_content {content : Content} {rest : List Frame} (h : Receiving s coming) (hchannel : channel ≠ 0)
    (hknown : (s.m_open_channels channel).isSome)
    (hpending : pending s coming channel = content.frames channel ++ rest) :
    ∃ s' coming', ReadContent channel s = .ok ((content.properties, content.body), s') ∧
      Takes channel (content.frames channel) s coming s' coming' := by
  obtain ⟨s₁, coming₁, hheader, htakes₁⟩ := take_next h hchannel hknown hpending rfl
  have hown := htakes₁.own
  rw [hpending, Content.frames, List.cons_append, List.singleton_append] at hown
  have hpending₁ := (List.cons.inj hown).2.symm
  have hsize : (BitVec.ofNat 64 content.body.length).toNat = content.body.length := by
    rw [BitVec.toNat_ofNat]
    exact Nat.mod_eq_of_lt content.fits
  have hturns : content.fragments.length
      < ((s₁.m_open_channels channel).getD []).length + bound s₁.m_connection + 1 := by
    have hbound := Nat.le_trans (pending_length s₁ coming₁ channel)
      (Nat.add_le_add_left (brings_length htakes₁.receiving.brings) _)
    rw [hpending₁, List.length_append, List.length_map] at hbound
    exact Nat.lt_succ_of_le (Nat.le_trans (Nat.le_add_right _ _) hbound)
  obtain ⟨s₂, coming₂, hbody, htakes₂⟩ := read_fragments hchannel content.fragments _ [] s₁ coming₁ rest hturns
    content.nonempty (Nat.zero_add _) htakes₁.receiving ((htakes₁.known channel).trans hknown) hpending₁
  refine ⟨s₂, coming₂, ?_, htakes₁.trans htakes₂⟩
  rw [ReadContent, hheader]
  simp only [bind, Except.bind, hsize]
  rw [show content.body.length = content.fragments.flatten.length from rfl, hbody]
  rfl

/-- What is pending as a delivery is consumed as one. -/
theorem take_delivery {tag : Tag} {d : Delivery} {rest : List Frame} (h : Receiving s coming)
    (hconnected : s.m_is_connected = true) (htag : s.m_consumer_channel_map tag = some channel)
    (hchannel : channel ≠ 0) (hknown : (s.m_open_channels channel).isSome)
    (hpending : pending s coming channel = d.frames channel ++ rest) :
    ∃ s' coming', BasicConsumeMessage tag s = .ok (d.envelope channel, s') ∧
      Takes channel (d.frames channel) s coming s' coming' := by
  obtain ⟨s₁, coming₁, hmethod, htakes₁⟩ :=
    @take_method s coming channel _ _ [.basicDeliver] h hchannel hknown hpending rfl
  have hown := htakes₁.own
  rw [hpending, Delivery.frames, List.cons_append, List.singleton_append] at hown
  obtain ⟨s₂, coming₂, hcontent, htakes₂⟩ := take_content htakes₁.receiving hchannel
    ((htakes₁.known channel).trans hknown) (List.cons.inj hown).2.symm
  refine ⟨s₂, coming₂, ?_, htakes₁.trans htakes₂⟩
  rw [BasicConsumeMessage, hconnected, GetConsumerChannel, htag]
  simp only [bind, Except.bind, hmethod, hcontent]
  rfl

/-- The frames of deliveries, one after another. -/
def deliveryFrames (channel : Channel) : List Delivery → List Frame
  | [] => []
  | d :: ds => d.frames channel ++ deliveryFrames channel ds

/-- The channel of each consumer is there, and what is pending on it are deliveries. -/
structure Serving (s : ChannelImpl) (coming : List Frame) (channelOf : Tag → Option Channel)
    (deliveries : Channel → List Delivery) : Prop where
  receiving : Receiving s coming
  connected : s.m_is_connected = true
  consumers : s.m_consumer_channel_map = channelOf
  nonzero : ∀ tag c, channelOf tag = some c → c ≠ 0
  known : ∀ tag c, channelOf tag = some c → (s.m_open_channels c).isSome
  pending : ∀ tag c, channelOf tag = some c → pending s coming c = deliveryFrames c (deliveries c)

/-- A call returns the first delivery of its consumer, and takes no other. -/
theorem serve_one {channelOf : Tag → Option Channel} {deliveries : Channel → List Delivery} {tag : Tag}
    {d : Delivery} {ds : List Delivery} (h : Serving s coming channelOf deliveries)
    (htag : channelOf tag = some channel) (hfirst : deliveries channel = d :: ds) :
    ∃ s' coming', BasicConsumeMessage tag s = .ok (d.envelope channel, s') ∧
      Serving s' coming' channelOf (Function.update deliveries channel ds) := by
  have hpending := h.pending tag channel htag
  rw [hfirst] at hpending
  obtain ⟨s', coming', hconsume, htakes⟩ := take_delivery h.receiving h.connected
    (by rw [h.consumers, htag]) (h.nonzero tag channel htag) (h.known tag channel htag) hpending
  refine ⟨s', coming', hconsume, htakes.receiving, htakes.connected.trans h.connected,
    htakes.consumers.trans h.consumers, h.nonzero, fun t c ht => (htakes.known c).trans (h.known t c ht),
    fun t c ht => ?_⟩
  by_cases hc : c = channel
  · rw [hc, Function.update_self]
    exact (List.append_cancel_left (hpending.symm.trans htakes.own)).symm
  · rw [Function.update_of_ne hc, htakes.others c hc (h.nonzero t c ht)]
    exact h.pending t c ht

/-- Whatever the order in which the frames of the channels come, and whatever the order in
which the consumers are called, if no consumer is called more often than deliveries come
for it: each call gets an envelope from the channel of its consumer, each consumer gets its
deliveries in their order, and those that it did not get are still pending. -/
theorem deliveries_in_order (channelOf : Tag → Option Channel) (tags : List Tag) (s : ChannelImpl)
    (coming : List Frame) (deliveries : Channel → List Delivery) (h : Serving s coming channelOf deliveries)
    (htags : ∀ tag ∈ tags, (channelOf tag).isSome)
    (hcount : ∀ c, (tags.filter fun tag => channelOf tag = some c).length ≤ (deliveries c).length) :
    ∃ envelopes s' coming' left, consumeAll tags s = .ok (envelopes, s') ∧ Serving s' coming' channelOf left ∧
      (envelopes.map fun e => some e.delivery_channel) = tags.map channelOf ∧
      ∀ c, (deliveries c).map (Delivery.envelope · c)
        = (envelopes.filter fun e => e.delivery_channel = c) ++ (left c).map (Delivery.envelope · c) := by
  induction tags generalizing s coming deliveries with
  | nil => exact ⟨[], s, coming, deliveries, rfl, h, rfl, fun _ => rfl⟩
  | cons tag tags ih =>
      obtain ⟨channel, htag⟩ := Option.isSome_iff_exists.mp (htags tag List.mem_cons_self)
      have hfirst := hcount channel
      rw [List.filter_cons_of_pos (by simpa using htag), List.length_cons] at hfirst
      cases hdeliveries : deliveries channel with
      | nil =>
          rw [hdeliveries] at hfirst
          exact absurd hfirst (Nat.not_succ_le_zero _)
      | cons d ds =>
          obtain ⟨s₁, coming₁, hconsume, hserving⟩ := serve_one h htag hdeliveries
          have hcount' (c : Channel) : (tags.filter fun tag => channelOf tag = some c).length
              ≤ (Function.update deliveries channel ds c).length := by
            by_cases hc : c = channel
            · rw [hdeliveries] at hfirst
              rw [hc, Function.update_self]
              exact Nat.le_of_succ_le_succ hfirst
            · have hother := hcount c
              rw [List.filter_cons_of_neg (by simpa [htag] using Ne.symm hc)] at hother
              rwa [Function.update_of_ne hc]
          obtain ⟨envelopes, s', coming', left, hrun, hserving', hown, hall⟩ := ih s₁ coming₁ _ hserving
            (fun t ht => htags t (List.mem_cons_of_mem _ ht)) hcount'
          refine ⟨d.envelope channel :: envelopes, s', coming', left, ?_, hserving', ?_, fun c => ?_⟩
          · rw [consumeAll, hconsume]
            simp only [bind, Except.bind, hrun]
            rfl
          · rw [List.map_cons, List.map_cons, hown, htag]
            rfl
          · have hrest := hall c
            by_cases hc : c = channel
            · rw [hc, Function.update_self] at hrest
              rw [hc, hdeliveries, List.map_cons, hrest, List.filter_cons_of_pos (by simp [Delivery.envelope])]
              rfl
            · rw [Function.update_of_ne hc] at hrest
              rw [hrest, List.filter_cons_of_neg (by simpa [Delivery.envelope] using Ne.symm hc)]

/-- A connection that waits for a frame brings what is queued. -/
theorem idle_brings (queued : List Frame) : Connection.Brings ⟨returnToIdle, [], [], queued⟩ queued :=
  ⟨[], .last (sized_frameOctets (show (frameOctets AMQP_FRAME_HEARTBEAT 0 []).length < 2 ^ 32 by decide)) (.held [])
    rfl nofun, (List.append_nil _).symm⟩

/-- A delivery with a body in two frames, and one without a body. -/
def firstDelivery : Delivery :=
  ⟨[0x61], 1, 0, [], [], answerProperties [] [], [List.replicate 16 0x78, [0x79]], by simp, by simp⟩

def secondDelivery : Delivery := ⟨[0x62], 1, 0, [], [], answerProperties [] [], [], nofun, by simp⟩

/-- Two consumers; all of the second delivery comes inside the first one. -/
def interleaved : List Frame :=
  (firstDelivery.frames 1).take 1 ++ (secondDelivery.frames 2 ++ (firstDelivery.frames 1).drop 1)

def twoConsumers : ChannelImpl where
  m_connection := ⟨returnToIdle, [], [], interleaved⟩
  outbound_buffer := List.replicate 24 0
  refused _ := none
  m_consumer_channel_map tag := if tag = [0x61] then some 1 else if tag = [0x62] then some 2 else none
  m_open_channels channel := if channel = 1 ∨ channel = 2 then some [] else none
  m_is_connected := true
  sent := []

def twoDeliveries (channel : Channel) : List Delivery :=
  if channel = 1 then [firstDelivery] else if channel = 2 then [secondDelivery] else []

theorem serving_twoConsumers :
    Serving twoConsumers interleaved twoConsumers.m_consumer_channel_map twoDeliveries := by
  have hchannels : ∀ f ∈ interleaved, f.channel = 1 ∨ f.channel = 2 := by
    simp [interleaved, Delivery.frames, Content.frames, firstDelivery, secondDelivery]
  have hcases {tag : Tag} {c : Channel} (h : twoConsumers.m_consumer_channel_map tag = some c) : c = 1 ∨ c = 2 := by
    simp only [twoConsumers] at h
    split at h
    · exact .inl (Option.some.inj h).symm
    · split at h
      · exact .inr (Option.some.inj h).symm
      · cases h
  refine ⟨⟨idle_brings interleaved, fun f hf _ => ?_, fun f hf hzero => ?_⟩, rfl, rfl, fun tag c h => ?_,
    fun tag c h => ?_, fun tag c h => ?_⟩
  · simp only [twoConsumers, if_pos (hchannels f hf)]
    rfl
  · have hne := hchannels f hf
    rw [hzero] at hne
    exact absurd hne (by decide)
  · obtain rfl | rfl := hcases h
    · decide
    · decide
  · simp only [twoConsumers, if_pos (hcases h)]
    rfl
  · obtain rfl | rfl := hcases h
    · rfl
    · rfl

/-- The second consumer is called first. -/
theorem deliveries_in_order_of_two :
    ∃ envelopes s' coming' left, consumeAll [[0x62], [0x61]] twoConsumers = .ok (envelopes, s') ∧
      Serving s' coming' twoConsumers.m_consumer_channel_map left ∧
      (envelopes.map fun e => some e.delivery_channel) = [some 2, some 1] ∧
      ∀ c, (twoDeliveries c).map (Delivery.envelope · c)
        = (envelopes.filter fun e => e.delivery_channel = c) ++ (left c).map (Delivery.envelope · c) :=
  deliveries_in_order twoConsumers.m_consumer_channel_map [[0x62], [0x61]] twoConsumers interleaved twoDeliveries
    serving_twoConsumers
    (by
      intro tag htag
      obtain rfl | rfl : tag = [0x62] ∨ tag = [0x61] := by simpa using htag
      · rfl
      · rfl)
    (by
      intro c
      by_cases h1 : c = 1
      · rw [h1]
        decide
      · by_cases h2 : c = 2
        · rw [h2]
          decide
        · have hnone : ([[0x62], [0x61]] : List Tag).filter (fun tag => twoConsumers.m_consumer_channel_map tag = some c)
              = [] := by
            rw [List.filter_eq_nil_iff]
            intro tag htag
            obtain rfl | rfl : tag = [0x62] ∨ tag = [0x61] := by simpa using htag
            · simpa [twoConsumers] using Ne.symm h2
            · simpa [twoConsumers] using Ne.symm h1
          rw [hnone]
          exact Nat.zero_le _)

end ChannelImpl

end Sogx.Amqp
