import Sogx.Native.ChannelImpl

/-!
Publishing: `amqp_basic_publish` of `rabbitmq-c` and `Channel::BasicPublish` of
`SimpleAmqpClient`, on the channel that it got.

* `publish_sends`: the frames are sent when the outbound buffer has room for the method
  and for the properties, however long the body is.
* `published_arrives`: a message that was published is consumed with the same properties
  and the same body, whatever the largest frame, when the broker passes its content on.
* `publish_answered`: a publisher whose message can be sent takes the whole answer of the
  broker, also that to a message that could not be routed, and leaves nothing of it on its
  channel. `publish_refused`: if the message cannot be sent, the publisher waits for none.
-/

namespace Sogx.Amqp

open Sogx.Lib

/-- The loop over the body, with room for `usable` bytes in a frame. It makes no progress
without room. -/
def bodyFragments (usable_body_payload_size : Nat) : Nat → List Byte → List (List Byte)
  | _, [] => []
  | 0, _ :: _ => []
  | turns + 1, b :: body =>
    (b :: body).take usable_body_payload_size
      :: bodyFragments usable_body_payload_size turns ((b :: body).drop usable_body_payload_size)

/-- `amqp_basic_publish`, the frames that are sent. -/
def amqp_basic_publish (frame_max : Nat) (channel : Channel) (exchange routing_key : List Byte)
    (flags : BitVec 2) (p : Properties) (body : List Byte) : List Frame :=
  ⟨channel, .method ⟨.basicPublish, (0, exchange, routing_key, flags, ())⟩⟩ ::
    ⟨channel, .properties (BitVec.ofNat 64 body.length) p⟩ ::
      (bodyFragments (frame_max - (HEADER_SIZE + FOOTER_SIZE)) body.length body).map fun fragment =>
        ⟨channel, .bodyFragment fragment⟩

namespace ChannelImpl

/-- `CreateMessageReturnedException` and the wait for the `basic.ack` behind it. -/
def messageReturned (channel : Channel) (m : Method) (s : ChannelImpl) : Outcome (Unit × ChannelImpl) := do
  let (content, s) ← ReadContent channel s
  let (_, s) ← GetMethodOnChannel channel [.basicAck] s
  throw (.messageReturned m content, s)

/-- `Channel::BasicPublish`. `mandatory` is bit 0 of `flags`, and `immediate` is bit 1. -/
def BasicPublish (channel : Channel) (exchange routing_key : List Byte) (flags : BitVec 2)
    (message : Properties × List Byte) (s : ChannelImpl) : Outcome (Unit × ChannelImpl) := do
  if !s.m_is_connected then throw (.connectionClosed, s)
  let frame_max := s.outbound_buffer.length
  let ((), s) ← sendChecked (amqp_basic_publish frame_max channel exchange routing_key flags message.1 message.2) s
  let (response, s) ← GetMethodOnChannel channel [.basicAck, .basicReturn] s
  match response.method? with
  | some m => if m.id = .basicReturn then messageReturned channel m s else return ((), s)
  -- it was one of the two
  | none => return ((), s)

/-! ### The content of a published message -/

/-- No fragment is empty or too large. -/
theorem bodyFragments_nonempty {usable : Nat} (hpos : 0 < usable) : ∀ (turns : Nat) (body : List Byte),
    ∀ fragment ∈ bodyFragments usable turns body, fragment ≠ [] ∧ fragment.length ≤ usable
  | turns, [], fragment, h => by
      rw [bodyFragments] at h
      cases h
  | 0, b :: body, fragment, h => by
      rw [bodyFragments] at h
      cases h
  | turns + 1, b :: body, fragment, h => by
      rw [bodyFragments] at h
      obtain rfl | hrest := List.mem_cons.mp h
      · refine ⟨?_, List.length_take_le _ _⟩
        rw [Ne, List.take_eq_nil_iff]
        exact not_or.mpr ⟨Nat.pos_iff_ne_zero.mp hpos, List.cons_ne_nil _ _⟩
      · exact bodyFragments_nonempty hpos turns _ fragment hrest

/-- The fragments make up the body. -/
theorem flatten_bodyFragments {usable : Nat} (hpos : 0 < usable) : ∀ (turns : Nat) (body : List Byte),
    body.length ≤ turns → (bodyFragments usable turns body).flatten = body
  | turns, [], _ => by
      rw [bodyFragments]
      rfl
  | 0, b :: body, h => absurd h (Nat.not_succ_le_zero _)
  | turns + 1, b :: body, h => by
      have hless : ((b :: body).drop usable).length ≤ turns := by
        rw [List.length_drop]
        exact Nat.le_trans (Nat.sub_le_sub_left hpos _) (Nat.sub_le_of_le_add h)
      rw [bodyFragments, List.flatten_cons, flatten_bodyFragments hpos turns _ hless, List.take_append_drop]

/-- The content of a message as it is published with a largest frame. -/
def publishedContent {frame_max : Nat} (hmax : HEADER_SIZE + FOOTER_SIZE < frame_max) (p : Properties)
    (body : List Byte) (hbody : body.length < 2 ^ 64) : Content where
  properties := p
  fragments := bodyFragments (frame_max - (HEADER_SIZE + FOOTER_SIZE)) body.length body
  nonempty fragment h := (bodyFragments_nonempty (Nat.sub_pos_of_lt hmax) _ _ fragment h).1
  fits := by rwa [flatten_bodyFragments (Nat.sub_pos_of_lt hmax) _ _ (Nat.le_refl _)]

/-- Frames are sent when the outbound buffer has room for each of them. -/
theorem sendFrames_of_room : ∀ {sends : List (List Byte × Frame)},
    (∀ send ∈ sends, send.1.length < 2 ^ 31 ∧ send.2.payload.Sent ∧ send.2.payload.room ≤ send.1.length) →
      sendFrames sends = .ok ((sends.map Prod.snd).map Frame.octets).flatten
  | [], _ => rfl
  | (bytes, frame) :: sends, h => by
      obtain ⟨hlen, hsent, hroom⟩ := h (bytes, frame) List.mem_cons_self
      have hrest := sendFrames_of_room fun send hmem => h send (List.mem_cons_of_mem _ hmem)
      rw [sendFrames, sends_of_room hlen hsent hroom, hrest]
      rfl

section Published

variable {frame_max : Nat} {p : Properties} {body : List Byte}

theorem publishedContent_body (hmax : HEADER_SIZE + FOOTER_SIZE < frame_max) (hbody : body.length < 2 ^ 64) :
    (publishedContent hmax p body hbody).body = body :=
  flatten_bodyFragments (Nat.sub_pos_of_lt hmax) _ _ (Nat.le_refl _)

/-- Behind the method the content is sent, and none of its body frames is too large. -/
theorem publish_frames (hmax : HEADER_SIZE + FOOTER_SIZE < frame_max) (hbody : body.length < 2 ^ 64)
    (channel : Channel) (exchange routing_key : List Byte) (flags : BitVec 2) :
    (amqp_basic_publish frame_max channel exchange routing_key flags p body).tail
        = (publishedContent hmax p body hbody).frames channel ∧
      ∀ fragment ∈ (publishedContent hmax p body hbody).fragments,
        (Frame.octets ⟨channel, .bodyFragment fragment⟩).length ≤ frame_max := by
  constructor
  · rw [Content.frames, publishedContent_body]
    rfl
  · intro fragment h
    have hle := (bodyFragments_nonempty (Nat.sub_pos_of_lt hmax) _ _ fragment h).2
    rw [Frame.octets, length_frameOctets, Nat.add_assoc]
    exact Nat.add_le_of_le_sub (Nat.le_of_lt hmax) hle

/-- The body does not need room in the outbound buffer; the method and the properties do. -/
theorem publish_sends {sends : List (List Byte × Frame)} {channel : Channel} {exchange routing_key : List Byte}
    {flags : BitVec 2} {size : Nat} (hbuffers : ∀ send ∈ sends, send.1.length = size) (hsize : size < 2 ^ 31)
    (hframes : sends.map Prod.snd = amqp_basic_publish frame_max channel exchange routing_key flags p body)
    (hmethod : (Payload.method ⟨.basicPublish, (0, exchange, routing_key, flags, ())⟩).room ≤ size)
    (hproperties : (Payload.properties (BitVec.ofNat 64 body.length) p).room ≤ size) :
    sendFrames sends
      = .ok ((amqp_basic_publish frame_max channel exchange routing_key flags p body).map Frame.octets).flatten := by
  rw [← hframes]
  apply sendFrames_of_room
  intro send hsend
  have hmem : send.2 ∈ amqp_basic_publish frame_max channel exchange routing_key flags p body :=
    hframes ▸ List.mem_map_of_mem hsend
  rw [hbuffers send hsend]
  refine ⟨hsize, ?_⟩
  obtain hframe | hcontent := List.mem_cons.mp hmem
  · rw [hframe]
    exact ⟨trivial, hmethod⟩
  obtain hframe | hbody := List.mem_cons.mp hcontent
  · rw [hframe]
    exact ⟨trivial, hproperties⟩
  · obtain ⟨fragment, -, hframe⟩ := List.mem_map.mp hbody
    rw [← hframe]
    exact ⟨trivial, Nat.zero_le _⟩

end Published

variable {s : ChannelImpl} {coming : List Frame} {channel : Channel}

/-- If the content of a published message comes to a consumer behind a `basic.deliver`, the
consumer gets the message, whatever else comes on the connection. -/
theorem published_arrives {channelOf : Tag → Option Channel} {deliveries : Channel → List Delivery} {tag : Tag}
    {d : Delivery} {ds : List Delivery} {frame_max : Nat} {p : Properties} {body : List Byte} {publisher : Channel}
    {exchange routing_key : List Byte} {flags : BitVec 2} (hmax : HEADER_SIZE + FOOTER_SIZE < frame_max)
    (hbody : body.length < 2 ^ 64) (h : Serving s coming channelOf deliveries) (htag : channelOf tag = some channel)
    (hfirst : deliveries channel = d :: ds)
    (hpassed : (amqp_basic_publish frame_max publisher exchange routing_key flags p body).tail.map Frame.payload
      = (d.content.frames channel).map Frame.payload) :
    ∃ envelope s' coming', BasicConsumeMessage tag s = .ok (envelope, s') ∧ envelope.properties = p ∧
      envelope.body = body ∧ Serving s' coming' channelOf (Function.update deliveries channel ds) := by
  obtain ⟨s', coming', hconsume, hserving⟩ := serve_one h htag hfirst
  rw [(publish_frames hmax hbody publisher exchange routing_key flags).1, Content.frames, Content.frames,
    List.map_cons, List.map_cons, List.map_map, List.map_map] at hpassed
  obtain ⟨hheader, hfragments⟩ := List.cons.inj hpassed
  have hproperties : (publishedContent hmax p body hbody).properties = d.content.properties := by
    injection hheader
  have hinjective : Function.Injective Payload.bodyFragment := fun _ _ heq => by
    injection heq
  have hsame : (publishedContent hmax p body hbody).fragments = d.content.fragments :=
    hinjective.list_map hfragments
  refine ⟨d.envelope channel, s', coming', hconsume, hproperties.symm, ?_, hserving⟩
  change d.content.fragments.flatten = body
  rw [← hsame]
  exact publishedContent_body hmax hbody

/-- A body of 17 bytes in frames of 24 bytes at most; there is a delivery of another consumer
between the frames. -/
theorem published_arrives_of_two :
    ∃ envelope s' coming', BasicConsumeMessage [0x61] twoConsumers = .ok (envelope, s') ∧
      envelope.properties = answerProperties [] [] ∧ envelope.body = List.replicate 16 0x78 ++ [0x79] ∧
      Serving s' coming' twoConsumers.m_consumer_channel_map (Function.update twoDeliveries 1 []) :=
  published_arrives (show HEADER_SIZE + FOOTER_SIZE < 24 by decide) (Nat.le_of_ble_eq_true rfl) serving_twoConsumers
    rfl (show twoDeliveries 1 = firstDelivery :: [] from rfl)
    (show (amqp_basic_publish 24 3 [] [] 0 (answerProperties [] []) (List.replicate 16 0x78 ++ [0x79])).tail.map
        Frame.payload = (firstDelivery.content.frames 1).map Frame.payload from rfl)

/-! ### The answer to a publisher -/

/-- What the broker answers to a publisher. -/
inductive Answer where
  | acknowledged (ack : Record MethodNumber.basicAck.fields)
  | returned (m : Record MethodNumber.basicReturn.fields) (content : Content)
      (ack : Record MethodNumber.basicAck.fields)

def Answer.frames (channel : Channel) : Answer → List Frame
  | acknowledged ack => [⟨channel, .method ⟨.basicAck, ack⟩⟩]
  | returned m content ack =>
    ⟨channel, .method ⟨.basicReturn, m⟩⟩ :: (content.frames channel ++ [⟨channel, .method ⟨.basicAck, ack⟩⟩])

/-- How `BasicPublish` ends. -/
def Answer.outcome (s : ChannelImpl) : Answer → Outcome (Unit × ChannelImpl)
  | acknowledged _ => .ok ((), s)
  | returned m content _ => .error (.messageReturned ⟨.basicReturn, m⟩ (content.properties, content.body), s)

/-- Each of the frames can be built in the outbound buffer, and the socket takes it. -/
structure GoesOut (s : ChannelImpl) (frames : List Frame) : Prop where
  built : ∃ octets, sendFrames (frames.map fun frame => (s.outbound_buffer, frame)) = .ok octets
  taken : ∀ n, s.sent.length ≤ n → n < s.sent.length + frames.length → s.refused n = none

/-- Frames go out if the first one does, and the others do behind it. -/
theorem goesOut_cons {frame : Frame} {frames : List Frame} :
    GoesOut s (frame :: frames) ↔ (∃ octets, amqp_send_frame s.outbound_buffer frame = .ok octets) ∧
      s.refused s.sent.length = none ∧ GoesOut { s with sent := s.sent ++ [frame] } frames := by
  constructor
  · rintro ⟨⟨octets, hbuilt⟩, htaken⟩
    obtain ⟨sent, hframe, hbuilt⟩ := bind_eq_ok.mp hbuilt
    obtain ⟨rest, hrest, -⟩ := bind_eq_ok.mp hbuilt
    refine ⟨⟨sent, hframe⟩, htaken _ (Nat.le_refl _) (by simp), ⟨rest, hrest⟩, fun n hle hlt => ?_⟩
    simp only [List.length_append, List.length_singleton] at hle hlt
    exact htaken n (Nat.le_of_succ_le hle) (by rw [List.length_cons]; omega)
  · rintro ⟨⟨sent, hframe⟩, hfirst, ⟨rest, hrest⟩, htaken⟩
    refine ⟨⟨sent ++ rest, bind_eq_ok.mpr ⟨sent, hframe, bind_eq_ok.mpr ⟨rest, hrest, rfl⟩⟩⟩, fun n hle hlt => ?_⟩
    obtain rfl | hlater := Nat.eq_or_lt_of_le hle
    · exact hfirst
    · rw [List.length_cons] at hlt
      refine htaken n ?_ ?_
      · rw [List.length_append, List.length_singleton]
        exact hlater
      · rw [List.length_append, List.length_singleton]
        omega

/-- Frames that go out pass the check. -/
theorem sendChecked_goesOut : ∀ {frames : List Frame} {s : ChannelImpl}, GoesOut s frames →
    sendChecked frames s = .ok ((), { s with sent := s.sent ++ frames })
  | [], s, _ => by
      rw [List.append_nil]
      rfl
  | frame :: frames, s, h => by
      obtain ⟨⟨octets, hframe⟩, htaken, hrest⟩ := goesOut_cons.mp h
      rw [sendChecked, hframe, htaken]
      simp only [sendChecked_goesOut hrest, List.append_assoc, List.singleton_append]

/-- The error of the first frame that does not go out is thrown. -/
theorem sendChecked_refused : ∀ {frames : List Frame} {s : ChannelImpl}, ¬ GoesOut s frames →
    ∃ status sent, sendChecked frames s = .error (.library (some status), { s with sent := sent })
  | [], _, h => absurd ⟨⟨[], rfl⟩, fun n hle hlt => absurd hlt (Nat.not_lt.mpr hle)⟩ h
  | frame :: frames, s, h => by
      rw [sendChecked]
      cases hframe : amqp_send_frame s.outbound_buffer frame with
      | error status => exact ⟨status, _, rfl⟩
      | ok octets =>
          cases htaken : s.refused s.sent.length with
          | some status => exact ⟨status, _, rfl⟩
          | none =>
              have hrest : ¬ GoesOut { s with sent := s.sent ++ [frame] } frames := fun hrest =>
                h (goesOut_cons.mpr ⟨⟨octets, hframe⟩, htaken, hrest⟩)
              exact sendChecked_refused hrest

/-- If the message does not go out an error is thrown, and nothing was received. -/
theorem publish_refused {exchange routing_key : List Byte} {flags : BitVec 2} {message : Properties × List Byte}
    (hconnected : s.m_is_connected = true)
    (hrefused : ¬ GoesOut s
      (amqp_basic_publish s.outbound_buffer.length channel exchange routing_key flags message.1 message.2)) :
    ∃ status sent, BasicPublish channel exchange routing_key flags message s
      = .error (.library (some status), { s with sent := sent }) := by
  obtain ⟨status, sent, hchecked⟩ := sendChecked_refused hrefused
  refine ⟨status, sent, ?_⟩
  rw [BasicPublish, if_neg (by rw [hconnected]; decide)]
  simp only [bind, Except.bind, hchecked]

/-- What was sent does not matter to what is received. -/
theorem Receiving.sent (h : Receiving s coming) (sent : List Frame) : Receiving { s with sent := sent } coming :=
  ⟨h.brings, h.known, h.stays⟩

/-- There is room for the frames of a message in the outbound buffer, and the socket takes
them. -/
structure CanSend (s : ChannelImpl) (channel : Channel) (exchange routing_key : List Byte) (flags : BitVec 2)
    (message : Properties × List Byte) : Prop where
  length : s.outbound_buffer.length < 2 ^ 31
  method : (Payload.method ⟨.basicPublish, (0, exchange, routing_key, flags, ())⟩).room ≤ s.outbound_buffer.length
  properties : (Payload.properties (BitVec.ofNat 64 message.2.length) message.1).room ≤ s.outbound_buffer.length
  taken : ∀ n, s.sent.length ≤ n → n < s.sent.length +
    (amqp_basic_publish s.outbound_buffer.length channel exchange routing_key flags message.1 message.2).length →
      s.refused n = none

/-- The frames of a message that can be sent pass the check, and the state is ready for the
answer. -/
theorem CanSend.checked {exchange routing_key : List Byte} {flags : BitVec 2} {message : Properties × List Byte}
    (h : CanSend s channel exchange routing_key flags message) :
    sendChecked (amqp_basic_publish s.outbound_buffer.length channel exchange routing_key flags message.1 message.2) s
      = .ok ((), { s with sent := s.sent ++
          amqp_basic_publish s.outbound_buffer.length channel exchange routing_key flags message.1 message.2 }) := by
  have hsnd (frames : List Frame) :
      (frames.map fun frame => (s.outbound_buffer, frame)).map Prod.snd = frames := by
    rw [List.map_map]
    exact List.map_id' frames
  refine sendChecked_goesOut ⟨⟨_, publish_sends (fun send hsend => ?_) h.length (hsnd _) h.method h.properties⟩,
    h.taken⟩
  obtain ⟨frame, -, rfl⟩ := List.mem_map.mp hsend
  rfl

/-- The call ends as the answer says, in the state behind the whole of it; nothing that is
pending for others is lost. -/
theorem publish_answered {answer : Answer} {rest : List Frame} {exchange routing_key : List Byte} {flags : BitVec 2}
    {message : Properties × List Byte} (h : Receiving s coming) (hconnected : s.m_is_connected = true)
    (hsend : CanSend s channel exchange routing_key flags message) (hchannel : channel ≠ 0)
    (hknown : (s.m_open_channels channel).isSome)
    (hpending : pending s coming channel = answer.frames channel ++ rest) :
    ∃ s' coming', BasicPublish channel exchange routing_key flags message s = answer.outcome s' ∧
      Receiving s' coming' ∧ pending s' coming' channel = rest ∧
        ∀ c, c ≠ channel → c ≠ 0 → pending s' coming' c = pending s coming c := by
  have hreceiving := h.sent (s.sent ++
    amqp_basic_publish s.outbound_buffer.length channel exchange routing_key flags message.1 message.2)
  have hchecked := hsend.checked
  cases answer with
  | acknowledged ack =>
      obtain ⟨s₁, coming₁, hmethod, htakes⟩ := @take_method _ coming channel _ _ [.basicAck, .basicReturn] hreceiving
        hchannel hknown hpending rfl
      have hown := htakes.own
      refine ⟨s₁, coming₁, ?_, htakes.receiving, ?_, htakes.others⟩
      · rw [BasicPublish, hconnected]
        simp only [bind, Except.bind, hchecked, hmethod]
        rfl
      · exact (List.append_cancel_left (hpending.symm.trans hown)).symm
  | returned m content ack =>
      obtain ⟨s₁, coming₁, hmethod, htakes₁⟩ := @take_method _ coming channel _ _ [.basicAck, .basicReturn] hreceiving
        hchannel hknown hpending rfl
      have hown₁ := htakes₁.own
      have hpending₁ : pending s₁ coming₁ channel
          = content.frames channel ++ (⟨channel, .method ⟨.basicAck, ack⟩⟩ :: rest) := by
        have htail := (List.cons.inj (hpending.symm.trans hown₁)).2
        exact htail.symm.trans (List.append_assoc _ _ _)
      have hknown₁ := (htakes₁.known channel).trans hknown
      obtain ⟨s₂, coming₂, hcontent, htakes₂⟩ := take_content htakes₁.receiving hchannel hknown₁ hpending₁
      have hpending₂ := (List.append_cancel_left (hpending₁.symm.trans htakes₂.own)).symm
      obtain ⟨s₃, coming₃, hack, htakes₃⟩ := @take_method _ coming₂ channel _ _ [.basicAck] htakes₂.receiving hchannel
        ((htakes₂.known channel).trans hknown₁) hpending₂ rfl
      have htakes := (htakes₁.trans htakes₂).trans htakes₃
      refine ⟨s₃, coming₃, ?_, htakes.receiving, ?_, htakes.others⟩
      · rw [BasicPublish, hconnected]
        simp only [bind, Except.bind, hchecked, hmethod]
        change messageReturned channel ⟨.basicReturn, m⟩ s₁ = _
        rw [messageReturned, hcontent]
        simp only [bind, Except.bind, hack]
        rfl
      · exact (List.cons.inj (hpending₂.symm.trans htakes₃.own)).2.symm

/-- A message that comes back with its body in two frames, and the acknowledgement behind
it. -/
def notRouted : Answer := .returned (312, [], [], [0x6b], ()) firstDelivery.content (1, 0, ())

/-- What is behind the answer on its channel. -/
def later : Frame := ⟨1, .method ⟨.basicAck, (2, 0, ())⟩⟩

/-- The rest of the answer comes with a frame of another channel in it. -/
def comingAnswer : List Frame :=
  ((notRouted.frames 1).drop 1).take 2
    ++ (⟨2, .method ⟨.basicAck, (7, 0, ())⟩⟩ :: ((notRouted.frames 1).drop 3 ++ [later]))

/-- A publisher on channel 1 that has the `basic.return` in its queue. Its socket takes four
frames. -/
def publisher : ChannelImpl where
  m_connection := ⟨returnToIdle, [], [], comingAnswer⟩
  outbound_buffer := List.replicate 24 0
  refused n := if n < 4 then none else some .socketError
  m_consumer_channel_map _ := none
  m_open_channels channel :=
    if channel = 1 then some ((notRouted.frames 1).take 1) else if channel = 2 then some [] else none
  m_is_connected := true
  sent := []

theorem pending_publisher : pending publisher comingAnswer 1 = notRouted.frames 1 ++ [later] := rfl

theorem receiving_publisher : Receiving publisher comingAnswer := by
  have hchannels : ∀ f ∈ comingAnswer, f.channel = 1 ∨ f.channel = 2 := by
    simp [comingAnswer, notRouted, Answer.frames, Content.frames, firstDelivery, later]
  refine ⟨idle_brings comingAnswer, fun f hf _ => ?_, fun f hf hzero => ?_⟩
  · obtain hone | htwo := hchannels f hf
    · rw [hone]
      rfl
    · rw [htwo]
      rfl
  · have hne := hchannels f hf
    rw [hzero] at hne
    exact absurd hne (by decide)

/-- A message of 17 bytes. -/
def published : Properties × List Byte := (answerProperties [] [], List.replicate 16 0x78 ++ [0x79])

theorem canSend_publisher : CanSend publisher 1 [] [0x6b] 1 published where
  length := by decide
  method := by decide
  properties := by
    rw [published, Payload.room, Properties.octets, flagWords_flagsOf (distinct_properties _)]
    decide
  taken n _ hlt := if_pos hlt

theorem publish_answered_of_returned :
    ∃ s' coming', BasicPublish 1 [] [0x6b] 1 published publisher = notRouted.outcome s' ∧
      Receiving s' coming' ∧ pending s' coming' 1 = [later] ∧
        ∀ c, c ≠ 1 → c ≠ 0 → pending s' coming' c = pending publisher comingAnswer c :=
  publish_answered receiving_publisher rfl canSend_publisher (by decide) rfl pending_publisher

end ChannelImpl

end Sogx.Amqp
