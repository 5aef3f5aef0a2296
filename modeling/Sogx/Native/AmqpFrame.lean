import Sogx.Lib.Loop
import Sogx.Native.AmqpProperties

/-!
`amqp_connection.c` of `rabbitmq-c`: frames, as they are sent and as they are put
together from what is received.

An error `none` stands for what C leaves undefined: a read behind the end of a frame,
or a size that wraps around.

* `sends_octets`: what `amqp_send_frame` sends for a frame, and when.
* `Reading.part`, `Reading.whole`: `amqp_handle_input` on a part of a frame and on the
  rest of it. A connection reads its first frame with a 0 for the first byte of the
  payload, so that has to be one; it is in the frame of a method (`canBeFirst_method`).
-/

namespace Sogx.Amqp

open Sogx.Lib Sogx.Lib.Buffer

def HEADER_SIZE : Nat := 7
def FOOTER_SIZE : Nat := 1

def AMQP_FRAME_METHOD : Nat := 1
def AMQP_FRAME_HEADER : Nat := 2
def AMQP_FRAME_BODY : Nat := 3
def AMQP_FRAME_HEARTBEAT : Nat := 8
def AMQP_FRAME_END : Byte := 206

/-- "AMQP". -/
def protocolName : List Byte := [0x41#8, 0x4D#8, 0x51#8, 0x50#8]

inductive Payload where
  | protocolHeader (transport_high transport_low protocol_version_major protocol_version_minor : Byte)
  | method (m : Method)
  | properties (body_size : BitVec 64) (p : Properties)
  | bodyFragment (bytes : List Byte)
  | heartbeat

/-- `amqp_frame_t`. A frame of type 0 is none. -/
structure Frame where
  channel : BitVec 16
  payload : Payload

/-! ### Sending -/

/-- A frame around its payload. -/
def frameOctets (frame_type : Nat) (channel : BitVec 16) (payload : List Byte) : List Byte :=
  toBE 1 frame_type ++ (toBE 2 channel.toNat ++ (toBE 4 payload.length ++ (payload ++ [AMQP_FRAME_END])))

/-- A negative offset is returned like any other error. -/
def sentLength (res : Encoded) : Except Status Nat :=
  if res.res < 0 then .error (.offset res.res) else .ok res.res.toNat

/-- `amqp_send_frame`, what goes to the socket. `bytes` is the outbound buffer. -/
def amqp_send_frame (bytes : List Byte) (frame : Frame) : Except Status (List Byte) :=
  match frame.payload with
  | .bodyFragment body => .ok (frameOctets AMQP_FRAME_BODY frame.channel body)
  | .method m => do
    let len := bytes.length - HEADER_SIZE - 4 - FOOTER_SIZE
    let res ← amqp_encode_method m ((bytes.drop (HEADER_SIZE + 4)).take len)
    let length ← sentLength res
    return frameOctets AMQP_FRAME_METHOD frame.channel (toBE 4 m.id.code ++ res.encoded.take length)
  | .properties body_size p => do
    let len := bytes.length - HEADER_SIZE - 12 - FOOTER_SIZE
    let res ← amqp_encode_properties p ((bytes.drop (HEADER_SIZE + 12)).take len)
    let length ← sentLength res
    return frameOctets AMQP_FRAME_HEADER frame.channel
      (toBE 2 p.class_id.code ++ (toBE 2 0 ++ (toBE 8 body_size.toNat ++ res.encoded.take length)))
  | .heartbeat => .ok (frameOctets AMQP_FRAME_HEARTBEAT frame.channel [])
  | .protocolHeader .. => .error .invalidParameter

/-- The payload of a frame that can be sent. -/
def Payload.octets : Payload → List Byte
  | .method m => toBE 4 m.id.code ++ m.octets
  | .properties body_size p => toBE 2 p.class_id.code ++ (toBE 2 0 ++ (toBE 8 body_size.toNat ++ p.octets))
  | .bodyFragment bytes => bytes
  | .heartbeat => []
  | .protocolHeader .. => []

def Payload.frameType : Payload → Nat
  | .method _ => AMQP_FRAME_METHOD
  | .properties _ _ => AMQP_FRAME_HEADER
  | .bodyFragment _ => AMQP_FRAME_BODY
  | .heartbeat => AMQP_FRAME_HEARTBEAT
  | .protocolHeader .. => 0

def Frame.octets (f : Frame) : List Byte := frameOctets f.payload.frameType f.channel f.payload.octets

/-- The room that a frame needs in an outbound buffer; a body needs none. -/
def Payload.room : Payload → Nat
  | .method m => HEADER_SIZE + 4 + m.octets.length + FOOTER_SIZE
  | .properties _ p => HEADER_SIZE + 12 + p.octets.length + FOOTER_SIZE
  | _ => 0

def Payload.Sent : Payload → Prop
  | .protocolHeader .. => False
  | _ => True

/-- What an encoder has written below 2 GiB is sent, all of it. -/
theorem Writes.sent {f : Outbound → Except Status Outbound} {xs encoded : List Byte} (hf : Writes f xs)
    (hlen : encoded.length < 2 ^ 31) {res : Encoded} (h : encodeFrom f encoded = .ok res) :
    sentLength res = .ok xs.length ∧ res.encoded.take xs.length = xs := by
  by_cases hroom : xs.length ≤ encoded.length
  · rw [hf.returned hroom hlen] at h
    cases h
    refine ⟨?_, List.take_left⟩
    rw [sentLength, if_neg (Int.not_lt.mpr (Int.natCast_nonneg _)), Int.toNat_natCast]
  · obtain ⟨error, herror⟩ := hf.not_returned hroom
    exact absurd (h.symm.trans herror) nofun

/-- The part of an outbound buffer that an encoder gets. -/
theorem length_part_lt {bytes : List Byte} (hlen : bytes.length < 2 ^ 31) (skipped n : Nat) :
    ((bytes.drop skipped).take n).length < 2 ^ 31 := by
  rw [List.length_take, List.length_drop]
  exact Nat.lt_of_le_of_lt (Nat.le_trans (Nat.min_le_right _ _) (Nat.sub_le _ _)) hlen

/-- What is sent for a frame is the frame. -/
theorem sends_octets {bytes sent : List Byte} {frame : Frame} (hlen : bytes.length < 2 ^ 31)
    (h : amqp_send_frame bytes frame = .ok sent) : frame.payload.Sent ∧ sent = frame.octets := by
  obtain ⟨channel, payload⟩ := frame
  cases payload with
  | protocolHeader th tl major minor => cases h
  | heartbeat =>
      cases h
      exact ⟨trivial, rfl⟩
  | bodyFragment body =>
      cases h
      exact ⟨trivial, rfl⟩
  | method m =>
      refine ⟨trivial, ?_⟩
      simp only [amqp_send_frame] at h
      obtain ⟨res, hres, h⟩ := bind_eq_ok.mp h
      obtain ⟨hlength, htake⟩ := (writes_fields m.id.fields m.decoded).sent (length_part_lt hlen _ _) hres
      obtain ⟨length, hlength', h⟩ := bind_eq_ok.mp h
      cases hlength.symm.trans hlength'
      cases h
      rw [htake]
      rfl
  | properties body_size p =>
      refine ⟨trivial, ?_⟩
      simp only [amqp_send_frame] at h
      obtain ⟨res, hres, h⟩ := bind_eq_ok.mp h
      obtain ⟨hlength, htake⟩ := (writes_properties p).sent (length_part_lt hlen _ _) hres
      obtain ⟨length, hlength', h⟩ := bind_eq_ok.mp h
      cases hlength.symm.trans hlength'
      cases h
      rw [htake]
      rfl

/-- A frame is sent whenever the outbound buffer has room for it. -/
theorem sends_of_room {bytes : List Byte} {frame : Frame} (hlen : bytes.length < 2 ^ 31)
    (hsent : frame.payload.Sent) (hroom : frame.payload.room ≤ bytes.length) :
    amqp_send_frame bytes frame = .ok frame.octets := by
  obtain ⟨channel, payload⟩ := frame
  cases payload with
  | protocolHeader th tl major minor => exact hsent.elim
  | heartbeat => rfl
  | bodyFragment body => rfl
  | method m =>
      have hfits : m.octets.length
          ≤ ((bytes.drop (HEADER_SIZE + 4)).take (bytes.length - HEADER_SIZE - 4 - FOOTER_SIZE)).length := by
        simp only [Payload.room, HEADER_SIZE, FOOTER_SIZE] at hroom
        rw [List.length_take, List.length_drop, HEADER_SIZE, FOOTER_SIZE]
        omega
      have hwrites := writes_fields m.id.fields m.decoded
      have hwritten := hwrites.returned hfits (length_part_lt hlen _ _)
      obtain ⟨hlength, htake⟩ := hwrites.sent (length_part_lt hlen _ _) hwritten
      simp only [amqp_send_frame, amqp_encode_method, hwritten, bind, Except.bind, hlength, htake]
      rfl
  | properties body_size p =>
      have hfits : p.octets.length
          ≤ ((bytes.drop (HEADER_SIZE + 12)).take (bytes.length - HEADER_SIZE - 12 - FOOTER_SIZE)).length := by
        simp only [Payload.room, HEADER_SIZE, FOOTER_SIZE] at hroom
        rw [List.length_take, List.length_drop, HEADER_SIZE, FOOTER_SIZE]
        omega
      have hwritten := (writes_properties p).returned hfits (length_part_lt hlen _ _)
      obtain ⟨hlength, htake⟩ := (writes_properties p).sent (length_part_lt hlen _ _) hwritten
      simp only [amqp_send_frame, amqp_encode_properties, hwritten, bind, Except.bind, hlength, htake]
      rfl

/-! ### Receiving -/

/-- `amqp_connection_state_enum`. -/
inductive ConnectionState where
  | idle | initial | header | body
deriving DecidableEq, Repr

/-- `inbound` is what stands in `inbound_buffer` up to `inbound_offset`. -/
structure Input where
  state : ConnectionState
  inbound : List Byte
  target_size : Nat
deriving DecidableEq, Repr

/-- The input of `amqp_new_connection`. -/
def newInput : Input := ⟨.initial, [], 8⟩

/-- `return_to_idle`. -/
def returnToIdle : Input := ⟨.idle, [], HEADER_SIZE⟩

/-- `consume_data`, with the number of bytes it takes. -/
def consumeData (input : Input) (received : List Byte) : Input × Nat :=
  let bytes_consumed := min (input.target_size - input.inbound.length) received.length
  ({ input with inbound := input.inbound ++ received.take bytes_consumed }, bytes_consumed)

/-- The size of the whole frame, as its header says; the sum is made in 32 bits. -/
def targetSize (raw_frame : List Byte) : Nat :=
  (ofBE ((raw_frame.drop 3).take 4) + HEADER_SIZE + FOOTER_SIZE) % 2 ^ 32

def decodePayload (frame_type : Nat) (payload : List Byte) : Except (Option Status) (Option Payload) :=
  if frame_type = AMQP_FRAME_METHOD then
    if payload.length < 4 then .error none
    else do
      let m ← amqp_decode_method (ofBE (payload.take 4)) (payload.drop 4)
      return some (.method m)
  else if frame_type = AMQP_FRAME_HEADER then
    if payload.length < 12 then .error none
    else do
      let p ← amqp_decode_properties (ofBE (payload.take 2)) (payload.drop 12)
      return some (.properties (BitVec.ofNat 64 (ofBE ((payload.drop 4).take 8))) p)
  else if frame_type = AMQP_FRAME_BODY then return some (.bodyFragment payload)
  else if frame_type = AMQP_FRAME_HEARTBEAT then return some .heartbeat
  else return none

/-- The case `CONNECTION_STATE_BODY`. -/
def handleBody (input : Input) (bytes_consumed : Nat) : Except (Option Status) (Option Frame × Input × Nat) :=
  if input.inbound[input.target_size - 1]? ≠ some AMQP_FRAME_END then .error (some .badAmqpData)
  else do
    let payload := (input.inbound.drop HEADER_SIZE).take (input.target_size - HEADER_SIZE - FOOTER_SIZE)
    let decoded ← decodePayload (ofBE (input.inbound.take 1)) payload
    let channel := BitVec.ofNat 16 (ofBE ((input.inbound.drop 1).take 2))
    return (decoded.map fun payload => ⟨channel, payload⟩, returnToIdle, bytes_consumed)

/-- The case `CONNECTION_STATE_HEADER`. The header is copied to a new buffer of zeros; a
byte behind it is not. -/
def handleHeader (input : Input) (received : List Byte) (bytes_consumed : Nat) :
    Except (Option Status) (Option Frame × Input × Nat) :=
  let target_size := targetSize input.inbound
  if target_size < HEADER_SIZE ∨ target_size < input.inbound.length ∧ received ≠ [] then .error none
  else
    let buffer := input.inbound.take HEADER_SIZE ++ List.replicate (input.inbound.length - HEADER_SIZE) 0#8
    let (input, taken) := consumeData ⟨.body, buffer, target_size⟩ received
    if input.inbound.length < input.target_size then .ok (none, input, bytes_consumed + taken)
    else handleBody input (bytes_consumed + taken)

def amqp_handle_input (input : Input) (received_data : List Byte) :
    Except (Option Status) (Option Frame × Input × Nat) :=
  if received_data = [] then .ok (none, input, 0)
  else
    let state := if input.state = .idle then .header else input.state
    let (input, bytes_consumed) := consumeData { input with state := state } received_data
    if input.inbound.length < input.target_size then .ok (none, input, bytes_consumed)
    else
      match input.state with
      | .initial =>
        if input.inbound.take 4 = protocolName then
          match input.inbound.drop 4 with
          | [th, tl, major, minor] => .ok (some ⟨0, .protocolHeader th tl major minor⟩, returnToIdle, bytes_consumed)
          | _ => .error none
        else handleHeader input (received_data.drop bytes_consumed) bytes_consumed
      | .header => handleHeader input (received_data.drop bytes_consumed) bytes_consumed
      | .body => handleBody input bytes_consumed
      -- it was left above
      | .idle => .error none

/-! ### A frame in pieces -/

/-- What the input is after the bytes `pre` of a frame. -/
def held (pre : List Byte) : Input :=
  if pre = [] then returnToIdle
  else if pre.length < HEADER_SIZE then ⟨.header, pre, HEADER_SIZE⟩
  else ⟨.body, pre, targetSize pre⟩

/-- The size in a frame is its size. -/
structure Sized (w : List Byte) : Prop where
  least : HEADER_SIZE + FOOTER_SIZE ≤ w.length
  size : targetSize w = w.length

/-- A frame that can be the first of a connection. -/
structure CanBeFirst (w : List Byte) : Prop where
  zero : w[7]? = some 0#8
  other : w.take 4 ≠ protocolName

/-- The input after the bytes `pre` of the frame `w`. -/
inductive Reading (w : List Byte) : Input → List Byte → Prop
  | held (pre : List Byte) : Reading w (held pre) pre
  | initial {pre : List Byte} : pre.length < 8 → CanBeFirst w → Reading w ⟨.initial, pre, 8⟩ pre

theorem targetSize_append {w : List Byte} (hw : HEADER_SIZE ≤ w.length) (rest : List Byte) :
    targetSize (w ++ rest) = targetSize w := by
  rw [HEADER_SIZE] at hw
  have hdrop : (w ++ rest).drop 3 = w.drop 3 ++ rest := by
    rw [List.drop_append_of_le_length (Nat.le_trans (by decide) hw)]
  have htake : (w.drop 3 ++ rest).take 4 = (w.drop 3).take 4 := by
    refine List.take_append_of_le_length ?_
    rw [List.length_drop]
    exact Nat.le_sub_of_add_le hw
  rw [targetSize, hdrop, htake, targetSize]

/-- Less than what is missing is taken as a whole. -/
theorem consumeData_short {input : Input} {received : List Byte}
    (h : input.inbound.length + received.length < input.target_size) :
    consumeData input received = ({ input with inbound := input.inbound ++ received }, received.length) := by
  have hmin : min (input.target_size - input.inbound.length) received.length = received.length :=
    Nat.min_eq_right (by omega)
  simp only [consumeData, hmin, List.take_length]

/-- What is missing is taken, and the rest is left. -/
theorem consumeData_full {input : Input} {got more : List Byte}
    (h : input.inbound.length + got.length = input.target_size) :
    consumeData input (got ++ more) = ({ input with inbound := input.inbound ++ got }, got.length) := by
  have hmin : min (input.target_size - input.inbound.length) (got ++ more).length = got.length := by
    rw [List.length_append, ← h, Nat.add_sub_cancel_left]
    exact Nat.min_eq_left (Nat.le_add_right _ _)
  simp only [consumeData, hmin, List.take_left]

theorem held_of_long {pre : List Byte} (h : HEADER_SIZE ≤ pre.length) : held pre = ⟨.body, pre, targetSize pre⟩ := by
  have hne : pre ≠ [] := by
    rintro rfl
    exact absurd h (by decide)
  rw [held, if_neg hne, if_neg (Nat.not_lt.mpr h)]

theorem held_of_short {pre : List Byte} (hne : pre ≠ []) (h : pre.length < HEADER_SIZE) :
    held pre = ⟨.header, pre, HEADER_SIZE⟩ := by
  rw [held, if_neg hne, if_pos h]

section Pieces

variable {w pre got rest more : List Byte}

/-- The second half of a turn: the header `pre` is whole, and the body has come in part. -/
theorem handleHeader_part {state : ConnectionState} {target n : Nat} (hw : Sized w) (hlen : HEADER_SIZE ≤ pre.length)
    (hzero : pre.drop HEADER_SIZE = List.replicate (pre.length - HEADER_SIZE) 0#8)
    (hsplit : pre ++ got ++ rest = w) (hrest : rest ≠ []) :
    handleHeader ⟨state, pre, target⟩ got n = .ok (none, held (pre ++ got), n + got.length) := by
  have hsize : targetSize pre = w.length := by
    rw [← hw.size, ← hsplit, List.append_assoc, targetSize_append hlen]
  have hlength : pre.length + got.length < w.length := by
    rw [← hsplit, List.length_append, List.length_append]
    exact Nat.lt_add_of_pos_right (List.length_pos_iff.mpr hrest)
  have hbuffer : pre.take HEADER_SIZE ++ List.replicate (pre.length - HEADER_SIZE) 0#8 = pre := by
    rw [← hzero, List.take_append_drop]
  have hle : pre.length ≤ w.length := Nat.le_of_lt (Nat.lt_of_le_of_lt (Nat.le_add_right _ _) hlength)
  have hnot : ¬ (w.length < HEADER_SIZE ∨ w.length < pre.length ∧ got ≠ []) := by
    rintro (hless | ⟨hless, -⟩)
    · exact Nat.not_lt.mpr (Nat.le_trans hlen hle) hless
    · exact Nat.not_lt.mpr hle hless
  have hheld : held (pre ++ got) = ⟨.body, pre ++ got, w.length⟩ := by
    rw [held_of_long (by rw [List.length_append]; exact Nat.le_trans hlen (Nat.le_add_right _ _)),
      targetSize_append hlen, hsize]
  rw [handleHeader]
  simp only [hsize, if_neg hnot, hbuffer]
  rw [consumeData_short hlength]
  simp only [List.length_append, if_pos hlength, hheld]

/-- With the rest of the frame the body is decoded. -/
theorem handleHeader_whole {state : ConnectionState} {target n : Nat} (hw : Sized w) (hlen : HEADER_SIZE ≤ pre.length)
    (hzero : pre.drop HEADER_SIZE = List.replicate (pre.length - HEADER_SIZE) 0#8) (hsplit : pre ++ got = w) :
    handleHeader ⟨state, pre, target⟩ (got ++ more) n = handleBody ⟨.body, w, w.length⟩ (n + got.length) := by
  have hsize : targetSize pre = w.length := by
    rw [← hw.size, ← hsplit, targetSize_append hlen]
  have hlength : pre.length + got.length = w.length := by
    rw [← hsplit, List.length_append]
  have hbuffer : pre.take HEADER_SIZE ++ List.replicate (pre.length - HEADER_SIZE) 0#8 = pre := by
    rw [← hzero, List.take_append_drop]
  have hle : pre.length ≤ w.length := hlength ▸ Nat.le_add_right _ _
  have hnot : ¬ (w.length < HEADER_SIZE ∨ w.length < pre.length ∧ got ++ more ≠ []) := by
    rintro (hless | ⟨hless, -⟩)
    · exact Nat.not_lt.mpr (Nat.le_trans hlen hle) hless
    · exact Nat.not_lt.mpr hle hless
  rw [handleHeader]
  simp only [hsize, if_neg hnot, hbuffer]
  rw [consumeData_full hlength]
  simp only [hsplit, Nat.lt_irrefl, if_false]

theorem handle_long {received : List Byte} (hne : received ≠ []) (hlen : HEADER_SIZE ≤ pre.length) :
    amqp_handle_input (held pre) received
      = let (input, n) := consumeData ⟨.body, pre, targetSize pre⟩ received
        if input.inbound.length < input.target_size then .ok (none, input, n) else handleBody input n := by
  rw [amqp_handle_input, if_neg hne, held_of_long hlen]
  rfl

theorem handle_short {received : List Byte} (hne : received ≠ []) (hlen : pre.length < HEADER_SIZE) :
    amqp_handle_input (held pre) received
      = let (input, n) := consumeData ⟨.header, pre, HEADER_SIZE⟩ received
        if input.inbound.length < input.target_size then .ok (none, input, n)
        else handleHeader input (received.drop n) n := by
  rw [amqp_handle_input, if_neg hne]
  by_cases hpre : pre = []
  · rw [hpre]
    rfl
  · rw [held_of_short hpre hlen]
    rfl

/-- The byte that the look for a protocol header loses is a 0. -/
theorem CanBeFirst.drop (h : CanBeFirst w) (hlen : pre.length = 8) (hsplit : pre ++ rest = w) :
    pre.drop HEADER_SIZE = List.replicate (pre.length - HEADER_SIZE) 0#8 := by
  have hzero := h.zero
  rw [← hsplit, List.getElem?_append_left (by rw [hlen]; decide)] at hzero
  obtain ⟨hlt, hget⟩ := List.getElem?_eq_some_iff.mp hzero
  rw [HEADER_SIZE, List.drop_eq_getElem_cons hlt, hget, hlen, List.drop_of_length_le (Nat.le_of_eq hlen)]
  rfl

/-- The frame is not taken for a protocol header. -/
theorem CanBeFirst.take (h : CanBeFirst w) (hlen : pre.length = 8) (hsplit : pre ++ rest = w) :
    pre.take 4 ≠ protocolName := by
  have hother := h.other
  rwa [← hsplit, List.take_append_of_le_length (by rw [hlen]; decide)] at hother

/-- The part of `got` that fills up `pre` to `n` bytes. -/
theorem exists_cut {n : Nat} (hpre : pre.length ≤ n) (h : n ≤ pre.length + got.length) :
    ∃ front back, got = front ++ back ∧ pre.length + front.length = n := by
  refine ⟨got.take (n - pre.length), got.drop (n - pre.length), (List.take_append_drop _ _).symm, ?_⟩
  rw [List.length_take_of_le (Nat.sub_le_of_le_add (Nat.add_comm _ _ ▸ h)), Nat.add_sub_cancel' hpre]

/-- A part of a frame is taken, and nothing comes out. -/
theorem Reading.part {input : Input} (hin : Reading w input pre) (hw : Sized w) (hsplit : pre ++ got ++ rest = w)
    (hgot : got ≠ []) (hrest : rest ≠ []) :
    ∃ input', amqp_handle_input input got = .ok (none, input', got.length) ∧ Reading w input' (pre ++ got) := by
  have hlength : pre.length + got.length < w.length := by
    rw [← hsplit, List.length_append, List.length_append]
    exact Nat.lt_add_of_pos_right (List.length_pos_iff.mpr hrest)
  cases hin with
  | held pre =>
      refine ⟨Amqp.held (pre ++ got), ?_, .held _⟩
      by_cases hlong : HEADER_SIZE ≤ pre.length
      · have hsize : targetSize pre = w.length := by
          rw [← hw.size, ← hsplit, List.append_assoc, targetSize_append hlong]
        rw [handle_long hgot hlong, hsize, consumeData_short hlength]
        simp only [List.length_append, if_pos hlength]
        rw [held_of_long (by rw [List.length_append]; exact Nat.le_trans hlong (Nat.le_add_right _ _)),
          targetSize_append hlong, hsize]
      · rw [handle_short hgot (Nat.not_le.mp hlong)]
        by_cases hshort : pre.length + got.length < HEADER_SIZE
        · rw [consumeData_short hshort]
          simp only [List.length_append, if_pos hshort]
          rw [held_of_short (List.append_ne_nil_of_right_ne_nil _ hgot) (by rwa [List.length_append])]
        · obtain ⟨front, back, rfl, hfront⟩ := exists_cut (Nat.le_of_lt (Nat.not_le.mp hlong)) (Nat.not_lt.mp hshort)
          have hheader : (pre ++ front).length = HEADER_SIZE := by rw [List.length_append, hfront]
          have hzero : (pre ++ front).drop HEADER_SIZE
              = List.replicate ((pre ++ front).length - HEADER_SIZE) 0#8 := by
            rw [List.drop_of_length_le (Nat.le_of_eq hheader), hheader, Nat.sub_self]
            rfl
          rw [consumeData_full hfront]
          simp only [hheader, Nat.lt_irrefl, if_false, List.drop_left]
          rw [handleHeader_part hw (Nat.le_of_eq hheader.symm) hzero
            (by rw [← hsplit]; simp only [List.append_assoc]) hrest]
          simp only [List.append_assoc, List.length_append]
  | initial hpre hfirst =>
      by_cases hshort : pre.length + got.length < 8
      · refine ⟨⟨.initial, pre ++ got, 8⟩, ?_, .initial (by rwa [List.length_append]) hfirst⟩
        rw [amqp_handle_input, if_neg hgot]
        simp only [reduceCtorEq, if_false]
        rw [consumeData_short hshort]
        simp only [List.length_append, if_pos hshort]
      · refine ⟨Amqp.held (pre ++ got), ?_, .held _⟩
        obtain ⟨front, back, rfl, hfront⟩ := exists_cut (Nat.le_of_lt hpre) (Nat.not_lt.mp hshort)
        have hheader : (pre ++ front).length = 8 := by rw [List.length_append, hfront]
        have hwhole : pre ++ front ++ (back ++ rest) = w := by
          rw [← hsplit]
          simp only [List.append_assoc]
        rw [amqp_handle_input, if_neg hgot]
        simp only [reduceCtorEq, if_false]
        rw [consumeData_full hfront]
        simp only [hheader, Nat.lt_irrefl, if_false, List.drop_left, if_neg (hfirst.take hheader hwhole)]
        rw [handleHeader_part hw (hheader ▸ Nat.le_succ 7) (hfirst.drop hheader hwhole)
          (by rw [← hwhole, List.append_assoc]) hrest]
        simp only [List.append_assoc, List.length_append]

/-- With the rest of a frame the whole frame is decoded, and what is behind it is left. -/
theorem Reading.whole {input : Input} (hin : Reading w input pre) (hw : Sized w) (hsplit : pre ++ got = w)
    (hgot : got ≠ []) :
    amqp_handle_input input (got ++ more) = handleBody ⟨.body, w, w.length⟩ got.length := by
  have hne : got ++ more ≠ [] := List.append_ne_nil_of_left_ne_nil hgot _
  have hlength : pre.length + got.length = w.length := by rw [← hsplit, List.length_append]
  cases hin with
  | held pre =>
      by_cases hlong : HEADER_SIZE ≤ pre.length
      · have hsize : targetSize pre = w.length := by
          rw [← hw.size, ← hsplit, targetSize_append hlong]
        rw [handle_long hne hlong, hsize, consumeData_full hlength]
        simp only [hsplit, Nat.lt_irrefl, if_false]
      · have hleast : HEADER_SIZE ≤ pre.length + got.length := by
          rw [hlength]
          exact Nat.le_trans (Nat.le_add_right _ _) hw.least
        obtain ⟨front, back, rfl, hfront⟩ := exists_cut (Nat.le_of_lt (Nat.not_le.mp hlong)) hleast
        have hheader : (pre ++ front).length = HEADER_SIZE := by rw [List.length_append, hfront]
        have hzero : (pre ++ front).drop HEADER_SIZE
            = List.replicate ((pre ++ front).length - HEADER_SIZE) 0#8 := by
          rw [List.drop_of_length_le (Nat.le_of_eq hheader), hheader, Nat.sub_self]
          rfl
        rw [handle_short hne (Nat.not_le.mp hlong), List.append_assoc, consumeData_full hfront]
        simp only [hheader, Nat.lt_irrefl, if_false, List.drop_left]
        rw [handleHeader_whole hw (Nat.le_of_eq hheader.symm) hzero (by rw [List.append_assoc, hsplit]),
          List.length_append]
  | initial hpre hfirst =>
      have hleast : 8 ≤ pre.length + got.length := by
        rw [hlength]
        exact hw.least
      obtain ⟨front, back, rfl, hfront⟩ := exists_cut (Nat.le_of_lt hpre) hleast
      have hheader : (pre ++ front).length = 8 := by rw [List.length_append, hfront]
      have hwhole : pre ++ front ++ back = w := by rw [List.append_assoc, hsplit]
      rw [amqp_handle_input, if_neg hne]
      simp only [reduceCtorEq, if_false]
      rw [List.append_assoc, consumeData_full hfront]
      simp only [hheader, Nat.lt_irrefl, if_false, List.drop_left, if_neg (hfirst.take hheader hwhole)]
      rw [handleHeader_whole hw (hheader ▸ Nat.le_succ 7) (hfirst.drop hheader hwhole) hwhole, List.length_append]

end Pieces

/-! ### Frames that were sent -/

/-- A payload that is decoded as it was. -/
def Payload.Fits : Payload → Prop
  | .method m => m.Fits
  | .properties _ p => p.Fits
  | .bodyFragment _ | .heartbeat => True
  | .protocolHeader .. => False

structure Frame.Fits (f : Frame) : Prop where
  payload : f.payload.Fits
  length : f.octets.length < 2 ^ 32

theorem length_frameOctets (frame_type : Nat) (channel : BitVec 16) (payload : List Byte) :
    (frameOctets frame_type channel payload).length = payload.length + HEADER_SIZE + FOOTER_SIZE := by
  simp only [frameOctets, List.length_append, length_toBE, List.length_singleton, HEADER_SIZE, FOOTER_SIZE]
  omega

/-- A frame below 4 GiB says its own size. -/
theorem sized_frameOctets {frame_type : Nat} {channel : BitVec 16} {payload : List Byte}
    (h : (frameOctets frame_type channel payload).length < 2 ^ 32) :
    Sized (frameOctets frame_type channel payload) := by
  have hlength := length_frameOctets frame_type channel payload
  have hdrop : (frameOctets frame_type channel payload).drop 3
      = toBE 4 payload.length ++ (payload ++ [AMQP_FRAME_END]) := by
    rw [frameOctets, ← List.append_assoc]
    exact List.drop_left' (by rw [List.length_append, length_toBE, length_toBE])
  have hpayload : payload.length < 256 ^ 4 := by
    rw [hlength] at h
    exact Nat.lt_of_le_of_lt (Nat.le_trans (Nat.le_add_right _ _) (Nat.le_add_right _ _)) h
  constructor
  · rw [hlength, Nat.add_assoc]
    exact Nat.le_add_left _ _
  · rw [targetSize, hdrop, List.take_left' (length_toBE _ _), ofBE_toBE_of_lt hpayload, ← hlength, Nat.mod_eq_of_lt h]

theorem Frame.Fits.sized {f : Frame} (h : f.Fits) : Sized f.octets := sized_frameOctets h.length

theorem MethodNumber.code_lt (id : MethodNumber) : id.code < 256 ^ 3 := by
  cases id with
  | _ => decide

/-- A payload is decoded from its bytes. -/
theorem decodePayload_octets {payload : Payload} (h : payload.Fits) (hlen : payload.octets.length < 256 ^ 4) :
    decodePayload payload.frameType payload.octets = .ok (some payload) := by
  cases payload with
  | protocolHeader th tl major minor => exact h.elim
  | heartbeat => rfl
  | bodyFragment bytes => rfl
  | method m =>
      have hlt : ¬ (toBE 4 m.id.code ++ m.octets).length < 4 := by
        rw [List.length_append, length_toBE]
        exact Nat.not_lt.mpr (Nat.le_add_right _ _)
      have hcode : m.id.code < 256 ^ 4 := Nat.lt_trans m.id.code_lt (by decide)
      have hoctets : m.octets.length < 256 ^ 4 := by
        rw [Payload.octets, List.length_append] at hlen
        exact Nat.lt_of_le_of_lt (Nat.le_add_left _ _) hlen
      have hdecoded := @decode_method m [] h (by rwa [List.append_nil])
      rw [List.append_nil] at hdecoded
      rw [decodePayload, Payload.frameType, if_pos rfl, Payload.octets, if_neg hlt,
        List.take_left' (length_toBE _ _), List.drop_left' (length_toBE _ _), ofBE_toBE_of_lt hcode, hdecoded]
      rfl
  | properties body_size p =>
      have hlt : ¬ (toBE 2 p.class_id.code ++ (toBE 2 0 ++ (toBE 8 body_size.toNat ++ p.octets))).length < 12 := by
        simp only [List.length_append, length_toBE]
        omega
      have hcode : p.class_id.code < 256 ^ 2 := by
        cases p.class_id with
        | _ => decide
      have hoctets : p.octets.length < 256 ^ 4 := by
        simp only [Payload.octets, List.length_append] at hlen
        omega
      have hdecoded := @decode_properties p [] h (by rwa [List.append_nil])
      rw [List.append_nil] at hdecoded
      have hsize : (toBE 2 p.class_id.code ++ (toBE 2 0 ++ (toBE 8 body_size.toNat ++ p.octets))).drop 4
          = toBE 8 body_size.toNat ++ p.octets := by
        rw [← List.append_assoc]
        exact List.drop_left' (by rw [List.length_append, length_toBE, length_toBE])
      have hproperties : (toBE 2 p.class_id.code ++ (toBE 2 0 ++ (toBE 8 body_size.toNat ++ p.octets))).drop 12
          = p.octets := by
        rw [← List.append_assoc, ← List.append_assoc]
        exact List.drop_left' (by simp only [List.length_append, length_toBE])
      rw [decodePayload, Payload.frameType, if_neg (by decide), if_pos rfl, Payload.octets, if_neg hlt,
        List.take_left' (length_toBE _ _), hproperties, hsize, List.take_left' (length_toBE _ _),
        ofBE_toBE_of_lt hcode, hdecoded, ofBE_toBE_of_lt body_size.isLt]
      simp only [bind, Except.bind, pure, Except.pure, BitVec.ofNat_toNat, BitVec.setWidth_eq]

/-- The number of a method begins with a 0, as its class is a small number. -/
theorem canBeFirst_method (channel : BitVec 16) (m : Method) : CanBeFirst (Frame.octets ⟨channel, .method m⟩) := by
  have hcode : toBE 4 m.id.code = 0#8 :: toBE 3 m.id.code := by
    have hzero : m.id.code / 256 ^ 3 = 0 := Nat.div_eq_of_lt m.id.code_lt
    rw [toBE, hzero]
  constructor
  · have hfront : (toBE 1 AMQP_FRAME_METHOD ++ (toBE 2 channel.toNat
        ++ toBE 4 (Payload.method m).octets.length)).length = 7 := by
      simp only [List.length_append, length_toBE]
    have hoctets : Frame.octets ⟨channel, .method m⟩
        = (toBE 1 AMQP_FRAME_METHOD ++ (toBE 2 channel.toNat ++ toBE 4 (Payload.method m).octets.length))
          ++ (0#8 :: (toBE 3 m.id.code ++ (m.octets ++ [AMQP_FRAME_END]))) := by
      simp only [Frame.octets, frameOctets, Payload.frameType, Payload.octets, hcode, List.append_assoc,
        List.cons_append]
    rw [hoctets, List.getElem?_append_right (Nat.le_of_eq hfront), hfront]
    rfl
  · intro h
    have hhead : (Frame.octets ⟨channel, .method m⟩).take 1 = protocolName.take 1 := by
      rw [← h, List.take_take]
      rfl
    rw [show (Frame.octets ⟨channel, .method m⟩).take 1 = toBE 1 AMQP_FRAME_METHOD from
      List.take_left' (length_toBE _ _)] at hhead
    exact absurd hhead (by decide)

/-- A whole frame that was sent is decoded as the frame. -/
theorem handleBody_octets {f : Frame} (h : f.Fits) (n : Nat) :
    handleBody ⟨.body, f.octets, f.octets.length⟩ n = .ok (some f, returnToIdle, n) := by
  obtain ⟨channel, payload⟩ := f
  have hlength := length_frameOctets payload.frameType channel payload.octets
  have hpayload : payload.octets.length < 256 ^ 4 := by
    have hlt := h.length
    rw [Frame.octets, hlength] at hlt
    exact Nat.lt_of_le_of_lt (Nat.le_trans (Nat.le_add_right _ _) (Nat.le_add_right _ _)) hlt
  have htype : payload.frameType < 256 ^ 1 := by
    cases payload with
    | _ => exact Nat.le_of_ble_eq_true rfl
  have hlast : (frameOctets payload.frameType channel payload.octets)[
      (frameOctets payload.frameType channel payload.octets).length - 1]? = some AMQP_FRAME_END := by
    rw [← List.getLast?_eq_getElem?, frameOctets]
    simp
  rw [hlength] at hlast
  have hchannel : (frameOctets payload.frameType channel payload.octets).drop 1
      = toBE 2 channel.toNat ++ (toBE 4 payload.octets.length ++ (payload.octets ++ [AMQP_FRAME_END])) :=
    List.drop_left' (length_toBE _ _)
  have hbody : (frameOctets payload.frameType channel payload.octets).drop HEADER_SIZE
      = payload.octets ++ [AMQP_FRAME_END] := by
    rw [frameOctets, ← List.append_assoc, ← List.append_assoc]
    exact List.drop_left' (by simp only [List.length_append, length_toBE, HEADER_SIZE])
  have hcount : payload.octets.length + HEADER_SIZE + FOOTER_SIZE - HEADER_SIZE - FOOTER_SIZE
      = payload.octets.length := by
    rw [Nat.add_right_comm, Nat.add_sub_cancel, Nat.add_sub_cancel]
  rw [handleBody]
  simp only [Frame.octets, hlast, ne_eq, not_true_eq_false, if_false, hbody, hchannel, hlength, hcount, List.take_left,
    List.take_left' (length_toBE _ _)]
  rw [show (frameOctets payload.frameType channel payload.octets).take 1 = toBE 1 payload.frameType from
      List.take_left' (length_toBE _ _),
    ofBE_toBE_of_lt htype, ofBE_toBE_of_lt channel.isLt, decodePayload_octets h.payload hpayload]
  simp only [bind, Except.bind, pure, Except.pure, Option.map_some, BitVec.ofNat_toNat, BitVec.setWidth_eq]

end Sogx.Amqp
