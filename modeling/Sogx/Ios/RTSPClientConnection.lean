import Sogx.Lib.RtpH264

/-!
`RTSPClientConnection.mm`: sending the frames of the encoder as RTP packets.

`onVideoData` cuts the NAL units of a frame into payloads, `writeHeader` puts a
header in front of each, and `sendPacket` counts and sends the packet, with an
RTCP sender report about once a second. Times are `double`s in the source: their
conversion to RTP ticks is the parameter `ticks` of `Env`, together with the
clock and the random numbers that one call meets.

* `onVideoData_eq`: one call sends the payloads of the format `Lib.RtpH264` for
  the units from the first IDR unit on.
* `packets_reassemble`: the packets of any number of calls are well formed, and
  a strict receiver gets back exactly the units submitted.
-/

namespace Sogx

open Sogx.Lib Sogx.Lib.RtpH264

inductive ServerState where
  | serverIdle | setup | playing
deriving DecidableEq, Repr

/-- The fields that streaming reads and writes. A socket is there or not, with
the port its packets go to; `long` counters are kept as naturals. -/
structure RTSPClientConnection (Pts : Type) where
  sRTP : Option Nat
  sRTCP : Option Nat
  session : Option String
  state : ServerState
  packets : Nat
  bytesSent : Nat
  ssrc : BitVec 64
  bFirst : Bool
  ntpBase : BitVec 64
  rtpBase : BitVec 64
  ptsBase : Pts
  packetsReported : Nat
  bytesReported : Nat
  /-- In nanoseconds. -/
  sentRTCP : Option Int

/-- What a call finds around it: the conversion of a time to ticks, the first
random number that is not 0, the NTP time, and the clock at the `n`-th packet. -/
structure Env (Pts : Type) where
  ticks : Pts → Pts → BitVec 64
  random : BitVec 64
  random_ne_zero : random ≠ 0
  ntp : BitVec 64
  now : Nat → Int

structure Datagram where
  port : Nat
  data : List Byte
deriving DecidableEq, Repr

/-- One call of `sendPacket`: what it was passed and what it sent. -/
structure Sent where
  packet : List Byte
  datagrams : List Datagram
deriving DecidableEq, Repr

abbrev NALU := List Byte

namespace RTSPClientConnection

def tonet_short (s : BitVec 16) : List Byte :=
  [((s >>> 8) &&& 0xff#16).setWidth 8, (s &&& 0xff#16).setWidth 8]

def tonet_long (l : BitVec 64) : List Byte :=
  [((l >>> 24) &&& 0xff#64).setWidth 8, ((l >>> 16) &&& 0xff#64).setWidth 8,
    ((l >>> 8) &&& 0xff#64).setWidth 8, (l &&& 0xff#64).setWidth 8]

def max_packet_size : Nat := 1200

def rtp_header_size : Nat := 12

def max_single_packet : Nat := max_packet_size - rtp_header_size

def max_fragment_packet : Nat := max_single_packet - 2

variable {Pts : Type} (env : Env Pts)

/-- The mapping of times is fixed with the first packet of a session. -/
def mapTime (pts : Pts) (conn : RTSPClientConnection Pts) : RTSPClientConnection Pts :=
  if conn.rtpBase = 0 then
    { conn with rtpBase := env.random, ptsBase := pts, ntpBase := env.ntp }
  else conn

/-- `writeHeader:marker:time:`, with the twelve bytes that it writes. -/
def writeHeader (bMarker : Bool) (pts : Pts) (conn : RTSPClientConnection Pts) :
    RTSPClientConnection Pts × List Byte :=
  let seq := BitVec.ofNat 16 conn.packets
  let conn := conn.mapTime env pts
  let rtp := env.ticks pts conn.ptsBase + conn.rtpBase
  (conn, [0x80#8, if bMarker then 96#8 ||| 0x80#8 else 96#8] ++ tonet_short seq ++
    tonet_long rtp ++ tonet_long conn.ssrc)

/-- The RTCP sender report. -/
def senderReport (conn : RTSPClientConnection Pts) : List Byte :=
  [0x80#8, 200#8] ++ tonet_short 6 ++ tonet_long conn.ssrc ++ tonet_long (conn.ntpBase >>> 32) ++
    tonet_long conn.ntpBase ++ tonet_long conn.rtpBase ++
    tonet_long (BitVec.ofInt 64 (conn.packets - conn.packetsReported)) ++
    tonet_long (BitVec.ofInt 64 (conn.bytesSent - conn.bytesReported))

/-- `sendPacket:length:`. -/
def sendPacket (packet : List Byte) (conn : RTSPClientConnection Pts) :
    RTSPClientConnection Pts × Sent :=
  let rtp := match conn.sRTP with
    | some port => [⟨port, packet⟩]
    | none => []
  let conn := { conn with
    packets := conn.packets + 1
    bytesSent := conn.bytesSent + packet.length }
  let now := env.now conn.packets
  let due := match conn.sentRTCP with
    | none => true
    | some sent => decide (10 ^ 9 ≤ now - sent)
  if due then
    let rtcp := match conn.sRTCP with
      | some port => [⟨port, conn.senderReport⟩]
      | none => []
    ({ conn with
      sentRTCP := some now
      packetsReported := conn.packets
      bytesReported := conn.bytesSent }, ⟨packet, rtp ++ rtcp⟩)
  else (conn, ⟨packet, rtp⟩)

/-- The `while` loop over a unit that does not fit one packet. -/
def sendFragments (pts : Pts) (bLast : Bool) (naluHeader : Byte) (bStart : Bool)
    (pSource : List Byte) (cBytes : Nat) (conn : RTSPClientConnection Pts) :
    RTSPClientConnection Pts × List Sent :=
  if _h : cBytes = 0 then (conn, [])
  else
    let cThis := min cBytes max_fragment_packet
    let bEnd := decide (cThis = cBytes)
    let header := conn.writeHeader env (bLast && bEnd) pts
    let indicator := (naluHeader &&& 0xe0#8) + 28#8
    let fu_header := naluHeader &&& 0x1f#8
    let fu_header :=
      if bStart then fu_header ||| 0x80#8
      else if bEnd then fu_header ||| 0x40#8 else fu_header
    let sent := header.1.sendPacket env
      (header.2 ++ [indicator, fu_header] ++ pSource.take cThis)
    let rest := sendFragments pts bLast naluHeader false (pSource.drop cThis) (cBytes - cThis)
      sent.1
    (rest.1, sent.2 :: rest.2)
termination_by cBytes
decreasing_by
  simp only [max_fragment_packet, max_single_packet, max_packet_size, rtp_header_size]
  omega

/-- Sending one unit. The length goes through an `int`; `none` stands for copying
a negative number of bytes, or fragmenting a unit without a header byte. -/
def sendNALU (pts : Pts) (bLast : Bool) (nalu : NALU) (conn : RTSPClientConnection Pts) :
    Option (RTSPClientConnection Pts × List Sent) :=
  let cBytes := (BitVec.ofNat 32 nalu.length).toInt
  if cBytes < max_single_packet then
    if cBytes < 0 then none
    else
      let header := conn.writeHeader env bLast pts
      let sent := header.1.sendPacket env (header.2 ++ nalu.take cBytes.toNat)
      some (sent.1, [sent.2])
  else match nalu with
    | [] => none
    | naluHeader :: pSource =>
      some (conn.sendFragments env pts bLast naluHeader true pSource (cBytes - 1).toNat)

/-- The body of the `for` loop: nothing is sent before the first IDR unit. Here
`none` also stands for looking at the first byte of an empty unit. -/
def onNALU (pts : Pts) (bLast : Bool) (nalu : NALU) (conn : RTSPClientConnection Pts) :
    Option (RTSPClientConnection Pts × List Sent) :=
  if conn.bFirst then
    match nalu with
    | [] => none
    | b :: _ =>
      if b &&& 0x1f#8 ≠ 5#8 then some (conn, [])
      else sendNALU env pts bLast nalu { conn with bFirst := false }
  else sendNALU env pts bLast nalu conn

/-- The `for` loop from the `i`-th unit on. -/
def onNALUs (pts : Pts) (nNALUs : Int) :
    Int → List NALU → RTSPClientConnection Pts → Option (RTSPClientConnection Pts × List Sent)
  | _, [], conn => some (conn, [])
  | i, nalu :: data, conn =>
    if i < nNALUs then do
      let first ← onNALU env pts (decide (i = nNALUs - 1)) nalu conn
      let rest ← onNALUs pts nNALUs (i + 1) data first.1
      return (rest.1, first.2 ++ rest.2)
    else some (conn, [])

/-- `onVideoData:time:`, with the calls of `sendPacket` that it makes. -/
def onVideoData (pts : Pts) (data : List NALU) (conn : RTSPClientConnection Pts) :
    Option (RTSPClientConnection Pts × List Sent) :=
  if conn.state ≠ .playing then some (conn, [])
  else onNALUs env pts (BitVec.ofNat 32 data.length).toInt 0 data conn

/-! ### One packet after the other -/

/-- A packet, by its fields. -/
def rtpPacket (rtp ssrc : BitVec 64) (seq : Nat) (bMarker : Bool) (payload : List Byte) :
    List Byte :=
  [0x80#8, if bMarker then 96#8 ||| 0x80#8 else 96#8] ++ tonet_short (BitVec.ofNat 16 seq) ++
    tonet_long rtp ++ tonet_long ssrc ++ payload

/-- The timestamp of every packet sent for the time `pts`. -/
def stamp (pts : Pts) (conn : RTSPClientConnection Pts) : BitVec 64 :=
  env.ticks pts (conn.mapTime env pts).ptsBase + (conn.mapTime env pts).rtpBase

/-- `conn'` is `conn` after `k` packets for the time `pts`. -/
structure Follows (pts : Pts) (k : Nat) (conn conn' : RTSPClientConnection Pts) : Prop where
  packets : conn'.packets = conn.packets + k
  state : conn'.state = conn.state
  bFirst : conn'.bFirst = conn.bFirst
  ssrc : conn'.ssrc = conn.ssrc
  stamp : conn'.stamp env pts = conn.stamp env pts

variable {env}

theorem Follows.refl (pts : Pts) (conn : RTSPClientConnection Pts) : Follows env pts 0 conn conn :=
  ⟨rfl, rfl, rfl, rfl, rfl⟩

/-- Two calls in a row count the packets of both. -/
theorem Follows.trans {pts : Pts} {j k : Nat} {conn conn' conn'' : RTSPClientConnection Pts}
    (h : Follows env pts j conn conn') (h' : Follows env pts k conn' conn'') :
    Follows env pts (j + k) conn conn'' where
  packets := by rw [h'.packets, h.packets, Nat.add_assoc]
  state := h'.state.trans h.state
  bFirst := h'.bFirst.trans h.bFirst
  ssrc := h'.ssrc.trans h.ssrc
  stamp := h'.stamp.trans h.stamp

/-- Once the mapping is fixed, fixing it again changes nothing. -/
theorem mapTime_mapTime (pts : Pts) (conn : RTSPClientConnection Pts) :
    (conn.mapTime env pts).mapTime env pts = conn.mapTime env pts := by
  by_cases h : conn.rtpBase = 0
  · have hmapped : conn.mapTime env pts =
        { conn with rtpBase := env.random, ptsBase := pts, ntpBase := env.ntp } := if_pos h
    rw [hmapped]
    exact if_neg env.random_ne_zero
  · have hmapped : conn.mapTime env pts = conn := if_neg h
    rw [hmapped, hmapped]

theorem follows_mapTime (pts : Pts) (conn : RTSPClientConnection Pts) :
    Follows env pts 0 conn (conn.mapTime env pts) := by
  have hstamp : (conn.mapTime env pts).stamp env pts = conn.stamp env pts := by
    rw [stamp, mapTime_mapTime, stamp]
  unfold mapTime at hstamp ⊢
  split
  · rename_i h
    rw [if_pos h] at hstamp
    exact ⟨rfl, rfl, rfl, rfl, hstamp⟩
  · exact .refl pts conn

/-- Only the mapping of times decides the timestamp. -/
theorem stamp_congr (pts : Pts) {conn conn' : RTSPClientConnection Pts}
    (hrtp : conn'.rtpBase = conn.rtpBase) (hpts : conn'.ptsBase = conn.ptsBase) :
    conn'.stamp env pts = conn.stamp env pts := by
  by_cases h : conn.rtpBase = 0
  · rw [stamp, stamp, mapTime, mapTime, if_pos h, if_pos (hrtp.trans h)]
  · rw [stamp, stamp, mapTime, mapTime, if_neg h, if_neg (by rwa [hrtp]), hrtp, hpts]

theorem follows_sendPacket (pts : Pts) (packet : List Byte) (conn : RTSPClientConnection Pts) :
    Follows env pts 1 conn (conn.sendPacket env packet).1 := by
  unfold sendPacket
  dsimp only
  split
  · exact ⟨rfl, rfl, rfl, rfl, stamp_congr pts rfl rfl⟩
  · exact ⟨rfl, rfl, rfl, rfl, stamp_congr pts rfl rfl⟩

theorem sendPacket_packet (packet : List Byte) (conn : RTSPClientConnection Pts) :
    (conn.sendPacket env packet).2.packet = packet := by
  unfold sendPacket
  dsimp only
  split <;> rfl

/-- One header and one packet. -/
def transmit (env : Env Pts) (pts : Pts) (bMarker : Bool) (payload : List Byte)
    (conn : RTSPClientConnection Pts) : RTSPClientConnection Pts × Sent :=
  let header := conn.writeHeader env bMarker pts
  header.1.sendPacket env (header.2 ++ payload)

theorem follows_transmit (pts : Pts) (bMarker : Bool) (payload : List Byte)
    (conn : RTSPClientConnection Pts) :
    Follows env pts 1 conn (conn.transmit env pts bMarker payload).1 := by
  have hmapped : Follows env pts 0 conn (conn.mapTime env pts) := follows_mapTime pts conn
  have h := hmapped.trans
    (follows_sendPacket pts ((conn.writeHeader env bMarker pts).2 ++ payload) _)
  rwa [Nat.zero_add] at h

/-- A packet carries the time, the source and the number of its turn. -/
theorem transmit_packet (pts : Pts) (bMarker : Bool) (payload : List Byte)
    (conn : RTSPClientConnection Pts) :
    (conn.transmit env pts bMarker payload).2.packet =
      rtpPacket (conn.stamp env pts) conn.ssrc conn.packets bMarker payload := by
  have hssrc : (conn.mapTime env pts).ssrc = conn.ssrc := (follows_mapTime pts conn).ssrc
  rw [transmit, sendPacket_packet, rtpPacket, writeHeader]
  simp only [hssrc, stamp]

/-- A payload and its marker each. -/
def transmitAll (env : Env Pts) (pts : Pts) :
    List (Bool × List Byte) → RTSPClientConnection Pts → RTSPClientConnection Pts × List Sent
  | [], conn => (conn, [])
  | p :: rest, conn =>
    let first := conn.transmit env pts p.1 p.2
    let others := transmitAll env pts rest first.1
    (others.1, first.2 :: others.2)

/-- As many packets are counted as payloads are sent. -/
theorem follows_transmitAll (pts : Pts) (ps : List (Bool × List Byte))
    (conn : RTSPClientConnection Pts) :
    Follows env pts ps.length conn (conn.transmitAll env pts ps).1 := by
  induction ps generalizing conn with
  | nil => exact .refl pts conn
  | cons p ps ih =>
    have h := (follows_transmit pts p.1 p.2 conn).trans (ih (conn.transmit env pts p.1 p.2).1)
    rwa [Nat.add_comm] at h

/-- Payloads can be sent in two parts. -/
theorem transmitAll_append (pts : Pts) (ps qs : List (Bool × List Byte))
    (conn : RTSPClientConnection Pts) :
    conn.transmitAll env pts (ps ++ qs) =
      (((conn.transmitAll env pts ps).1.transmitAll env pts qs).1,
        (conn.transmitAll env pts ps).2 ++ ((conn.transmitAll env pts ps).1.transmitAll env pts qs).2) := by
  induction ps generalizing conn with
  | nil => rfl
  | cons p ps ih =>
    rw [List.cons_append, transmitAll, ih]
    rfl

/-- The packets of the payloads, from the number `seq` on. -/
def packetsFrom (rtp ssrc : BitVec 64) : Nat → List (Bool × List Byte) → List (List Byte)
  | _, [] => []
  | seq, p :: rest => rtpPacket rtp ssrc seq p.1 p.2 :: packetsFrom rtp ssrc (seq + 1) rest

/-- All packets carry one time, and their numbers go on from one to the next. -/
theorem transmitAll_packets (pts : Pts) (ps : List (Bool × List Byte))
    (conn : RTSPClientConnection Pts) :
    (conn.transmitAll env pts ps).2.map (·.packet) =
      packetsFrom (conn.stamp env pts) conn.ssrc conn.packets ps := by
  induction ps generalizing conn with
  | nil => rfl
  | cons p ps ih =>
    have h : Follows env pts 1 conn (conn.transmit env pts p.1 p.2).1 :=
      follows_transmit pts p.1 p.2 conn
    rw [transmitAll, List.map_cons, transmit_packet, ih, packetsFrom, h.stamp, h.ssrc, h.packets]

/-! ### Reading a packet -/

def marker (packet : List Byte) : Bool := packet.getD 1 0 &&& 0x80#8 != 0#8

def sequenceNumber (packet : List Byte) : Nat := ofBE ((packet.drop 2).take 2)

def timestamp (packet : List Byte) : List Byte := (packet.drop 4).take 4

def payload (packet : List Byte) : List Byte := packet.drop rtp_header_size

theorem ofBE_tonet_short (seq : Nat) : ofBE (tonet_short (BitVec.ofNat 16 seq)) = seq % 2 ^ 16 := by
  have hmask : ∀ n, 255 &&& n = n % 256 := fun n => by
    rw [Nat.and_comm]
    exact Nat.and_two_pow_sub_one_eq_mod n 8
  simp [tonet_short, ofBE, Nat.and_comm, hmask, Nat.shiftRight_eq_div_pow]
  omega

section Reading

variable (rtp ssrc : BitVec 64) (seq : Nat)

theorem marker_rtpPacket (bMarker : Bool) (data : List Byte) :
    marker (rtpPacket rtp ssrc seq bMarker data) = bMarker := by
  cases bMarker with
  | false => simp [marker, rtpPacket]
  | true => simp [marker, rtpPacket]

/-- The sequence number is read as the lowest 16 bits of the count. -/
theorem sequenceNumber_rtpPacket (bMarker : Bool) (data : List Byte) :
    sequenceNumber (rtpPacket rtp ssrc seq bMarker data) = seq % 2 ^ 16 :=
  ofBE_tonet_short seq

/-- The markers are those of the payloads. -/
theorem packetsFrom_markers (ps : List (Bool × List Byte)) :
    (packetsFrom rtp ssrc seq ps).map marker = ps.map Prod.fst := by
  induction ps generalizing seq with
  | nil => rfl
  | cons p ps ih => rw [packetsFrom, List.map_cons, marker_rtpPacket, ih, List.map_cons]

/-- The sequence numbers go up by one, modulo 2^16. -/
theorem packetsFrom_sequenceNumbers (ps : List (Bool × List Byte)) :
    (packetsFrom rtp ssrc seq ps).map sequenceNumber =
      (List.range' seq ps.length).map (· % 2 ^ 16) := by
  induction ps generalizing seq with
  | nil => rfl
  | cons p ps ih =>
    rw [packetsFrom, List.map_cons, sequenceNumber_rtpPacket, ih, List.length_cons,
      List.range'_succ, List.map_cons]

/-- The payloads are carried as they are. -/
theorem packetsFrom_payloads (ps : List (Bool × List Byte)) :
    (packetsFrom rtp ssrc seq ps).map payload = ps.map Prod.snd := by
  induction ps generalizing seq with
  | nil => rfl
  | cons p ps ih =>
    rw [packetsFrom, List.map_cons, ih, List.map_cons]
    rfl

theorem length_packetsFrom (ps : List (Bool × List Byte)) :
    (packetsFrom rtp ssrc seq ps).length = ps.length := by
  simpa using congrArg List.length (packetsFrom_payloads rtp ssrc seq ps)

/-- What holds of every packet, whatever its number. -/
theorem forall_mem_packetsFrom {Q : List Byte → Prop} {ps : List (Bool × List Byte)}
    (h : ∀ seq, ∀ p ∈ ps, Q (rtpPacket rtp ssrc seq p.1 p.2)) :
    ∀ packet ∈ packetsFrom rtp ssrc seq ps, Q packet := by
  induction ps generalizing seq with
  | nil => simp [packetsFrom]
  | cons p ps ih =>
    intro packet hpacket
    rcases List.mem_cons.mp hpacket with rfl | hrest
    · exact h seq p (by simp)
    · exact ih (seq + 1) (fun s q hq => h s q (List.mem_cons_of_mem _ hq)) packet hrest

end Reading

/-! ### The payloads of a unit -/

/-- The marker stands with the last payload. -/
def marked (bLast : Bool) : List (List Byte) → List (Bool × List Byte)
  | [] => []
  | p :: rest => (bLast && rest.isEmpty, p) :: marked bLast rest

theorem marked_snd (bLast : Bool) (ps : List (List Byte)) :
    (marked bLast ps).map Prod.snd = ps := by
  induction ps with
  | nil => rfl
  | cons p ps ih => rw [marked, List.map_cons, ih]

/-- Only the last packet of a last unit is marked. -/
theorem marked_fst {ps : List (List Byte)} (h : ps ≠ []) :
    (marked true ps).map Prod.fst = List.replicate (ps.length - 1) false ++ [true] := by
  induction ps with
  | nil => contradiction
  | cons p ps ih =>
    cases ps with
    | nil => rfl
    | cons q qs =>
      rw [marked, List.map_cons, ih (by simp)]
      rfl

theorem marked_append (bLast : Bool) (ps : List (List Byte)) {qs : List (List Byte)}
    (h : qs ≠ []) : marked false ps ++ marked bLast qs = marked bLast (ps ++ qs) := by
  induction ps with
  | nil => rfl
  | cons p ps ih =>
    have hrest : (ps ++ qs).isEmpty = false := by simp [h]
    rw [marked, List.cons_append, ih, List.cons_append, marked, hrest, Bool.false_and,
      Bool.and_false]

/-- The unit itself, or its fragments. -/
def payloads : NALU → List (List Byte)
  | [] => [[]]
  | header :: data =>
    if data.length + 1 < max_single_packet then [header :: data]
    else fragments max_fragment_packet header true data

/-- A unit that fits into one packet is sent as it is. -/
theorem payloads_short {header : Byte} {data : List Byte}
    (h : data.length + 1 < max_single_packet) : payloads (header :: data) = [header :: data] :=
  if_pos h

/-- A unit that does not fit into one packet is sent in fragments. -/
theorem payloads_long {header : Byte} {data : List Byte}
    (h : ¬data.length + 1 < max_single_packet) :
    payloads (header :: data) = fragments max_fragment_packet header true data :=
  if_neg h

theorem payloads_ne_nil (nalu : NALU) : payloads nalu ≠ [] := by
  cases nalu with
  | nil => simp [payloads]
  | cons header data =>
    by_cases h : data.length + 1 < max_single_packet
    · simp [payloads_short h]
    · rw [payloads_long h]
      exact fragments_ne_nil

/-- No payload is larger than a packet. -/
theorem length_le_of_mem_payloads {nalu : NALU} :
    ∀ p ∈ payloads nalu, p.length ≤ max_single_packet := by
  cases nalu with
  | nil => simp [payloads]
  | cons header data =>
    by_cases h : data.length + 1 < max_single_packet
    · intro p hp
      rw [payloads_short h] at hp
      rw [List.mem_singleton.mp hp]
      exact Nat.le_of_lt h
    · rw [payloads_long h]
      exact length_le_of_mem_fragments (by decide)

/-- A unit of the types that the format leaves to the encoder. -/
def Sendable : NALU → Prop
  | [] => False
  | header :: _ => 1#8 ≤ unitType header ∧ unitType header ≤ 23#8

/-- A unit of 1188 bytes or more never fits one fragment. -/
theorem receiveAll_payloads (units : List NALU) {nalu : NALU} (h : Sendable nalu) :
    receiveAll ⟨units, none⟩ (payloads nalu) = some ⟨units ++ [nalu], none⟩ := by
  cases nalu with
  | nil => exact h.elim
  | cons header data =>
    by_cases hshort : data.length + 1 < max_single_packet
    · rw [payloads_short hshort]
      exact receiveAll_single h.1 h.2
    · have hsizes : max_single_packet = max_fragment_packet + 2 := rfl
      have hboundary : max_fragment_packet < data.length := by omega
      rw [payloads_long hshort]
      exact receiveAll_fragments (by decide) hboundary

/-- A receiver puts the units together again. -/
theorem receiveAll_flatMap_payloads (units : List NALU) {nalus : List NALU}
    (h : ∀ nalu ∈ nalus, Sendable nalu) :
    receiveAll ⟨units, none⟩ (nalus.flatMap payloads) = some ⟨units ++ nalus, none⟩ := by
  induction nalus generalizing units with
  | nil => simp [receiveAll]
  | cons nalu nalus ih =>
    rw [List.flatMap_cons, receiveAll_append (receiveAll_payloads units (h nalu (by simp))),
      ih _ fun n hn => h n (List.mem_cons_of_mem _ hn)]
    simp

/-! ### What the loops send -/

/-- The loop over the fragments sends the fragments of the unit, by induction on what is
left of it. -/
theorem sendFragments_eq (pts : Pts) (bLast : Bool) (naluHeader : Byte) (bStart : Bool)
    {pSource : List Byte} (h : pSource ≠ []) (conn : RTSPClientConnection Pts) :
    conn.sendFragments env pts bLast naluHeader bStart pSource pSource.length =
      conn.transmitAll env pts
        (marked bLast (fragments max_fragment_packet naluHeader bStart pSource)) := by
  have hpos : pSource.length ≠ 0 := by simpa using h
  rw [sendFragments, fragments, dif_neg hpos]
  by_cases hshort : pSource.length ≤ max_fragment_packet
  · have hthis : min pSource.length max_fragment_packet = pSource.length := Nat.min_eq_left hshort
    rw [dif_pos (.inl hshort), hthis]
    dsimp only
    rw [Nat.sub_self, sendFragments]
    simp [marked, transmitAll, transmit, fragment, importance, unitType]
  · have hthis : min pSource.length max_fragment_packet = max_fragment_packet :=
      Nat.min_eq_right (Nat.le_of_not_le hshort)
    have hmore : max_fragment_packet ≠ pSource.length := fun heq => hshort heq.ge
    have hrest : pSource.drop max_fragment_packet ≠ [] := by
      rw [Ne, List.drop_eq_nil_iff]
      exact hshort
    have hlength : pSource.length - max_fragment_packet =
        (pSource.drop max_fragment_packet).length := List.length_drop.symm
    have hsize : ¬(pSource.length ≤ max_fragment_packet ∨ max_fragment_packet = 0) := by
      rintro (hle | hzero)
      · exact hshort hle
      · exact absurd hzero (by decide)
    have hempty : (fragments max_fragment_packet naluHeader false
        (pSource.drop max_fragment_packet)).isEmpty = false :=
      List.isEmpty_eq_false_iff.mpr fragments_ne_nil
    rw [dif_neg hsize, hthis]
    dsimp only
    rw [hlength, sendFragments_eq pts bLast naluHeader false hrest]
    simp [marked, transmitAll, transmit, fragment, importance, unitType, hmore, hempty]
termination_by pSource.length
decreasing_by
  rw [List.length_drop]
  have hsize : 0 < max_fragment_packet := by decide
  omega

/-- A unit whose length an `int` can hold is sent as its payloads. -/
theorem sendNALU_eq (pts : Pts) (bLast : Bool) {nalu : NALU} (hne : nalu ≠ [])
    (hlength : nalu.length < 2 ^ 31) (conn : RTSPClientConnection Pts) :
    conn.sendNALU env pts bLast nalu =
      some (conn.transmitAll env pts (marked bLast (payloads nalu))) := by
  cases nalu with
  | nil => contradiction
  | cons header data =>
    unfold sendNALU
    rw [toInt_ofNat_of_lt hlength]
    by_cases hshort : data.length + 1 < max_single_packet
    · have hcast : ((header :: data).length : Int) < max_single_packet := Int.ofNat_lt.mpr hshort
      have hpos : ¬((header :: data).length : Int) < 0 := Int.not_lt.mpr (Int.natCast_nonneg _)
      simp only [if_pos hcast, if_neg hpos, payloads_short hshort, Int.toNat_natCast,
        List.take_length]
      simp [marked, transmitAll, transmit]
    · have hcast : ¬((header :: data).length : Int) < max_single_packet := fun h =>
        hshort (Int.ofNat_lt.mp h)
      have hdata : data ≠ [] := by
        rintro rfl
        exact hshort (by decide)
      have hcount : (((header :: data).length : Int) - 1).toNat = data.length := by simp
      simp only [if_neg hcast, payloads_long hshort, hcount]
      rw [sendFragments_eq pts bLast header true hdata]

theorem length_marked (bLast : Bool) (ps : List (List Byte)) :
    (marked bLast ps).length = ps.length := by
  simpa using congrArg List.length (marked_snd bLast ps)

/-- What the loop needs of a unit: one that an `int` can measure. -/
structure Measurable (nalu : NALU) : Prop where
  ne_nil : nalu ≠ []
  length : nalu.length < 2 ^ 31

/-- One round of the loop; `bLast` tells the last unit. -/
theorem onNALUs_cons (pts : Pts) (nalu : NALU) (data : List NALU) {nNALUs i : Int}
    (hcount : i + (nalu :: data).length = nNALUs) (conn : RTSPClientConnection Pts) :
    conn.onNALUs env pts nNALUs i (nalu :: data) =
      (conn.onNALU env pts data.isEmpty nalu).bind fun first =>
        (first.1.onNALUs env pts nNALUs (i + 1) data).map fun rest =>
          (rest.1, first.2 ++ rest.2) := by
  have hlength : ((nalu :: data).length : Int) = data.length + 1 := by simp
  have hmore : i < nNALUs := by omega
  have hlast : decide (i = nNALUs - 1) = data.isEmpty := by
    cases data with
    | nil =>
      rw [List.length_nil] at hlength
      exact decide_eq_true (by omega)
    | cons next data =>
      have hpos : (0 : Int) < (next :: data).length := Int.natCast_pos.mpr (by simp)
      exact decide_eq_false (by omega)
  rw [onNALUs, if_pos hmore, hlast]
  cases conn.onNALU env pts data.isEmpty nalu with
  | none => rfl
  | some first => cases h : first.1.onNALUs env pts nNALUs (i + 1) data <;> simp [h]

/-- Behind the first IDR picture each unit is sent. -/
theorem onNALU_playing (pts : Pts) (bLast : Bool) {nalu : NALU} (hnalu : Measurable nalu)
    {conn : RTSPClientConnection Pts} (hfirst : conn.bFirst = false) :
    conn.onNALU env pts bLast nalu =
      some (conn.transmitAll env pts (marked bLast (payloads nalu))) := by
  unfold onNALU
  rw [if_neg (Bool.eq_false_iff.mp hfirst)]
  exact sendNALU_eq pts bLast hnalu.ne_nil hnalu.length conn

/-- After the first IDR unit the loop sends everything. -/
theorem onNALUs_playing (pts : Pts) {data : List NALU} (hdata : ∀ nalu ∈ data, Measurable nalu)
    {nNALUs i : Int} (hcount : i + data.length = nNALUs) {conn : RTSPClientConnection Pts}
    (hfirst : conn.bFirst = false) :
    conn.onNALUs env pts nNALUs i data =
      some (conn.transmitAll env pts (marked true (data.flatMap payloads))) := by
  induction data generalizing i conn with
  | nil => rfl
  | cons nalu data ih =>
    have hrest : i + 1 + data.length = nNALUs := by
      rw [List.length_cons] at hcount
      omega
    have hstill : ∀ ps, (conn.transmitAll env pts ps).1.bFirst = false := fun ps =>
      (follows_transmitAll pts ps conn).bFirst.trans hfirst
    have ih := ih (fun n hn => hdata n (List.mem_cons_of_mem _ hn)) hrest
      (hstill (marked data.isEmpty (payloads nalu)))
    rw [onNALUs_cons pts nalu data hcount, onNALU_playing pts _ (hdata nalu (by simp)) hfirst,
      Option.bind_some, ih, Option.map_some, List.flatMap_cons]
    cases data with
    | nil => simp [marked, transmitAll]
    | cons next data =>
      have hne : (next :: data).flatMap payloads ≠ [] := by
        simp [payloads_ne_nil next]
      rw [← marked_append true (payloads nalu) hne, transmitAll_append]
      rfl

def isIDR : NALU → Bool
  | [] => false
  | header :: _ => unitType header = 5#8

/-- What is sent of the units: before the first IDR unit nothing. -/
def fromIDR (bFirst : Bool) (data : List NALU) : List NALU :=
  if bFirst then data.dropWhile fun nalu => !isIDR nalu else data

/-- From an IDR picture on all units are taken. -/
theorem fromIDR_found {nalu : NALU} (h : isIDR nalu = true) (data : List NALU) :
    fromIDR true (nalu :: data) = nalu :: data := by
  simp [fromIDR, h]

theorem fromIDR_skip {nalu : NALU} (h : isIDR nalu = false) (data : List NALU) :
    fromIDR true (nalu :: data) = fromIDR true data := by
  simp [fromIDR, h]

/-- An IDR unit ends the waiting, any other unit is passed over. -/
theorem onNALU_waiting (pts : Pts) (bLast : Bool) {nalu : NALU} (hne : nalu ≠ [])
    {conn : RTSPClientConnection Pts} (hfirst : conn.bFirst = true) :
    conn.onNALU env pts bLast nalu =
      if isIDR nalu then onNALU env pts bLast nalu { conn with bFirst := false }
      else some (conn, []) := by
  cases nalu with
  | nil => contradiction
  | cons header data =>
    unfold onNALU
    rw [if_pos hfirst]
    by_cases h : header &&& 0x1f#8 = 5#8
    · simp [isIDR, unitType, h]
    · simp [isIDR, unitType, h]

/-- Until there is an IDR picture nothing is sent, and from it on everything is. -/
theorem onNALUs_waiting (pts : Pts) {data : List NALU} (hdata : ∀ nalu ∈ data, Measurable nalu)
    {nNALUs i : Int} (hcount : i + data.length = nNALUs) {conn : RTSPClientConnection Pts}
    (hfirst : conn.bFirst = true) :
    conn.onNALUs env pts nNALUs i data =
      some (transmitAll env pts (marked true ((fromIDR true data).flatMap payloads))
        { conn with bFirst := (fromIDR true data).isEmpty }) := by
  induction data generalizing i with
  | nil =>
    have hconn : { conn with bFirst := true } = conn := by rw [← hfirst]
    exact congrArg (fun conn => some (conn, [])) hconn.symm
  | cons nalu data ih =>
    have hrest : i + 1 + data.length = nNALUs := by
      rw [List.length_cons] at hcount
      omega
    have hnalu := hdata nalu (by simp)
    cases h : isIDR nalu with
    | false =>
      have hskip : conn.onNALU env pts data.isEmpty nalu = some (conn, []) := by
        rw [onNALU_waiting pts _ hnalu.ne_nil hfirst, h]
        rfl
      rw [onNALUs_cons pts nalu data hcount, hskip, Option.bind_some,
        ih (fun n hn => hdata n (List.mem_cons_of_mem _ hn)) hrest, fromIDR_skip h]
      rfl
    | true =>
      have hstart : conn.onNALU env pts data.isEmpty nalu =
          onNALU env pts data.isEmpty nalu { conn with bFirst := false } := by
        rw [onNALU_waiting pts _ hnalu.ne_nil hfirst, h]
        rfl
      rw [onNALUs_cons pts nalu data hcount, hstart, ← onNALUs_cons pts nalu data hcount,
        onNALUs_playing pts hdata hcount rfl, fromIDR_found h]
      rfl

/-- While it plays, a call sends the units from the first IDR picture on, and the last
packet is marked. -/
theorem onVideoData_eq (pts : Pts) {data : List NALU} (hdata : ∀ nalu ∈ data, Measurable nalu)
    (hcount : data.length < 2 ^ 31) {conn : RTSPClientConnection Pts}
    (hplaying : conn.state = .playing) :
    conn.onVideoData env pts data =
      some (transmitAll env pts (marked true ((fromIDR conn.bFirst data).flatMap payloads))
        { conn with bFirst := conn.bFirst && (fromIDR conn.bFirst data).isEmpty }) := by
  have hstop : ¬conn.state ≠ .playing := not_not.mpr hplaying
  have hnNALUs : 0 + (data.length : Int) = (BitVec.ofNat 32 data.length).toInt := by
    rw [toInt_ofNat_of_lt hcount, Int.zero_add]
  rw [onVideoData, if_neg hstop]
  cases hfirst : conn.bFirst with
  | false =>
    have hconn : { conn with bFirst := false } = conn := by rw [← hfirst]
    rw [onNALUs_playing pts hdata hnNALUs hfirst, Bool.false_and, hconn]
    rfl
  | true => rw [onNALUs_waiting pts hdata hnNALUs hfirst, Bool.true_and]

/-! ### Any number of calls -/

/-- A call of `onVideoData`, with what it finds around it. -/
structure VideoData (Pts : Type) where
  env : Env Pts
  pts : Pts
  data : List NALU

/-- The calls one after the other, with what `sendPacket` got in each. -/
def onVideoDatas : List (VideoData Pts) → RTSPClientConnection Pts →
    Option (RTSPClientConnection Pts × List (List Sent))
  | [], conn => some (conn, [])
  | call :: calls, conn => do
    let first ← conn.onVideoData call.env call.pts call.data
    let rest ← onVideoDatas calls first.1
    return (rest.1, first.2 :: rest.2)

/-- Units of the types 1 to 23, in lengths and a number that an `int` holds. -/
structure VideoData.WellFormed (call : VideoData Pts) : Prop where
  sendable : ∀ nalu ∈ call.data, Sendable nalu
  length : ∀ nalu ∈ call.data, nalu.length < 2 ^ 31
  count : call.data.length < 2 ^ 31

theorem VideoData.WellFormed.measurable {call : VideoData Pts} (h : call.WellFormed) :
    ∀ nalu ∈ call.data, Measurable nalu := by
  intro nalu hnalu
  refine ⟨?_, h.length nalu hnalu⟩
  rintro rfl
  exact h.sendable [] hnalu

/-- The packets of one frame, as they stand on their own. -/
structure FramePackets (packets : List (List Byte)) : Prop where
  sizes : ∀ packet ∈ packets, packet.length ≤ max_packet_size
  timestamps : ∀ packet ∈ packets, ∀ packet' ∈ packets, timestamp packet = timestamp packet'
  markers : packets ≠ [] →
    packets.map marker = List.replicate (packets.length - 1) false ++ [true]

/-- The packets of one call make up a frame for a receiver. -/
theorem framePackets_packetsFrom (rtp ssrc : BitVec 64) (seq : Nat) (nalus : List NALU) :
    FramePackets (packetsFrom rtp ssrc seq (marked true (nalus.flatMap payloads))) where
  sizes := by
    refine forall_mem_packetsFrom rtp ssrc seq ?_
    intro seq p hp
    have hpayload : p.2 ∈ nalus.flatMap payloads := by
      rw [← marked_snd true (nalus.flatMap payloads)]
      exact List.mem_map_of_mem hp
    obtain ⟨nalu, -, hmem⟩ := List.mem_flatMap.mp hpayload
    have hlength : (rtpPacket rtp ssrc seq p.1 p.2).length = rtp_header_size + p.2.length := by
      simp [rtpPacket, tonet_short, tonet_long, rtp_header_size]
      omega
    have hsizes : max_packet_size = rtp_header_size + max_single_packet := rfl
    rw [hlength, hsizes]
    exact Nat.add_le_add_left (length_le_of_mem_payloads p.2 hmem) _
  timestamps := by
    have hrtp : ∀ packet ∈ packetsFrom rtp ssrc seq (marked true (nalus.flatMap payloads)),
        timestamp packet = tonet_long rtp :=
      forall_mem_packetsFrom rtp ssrc seq fun _ _ _ => rfl
    intro packet hpacket packet' hpacket'
    rw [hrtp packet hpacket, hrtp packet' hpacket']
  markers := by
    intro hne
    have hpayloads : nalus.flatMap payloads ≠ [] := by
      intro hnil
      rw [hnil] at hne
      exact hne rfl
    rw [packetsFrom_markers, length_packetsFrom, length_marked]
    exact marked_fst hpayloads

/-- What one call does to the connection and sends. -/
structure OneCall (call : VideoData Pts) (conn conn' : RTSPClientConnection Pts)
    (sent : List (List Byte)) : Prop where
  state : conn'.state = .playing
  packets : conn'.packets = conn.packets + sent.length
  bFirst : conn'.bFirst = (conn.bFirst && (fromIDR conn.bFirst call.data).isEmpty)
  frame : FramePackets sent
  sequenceNumbers :
    sent.map sequenceNumber = (List.range' conn.packets sent.length).map (· % 2 ^ 16)
  payloads : sent.map payload = (fromIDR conn.bFirst call.data).flatMap payloads

/-- What one call does, for units that can be measured. -/
theorem onVideoData_oneCall {call : VideoData Pts} (hcall : call.WellFormed)
    {conn : RTSPClientConnection Pts} (hplaying : conn.state = .playing) :
    ∃ conn' sent, conn.onVideoData call.env call.pts call.data = some (conn', sent) ∧
      OneCall call conn conn' (sent.map (·.packet)) := by
  let ps := marked true ((fromIDR conn.bFirst call.data).flatMap payloads)
  let opened := { conn with bFirst := conn.bFirst && (fromIDR conn.bFirst call.data).isEmpty }
  have hfollows : Follows call.env call.pts ps.length opened
      (opened.transmitAll call.env call.pts ps).1 := follows_transmitAll call.pts ps opened
  have hsent : (opened.transmitAll call.env call.pts ps).2.map (·.packet) =
      packetsFrom (opened.stamp call.env call.pts) opened.ssrc opened.packets ps :=
    transmitAll_packets call.pts ps opened
  refine ⟨_, _, onVideoData_eq call.pts hcall.measurable hcall.count hplaying, ?_⟩
  rw [hsent]
  constructor
  case state => exact hfollows.state.trans hplaying
  case packets => rw [length_packetsFrom]; exact hfollows.packets
  case bFirst => exact hfollows.bFirst
  case frame => exact framePackets_packetsFrom _ _ _ _
  case sequenceNumbers => rw [length_packetsFrom]; exact packetsFrom_sequenceNumbers _ _ _ _
  case payloads => rw [packetsFrom_payloads]; exact marked_snd _ _

/-- The units of two calls are passed over or sent as those of one call. -/
theorem fromIDR_append (bFirst : Bool) (data rest : List NALU) :
    fromIDR bFirst (data ++ rest) =
      fromIDR bFirst data ++ fromIDR (bFirst && (fromIDR bFirst data).isEmpty) rest := by
  cases bFirst with
  | false => rfl
  | true =>
    rw [Bool.true_and]
    induction data with
    | nil => rfl
    | cons nalu data ih =>
      cases h : isIDR nalu with
      | false => rw [List.cons_append, fromIDR_skip h, fromIDR_skip h, ih]
      | true =>
        rw [List.cons_append, fromIDR_found h, fromIDR_found h]
        rfl

theorem mem_of_mem_fromIDR {bFirst : Bool} {data : List NALU} {nalu : NALU}
    (h : nalu ∈ fromIDR bFirst data) : nalu ∈ data := by
  cases bFirst with
  | false => exact h
  | true => exact (List.dropWhile_sublist _).subset h

/-- The packets of a row of calls, frame by frame. -/
structure Streamed (calls : List (VideoData Pts)) (conn : RTSPClientConnection Pts)
    (sent : List (List (List Byte))) : Prop where
  frames : sent.length = calls.length
  packets : ∀ frame ∈ sent, FramePackets frame
  sequenceNumbers : sent.flatten.map sequenceNumber =
    (List.range' conn.packets sent.flatten.length).map (· % 2 ^ 16)

/-- Over many calls exactly the units from the first IDR picture on are sent, in order. -/
theorem onVideoDatas_payloads {calls : List (VideoData Pts)}
    (hcalls : ∀ call ∈ calls, call.WellFormed) {conn : RTSPClientConnection Pts}
    (hplaying : conn.state = .playing) :
    ∃ conn' sent, conn.onVideoDatas calls = some (conn', sent) ∧
      Streamed calls conn (sent.map (·.map (·.packet))) ∧
      (sent.map (·.map (·.packet))).flatten.map payload =
        (fromIDR conn.bFirst (calls.flatMap (·.data))).flatMap payloads := by
  induction calls generalizing conn with
  | nil =>
    have hnone : fromIDR conn.bFirst [] = [] := by cases conn.bFirst <;> rfl
    refine ⟨conn, [], rfl, ⟨rfl, by simp, rfl⟩, ?_⟩
    rw [List.flatMap_nil, hnone]
    rfl
  | cons call calls ih =>
    obtain ⟨conn₁, sent, hfirst, hone⟩ := onVideoData_oneCall (hcalls call (by simp)) hplaying
    obtain ⟨conn₂, rest, hrest, hstreamed, hpayloads⟩ :=
      ih (fun c hc => hcalls c (List.mem_cons_of_mem _ hc)) hone.state
    refine ⟨conn₂, sent :: rest, ?_, ?_, ?_⟩
    · simp [onVideoDatas, hfirst, hrest]
    · constructor
      case frames => simpa using hstreamed.frames
      case packets =>
        intro frame hframe
        rcases List.mem_cons.mp hframe with rfl | hmem
        · exact hone.frame
        · exact hstreamed.packets frame hmem
      case sequenceNumbers =>
        rw [List.map_cons, List.flatten_cons, List.map_append, hone.sequenceNumbers,
          hstreamed.sequenceNumbers, hone.packets, ← List.map_append, List.range'_append_1,
          List.length_append]
    · rw [List.map_cons, List.flatten_cons, List.map_append, hone.payloads, hpayloads,
        hone.bFirst, ← List.flatMap_append, ← fromIDR_append, List.flatMap_cons]

/-- Packetisation loses and corrupts nothing, over any number of frames: a receiver
that starts with nothing ends with the units from the first IDR unit on, and no
unit is left unfinished. -/
theorem packets_reassemble (calls : List (VideoData Pts)) (conn : RTSPClientConnection Pts)
    (hplaying : conn.state = .playing) (hcalls : ∀ call ∈ calls, call.WellFormed) :
    ∃ conn' sent, conn.onVideoDatas calls = some (conn', sent) ∧
      Streamed calls conn (sent.map (·.map (·.packet))) ∧
      receiveAll ⟨[], none⟩ ((sent.map (·.map (·.packet))).flatten.map payload) =
        some ⟨fromIDR conn.bFirst (calls.flatMap (·.data)), none⟩ := by
  obtain ⟨conn', sent, hrun, hstreamed, hpayloads⟩ := onVideoDatas_payloads hcalls hplaying
  have hsendable : ∀ nalu ∈ fromIDR conn.bFirst (calls.flatMap (·.data)), Sendable nalu := by
    intro nalu hnalu
    obtain ⟨call, hcall, hmem⟩ := List.mem_flatMap.mp (mem_of_mem_fromIDR hnalu)
    exact (hcalls call hcall).sendable nalu hmem
  refine ⟨conn', sent, hrun, hstreamed, ?_⟩
  rw [hpayloads, receiveAll_flatMap_payloads [] hsendable, List.nil_append]

/-- Whole seconds on a 90 kHz clock. -/
def seconds : Env Int where
  ticks pts base := BitVec.ofInt 64 ((pts - base) * 90000)
  random := 1804289383#64
  random_ne_zero := by decide
  ntp := 0
  now n := n

/-- A connection right after PLAY. -/
def played : RTSPClientConnection Int where
  sRTP := some 5004
  sRTCP := some 5005
  session := some "1"
  state := .playing
  packets := 0
  bytesSent := 0
  ssrc := 7#64
  bFirst := true
  ntpBase := 0
  rtpBase := 0
  ptsBase := 0
  packetsReported := 0
  bytesReported := 0
  sentRTCP := none

/-- A frame without an IDR unit, and one of an IDR unit and another. -/
def twoFrames : List (VideoData Int) :=
  [⟨seconds, 0, [[0x41#8, 1#8]]⟩, ⟨seconds, 1, [[0x65#8, 0x88#8], [0x41#8, 2#8]]⟩]

theorem packets_reassemble_two_frames :
    ∃ conn' sent, played.onVideoDatas twoFrames = some (conn', sent) ∧
      Streamed twoFrames played (sent.map (·.map (·.packet))) ∧
      receiveAll ⟨[], none⟩ ((sent.map (·.map (·.packet))).flatten.map payload) =
        some ⟨[[0x65#8, 0x88#8], [0x41#8, 2#8]], none⟩ := by
  refine packets_reassemble twoFrames played rfl ?_
  intro call hcall
  rcases List.mem_pair.mp hcall with rfl | rfl
  · exact ⟨by simp [Sendable, unitType], by simp, by simp⟩
  · exact ⟨by simp [Sendable, unitType], by simp, by simp⟩

/-- From 2^31 bytes on the `int` is negative and nothing can be copied. -/
theorem onNALU_too_long (pts : Pts) (bLast : Bool) {nalu : NALU} (h : 2 ^ 31 ≤ nalu.length)
    (h' : nalu.length < 2 ^ 32) (hidr : isIDR nalu = true) (conn : RTSPClientConnection Pts) :
    conn.onNALU env pts bLast nalu = none := by
  have hneg := toInt_ofNat_neg h h'
  have hshort : (BitVec.ofNat 32 nalu.length).toInt < max_single_packet :=
    Int.lt_trans hneg (by decide)
  have hsend : ∀ conn : RTSPClientConnection Pts, conn.sendNALU env pts bLast nalu = none := by
    intro conn
    unfold sendNALU
    simp only [if_pos hshort, if_pos hneg]
  have hne : nalu ≠ [] := by
    rintro rfl
    cases hidr
  cases hfirst : conn.bFirst with
  | false =>
    unfold onNALU
    rw [if_neg (Bool.eq_false_iff.mp hfirst), hsend]
  | true =>
    rw [onNALU_waiting pts bLast hne hfirst, if_pos hidr]
    unfold onNALU
    exact hsend _

/-- A unit whose length is negative as an `int` makes the call fail. -/
theorem onVideoDatas_too_long (call : VideoData Pts) {nalu : NALU} (hdata : call.data = [nalu])
    (h : 2 ^ 31 ≤ nalu.length) (h' : nalu.length < 2 ^ 32) (hidr : isIDR nalu = true)
    {conn : RTSPClientConnection Pts} (hplaying : conn.state = .playing) :
    conn.onVideoDatas [call] = none := by
  have hloop : conn.onNALUs call.env call.pts 1 0 [nalu] = none := by
    have hcount : (0 : Int) + [nalu].length = 1 := rfl
    rw [onNALUs_cons call.pts nalu [] hcount, List.isEmpty_nil,
      onNALU_too_long call.pts true h h' hidr, Option.bind_none]
  have hframe : conn.onVideoData call.env call.pts call.data = none := by
    rw [onVideoData, if_neg (not_not.mpr hplaying), hdata]
    exact hloop
  rw [onVideoDatas, hframe]
  rfl

/-- An IDR unit of 2^31 bytes. -/
def hugeUnit : NALU := 0x65#8 :: List.replicate (2 ^ 31 - 1) 0#8

theorem length_hugeUnit : hugeUnit.length = 2 ^ 31 := by
  rw [hugeUnit, List.length_cons, List.length_replicate, Nat.sub_add_cancel Nat.one_le_two_pow]

theorem huge_unit_is_not_sent :
    Sendable hugeUnit ∧ played.onVideoDatas [⟨seconds, 0, [hugeUnit]⟩] = none := by
  constructor
  · exact ⟨by decide, by decide⟩
  · exact onVideoDatas_too_long _ rfl length_hugeUnit.ge (by rw [length_hugeUnit]; decide) rfl rfl

/-! ### Sending leaves the session alone -/

/-- The state, the session and the two sockets are the same. -/
structure SameSession (conn conn' : RTSPClientConnection Pts) : Prop where
  state : conn'.state = conn.state
  session : conn'.session = conn.session
  sRTP : conn'.sRTP = conn.sRTP
  sRTCP : conn'.sRTCP = conn.sRTCP

theorem SameSession.refl (conn : RTSPClientConnection Pts) : SameSession conn conn :=
  ⟨rfl, rfl, rfl, rfl⟩

theorem SameSession.trans {conn conn' conn'' : RTSPClientConnection Pts}
    (h : SameSession conn conn') (h' : SameSession conn' conn'') : SameSession conn conn'' :=
  ⟨h'.state.trans h.state, h'.session.trans h.session, h'.sRTP.trans h.sRTP,
    h'.sRTCP.trans h.sRTCP⟩

section Sending

variable (env : Env Pts)

theorem sameSession_writeHeader (bMarker : Bool) (pts : Pts) (conn : RTSPClientConnection Pts) :
    SameSession conn (conn.writeHeader env bMarker pts).1 := by
  change SameSession conn (conn.mapTime env pts)
  unfold mapTime
  split
  · exact ⟨rfl, rfl, rfl, rfl⟩
  · exact .refl conn

theorem sameSession_sendPacket (packet : List Byte) (conn : RTSPClientConnection Pts) :
    SameSession conn (conn.sendPacket env packet).1 := by
  unfold sendPacket
  dsimp only
  split
  · exact ⟨rfl, rfl, rfl, rfl⟩
  · exact ⟨rfl, rfl, rfl, rfl⟩

theorem sameSession_sendFragments (pts : Pts) (bLast : Bool) (naluHeader : Byte) (bStart : Bool)
    (pSource : List Byte) (cBytes : Nat) (conn : RTSPClientConnection Pts) :
    SameSession conn
      (conn.sendFragments env pts bLast naluHeader bStart pSource cBytes).1 := by
  induction cBytes using Nat.strongRecOn generalizing bStart pSource conn with
  | ind cBytes ih =>
    rw [sendFragments]
    split
    · exact .refl conn
    · rename_i hne
      have hless : cBytes - min cBytes max_fragment_packet < cBytes := by
        simp only [max_fragment_packet, max_single_packet, max_packet_size, rtp_header_size]
        omega
      have hheader := sameSession_writeHeader env
        (bLast && decide (min cBytes max_fragment_packet = cBytes)) pts conn
      exact (hheader.trans (sameSession_sendPacket env _ _)).trans (ih _ hless false _ _)

variable {env}

theorem sameSession_sendNALU {pts : Pts} {bLast : Bool} {nalu : NALU}
    {conn : RTSPClientConnection Pts} {r : RTSPClientConnection Pts × List Sent}
    (h : sendNALU env pts bLast nalu conn = some r) : SameSession conn r.1 := by
  unfold sendNALU at h
  dsimp only at h
  split at h
  · split at h
    · cases h
    · cases h
      exact (sameSession_writeHeader env bLast pts conn).trans (sameSession_sendPacket env _ _)
  · split at h
    · cases h
    · cases h
      exact sameSession_sendFragments env pts bLast _ true _ _ conn

/-- Waiting for an IDR picture does not change the session. -/
theorem sameSession_onNALU {pts : Pts} {bLast : Bool} {nalu : NALU}
    {conn : RTSPClientConnection Pts} {r : RTSPClientConnection Pts × List Sent}
    (h : onNALU env pts bLast nalu conn = some r) : SameSession conn r.1 := by
  unfold onNALU at h
  split at h
  · split at h
    · cases h
    · split at h
      · cases h
        exact .refl conn
      · have hsent := sameSession_sendNALU h
        exact ⟨hsent.state, hsent.session, hsent.sRTP, hsent.sRTCP⟩
  · exact sameSession_sendNALU h

theorem sameSession_onNALUs {pts : Pts} {nNALUs i : Int} {data : List NALU}
    {conn : RTSPClientConnection Pts} {r : RTSPClientConnection Pts × List Sent}
    (h : onNALUs env pts nNALUs i data conn = some r) : SameSession conn r.1 := by
  induction data generalizing i conn r with
  | nil =>
    cases h
    exact .refl conn
  | cons nalu data ih =>
    rw [onNALUs] at h
    split at h
    · obtain ⟨first, hfirst, h⟩ := Option.bind_eq_some_iff.mp h
      obtain ⟨rest, hrest, h⟩ := Option.bind_eq_some_iff.mp h
      cases h
      have hall := ih hrest
      exact (sameSession_onNALU hfirst).trans hall
    · cases h
      exact .refl conn

/-- No call of the encoder changes the session. -/
theorem sameSession_onVideoData {pts : Pts} {data : List NALU} {conn : RTSPClientConnection Pts}
    {r : RTSPClientConnection Pts × List Sent} (h : onVideoData env pts data conn = some r) :
    SameSession conn r.1 := by
  unfold onVideoData at h
  split at h
  · cases h
    exact .refl conn
  · exact sameSession_onNALUs h

end Sending

end RTSPClientConnection

end Sogx
