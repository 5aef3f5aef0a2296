import Sogx.Native.AmqpFrame

/-!
`amqp_socket.c` of `rabbitmq-c`: waiting for the next frame.

What the socket brings comes in reads that are cut anyhow. A connection `Brings` frames
if these are what is queued, and what the bytes in it and in the reads to come make up.

* `wait_frame`: waiting takes the first of the frames that a connection brings.
* `frames_arrive`: frames that were sent are waited for one after another, each one once,
  however their bytes are cut, and the part of a frame behind them does not come out.
-/

namespace Sogx.Amqp

open Sogx.Lib

def Frame.isHeartbeat (f : Frame) : Bool :=
  match f.payload with
  | .heartbeat => true
  | _ => false

/-- `amqp_connection_state_t`: `sock` is what is in the buffer of the socket and not
consumed, `reads` is what `recv` will return. -/
structure Connection where
  input : Input
  sock : List Byte
  reads : List (List Byte)
  queued : List Frame

def newConnection (reads : List (List Byte)) : Connection := ⟨newInput, [], reads, []⟩

/-- The loop of `wait_frame_inner` while `amqp_data_in_buffer`, for at most `fuel` turns. -/
def drain : Nat → Input → List Byte → Except (Option Status) (Option Frame × Input × List Byte)
  | _, input, [] => .ok (none, input, [])
  | 0, _, _ :: _ => .error none
  | fuel + 1, input, b :: sock => do
    let (decoded, input, taken) ← amqp_handle_input input (b :: sock)
    match decoded with
    | some frame =>
      if frame.isHeartbeat then drain fuel input ((b :: sock).drop taken)
      else return (some frame, input, (b :: sock).drop taken)
    -- a frame that is incomplete or ignored
    | none => drain fuel input ((b :: sock).drop taken)

/-- `wait_frame_inner` without a timeout. It waits for ever when nothing comes; that is
no frame here. -/
def wait_frame_inner : List (List Byte) → Input → List Byte →
    Except (Option Status) (Option Frame × Input × List Byte × List (List Byte))
  | [], input, sock => do
    let (decoded, input, sock) ← drain sock.length input sock
    return (decoded, input, sock, [])
  | bytes :: reads, input, sock => do
    let (decoded, input, sock) ← drain sock.length input sock
    match decoded with
    | some frame => return (some frame, input, sock, bytes :: reads)
    | none => wait_frame_inner reads input bytes

def amqp_simple_wait_frame (c : Connection) : Except (Option Status) (Option Frame × Connection) :=
  match c.queued with
  | frame :: queued => .ok (some frame, { c with queued := queued })
  | [] => do
    let (decoded, input, sock, reads) ← wait_frame_inner c.reads c.input c.sock
    return (decoded, { c with input := input, sock := sock, reads := reads })

/-- The frames of `n` calls. -/
def receive : Nat → Connection → Except (Option Status) (List Frame × Connection)
  | 0, c => .ok ([], c)
  | n + 1, c => do
    let (decoded, c) ← amqp_simple_wait_frame c
    let (frames, c) ← receive n c
    return (decoded.toList ++ frames, c)

/-- What is sent for frames, each with the outbound buffer that it is built in. -/
def sendFrames : List (List Byte × Frame) → Except Status (List Byte)
  | [] => .ok []
  | (bytes, frame) :: sends => do
    let sent ← amqp_send_frame bytes frame
    let rest ← sendFrames sends
    return sent ++ rest

/-! ### The frames that a connection brings -/

/-- With the input as it is, `bytes` make up the frames and a part of another one. -/
inductive Ahead : Input → List Byte → List Frame → Prop
  | last {w pre bytes more : List Byte} {input : Input} : Sized w → Reading w input pre →
      pre ++ bytes ++ more = w → more ≠ [] → Ahead input bytes []
  | next {f : Frame} {fs : List Frame} {pre got bytes : List Byte} {input : Input} : f.Fits →
      Reading f.octets input pre → pre ++ got = f.octets → got ≠ [] → Ahead returnToIdle bytes fs →
      Ahead input (got ++ bytes) (f :: fs)

/-- The frames that are not passed over. -/
def content (fs : List Frame) : List Frame := fs.filter fun f => !f.isHeartbeat

theorem content_cons (f : Frame) (fs : List Frame) :
    content (f :: fs) = if f.isHeartbeat then content fs else f :: content fs := by
  rw [content, List.filter_cons]
  cases f.isHeartbeat with
  | true => rfl
  | false => rfl

theorem Ahead.eq_nil {input : Input} {fs : List Frame} (h : Ahead input [] fs) : fs = [] := by
  generalize hbytes : ([] : List Byte) = bytes at h
  cases h with
  | last => rfl
  | next _ _ _ hgot => exact absurd (List.append_eq_nil_iff.mp hbytes.symm).1 hgot

/-- The loop over the buffer takes the first frame that is whole in it, or all bytes. -/
theorem drain_ahead : ∀ (fuel : Nat) (input : Input) (sock later : List Byte) (fs : List Frame),
    sock.length ≤ fuel → Ahead input (sock ++ later) fs →
      ∃ decoded input' sock' fs', drain fuel input sock = .ok (decoded, input', sock') ∧
        Ahead input' (sock' ++ later) fs' ∧ content fs = decoded.toList ++ content fs' ∧
          (decoded = none → sock' = [])
  | fuel, input, [], later, fs, _, h => ⟨none, input, [], fs, by rw [drain], h, rfl, fun _ => rfl⟩
  | 0, _, b :: sock, _, _, hfuel, _ => absurd hfuel (Nat.not_succ_le_zero _)
  | fuel + 1, input, b :: sock, later, fs, hfuel, h => by
      have hne : b :: sock ≠ [] := List.cons_ne_nil b sock
      -- a part of a frame is all there is, and is taken
      have hpart {w pre rest : List Byte} (hw : Sized w) (hin : Reading w input pre)
          (hsplit : pre ++ (b :: sock) ++ rest = w) (hrest : rest ≠ []) :
          ∃ input', drain (fuel + 1) input (b :: sock) = .ok (none, input', []) ∧
            Reading w input' (pre ++ (b :: sock)) := by
        obtain ⟨input', hhandle, hin'⟩ := hin.part hw hsplit hne hrest
        refine ⟨input', ?_, hin'⟩
        rw [drain, hhandle]
        simp only [bind, Except.bind, List.drop_length]
        rw [drain]
      generalize hbytes : b :: sock ++ later = bytes at h
      cases h with
      | last hw hin hsplit hmore =>
          rw [← hbytes] at hsplit
          obtain ⟨input', hdrain, hin'⟩ := @hpart _ _ (later ++ _) hw hin
            (by rw [← hsplit]; simp only [List.append_assoc]) (List.append_ne_nil_of_right_ne_nil _ hmore)
          exact ⟨none, input', [], [], hdrain,
            .last hw hin' (by rw [← hsplit]; simp only [List.append_assoc, List.nil_append]) hmore, rfl, fun _ => rfl⟩
      | @next f fs pre got bytes _ hfits hin hsplit hgot hrest =>
          have hcut : (∃ more, b :: sock = got ++ more ∧ bytes = more ++ later) ∨
              ∃ more, more ≠ [] ∧ got = b :: sock ++ more ∧ later = more ++ bytes := by
            obtain ⟨more, hsock, hmore⟩ | ⟨more, hgot', hlater⟩ := List.append_eq_append_iff.mp hbytes.symm
            · exact .inl ⟨more, hsock, hmore⟩
            · by_cases hempty : more = []
              · rw [hempty, List.append_nil] at hgot'
                rw [hempty, List.nil_append] at hlater
                exact .inl ⟨[], by rw [hgot', List.append_nil], by rw [hlater, List.nil_append]⟩
              · exact .inr ⟨more, hempty, hgot', hlater⟩
          obtain ⟨more, hsock, rfl⟩ | ⟨more, hmore, rfl, rfl⟩ := hcut
          · have hhandle : amqp_handle_input input (got ++ more) = .ok (some f, returnToIdle, got.length) :=
              (hin.whole hfits.sized hsplit hgot).trans (handleBody_octets hfits _)
            cases hbeat : f.isHeartbeat with
            | true =>
                have hless : more.length ≤ fuel := by
                  rw [hsock, List.length_append] at hfuel
                  have hpos := List.length_pos_iff.mpr hgot
                  omega
                obtain ⟨decoded, input', sock', fs', hdrain, hahead, hcontent, hempty⟩ :=
                  drain_ahead fuel returnToIdle more later fs hless hrest
                refine ⟨decoded, input', sock', fs', ?_, hahead, ?_, hempty⟩
                · rw [drain, hsock, hhandle]
                  simp only [bind, Except.bind, hbeat, if_true, List.drop_left, hdrain]
                · rw [content_cons, if_pos hbeat, hcontent]
            | false =>
                refine ⟨some f, returnToIdle, more, fs, ?_, hrest, ?_, nofun⟩
                · rw [drain, hsock, hhandle]
                  simp only [bind, Except.bind, pure, Except.pure, hbeat, Bool.false_eq_true, if_false, List.drop_left]
                · rw [content_cons, hbeat]
                  rfl
          · obtain ⟨input', hdrain, hin'⟩ := hpart hfits.sized hin (by rw [List.append_assoc, hsplit]) hmore
            have hahead : Ahead input' (more ++ bytes) (f :: fs) :=
              .next hfits hin' (by rw [List.append_assoc, hsplit]) hmore hrest
            exact ⟨none, input', [], f :: fs, hdrain, hahead, rfl, fun _ => rfl⟩

/-- Reads are made until there is a frame, or until there are none. -/
theorem wait_ahead : ∀ (reads : List (List Byte)) (input : Input) (sock : List Byte) (fs : List Frame),
    Ahead input (sock ++ reads.flatten) fs →
      ∃ decoded input' sock' reads' fs', wait_frame_inner reads input sock = .ok (decoded, input', sock', reads') ∧
        Ahead input' (sock' ++ reads'.flatten) fs' ∧ content fs = decoded.toList ++ content fs' ∧
          (decoded = none → fs' = [])
  | [], input, sock, fs, h => by
      obtain ⟨decoded, input', sock', fs', hdrain, hahead, hcontent, hempty⟩ :=
        drain_ahead sock.length input sock [] fs (Nat.le_refl _) h
      refine ⟨decoded, input', sock', [], fs', ?_, hahead, hcontent, fun hnone => ?_⟩
      · rw [wait_frame_inner, hdrain]
        rfl
      · rw [hempty hnone] at hahead
        exact hahead.eq_nil
  | bytes :: reads, input, sock, fs, h => by
      obtain ⟨decoded, input', sock', fs', hdrain, hahead, hcontent, hempty⟩ :=
        drain_ahead sock.length input sock (bytes :: reads).flatten fs (Nat.le_refl _) h
      cases decoded with
      | some frame =>
          refine ⟨some frame, input', sock', bytes :: reads, fs', ?_, hahead, hcontent, nofun⟩
          rw [wait_frame_inner, hdrain]
          rfl
      | none =>
          rw [hempty rfl, List.nil_append, List.flatten_cons] at hahead
          obtain ⟨decoded, input'', sock'', reads', fs'', hwait, hahead', hcontent', hempty'⟩ :=
            wait_ahead reads input' bytes fs' hahead
          refine ⟨decoded, input'', sock'', reads', fs'', ?_, hahead', ?_, hempty'⟩
          · rw [wait_frame_inner, hdrain]
            exact hwait
          · rw [hcontent, Option.toList_none, List.nil_append, hcontent']

/-- The frames that will come out of a connection. -/
def Connection.Brings (c : Connection) (fs : List Frame) : Prop :=
  ∃ coming, Ahead c.input (c.sock ++ c.reads.flatten) coming ∧ fs = c.queued ++ content coming

/-- A call takes the first frame, and is left waiting only when there is none. -/
theorem wait_frame {c : Connection} {fs : List Frame} (h : c.Brings fs) :
    ∃ c', amqp_simple_wait_frame c = .ok (fs.head?, c') ∧ c'.Brings fs.tail := by
  obtain ⟨coming, hahead, rfl⟩ := h
  obtain ⟨input, sock, reads, queued⟩ := c
  cases queued with
  | cons frame queued => exact ⟨⟨input, sock, reads, queued⟩, rfl, coming, hahead, rfl⟩
  | nil =>
      obtain ⟨decoded, input', sock', reads', fs', hwait, hahead', hcontent, hempty⟩ :=
        wait_ahead reads input sock coming hahead
      simp only [amqp_simple_wait_frame, hwait, List.nil_append, hcontent]
      cases decoded with
      | some frame => exact ⟨⟨input', sock', reads', []⟩, rfl, fs', hahead', rfl⟩
      | none =>
          rw [hempty rfl] at hahead' ⊢
          exact ⟨⟨input', sock', reads', []⟩, rfl, [], hahead', rfl⟩

/-- As many frames are taken as there are calls, and the others are still to come. -/
theorem receive_brings : ∀ (n : Nat) {c : Connection} {fs : List Frame}, c.Brings fs →
    ∃ c', receive n c = .ok (fs.take n, c') ∧ c'.Brings (fs.drop n)
  | 0, c, fs, h => ⟨c, rfl, h⟩
  | n + 1, c, fs, h => by
      obtain ⟨c', hwait, hbrings⟩ := wait_frame h
      obtain ⟨c'', hreceive, hbrings'⟩ := receive_brings n hbrings
      refine ⟨c'', ?_, by rwa [List.drop_tail] at hbrings'⟩
      rw [receive, hwait]
      simp only [bind, Except.bind, hreceive, pure, Except.pure]
      cases fs with
      | nil => simp
      | cons f fs => rfl

/-! ### From one end to the other -/

/-- What is sent for frames is the frames, one behind the other. -/
theorem sendFrames_octets : ∀ {sends : List (List Byte × Frame)} {sent : List Byte},
    (∀ send ∈ sends, send.1.length < 2 ^ 31) → sendFrames sends = .ok sent →
      sent = ((sends.map Prod.snd).map Frame.octets).flatten
  | [], _, _, h => by
      cases h
      rfl
  | (bytes, frame) :: sends, sent, hbuffers, h => by
      obtain ⟨octets, hframe, h⟩ := bind_eq_ok.mp h
      obtain ⟨rest, hrest, h⟩ := bind_eq_ok.mp h
      cases h
      have hoctets := (sends_octets (hbuffers _ List.mem_cons_self) hframe).2
      have hothers := sendFrames_octets (fun send hmem => hbuffers send (List.mem_cons_of_mem _ hmem)) hrest
      rw [hoctets, hothers]
      rfl

/-- Whole frames, and the part `tail` of another one behind them, from a connection that
waits for a frame. -/
theorem ahead_idle {g : Frame} {tail more : List Byte} (hg : g.Fits) (htail : tail ++ more = g.octets)
    (hmore : more ≠ []) : ∀ fs : List Frame, (∀ f ∈ fs, f.Fits) →
      Ahead returnToIdle ((fs.map Frame.octets).flatten ++ tail) fs
  | [], _ => .last hg.sized (.held []) htail hmore
  | f :: fs, h => by
      have hne : f.octets ≠ [] := fun hnil => absurd (h f List.mem_cons_self).sized.least
        (by rw [hnil]; decide)
      rw [List.map_cons, List.flatten_cons, List.append_assoc]
      exact .next (h f List.mem_cons_self) (.held []) rfl hne
        (ahead_idle hg htail hmore fs fun f hf => h f (List.mem_cons_of_mem _ hf))

/-- On a connection whose first frame is a method, frames that were sent one after another
come out one by one, in order, and each one once, however the bytes are cut. Heartbeats
are passed over, and the part of a frame that stands last is waited for. An outbound buffer
has the length `frame_max`, an `int`. -/
theorem frames_arrive (sends : List (List Byte × Frame)) (g : Frame) {sent tail more : List Byte}
    {reads : List (List Byte)} {channel : BitVec 16} {m : Method}
    (hfirst : (sends.map Prod.snd ++ [g]).head? = some ⟨channel, .method m⟩)
    (hfits : ∀ f ∈ sends.map Prod.snd ++ [g], f.Fits) (hbuffers : ∀ send ∈ sends, send.1.length < 2 ^ 31)
    (hsent : sendFrames sends = .ok sent)
    (htail : tail ++ more = g.octets) (hmore : more ≠ []) (hreads : reads.flatten = sent ++ tail) (n : Nat) :
    ∃ c, receive n (newConnection reads) = .ok ((content (sends.map Prod.snd)).take n, c) := by
  have hg : g.Fits := hfits g (List.mem_append_right _ (List.mem_singleton_self g))
  have hahead : Ahead newInput reads.flatten (sends.map Prod.snd) := by
    rw [hreads, sendFrames_octets hbuffers hsent]
    cases hsends : sends.map Prod.snd with
    | nil =>
        rw [hsends] at hfirst
        cases hfirst
        exact .last hg.sized (.initial (Nat.zero_lt_succ _) (canBeFirst_method channel m)) htail hmore
    | cons f fs =>
        rw [hsends] at hfirst hfits
        cases hfirst
        have hf := hfits _ List.mem_cons_self
        have hne : Frame.octets ⟨channel, .method m⟩ ≠ [] := fun hnil => absurd hf.sized.least (by rw [hnil]; decide)
        rw [List.map_cons, List.flatten_cons, List.append_assoc]
        exact .next hf (.initial (Nat.zero_lt_succ _) (canBeFirst_method channel m)) rfl hne
          (ahead_idle hg htail hmore fs fun f hf => hfits f (List.mem_cons_of_mem _ (List.mem_append_left _ hf)))
  obtain ⟨c, hreceive, -⟩ := receive_brings n (c := newConnection reads) ⟨_, hahead, rfl⟩
  exact ⟨c, hreceive⟩

/-- A body that comes in two reads, behind the method before it and a heartbeat. -/
theorem frames_arrive_of_three :
    ∃ c, receive 5 (newConnection [[1, 0, 0, 0, 0, 0, 4, 0, 10], [0, 51, 206, 8, 0, 0, 0, 0, 0, 0, 206, 3, 0, 1],
        [0, 0, 0, 1, 0x61, 206]])
      = .ok ([⟨0, .method ⟨.connectionCloseOk, ()⟩⟩, ⟨1, .bodyFragment [0x61]⟩], c) :=
  frames_arrive [(List.replicate 12 0, ⟨0, .method ⟨.connectionCloseOk, ()⟩⟩), ([], ⟨0, .heartbeat⟩),
      ([], ⟨1, .bodyFragment [0x61]⟩)]
    ⟨0, .heartbeat⟩ rfl
    (by
      intro f hf
      simp only [List.map_cons, List.map_nil, List.cons_append, List.nil_append, List.mem_cons, List.not_mem_nil,
        or_false] at hf
      obtain rfl | rfl | rfl | rfl := hf
      · exact ⟨trivial, Nat.le_of_ble_eq_true rfl⟩
      · exact ⟨trivial, Nat.le_of_ble_eq_true rfl⟩
      · exact ⟨trivial, Nat.le_of_ble_eq_true rfl⟩
      · exact ⟨trivial, Nat.le_of_ble_eq_true rfl⟩)
    (by decide) rfl (show [] ++ Frame.octets ⟨0, .heartbeat⟩ = Frame.octets ⟨0, .heartbeat⟩ from rfl) nofun rfl 5

end Sogx.Amqp
