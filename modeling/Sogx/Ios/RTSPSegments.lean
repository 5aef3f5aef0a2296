import Sogx.Ios.RTSPSession

/-!
`RTSPClientConnection.mm`: requests as TCP delivers them.

Each callback of the socket is taken for one message, and nothing is kept from
one to the next. A request that comes in several callbacks is answered by the
first of them when it holds the lines that are read, and its other parts are
ignored.

* `ofText_first`: the first part of a request is read like the whole request.
* `ofText_rest`: its other parts are no messages.
* `receive_segmentations`: so two such ways to cut the same requests give the
  same responses and the same state.
* `cut_before_cseq`: a cut in front of the `CSeq` line loses the request.
-/

namespace Sogx

open Sogx.Lib
open RTSPMessage (Names)

/-- A request: its lines have no line end inside, and one of them is its `CSeq`. -/
structure RTSPRequest where
  line : NSString
  headers : List NSString
  line_lines : lines '\r' '\n' line = [line]
  headers_lines : ∀ header ∈ headers, lines '\r' '\n' header = [header]
  cseq : ∃ header ∈ headers, RTSPMessage.optionOf "CSeq".toList header ≠ none

namespace RTSPRequest

/-- The lines, then an empty one. -/
def text (r : RTSPRequest) : NSString := withMarks '\r' '\n' (r.line :: r.headers ++ [[]])

/-- The byte stream of some requests. -/
def stream (rs : List RTSPRequest) : List Byte := rs.flatMap fun r => NSString.utf8 r.text

/-- The first word of the request line. -/
def command (r : RTSPRequest) : NSString := (r.line.splitOn ' ').headD []

/-- The lines that are read beside the request line: those for `CSeq` and, for a
`SETUP`, those for `Transport`. -/
def Reads (r : RTSPRequest) (header : NSString) : Prop :=
  Names "CSeq".toList header ∨
    NSString.sameIgnoringCase r.command "setup".toList = true ∧ Names "transport".toList header

instance (r : RTSPRequest) (header : NSString) : Decidable (r.Reads header) :=
  inferInstanceAs (Decidable (_ ∨ _ ∧ _))

/-- `first` holds the lines of `r` that are read, and `behind` is the rest. -/
structure Begins (r : RTSPRequest) (first behind : NSString) : Prop where
  text : first ++ behind = r.text
  whole : ∃ n, withMarks '\r' '\n' (r.line :: r.headers.take n) <+: first ∧
    ∀ header ∈ r.headers.drop n, ¬ r.Reads header

end RTSPRequest

/-- Any way to cut the stream into callbacks that are not empty. -/
structure IsCutting (rs : List RTSPRequest) (datas : List (List Byte)) : Prop where
  stream : datas.flatten = RTSPRequest.stream rs
  nonempty : ∀ data ∈ datas, data ≠ []

/-- Each request begins a callback, which holds the lines that are read, and no
callback ends inside a character. -/
inductive Segmented : List RTSPRequest → List (List Byte) → Prop where
  | nil : Segmented [] []
  | cons {r : RTSPRequest} {rs : List RTSPRequest} {first : NSString} {rest : List NSString}
      {datas : List (List Byte)} : r.Begins first rest.flatten → (∀ part ∈ rest, part ≠ []) →
      Segmented rs datas →
      Segmented (r :: rs) (NSString.utf8 first :: rest.map NSString.utf8 ++ datas)

namespace RTSPSession

variable {Pts : Type}

/-- The callbacks in order, with the responses; `hosts n` is what the `n`-th
request that is answered finds around it. -/
def receive (hosts : Nat → Host) : Nat → List (List Byte) → RTSPSession Pts →
    RTSPSession Pts × List RTSPResponse
  | _, [], s => (s, [])
  | n, data :: datas, s =>
    match s.onSocketData (hosts n) data with
    | (s, some response) =>
      let others := receive hosts (n + 1) datas s
      (others.1, response :: others.2)
    | (s, none) => receive hosts n datas s

end RTSPSession

namespace RTSPMessage

/-- All that a response depends on. -/
structure Alike (msg msg' : RTSPMessage) : Prop where
  request : msg.request = msg'.request
  cseq : msg.cseq = msg'.cseq
  ports : msg.method = .setup → msg.ports = msg'.ports

theorem Alike.method {msg msg' : RTSPMessage} (h : Alike msg msg') : msg.method = msg'.method := by
  unfold RTSPMessage.method
  rw [h.request]

theorem Alike.createResponse {msg msg' : RTSPMessage} (h : Alike msg msg') (code : Nat)
    (desc : String) : msg.createResponse code desc = msg'.createResponse code desc := by
  rw [RTSPMessage.createResponse, RTSPMessage.createResponse, h.cseq]

end RTSPMessage

namespace RTSPSession

variable {Pts : Type}

/-- To alike messages the session answers the same and changes in the same way. -/
theorem respond_alike {msg msg' : RTSPMessage} (h : RTSPMessage.Alike msg msg') (host : Host)
    (s : RTSPSession Pts) : s.respond host msg = s.respond host msg' := by
  have hmethod := h.method
  unfold respond
  simp only [← hmethod, h.createResponse]
  cases hsetup : msg.method with
  | setup => rw [h.ports hsetup]
  | options => rfl
  | describe => rfl
  | play => rfl
  | teardown => rfl
  | unknown => rfl

end RTSPSession

/-! ### What a part of a request is read as -/

theorem cr_ne_lf : '\r' ≠ '\n' := by decide

namespace RTSPMessage

theorem method_setup {msg : RTSPMessage} (h : msg.method = .setup) :
    NSString.sameIgnoringCase msg.request "setup".toList = true := by
  unfold method at h
  split at h
  · cases h
  split at h
  · cases h
  split at h
  · assumption
  split at h
  · cases h
  split at h
  · cases h
  · cases h

/-- A text of two lines or more is a message when it has a `CSeq`. -/
theorem ofText_eq {msg line : NSString} {ls : List NSString}
    (h : Lib.lines '\r' '\n' msg = line :: ls) (hls : ls ≠ []) :
    ofText msg = (valueForOption "CSeq".toList (line :: ls)).map fun strSeq =>
      ⟨line :: ls, (line.splitOn ' ').headD [], NSString.intValue strSeq⟩ := by
  have htwo : ¬ (line :: ls).length < 2 := by
    have hpos := List.length_pos_iff.mpr hls
    rw [List.length_cons]
    omega
  unfold ofText
  dsimp only
  rw [h, if_neg htwo, List.headD_cons]
  cases valueForOption "CSeq".toList (line :: ls) with
  | none => rfl
  | some strSeq => rfl

theorem not_names_nil (option : NSString) : ¬ Names option [] := by
  rintro ⟨name, val, hnil, -⟩
  exact List.append_ne_nil_of_right_ne_nil name (List.cons_ne_nil _ _) hnil.symm

/-- The two empty lines behind the headers. -/
theorem not_names_end {option l : NSString} (h : l ∈ ([[], []] : List NSString)) :
    ¬ Names option l := by
  have hnil : l = [] := by simpa using h
  rw [hnil]
  exact not_names_nil option

end RTSPMessage

namespace RTSPRequest

variable {r : RTSPRequest}

theorem isLine_of_mem {l : NSString} (h : l ∈ r.line :: r.headers ++ [[]]) :
    lines '\r' '\n' l = [l] := by
  rcases List.mem_append.mp h with hmem | hnil
  · rcases List.mem_cons.mp hmem with rfl | hheader
    · exact r.line_lines
    · exact r.headers_lines l hheader
  · rw [List.mem_singleton.mp hnil]
    rfl

/-- A request is cut into the lines that it consists of. -/
theorem lines_text (r : RTSPRequest) :
    lines '\r' '\n' r.text = r.line :: (r.headers ++ [[], []]) := by
  have h := lines_withMarks cr_ne_lf (fun l hl => r.isLine_of_mem hl) []
  rw [List.append_nil] at h
  rw [text, h, List.append_assoc]
  rfl

/-- A front that holds the first `n` header lines, by its lines and those of what
is behind them. -/
theorem Begins.lines_first {first behind : NSString} {n : Nat} (h : r.Begins first behind)
    (hwhole : withMarks '\r' '\n' (r.line :: r.headers.take n) <+: first) :
    ∃ cut, lines '\r' '\n' first = r.line :: (r.headers.take n ++ lines '\r' '\n' cut) ∧
      lines '\r' '\n' (cut ++ behind) = r.headers.drop n ++ [[], []] := by
  obtain ⟨cut, rfl⟩ := hwhole
  have hfront : ∀ l ∈ r.line :: r.headers.take n, lines '\r' '\n' l = [l] := by
    intro l hl
    apply r.isLine_of_mem
    apply List.mem_append_left
    rcases List.mem_cons.mp hl with rfl | hheader
    · exact List.mem_cons_self
    · exact List.mem_cons_of_mem _ (List.mem_of_mem_take hheader)
  refine ⟨cut, lines_withMarks cr_ne_lf hfront cut, ?_⟩
  have hall := lines_text r
  rw [← h.text, List.append_assoc, lines_withMarks cr_ne_lf hfront, List.cons_append] at hall
  have hsplit : r.headers ++ [[], []] = r.headers.take n ++ (r.headers.drop n ++ [[], []]) := by
    rw [← List.append_assoc, List.take_append_drop]
  have hbehind := (List.cons.inj hall).2
  rw [hsplit] at hbehind
  exact List.append_cancel_left hbehind

/-- No line behind the first `n` header lines names an option that none of the
other headers does. -/
theorem not_names_behind {option : NSString} {n : Nat}
    (h : ∀ header ∈ r.headers.drop n, ¬ Names option header) :
    ∀ l ∈ r.headers.drop n ++ [[], []], ¬ Names option l := by
  intro l hl
  rcases List.mem_append.mp hl with hmem | hnil
  · exact h l hmem
  · exact RTSPMessage.not_names_end hnil

/-- An option is read from the front as from the whole. -/
theorem Begins.valueForOption {first behind option : NSString} {n : Nat}
    (h : r.Begins first behind)
    (hwhole : withMarks '\r' '\n' (r.line :: r.headers.take n) <+: first)
    (hnot : ∀ header ∈ r.headers.drop n, ¬ Names option header) :
    RTSPMessage.valueForOption option (lines '\r' '\n' first) =
      RTSPMessage.valueForOption option (lines '\r' '\n' r.text) := by
  obtain ⟨cut, hfirst, hbehind⟩ := h.lines_first hwhole
  have hnames := not_names_behind hnot
  have hcut : ∀ l ∈ lines '\r' '\n' cut, ¬ Names option l := by
    apply not_of_append (RTSPMessage.grows_names option) (y := behind)
    rw [hbehind]
    exact hnames
  have hsplit : r.line :: (r.headers ++ [[], []]) =
      r.line :: r.headers.take n ++ (r.headers.drop n ++ [[], []]) := by
    rw [List.cons_append, ← List.append_assoc, List.take_append_drop]
  rw [hfirst, lines_text, hsplit, ← List.cons_append, RTSPMessage.valueForOption_append hcut,
    RTSPMessage.valueForOption_append hnames]

/-- Each part of a request behind its first one. -/
theorem Begins.not_names_part {first behind option x part z : NSString} {n : Nat}
    (h : r.Begins first behind)
    (hwhole : withMarks '\r' '\n' (r.line :: r.headers.take n) <+: first)
    (hnot : ∀ header ∈ r.headers.drop n, ¬ Names option header)
    (hpart : behind = x ++ part ++ z) :
    ∀ l ∈ (lines '\r' '\n' part).tail, ¬ Names option l := by
  obtain ⟨cut, -, hbehind⟩ := h.lines_first hwhole
  have hnames := not_names_behind hnot
  have hall : cut ++ behind = cut ++ x ++ part ++ z := by
    rw [hpart, List.append_assoc, List.append_assoc, List.append_assoc]
  apply tail_not_of_append cr_ne_lf (RTSPMessage.grows_names option) (x := cut ++ x) (z := z)
  rw [← hall, hbehind]
  intro l hl
  exact hnames l (List.mem_of_mem_tail hl)

theorem cseq_ne_none (r : RTSPRequest) :
    RTSPMessage.valueForOption "CSeq".toList (lines '\r' '\n' r.text) ≠ none := by
  obtain ⟨header, hmem, hsome⟩ := r.cseq
  rw [lines_text, RTSPMessage.valueForOption, List.drop_one, List.tail_cons]
  intro hnone
  exact hsome (List.findSome?_eq_none_iff.mp hnone header (List.mem_append_left _ hmem))

/-- The first part is read like the whole request. -/
theorem Begins.ofText_first {first behind : NSString} (h : r.Begins first behind) :
    ∃ msg msg', RTSPMessage.ofText first = some msg ∧ RTSPMessage.ofText r.text = some msg' ∧
      RTSPMessage.Alike msg msg' := by
  obtain ⟨n, hwhole, hnot⟩ := h.whole
  have hsame := h.valueForOption hwhole fun header hmem hnames => hnot header hmem (.inl hnames)
  obtain ⟨strSeq, hstrSeq⟩ := Option.ne_none_iff_exists'.mp r.cseq_ne_none
  obtain ⟨cut, hfirst, -⟩ := h.lines_first hwhole
  have hls : r.headers.take n ++ lines '\r' '\n' cut ≠ [] :=
    List.append_ne_nil_of_right_ne_nil _ (lines_ne_nil cut)
  have hls' : r.headers ++ [[], []] ≠ [] := List.append_ne_nil_of_right_ne_nil _ (by decide)
  rw [RTSPMessage.ofText_eq hfirst hls, RTSPMessage.ofText_eq r.lines_text hls', ← hfirst,
    ← r.lines_text, hsame, hstrSeq]
  refine ⟨_, _, rfl, rfl, rfl, rfl, ?_⟩
  intro hmethod
  have hsetup := RTSPMessage.method_setup hmethod
  have htransport := h.valueForOption hwhole fun header hmem hnames =>
    hnot header hmem (.inr ⟨hsetup, hnames⟩)
  rw [RTSPMessage.ports, RTSPMessage.ports, htransport]

/-- The other parts are no messages. -/
theorem Begins.ofText_rest {first : NSString} {rest : List NSString}
    (h : r.Begins first rest.flatten) : ∀ part ∈ rest, RTSPMessage.ofText part = none := by
  obtain ⟨n, hwhole, hnot⟩ := h.whole
  intro part hpart
  obtain ⟨xs, zs, rfl⟩ := List.append_of_mem hpart
  have hflat : (xs ++ part :: zs).flatten = xs.flatten ++ part ++ zs.flatten := by
    rw [List.flatten_append, List.flatten_cons, List.append_assoc]
  apply RTSPMessage.ofText_eq_none
  exact h.not_names_part hwhole (fun header hmem hnames => hnot header hmem (.inl hnames)) hflat

end RTSPRequest

/-- A text cut into parts. -/
theorem isCutting_parts {r : RTSPRequest} {parts : List NSString} (htext : parts.flatten = r.text)
    (hne : ∀ part ∈ parts, part ≠ []) : IsCutting [r] (parts.map NSString.utf8) where
  stream := by
    rw [NSString.utf8_flatten, htext]
    exact (List.append_nil _).symm
  nonempty := by
    intro data hdata
    obtain ⟨part, hpart, rfl⟩ := List.mem_map.mp hdata
    exact NSString.utf8_ne_nil (hne part hpart)

/-- A segmentation that keeps requests whole cuts the bytes. -/
theorem Segmented.isCutting {rs : List RTSPRequest} {datas : List (List Byte)}
    (h : Segmented rs datas) : IsCutting rs datas := by
  induction h with
  | nil => exact ⟨rfl, fun _ hdata => (List.not_mem_nil hdata).elim⟩
  | @cons r rs first rest datas hbegins hne _ ih =>
    obtain ⟨msg, -, hfirst, -⟩ := hbegins.ofText_first
    have hfirst_ne : first ≠ [] := by
      rintro rfl
      cases hfirst
    have htext : (first :: rest).flatten = r.text := hbegins.text
    have hone : IsCutting [r] ((first :: rest).map NSString.utf8) :=
      isCutting_parts htext (List.forall_mem_cons.mpr ⟨hfirst_ne, hne⟩)
    constructor
    · have hstream := hone.stream
      rw [RTSPRequest.stream, List.flatMap_singleton] at hstream
      rw [← List.map_cons, List.flatten_append, hstream, ih.stream]
      rfl
    · intro data hdata
      rcases List.mem_append.mp hdata with hmem | hmem
      · exact hone.nonempty data hmem
      · exact ih.nonempty data hmem

namespace RTSPSession

variable {Pts : Type} {hosts : Nat → Host}

theorem ofText_nil : RTSPMessage.ofText [] = none := by decide

/-- A message is answered, and the callbacks behind it meet the next surroundings. -/
theorem receive_text {text : NSString} {msg : RTSPMessage}
    (h : RTSPMessage.ofText text = some msg) (n : Nat) (datas : List (List Byte))
    (s : RTSPSession Pts) :
    receive hosts n (NSString.utf8 text :: datas) s =
      let answered := s.respond (hosts n) msg
      let others := receive hosts (n + 1) datas answered.1
      (others.1, answered.2 :: others.2) := by
  have hne : text ≠ [] := by
    rintro rfl
    rw [ofText_nil] at h
    cases h
  rw [receive, onSocketData_utf8 hne h]

/-- Parts that are no message change nothing. -/
theorem receive_ignored {parts : List NSString} (hne : ∀ part ∈ parts, part ≠ [])
    (h : ∀ part ∈ parts, RTSPMessage.ofText part = none) (n : Nat) (datas : List (List Byte))
    (s : RTSPSession Pts) :
    receive hosts n (parts.map NSString.utf8 ++ datas) s = receive hosts n datas s := by
  induction parts with
  | nil => rfl
  | cons part parts ih =>
    obtain ⟨hpart, hparts⟩ := List.forall_mem_cons.mp h
    obtain ⟨hfirst, hothers⟩ := List.forall_mem_cons.mp hne
    rw [List.map_cons, List.cons_append, receive, onSocketData_utf8_none hfirst hpart]
    exact ih hothers hparts

/-- Such callbacks do what one callback for each request does. -/
theorem receive_segmented {rs : List RTSPRequest} {datas : List (List Byte)}
    (h : Segmented rs datas) (n : Nat) (s : RTSPSession Pts) :
    receive hosts n datas s = receive hosts n (rs.map fun r => NSString.utf8 r.text) s := by
  induction h generalizing n s with
  | nil => rfl
  | cons hbegins hne _ ih =>
    obtain ⟨msg, msg', hfirst, htext, halike⟩ := hbegins.ofText_first
    rw [List.cons_append, receive_text hfirst, List.map_cons, receive_text htext,
      respond_alike halike]
    dsimp only
    rw [receive_ignored hne hbegins.ofText_rest, ih]

/-- Two such ways to cut the same requests. -/
theorem receive_segmentations {rs : List RTSPRequest} {datas datas' : List (List Byte)}
    (h : Segmented rs datas) (h' : Segmented rs datas') (hosts : Nat → Host)
    (s : RTSPSession Pts) : receive hosts 0 datas s = receive hosts 0 datas' s := by
  rw [receive_segmented h, receive_segmented h']

def playRequest : RTSPRequest where
  line := "PLAY rtsp://192.168.0.2/ RTSP/1.0".toList
  headers := ["CSeq: 2".toList, "Session: 7".toList]
  line_lines := by decide
  headers_lines := by decide
  cseq := ⟨"CSeq: 2".toList, List.mem_cons_self, by decide⟩

def playParts : List NSString :=
  ["PLAY rtsp://192.168.0.2/ RTSP/1.0\r\nCSeq: 2\r\nSess".toList, "ion: 7\r\n\r\n".toList]

theorem receive_segmentations_of_play :
    Segmented [playRequest] ([playRequest.text].map NSString.utf8) ∧
      Segmented [playRequest] (playParts.map NSString.utf8) ∧
      receive (fun _ => phone) 0 ([playRequest.text].map NSString.utf8)
          (initWithSocket (0 : Int)) =
        receive (fun _ => phone) 0 (playParts.map NSString.utf8) (initWithSocket (0 : Int)) := by
  have hbegins : playRequest.Begins playRequest.text ([] : List NSString).flatten :=
    ⟨List.append_nil _, 2, ⟨"\r\n".toList, rfl⟩, by decide⟩
  have hwhole : Segmented [playRequest] ([playRequest.text].map NSString.utf8) :=
    .cons hbegins (by decide) .nil
  have hbegins' : playRequest.Begins (playParts.headD []) playParts.tail.flatten :=
    ⟨rfl, 1, ⟨"Sess".toList, rfl⟩, by decide⟩
  have hparts : Segmented [playRequest] (playParts.map NSString.utf8) :=
    .cons hbegins' (by decide) .nil
  exact ⟨hwhole, hparts, receive_segmentations hwhole hparts _ _⟩

def cutParts : List NSString :=
  ["PLAY rtsp://192.168.0.2/ RTSP/1.0\r\n".toList, "CSeq: 2\r\nSession: 7\r\n\r\n".toList]

/-- A request that is cut in front of its `CSeq` is not answered. -/
theorem cut_before_cseq : ∃ (rs : List RTSPRequest) (datas datas' : List (List Byte)),
    IsCutting rs datas ∧ IsCutting rs datas' ∧
      receive (fun _ => phone) 0 datas (initWithSocket (0 : Int)) ≠
        receive (fun _ => phone) 0 datas' (initWithSocket (0 : Int)) := by
  refine ⟨[playRequest], [playRequest.text].map NSString.utf8, cutParts.map NSString.utf8,
    isCutting_parts rfl (by decide), isCutting_parts rfl (by decide), ?_⟩
  have hanswered : RTSPMessage.ofText playRequest.text = some _ := rfl
  have hone : receive (fun _ => phone) 0 ([playRequest.text].map NSString.utf8)
      (initWithSocket (0 : Int)) = (_, [_]) :=
    receive_text hanswered 0 [] (initWithSocket (0 : Int))
  have hnone : receive (fun _ => phone) 0 (cutParts.map NSString.utf8 ++ [])
      (initWithSocket (0 : Int)) = (_, []) :=
    receive_ignored (by decide) (by decide) 0 [] (initWithSocket (0 : Int))
  rw [List.append_nil] at hnone
  rw [hone, hnone]
  intro hsame
  exact List.cons_ne_nil _ _ (Prod.mk.inj hsame).2

end RTSPSession

end Sogx
