import Sogx.Ios.RTSPSegments

/-!
`RTSPClientConnection.mm`: the ports of a `SETUP`.

The `Transport` header is a list of parameters, one of which is
`client_port=<RTP>-<RTCP>`. The code takes the first parameter that is longer than 14
and does not begin with `client-port=`, and reads the ports from its thirteenth unit on.

* `transport_value`: the header is found unless it has a second colon.
* `ports_eq`: what is read, in terms of the parameters.
* `onSocketData_ports_iff`: the client's ports are used if and only if there is no
  second colon, and nothing in front of `client_port` is taken for it.
-/

namespace Sogx

open Sogx.Lib
open RTSPMessage (Names takesPorts)

namespace NSString

/-- The number of a port in decimal digits. -/
def IsPort (s : NSString) : Prop := s ≠ [] ∧ s.all Char.isDigit = true ∧ digits s ≤ 65535

instance (s : NSString) : Decidable s.IsPort := inferInstanceAs (Decidable (_ ∧ _ ∧ _))

/-- The parameter with the ports of the client. -/
def clientPort (portRTP portRTCP : NSString) : NSString :=
  "client_port=".toList ++ (portRTP ++ '-' :: portRTCP)

end NSString

open NSString

/-- A `SETUP` with one `Transport` header, whose value, less the white space around it,
lists parameters; `front` and `rest` are those around `client_port`. -/
structure SetupRequest extends RTSPRequest where
  setup : sameIgnoringCase toRTSPRequest.command "setup".toList = true
  before : List NSString
  name : NSString
  value : NSString
  behind : List NSString
  headers_eq : headers = before ++ (name ++ ':' :: value) :: behind
  name_colon : ':' ∉ name
  name_same : sameIgnoringCase "transport".toList name = true
  others : ∀ header ∈ before ++ behind, ¬ Names "transport".toList header
  front : List NSString
  portRTP : NSString
  portRTCP : NSString
  rest : List NSString
  value_eq : trim value = [';'].intercalate (front ++ clientPort portRTP portRTCP :: rest)
  separated : ∀ p ∈ front ++ clientPort portRTP portRTCP :: rest, ';' ∉ p
  isPort_rtp : portRTP.IsPort
  isPort_rtcp : portRTCP.IsPort
  only : ∀ p ∈ front ++ rest, ∀ a b : NSString, a.IsPort → b.IsPort → p ≠ clientPort a b

theorem ne_clientPort {p : NSString} (h : p.take 12 ≠ "client_port=".toList)
    (portRTP portRTCP : NSString) : p ≠ clientPort portRTP portRTCP := by
  rintro rfl
  exact h rfl

/-- The two numbers that are read from a parameter that is taken. -/
def readPorts (s : NSString) : Option (Int × Int) :=
  match (substringFromIndex 12 s).splitOn '-' with
  | [portRTP, portRTCP] =>
    some ((BitVec.ofInt 32 (integerValue portRTP)).toInt, (BitVec.ofInt 32 (integerValue portRTCP)).toInt)
  | _ => none

/-! ### The port parameter -/

theorem toNat_of_isDigit {c : Char} (h : c.isDigit = true) : 48 ≤ c.toNat ∧ c.toNat ≤ 57 := by
  unfold Char.isDigit at h
  rw [Bool.and_eq_true, decide_eq_true_eq, decide_eq_true_eq] at h
  exact ⟨h.1, h.2⟩

theorem whitespace_of_isDigit {c : Char} (h : c.isDigit = true) : whitespaceAndNewline c = false := by
  obtain ⟨hlow, hhigh⟩ := toNat_of_isDigit h
  unfold whitespaceAndNewline
  rw [Bool.or_eq_false_iff, decide_eq_false_iff_not]
  constructor
  · intro hmem
    simp only [List.mem_cons, List.not_mem_nil, or_false] at hmem
    omega
  · rw [Bool.and_eq_false_iff, decide_eq_false_iff_not]
    left
    omega

theorem digits_nonneg (s : NSString) : 0 ≤ digits s := by
  have hfold : ∀ (t : NSString) (n : Int), 0 ≤ n →
      0 ≤ t.foldl (fun (n : Int) c => 10 * n + (c.toNat - 48 : Nat)) n := by
    intro t
    induction t with
    | nil => exact fun n hn => hn
    | cons c t ih =>
      intro n hn
      rw [List.foldl_cons]
      exact ih _ (by omega)
  exact hfold _ _ (Int.natCast_nonneg 0)

/-- In front of a digit there is no white space and no sign. -/
theorem decimal_of_isDigit {c : Char} (h : c.isDigit = true) (s : NSString) :
    decimal (c :: s) = digits (c :: s) := by
  unfold decimal
  rw [List.dropWhile_cons_of_neg (by rw [whitespace_of_isDigit h]; exact Bool.false_ne_true)]
  split
  · rename_i heq
    rw [(List.cons.inj heq).1] at h
    cases h
  · rename_i heq
    rw [(List.cons.inj heq).1] at h
    cases h
  · rfl

section Ports

variable {s portRTP portRTCP : NSString}

theorem notMem_of_isPort {d : Char} (h : s.IsPort) (hd : d.isDigit = false) : d ∉ s := by
  intro hmem
  rw [List.all_eq_true.mp h.2.1 d hmem] at hd
  cases hd

/-- A port is read as its number. -/
theorem integerValue_of_isPort (h : s.IsPort) :
    (BitVec.ofInt 32 (integerValue s)).toInt = digits s := by
  obtain ⟨hne, hdigits, hle⟩ := h
  have hnonneg := digits_nonneg s
  have hdecimal : decimal s = digits s := by
    cases s with
    | nil => exact absurd rfl hne
    | cons c s => exact decimal_of_isDigit (List.all_eq_true.mp hdigits c List.mem_cons_self) s
  have hclamp : integerValue s = digits s := by
    rw [integerValue, clamp, hdecimal]
    omega
  rw [hclamp, BitVec.toInt_ofInt]
  exact Int.bmod_eq_of_le (by omega) (by omega)

theorem substringFromIndex_clientPort :
    substringFromIndex 12 (clientPort portRTP portRTCP) = portRTP ++ '-' :: portRTCP := rfl

/-- Two ports are read as they stand there. -/
theorem readPorts_clientPort (hrtp : portRTP.IsPort) (hrtcp : portRTCP.IsPort) :
    readPorts (clientPort portRTP portRTCP) = some (digits portRTP, digits portRTCP) := by
  have hsplit : (portRTP ++ '-' :: portRTCP).splitOn '-' = [portRTP, portRTCP] := by
    rw [List.splitOn_append_cons_self_of_not_mem (notMem_of_isPort hrtp rfl),
      List.splitOn_eq_singleton (notMem_of_isPort hrtcp rfl)]
  unfold readPorts
  rw [substringFromIndex_clientPort, hsplit]
  dsimp only
  rw [integerValue_of_isPort hrtp, integerValue_of_isPort hrtcp]

/-- The parameter is taken: it is longer than 14, and does not begin with `client-port=`. -/
theorem takesPorts_clientPort (hrtp : portRTP.IsPort) (hrtcp : portRTCP.IsPort) :
    takesPorts (clientPort portRTP portRTCP) = true := by
  have hrtp' := List.length_pos_iff.mpr hrtp.1
  have hrtcp' := List.length_pos_iff.mpr hrtcp.1
  have hname : List.length "client_port=".toList = 12 := rfl
  have hlist : List.length (clientPort portRTP portRTCP) =
      12 + (List.length portRTP + (List.length portRTCP + 1)) := by
    unfold clientPort
    rw [List.length_append, List.length_append, List.length_cons, hname]
  have hlength := le_length (clientPort portRTP portRTCP)
  have hbegins : (clientPort portRTP portRTCP).take 12 ≠ "client-port=".toList := by
    have htake : (clientPort portRTP portRTCP).take 12 = "client_port=".toList := rfl
    rw [htake]
    decide
  rw [takesPorts, Bool.and_eq_true, decide_eq_true_eq, decide_eq_true_eq]
  exact ⟨by omega, hbegins⟩

end Ports

/-! ### The request -/

theorem method_of_setup {msg : RTSPMessage} (h : sameIgnoringCase msg.request "setup".toList = true) :
    msg.method = .setup := by
  have hfold : msg.request.map fold = "setup".toList.map fold := eq_of_beq h
  have hoptions : ¬ sameIgnoringCase msg.request "options".toList = true := by
    rw [sameIgnoringCase, hfold]
    decide
  have hdescribe : ¬ sameIgnoringCase msg.request "describe".toList = true := by
    rw [sameIgnoringCase, hfold]
    decide
  rw [RTSPMessage.method, if_neg hoptions, if_neg hdescribe, if_pos h]

namespace SetupRequest

variable (r : SetupRequest)

def parameters : List NSString := r.front ++ clientPort r.portRTP r.portRTCP :: r.rest

/-- What the code reads from the header. -/
def ports : Option (Int × Int) :=
  if ':' ∈ r.value then none else (r.parameters.find? takesPorts).bind readPorts

/-- The header has no second colon, and a parameter in front of `client_port` that is
taken for it has the same two numbers. -/
structure Readable : Prop where
  colon : ':' ∉ r.value
  front : ∀ p, r.front.find? takesPorts = some p →
    readPorts p = some (digits r.portRTP, digits r.portRTCP)

/-- The value of the transport option is lost if there is a colon in it. -/
theorem transport_value :
    RTSPMessage.valueForOption "transport".toList (lines '\r' '\n' r.text) =
      if ':' ∈ r.value then none else some (trim r.value) := by
  have hbefore : r.before.findSome? (RTSPMessage.optionOf "transport".toList) = none :=
    RTSPMessage.findSome?_optionOf fun l hl => r.others l (List.mem_append_left _ hl)
  have hbehind : (r.behind ++ [[], []]).findSome? (RTSPMessage.optionOf "transport".toList) = none := by
    apply RTSPMessage.findSome?_optionOf
    intro l hl
    rcases List.mem_append.mp hl with hmem | hnil
    · exact r.others l (List.mem_append_right _ hmem)
    · exact RTSPMessage.not_names_end hnil
  rw [RTSPRequest.lines_text, RTSPMessage.valueForOption, List.drop_one, List.tail_cons, r.headers_eq,
    List.append_assoc, List.findSome?_append, hbefore, Option.none_or, List.cons_append,
    List.findSome?_cons, RTSPMessage.optionOf_header r.name_colon r.name_same]
  by_cases hcolon : ':' ∈ r.value
  · rw [if_pos hcolon]
    exact hbehind
  · rw [if_neg hcolon]

/-- The ports of the message are those of the request. -/
theorem ports_eq {msg : RTSPMessage} (h : msg.lines = lines '\r' '\n' r.text) :
    msg.ports = r.ports := by
  rw [RTSPMessage.ports, h, r.transport_value, ports]
  by_cases hcolon : ':' ∈ r.value
  · rw [if_pos hcolon, if_pos hcolon]
    rfl
  · have hsplit : (trim r.value).splitOn ';' = r.parameters := by
      rw [r.value_eq]
      exact List.splitOn_intercalate ';' r.separated (List.append_ne_nil_of_right_ne_nil _ (by simp))
    rw [if_neg hcolon, if_neg hcolon]
    change ((trim r.value).splitOn ';').find? takesPorts >>= _ = _
    rw [hsplit]
    rfl

/-- The ports are those of the client if and only if the request is readable. -/
theorem ports_iff : r.ports = some (digits r.portRTP, digits r.portRTCP) ↔ r.Readable := by
  have htaken := takesPorts_clientPort r.isPort_rtp r.isPort_rtcp
  have hfind : r.parameters.find? takesPorts =
      (r.front.find? takesPorts).or (some (clientPort r.portRTP r.portRTCP)) := by
    rw [parameters, List.find?_append, List.find?_cons, htaken]
  unfold ports
  rw [hfind]
  constructor
  · intro h
    split at h
    case isTrue => cases h
    case isFalse hcolon =>
      refine ⟨hcolon, ?_⟩
      intro p hp
      rw [hp] at h
      exact h
  · rintro ⟨hcolon, hfront⟩
    rw [if_neg hcolon]
    cases hp : r.front.find? takesPorts with
    | none => exact readPorts_clientPort r.isPort_rtp r.isPort_rtcp
    | some p => exact hfront p hp

/-- The usual headers: nothing in front of `client_port` is longer than 14. -/
theorem readable_of_short (hcolon : ':' ∉ r.value) (h : ∀ p ∈ r.front, NSString.length p ≤ 14) :
    r.Readable := by
  refine ⟨hcolon, ?_⟩
  intro p hp
  have htaken := List.find?_some hp
  rw [takesPorts, Bool.and_eq_true, decide_eq_true_eq] at htaken
  exact absurd htaken.1 (Nat.not_lt.mpr (h p (List.mem_of_find?_eq_some hp)))

/-- The request as it is read. -/
theorem read {Pts : Type} (host : Host) (s : RTSPSession Pts) :
    ∃ msg, RTSPMessage.createWithData (utf8 r.text) = some msg ∧ msg.method = .setup ∧
      msg.ports = r.ports ∧
      s.onSocketData host (utf8 r.text) = ((s.respond host msg).1, some (s.respond host msg).2) := by
  obtain ⟨strSeq, hstrSeq⟩ := Option.ne_none_iff_exists'.mp r.cseq_ne_none
  have hls : r.headers ++ [[], []] ≠ [] := List.append_ne_nil_of_right_ne_nil _ (by simp)
  have htext := RTSPMessage.ofText_eq r.lines_text hls
  rw [← r.lines_text, hstrSeq, Option.map_some] at htext
  have hne : r.text ≠ [] := by
    intro hnil
    rw [hnil, RTSPSession.ofText_nil] at htext
    cases htext
  refine ⟨_, ?_, method_of_setup r.setup, r.ports_eq rfl, RTSPSession.onSocketData_utf8 hne htext host s⟩
  rw [RTSPMessage.createWithData_utf8, htext]

end SetupRequest

namespace RTSPSession

variable {Pts : Type}

/-- The data are a `SETUP` that calls `createSession:rtcp:` with these two ports and is
answered with 200. -/
structure UsesPorts (host : Host) (data : List Byte) (s : RTSPSession Pts)
    (portRTP portRTCP : Int) : Prop where
  read : ∃ msg, RTSPMessage.createWithData data = some msg ∧ msg.method = .setup ∧
    msg.ports = some (portRTP, portRTCP)
  session : (s.onSocketData host data).1 = (s.createSession host portRTP portRTCP).1
  answer : ∃ response, (s.onSocketData host data).2 = some response ∧ response.code = 200

/-- With ports a session is created. -/
theorem respond_setup {msg : RTSPMessage} (hmethod : msg.method = .setup) {portRTP portRTCP : Int}
    (hports : msg.ports = some (portRTP, portRTCP)) (host : Host) (s : RTSPSession Pts) :
    (s.respond host msg).1 = (s.createSession host portRTP portRTCP).1 ∧
      (s.respond host msg).2.code = 200 := by
  unfold respond
  rw [hmethod, hports]
  exact ⟨rfl, rfl⟩

/-- Without ports the request is refused with 451, and nothing changes. -/
theorem respond_setup_none {msg : RTSPMessage} (hmethod : msg.method = .setup)
    (hports : msg.ports = none) (host : Host) (s : RTSPSession Pts) :
    (s.respond host msg).1 = s ∧ (s.respond host msg).2.code = 451 := by
  unfold respond
  rw [hmethod, hports]
  exact ⟨rfl, rfl⟩

/-- A `SETUP` uses the client's ports if and only if they are what is read first. -/
theorem onSocketData_ports_iff (r : SetupRequest) (host : Host) (s : RTSPSession Pts) :
    UsesPorts host (utf8 r.text) s (digits r.portRTP) (digits r.portRTCP) ↔ r.Readable := by
  obtain ⟨msg, hmsg, hmethod, hports, hanswer⟩ := r.read host s
  constructor
  · rintro ⟨⟨msg', hmsg', -, hports'⟩, -, -⟩
    obtain rfl := Option.some.inj (hmsg.symm.trans hmsg')
    exact r.ports_iff.mp (hports.symm.trans hports')
  · intro h
    have hread : msg.ports = some (digits r.portRTP, digits r.portRTCP) := hports.trans (r.ports_iff.mpr h)
    obtain ⟨hsession, hcode⟩ := respond_setup hmethod hread host s
    rw [← congrArg Prod.fst hanswer] at hsession
    exact ⟨⟨msg, hmsg, hmethod, hread⟩, hsession, _, congrArg Prod.snd hanswer, hcode⟩

/-- A client that names its address. -/
def destinationFirst : SetupRequest where
  line := "SETUP rtsp://192.168.0.2/streamid=1 RTSP/1.0".toList
  headers := ["CSeq: 1".toList,
    "Transport: RTP/AVP;unicast;destination=10.0.0.5;client_port=4588-4589".toList]
  line_lines := by decide
  headers_lines := by decide
  cseq := ⟨"CSeq: 1".toList, List.mem_cons_self, by decide⟩
  setup := by decide
  before := ["CSeq: 1".toList]
  name := "Transport".toList
  value := " RTP/AVP;unicast;destination=10.0.0.5;client_port=4588-4589".toList
  behind := []
  headers_eq := by decide
  name_colon := by decide
  name_same := by decide
  others := by decide
  front := ["RTP/AVP".toList, "unicast".toList, "destination=10.0.0.5".toList]
  portRTP := "4588".toList
  portRTCP := "4589".toList
  rest := []
  value_eq := by decide
  separated := by decide
  isPort_rtp := by decide
  isPort_rtcp := by decide
  only p hp _ _ _ _ := ne_clientPort (by revert p; decide) _ _

/-- The address is longer than 14, and has no two ports from its thirteenth unit on. -/
theorem destination_taken_for_ports :
    ∃ response, (initWithSocket (0 : Int)).onSocketData phone (utf8 destinationFirst.text) =
      (initWithSocket (0 : Int), some response) ∧ response.code = 451 := by
  obtain ⟨msg, -, hmethod, hports, hanswer⟩ := destinationFirst.read phone (initWithSocket (0 : Int))
  have hnone : destinationFirst.ports = none := by decide
  obtain ⟨hsession, hcode⟩ := respond_setup_none hmethod (hports.trans hnone) phone (initWithSocket (0 : Int))
  refine ⟨_, ?_, hcode⟩
  rw [hanswer, hsession]

end RTSPSession

end Sogx
