import Sogx.Native.AmqpTable

/-!
`amqp_framing.c` of `rabbitmq-c`: the methods of AMQP as sequences of typed fields.

The generated code has one case for each method, made of the same few pieces. A method
is here the list of its pieces, `fields`, and a value for each of them.

* `method_round_trip`: a method is encoded if and only if there is room for it, and
  what was written is decoded as the method, whatever stands behind it.
* `decode_method_ends`: any bytes are decoded or refused, under any method number.
-/

namespace Sogx.Amqp

open Sogx.Lib Sogx.Lib.Buffer

/-- A piece of a method. `bits` are the flags of one `bit_buffer`, the first in bit 0. -/
inductive FieldType where
  | number (octets : Nat) | shortString | longString | bits (count : Fin 9) | table
deriving DecidableEq, Repr

/-- The value of a piece. -/
abbrev FieldType.Value : FieldType → Type
  | number octets => BitVec (8 * octets)
  | shortString | longString => List Byte
  | bits count => BitVec count
  | table => Table

/-- `amqp_method_number_t`, the numbers that are methods. -/
inductive MethodNumber where
  | connectionStart | connectionStartOk | connectionSecure | connectionSecureOk | connectionTune
  | connectionTuneOk | connectionOpen | connectionOpenOk | connectionClose | connectionCloseOk | channelOpen
  | channelOpenOk | channelFlow | channelFlowOk | channelClose | channelCloseOk | accessRequest
  | accessRequestOk | exchangeDeclare | exchangeDeclareOk | exchangeDelete | exchangeDeleteOk | exchangeBind
  | exchangeBindOk | exchangeUnbind | exchangeUnbindOk | queueDeclare | queueDeclareOk | queueBind
  | queueBindOk | queuePurge | queuePurgeOk | queueDelete | queueDeleteOk | queueUnbind | queueUnbindOk
  | basicQos | basicQosOk | basicConsume | basicConsumeOk | basicCancel | basicCancelOk | basicPublish
  | basicReturn | basicDeliver | basicGet | basicGetOk | basicGetEmpty | basicAck | basicReject
  | basicRecoverAsync | basicRecover | basicRecoverOk | basicNack | txSelect | txSelectOk | txCommit
  | txCommitOk | txRollback | txRollbackOk | confirmSelect | confirmSelectOk
deriving DecidableEq, Repr


namespace MethodNumber

/-- `AMQP_..._METHOD`. -/
def code : MethodNumber → Nat
  | connectionStart => 0x000A000A
  | connectionStartOk => 0x000A000B
  | connectionSecure => 0x000A0014
  | connectionSecureOk => 0x000A0015
  | connectionTune => 0x000A001E
  | connectionTuneOk => 0x000A001F
  | connectionOpen => 0x000A0028
  | connectionOpenOk => 0x000A0029
  | connectionClose => 0x000A0032
  | connectionCloseOk => 0x000A0033
  | channelOpen => 0x0014000A
  | channelOpenOk => 0x0014000B
  | channelFlow => 0x00140014
  | channelFlowOk => 0x00140015
  | channelClose => 0x00140028
  | channelCloseOk => 0x00140029
  | accessRequest => 0x001E000A
  | accessRequestOk => 0x001E000B
  | exchangeDeclare => 0x0028000A
  | exchangeDeclareOk => 0x0028000B
  | exchangeDelete => 0x00280014
  | exchangeDeleteOk => 0x00280015
  | exchangeBind => 0x0028001E
  | exchangeBindOk => 0x0028001F
  | exchangeUnbind => 0x00280028
  | exchangeUnbindOk => 0x00280033
  | queueDeclare => 0x0032000A
  | queueDeclareOk => 0x0032000B
  | queueBind => 0x00320014
  | queueBindOk => 0x00320015
  | queuePurge => 0x0032001E
  | queuePurgeOk => 0x0032001F
  | queueDelete => 0x00320028
  | queueDeleteOk => 0x00320029
  | queueUnbind => 0x00320032
  | queueUnbindOk => 0x00320033
  | basicQos => 0x003C000A
  | basicQosOk => 0x003C000B
  | basicConsume => 0x003C0014
  | basicConsumeOk => 0x003C0015
  | basicCancel => 0x003C001E
  | basicCancelOk => 0x003C001F
  | basicPublish => 0x003C0028
  | basicReturn => 0x003C0032
  | basicDeliver => 0x003C003C
  | basicGet => 0x003C0046
  | basicGetOk => 0x003C0047
  | basicGetEmpty => 0x003C0048
  | basicAck => 0x003C0050
  | basicReject => 0x003C005A
  | basicRecoverAsync => 0x003C0064
  | basicRecover => 0x003C006E
  | basicRecoverOk => 0x003C006F
  | basicNack => 0x003C0078
  | txSelect => 0x005A000A
  | txSelectOk => 0x005A000B
  | txCommit => 0x005A0014
  | txCommitOk => 0x005A0015
  | txRollback => 0x005A001E
  | txRollbackOk => 0x005A001F
  | confirmSelect => 0x0055000A
  | confirmSelectOk => 0x0055000B

/-- The fields of `amqp_..._t`, those of one `bit_buffer` together. -/
def fields : MethodNumber → List FieldType
  | connectionStart => [.number 1, .number 1, .table, .longString, .longString]
  | connectionStartOk => [.table, .shortString, .longString, .shortString]
  | connectionSecure | connectionSecureOk | channelOpenOk => [.longString]
  | connectionTune | connectionTuneOk => [.number 2, .number 4, .number 2]
  | connectionOpen => [.shortString, .shortString, .bits 1]
  | connectionOpenOk | channelOpen | basicConsumeOk | basicCancelOk | basicGetEmpty => [.shortString]
  | connectionClose | channelClose => [.number 2, .shortString, .number 2, .number 2]
  | connectionCloseOk | channelCloseOk | exchangeDeclareOk | exchangeDeleteOk | exchangeBindOk
  | exchangeUnbindOk | queueBindOk | queueUnbindOk | basicQosOk | basicRecoverOk | txSelect | txSelectOk
  | txCommit | txCommitOk | txRollback | txRollbackOk | confirmSelectOk => []
  | channelFlow | channelFlowOk | basicRecoverAsync | basicRecover | confirmSelect => [.bits 1]
  | accessRequest => [.shortString, .bits 5]
  | accessRequestOk => [.number 2]
  | exchangeDeclare => [.number 2, .shortString, .shortString, .bits 5, .table]
  | exchangeDelete => [.number 2, .shortString, .bits 2]
  | exchangeBind | exchangeUnbind | queueBind => [.number 2, .shortString, .shortString, .shortString, .bits 1, .table]
  | queueDeclare => [.number 2, .shortString, .bits 5, .table]
  | queueDeclareOk => [.shortString, .number 4, .number 4]
  | queuePurge | basicGet => [.number 2, .shortString, .bits 1]
  | queuePurgeOk | queueDeleteOk => [.number 4]
  | queueDelete => [.number 2, .shortString, .bits 3]
  | queueUnbind => [.number 2, .shortString, .shortString, .shortString, .table]
  | basicQos => [.number 4, .number 2, .bits 1]
  | basicConsume => [.number 2, .shortString, .shortString, .bits 4, .table]
  | basicCancel => [.shortString, .bits 1]
  | basicPublish => [.number 2, .shortString, .shortString, .bits 2]
  | basicReturn => [.number 2, .shortString, .shortString, .shortString]
  | basicDeliver => [.shortString, .number 8, .bits 1, .shortString, .shortString]
  | basicGetOk => [.number 8, .bits 1, .shortString, .shortString, .number 4]
  | basicAck | basicReject => [.number 8, .bits 1]
  | basicNack => [.number 8, .bits 2]

def all : List MethodNumber :=
  [.connectionStart, .connectionStartOk, .connectionSecure, .connectionSecureOk, .connectionTune,
    .connectionTuneOk, .connectionOpen, .connectionOpenOk, .connectionClose, .connectionCloseOk,
    .channelOpen, .channelOpenOk, .channelFlow, .channelFlowOk, .channelClose, .channelCloseOk,
    .accessRequest, .accessRequestOk, .exchangeDeclare, .exchangeDeclareOk, .exchangeDelete,
    .exchangeDeleteOk, .exchangeBind, .exchangeBindOk, .exchangeUnbind, .exchangeUnbindOk, .queueDeclare,
    .queueDeclareOk, .queueBind, .queueBindOk, .queuePurge, .queuePurgeOk, .queueDelete, .queueDeleteOk,
    .queueUnbind, .queueUnbindOk, .basicQos, .basicQosOk, .basicConsume, .basicConsumeOk, .basicCancel,
    .basicCancelOk, .basicPublish, .basicReturn, .basicDeliver, .basicGet, .basicGetOk, .basicGetEmpty,
    .basicAck, .basicReject, .basicRecoverAsync, .basicRecover, .basicRecoverOk, .basicNack, .txSelect,
    .txSelectOk, .txCommit, .txCommitOk, .txRollback, .txRollbackOk, .confirmSelect, .confirmSelectOk]

def ofCode (methodNumber : Nat) : Option MethodNumber := all.find? fun m => m.code == methodNumber

theorem ofCode_code (m : MethodNumber) : ofCode m.code = some m := by
  cases m with
  | _ => rfl

end MethodNumber

/-- The values of fields. -/
abbrev Record : List FieldType → Type
  | [] => Unit
  | f :: fs => f.Value × Record fs

/-- A method number and the struct behind `decoded`. -/
structure Method where
  id : MethodNumber
  decoded : Record id.fields

/-! ### The codecs -/

def encodeField : (f : FieldType) → f.Value → Outbound → Except Status Outbound
  | .number octets, value, out => amqp_encode octets .badAmqpData value.toNat out
  | .shortString, value, out => do
    let out ← amqp_encode 1 .badAmqpData value.length out
    amqp_encode_bytes .badAmqpData value out
  | .longString, value, out => do
    let out ← amqp_encode 4 .badAmqpData value.length out
    amqp_encode_bytes .badAmqpData value out
  | .bits _, value, out => amqp_encode 1 .badAmqpData value.toNat out
  | .table, value, out => amqp_encode_table value out

def encodeFields : (fs : List FieldType) → Record fs → Outbound → Except Status Outbound
  | [], _, out => .ok out
  | f :: fs, (value, values), out => do
    let out ← encodeField f value out
    encodeFields fs values out

/-- The bytes after an encoder, and what it returns. -/
structure Encoded where
  encoded : List Byte
  res : Int
deriving DecidableEq, Repr

/-- From the start of the bytes. The offset is returned as an `int`. -/
def encodeFrom (encode : Outbound → Except Status Outbound) (encoded : List Byte) : Except Status Encoded := do
  let out ← encode ⟨encoded, 0⟩
  return ⟨out.encoded, int out.offset⟩

def amqp_encode_method (m : Method) (encoded : List Byte) : Except Status Encoded :=
  encodeFrom (encodeFields m.id.fields m.decoded) encoded

def decodeField (encoded : List Byte) : (f : FieldType) → Nat → Except (Option Status) (f.Value × Nat)
  | .number octets, offset => do
    let (value, offset) ← amqp_decode octets encoded offset
    return (BitVec.ofNat _ value, offset)
  | .shortString, offset => do
    let (len, offset) ← amqp_decode 1 encoded offset
    amqp_decode_bytes encoded offset len
  | .longString, offset => do
    let (len, offset) ← amqp_decode 4 encoded offset
    amqp_decode_bytes encoded offset len
  | .bits count, offset => do
    let (bit_buffer, offset) ← amqp_decode 1 encoded offset
    return (BitVec.ofNat count bit_buffer, offset)
  | .table, offset => amqp_decode_table encoded offset

def decodeFields (encoded : List Byte) : (fs : List FieldType) → Nat → Except (Option Status) (Record fs × Nat)
  | [], offset => .ok ((), offset)
  | f :: fs, offset => do
    let (value, offset) ← decodeField encoded f offset
    let (values, offset) ← decodeFields encoded fs offset
    return ((value, values), offset)

def amqp_decode_method (methodNumber : Nat) (encoded : List Byte) : Except (Option Status) Method :=
  match MethodNumber.ofCode methodNumber with
  | some id => do
    let (decoded, _) ← decodeFields encoded id.fields 0
    return ⟨id, decoded⟩
  | none => .error (some .unknownMethod)

/-! ### The bytes of a method -/

def fieldOctets : (f : FieldType) → f.Value → List Byte
  | .number octets, value => toBE octets value.toNat
  | .shortString, value => toBE 1 value.length ++ value
  | .longString, value => toBE 4 value.length ++ value
  | .bits _, value => toBE 1 value.toNat
  | .table, value => toBE 4 (tableOctets value).length ++ tableOctets value

def fieldsOctets : (fs : List FieldType) → Record fs → List Byte
  | [], _ => []
  | f :: fs, (value, values) => fieldOctets f value ++ fieldsOctets fs values

def Method.octets (m : Method) : List Byte := fieldsOctets m.id.fields m.decoded

/-- The encoder of a field writes its bytes. -/
theorem writes_field : ∀ (f : FieldType) (value : f.Value), Writes (encodeField f value) (fieldOctets f value)
  | .number octets, value => .number octets .badAmqpData value.toNat
  | .shortString, value => (Writes.number 1 .badAmqpData value.length).andThen (.bytes .badAmqpData value)
  | .longString, value => (Writes.number 4 .badAmqpData value.length).andThen (.bytes .badAmqpData value)
  | .bits _, value => .number 1 .badAmqpData value.toNat
  | .table, value => (writes_table value).sized

/-- The encoder of a method writes the bytes of its fields, by induction on them. -/
theorem writes_fields : ∀ (fs : List FieldType) (values : Record fs),
    Writes (encodeFields fs values) (fieldsOctets fs values)
  | [], _ => .nil
  | f :: fs, (value, values) => (writes_field f value).andThen (writes_fields fs values)

/-! ### Reading them back -/

/-- The length of a short string, and of each key in a table, fits its byte, and the
entries of a table can be counted. -/
def FieldFits : (f : FieldType) → f.Value → Prop
  | .shortString, value => value.length < 256
  | .table, value => TableFits value
  | _, _ => True

def FieldsFit : (fs : List FieldType) → Record fs → Prop
  | [], _ => True
  | f :: fs, (value, values) => FieldFits f value ∧ FieldsFit fs values

def Method.Fits (m : Method) : Prop := FieldsFit m.id.fields m.decoded

variable {encoded : List Byte} {offset : Nat}

theorem bits_lt (count : Fin 9) (value : BitVec count) : value.toNat < 256 ^ 1 :=
  Nat.lt_of_lt_of_le value.isLt (Nat.pow_le_pow_right Nat.two_pos (Nat.le_of_lt_succ count.isLt))

theorem At.decode_string {octets : Nat} {value : List Byte} (hvalue : value.length < 256 ^ octets)
    (hat : At encoded offset (toBE octets value.length ++ value)) :
    (do
      let (len, offset) ← amqp_decode octets encoded offset
      amqp_decode_bytes encoded offset len) = .ok (value, offset + (toBE octets value.length ++ value).length) := by
  obtain ⟨hsize, hat⟩ := hat.decode_append hvalue
  simp only [hsize, bind, Except.bind, hat.decode_bytes, List.length_append, length_toBE, Nat.add_assoc]

/-- A field that is there is decoded, and the offset stands behind it. -/
theorem decode_field (hlen : encoded.length < 256 ^ 4) : ∀ (f : FieldType) (value : f.Value),
    FieldFits f value → At encoded offset (fieldOctets f value) →
      decodeField encoded f offset = .ok (value, offset + (fieldOctets f value).length)
  | .number octets, value, _, hat => by
      have hlt : value.toNat < 256 ^ octets := by
        have hvalue := value.isLt
        rwa [Nat.pow_mul] at hvalue
      simp only [decodeField, hat.decode hlt, bind, Except.bind, pure, Except.pure]
      simp [fieldOctets]
  | .shortString, value, hfits, hat => hat.decode_string hfits
  | .longString, value, _, hat => by
      obtain ⟨hsize, hvalue⟩ := hat.decode_sized hlen
      simp only [decodeField, hsize, bind, Except.bind, hvalue.decode_bytes, fieldOctets, List.length_append,
        length_toBE, Nat.add_assoc]
  | .bits count, value, _, hat => by
      simp only [decodeField, hat.decode (bits_lt count value), bind, Except.bind, pure, Except.pure]
      simp [fieldOctets]
  | .table, value, hfits, hat => by
      rw [decodeField, hat.decode_table hlen hfits, fieldOctets, List.length_append, length_toBE, Nat.add_assoc]

/-- All fields are decoded one after another. -/
theorem decode_fields (hlen : encoded.length < 256 ^ 4) : ∀ (fs : List FieldType) (values : Record fs)
    (offset : Nat), FieldsFit fs values → At encoded offset (fieldsOctets fs values) →
      decodeFields encoded fs offset = .ok (values, offset + (fieldsOctets fs values).length)
  | [], _, _, _, _ => rfl
  | f :: fs, (value, values), offset, hfits, hat => by
      have hfirst := decode_field hlen f value hfits.1 hat.left
      have hrest := decode_fields hlen fs values _ hfits.2 hat.right
      simp only [decodeFields, hfirst, hrest, bind, Except.bind, pure, Except.pure, fieldsOctets,
        List.length_append, Nat.add_assoc]

/-- The bytes of a method are decoded as the method, with anything behind them. -/
theorem decode_method {m : Method} {rest : List Byte} (hfits : m.Fits)
    (hlen : (m.octets ++ rest).length < 256 ^ 4) : amqp_decode_method m.id.code (m.octets ++ rest) = .ok m := by
  have hat : At (m.octets ++ rest) 0 m.octets := by
    refine ⟨List.prefix_append _ _, ?_⟩
    rw [Nat.zero_add, List.length_append]
    exact Nat.le_add_right _ _
  have hdecoded := decode_fields hlen m.id.fields m.decoded 0 hfits hat
  simp only [amqp_decode_method, MethodNumber.ofCode_code, hdecoded, bind, Except.bind, pure, Except.pure]

/-- What is written at the start of a buffer that has room for it. -/
theorem Writes.start {f : Outbound → Except Status Outbound} {xs : List Byte} (hf : Writes f xs)
    (h : xs.length ≤ encoded.length) : f ⟨encoded, 0⟩ = .ok ⟨xs ++ encoded.drop xs.length, xs.length⟩ := by
  have hwritten := (hf.writes ⟨encoded, 0⟩ (Nat.zero_le _)).1 (by rwa [Nat.zero_add])
  rw [hwritten]
  simp [write]

theorem Writes.start_refused {f : Outbound → Except Status Outbound} {xs : List Byte} (hf : Writes f xs)
    (h : ¬ xs.length ≤ encoded.length) : ∃ error, f ⟨encoded, 0⟩ = .error error :=
  (hf.writes ⟨encoded, 0⟩ (Nat.zero_le _)).2 (by rwa [Nat.zero_add])

/-- An encoder that has room for what it writes returns its length. -/
theorem Writes.returned {f : Outbound → Except Status Outbound} {xs : List Byte} (hf : Writes f xs)
    (h : xs.length ≤ encoded.length) (hlen : encoded.length < 2 ^ 31) :
    encodeFrom f encoded = .ok ⟨xs ++ encoded.drop xs.length, xs.length⟩ := by
  have hres : int xs.length = xs.length := int_of_lt (Nat.lt_of_le_of_lt h hlen)
  simp only [encodeFrom, hf.start h, bind, Except.bind, pure, Except.pure, hres]

theorem Writes.not_returned {f : Outbound → Except Status Outbound} {xs : List Byte} (hf : Writes f xs)
    (h : ¬ xs.length ≤ encoded.length) :
    ∃ error, encodeFrom f encoded = .error error := by
  obtain ⟨error, herror⟩ := hf.start_refused h
  refine ⟨error, ?_⟩
  simp only [encodeFrom, herror, bind, Except.bind]

/-- A decoder that knows what was written with anything behind it reads it in every piece
of the buffer that holds it. -/
theorem Writes.round_trip {f : Outbound → Except Status Outbound} {xs : List Byte} (hf : Writes f xs) {α : Type}
    {decode : List Byte → Except (Option Status) α} {a : α}
    (hdecode : ∀ rest, (xs ++ rest).length < 2 ^ 32 → decode (xs ++ rest) = .ok a)
    (hlen : encoded.length < 2 ^ 31) :
    ((∃ out, encodeFrom f encoded = .ok out) ↔ xs.length ≤ encoded.length) ∧
      ∀ out, encodeFrom f encoded = .ok out →
        out.res = xs.length ∧ out.encoded.length = encoded.length ∧
          out.encoded.drop xs.length = encoded.drop xs.length ∧
          ∀ n, xs.length ≤ n → decode (out.encoded.take n) = .ok a := by
  refine ⟨⟨?_, fun h => ⟨_, hf.returned h hlen⟩⟩, ?_⟩
  · rintro ⟨out, hout⟩
    by_contra hnot
    obtain ⟨error, herror⟩ := hf.not_returned hnot
    exact absurd (hout.symm.trans herror) nofun
  · intro out hout
    by_cases hroom : xs.length ≤ encoded.length
    · rw [hf.returned hroom hlen] at hout
      cases hout
      have hlength : (xs ++ encoded.drop xs.length).length = encoded.length := by
        rw [List.length_append, List.length_drop, Nat.add_sub_cancel' hroom]
      refine ⟨rfl, hlength, List.drop_left, ?_⟩
      intro n hn
      have htake : (xs ++ encoded.drop xs.length).take n = xs ++ (encoded.drop xs.length).take (n - xs.length) := by
        rw [List.take_append, List.take_of_length_le hn]
      have hshort : ((xs ++ encoded.drop xs.length).take n).length ≤ encoded.length := by
        rw [List.length_take, hlength]
        exact Nat.min_le_right _ _
      rw [htake] at hshort ⊢
      exact hdecode _ (Nat.lt_of_le_of_lt hshort (Nat.lt_trans hlen (by decide)))
    · obtain ⟨error, herror⟩ := hf.not_returned hroom
      exact absurd (hout.symm.trans herror) nofun

/-- In a buffer below 2 GiB a method is written if and only if there is room for it. Then
its length is returned, and every piece of the buffer that holds what was written is
decoded as the method. -/
theorem method_round_trip (m : Method) (encoded : List Byte) (hfits : m.Fits) (hlen : encoded.length < 2 ^ 31) :
    ((∃ out, amqp_encode_method m encoded = .ok out) ↔ m.octets.length ≤ encoded.length) ∧
      ∀ out, amqp_encode_method m encoded = .ok out →
        out.res = m.octets.length ∧ out.encoded.length = encoded.length ∧
          out.encoded.drop m.octets.length = encoded.drop m.octets.length ∧
          ∀ n, m.octets.length ≤ n → amqp_decode_method m.id.code (out.encoded.take n) = .ok m :=
  (writes_fields m.id.fields m.decoded).round_trip (fun _ h => decode_method hfits h) hlen

/-- `basic.deliver` as it comes for a consumer. -/
def basicDeliver (consumer_tag : List Byte) (delivery_tag : BitVec 64) (redelivered : BitVec 1)
    (exchange routing_key : List Byte) : Method :=
  ⟨.basicDeliver, (consumer_tag, delivery_tag, redelivered, exchange, routing_key, ())⟩

theorem method_round_trip_of_deliver :
    ∃ out, amqp_encode_method (basicDeliver [0x63#8] 7 1 [] [0x6b#8]) (List.replicate 64 0#8) = .ok out ∧
      amqp_decode_method 0x003C003C (out.encoded.take out.res.toNat) = .ok (basicDeliver [0x63#8] 7 1 [] [0x6b#8]) :=
  have h := method_round_trip (basicDeliver [0x63#8] 7 1 [] [0x6b#8]) (List.replicate 64 0#8)
    ⟨Nat.le_of_ble_eq_true rfl, trivial, trivial, Nat.zero_lt_succ _, Nat.le_of_ble_eq_true rfl, trivial⟩
    (by rw [List.length_replicate]; decide)
  have hroom : (basicDeliver [0x63#8] 7 1 [] [0x6b#8]).octets.length ≤ (List.replicate 64 (0#8 : Byte)).length := by
    rw [List.length_replicate]
    decide
  (h.1.mpr hroom).imp fun out hout =>
    have hres : out.res.toNat = (basicDeliver [0x63#8] 7 1 [] [0x6b#8]).octets.length := by
      rw [(h.2 out hout).1, Int.toNat_natCast]
    ⟨hout, (h.2 out hout).2.2.2 out.res.toNat (Nat.le_of_eq hres.symm)⟩

/-! ### Decoding any bytes -/

theorem Ends.decode_string (octets : Nat) (encoded : List Byte) (offset : Nat) :
    Ends encoded offset (do
      let (len, offset) ← amqp_decode octets encoded offset
      amqp_decode_bytes encoded offset len) :=
  (Ends.decode octets encoded offset).bind fun len o hlo _ =>
    (Ends.decode_bytes encoded o len).mono (Nat.le_trans (Nat.le_trans (Nat.le_add_right _ _) hlo)
      (Nat.le_add_right _ _))

theorem ends_field (encoded : List Byte) (offset : Nat) : ∀ f : FieldType,
    Ends encoded offset (decodeField encoded f offset)
  | .number octets =>
    (Ends.decode octets encoded offset).bind fun _ _ hlo hlen =>
      .ok _ (Nat.le_trans (Nat.le_add_right _ _) hlo) hlen
  | .shortString => .decode_string 1 encoded offset
  | .longString => .decode_string 4 encoded offset
  | .bits _ =>
    (Ends.decode 1 encoded offset).bind fun _ _ hlo hlen =>
      .ok _ (Nat.le_trans (Nat.le_add_right _ _) hlo) hlen
  | .table => (Ends.decode_table encoded offset).mono (Nat.le_add_right _ _)

/-- Reading all fields ends. -/
theorem ends_fields (encoded : List Byte) : ∀ (fs : List FieldType) (offset : Nat), offset ≤ encoded.length →
    Ends encoded offset (decodeFields encoded fs offset)
  | [], _, hlen => .ok _ (Nat.le_refl _) hlen
  | f :: fs, offset, _ =>
    (ends_field encoded offset f).bind fun _ o hlo hlen =>
      (ends_fields encoded fs o hlen).bind fun _ _ hlo' hlen' => .ok _ (Nat.le_trans hlo hlo') hlen'

/-- Under any number any bytes are decoded as a method of this number, or refused. -/
theorem decode_method_ends (methodNumber : Nat) (encoded : List Byte) :
    amqp_decode_method methodNumber encoded ≠ .error none ∧
      ∀ m, amqp_decode_method methodNumber encoded = .ok m → m.id.code = methodNumber := by
  rw [amqp_decode_method]
  cases hid : MethodNumber.ofCode methodNumber with
  | none => exact ⟨nofun, nofun⟩
  | some id =>
      have hcode : id.code = methodNumber := by
        have hfound := List.find?_some hid
        exact eq_of_beq hfound
      have hends := ends_fields encoded id.fields 0 (Nat.zero_le _)
      dsimp only
      cases hdecoded : decodeFields encoded id.fields 0 with
      | error error =>
          refine ⟨fun h => hends.fuel ?_, nofun⟩
          rw [hdecoded]
          cases error with
          | none => rfl
          | some status => cases h
      | ok decoded =>
          refine ⟨nofun, ?_⟩
          rintro m ⟨⟩
          exact hcode

end Sogx.Amqp
