import Sogx.Native.AmqpMethods

/-!
`amqp_framing.c` of `rabbitmq-c`: the properties in the header frame of a content.

A property has a flag, and stands in the frame if its flag is set. The flags come first,
in words of 16 bits whose last bit says that another word follows.

* `properties_round_trip`: properties are encoded if and only if there is room for them,
  and what was written is decoded as the same properties, those that are not set too.
-/

namespace Sogx.Amqp

open Sogx.Lib Sogx.Lib.Buffer

/-- The classes. -/
inductive ClassId where
  | connection | channel | access | exchange | queue | basic | tx | confirm
deriving DecidableEq, Repr

namespace ClassId

def code : ClassId → Nat
  | connection => 10
  | channel => 20
  | access => 30
  | exchange => 40
  | queue => 50
  | basic => 60
  | tx => 90
  | confirm => 85

def all : List ClassId := [connection, channel, access, exchange, queue, basic, tx, confirm]

def ofCode (class_id : Nat) : Option ClassId := all.find? fun c => c.code == class_id

theorem ofCode_code (c : ClassId) : ofCode c.code = some c := by
  cases c with
  | _ => rfl

/-- The properties of a class, each with the bit of its flag. -/
def properties : ClassId → List (Nat × FieldType)
  | basic => [
    -- content_type, content_encoding, headers, delivery_mode, priority
    (15, .shortString), (14, .shortString), (13, .table), (12, .number 1), (11, .number 1),
    -- correlation_id, reply_to, expiration, message_id, timestamp
    (10, .shortString), (9, .shortString), (8, .shortString), (7, .shortString), (6, .number 8),
    -- type, user_id, app_id, cluster_id
    (5, .shortString), (4, .shortString), (3, .shortString), (2, .shortString)]
  | _ => []

end ClassId

/-- The values of the properties that are set. -/
abbrev Options : List (Nat × FieldType) → Type
  | [] => Unit
  | p :: ps => Option p.2.Value × Options ps

structure Properties where
  class_id : ClassId
  values : Options class_id.properties

/-- `_flags`. -/
def flagsOf : (ps : List (Nat × FieldType)) → Options ps → Nat
  | [], _ => 0
  | p :: ps, (value, values) => (if value.isSome then 2 ^ p.1 else 0) ||| flagsOf ps values

/-! ### The codecs -/

/-- The words of the loop over `remaining_flags`. -/
def flagWords (flags : Nat) : List Nat :=
  if flags / 65536 = 0 then [flags &&& 0xFFFE] else ((flags &&& 0xFFFE) ||| 1) :: flagWords (flags / 65536)
termination_by flags

def encodeWords : List Nat → Outbound → Except Status Outbound
  | [], out => .ok out
  | word :: words, out => do
    let out ← amqp_encode 2 .badAmqpData word out
    encodeWords words out

def encodeOptions : (ps : List (Nat × FieldType)) → Options ps → Outbound → Except Status Outbound
  | [], _, out => .ok out
  | _ :: ps, (none, values), out => encodeOptions ps values out
  | p :: ps, (some value, values), out => do
    let out ← encodeField p.2 value out
    encodeOptions ps values out

def encodeProperties (p : Properties) (out : Outbound) : Except Status Outbound := do
  let out ← encodeWords (flagWords (flagsOf p.class_id.properties p.values)) out
  encodeOptions p.class_id.properties p.values out

def amqp_encode_properties (p : Properties) (encoded : List Byte) : Except Status Encoded :=
  encodeFrom (encodeProperties p) encoded

/-- The loop over the words of the flags. -/
def decodeFlags (encoded : List Byte) (offset : Nat) : Except (Option Status) (Nat × Nat) := do
  let (first, offset) ← amqp_decode 2 encoded offset
  if first % 2 = 0 then return (first, offset)
  let (second, offset) ← amqp_decode 2 encoded offset
  if second % 2 = 0 then return (first ||| second <<< 16, offset)
  let _ ← amqp_decode 2 encoded offset
  -- a third word would be shifted by the width of `flags`
  .error none

def decodeOptions (encoded : List Byte) (flags : Nat) :
    (ps : List (Nat × FieldType)) → Nat → Except (Option Status) (Options ps × Nat)
  | [], offset => .ok ((), offset)
  | p :: ps, offset =>
    if flags.testBit p.1 then do
      let (value, offset) ← decodeField encoded p.2 offset
      let (values, offset) ← decodeOptions encoded flags ps offset
      return ((some value, values), offset)
    else do
      let (values, offset) ← decodeOptions encoded flags ps offset
      return ((none, values), offset)

def amqp_decode_properties (class_id : Nat) (encoded : List Byte) : Except (Option Status) Properties := do
  let (flags, offset) ← decodeFlags encoded 0
  match ClassId.ofCode class_id with
  | some id => do
    let (values, _) ← decodeOptions encoded flags id.properties offset
    return ⟨id, values⟩
  | none => .error (some .unknownClass)

/-! ### The bytes of properties -/

def wordsOctets : List Nat → List Byte
  | [] => []
  | word :: words => toBE 2 word ++ wordsOctets words

def optionsOctets : (ps : List (Nat × FieldType)) → Options ps → List Byte
  | [], _ => []
  | _ :: ps, (none, values) => optionsOctets ps values
  | p :: ps, (some value, values) => fieldOctets p.2 value ++ optionsOctets ps values

def Properties.octets (p : Properties) : List Byte :=
  wordsOctets (flagWords (flagsOf p.class_id.properties p.values)) ++ optionsOctets p.class_id.properties p.values

theorem writes_words : ∀ words : List Nat, Writes (encodeWords words) (wordsOctets words)
  | [] => .nil
  | word :: words => (Writes.number 2 .badAmqpData word).andThen (writes_words words)

theorem writes_options : ∀ (ps : List (Nat × FieldType)) (values : Options ps),
    Writes (encodeOptions ps values) (optionsOctets ps values)
  | [], _ => .nil
  | _ :: ps, (none, values) => writes_options ps values
  | p :: ps, (some value, values) => (writes_field p.2 value).andThen (writes_options ps values)

/-- The encoder writes the flags and then the properties that are set. -/
theorem writes_properties (p : Properties) : Writes (encodeProperties p) p.octets :=
  (writes_words _).andThen (writes_options _ _)

/-! ### The flags -/

/-- The bits of the properties are not repeated, and none of them is the last bit of a
word. -/
structure Distinct (ps : List (Nat × FieldType)) : Prop where
  pairwise : ps.Pairwise fun p q => p.1 ≠ q.1
  bits : ∀ p ∈ ps, (0xFFFE).testBit p.1 = true ∧ p.1 < 16

/-- Each property of a class has a bit of its own. -/
theorem distinct_properties (c : ClassId) : Distinct c.properties := by
  cases c with
  | basic => exact ⟨by decide, by decide⟩
  | _ => exact ⟨.nil, nofun⟩

/-- `flags` has the flags of exactly the values that are there. -/
def Flagged (flags : Nat) : (ps : List (Nat × FieldType)) → Options ps → Prop
  | [], _ => True
  | p :: ps, (value, values) => flags.testBit p.1 = value.isSome ∧ Flagged flags ps values

theorem testBit_flag (bit i : Nat) (there : Bool) :
    (if there then 2 ^ bit else 0).testBit i = (there && decide (bit = i)) := by
  cases there with
  | false => simp
  | true => simp [Nat.testBit_two_pow]

theorem testBit_flagsOf : ∀ (ps : List (Nat × FieldType)) (values : Options ps) (i : Nat),
    (∀ p ∈ ps, p.1 ≠ i) → (flagsOf ps values).testBit i = false
  | [], _, i, _ => Nat.zero_testBit i
  | p :: ps, (value, values), i, h => by
      have hrest := testBit_flagsOf ps values i fun q hq => h q (List.mem_cons_of_mem _ hq)
      rw [flagsOf, Nat.testBit_or, testBit_flag, hrest, decide_eq_false (h p List.mem_cons_self), Bool.and_false,
        Bool.or_false]

/-- Other flags in front of those of the properties do not matter. -/
theorem flagged_or : ∀ (ps : List (Nat × FieldType)) (values : Options ps) (flags : Nat),
    ps.Pairwise (fun p q => p.1 ≠ q.1) → (∀ p ∈ ps, flags.testBit p.1 = false) →
      Flagged (flags ||| flagsOf ps values) ps values
  | [], _, _, _, _ => trivial
  | p :: ps, (value, values), flags, hdistinct, hflags => by
      obtain ⟨hfirst, hrest⟩ := List.pairwise_cons.mp hdistinct
      constructor
      · have hother := testBit_flagsOf ps values p.1 fun q hq => (hfirst q hq).symm
        rw [flagsOf, Nat.testBit_or, Nat.testBit_or, hflags p List.mem_cons_self, hother, testBit_flag]
        simp
      · rw [flagsOf, ← Nat.or_assoc]
        refine flagged_or ps values _ hrest fun q hq => ?_
        rw [Nat.testBit_or, hflags q (List.mem_cons_of_mem _ hq), testBit_flag, decide_eq_false (hfirst q hq),
          Bool.and_false, Bool.or_false]

/-- A mask that keeps the bits of the properties keeps their flags. -/
theorem Flagged.and_mask : ∀ {ps : List (Nat × FieldType)} {values : Options ps} {flags mask : Nat},
    (∀ p ∈ ps, mask.testBit p.1 = true) → Flagged flags ps values → Flagged (flags &&& mask) ps values
  | [], _, _, _, _, _ => trivial
  | p :: _, (_, _), _, _, hmask, h => by
      refine ⟨?_, h.2.and_mask fun q hq => hmask q (List.mem_cons_of_mem _ hq)⟩
      rw [Nat.testBit_and, hmask p List.mem_cons_self, Bool.and_true]
      exact h.1

theorem flagsOf_lt : ∀ (ps : List (Nat × FieldType)) (values : Options ps), (∀ p ∈ ps, p.1 < 16) →
    flagsOf ps values < 2 ^ 16
  | [], _, _ => Nat.two_pow_pos 16
  | p :: ps, (value, values), h => by
      have hrest := flagsOf_lt ps values fun q hq => h q (List.mem_cons_of_mem _ hq)
      refine Nat.or_lt_two_pow ?_ hrest
      split
      · exact Nat.pow_lt_pow_right Nat.one_lt_two (h p List.mem_cons_self)
      · exact Nat.two_pow_pos 16

/-- The flags of properties fit one word. -/
theorem flagWords_flagsOf {ps : List (Nat × FieldType)} (hps : Distinct ps) (values : Options ps) :
    flagWords (flagsOf ps values) = [flagsOf ps values &&& 0xFFFE] := by
  have hword : flagsOf ps values / 65536 = 0 :=
    Nat.div_eq_of_lt (flagsOf_lt ps values fun p hp => (hps.bits p hp).2)
  rw [flagWords, if_pos hword]

/-- The word that is written has the flag of exactly the properties that are set. -/
theorem flagged_word {ps : List (Nat × FieldType)} (hps : Distinct ps) (values : Options ps) :
    Flagged (flagsOf ps values &&& 0xFFFE) ps values := by
  have hflagged := flagged_or ps values 0 hps.pairwise fun p _ => Nat.zero_testBit p.1
  rw [Nat.zero_or] at hflagged
  exact hflagged.and_mask fun p hp => (hps.bits p hp).1

/-! ### Reading them back -/

def OptionsFit : (ps : List (Nat × FieldType)) → Options ps → Prop
  | [], _ => True
  | _ :: ps, (none, values) => OptionsFit ps values
  | p :: ps, (some value, values) => FieldFits p.2 value ∧ OptionsFit ps values

def Properties.Fits (p : Properties) : Prop := OptionsFit p.class_id.properties p.values

/-- The properties that the flags name are decoded, and the others are not set. -/
theorem decode_options {encoded : List Byte} (hlen : encoded.length < 256 ^ 4) (flags : Nat) :
    ∀ (ps : List (Nat × FieldType)) (values : Options ps) (offset : Nat), Flagged flags ps values →
      OptionsFit ps values → At encoded offset (optionsOctets ps values) →
        decodeOptions encoded flags ps offset = .ok (values, offset + (optionsOctets ps values).length)
  | [], _, _, _, _, _ => rfl
  | p :: ps, (none, values), offset, hflags, hfits, hat => by
      have hrest := decode_options hlen flags ps values offset hflags.2 hfits hat
      rw [decodeOptions, hflags.1]
      simp only [Option.isSome_none, Bool.false_eq_true, if_false, hrest, bind, Except.bind, pure, Except.pure,
        optionsOctets]
  | p :: ps, (some value, values), offset, hflags, hfits, hat => by
      have hfirst := decode_field hlen p.2 value hfits.1 hat.left
      have hrest := decode_options hlen flags ps values _ hflags.2 hfits.2 hat.right
      rw [decodeOptions, hflags.1]
      simp only [Option.isSome_some, if_true, hfirst, hrest, bind, Except.bind, pure, Except.pure, optionsOctets,
        List.length_append, Nat.add_assoc]

/-- A word without the last bit is the only one. -/
theorem decode_flags {encoded ys : List Byte} {flags : Nat} (hlt : flags < 2 ^ 16) (heven : flags % 2 = 0)
    (hat : At encoded 0 (toBE 2 flags ++ ys)) :
    decodeFlags encoded 0 = .ok (flags, 2) ∧ At encoded 2 ys := by
  obtain ⟨hword, hat⟩ := hat.decode_append hlt
  rw [Nat.zero_add] at hword hat
  refine ⟨?_, hat⟩
  simp only [decodeFlags, hword, bind, Except.bind, pure, Except.pure, if_pos heven]

theorem word_even (flags : Nat) : (flags &&& 0xFFFE) % 2 = 0 := by
  have hbit : (flags &&& 0xFFFE).testBit 0 = false := by
    rw [Nat.testBit_and]
    exact Bool.and_false _
  rw [Nat.testBit_zero, decide_eq_false_iff_not] at hbit
  exact (Nat.mod_two_eq_zero_or_one _).resolve_right hbit

/-- The bytes of properties are decoded as the properties, with anything behind them. -/
theorem decode_properties {p : Properties} {rest : List Byte} (hfits : p.Fits)
    (hlen : (p.octets ++ rest).length < 256 ^ 4) :
    amqp_decode_properties p.class_id.code (p.octets ++ rest) = .ok p := by
  have hdistinct := distinct_properties p.class_id
  have hat : At (p.octets ++ rest) 0 (toBE 2 (flagsOf p.class_id.properties p.values &&& 0xFFFE)
      ++ optionsOctets p.class_id.properties p.values) := by
    have hoctets : p.octets = toBE 2 (flagsOf p.class_id.properties p.values &&& 0xFFFE)
        ++ optionsOctets p.class_id.properties p.values := by
      rw [Properties.octets, flagWords_flagsOf hdistinct, wordsOctets, wordsOctets, List.append_nil]
    refine ⟨hoctets ▸ List.prefix_append _ _, ?_⟩
    rw [← hoctets, Nat.zero_add, List.length_append]
    exact Nat.le_add_right _ _
  have hword : (flagsOf p.class_id.properties p.values &&& 0xFFFE) < 2 ^ 16 :=
    Nat.lt_of_le_of_lt Nat.and_le_left (flagsOf_lt _ _ fun q hq => (hdistinct.bits q hq).2)
  obtain ⟨hflags, hat⟩ := decode_flags hword (word_even _) hat
  have hvalues := decode_options hlen _ p.class_id.properties p.values 2 (flagged_word hdistinct p.values) hfits hat
  simp only [amqp_decode_properties, hflags, ClassId.ofCode_code, hvalues, bind, Except.bind, pure, Except.pure]

/-- In a buffer below 2 GiB properties are written if and only if there is room for them.
Then their length is returned, and every piece of the buffer that holds what was written is
decoded as the properties. -/
theorem properties_round_trip (p : Properties) (encoded : List Byte) (hfits : p.Fits)
    (hlen : encoded.length < 2 ^ 31) :
    ((∃ out, amqp_encode_properties p encoded = .ok out) ↔ p.octets.length ≤ encoded.length) ∧
      ∀ out, amqp_encode_properties p encoded = .ok out →
        out.res = p.octets.length ∧ out.encoded.length = encoded.length ∧
          out.encoded.drop p.octets.length = encoded.drop p.octets.length ∧
          ∀ n, p.octets.length ≤ n → amqp_decode_properties p.class_id.code (out.encoded.take n) = .ok p :=
  (writes_properties p).round_trip (fun _ h => decode_properties hfits h) hlen

/-- The properties of an answer: `content_type` and `correlation_id`. -/
def answerProperties (content_type correlation_id : List Byte) : Properties :=
  ⟨.basic, (some content_type, none, none, none, none, some correlation_id, none, none, none, none, none, none, none,
    none, ())⟩

theorem properties_round_trip_of_answer :
    ∃ out, amqp_encode_properties (answerProperties [0x61#8] [0x62#8]) (List.replicate 16 0#8) = .ok out ∧
      amqp_decode_properties 60 (out.encoded.take out.res.toNat) = .ok (answerProperties [0x61#8] [0x62#8]) :=
  have h := properties_round_trip (answerProperties [0x61#8] [0x62#8]) (List.replicate 16 0#8)
    ⟨Nat.le_of_ble_eq_true rfl, Nat.le_of_ble_eq_true rfl, trivial⟩ (by rw [List.length_replicate]; decide)
  have hroom : (answerProperties [0x61#8] [0x62#8]).octets.length ≤ (List.replicate 16 (0#8 : Byte)).length := by
    rw [List.length_replicate, Properties.octets, flagWords_flagsOf (distinct_properties _)]
    decide
  (h.1.mpr hroom).imp fun out hout =>
    have hres : out.res.toNat = (answerProperties [0x61#8] [0x62#8]).octets.length := by
      rw [(h.2 out hout).1, Int.toNat_natCast]
    ⟨hout, (h.2 out hout).2.2.2 out.res.toNat (Nat.le_of_eq hres.symm)⟩

end Sogx.Amqp
