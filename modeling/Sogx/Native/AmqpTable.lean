import Sogx.Lib.Buffer
import Sogx.Lib.Bytes

/-!
`amqp_table.c` of `rabbitmq-c` and the codecs of `amqp_private.h`: tables of typed
values in a buffer.

The encoder leaves the place of a size open and fills it in when it is behind the
entries. The decoder recurses on what it reads, so its definition has a fuel; `none`
as an error stands for its end, which is never met. It counts the entries that it has
room for in an `int`, and doubles them when they are used up: past 2^30 entries there is
no `int` for the double.

* `table_round_trip`: a table is encoded if and only if it fits, nothing else of the
  buffer changes, and it is decoded as it was.
* `decode_table_ends`: the decoder ends on any bytes, inside the buffer.
-/

namespace Sogx.Amqp

open Sogx.Lib Sogx.Lib.Buffer

/-- The codes that are returned, `AMQP_STATUS_OK` apart. -/
inductive Status where
  | badAmqpData | unknownClass | unknownMethod | invalidParameter | tableTooBig | noMemory | socketError
  /-- An offset that is negative as an `int`. -/
  | offset (res : Int)
deriving DecidableEq, Repr

/-- The kinds of one number; `f32` and `f64` by punning. -/
inductive NumberKind where
  | i8 | u8 | i16 | u16 | i32 | u32 | i64 | u64 | f32 | f64 | timestamp
deriving DecidableEq, Repr

namespace NumberKind

def octets : NumberKind → Nat
  | i8 | u8 => 1
  | i16 | u16 => 2
  | i32 | u32 | f32 => 4
  | i64 | u64 | f64 | timestamp => 8

end NumberKind

inductive FieldKind where
  | boolean | number (kind : NumberKind) | decimal | utf8 | bytes | array | table | void
deriving DecidableEq, Repr

namespace FieldKind

/-- `amqp_field_value_kind_t`. -/
def code : FieldKind → Char
  | boolean => 't'
  | number .i8 => 'b'
  | number .u8 => 'B'
  | number .i16 => 's'
  | number .u16 => 'u'
  | number .i32 => 'I'
  | number .u32 => 'i'
  | number .i64 => 'l'
  | number .u64 => 'L'
  | number .f32 => 'f'
  | number .f64 => 'd'
  | decimal => 'D'
  | utf8 => 'S'
  | array => 'A'
  | number .timestamp => 'T'
  | table => 'F'
  | void => 'V'
  | bytes => 'x'

def all : List FieldKind :=
  [boolean, number .i8, number .u8, number .i16, number .u16, number .i32, number .u32, number .i64, number .u64,
    number .f32, number .f64, decimal, utf8, array, number .timestamp, table, void, bytes]

def ofCode (kind : Nat) : Option FieldKind := all.find? fun k => k.code.toNat == kind

theorem ofCode_code (kind : FieldKind) : ofCode kind.code.toNat = some kind := by
  cases kind with
  | number kind => cases kind <;> rfl
  | _ => rfl

theorem code_lt (kind : FieldKind) : kind.code.toNat < 256 := by
  cases kind with
  | number kind => cases kind <;> decide
  | _ => decide

end FieldKind

/-- `amqp_field_value_t`. -/
inductive FieldValue where
  | boolean (value : Bool)
  | number (kind : NumberKind) (value : BitVec (8 * kind.octets))
  | decimal (decimals : Byte) (value : BitVec 32)
  | utf8 (value : List Byte)
  | bytes (value : List Byte)
  | array (entries : List FieldValue)
  | table (entries : List (List Byte × FieldValue))
  | void

/-- `amqp_table_t`, keys and values. -/
abbrev Table := List (List Byte × FieldValue)

def FieldValue.kind : FieldValue → FieldKind
  | .boolean _ => .boolean
  | .number kind _ => .number kind
  | .decimal _ _ => .decimal
  | .utf8 _ => .utf8
  | .bytes _ => .bytes
  | .array _ => .array
  | .table _ => .table
  | .void => .void

/-! ### Encoding -/

/-- The bytes `encoded` and the offset into them. -/
structure Outbound where
  encoded : List Byte
  offset : Nat
deriving DecidableEq, Repr

/-- `amqp_encode_bytes`, with what the caller returns when it fails. -/
def amqp_encode_bytes (error : Status) (input : List Byte) (out : Outbound) : Except Status Outbound :=
  if out.offset + input.length ≤ out.encoded.length then
    .ok ⟨write out.encoded out.offset input, out.offset + input.length⟩
  else .error error

/-- `amqp_encode_8`, `amqp_encode_16`, `amqp_encode_32` and `amqp_encode_64`, by the
number of bytes. -/
def amqp_encode (octets : Nat) (error : Status) (input : Nat) (out : Outbound) : Except Status Outbound :=
  amqp_encode_bytes error (toBE octets input) out

/-- What `amqp_encode_array` and `amqp_encode_table` have in common: the size is filled
in behind the entries. -/
def encodeSized (entries : Outbound → Except Status Outbound) (out : Outbound) : Except Status Outbound := do
  let start := out.offset
  let out ← entries { out with offset := start + 4 }
  let sized ← amqp_encode 4 .tableTooBig (out.offset - start - 4) { out with offset := start }
  return { sized with offset := out.offset }

mutual

def amqp_encode_field_value (entry : FieldValue) (out : Outbound) : Except Status Outbound := do
  let out ← amqp_encode 1 .badAmqpData entry.kind.code.toNat out
  match entry with
  | .boolean value => amqp_encode 1 .tableTooBig value.toNat out
  | .number kind value => amqp_encode kind.octets .tableTooBig value.toNat out
  | .decimal decimals value => do
    let out ← amqp_encode 1 .tableTooBig decimals.toNat out
    amqp_encode 4 .tableTooBig value.toNat out
  | .utf8 value | .bytes value => do
    let out ← amqp_encode 4 .tableTooBig value.length out
    amqp_encode_bytes .tableTooBig value out
  | .array entries => encodeSized (encodeArrayEntries entries) out
  | .table entries => encodeSized (encodeTableEntries entries) out
  | .void => .ok out

def encodeArrayEntries : List FieldValue → Outbound → Except Status Outbound
  | [], out => .ok out
  | entry :: entries, out => do
    let out ← amqp_encode_field_value entry out
    encodeArrayEntries entries out

def encodeTableEntries : List (List Byte × FieldValue) → Outbound → Except Status Outbound
  | [], out => .ok out
  | (key, value) :: entries, out => do
    let out ← amqp_encode 1 .tableTooBig key.length out
    let out ← amqp_encode_bytes .tableTooBig key out
    let out ← amqp_encode_field_value value out
    encodeTableEntries entries out

end

def amqp_encode_array (input : List FieldValue) : Outbound → Except Status Outbound :=
  encodeSized (encodeArrayEntries input)

def amqp_encode_table (input : Table) : Outbound → Except Status Outbound :=
  encodeSized (encodeTableEntries input)

/-! ### Decoding -/

/-- `amqp_decode_bytes`. -/
def amqp_decode_bytes (encoded : List Byte) (offset len : Nat) : Except (Option Status) (List Byte × Nat) :=
  match read encoded offset len with
  | some bytes => .ok (bytes, offset + len)
  | none => .error (some .badAmqpData)

/-- `amqp_decode_8`, `amqp_decode_16`, `amqp_decode_32` and `amqp_decode_64`. -/
def amqp_decode (octets : Nat) (encoded : List Byte) (offset : Nat) : Except (Option Status) (Nat × Nat) := do
  let (bytes, offset) ← amqp_decode_bytes encoded offset octets
  return (ofBE bytes, offset)

def INITIAL_ARRAY_SIZE : Int := 16
def INITIAL_TABLE_SIZE : Int := 16

/-- The entries that were decoded, and the entries that there is room for. -/
structure Counters where
  num_entries : Nat
  allocated_entries : Int
deriving DecidableEq, Repr

namespace Counters

/-- Room for one entry more. `realloc` has no memory for a negative number of them, which
is a very large one as a size. -/
def grow (c : Counters) : Except (Option Status) Counters :=
  if c.allocated_entries ≤ c.num_entries then
    let allocated_entries := int (c.allocated_entries * 2)
    if allocated_entries < 0 then .error (some .noMemory) else .ok { c with allocated_entries }
  else .ok c

def increment (c : Counters) : Counters := { c with num_entries := c.num_entries + 1 }

end Counters

mutual

def amqp_decode_field_value (encoded : List Byte) : Nat → Nat → Except (Option Status) (FieldValue × Nat)
  | 0, _ => .error none
  | fuel + 1, offset => do
    let (code, offset) ← amqp_decode 1 encoded offset
    match FieldKind.ofCode code with
    | some .boolean => do
      let (val, offset) ← amqp_decode 1 encoded offset
      return (.boolean (val ≠ 0), offset)
    | some (.number kind) => do
      let (val, offset) ← amqp_decode kind.octets encoded offset
      return (.number kind (BitVec.ofNat _ val), offset)
    | some .decimal => do
      let (decimals, offset) ← amqp_decode 1 encoded offset
      let (value, offset) ← amqp_decode 4 encoded offset
      return (.decimal (BitVec.ofNat 8 decimals) (BitVec.ofNat 32 value), offset)
    | some .utf8 => do
      let (len, offset) ← amqp_decode 4 encoded offset
      let (value, offset) ← amqp_decode_bytes encoded offset len
      return (.utf8 value, offset)
    | some .bytes => do
      let (len, offset) ← amqp_decode 4 encoded offset
      let (value, offset) ← amqp_decode_bytes encoded offset len
      return (.bytes value, offset)
    | some .array => do
      let (arraysize, offset) ← amqp_decode 4 encoded offset
      let (entries, offset) ← decodeArrayEntries encoded fuel (offset + arraysize) ⟨0, INITIAL_ARRAY_SIZE⟩ offset
      return (.array entries, offset)
    | some .table => do
      let (tablesize, offset) ← amqp_decode 4 encoded offset
      let (entries, offset) ← decodeTableEntries encoded fuel (offset + tablesize) ⟨0, INITIAL_TABLE_SIZE⟩ offset
      return (.table entries, offset)
    | some .void => return (.void, offset)
    | none => .error (some .badAmqpData)

/-- The loop of `amqp_decode_array`. -/
def decodeArrayEntries (encoded : List Byte) :
    Nat → Nat → Counters → Nat → Except (Option Status) (List FieldValue × Nat)
  | 0, _, _, _ => .error none
  | fuel + 1, limit, c, offset =>
    if offset < limit then do
      let c ← c.grow
      let (entry, offset) ← amqp_decode_field_value encoded fuel offset
      let (entries, offset) ← decodeArrayEntries encoded fuel limit c.increment offset
      return (entry :: entries, offset)
    else return ([], offset)

/-- The loop of `amqp_decode_table`. -/
def decodeTableEntries (encoded : List Byte) : Nat → Nat → Counters → Nat → Except (Option Status) (Table × Nat)
  | 0, _, _, _ => .error none
  | fuel + 1, limit, c, offset =>
    if offset < limit then do
      let (keylen, offset) ← amqp_decode 1 encoded offset
      let c ← c.grow
      let (key, offset) ← amqp_decode_bytes encoded offset keylen
      let (value, offset) ← amqp_decode_field_value encoded fuel offset
      let (entries, offset) ← decodeTableEntries encoded fuel limit c.increment offset
      return ((key, value) :: entries, offset)
    else return ([], offset)

end

/-- Enough for the turns of all loops over what is left of the buffer. -/
def fuelFor (encoded : List Byte) (offset : Nat) : Nat := 2 * (encoded.length - offset) + 2

def amqp_decode_table (encoded : List Byte) (offset : Nat) : Except (Option Status) (Table × Nat) := do
  let (tablesize, offset) ← amqp_decode 4 encoded offset
  decodeTableEntries encoded (fuelFor encoded offset) (offset + tablesize) ⟨0, INITIAL_TABLE_SIZE⟩ offset

/-! ### The bytes of a value -/

mutual

/-- What is written for a value. -/
def FieldValue.octets : FieldValue → List Byte
  | .boolean value => toBE 1 FieldKind.boolean.code.toNat ++ toBE 1 value.toNat
  | .number kind value => toBE 1 (FieldKind.number kind).code.toNat ++ toBE kind.octets value.toNat
  | .decimal decimals value =>
    toBE 1 FieldKind.decimal.code.toNat ++ (toBE 1 decimals.toNat ++ toBE 4 value.toNat)
  | .utf8 value => toBE 1 FieldKind.utf8.code.toNat ++ (toBE 4 value.length ++ value)
  | .bytes value => toBE 1 FieldKind.bytes.code.toNat ++ (toBE 4 value.length ++ value)
  | .array entries =>
    toBE 1 FieldKind.array.code.toNat ++ (toBE 4 (arrayOctets entries).length ++ arrayOctets entries)
  | .table entries =>
    toBE 1 FieldKind.table.code.toNat ++ (toBE 4 (tableOctets entries).length ++ tableOctets entries)
  | .void => toBE 1 FieldKind.void.code.toNat

def arrayOctets : List FieldValue → List Byte
  | [] => []
  | entry :: entries => entry.octets ++ arrayOctets entries

def tableOctets : List (List Byte × FieldValue) → List Byte
  | [] => []
  | (key, value) :: entries => toBE 1 key.length ++ (key ++ (value.octets ++ tableOctets entries))

end

/-- Where `xs` fits `f` writes it, and where it does not `f` fails. -/
def WritesAt (f : Outbound → Except Status Outbound) (xs : List Byte) (out : Outbound) : Prop :=
  (out.offset + xs.length ≤ out.encoded.length →
    f out = .ok ⟨write out.encoded out.offset xs, out.offset + xs.length⟩) ∧
  (¬ out.offset + xs.length ≤ out.encoded.length → ∃ error, f out = .error error)

/-- `f` writes `xs` anywhere in the buffer, and never moves its end. -/
structure Writes (f : Outbound → Except Status Outbound) (xs : List Byte) : Prop where
  length : ∀ out out', f out = .ok out' → out'.encoded.length = out.encoded.length
  writes : ∀ out, out.offset ≤ out.encoded.length → WritesAt f xs out

theorem writesAt_bytes (error : Status) (input : List Byte) (out : Outbound) :
    WritesAt (amqp_encode_bytes error input) input out :=
  ⟨fun h => if_pos h, fun h => ⟨error, if_neg h⟩⟩

namespace Writes

theorem nil : Writes .ok [] where
  length := by
    rintro out out' ⟨⟩
    rfl
  writes out hout := ⟨fun _ => by simp, fun h => absurd hout h⟩

theorem bytes (error : Status) (input : List Byte) : Writes (amqp_encode_bytes error input) input where
  length := by
    intro out out' h
    rw [amqp_encode_bytes] at h
    split at h
    · next hfits =>
        cases h
        exact length_write hfits
    · cases h
  writes out _ := writesAt_bytes error input out

theorem number (octets : Nat) (error : Status) (input : Nat) :
    Writes (amqp_encode octets error input) (toBE octets input) :=
  bytes error (toBE octets input)

/-- What two encoders write stands one behind the other. -/
theorem andThen {f g : Outbound → Except Status Outbound} {xs ys : List Byte} (hf : Writes f xs)
    (hg : Writes g ys) : Writes (fun out => f out >>= g) (xs ++ ys) where
  length := by
    intro out out' h
    cases hmid : f out with
    | error error =>
        simp only [hmid] at h
        cases h
    | ok mid =>
        simp only [hmid] at h
        rw [hg.length mid out' h, hf.length out mid hmid]
  writes out hout := by
    rw [WritesAt, List.length_append, ← Nat.add_assoc]
    by_cases hxs : out.offset + xs.length ≤ out.encoded.length
    · have hfirst := (hf.writes out hout).1 hxs
      have hlength := length_write hxs
      obtain ⟨hfits, hfails⟩ := hg.writes ⟨write out.encoded out.offset xs, out.offset + xs.length⟩
        (by rwa [hlength])
      simp only [hlength, write_append hxs] at hfits hfails
      simp only [hfirst]
      exact ⟨hfits, hfails⟩
    · obtain ⟨error, herror⟩ := (hf.writes out hout).2 hxs
      refine ⟨fun h => absurd (Nat.le_trans (Nat.le_add_right _ _) h) hxs, fun _ => ⟨error, ?_⟩⟩
      simp only [herror]
      rfl

end Writes

/-- The size comes in front of the entries. Wherever the buffer begins and ends, it is
all of it or an error. -/
theorem writesAt_sized {f : Outbound → Except Status Outbound} {xs : List Byte} (hf : Writes f xs)
    (out : Outbound) : WritesAt (encodeSized f) (toBE 4 xs.length ++ xs) out := by
  have hsize : (toBE 4 xs.length).length = 4 := length_toBE _ _
  rw [WritesAt, List.length_append, hsize, ← Nat.add_assoc]
  by_cases hstart : out.offset + 4 ≤ out.encoded.length
  · obtain ⟨hfits, hfails⟩ := hf.writes { out with offset := out.offset + 4 } hstart
    constructor
    · intro h
      have hgap := write_gap
        (show out.offset + (toBE 4 xs.length).length + xs.length ≤ out.encoded.length by rwa [hsize])
      have hlength := length_write (show out.offset + 4 + xs.length ≤ out.encoded.length from h)
      have hcount : out.offset + 4 + xs.length - out.offset - 4 = xs.length := by
        rw [Nat.add_assoc, Nat.add_sub_cancel_left, Nat.add_sub_cancel_left]
      have hsized := (writesAt_bytes .tableTooBig (toBE 4 xs.length)
        ⟨write out.encoded (out.offset + 4) xs, out.offset⟩).1 (by rwa [hsize, hlength])
      simp only [hsize] at hgap
      simp only [encodeSized, hfits h]
      change (amqp_encode 4 .tableTooBig (out.offset + 4 + xs.length - out.offset - 4)
        ⟨write out.encoded (out.offset + 4) xs, out.offset⟩ >>= fun sized =>
          Except.ok { sized with offset := out.offset + 4 + xs.length }) = _
      rw [hcount, amqp_encode, hsized, ← hgap]
      rfl
    · intro h
      obtain ⟨error, herror⟩ := hfails h
      exact ⟨error, by simp only [encodeSized, herror]; rfl⟩
  · refine ⟨fun h => absurd (Nat.le_trans (Nat.le_add_right _ _) h) hstart, fun _ => ?_⟩
    -- the entries may be none, but then their size does not fit
    cases hentries : f { out with offset := out.offset + 4 } with
    | error error => exact ⟨error, by simp only [encodeSized, hentries]; rfl⟩
    | ok mid =>
        have hlength : mid.encoded.length = out.encoded.length := 
          hf.length { out with offset := out.offset + 4 } mid hentries
        obtain ⟨error, herror⟩ := (writesAt_bytes .tableTooBig (toBE 4 (mid.offset - out.offset - 4))
          { mid with offset := out.offset }).2 (by rwa [length_toBE, hlength])
        refine ⟨error, ?_⟩
        simp only [encodeSized, hentries]
        change (amqp_encode 4 .tableTooBig (mid.offset - out.offset - 4) { mid with offset := out.offset }
          >>= fun sized => Except.ok { sized with offset := mid.offset }) = _
        rw [amqp_encode, herror]
        rfl

/-- The size and the entries are written together. -/
theorem Writes.sized {f : Outbound → Except Status Outbound} {xs : List Byte} (hf : Writes f xs) :
    Writes (encodeSized f) (toBE 4 xs.length ++ xs) where
  length := by
    intro out out' h
    by_cases hfits : out.offset + (toBE 4 xs.length ++ xs).length ≤ out.encoded.length
    · rw [(writesAt_sized hf out).1 hfits] at h
      cases h
      exact length_write hfits
    · obtain ⟨error, herror⟩ := (writesAt_sized hf out).2 hfits
      rw [herror] at h
      cases h
  writes out _ := writesAt_sized hf out

theorem writes_kind (entry : FieldValue) :
    Writes (amqp_encode 1 .badAmqpData entry.kind.code.toNat) (toBE 1 entry.kind.code.toNat) :=
  .number _ _ _

mutual

/-- The encoder writes the bytes of the value. -/
theorem writes_field_value : ∀ entry : FieldValue, Writes (amqp_encode_field_value entry) entry.octets
  | .boolean value => (writes_kind (.boolean value)).andThen (.number 1 .tableTooBig value.toNat)
  | .number kind value => (writes_kind (.number kind value)).andThen (.number kind.octets .tableTooBig value.toNat)
  | .decimal decimals value =>
    (writes_kind (.decimal decimals value)).andThen
      ((Writes.number 1 .tableTooBig decimals.toNat).andThen (.number 4 .tableTooBig value.toNat))
  | .utf8 value =>
    (writes_kind (.utf8 value)).andThen
      ((Writes.number 4 .tableTooBig value.length).andThen (.bytes .tableTooBig value))
  | .bytes value =>
    (writes_kind (.bytes value)).andThen
      ((Writes.number 4 .tableTooBig value.length).andThen (.bytes .tableTooBig value))
  | .array entries => (writes_kind (.array entries)).andThen (writes_array entries).sized
  | .table entries => (writes_kind (.table entries)).andThen (writes_table entries).sized
  | .void => by
      have hvoid := (writes_kind .void).andThen Writes.nil
      rwa [List.append_nil] at hvoid

/-- The entries of an array are written one by one. -/
theorem writes_array : ∀ entries : List FieldValue, Writes (encodeArrayEntries entries) (arrayOctets entries)
  | [] => .nil
  | entry :: entries => (writes_field_value entry).andThen (writes_array entries)

/-- The entries of a table are written one by one, each behind its key. -/
theorem writes_table : ∀ entries : Table, Writes (encodeTableEntries entries) (tableOctets entries)
  | [] => .nil
  | (key, value) :: entries =>
    (Writes.number 1 .tableTooBig key.length).andThen
      ((Writes.bytes .tableTooBig key).andThen ((writes_field_value value).andThen (writes_table entries)))

end

/-! ### Reading it back -/

mutual

/-- The length of each key fits the byte that it is written in, and the entries of each
array and of each table fit the `int` that counts the room for them. -/
def FieldValue.Fits : FieldValue → Prop
  | .array entries => entries.length ≤ 2 ^ 30 ∧ ArrayEntriesFit entries
  | .table entries => entries.length ≤ 2 ^ 30 ∧ TableEntriesFit entries
  | _ => True

def ArrayEntriesFit : List FieldValue → Prop
  | [] => True
  | entry :: entries => entry.Fits ∧ ArrayEntriesFit entries

def TableEntriesFit : List (List Byte × FieldValue) → Prop
  | [] => True
  | (key, value) :: entries => key.length < 256 ∧ value.Fits ∧ TableEntriesFit entries

end

/-- The keys and the entries fit, in the table and in what it holds. -/
structure TableFits (input : Table) : Prop where
  count : input.length ≤ 2 ^ 30
  entries : TableEntriesFit input

namespace Counters

/-- The entries are within the room for them, which was doubled at most 26 times. -/
structure Allocated (c : Counters) : Prop where
  doubled : ∃ k ≤ 26, c.allocated_entries = 2 ^ (k + 4)
  room : (c.num_entries : Int) ≤ c.allocated_entries

theorem allocated_initial : Allocated ⟨0, 16⟩ where
  doubled := ⟨0, Nat.zero_le 26, rfl⟩
  room := by decide

/-- There is room for every entry up to the 2^30th, by a last doubling to 2^30. -/
theorem Allocated.grow {c : Counters} (h : c.Allocated) (hnum : c.num_entries < 2 ^ 30) :
    ∃ c' : Counters, c.grow = .ok c' ∧ c'.increment.num_entries = c.num_entries + 1 ∧ c'.increment.Allocated := by
  obtain ⟨k, hk, hallocated⟩ := h.doubled
  rw [Counters.grow]
  split
  · next hfull =>
      have hless : k < 26 := by
        by_contra hnot
        have hlast : k = 26 := Nat.le_antisymm hk (Nat.not_lt.mp hnot)
        rw [hallocated, hlast] at hfull
        omega
      have hdouble : c.allocated_entries * 2 = 2 ^ (k + 1 + 4) := by
        rw [hallocated, ← pow_succ, Nat.add_right_comm]
      have hlarge : (2 : Int) ^ (k + 1 + 4) ≤ 2 ^ 30 := by
        exact_mod_cast Nat.pow_le_pow_right Nat.two_pos (Nat.add_le_add_right hless 4)
      have hpos : (0 : Int) < 2 ^ (k + 1 + 4) := by positivity
      have hint : int (c.allocated_entries * 2) = 2 ^ (k + 1 + 4) := by
        rw [hdouble]
        exact int_of_range (by omega) (by omega)
      have hroom := h.room
      simp only [hint, if_neg (Int.not_lt.mpr (Int.le_of_lt hpos))]
      refine ⟨_, rfl, rfl, ⟨⟨k + 1, hless, rfl⟩, ?_⟩⟩
      simp only [increment]
      omega
  · next hfree =>
      refine ⟨c, rfl, rfl, ⟨h.doubled, ?_⟩⟩
      simp only [increment]
      omega

/-- Room for an entry is refused for want of memory only. -/
theorem grow_error {c : Counters} {error : Option Status} (h : c.grow = .error error) :
    error = some .noMemory := by
  rw [Counters.grow] at h
  split at h
  · dsimp only at h
    split at h
    · cases h
      rfl
    · cases h
  · cases h

end Counters

/-- `xs` is at `offset`, all of it. -/
structure At (encoded : List Byte) (offset : Nat) (xs : List Byte) : Prop where
  holds : Holds encoded offset xs
  fits : offset + xs.length ≤ encoded.length

/-- The first of two pieces is there. -/
theorem At.left {encoded xs ys : List Byte} {offset : Nat} (h : At encoded offset (xs ++ ys)) :
    At encoded offset xs := by
  have hfits := h.fits
  rw [List.length_append, ← Nat.add_assoc] at hfits
  exact ⟨h.holds.left, Nat.le_trans (Nat.le_add_right _ _) hfits⟩

/-- The second of two pieces is there, behind the first one. -/
theorem At.right {encoded xs ys : List Byte} {offset : Nat} (h : At encoded offset (xs ++ ys)) :
    At encoded (offset + xs.length) ys := by
  have hfits := h.fits
  rw [List.length_append, ← Nat.add_assoc] at hfits
  exact ⟨h.holds.right, hfits⟩

theorem At.decode_bytes {encoded xs : List Byte} {offset : Nat} (h : At encoded offset xs) :
    amqp_decode_bytes encoded offset xs.length = .ok (xs, offset + xs.length) := by
  rw [amqp_decode_bytes, read_of_holds h.holds h.fits]

/-- A number that is there is decoded. -/
theorem At.decode {encoded : List Byte} {offset octets n : Nat} (h : At encoded offset (toBE octets n))
    (hn : n < 256 ^ octets) : amqp_decode octets encoded offset = .ok (n, offset + octets) := by
  have hbytes := h.decode_bytes
  rw [length_toBE] at hbytes
  rw [amqp_decode, hbytes]
  simp only [bind, Except.bind, pure, Except.pure, ofBE_toBE_of_lt hn]

/-- What is read in front of the rest. -/
theorem At.decode_append {encoded ys : List Byte} {offset octets n : Nat}
    (h : At encoded offset (toBE octets n ++ ys)) (hn : n < 256 ^ octets) :
    amqp_decode octets encoded offset = .ok (n, offset + octets) ∧ At encoded (offset + octets) ys := by
  have hright := h.right
  rw [length_toBE] at hright
  exact ⟨h.left.decode hn, hright⟩

/-- A size in front of bytes that are in the buffer is decoded. -/
theorem At.decode_sized {encoded xs : List Byte} {offset : Nat} (hlen : encoded.length < 256 ^ 4)
    (h : At encoded offset (toBE 4 xs.length ++ xs)) :
    amqp_decode 4 encoded offset = .ok (xs.length, offset + 4) ∧ At encoded (offset + 4) xs := by
  refine h.decode_append (Nat.lt_of_le_of_lt ?_ hlen)
  exact Nat.le_trans (Nat.le_add_left _ _) (h.right.fits)

theorem end_sized (offset code : Nat) (xs : List Byte) :
    offset + (toBE 1 code ++ (toBE 4 xs.length ++ xs)).length = offset + 1 + 4 + xs.length := by
  simp only [List.length_append, length_toBE, Nat.add_assoc]

theorem bool_toNat_lt (value : Bool) : value.toNat < 256 ^ 1 := by
  cases value with
  | false => decide
  | true => decide

theorem octets_pos (entry : FieldValue) : 0 < entry.octets.length := by
  cases entry with
  | _ => simp [FieldValue.octets]

mutual

/-- A value that is there is decoded, and the offset stands behind it. -/
theorem decode_field_value {encoded : List Byte} (hlen : encoded.length < 256 ^ 4) :
    ∀ (entry : FieldValue) (fuel offset : Nat), entry.Fits → At encoded offset entry.octets →
      2 * (encoded.length - offset) + 1 ≤ fuel →
        amqp_decode_field_value encoded fuel offset = .ok (entry, offset + entry.octets.length)
  | entry, 0, offset, _, _, hfuel => absurd hfuel (Nat.not_succ_le_zero _)
  | .boolean value, fuel + 1, offset, _, hat, _ => by
      obtain ⟨hkind, hat⟩ := hat.decode_append (FieldKind.code_lt _)
      have hvalue := hat.decode (bool_toNat_lt value)
      have hbool : decide (value.toNat ≠ 0) = value := by
        cases value with
        | false => rfl
        | true => rfl
      simp only [amqp_decode_field_value, hkind, FieldKind.ofCode_code, hvalue, bind, Except.bind, pure,
        Except.pure, hbool]
      simp [FieldValue.octets]
  | .number kind value, fuel + 1, offset, _, hat, _ => by
      obtain ⟨hkind, hat⟩ := hat.decode_append (FieldKind.code_lt _)
      have hlt : value.toNat < 256 ^ kind.octets := by
        have hvalue := value.isLt
        rwa [Nat.pow_mul] at hvalue
      have hvalue := hat.decode hlt
      simp only [amqp_decode_field_value, hkind, FieldKind.ofCode_code, hvalue, bind, Except.bind, pure,
        Except.pure]
      simp [FieldValue.octets, Nat.add_assoc]
  | .decimal decimals value, fuel + 1, offset, _, hat, _ => by
      obtain ⟨hkind, hat⟩ := hat.decode_append (FieldKind.code_lt _)
      obtain ⟨hdecimals, hat⟩ := hat.decode_append decimals.isLt
      have hvalue := hat.decode value.isLt
      simp only [amqp_decode_field_value, hkind, FieldKind.ofCode_code, hdecimals, hvalue, bind, Except.bind,
        pure, Except.pure]
      simp [FieldValue.octets]
  | .utf8 value, fuel + 1, offset, _, hat, _ => by
      obtain ⟨hkind, hat⟩ := hat.decode_append (FieldKind.code_lt _)
      obtain ⟨hsize, hat⟩ := hat.decode_sized hlen
      simp only [amqp_decode_field_value, hkind, FieldKind.ofCode_code, hsize, hat.decode_bytes, bind,
        Except.bind, pure, Except.pure, FieldValue.octets, end_sized]
  | .bytes value, fuel + 1, offset, _, hat, _ => by
      obtain ⟨hkind, hat⟩ := hat.decode_append (FieldKind.code_lt _)
      obtain ⟨hsize, hat⟩ := hat.decode_sized hlen
      simp only [amqp_decode_field_value, hkind, FieldKind.ofCode_code, hsize, hat.decode_bytes, bind,
        Except.bind, pure, Except.pure, FieldValue.octets, end_sized]
  | .array entries, fuel + 1, offset, hin, hat, hfuel => by
      obtain ⟨hkind, hat⟩ := hat.decode_append (FieldKind.code_lt _)
      obtain ⟨hsize, hat⟩ := hat.decode_sized hlen
      have hfits := hat.fits
      have hentries := decode_array hlen entries fuel ⟨0, INITIAL_ARRAY_SIZE⟩ (offset + 1 + 4)
        Counters.allocated_initial (by rw [Nat.zero_add]; exact hin.1) hin.2 hat (by omega)
      simp only [amqp_decode_field_value, hkind, FieldKind.ofCode_code, hsize, hentries, bind, Except.bind,
        pure, Except.pure, FieldValue.octets, end_sized]
  | .table entries, fuel + 1, offset, hin, hat, hfuel => by
      obtain ⟨hkind, hat⟩ := hat.decode_append (FieldKind.code_lt _)
      obtain ⟨hsize, hat⟩ := hat.decode_sized hlen
      have hfits := hat.fits
      have hentries := decode_table hlen entries fuel ⟨0, INITIAL_TABLE_SIZE⟩ (offset + 1 + 4)
        Counters.allocated_initial (by rw [Nat.zero_add]; exact hin.1) hin.2 hat (by omega)
      simp only [amqp_decode_field_value, hkind, FieldKind.ofCode_code, hsize, hentries, bind, Except.bind,
        pure, Except.pure, FieldValue.octets, end_sized]
  | .void, fuel + 1, offset, _, hat, _ => by
      have hkind := hat.decode (FieldKind.code_lt _)
      simp only [amqp_decode_field_value, hkind, FieldKind.ofCode_code, bind, Except.bind, pure, Except.pure]
      simp [FieldValue.octets]

/-- The entries of an array are decoded, from any number of them on that leaves room for
the rest. -/
theorem decode_array {encoded : List Byte} (hlen : encoded.length < 256 ^ 4) :
    ∀ (entries : List FieldValue) (fuel : Nat) (c : Counters) (offset : Nat), c.Allocated →
      c.num_entries + entries.length ≤ 2 ^ 30 → ArrayEntriesFit entries →
      At encoded offset (arrayOctets entries) → 2 * (encoded.length - offset) + 2 ≤ fuel →
        decodeArrayEntries encoded fuel (offset + (arrayOctets entries).length) c offset
          = .ok (entries, offset + (arrayOctets entries).length)
  | entries, 0, _, offset, _, _, _, _, hfuel => absurd hfuel (Nat.not_succ_le_zero _)
  | [], fuel + 1, c, offset, _, _, _, _, _ => by simp [decodeArrayEntries, arrayOctets, pure, Except.pure]
  | entry :: entries, fuel + 1, c, offset, halloc, hcount, hin, hat, hfuel => by
      have hpos := octets_pos entry
      have hfits := hat.left.fits
      rw [List.length_cons] at hcount
      obtain ⟨c', hgrow, hnum, halloc'⟩ := halloc.grow (by omega)
      have hentry := decode_field_value hlen entry fuel offset hin.1 hat.left (by omega)
      have hentries := decode_array hlen entries fuel c'.increment (offset + entry.octets.length) halloc'
        (by rw [hnum]; omega) hin.2 hat.right (by omega)
      have hlimit : offset + (arrayOctets (entry :: entries)).length
          = offset + entry.octets.length + (arrayOctets entries).length := by
        rw [arrayOctets, List.length_append, Nat.add_assoc]
      have hless : offset < offset + entry.octets.length + (arrayOctets entries).length := by omega
      rw [hlimit, decodeArrayEntries, if_pos hless]
      simp only [hgrow, hentry, hentries, bind, Except.bind, pure, Except.pure]

/-- The entries of a table are decoded, from any number of them on that leaves room for
the rest. -/
theorem decode_table {encoded : List Byte} (hlen : encoded.length < 256 ^ 4) :
    ∀ (entries : Table) (fuel : Nat) (c : Counters) (offset : Nat), c.Allocated →
      c.num_entries + entries.length ≤ 2 ^ 30 → TableEntriesFit entries →
      At encoded offset (tableOctets entries) → 2 * (encoded.length - offset) + 2 ≤ fuel →
        decodeTableEntries encoded fuel (offset + (tableOctets entries).length) c offset
          = .ok (entries, offset + (tableOctets entries).length)
  | entries, 0, _, offset, _, _, _, _, hfuel => absurd hfuel (Nat.not_succ_le_zero _)
  | [], fuel + 1, c, offset, _, _, _, _, _ => by simp [decodeTableEntries, tableOctets, pure, Except.pure]
  | (key, value) :: entries, fuel + 1, c, offset, halloc, hcount, hin, hat, hfuel => by
      obtain ⟨hkey, hvalue, hrest⟩ := hin
      rw [List.length_cons] at hcount
      obtain ⟨c', hgrow, hnum, halloc'⟩ := halloc.grow (by omega)
      have hlimit : offset + (tableOctets ((key, value) :: entries)).length
          = offset + 1 + key.length + value.octets.length + (tableOctets entries).length := by
        simp [tableOctets, Nat.add_assoc]
      obtain ⟨hkeylen, hat⟩ := hat.decode_append hkey
      have hfits := hat.right.left.fits
      have hpos := octets_pos value
      have hread := hat.left.decode_bytes
      have hentry := decode_field_value hlen value fuel (offset + 1 + key.length) hvalue hat.right.left (by omega)
      have hentries := decode_table hlen entries fuel c'.increment (offset + 1 + key.length + value.octets.length)
        halloc' (by rw [hnum]; omega) hrest hat.right.right (by omega)
      have hless : offset
          < offset + 1 + key.length + value.octets.length + (tableOctets entries).length := by omega
      rw [hlimit, decodeTableEntries, if_pos hless]
      simp only [hkeylen, hgrow, hread, hentry, hentries, bind, Except.bind, pure, Except.pure]

end

/-! ### Decoding any bytes -/

/-- It is decoded up to `lo` at least, not past the end of the buffer, or refused. -/
structure Ends (encoded : List Byte) (lo : Nat) {α : Type} (result : Except (Option Status) (α × Nat)) :
    Prop where
  fuel : result ≠ .error none
  inside : ∀ a offset, result = .ok (a, offset) → lo ≤ offset ∧ offset ≤ encoded.length

namespace Ends

variable {encoded : List Byte} {α β : Type}

theorem ok {lo offset : Nat} (a : α) (hlo : lo ≤ offset) (hlen : offset ≤ encoded.length) :
    Ends encoded lo (.ok (a, offset)) where
  fuel := nofun
  inside := by
    rintro a' offset' ⟨⟩
    exact ⟨hlo, hlen⟩

theorem refused (lo : Nat) (status : Status) :
    Ends encoded lo (.error (some status) : Except (Option Status) (α × Nat)) where
  fuel := nofun
  inside := nofun

theorem mono {lo lo' : Nat} {result : Except (Option Status) (α × Nat)} (h : Ends encoded lo result)
    (hle : lo' ≤ lo) : Ends encoded lo' result where
  fuel := h.fuel
  inside a offset ha := ⟨Nat.le_trans hle (h.inside a offset ha).1, (h.inside a offset ha).2⟩

/-- Decoding ends if what it begins with does, and the rest does from there. -/
theorem bind {lo lo' : Nat} {x : Except (Option Status) (α × Nat)} {f : α × Nat → Except (Option Status) (β × Nat)}
    (hx : Ends encoded lo x)
    (hf : ∀ a offset, lo ≤ offset → offset ≤ encoded.length → Ends encoded lo' (f (a, offset))) :
    Ends encoded lo' (x >>= f) := by
  cases x with
  | error error =>
      cases error with
      | none => exact absurd rfl hx.fuel
      | some status => exact refused lo' status
  | ok r =>
      obtain ⟨hlo, hlen⟩ := hx.inside r.1 r.2 rfl
      exact hf r.1 r.2 hlo hlen

/-- The room that is made comes before what is decoded. -/
theorem grow {lo : Nat} (c : Counters) {f : Counters → Except (Option Status) (α × Nat)}
    (hf : ∀ c', Ends encoded lo (f c')) : Ends encoded lo (c.grow >>= f) := by
  cases hgrow : c.grow with
  | error error =>
      rw [Counters.grow_error hgrow]
      exact refused lo .noMemory
  | ok c' => exact hf c'

theorem decode_bytes (encoded : List Byte) (offset len : Nat) :
    Ends encoded (offset + len) (amqp_decode_bytes encoded offset len) := by
  rw [amqp_decode_bytes]
  cases h : read encoded offset len with
  | none => exact refused _ _
  | some bytes => exact ok bytes (Nat.le_refl _) (read_length h).2

theorem decode (octets : Nat) (encoded : List Byte) (offset : Nat) :
    Ends encoded (offset + octets) (amqp_decode octets encoded offset) :=
  (decode_bytes encoded offset octets).bind fun _ _ hlo hlen => ok _ hlo hlen

end Ends

/-- The loops have enough turns: each takes a byte at least. -/
theorem ends_of_fuel (encoded : List Byte) (fuel : Nat) :
    (∀ offset, 2 * (encoded.length - offset) + 1 ≤ fuel →
      Ends encoded (offset + 1) (amqp_decode_field_value encoded fuel offset)) ∧
    (∀ limit c offset, offset ≤ encoded.length → 2 * (encoded.length - offset) + 2 ≤ fuel →
      Ends encoded offset (decodeArrayEntries encoded fuel limit c offset)) ∧
    (∀ limit c offset, offset ≤ encoded.length → 2 * (encoded.length - offset) + 2 ≤ fuel →
      Ends encoded offset (decodeTableEntries encoded fuel limit c offset)) := by
  induction fuel with
  | zero =>
      exact ⟨fun _ h => absurd h (Nat.not_succ_le_zero _), fun _ _ _ _ h => absurd h (Nat.not_succ_le_zero _),
        fun _ _ _ _ h => absurd h (Nat.not_succ_le_zero _)⟩
  | succ fuel ih =>
      obtain ⟨ihvalue, iharray, ihtable⟩ := ih
      refine ⟨fun offset hfuel => ?_, fun limit c offset hin hfuel => ?_, fun limit c offset hin hfuel => ?_⟩
      · rw [amqp_decode_field_value]
        refine (Ends.decode 1 encoded offset).bind fun code o hlo hlen => ?_
        dsimp only
        split
        · exact (Ends.decode 1 encoded o).bind fun _ _ h h' => .ok _ (by omega) h'
        · exact (Ends.decode _ encoded o).bind fun _ _ h h' => .ok _ (by omega) h'
        · exact (Ends.decode 1 encoded o).bind fun _ o' h _ =>
            (Ends.decode 4 encoded o').bind fun _ _ h' hend => .ok _ (by omega) hend
        · exact (Ends.decode 4 encoded o).bind fun len o' h _ =>
            (Ends.decode_bytes encoded o' len).bind fun _ _ h' hend => .ok _ (by omega) hend
        · exact (Ends.decode 4 encoded o).bind fun len o' h _ =>
            (Ends.decode_bytes encoded o' len).bind fun _ _ h' hend => .ok _ (by omega) hend
        · exact (Ends.decode 4 encoded o).bind fun _ o' h hin =>
            (iharray _ _ o' hin (by omega)).bind fun _ _ h' hend => .ok _ (by omega) hend
        · exact (Ends.decode 4 encoded o).bind fun _ o' h hin =>
            (ihtable _ _ o' hin (by omega)).bind fun _ _ h' hend => .ok _ (by omega) hend
        · exact .ok _ hlo hlen
        · exact .refused _ _
      · rw [decodeArrayEntries]
        split
        · exact .grow c fun c' => (ihvalue offset (by omega)).bind fun _ o h hin =>
            (iharray limit c'.increment o hin (by omega)).bind fun _ _ h' hend => .ok _ (by omega) hend
        · exact .ok _ (Nat.le_refl _) hin
      · rw [decodeTableEntries]
        split
        · exact (Ends.decode 1 encoded offset).bind fun keylen o h _ => .grow c fun c' =>
            (Ends.decode_bytes encoded o keylen).bind fun _ o' h' _ =>
              (ihvalue o' (by omega)).bind fun _ o'' hvalue hin =>
                (ihtable limit c'.increment o'' hin (by omega)).bind fun _ _ hrest hend => .ok _ (by omega) hend
        · exact .ok _ (Nat.le_refl _) hin

/-- Reading a table ends, behind its size. -/
theorem Ends.decode_table (encoded : List Byte) (offset : Nat) :
    Ends encoded (offset + 4) (amqp_decode_table encoded offset) :=
  (Ends.decode 4 encoded offset).bind fun tablesize o hlo hlen =>
    ((ends_of_fuel encoded (fuelFor encoded o)).2.2 (o + tablesize) _ o hlen (Nat.le_refl _)).mono hlo

/-- Any bytes are decoded to an end inside the buffer, or refused. -/
theorem decode_table_ends (encoded : List Byte) (offset : Nat) :
    amqp_decode_table encoded offset ≠ .error none ∧
      ∀ table offset', amqp_decode_table encoded offset = .ok (table, offset') →
        offset + 4 ≤ offset' ∧ offset' ≤ encoded.length :=
  have hends := Ends.decode_table encoded offset
  ⟨hends.fuel, hends.inside⟩

/-- A table with its size in front is decoded where it is. -/
theorem At.decode_table {encoded : List Byte} {offset : Nat} {input : Table} (hlen : encoded.length < 256 ^ 4)
    (hin : TableFits input)
    (hat : At encoded offset (toBE 4 (tableOctets input).length ++ tableOctets input)) :
    amqp_decode_table encoded offset = .ok (input, offset + 4 + (tableOctets input).length) := by
  obtain ⟨hcount, hat⟩ := hat.decode_sized hlen
  rw [amqp_decode_table, hcount]
  exact Amqp.decode_table hlen input _ _ (offset + 4) Counters.allocated_initial
    (by rw [Nat.zero_add]; exact hin.count) hin.entries hat (Nat.le_refl _)

/-- A table is written if and only if there is room for it; then only its own place has
changed, and the table is decoded there as it was. -/
theorem table_round_trip (input : Table) (out : Outbound) (hin : TableFits input)
    (hlen : out.encoded.length < 2 ^ 32) :
    ((∃ out', amqp_encode_table input out = .ok out') ↔
        out.offset + 4 + (tableOctets input).length ≤ out.encoded.length) ∧
      ∀ out', amqp_encode_table input out = .ok out' →
        amqp_decode_table out'.encoded out.offset = .ok (input, out'.offset) ∧
          out'.encoded.length = out.encoded.length ∧
          out'.encoded.take out.offset = out.encoded.take out.offset ∧
          out'.encoded.drop out'.offset = out.encoded.drop out'.offset := by
  have hsize : (toBE 4 (tableOctets input).length ++ tableOctets input).length
      = 4 + (tableOctets input).length := by rw [List.length_append, length_toBE]
  obtain ⟨hfits, hfails⟩ := writesAt_sized (writes_table input) out
  rw [hsize, ← Nat.add_assoc] at hfits hfails
  refine ⟨⟨?_, fun h => ⟨_, hfits h⟩⟩, ?_⟩
  · rintro ⟨out', hout'⟩
    by_contra hnot
    obtain ⟨error, herror⟩ := hfails hnot
    exact absurd (hout'.symm.trans herror) nofun
  · intro out' hout'
    by_cases hroom : out.offset + 4 + (tableOctets input).length ≤ out.encoded.length
    · have hwritten : out.offset + (toBE 4 (tableOctets input).length ++ tableOctets input).length
          ≤ out.encoded.length := by rwa [hsize, ← Nat.add_assoc]
      have hlength := length_write hwritten
      rw [amqp_encode_table, hfits hroom] at hout'
      cases hout'
      have hat : At (write out.encoded out.offset (toBE 4 (tableOctets input).length ++ tableOctets input))
          out.offset (toBE 4 (tableOctets input).length ++ tableOctets input) :=
        ⟨holds_write hwritten, by rwa [hlength]⟩
      have hdrop := drop_write hwritten
      rw [hsize, ← Nat.add_assoc] at hdrop
      refine ⟨?_, hlength, take_write hwritten, hdrop⟩
      have hlen' : (write out.encoded out.offset
          (toBE 4 (tableOctets input).length ++ tableOctets input)).length < 256 ^ 4 := by
        rw [hlength]
        exact hlen
      exact hat.decode_table hlen' hin
    · obtain ⟨error, herror⟩ := hfails hroom
      exact absurd (hout'.symm.trans herror) nofun

/-- A table with a string, and a table in it, between two other bytes. -/
theorem table_round_trip_of_nested :
    ∃ out', amqp_encode_table [([0x61#8], .utf8 [0x62#8]), ([0x63#8], .table [([0x64#8], .void)])]
        ⟨List.replicate 32 0xff#8, 1⟩ = .ok out' ∧
      amqp_decode_table out'.encoded 1
        = .ok ([([0x61#8], .utf8 [0x62#8]), ([0x63#8], .table [([0x64#8], .void)])], out'.offset) :=
  have h := table_round_trip [([0x61#8], .utf8 [0x62#8]), ([0x63#8], .table [([0x64#8], .void)])]
    ⟨List.replicate 32 0xff#8, 1⟩ ⟨by decide, by simp [TableEntriesFit, FieldValue.Fits]⟩
    (by rw [List.length_replicate]; decide)
  have hroom : 1 + 4 + (tableOctets [([0x61#8], .utf8 [0x62#8]), ([0x63#8], .table [([0x64#8], .void)])]).length
      ≤ (List.replicate 32 (0xff#8 : Byte)).length := by
    rw [List.length_replicate]
    decide
  (h.1.mpr hroom).imp fun out' hout' => ⟨hout', (h.2 out' hout').1⟩

end Sogx.Amqp
