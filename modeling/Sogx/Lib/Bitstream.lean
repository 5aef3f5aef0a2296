import Sogx.Lib.Bytes
import Mathlib.Data.Stream.Init

/-!
The bits of an H.264 bit stream: words, Exp-Golomb codes, packing into bytes
and the emulation prevention bytes.

A reader that finds zeros behind the end of its bytes reads an infinite stream
of bits, here Mathlib's `Stream'`. A writer makes a finite list in front of it.

* `wordOf_wordBits`, `readUE_append`, `signed_codeNum`: what is written is
  read, whatever comes behind.
* `readUE_eq_some`: a code is read only where it stands, and
  `readUE_isSome_iff`: it is read as soon as one of the next 32 bits is set.
* `streamOf_pack`, `payload_escape`: packing and emulation prevention do not
  change the bits.
-/

namespace Sogx.Lib.Bitstream

open Sogx.Lib

abbrev Bits := Stream' Bool

/-- The stream that has only zeros left. -/
def zeros : Bits := Stream'.const false

/-! ### Words -/

/-- The low `n` bits of `v`, most significant first. -/
def wordBits : Nat → Nat → List Bool
  | 0, _ => []
  | n + 1, v => v.testBit n :: wordBits n v

/-- The number with the given bits, most significant first. -/
def wordOf (bits : List Bool) : Nat :=
  bits.foldl (fun u b => 2 * u + b.toNat) 0

@[simp] theorem length_wordBits (n v : Nat) : (wordBits n v).length = n := by
  induction n with
  | zero => rfl
  | succ n ih => rw [wordBits, List.length_cons, ih]

theorem foldl_bits (bits : List Bool) (u : Nat) :
    bits.foldl (fun u b => 2 * u + b.toNat) u = u * 2 ^ bits.length + wordOf bits := by
  induction bits generalizing u with
  | nil => simp [wordOf]
  | cons b bits ih =>
    have hzero : wordOf (b :: bits) = b.toNat * 2 ^ bits.length + wordOf bits := by
      rw [wordOf, List.foldl_cons, ih, Nat.mul_zero, Nat.zero_add]
    rw [List.foldl_cons, ih, hzero, List.length_cons, pow_succ]
    ring

theorem wordOf_cons (b : Bool) (bits : List Bool) :
    wordOf (b :: bits) = b.toNat * 2 ^ bits.length + wordOf bits := by
  rw [wordOf, List.foldl_cons, foldl_bits, Nat.mul_zero, Nat.zero_add]

/-- A word is below the power of 2 for its length. -/
theorem wordOf_lt (bits : List Bool) : wordOf bits < 2 ^ bits.length := by
  induction bits with
  | nil => exact Nat.one_pos
  | cons b bits ih =>
    have hb : b.toNat * 2 ^ bits.length ≤ 1 * 2 ^ bits.length :=
      Nat.mul_le_mul_right _ (Bool.toNat_le b)
    rw [wordOf_cons, List.length_cons, pow_succ]
    omega

/-- The bits of a number are read as its lowest bits. -/
theorem wordOf_wordBits (n v : Nat) : wordOf (wordBits n v) = v % 2 ^ n := by
  induction n with
  | zero => rw [pow_zero, Nat.mod_one, wordBits]; rfl
  | succ n ih =>
    rw [wordBits, wordOf_cons, length_wordBits, ih, Nat.toNat_testBit, Nat.mod_pow_succ,
      Nat.mul_comm, Nat.add_comm]

/-- Bits above the width do not matter to `wordBits`. -/
theorem wordBits_add_mul (n k v : Nat) : wordBits n (k * 2 ^ n + v) = wordBits n v := by
  induction n generalizing k with
  | zero => rfl
  | succ n ih =>
    have hsplit : k * 2 ^ (n + 1) + v = 2 * k * 2 ^ n + v := by
      rw [pow_succ]
      ring
    have hbit : (k * 2 ^ (n + 1) + v).testBit n = v.testBit n := by
      rw [Nat.testBit_eq_decide_div_mod_eq, Nat.testBit_eq_decide_div_mod_eq, hsplit,
        Nat.add_comm, Nat.add_mul_div_right _ _ (Nat.two_pow_pos n), Nat.add_mul_mod_self_left]
    rw [wordBits, wordBits, hbit, hsplit, ih]

/-- Every list of bits is that of its number. -/
theorem wordBits_wordOf (bits : List Bool) : wordBits bits.length (wordOf bits) = bits := by
  induction bits with
  | nil => rfl
  | cons b bits ih =>
    have hbit : (b.toNat * 2 ^ bits.length + wordOf bits).testBit bits.length = b := by
      rw [Nat.testBit_eq_decide_div_mod_eq, Nat.add_comm,
        Nat.add_mul_div_right _ _ (Nat.two_pow_pos _), Nat.div_eq_of_lt (wordOf_lt bits)]
      cases b with
      | false => rfl
      | true => rfl
    rw [wordOf_cons, List.length_cons, wordBits, hbit, wordBits_add_mul, ih]

/-! ### Streams with a list in front -/

theorem take_append {l : List Bool} (s : Bits) : (l ++ₛ s).take l.length = l := by
  have h := Stream'.take_append_of_le_length (a := s) l.length l le_rfl
  rw [h, List.take_length]

theorem take_append_of_length {l : List Bool} {n : Nat} (s : Bits) (h : l.length = n) :
    (l ++ₛ s).take n = l := by
  subst h
  exact take_append s

theorem drop_append_of_length {l : List Bool} {n : Nat} (s : Bits) (h : l.length = n) :
    (l ++ₛ s).drop n = s := by
  subst h
  exact Stream'.drop_append_stream l s

@[simp] theorem head_append_cons (b : Bool) (l : List Bool) (s : Bits) :
    ((b :: l) ++ₛ s).head = b := rfl

@[simp] theorem tail_append_cons (b : Bool) (l : List Bool) (s : Bits) :
    ((b :: l) ++ₛ s).tail = l ++ₛ s := rfl

theorem replicate_append_zeros (k : Nat) : List.replicate k false ++ₛ zeros = zeros := by
  induction k with
  | zero => rfl
  | succ k ih =>
    rw [List.replicate_succ, Stream'.cons_append_stream, ih]
    exact (Stream'.const_eq false).symm

theorem true_not_mem_zeros (n : Nat) : true ∉ zeros.take n := by
  induction n with
  | zero => exact List.not_mem_nil
  | succ n ih =>
    rw [Stream'.take_succ, List.mem_cons]
    rintro (h | h)
    · cases h
    · exact ih h

/-! ### Exp-Golomb codes -/

/-- The number of leading zeros of the code of `v`. -/
def ueZeros (v : Nat) : Nat := Nat.log2 (v + 1)

/-- ue(v): as many zeros as `v + 1` has bits behind its first one, then
`v + 1`. -/
def ueBits (v : Nat) : List Bool :=
  List.replicate (ueZeros v) false ++ wordBits (ueZeros v + 1) (v + 1)

/-- The number whose code stands for `v` in se(v). -/
def codeNum (v : Int) : Nat := if 0 < v then (2 * v - 1).toNat else (-2 * v).toNat

/-- se(v). -/
def seBits (v : Int) : List Bool := ueBits (codeNum v)

/-- The value of a code in se(v): the odd ones are positive. -/
def signed (u : Nat) : Int := if u % 2 = 1 then ((u + 1) / 2 : Nat) else -((u + 1) / 2 : Nat)

/-- The place of the first one among the first `n` bits. -/
def findOne : Nat → Bits → Option Nat
  | 0, _ => none
  | n + 1, s => if s.head then some 0 else (findOne n s.tail).map (· + 1)

/-- A code with fewer than 32 leading zeros, and what is behind it. -/
def readUE (s : Bits) : Option (Nat × Bits) :=
  (findOne 32 s).map fun k =>
    (wordOf ((s.drop (k + 1)).take k) + (2 ^ k - 1), (s.drop (k + 1)).drop k)

/-- The first set bit is found behind as many zeros as there are. -/
theorem findOne_eq_some {n k : Nat} {s : Bits} :
    findOne n s = some k ↔
      k < n ∧ ∃ t, s = (List.replicate k false ++ [true]) ++ₛ t := by
  induction n generalizing k s with
  | zero => simp [findOne]
  | succ n ih =>
    rw [findOne]
    constructor
    · intro h
      split at h
      · rename_i hone
        obtain rfl := Option.some.inj h
        refine ⟨Nat.succ_pos n, s.tail, ?_⟩
        rw [← hone]
        exact (Stream'.eta s).symm
      · rename_i hzero
        obtain ⟨j, hj, rfl⟩ := Option.map_eq_some_iff.mp h
        obtain ⟨hlt, t, ht⟩ := ih.mp hj
        refine ⟨Nat.succ_lt_succ hlt, t, ?_⟩
        rw [List.replicate_succ, List.cons_append, Stream'.cons_append_stream, ← ht,
          ← Bool.eq_false_iff.mpr hzero]
        exact (Stream'.eta s).symm
    · rintro ⟨hlt, t, rfl⟩
      cases k with
      | zero => rfl
      | succ k =>
        rw [List.replicate_succ, List.cons_append, head_append_cons, tail_append_cons,
          if_neg Bool.false_ne_true]
        apply Option.map_eq_some_iff.mpr
        exact ⟨k, ih.mpr ⟨Nat.lt_of_succ_lt_succ hlt, t, rfl⟩, rfl⟩

theorem findOne_isSome_iff {n : Nat} {s : Bits} : (findOne n s).isSome ↔ true ∈ s.take n := by
  induction n generalizing s with
  | zero => simp [findOne]
  | succ n ih =>
    rw [findOne, Stream'.take_succ, List.mem_cons]
    split
    · rename_i hone
      simp [hone]
    · rename_i hzero
      rw [Option.isSome_map, ih, Bool.eq_false_iff.mpr hzero]
      simp

/-- A code is read as soon as one of the next 32 bits is set. -/
theorem readUE_isSome_iff {s : Bits} : (readUE s).isSome ↔ true ∈ s.take 32 := by
  rw [readUE, Option.isSome_map, findOne_isSome_iff]

theorem two_pow_ueZeros_le (v : Nat) : 2 ^ ueZeros v ≤ v + 1 := Nat.log2_self_le v.succ_ne_zero

theorem lt_two_pow_ueZeros (v : Nat) : v + 1 < 2 ^ (ueZeros v + 1) := Nat.lt_log2_self

theorem ueZeros_lt_iff {v n : Nat} : ueZeros v < n ↔ v + 1 < 2 ^ n :=
  Nat.log2_lt v.succ_ne_zero

theorem ueZeros_eq_of_bounds {v k : Nat} (hle : 2 ^ k ≤ v + 1) (hlt : v + 1 < 2 ^ (k + 1)) :
    ueZeros v = k :=
  (Nat.log2_eq_iff v.succ_ne_zero).mpr ⟨hle, hlt⟩

/-- A word of `k` bits behind `k` zeros and a one is the code of a number with
`k` leading zeros. -/
theorem ueZeros_word {w k : Nat} (h : w < 2 ^ k) : ueZeros (w + (2 ^ k - 1)) = k := by
  have hpos := Nat.two_pow_pos k
  apply ueZeros_eq_of_bounds
  · omega
  · rw [pow_succ]
    omega

/-- The code has its first one behind the leading zeros. -/
theorem ueBits_eq (v : Nat) :
    ueBits v =
      (List.replicate (ueZeros v) false ++ [true]) ++ wordBits (ueZeros v) (v + 1) := by
  have hone : (v + 1).testBit (ueZeros v) = true := by
    have hdiv : (v + 1) / 2 ^ ueZeros v = 1 := by
      apply Nat.div_eq_of_lt_le
      · rw [Nat.one_mul]
        exact two_pow_ueZeros_le v
      · rw [← pow_succ']
        exact lt_two_pow_ueZeros v
    rw [Nat.testBit_eq_decide_div_mod_eq, hdiv]
    rfl
  rw [ueBits, wordBits, hone, List.append_assoc]
  rfl

@[simp] theorem length_ueBits (v : Nat) : (ueBits v).length = 2 * ueZeros v + 1 := by
  rw [ueBits, List.length_append, List.length_replicate, length_wordBits]
  omega

/-- A code in front of a stream is read, and the stream behind it is left. -/
theorem readUE_append {v : Nat} (h : v + 1 < 2 ^ 32) (s : Bits) :
    readUE (ueBits v ++ₛ s) = some (v, s) := by
  have hfind : findOne 32 (ueBits v ++ₛ s) = some (ueZeros v) := by
    rw [ueBits_eq, Stream'.append_append_stream]
    exact findOne_eq_some.mpr ⟨ueZeros_lt_iff.mpr h, _, rfl⟩
  have hdrop : (ueBits v ++ₛ s).drop (ueZeros v + 1) = wordBits (ueZeros v) (v + 1) ++ₛ s := by
    rw [ueBits_eq, Stream'.append_append_stream]
    apply drop_append_of_length
    rw [List.length_append, List.length_replicate, List.length_singleton]
  have hvalue : (v + 1) % 2 ^ ueZeros v + (2 ^ ueZeros v - 1) = v := by
    have hle := two_pow_ueZeros_le v
    have hlt := lt_two_pow_ueZeros v
    rw [pow_succ] at hlt
    rw [Nat.mod_eq_sub_mod hle, Nat.mod_eq_of_lt (by omega)]
    omega
  rw [readUE, hfind, Option.map_some, hdrop, take_append_of_length s (length_wordBits _ _),
    drop_append_of_length s (length_wordBits _ _), wordOf_wordBits, hvalue]

/-- A code is read only where it stands. -/
theorem readUE_eq_some {v : Nat} {s t : Bits} :
    readUE s = some (v, t) ↔ v + 1 < 2 ^ 32 ∧ s = ueBits v ++ₛ t := by
  constructor
  · intro h
    obtain ⟨k, hfind, hvalue⟩ := Option.map_eq_some_iff.mp h
    obtain ⟨hk, u, rfl⟩ := findOne_eq_some.mp hfind
    have hlen : (List.replicate k false ++ [true]).length = k + 1 := by
      rw [List.length_append, List.length_replicate, List.length_singleton]
    rw [drop_append_of_length u hlen] at hvalue
    obtain ⟨rfl, rfl⟩ := Prod.mk.inj hvalue
    have hword := wordOf_lt (u.take k)
    have hpos := Nat.two_pow_pos k
    rw [Stream'.length_take] at hword
    generalize hw : wordOf (u.take k) = w at *
    have hzeros : ueZeros (w + (2 ^ k - 1)) = k := ueZeros_word hword
    have hbits : wordBits k (w + (2 ^ k - 1) + 1) = u.take k := by
      have hsplit : w + (2 ^ k - 1) + 1 = 1 * 2 ^ k + w := by omega
      have hback := wordBits_wordOf (u.take k)
      rw [Stream'.length_take, hw] at hback
      rw [hsplit, wordBits_add_mul, hback]
    constructor
    · rw [← ueZeros_lt_iff, hzeros]
      exact hk
    · rw [ueBits_eq, hzeros, hbits, Stream'.append_append_stream _ (u.take k),
        Stream'.append_take_drop]
  · rintro ⟨hlt, rfl⟩
    exact readUE_append hlt t

/-- Every signed number has a number of its own. -/
theorem signed_codeNum (v : Int) : signed (codeNum v) = v := by
  unfold signed codeNum
  by_cases hpos : 0 < v
  · rw [if_pos hpos, if_pos (by omega)]
    omega
  · rw [if_neg hpos, if_neg (by omega)]
    omega

/-- Every number is that of a signed one. -/
theorem codeNum_signed (u : Nat) : codeNum (signed u) = u := by
  unfold signed codeNum
  by_cases hodd : u % 2 = 1
  · rw [if_pos hodd, if_pos (by omega)]
    omega
  · rw [if_neg hodd, if_neg (by omega)]
    omega

/-! ### Bytes -/

def bitsOf (bytes : List Byte) : List Bool := bytes.flatMap fun b => wordBits 8 b.toNat

/-- The bits of the bytes, and zeros behind them. -/
def streamOf (bytes : List Byte) : Bits := bitsOf bytes ++ₛ zeros

def byteOf (bits : List Bool) : Byte := BitVec.ofNat 8 (wordOf bits)

/-- Pack bits into bytes; `acc` are the bits of the byte begun. The last byte
is filled with zeros. -/
def packInto : List Bool → List Bool → List Byte
  | [], [] => []
  | acc, [] => [byteOf (acc ++ List.replicate (8 - acc.length) false)]
  | acc, b :: bits =>
    if acc.length = 7 then byteOf (acc ++ [b]) :: packInto [] bits else packInto (acc ++ [b]) bits

def pack (bits : List Bool) : List Byte := packInto [] bits

/-- The payload with its stop bit, in bytes. -/
def rbsp (bits : List Bool) : List Byte := pack (bits ++ [true])

@[simp] theorem bitsOf_cons (b : Byte) (bytes : List Byte) :
    bitsOf (b :: bytes) = wordBits 8 b.toNat ++ bitsOf bytes := rfl

theorem streamOf_nil : streamOf [] = zeros := rfl

theorem streamOf_cons (b : Byte) (bytes : List Byte) :
    streamOf (b :: bytes) = wordBits 8 b.toNat ++ₛ streamOf bytes := by
  rw [streamOf, bitsOf_cons, Stream'.append_append_stream, streamOf]

theorem wordBits_byteOf {bits : List Bool} (h : bits.length = 8) :
    wordBits 8 (byteOf bits).toNat = bits := by
  have hlt := wordOf_lt bits
  have hback := wordBits_wordOf bits
  rw [h] at hlt hback
  rw [byteOf, BitVec.toNat_ofNat, Nat.mod_eq_of_lt hlt, hback]

theorem nil_length_lt : ([] : List Bool).length < 8 := Nat.zero_lt_succ 7

/-- Packed into bytes, bits are followed by zeros. -/
theorem streamOf_packInto {acc : List Bool} (h : acc.length < 8) (bits : List Bool) :
    streamOf (packInto acc bits) = acc ++ₛ (bits ++ₛ zeros) := by
  induction bits generalizing acc with
  | nil =>
    cases acc with
    | nil => rfl
    | cons a acc =>
      have hlen : ((a :: acc) ++ List.replicate (8 - (a :: acc).length) false).length = 8 := by
        rw [List.length_append, List.length_replicate]
        omega
      rw [packInto, streamOf_cons, wordBits_byteOf hlen, streamOf_nil,
        Stream'.append_append_stream, replicate_append_zeros]
      · rfl
      · exact List.cons_ne_nil a acc
  | cons b bits ih =>
    have hcons : acc ++ₛ ((b :: bits) ++ₛ zeros) = (acc ++ [b]) ++ₛ (bits ++ₛ zeros) := by
      rw [Stream'.append_append_stream]
      rfl
    rw [packInto, hcons]
    split
    · rename_i hfull
      have hlen : (acc ++ [b]).length = 8 := by
        rw [List.length_append, hfull, List.length_singleton]
      rw [streamOf_cons, wordBits_byteOf hlen, ih nil_length_lt, Stream'.nil_append_stream]
    · rename_i hroom
      rw [ih]
      rw [List.length_append, List.length_singleton]
      omega

/-- Packing does not change the bits. -/
theorem streamOf_pack (bits : List Bool) : streamOf (pack bits) = bits ++ₛ zeros := by
  rw [pack, streamOf_packInto nil_length_lt, Stream'.nil_append_stream]

/-- A byte that is full is put out, and packing starts anew behind it. -/
theorem packInto_append {acc bits : List Bool} (h : acc.length + bits.length = 8)
    (hne : bits ≠ []) (l : List Bool) :
    packInto acc (bits ++ l) = byteOf (acc ++ bits) :: packInto [] l := by
  induction bits generalizing acc with
  | nil => exact absurd rfl hne
  | cons b bits ih =>
    rw [List.length_cons] at h
    rw [List.cons_append, packInto]
    cases bits with
    | nil => rw [if_pos (by simpa using h), List.nil_append]
    | cons c bits =>
      rw [List.length_cons] at h
      have hlen : (acc ++ [b]).length + (c :: bits).length = 8 := by
        rw [List.length_append, List.length_singleton, List.length_cons]
        omega
      rw [if_neg (by omega), ih hlen (List.cons_ne_nil c bits), List.append_assoc]
      rfl

/-- Eight bits in front are the first byte. -/
theorem pack_append {bits : List Bool} (h : bits.length = 8) (l : List Bool) :
    pack (bits ++ l) = byteOf bits :: pack l := by
  apply packInto_append
  · rw [List.length_nil, h]
  · rintro rfl
    cases h

/-- Packing adds less than a byte. -/
theorem length_packInto_le (acc bits : List Bool) :
    8 * (packInto acc bits).length ≤ acc.length + bits.length + 7 := by
  induction bits generalizing acc with
  | nil =>
    cases acc with
    | nil => exact Nat.zero_le _
    | cons a acc =>
      rw [packInto]
      · simp only [List.length_cons, List.length_nil]
        omega
      · exact List.cons_ne_nil a acc
  | cons b bits ih =>
    rw [packInto, List.length_cons]
    split
    · have hrest := ih []
      rw [List.length_nil] at hrest
      rw [List.length_cons]
      omega
    · have hrest := ih (acc ++ [b])
      rw [List.length_append, List.length_singleton] at hrest
      omega

theorem length_pack_le (bits : List Bool) : 8 * (pack bits).length ≤ bits.length + 7 := by
  have h := length_packInto_le [] bits
  rw [List.length_nil, Nat.zero_add] at h
  exact h

/-! ### Emulation prevention -/

/-- How many zero bytes stand together at the end, after the byte `b`. -/
def zerosAfter (cZeros : Nat) (b : Byte) : Nat := if b = 0 then cZeros + 1 else 0

/-- Insert a byte 03 between two zeros and a byte of at most 3; `cZeros` zeros
have been written last. -/
def escape : Nat → List Byte → List Byte
  | _, [] => []
  | cZeros, b :: bytes =>
    if cZeros = 2 ∧ b ≤ 3 then 3 :: b :: escape (zerosAfter 0 b) bytes
    else b :: escape (zerosAfter cZeros b) bytes

/-- Drop the byte 03 behind two zeros; `cZeros` zeros have been read last. -/
def payload : Nat → List Byte → List Byte
  | _, [] => []
  | cZeros, b :: bytes =>
    b :: match zerosAfter cZeros b, bytes with
      | 2, 3 :: bytes => payload 0 bytes
      | cZeros, bytes => payload cZeros bytes

/-- A byte is kept, and the 3 behind a second zero is left out. -/
theorem payload_cons (cZeros : Nat) (b : Byte) (bytes : List Byte) :
    payload cZeros (b :: bytes) =
      b :: (if zerosAfter cZeros b = 2 ∧ bytes.head? = some 3 then payload 0 bytes.tail
        else payload (zerosAfter cZeros b) bytes) := by
  by_cases hskip : zerosAfter cZeros b = 2 ∧ bytes.head? = some 3
  · obtain ⟨h2, h3⟩ := hskip
    obtain ⟨rest, rfl⟩ := List.head?_eq_some_iff.mp h3
    rw [if_pos ⟨h2, rfl⟩, List.tail_cons]
    exact payload.eq_2 _ _ _ h2
  · rw [payload, if_neg hskip]
    rintro rest h2 rfl
    exact hskip ⟨h2, rfl⟩

theorem payload_cons_of_ne_zero {b : Byte} (h : b ≠ 0) (cZeros : Nat) (bytes : List Byte) :
    payload cZeros (b :: bytes) = b :: payload 0 bytes := by
  have hzeros : zerosAfter cZeros b = 0 := if_neg h
  rw [payload_cons, hzeros, if_neg (fun h2 => by cases h2.1)]

/-- Where a byte 03 may be due, it is the only change. -/
theorem escape_two (bytes : List Byte) :
    escape 2 bytes = 3 :: escape 0 bytes ∨
      (escape 2 bytes = escape 0 bytes ∧ ∀ b rest, bytes = b :: rest → b ≠ 0 ∧ b ≠ 3) := by
  cases bytes with
  | nil => exact .inr ⟨rfl, fun _ _ h => nomatch h⟩
  | cons b bytes =>
    have hzero : escape 0 (b :: bytes) = b :: escape (zerosAfter 0 b) bytes :=
      if_neg fun h => by cases h.1
    by_cases hle : b ≤ 3
    · rw [hzero]
      exact .inl (if_pos ⟨rfl, hle⟩)
    · have hne : b ≠ 0 ∧ b ≠ 3 := by
        constructor
        · rintro rfl
          exact hle (by decide)
        · rintro rfl
          exact hle (by decide)
      have hafter : zerosAfter 2 b = zerosAfter 0 b := by
        rw [zerosAfter, if_neg hne.1, zerosAfter, if_neg hne.1]
      refine .inr ⟨?_, ?_⟩
      · rw [hzero, escape, if_neg (fun h => hle h.2), hafter]
      · rintro c rest hcons
        obtain ⟨rfl, -⟩ := List.cons.inj hcons
        exact hne

/-- What was escaped is the payload again, by recursion on the bytes with the zeros in front
of them. -/
theorem payload_escape_of_lt {cZeros : Nat} (h : cZeros < 2) (bytes : List Byte) :
    payload cZeros (escape cZeros bytes) = bytes := by
  induction bytes generalizing cZeros with
  | nil => rfl
  | cons b bytes ih =>
    rw [escape, if_neg (fun h2 => by omega), payload_cons]
    congr 1
    by_cases hb : zerosAfter cZeros b = 2
    · rw [hb]
      rcases escape_two bytes with hinsert | ⟨hsame, hne⟩
      · rw [hinsert, if_pos ⟨rfl, rfl⟩, List.tail_cons, ih Nat.two_pos]
      · rw [hsame]
        cases bytes with
        | nil => rfl
        | cons c rest =>
          obtain ⟨hc0, hc3⟩ := hne c rest rfl
          have hback : payload 0 (escape 0 (c :: rest)) = c :: rest := ih Nat.two_pos
          rw [escape, if_neg (fun h2 => by cases h2.1), payload_cons_of_ne_zero hc0] at hback
          have hcons : escape 0 (c :: rest) = c :: escape (zerosAfter 0 c) rest :=
            if_neg fun h2 => by cases h2.1
          rw [hcons, payload_cons_of_ne_zero hc0,
            if_neg (fun h2 => hc3 (Option.some.inj h2.2)), hback]
    · have hlt : zerosAfter cZeros b < 2 := by
        unfold zerosAfter at hb ⊢
        split at hb
        · rename_i hzero
          rw [if_pos hzero]
          omega
        · rename_i hne
          rw [if_neg hne]
          exact Nat.two_pos
      rw [if_neg (fun h2 => hb h2.1), ih hlt]

/-- Dropping the inserted bytes gives the bytes back. -/
theorem payload_escape (bytes : List Byte) : payload 0 (escape 0 bytes) = bytes :=
  payload_escape_of_lt Nat.two_pos bytes

/-- Escaping at most doubles the length. -/
theorem length_escape_le (cZeros : Nat) (bytes : List Byte) :
    (escape cZeros bytes).length ≤ 2 * bytes.length := by
  induction bytes generalizing cZeros with
  | nil => exact Nat.le_refl 0
  | cons b bytes ih =>
    rw [escape]
    split
    · have hrest := ih (zerosAfter 0 b)
      simp only [List.length_cons]
      omega
    · have hrest := ih (zerosAfter cZeros b)
      simp only [List.length_cons]
      omega

theorem escape_of_ne_zero {bytes : List Byte} (h : ∀ b ∈ bytes, b ≠ 0) :
    escape 0 bytes = bytes := by
  induction bytes with
  | nil => rfl
  | cons b bytes ih =>
    have hafter : zerosAfter 0 b = 0 := if_neg (h b List.mem_cons_self)
    rw [escape, if_neg (fun h2 => by cases h2.1), hafter,
      ih fun c hc => h c (List.mem_cons_of_mem b hc)]

end Sogx.Lib.Bitstream
