import Sogx.Lib.Base64
import Sogx.Ios.RTSPMessage

/-!
`NSData+Base64.m`.

The encoder breaks its output into lines of 64 characters, and the decoder takes the
characters of the alphabet wherever they stand, four at a time.

* `newBase64Encode_fits`: what is written is the code of RFC 4648, in lines, and the
  buffer holds it.
* `decodeLoop_eq`: what is read of any text.
* `base64_round_trip`: decoding gives the data back, or all but their last byte.
-/

namespace Sogx.NSData

open Sogx.Lib

def base64EncodeLookup (i : Byte) : Char :=
  "ABCDEFGHIJKLMNOPQRSTUVWXYZabcdefghijklmnopqrstuvwxyz0123456789+/".toList.getD i.toNat '\x00'

/-- `base64DecodeLookup` of a character, with `none` for `xx`. The table has no entry
for what is not ASCII. -/
def base64DecodeLookup (c : Char) : Option Byte :=
  let n := c.toNat
  if n = 0x2b then some 62
  else if n = 0x2f then some 63
  else if 0x30 ≤ n ∧ n ≤ 0x39 then some (BitVec.ofNat 8 (52 + (n - 0x30)))
  else if 0x41 ≤ n ∧ n ≤ 0x5a then some (BitVec.ofNat 8 (n - 0x41))
  else if 0x61 ≤ n ∧ n ≤ 0x7a then some (BitVec.ofNat 8 (26 + (n - 0x61)))
  else none

/-! ### Encoding -/

/-- The characters of three bytes. -/
def encodeUnit (a b c : Byte) : List Char :=
  [base64EncodeLookup ((a &&& 0xFC) >>> 2), base64EncodeLookup ((a &&& 0x03) <<< 4 ||| (b &&& 0xF0) >>> 4),
    base64EncodeLookup ((b &&& 0x0F) <<< 2 ||| (c &&& 0xC0) >>> 6), base64EncodeLookup (c &&& 0x3F)]

/-- The inner loop of `NewBase64Encode`: `left` is `lineEnd - i`, and `data` are the
bytes from `i` on. -/
def encodeLine : Nat → List Byte → List Char × Nat × List Byte
  | left, a :: b :: c :: data =>
    if 3 ≤ left then
      let (out, left, data) := encodeLine (left - 3) data
      (encodeUnit a b c ++ out, left, data)
    else ([], left, a :: b :: c :: data)
  | left, data => ([], left, data)

/-- The outer loop, with fuel. -/
def encodeLines (lineLength : Nat) : Nat → Nat → List Byte → List Char × List Byte
  | 0, _, data => ([], data)
  | fuel + 1, left, data =>
    let left := min left data.length
    let atEnd := left = data.length
    let (out, left, data) := encodeLine left data
    if atEnd then (out, data)
    else
      let (out', data) := encodeLines lineLength fuel (left + lineLength) data
      (out ++ '\r' :: '\n' :: out', data)

/-- The characters of the last one or two bytes. -/
def encodeRest : List Byte → List Char
  | a :: b :: _ =>
    [base64EncodeLookup ((a &&& 0xFC) >>> 2), base64EncodeLookup ((a &&& 0x03) <<< 4 ||| (b &&& 0xF0) >>> 4),
      base64EncodeLookup ((b &&& 0x0F) <<< 2), '=']
  | [a] => [base64EncodeLookup ((a &&& 0xFC) >>> 2), base64EncodeLookup ((a &&& 0x03) <<< 4), '=', '=']
  | [] => []

def inputLineLength : Nat := 48

def newBase64Encode (buffer : List Byte) (separateLines : Bool) : List Char :=
  let lineLength := if separateLines = true then inputLineLength else buffer.length
  let (out, data) := encodeLines lineLength (buffer.length + 1) lineLength buffer
  out ++ encodeRest data

/-- The size of the buffer that `NewBase64Encode` allocates. -/
def outputBufferSize (length : Nat) (separateLines : Bool) : Nat :=
  let size := (length / 3 + if length % 3 = 0 then 0 else 1) * 4
  let size := if separateLines = true then size + size / 64 * 2 else size
  size + 1

def base64EncodedString (data : List Byte) : NSString := newBase64Encode data true

/-! ### Decoding -/

/-- The loop that accumulates so many more valid characters: their values, and what is
behind them. -/
def accumulate : Nat → List Char → List Byte × List Char
  | 0, input => ([], input)
  | _, [] => ([], [])
  | left + 1, c :: input =>
    match base64DecodeLookup c with
    | some decode =>
      let (accumulated, input) := accumulate left input
      (decode :: accumulated, input)
    | none => accumulate (left + 1) input
termination_by structural _ input => input

/-- The bytes of up to four values. -/
def store : List Byte → List Byte
  | a :: b :: c :: d :: _ => [a <<< 2 ||| b >>> 4, b <<< 4 ||| c >>> 2, c <<< 6 ||| d]
  | [a, b, c] => [a <<< 2 ||| b >>> 4, b <<< 4 ||| c >>> 2]
  | [a, b] => [a <<< 2 ||| b >>> 4]
  | _ => []

/-- The loop of `NewBase64Decode`, with fuel, and `j` bytes in `output`. Where it
accumulates nothing `j` is lowered; below 0 there is no buffer of such a length. -/
def decodeLoop : Nat → List Byte → List Char → Option (List Byte)
  | 0, _, _ => none
  | fuel + 1, output, input =>
    if input = [] then some output
    else
      let (accumulated, input) := accumulate 4 input
      if accumulated = [] then
        if output = [] then none else decodeLoop fuel output.dropLast input
      else decodeLoop fuel (output ++ store accumulated) input

def newBase64Decode (input : List Char) : Option (List Byte) := decodeLoop (input.length + 1) [] input

/-- `dataFromBase64String:`. A text that is not ASCII has no data. -/
def dataFromBase64String (aString : NSString) : Option (List Byte) :=
  newBase64Decode (if aString.all (·.toNat < 128) then aString else [])

/-! ### The code of the RFC -/

theorem lookup_eq (n : Nat) (h : n < 64) : base64EncodeLookup (BitVec.ofNat 8 n) = Base64.digit n := by
  have hall : ∀ m : Fin 64, base64EncodeLookup (BitVec.ofNat 8 m.val) = Base64.digit m.val := by
    decide +kernel
  exact hall ⟨n, h⟩

/-- A character is the digit that its index says. -/
theorem lookup_of_toNat {i : Byte} {n : Nat} (hi : i.toNat = n) (h : n < 64) :
    base64EncodeLookup i = Base64.digit n := by
  rw [← lookup_eq n h, ← hi, BitVec.ofNat_toNat, BitVec.setWidth_eq]

theorem high_six (a : Byte) : ((a &&& 0xFC) >>> 2).toNat = a.toNat / 4 := by
  revert a
  decide +kernel

theorem low_two (a : Byte) : ((a &&& 0x03) <<< 4).toNat = (a.toNat % 4) <<< 4 := by
  revert a
  decide +kernel

theorem high_four (b : Byte) : ((b &&& 0xF0) >>> 4).toNat = b.toNat / 16 := by
  revert b
  decide +kernel

theorem low_four (b : Byte) : ((b &&& 0x0F) <<< 2).toNat = (b.toNat % 16) <<< 2 := by
  revert b
  decide +kernel

theorem high_two (c : Byte) : ((c &&& 0xC0) >>> 6).toNat = c.toNat / 64 := by
  revert c
  decide +kernel

theorem low_six (c : Byte) : (c &&& 0x3F).toNat = c.toNat % 64 := by
  revert c
  decide +kernel

theorem second_six (a b : Byte) :
    ((a &&& 0x03) <<< 4 ||| (b &&& 0xF0) >>> 4).toNat = a.toNat % 4 * 16 + b.toNat / 16 := by
  have hb : b.toNat / 16 < 2 ^ 4 := by have := b.isLt; omega
  rw [BitVec.toNat_or, low_two, high_four, ← Nat.shiftLeft_add_eq_or_of_lt hb, Nat.shiftLeft_eq]

theorem third_six (b c : Byte) :
    ((b &&& 0x0F) <<< 2 ||| (c &&& 0xC0) >>> 6).toNat = b.toNat % 16 * 4 + c.toNat / 64 := by
  have hc : c.toNat / 64 < 2 ^ 2 := by have := c.isLt; omega
  rw [BitVec.toNat_or, low_four, high_two, ← Nat.shiftLeft_add_eq_or_of_lt hc, Nat.shiftLeft_eq]

/-- The digits of a number, each under the index that it has. -/
theorem digits_four {v i j k l : Nat} (hi : v / 64 ^ 3 % 64 = i) (hj : v / 64 ^ 2 % 64 = j)
    (hk : v / 64 ^ 1 % 64 = k) (hl : v / 64 ^ 0 % 64 = l) :
    Base64.digits 4 v = [Base64.digit i, Base64.digit j, Base64.digit k, Base64.digit l] := by
  rw [← hi, ← hj, ← hk, ← hl]
  rfl

theorem encodeUnit_eq (a b c : Byte) : encodeUnit a b c = Base64.digits 4 (ofBE [a, b, c]) := by
  have ha := a.isLt
  have hb := b.isLt
  have hc := c.isLt
  have hvalue : ofBE [a, b, c] = a.toNat * 65536 + b.toNat * 256 + c.toNat := by simp [ofBE, Nat.add_assoc]
  rw [encodeUnit, lookup_of_toNat (high_six a) (by omega), lookup_of_toNat (second_six a b) (by omega),
    lookup_of_toNat (third_six b c) (by omega), lookup_of_toNat (low_six c) (by omega), hvalue]
  exact (digits_four (by omega) (by omega) (by omega) (by omega)).symm

theorem encodeRest_eq {data : List Byte} (h : data.length < 3) : encodeRest data = Base64.encode data := by
  match data with
  | [] => rfl
  | [a] =>
    have ha := a.isLt
    have hvalue : ofBE [a] = a.toNat := by simp [ofBE]
    have hfirst : ofBE [a] * 2 ^ 4 / 64 ^ 1 % 64 = a.toNat / 4 := by omega
    have hsecond : ofBE [a] * 2 ^ 4 / 64 ^ 0 % 64 = a.toNat % 4 * 2 ^ 4 := by omega
    rw [encodeRest, lookup_of_toNat (high_six a) (by omega),
      lookup_of_toNat ((low_two a).trans (Nat.shiftLeft_eq _ _)) (by omega), Base64.encode]
    simp only [Base64.digits, hfirst, hsecond]
    rfl
  | [a, b] =>
    have ha := a.isLt
    have hb := b.isLt
    have hvalue : ofBE [a, b] = a.toNat * 256 + b.toNat := by simp [ofBE]
    have hfirst : ofBE [a, b] * 2 ^ 2 / 64 ^ 2 % 64 = a.toNat / 4 := by omega
    have hsecond : ofBE [a, b] * 2 ^ 2 / 64 ^ 1 % 64 = a.toNat % 4 * 16 + b.toNat / 16 := by omega
    have hthird : ofBE [a, b] * 2 ^ 2 / 64 ^ 0 % 64 = b.toNat % 16 * 2 ^ 2 := by omega
    rw [encodeRest, lookup_of_toNat (high_six a) (by omega), lookup_of_toNat (second_six a b) (by omega),
      lookup_of_toNat ((low_four b).trans (Nat.shiftLeft_eq _ _)) (by omega), Base64.encode]
    simp only [Base64.digits, hfirst, hsecond, hthird]
    rfl

/-- Whole groups are encoded on their own. -/
theorem encode_append {x : List Byte} (h : 3 ∣ x.length) (y : List Byte) :
    Base64.encode (x ++ y) = Base64.encode x ++ Base64.encode y := by
  fun_induction Base64.encode x with
  | case1 => rfl
  | case2 a => simp at h
  | case3 a b => simp at h
  | case4 a b c rest ih =>
    have hrest : 3 ∣ rest.length := by simpa using h
    rw [List.cons_append, List.cons_append, List.cons_append, Base64.encode, ih hrest, List.append_assoc]

/-- A line takes the whole units that it has room for. -/
theorem encodeLine_eq {left : Nat} {data : List Byte} (h : left ≤ data.length) :
    encodeLine left data = (Base64.encode (data.take (left / 3 * 3)), left % 3, data.drop (left / 3 * 3)) := by
  fun_induction encodeLine left data with
  | case1 left a b c data hroom out left' data' hline ih =>
    obtain ⟨k, rfl⟩ := Nat.exists_eq_add_of_le' hroom
    have hk := ih (by simpa using h)
    rw [hline, Nat.add_sub_cancel] at hk
    obtain ⟨rfl, rfl, rfl⟩ : out = _ ∧ left' = _ ∧ data' = _ := by simpa using hk
    simp [Nat.add_div_right, Nat.succ_mul, Base64.encode, encodeUnit_eq]
  | case2 left a b c data hroom =>
    have hzero : left / 3 = 0 := Nat.div_eq_of_lt (Nat.not_le.mp hroom)
    simp [hzero, Nat.mod_eq_of_lt (Nat.not_le.mp hroom), Base64.encode]
  | case3 left data hshort =>
    have hlt : left < 3 := by
      refine h.trans_lt ?_
      match data, hshort with
      | [], _ => exact Nat.succ_pos 2
      | [a], _ => exact Nat.lt_add_one_of_lt (Nat.lt_add_one 1)
      | [a, b], _ => exact Nat.lt_add_one 2
      | a :: b :: c :: rest, hshort => exact absurd rfl (hshort a b c rest)
    have hzero : left / 3 = 0 := Nat.div_eq_of_lt hlt
    simp [hzero, Nat.mod_eq_of_lt hlt, Base64.encode]

/-- A text in lines of 64 characters. -/
def inLines (cs : List Char) : List Char :=
  if cs.length ≤ 64 then cs else cs.take 64 ++ '\r' :: '\n' :: inLines (cs.drop 64)
termination_by cs.length
decreasing_by
  rw [List.length_drop]
  omega

/-- The last line, with the characters of the last bytes. -/
theorem encodeLine_rest (data : List Byte) :
    (encodeLine data.length data).1 ++ encodeRest (encodeLine data.length data).2.2 = Base64.encode data := by
  have hdvd : 3 ∣ (data.take (data.length / 3 * 3)).length := by
    rw [List.length_take, Nat.min_eq_left (by omega)]
    exact Nat.dvd_mul_left 3 _
  have hshort : (data.drop (data.length / 3 * 3)).length < 3 := by
    rw [List.length_drop]
    omega
  rw [encodeLine_eq (Nat.le_refl _)]
  dsimp only
  rw [encodeRest_eq hshort, ← encode_append hdvd, List.take_append_drop]

/-- The lines and the rest make up the whole code, cut into lines. -/
theorem encodeLines_eq {fuel : Nat} {data : List Byte} (h : data.length < fuel) :
    (encodeLines inputLineLength fuel inputLineLength data).1 ++
      encodeRest (encodeLines inputLineLength fuel inputLineLength data).2 = inLines (Base64.encode data) := by
  induction fuel generalizing data with
  | zero => exact absurd h (Nat.not_lt_zero _)
  | succ fuel ih =>
    have hlength := Base64.length_encode data
    rcases Nat.lt_or_ge 48 data.length with hlong | hshort
    · -- a whole line
      have hmin : min inputLineLength data.length = 48 := Nat.min_eq_left hlong.le
      have htake : (data.take 48).length = 48 := by rw [List.length_take, Nat.min_eq_left hlong.le]
      have hshorter : (data.drop 48).length < fuel := by
        rw [List.length_drop]
        omega
      have hrest := ih hshorter
      have hline : (Base64.encode (data.take 48)).length = 64 := by rw [Base64.length_encode, htake]
      have hsplit : Base64.encode data = Base64.encode (data.take 48) ++ Base64.encode (data.drop 48) := by
        rw [← encode_append (by rw [htake]; exact ⟨16, rfl⟩), List.take_append_drop]
      have hlonger : ¬ (Base64.encode data).length ≤ 64 := by omega
      have hfront : (Base64.encode data).take 64 = Base64.encode (data.take 48) := by
        rw [hsplit, ← hline, List.take_left]
      have hbehind : (Base64.encode data).drop 64 = Base64.encode (data.drop 48) := by
        rw [hsplit, ← hline, List.drop_left]
      have hgo : encodeLine 48 data = (Base64.encode (data.take 48), 0, data.drop 48) := encodeLine_eq hlong.le
      rw [inLines, if_neg hlonger, hfront, hbehind, encodeLines, ← hrest]
      simp only [hmin, hlong.ne, if_false, hgo, Nat.zero_add]
      rw [List.append_assoc]
      rfl
    · have hmin : min inputLineLength data.length = data.length := Nat.min_eq_right hshort
      have hone : (Base64.encode data).length ≤ 64 := by omega
      rw [inLines, if_pos hone, encodeLines]
      simp only [hmin, if_true]
      exact encodeLine_rest data

/-- What is written is the code of the RFC, in one line or in lines of 64. -/
theorem newBase64Encode_eq (buffer : List Byte) (separateLines : Bool) :
    newBase64Encode buffer separateLines =
      if separateLines = true then inLines (Base64.encode buffer) else Base64.encode buffer := by
  cases separateLines with
  | true => exact encodeLines_eq (Nat.lt_succ_self _)
  | false =>
    have hrest := encodeLine_rest buffer
    simp only [newBase64Encode, Bool.false_eq_true, if_false, encodeLines, Nat.min_self, if_true]
    exact hrest

/-- Each line but the last one adds two characters. -/
theorem length_inLines {cs : List Char} (h : cs ≠ []) :
    (inLines cs).length = cs.length + (cs.length - 1) / 64 * 2 := by
  fun_induction inLines cs with
  | case1 cs hle =>
    have hzero : (cs.length - 1) / 64 = 0 := Nat.div_eq_of_lt (by omega)
    rw [hzero, Nat.zero_mul, Nat.add_zero]
  | case2 cs hlong ih =>
    have hne : cs.drop 64 ≠ [] := by
      rw [ne_eq, List.drop_eq_nil_iff]
      exact hlong
    rw [List.length_append, List.length_cons, List.length_cons, ih hne, List.length_take, List.length_drop]
    omega

/-- What is written is the code of the RFC, in one line or in lines of 64, and with the
0 behind it it is not longer than its buffer. -/
theorem newBase64Encode_fits (buffer : List Byte) (separateLines : Bool) :
    newBase64Encode buffer separateLines =
        (if separateLines = true then inLines (Base64.encode buffer) else Base64.encode buffer) ∧
      (newBase64Encode buffer separateLines).length < outputBufferSize buffer.length separateLines := by
  have hlength := Base64.length_encode buffer
  have hsize : (buffer.length / 3 + if buffer.length % 3 = 0 then 0 else 1) = (buffer.length + 2) / 3 := by
    split <;> omega
  refine ⟨newBase64Encode_eq buffer separateLines, ?_⟩
  rw [newBase64Encode_eq, outputBufferSize, hsize]
  cases separateLines with
  | true =>
    by_cases hnil : Base64.encode buffer = []
    · have hempty : inLines [] = [] := by simp [inLines]
      rw [hnil, if_pos rfl, hempty]
      exact Nat.succ_pos _
    · have hlines := length_inLines hnil
      simp only [if_true, hlines, hlength]
      omega
  | false =>
    simp only [Bool.false_eq_true, if_false]
    omega

/-! ### Decoding -/

/-- The values of the valid characters of a text. -/
def values (input : List Char) : List Byte := input.filterMap base64DecodeLookup

/-- The bytes of all groups of four values. -/
def storeAll : List Byte → List Byte
  | a :: b :: c :: d :: rest => store [a, b, c, d] ++ storeAll rest
  | rest => store rest

/-- Characters that are not valid, behind whole groups of valid ones. -/
def Trails (input : List Char) : Prop :=
  4 ∣ (values input).length ∧ ∃ c ∈ input.getLast?, base64DecodeLookup c = none

/-- The inner loop of the decoder takes the next values, and passes over everything else. -/
theorem accumulate_eq (left : Nat) (input : List Char) :
    (accumulate left input).1 = (values input).take left ∧
      values (accumulate left input).2 = (values input).drop left ∧ (accumulate left input).2 <:+ input ∧
      ((values input).length < left → (accumulate left input).2 = []) := by
  fun_induction accumulate left input with
  | case1 input => simp
  | case2 left => simp [values]
  | case3 left c input decode hc accumulated input' hrest ih =>
    obtain ⟨htake, hdrop, hsuffix, hall⟩ := ih
    rw [hrest] at htake hdrop hsuffix hall
    have hvalues : values (c :: input) = decode :: values input := List.filterMap_cons_some hc
    rw [hvalues]
    refine ⟨congrArg _ htake, hdrop, hsuffix.trans (List.suffix_cons c input), ?_⟩
    exact fun hlt => hall (Nat.lt_of_succ_lt_succ hlt)
  | case4 left c input hc ih =>
    obtain ⟨htake, hdrop, hsuffix, hall⟩ := ih
    have hvalues : values (c :: input) = values input := List.filterMap_cons_none hc
    rw [hvalues]
    exact ⟨htake, hdrop, hsuffix.trans (List.suffix_cons c input), hall⟩

theorem storeAll_take_drop (vs : List Byte) : storeAll vs = store (vs.take 4) ++ storeAll (vs.drop 4) := by
  match vs with
  | a :: b :: c :: d :: rest => rfl
  | [] => rfl
  | [a] => rfl
  | [a, b] => rfl
  | [a, b, c] => rfl

/-- Where four values end the text its last character is valid. -/
theorem accumulate_last {left : Nat} {input : List Char} (hleft : 0 < left)
    (hvalues : left ≤ (values input).length) (hrest : (accumulate left input).2 = []) :
    ∃ c ∈ input.getLast?, (base64DecodeLookup c).isSome = true := by
  fun_induction accumulate left input with
  | case1 input => exact absurd hleft (Nat.lt_irrefl 0)
  | case2 left hpos => exact absurd hvalues (Nat.not_le.mpr hleft)
  | case3 left c input decode hc accumulated input' hgo ih =>
    rw [hgo] at ih
    rcases Nat.eq_zero_or_pos left with rfl | hpos
    · rw [accumulate] at hgo
      obtain rfl : input = [] := (congrArg Prod.snd hgo).trans hrest
      exact ⟨c, rfl, by rw [hc]; rfl⟩
    · have hmore : left ≤ (values input).length := by
        rw [values, List.filterMap_cons_some hc, List.length_cons] at hvalues
        exact Nat.le_of_succ_le_succ hvalues
      obtain ⟨d, hd, hvalid⟩ := ih hpos hmore hrest
      exact ⟨d, by simp [List.getLast?_cons, Option.mem_def.mp hd], hvalid⟩
  | case4 left c input hc ih =>
    have hmore : left + 1 ≤ (values input).length := by
      rwa [values, List.filterMap_cons_none hc] at hvalues
    obtain ⟨d, hd, hvalid⟩ := ih hleft hmore hrest
    exact ⟨d, by simp [List.getLast?_cons, Option.mem_def.mp hd], hvalid⟩

theorem getLast?_of_suffix {rest input : List Char} (h : rest <:+ input) (hne : rest ≠ []) :
    input.getLast? = rest.getLast? := by
  obtain ⟨front, rfl⟩ := h
  exact List.getLast?_append_of_ne_nil front hne

/-- Taking one group leaves what trails behind the last one. -/
theorem trails_accumulate {input : List Char} (hvalues : values input ≠ []) :
    Trails (accumulate 4 input).2 ↔ Trails input := by
  obtain ⟨-, hdrop, hsuffix, hall⟩ := accumulate_eq 4 input
  have hpos := List.length_pos_iff.mpr hvalues
  unfold Trails
  rcases Nat.lt_or_ge (values input).length 4 with hlt | hge
  · rw [hall hlt]
    constructor
    · rintro ⟨-, c, hc, -⟩
      cases hc
    · rintro ⟨hdvd, -⟩
      exact absurd (Nat.le_of_dvd hpos hdvd) (Nat.not_le.mpr hlt)
  · have hdvd : 4 ∣ (values input).length - 4 ↔ 4 ∣ (values input).length :=
      (Nat.dvd_sub_iff_left hge (Nat.dvd_refl 4))
    rw [hdrop, List.length_drop, hdvd]
    by_cases hrest : (accumulate 4 input).2 = []
    · obtain ⟨d, hd, hvalid⟩ := accumulate_last (Nat.succ_pos 3) hge hrest
      rw [hrest]
      constructor
      · rintro ⟨-, c, hc, -⟩
        cases hc
      · rintro ⟨-, c, hc, hnone⟩
        rw [Option.mem_unique hc hd] at hnone
        simp [hnone] at hvalid
    · rw [getLast?_of_suffix hsuffix hrest]

open Classical in
/-- What `decodeLoop` makes of a text: the bytes of its valid characters, less the last
one where something trails. -/
theorem decodeLoop_eq {fuel : Nat} {output : List Byte} {input : List Char} (h : input.length < fuel) :
    decodeLoop fuel output input =
      if Trails input then
        if output ++ storeAll (values input) = [] then none
        else some (output ++ storeAll (values input)).dropLast
      else some (output ++ storeAll (values input)) := by
  induction fuel generalizing output input with
  | zero => exact absurd h (Nat.not_lt_zero _)
  | succ fuel ih =>
    rw [decodeLoop]
    by_cases hnil : input = []
    · subst hnil
      have hnot : ¬ Trails [] := by
        rintro ⟨-, c, hc, -⟩
        cases hc
      rw [if_pos rfl, if_neg hnot]
      simp [values, storeAll, store]
    · obtain ⟨htake, hdrop, hsuffix, hall⟩ := accumulate_eq 4 input
      rw [if_neg hnil]
      dsimp only
      by_cases hvalues : values input = []
      · -- nothing valid is left
        have hrest : (accumulate 4 input).2 = [] := hall (by rw [hvalues]; exact Nat.succ_pos 3)
        have htrails : Trails input := by
          obtain ⟨c, hc⟩ := Option.ne_none_iff_exists'.mp (mt List.getLast?_eq_none_iff.mp hnil)
          have hmem := List.mem_of_getLast? hc
          refine ⟨by simp [hvalues], c, hc, ?_⟩
          exact List.filterMap_eq_nil_iff.mp hvalues c hmem
        have hfuel : 0 < fuel := by
          have hlength := List.length_pos_iff.mpr hnil
          omega
        obtain ⟨fuel, rfl⟩ := Nat.exists_eq_succ_of_ne_zero hfuel.ne'
        rw [htake, hvalues, hrest, if_pos htrails, decodeLoop]
        simp [storeAll, store]
      · have hne : (accumulate 4 input).1 ≠ [] := by
          rw [htake, ne_eq, List.take_eq_nil_iff]
          simp [hvalues]
        have hshorter : (accumulate 4 input).2.length < input.length := by
          refine lt_of_le_of_ne hsuffix.length_le ?_
          intro heq
          have hsame := congrArg (List.length ∘ values) (hsuffix.eq_of_length heq)
          have hpos := List.length_pos_iff.mpr hvalues
          simp only [Function.comp_apply, hdrop, List.length_drop] at hsame
          omega
        rw [if_neg hne, ih (by omega), htake, hdrop, List.append_assoc, ← storeAll_take_drop,
          if_congr (trails_accumulate hvalues) rfl rfl]

/-! ### Round trip -/

/-- The table of the decoder inverts that of the encoder. -/
theorem decode_lookup {i : Byte} (h : i.toNat < 64) : base64DecodeLookup (base64EncodeLookup i) = some i := by
  have hall : ∀ i : Byte, i.toNat < 64 → base64DecodeLookup (base64EncodeLookup i) = some i := by
    decide +kernel
  exact hall i h

theorem first_byte (a b : Byte) :
    ((a &&& 0xFC) >>> 2) <<< 2 ||| ((a &&& 0x03) <<< 4 ||| (b &&& 0xF0) >>> 4) >>> 4 = a := by
  apply BitVec.eq_of_getLsbD_eq
  intro i hi
  interval_cases i <;> simp

theorem second_byte (a b c : Byte) :
    ((a &&& 0x03) <<< 4 ||| (b &&& 0xF0) >>> 4) <<< 4 ||| ((b &&& 0x0F) <<< 2 ||| (c &&& 0xC0) >>> 6) >>> 2 =
      b := by
  apply BitVec.eq_of_getLsbD_eq
  intro i hi
  interval_cases i <;> simp

theorem third_byte (b c : Byte) :
    ((b &&& 0x0F) <<< 2 ||| (c &&& 0xC0) >>> 6) <<< 6 ||| (c &&& 0x3F) = c := by
  apply BitVec.eq_of_getLsbD_eq
  intro i hi
  interval_cases i <;> simp

theorem lookup_lt {a b c : Byte} : ((a &&& 0xFC) >>> 2).toNat < 64 ∧
    ((a &&& 0x03) <<< 4 ||| (b &&& 0xF0) >>> 4).toNat < 64 ∧
    ((b &&& 0x0F) <<< 2 ||| (c &&& 0xC0) >>> 6).toNat < 64 ∧ (c &&& 0x3F).toNat < 64 := by
  have ha := a.isLt
  have hb := b.isLt
  have hc := c.isLt
  rw [high_six, second_six, third_six, low_six]
  omega

theorem values_append (x y : List Char) : values (x ++ y) = values x ++ values y := List.filterMap_append

theorem values_eq_nil {w : List Char} (h : ∀ c ∈ w, base64DecodeLookup c = none) : values w = [] :=
  List.filterMap_eq_nil_iff.mpr h

theorem values_lookup {i : Byte} (h : i.toNat < 64) (input : List Char) :
    values (base64EncodeLookup i :: input) = i :: values input :=
  List.filterMap_cons_some (decode_lookup h)

theorem values_pad (input : List Char) : values ('=' :: input) = values input := rfl

theorem values_unit (a b c : Byte) : values (encodeUnit a b c) =
    [(a &&& 0xFC) >>> 2, (a &&& 0x03) <<< 4 ||| (b &&& 0xF0) >>> 4,
      (b &&& 0x0F) <<< 2 ||| (c &&& 0xC0) >>> 6, c &&& 0x3F] := by
  obtain ⟨hfirst, hsecond, hthird, hfourth⟩ := lookup_lt (a := a) (b := b) (c := c)
  rw [encodeUnit, values_lookup hfirst, values_lookup hsecond, values_lookup hthird, values_lookup hfourth]
  rfl

/-- The values of the last bytes are those of a unit filled up with zeros. -/
theorem values_rest (a b : Byte) : values (encodeRest [a]) = (values (encodeUnit a 0 0)).take 2 ∧
    values (encodeRest [a, b]) = (values (encodeUnit a b 0)).take 3 := by
  obtain ⟨hfirst, hsecond, -, -⟩ := lookup_lt (a := a) (b := 0) (c := 0)
  obtain ⟨-, hsecond', hthird, -⟩ := lookup_lt (a := a) (b := b) (c := 0)
  rw [values_unit, values_unit]
  have hlow : ((a &&& 0x03) <<< 4 ||| ((0 : Byte) &&& 0xF0) >>> 4) = (a &&& 0x03) <<< 4 := by simp
  have hlow' : ((b &&& 0x0F) <<< 2 ||| ((0 : Byte) &&& 0xC0) >>> 6) = (b &&& 0x0F) <<< 2 := by simp
  rw [hlow] at hsecond ⊢
  rw [hlow'] at hthird ⊢
  simp only [encodeRest, values_lookup hfirst, values_lookup hsecond, values_lookup hsecond',
    values_lookup hthird, values_pad]
  exact ⟨rfl, rfl⟩

/-- The values of the code of some data: how many there are, and the bytes that they
store. -/
theorem values_encode : ∀ data : List Byte, storeAll (values (Base64.encode data)) = data ∧
    (values (Base64.encode data)).length = (4 * data.length + 2) / 3
  | [] => ⟨rfl, rfl⟩
  | [a] => by
    rw [← encodeRest_eq (by simp), (values_rest a 0).1, values_unit]
    exact ⟨congrArg (fun x => [x]) (first_byte a 0), by simp⟩
  | [a, b] => by
    rw [← encodeRest_eq (by simp), (values_rest a b).2, values_unit]
    exact ⟨congrArg₂ (fun x y => [x, y]) (first_byte a b) (second_byte a b 0), by simp⟩
  | a :: b :: c :: rest => by
    obtain ⟨hstore, hlength⟩ := values_encode rest
    rw [Base64.encode, ← encodeUnit_eq, values_append, values_unit]
    constructor
    · simp only [List.cons_append, List.nil_append, storeAll, store, first_byte, second_byte, third_byte,
        hstore]
    · simp only [List.length_append, List.length_cons, List.length_nil, hlength]
      omega

theorem digit_valid {n : Nat} (h : n < 64) : (base64DecodeLookup (Base64.digit n)).isSome = true := by
  have hlt : (BitVec.ofNat 8 n).toNat < 64 := by
    rw [BitVec.toNat_ofNat]
    omega
  rw [← lookup_eq n h, decode_lookup hlt]
  rfl

theorem alphabet_valid {c : Char} (h : c ∈ Base64.alphabet) : (base64DecodeLookup c).isSome = true := by
  obtain ⟨n, hn, rfl⟩ := List.mem_iff_getElem.mp h
  have hlength : Base64.alphabet.length = 64 := by decide
  have hdigit : Base64.digit n = Base64.alphabet[n] := List.getD_eq_getElem _ _ hn
  rw [← hdigit]
  exact digit_valid (hlength ▸ hn)

/-- Without pads every character is valid. -/
theorem encode_valid {data : List Byte} (h : 3 ∣ data.length) :
    ∀ c ∈ Base64.encode data, (base64DecodeLookup c).isSome = true := by
  fun_induction Base64.encode data with
  | case1 =>
    intro c hc
    cases hc
  | case2 a => simp at h
  | case3 a b => simp at h
  | case4 a b c rest ih =>
    intro d hd
    rcases List.mem_append.mp hd with hd | hd
    · exact alphabet_valid (Base64.digits_mem d hd)
    · exact ih (by simpa using h) d hd

/-- The marks between lines have no value. -/
theorem values_inLines (cs : List Char) : values (inLines cs) = values cs := by
  fun_induction inLines cs with
  | case1 cs hle => rfl
  | case2 cs hlong ih =>
    have hbreak : values ('\r' :: '\n' :: inLines (cs.drop 64)) = values (inLines (cs.drop 64)) := rfl
    rw [values_append, hbreak, ih, ← values_append, List.take_append_drop]

theorem inLines_ne_nil {cs : List Char} (h : cs ≠ []) : inLines cs ≠ [] := by
  rw [inLines]
  split
  · exact h
  · simp

theorem getLast?_inLines {cs : List Char} (h : cs ≠ []) : (inLines cs).getLast? = cs.getLast? := by
  fun_induction inLines cs with
  | case1 cs hle => rfl
  | case2 cs hlong ih =>
    have hne : cs.drop 64 ≠ [] := by
      rw [ne_eq, List.drop_eq_nil_iff]
      exact hlong
    have hsuffix : inLines (cs.drop 64) <:+ cs.take 64 ++ '\r' :: '\n' :: inLines (cs.drop 64) :=
      ⟨cs.take 64 ++ ['\r', '\n'], by simp⟩
    rw [getLast?_of_suffix hsuffix (inLines_ne_nil hne), ih hne,
      ← getLast?_of_suffix (List.drop_suffix 64 cs) hne]

/-- Behind the code of some data nothing trails, and what is not valid does if there are
no pads. -/
theorem trails_encoded (data : List Byte) {w : List Char} (hw : ∀ c ∈ w, base64DecodeLookup c = none) :
    Trails (base64EncodedString data ++ w) ↔ w ≠ [] ∧ 3 ∣ data.length := by
  have hcode : base64EncodedString data = inLines (Base64.encode data) := newBase64Encode_eq data true
  have hvalues : (values (base64EncodedString data ++ w)).length = (4 * data.length + 2) / 3 := by
    rw [values_append, values_eq_nil hw, List.append_nil, hcode, values_inLines]
    exact (values_encode data).2
  have hgroups : 4 ∣ (4 * data.length + 2) / 3 ↔ 3 ∣ data.length := by omega
  rw [Trails, hvalues, hgroups, and_comm]
  refine and_congr_left ?_
  intro hdvd
  constructor
  · rintro ⟨c, hc, hnone⟩ rfl
    rw [List.append_nil, hcode] at hc
    by_cases hnil : Base64.encode data = []
    · rw [hnil] at hc
      simp [inLines] at hc
    · rw [getLast?_inLines hnil] at hc
      have hvalid := encode_valid hdvd c (List.mem_of_getLast? hc)
      simp [hnone] at hvalid
  · intro hne
    rw [List.getLast?_append_of_ne_nil _ hne]
    obtain ⟨c, hc⟩ := Option.ne_none_iff_exists'.mp (mt List.getLast?_eq_none_iff.mp hne)
    exact ⟨c, hc, hw c (List.mem_of_getLast? hc)⟩

theorem mem_inLines {cs : List Char} {c : Char} (h : c ∈ inLines cs) : c ∈ cs ∨ c = '\r' ∨ c = '\n' := by
  fun_induction inLines cs with
  | case1 cs hle => exact .inl h
  | case2 cs hlong ih =>
    rw [List.mem_append, List.mem_cons, List.mem_cons] at h
    rcases h with htake | hreturn | hnewline | hrest
    · exact .inl (List.mem_of_mem_take htake)
    · exact .inr (.inl hreturn)
    · exact .inr (.inr hnewline)
    · exact (ih hrest).imp_left List.mem_of_mem_drop

/-- A code is ASCII text. -/
theorem encoded_ascii (data : List Byte) : ∀ c ∈ base64EncodedString data, c.toNat < 128 := by
  intro c hc
  have halphabet : Base64.alphabet.all (·.toNat < 128) = true := by decide
  rw [base64EncodedString, newBase64Encode_eq, if_pos rfl] at hc
  rcases mem_inLines hc with hc | rfl | rfl
  · rcases Base64.mem_encode hc with hc | rfl
    · exact of_decide_eq_true (List.all_eq_true.mp halphabet c hc)
    · decide
  · decide
  · decide

/-- Data come back from their code. With other characters behind it they do where it
ends in pads; otherwise the last byte is lost, and of no data there is no result. -/
theorem base64_round_trip (data : List Byte) (w : NSString)
    (hw : ∀ c ∈ w, base64DecodeLookup c = none ∧ c.toNat < 128) :
    dataFromBase64String (base64EncodedString data ++ w) =
      if w = [] ∨ ¬ 3 ∣ data.length then some data else if data = [] then none else some data.dropLast := by
  have hall : (base64EncodedString data ++ w).all (·.toNat < 128) = true := by
    rw [List.all_eq_true]
    intro c hc
    rcases List.mem_append.mp hc with hc | hc
    · exact decide_eq_true (encoded_ascii data c hc)
    · exact decide_eq_true (hw c hc).2
  have hinvalid : ∀ c ∈ w, base64DecodeLookup c = none := fun c hc => (hw c hc).1
  have hstore : storeAll (values (base64EncodedString data ++ w)) = data := by
    rw [values_append, values_eq_nil hinvalid, List.append_nil, base64EncodedString, newBase64Encode_eq,
      if_pos rfl, values_inLines]
    exact (values_encode data).1
  rw [dataFromBase64String, if_pos hall, newBase64Decode, decodeLoop_eq (Nat.lt_succ_self _),
    List.nil_append, hstore]
  have htrails := trails_encoded data hinvalid
  by_cases hkept : w = [] ∨ ¬ 3 ∣ data.length
  · rw [if_pos hkept, if_neg (by rw [htrails]; tauto)]
  · rw [if_neg hkept, if_pos (by rw [htrails]; tauto)]

theorem base64_round_trip_of_line : dataFromBase64String (base64EncodedString [1, 2, 3] ++ ['\n']) =
    if ['\n'] = [] ∨ ¬ 3 ∣ [1, 2, 3].length then some [1, 2, 3]
    else if ([1, 2, 3] : List Byte) = [] then none else some ([1, 2, 3] : List Byte).dropLast :=
  base64_round_trip [1, 2, 3] ['\n'] (List.forall_mem_singleton.mpr ⟨rfl, by decide⟩)

end Sogx.NSData
