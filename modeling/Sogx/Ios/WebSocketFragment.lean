import Sogx.Lib.Rfc6455

/-!
`WebSocketFragment.m`: one frame, as it is built for sending and as it is parsed.

* `readHeader_header`, `readHeader_short`: parsing reads the header of any frame, and
  nothing of less than a header.
* `fragmentWithOpCode_fragment`: what is built are the bytes of a masked frame.
* `fragmentWithData_bytes`: a frame is parsed to its fields and its payload.
-/

namespace Sogx

open Sogx.Lib Sogx.Lib.Rfc6455

namespace MessageOpCode

def illegal : Int := -1
def continuation : Int := 0x0
def text : Int := 0x1
def binary : Int := 0x2
def close : Int := 0x8
def ping : Int := 0x9
def pong : Int := 0xA

end MessageOpCode

/-- A fragment. `payloadLength` is an `int`; `none` is `nil`. -/
structure WebSocketFragment where
  isFinal : Bool
  isRSV1 : Bool
  isRSV2 : Bool
  isRSV3 : Bool
  opCode : Int
  mask : BitVec 32
  payloadStart : Nat
  payloadLength : Int
  payloadData : Option (List Byte)
  fragment : Option (List Byte)
deriving DecidableEq, Repr

namespace WebSocketFragment

def init : WebSocketFragment where
  isFinal := false
  isRSV1 := false
  isRSV2 := false
  isRSV3 := false
  opCode := MessageOpCode.illegal
  mask := 0
  payloadStart := 0
  payloadLength := 0
  payloadData := none
  fragment := none

/-- An `int` where an `NSUInteger` is needed. -/
def unsigned (n : Int) : Nat := (BitVec.ofInt 64 n).toNat

/-! ### Properties -/

section Properties

variable (f : WebSocketFragment)

def hasMask : Bool := f.mask != 0

def isControlFrame : Bool :=
  f.opCode == MessageOpCode.close || f.opCode == MessageOpCode.ping || f.opCode == MessageOpCode.pong

def isHeaderValid : Bool := 0 < f.payloadStart

/-- `[fragment length]`, which is 0 of `nil`. -/
def fragmentLength : Nat := (f.fragment.getD []).length

/-- `payloadStart + payloadLength`, a sum of two `int`s. -/
def contentEnd : Int := int (f.payloadStart + f.payloadLength)

def messageLength : Nat :=
  if 0 < f.payloadStart ∧ 0 ≤ f.payloadLength then f.payloadStart + f.payloadLength.toNat else 0

def isValid : Bool :=
  if 0 < f.messageLength then
    match f.payloadData with
    | some payloadData => payloadData.length == unsigned f.payloadLength
    | none => unsigned f.contentEnd == f.fragmentLength
  else false

def canBeParsed : Bool :=
  if 0 < f.messageLength ∧ f.isHeaderValid = true then unsigned f.contentEnd ≤ f.fragmentLength
  else false

end Properties

/-! ### Masks -/

/-- The four bytes of a mask, in the order in which they are used. -/
def maskBytes (aMask : BitVec 32) : List Byte :=
  [(aMask >>> 24).setWidth 8, (aMask >>> 16).setWidth 8, (aMask >>> 8).setWidth 8, aMask.setWidth 8]

/-- The loop of `mask:data:range:` over the bytes that are left, with its `m`. -/
def maskLoop (aMask : BitVec 32) : Nat → List Byte → List Byte
  | _, [] => []
  | m, current :: rest => (current ^^^ (maskBytes aMask).getD (m % 4) 0) :: maskLoop aMask (m + 1) rest

/-- `mask:data:range:`. Both ends of the loop are `int`s. -/
def maskRange (aMask : BitVec 32) (aData : List Byte) (location length : Nat) : List Byte :=
  let index := int location
  let last := int (location + length)
  let last := if aData.length < unsigned last then int aData.length else last
  maskLoop aMask 0 ((aData.drop index.toNat).take (last - index).toNat)

/-- `mask:data:`. -/
def maskData (aMask : BitVec 32) (aData : List Byte) : List Byte :=
  maskRange aMask aData 0 aData.length

/-! ### Parsing -/

/-- `subdataWithRange:`, which throws when the range is not inside. -/
def subdataWithRange (data : List Byte) (location length : Nat) : Option (List Byte) :=
  if location + length ≤ data.length then some ((data.drop location).take length) else none

/-- `parseContent:`. -/
def parseContent (aData : List Byte) (f : WebSocketFragment) : Option (WebSocketFragment × Bool) :=
  if unsigned f.contentEnd ≤ aData.length then
    let payloadData :=
      if f.hasMask = true then
        some (maskRange f.mask aData f.payloadStart (unsigned f.payloadLength))
      else subdataWithRange aData f.payloadStart (unsigned f.payloadLength)
    payloadData.map fun payloadData => ({ f with payloadData := some payloadData, fragment := none }, true)
  else some (f, false)

/-- `parseContent`. -/
def parseOwnContent (f : WebSocketFragment) : Option WebSocketFragment :=
  match f.fragment with
  | some fragment => (parseContent fragment f).map Prod.fst
  | none => some f

/-- The most bytes that a header takes. -/
def bufferLength : Nat := 14

/-- The bytes `buffer` of `parseHeader:from:`. -/
def headerBuffer (aData : List Byte) (aOffset : Nat) (f : WebSocketFragment) : List Byte :=
  let data := match f.fragment with
    | none => aData
    | some fragment =>
      if bufferLength ≤ fragment.length then fragment
      else if bufferLength - fragment.length ≤ aData.length - aOffset then
        fragment ++ (aData.drop aOffset).take (bufferLength - fragment.length)
      else fragment ++ aData
  (data.drop aOffset).take bufferLength

/-- The end of `parseHeader:from:`, where the length is known. -/
def setContent (payloadStart dataLength : Nat) (f : WebSocketFragment) : WebSocketFragment × Bool :=
  ({ f with payloadStart, payloadLength := int dataLength }, true)

/-- `parseHeader:from:` from the mask on. -/
def readMask (buffer : List Byte) (hasMask : Bool) (index dataLength : Nat) (f : WebSocketFragment) :
    WebSocketFragment × Bool :=
  if hasMask = true then
    if buffer.length < index + 4 then (f, false)
    else
      let at' (i : Nat) : BitVec 32 := (buffer.getD i 0).setWidth 32
      setContent (index + 4) dataLength { f with
        mask := at' index <<< 24 ||| at' (index + 1) <<< 16 ||| at' (index + 2) <<< 8 ||| at' (index + 3) }
  else setContent index dataLength f

/-- `parseHeader:from:` from the buffer on. -/
def readHeader (buffer : List Byte) (f : WebSocketFragment) : WebSocketFragment × Bool :=
  match buffer with
  | [] => (f, false)
  | first :: rest =>
    let f := { f with
      isFinal := first &&& 0x80 != 0
      isRSV1 := first &&& 0x40 != 0
      isRSV2 := first &&& 0x20 != 0
      isRSV3 := first &&& 0x10 != 0
      opCode := (first &&& 0x0F).toNat }
    match rest with
    | [] => (f, false)
    | second :: rest =>
      let hasMask := second &&& 0x80 != 0
      let dataLength := (second &&& 0x7F).toNat
      if dataLength = 126 then
        if buffer.length < 4 then (f, false)
        else readMask buffer hasMask 4 (ofBE (rest.take 2)) f
      else if dataLength = 127 then
        if buffer.length < 10 then (f, false)
        else readMask buffer hasMask 10 (ofBE (rest.take 8)) f
      else readMask buffer hasMask 2 dataLength f

/-- `parseHeader:from:`. -/
def parseHeader (aData : List Byte) (aOffset : Nat) (f : WebSocketFragment) : WebSocketFragment × Bool :=
  readHeader (headerBuffer aData aOffset f) f

/-- `parseHeader`. -/
def parseOwnHeader (f : WebSocketFragment) : WebSocketFragment :=
  if f.fragment.isSome = true then (parseHeader [] 0 f).1 else f

/-! ### Building -/

/-- `buildFragment`. -/
def buildFragment (f : WebSocketFragment) : WebSocketFragment :=
  let byte : Byte := if f.isFinal = true then 0x80#8 else 0#8
  let byte := byte ||| (BitVec.ofInt 8 f.opCode &&& 0xF)
  let payload := f.payloadData.getD []
  let fullPayloadLength := payload.length
  let lengthBytes :=
    if fullPayloadLength ≤ 125 then [0x80#8 ||| (BitVec.ofNat 8 fullPayloadLength &&& 0xFF)]
    else if fullPayloadLength ≤ 65535 then (0x80#8 ||| (126 &&& 0xFF)) :: toBE 2 fullPayloadLength
    else (0x80#8 ||| (127 &&& 0xFF)) :: toBE 8 fullPayloadLength
  let temp := byte :: lengthBytes ++ maskBytes f.mask
  { f with
    payloadStart := temp.length
    payloadLength := int fullPayloadLength
    fragment := some (temp ++ maskData f.mask payload) }

/-- `fragmentWithOpCode:isFinal:payload:`; the mask is a random number. -/
def fragmentWithOpCode (mask : BitVec 32) (aOpCode : Int) (aIsFinal : Bool)
    (aPayload : Option (List Byte)) : WebSocketFragment :=
  buildFragment { init with mask, opCode := aOpCode, isFinal := aIsFinal, payloadData := aPayload }

/-- `fragmentWithData:`. -/
def fragmentWithData (aData : List Byte) : Option WebSocketFragment :=
  let f := parseOwnHeader { init with fragment := some aData }
  if f.messageLength ≤ aData.length then parseOwnContent f else some f

/-! ### Numbers that fit -/

theorem unsigned_of_lt {n : Nat} (h : n < 2 ^ 64) : unsigned n = n := by
  rw [unsigned, BitVec.ofInt_natCast, BitVec.toNat_ofNat, Nat.mod_eq_of_lt h]

theorem unsigned_int_of_lt {n : Nat} (h : n < 2 ^ 31) : unsigned (int n) = n := by
  rw [int_of_lt h, unsigned_of_lt (h.trans (by norm_num))]

/-! ### The mask is the frame's -/

theorem maskBytes_getD (aMask : BitVec 32) (m : Nat) :
    (maskBytes aMask).getD (m % 4) 0 = keyByte aMask m := by
  have hm : m % 4 < 4 := Nat.mod_lt m (by norm_num)
  unfold keyByte
  interval_cases h : m % 4 <;> simp [maskBytes]

/-- The loop masks as the RFC does, by induction on the data. -/
theorem maskLoop_eq (aMask : BitVec 32) (m : Nat) (data : List Byte) :
    maskLoop aMask m data = maskFrom aMask m data := by
  induction data generalizing m with
  | nil => rfl
  | cons b bs ih => rw [maskLoop, maskFrom, maskBytes_getD, ih]

/-- A range inside the data is masked as the data in it. -/
theorem maskRange_eq {aMask : BitVec 32} {aData : List Byte} {location length : Nat}
    (hin : location + length ≤ aData.length) (hlt : location + length < 2 ^ 31) :
    maskRange aMask aData location length = Rfc6455.mask aMask ((aData.drop location).take length) := by
  have hlocation : location < 2 ^ 31 := by omega
  have hsum : int ((location : Int) + (length : Int)) = ((location + length : Nat) : Int) := by
    rw [← Int.natCast_add, int_of_lt hlt]
  have hunsigned : unsigned ((location + length : Nat) : Int) = location + length :=
    unsigned_of_lt (hlt.trans (by norm_num))
  have hdiff : (((location + length : Nat) : Int) - (location : Int)).toNat = length := by omega
  simp only [maskRange, hsum, hunsigned, int_of_lt hlocation, if_neg (Nat.not_lt.mpr hin), hdiff,
    Int.toNat_natCast]
  exact maskLoop_eq aMask 0 _

theorem maskData_eq {aMask : BitVec 32} {aData : List Byte} (h : aData.length < 2 ^ 31) :
    maskData aMask aData = Rfc6455.mask aMask aData := by
  rw [maskData, maskRange_eq (by omega) (by omega), List.drop_zero, List.take_length]

theorem maskBytes_eq (aMask : BitVec 32) : maskBytes aMask = toBE 4 aMask.toNat := by
  rw [← bytes_of_word]
  rfl

/-! ### Parsing a header -/

/-- The fields that the header of `g` sets. -/
def known (g : Frame) (f : WebSocketFragment) : WebSocketFragment :=
  { f with
    isFinal := g.fin
    isRSV1 := g.rsv.getLsbD 2
    isRSV2 := g.rsv.getLsbD 1
    isRSV3 := g.rsv.getLsbD 0
    opCode := g.opcode.toNat
    mask := g.key.getD f.mask
    payloadStart := g.header.length
    payloadLength := int g.payload.length }

theorem word_of_keyBytes (key : BitVec 32) :
    ((key >>> 24).setWidth 8).setWidth 32 <<< 24 ||| ((key >>> 16).setWidth 8).setWidth 32 <<< 16 |||
      ((key >>> 8).setWidth 8).setWidth 32 <<< 8 ||| (key.setWidth 8).setWidth 32 = key := by
  apply BitVec.eq_of_getLsbD_eq
  intro i hi
  simp only [BitVec.getLsbD_or, BitVec.getLsbD_shiftLeft, BitVec.getLsbD_setWidth,
    BitVec.getLsbD_ushiftRight]
  grind

/-- A key that is there is read as the mask. -/
theorem readMask_keyField (start tail : List Byte) (key : Option (BitVec 32)) (n : Nat)
    (f : WebSocketFragment) :
    readMask (start ++ (keyField key ++ tail)) key.isSome start.length n f =
      setContent (start ++ keyField key).length n { f with mask := key.getD f.mask } := by
  cases key with
  | none => simp [readMask, keyField]
  | some key =>
    have hword := word_of_keyBytes key
    have hlength : ¬ (start ++ (keyField (some key) ++ tail)).length < start.length + 4 := by
      simp [keyField]
    rw [readMask, Option.isSome_some, if_pos rfl, if_neg hlength, keyField, ← bytes_of_word key]
    simp [hword]

theorem first_tests (fin : Bool) (rsv : BitVec 3) (opcode : BitVec 4) :
    let first : Byte := BitVec.ofBool fin ++ rsv ++ opcode
    (first &&& 0x80 != 0) = fin ∧ (first &&& 0x40 != 0) = rsv.getLsbD 2 ∧
      (first &&& 0x20 != 0) = rsv.getLsbD 1 ∧ (first &&& 0x10 != 0) = rsv.getLsbD 0 ∧
      (first &&& 0x0F).toNat = opcode.toNat := by
  revert fin rsv opcode
  decide

theorem second_tests (masked : Bool) (x : BitVec 7) :
    ((BitVec.ofBool masked ++ x : Byte) &&& 0x80 != 0) = masked ∧
      ((BitVec.ofBool masked ++ x : Byte) &&& 0x7F).toNat = x.toNat := by
  revert masked x
  decide

/-- The fields that the first byte sets. -/
def flagged (g : Frame) (f : WebSocketFragment) : WebSocketFragment :=
  { f with
    isFinal := g.fin
    isRSV1 := g.rsv.getLsbD 2
    isRSV2 := g.rsv.getLsbD 1
    isRSV3 := g.rsv.getLsbD 0
    opCode := g.opcode.toNat }

/-- Behind the first two bytes the form of the length decides. -/
theorem readHeader_first (g : Frame) (second : Byte) (more : List Byte) (f : WebSocketFragment) :
    readHeader (g.first :: second :: more) f =
      let hasMask := second &&& 0x80 != 0
      let dataLength := (second &&& 0x7F).toNat
      if dataLength = 126 then
        if (g.first :: second :: more).length < 4 then (flagged g f, false)
        else readMask (g.first :: second :: more) hasMask 4 (ofBE (more.take 2)) (flagged g f)
      else if dataLength = 127 then
        if (g.first :: second :: more).length < 10 then (flagged g f, false)
        else readMask (g.first :: second :: more) hasMask 10 (ofBE (more.take 8)) (flagged g f)
      else readMask (g.first :: second :: more) hasMask 2 dataLength (flagged g f) := by
  obtain ⟨hfin, hrsv1, hrsv2, hrsv3, hopcode⟩ := first_tests g.fin g.rsv g.opcode
  unfold Frame.first
  rw [readHeader]
  simp only [hfin, hrsv1, hrsv2, hrsv3, hopcode]
  rfl

theorem readMask_short {buffer : List Byte} {key : Option (BitVec 32)} {index : Nat} (n : Nat)
    (f : WebSocketFragment) (hindex : index ≤ buffer.length)
    (h : buffer.length < index + (keyField key).length) :
    readMask buffer key.isSome index n f = (f, false) := by
  rw [length_keyField] at h
  cases key with
  | none =>
    simp only [Option.isSome_none, Bool.false_eq_true, if_false, Nat.add_zero] at h
    exact absurd h (Nat.not_lt.mpr hindex)
  | some key =>
    rw [Option.isSome_some, if_pos rfl] at h
    rw [readMask, Option.isSome_some, if_pos rfl, if_pos h]

/-- The tests of the second byte of a frame. -/
theorem second_of_form (g : Frame) {second : Byte} {more : List Byte}
    (hfield : lengthField g.key.isSome g.form g.payload.length = second :: more) :
    (second &&& 0x80 != 0) = g.key.isSome ∧
      match g.form with
      | .seven => (second &&& 0x7F).toNat = g.payload.length ∧ g.payload.length ≤ 125
      | .sixteen => (second &&& 0x7F).toNat = 126
      | .sixtyFour => (second &&& 0x7F).toNat = 127 := by
  have hfits := g.fits
  cases hform : g.form with
  | seven =>
    rw [hform] at hfield hfits
    obtain ⟨rfl, -⟩ := List.cons.inj hfield
    obtain ⟨hmask, hlength⟩ := second_tests g.key.isSome (BitVec.ofNat 7 g.payload.length)
    have hn : g.payload.length ≤ 125 := hfits
    rw [BitVec.toNat_ofNat, Nat.mod_eq_of_lt (by omega)] at hlength
    exact ⟨hmask, hlength, hn⟩
  | sixteen =>
    rw [hform] at hfield
    obtain ⟨rfl, -⟩ := List.cons.inj hfield
    exact second_tests g.key.isSome 126#7
  | sixtyFour =>
    rw [hform] at hfield
    obtain ⟨rfl, -⟩ := List.cons.inj hfield
    exact second_tests g.key.isSome 127#7

/-- Behind a length in any form the key is read. -/
theorem readHeader_lengthField (g : Frame) (rest : List Byte) (f : WebSocketFragment) :
    let start := g.first :: lengthField g.key.isSome g.form g.payload.length
    readHeader (start ++ rest) f =
      readMask (start ++ rest) g.key.isSome start.length g.payload.length (flagged g f) := by
  obtain ⟨second, more, hfield, -⟩ := lengthField_cons g.key.isSome g.form g.payload.length
  obtain ⟨hmask, hlength⟩ := second_of_form g hfield
  have hfits := g.fits
  have hcount := length_lengthField g.key.isSome g.form g.payload.length
  dsimp only
  rw [hfield, List.cons_append, List.cons_append, readHeader_first]
  rw [hfield] at hcount
  cases hform : g.form with
  | seven =>
    rw [hform] at hlength hcount
    have h126 : g.payload.length ≠ 126 := by omega
    have h127 : g.payload.length ≠ 127 := by omega
    simp only [hmask, hlength.1, if_neg h126, if_neg h127, List.length_cons, hcount]
  | sixteen =>
    rw [hform] at hlength hcount hfits hfield
    obtain ⟨-, rfl⟩ := List.cons.inj hfield
    have hlt : g.payload.length < 256 ^ 2 := hfits
    simp only [hmask, hlength]
    simp [ofBE_toBE_of_lt hlt]
  | sixtyFour =>
    rw [hform] at hlength hcount hfits hfield
    obtain ⟨-, rfl⟩ := List.cons.inj hfield
    have hlt : g.payload.length < 256 ^ 8 := hfits
    simp only [hmask, hlength]
    simp [ofBE_toBE_of_lt hlt]

/-- From its whole header a frame is known. -/
theorem readHeader_header (g : Frame) (tail : List Byte) (f : WebSocketFragment) :
    readHeader (g.header ++ tail) f = (known g f, true) := by
  have hread := readHeader_lengthField g (keyField g.key ++ tail) f
  have hmask := readMask_keyField (g.first :: lengthField g.key.isSome g.form g.payload.length) tail g.key
    g.payload.length (flagged g f)
  have hheader : g.header ++ tail =
      (g.first :: lengthField g.key.isSome g.form g.payload.length) ++ (keyField g.key ++ tail) := by
    rw [Frame.header, List.cons_append, List.cons_append, List.append_assoc]
  rw [hheader, hread, hmask]
  rfl

/-- Of less than a header at most the first byte is taken in. -/
theorem readHeader_short (g : Frame) (f : WebSocketFragment) {k : Nat} (h : k < g.header.length) :
    readHeader (g.header.take k) f = (if k = 0 then f else flagged g f, false) := by
  obtain ⟨second, more, hfield, -⟩ := lengthField_cons g.key.isSome g.form g.payload.length
  obtain ⟨hmask, hlength⟩ := second_of_form g hfield
  have hheader : g.header = g.first :: second :: (more ++ keyField g.key) := by
    rw [Frame.header, hfield, List.cons_append]
  rcases k with _ | _ | k
  · rfl
  · obtain ⟨hfin, hrsv1, hrsv2, hrsv3, hopcode⟩ := first_tests g.fin g.rsv g.opcode
    rw [hheader, List.take_succ_cons, List.take_zero]
    unfold Frame.first
    rw [readHeader]
    simp only [hfin, hrsv1, hrsv2, hrsv3, hopcode]
    rfl
  · rw [g.length_header, length_lengthField, length_keyField] at h
    rw [hheader, List.take_succ_cons, List.take_succ_cons, readHeader_first]
    have hbuffer : (g.first :: second :: (more ++ keyField g.key).take k).length ≤ k + 2 := by simp
    have hbuffer' : 2 ≤ (g.first :: second :: (more ++ keyField g.key).take k).length := by simp
    generalize g.first :: second :: (more ++ keyField g.key).take k = buffer at hbuffer hbuffer'
    have hcut : ∀ index, index ≤ buffer.length → k + 2 < index + (keyField g.key).length →
        ∀ n, readMask buffer g.key.isSome index n (flagged g f) = (flagged g f, false) :=
      fun index hindex hlt n => readMask_short n _ hindex (by omega)
    rw [if_neg (Nat.succ_ne_zero _), hmask]
    cases hform : g.form with
    | seven =>
      rw [hform] at hlength h
      have h126 : g.payload.length ≠ 126 := by omega
      have h127 : g.payload.length ≠ 127 := by omega
      simp only [hlength.1, if_neg h126, if_neg h127]
      exact hcut 2 hbuffer' (by rw [length_keyField]; omega) _
    | sixteen =>
      rw [hform] at hlength h
      by_cases hless : buffer.length < 4
      · simp only [hlength, if_true, if_pos hless]
      · simp only [hlength, if_true, if_neg hless]
        exact hcut 4 (by omega) (by rw [length_keyField]; omega) _
    | sixtyFour =>
      rw [hform] at hlength h
      have h126 : ¬ (127 = 126) := by decide
      by_cases hless : buffer.length < 10
      · simp only [hlength, if_neg h126, if_true, if_pos hless]
      · simp only [hlength, if_neg h126, if_true, if_neg hless]
        exact hcut 10 (by omega) (by rw [length_keyField]; omega) _

/-- `buffer` holds the first bytes of the fragment so far and of the new data. -/
theorem headerBuffer_eq {aData : List Byte} {aOffset : Nat} {f : WebSocketFragment}
    (h : f.fragment = none ∨ aOffset = 0) :
    headerBuffer aData aOffset f = (f.fragment.getD [] ++ aData.drop aOffset).take bufferLength := by
  unfold headerBuffer
  cases hfragment : f.fragment with
  | none => rfl
  | some fragment =>
    rw [hfragment] at h
    obtain rfl := h.resolve_left (Option.some_ne_none _)
    dsimp only
    simp only [List.drop_zero, Nat.sub_zero, Option.getD_some]
    by_cases hlong : bufferLength ≤ fragment.length
    · rw [if_pos hlong, List.take_append_of_le_length hlong]
    · rw [if_neg hlong]
      have hle : fragment.length ≤ bufferLength := Nat.le_of_not_le hlong
      by_cases hmore : bufferLength - fragment.length ≤ aData.length
      · rw [if_pos hmore, List.take_append, List.take_append, List.take_of_length_le hle,
          List.take_take, Nat.min_self]
      · rw [if_neg hmore]

/-- A header that is there is read, whatever stands behind it. -/
theorem parseHeader_known {g : Frame} {f : WebSocketFragment} {aData tail : List Byte} {aOffset : Nat}
    (h : f.fragment = none ∨ aOffset = 0)
    (hbytes : f.fragment.getD [] ++ aData.drop aOffset = g.header ++ tail) :
    parseHeader aData aOffset f = (known g f, true) := by
  rw [parseHeader, headerBuffer_eq h, hbytes, List.take_append,
    List.take_of_length_le (show g.header.length ≤ bufferLength from g.length_header_le),
    readHeader_header]

/-- Of a header that is cut nothing but the first byte is taken in. -/
theorem parseHeader_short {g : Frame} {f : WebSocketFragment} {aData : List Byte} {aOffset k : Nat}
    (h : f.fragment = none ∨ aOffset = 0) (hk : k < g.header.length)
    (hbytes : f.fragment.getD [] ++ aData.drop aOffset = g.header.take k) :
    parseHeader aData aOffset f = (if k = 0 then f else flagged g f, false) := by
  have hle := g.length_header_le
  rw [parseHeader, headerBuffer_eq h, hbytes, List.take_take, Nat.min_eq_right (by
    unfold bufferLength
    omega), readHeader_short g f hk]

/-! ### Parsing a payload -/

theorem contentEnd_eq {f : WebSocketFragment} {n : Nat} (hlength : f.payloadLength = n)
    (h : f.payloadStart + n < 2 ^ 31) : f.contentEnd = (f.payloadStart + n : Nat) := by
  rw [contentEnd, hlength, ← Int.natCast_add, int_of_lt h]

theorem unsigned_contentEnd {f : WebSocketFragment} {n : Nat} (hlength : f.payloadLength = n)
    (h : f.payloadStart + n < 2 ^ 31) : unsigned f.contentEnd = f.payloadStart + n := by
  rw [contentEnd_eq hlength h, unsigned_of_lt (h.trans (by norm_num))]

/-- The length of a message counts its header too. -/
theorem messageLength_eq {f : WebSocketFragment} {n : Nat} (hlength : f.payloadLength = n)
    (hstart : 0 < f.payloadStart) : f.messageLength = f.payloadStart + n := by
  rw [messageLength, hlength, if_pos ⟨hstart, Int.natCast_nonneg n⟩, Int.toNat_natCast]

/-- A frame whose lengths an `int` holds. -/
def Holds (g : Frame) : Prop := g.header.length + g.payload.length < 2 ^ 31

instance (g : Frame) : Decidable (Holds g) := inferInstanceAs (Decidable (_ < _))

theorem Holds.payload {g : Frame} (h : Holds g) : g.payload.length < 2 ^ 31 := by
  unfold Holds at h
  omega

/-- The fragment that holds the payload of `g`. -/
def parsed (g : Frame) (f : WebSocketFragment) : WebSocketFragment :=
  { known g f with payloadData := some g.payload, fragment := none }

theorem messageLength_known {g : Frame} (hholds : Holds g) (f : WebSocketFragment) :
    (known g f).messageLength = g.bytes.length := by
  rw [g.length_bytes]
  exact messageLength_eq (int_of_lt hholds.payload) g.length_header_pos

/-- A frame that was parsed is valid. -/
theorem isValid_parsed {g : Frame} (hholds : Holds g) (f : WebSocketFragment) :
    (parsed g f).isValid = true := by
  have hmessage : (parsed g f).messageLength = g.bytes.length := messageLength_known hholds f
  have hpos := List.length_pos_iff.mpr g.bytes_ne_nil
  have hcount : unsigned (parsed g f).payloadLength = g.payload.length :=
    unsigned_int_of_lt hholds.payload
  rw [isValid, hmessage, if_pos hpos, hcount]
  exact beq_self_eq_true g.payload.length

/-- Behind a known header the payload is parsed, with anything behind it. -/
theorem parseContent_known {g : Frame} (hholds : Holds g) {f : WebSocketFragment} (hmask : f.mask = 0)
    (tail : List Byte) :
    parseContent (g.bytes ++ tail) (known g f) =
      some (parsed g f, true) := by
  have hlt := hholds.payload
  have hlength : (known g f).payloadLength = g.payload.length := int_of_lt hlt
  have hend : unsigned (known g f).contentEnd = g.header.length + g.payload.length :=
    unsigned_contentEnd hlength hholds
  have hcount : unsigned (known g f).payloadLength = g.payload.length := unsigned_int_of_lt hlt
  have hle : g.header.length + g.payload.length ≤ (g.bytes ++ tail).length := by
    rw [List.length_append, g.length_bytes]
    omega
  have hdata : ((g.bytes ++ tail).drop g.header.length).take g.payload.length = g.masked := by
    rw [Frame.bytes, List.append_assoc, List.drop_left, ← g.length_masked, List.take_left]
  have hkey : (known g f).mask = g.key.getD 0 := by rw [← hmask]; rfl
  have hpayload : (if (known g f).hasMask = true then
      some (maskRange (known g f).mask (g.bytes ++ tail) g.header.length g.payload.length)
      else subdataWithRange (g.bytes ++ tail) g.header.length g.payload.length) = some g.payload := by
    rw [hasMask, hkey, maskRange_eq hle hholds, subdataWithRange, if_pos hle, hdata]
    have hunmasked := g.unmasked
    cases hk : g.key with
    | none =>
      rw [hk] at hunmasked
      exact congrArg some hunmasked
    | some key =>
      rw [hk] at hunmasked
      by_cases hzero : key = 0
      · -- four zero bytes, which change nothing
        subst hzero
        exact congrArg some ((mask_zero g.masked).symm.trans hunmasked)
      · rw [Option.getD_some, if_pos (bne_iff_ne.mpr hzero)]
        exact congrArg some hunmasked
  rw [parseContent, hend, if_pos hle, hcount]
  have hstart : (known g f).payloadStart = g.header.length := rfl
  dsimp only
  rw [hstart, hpayload, Option.map_some]
  rfl

/-- Any frame is parsed to its fields and its payload, whatever stands behind it. -/
theorem fragmentWithData_bytes {g : Frame} (hholds : Holds g) (tail : List Byte) :
    fragmentWithData (g.bytes ++ tail) = some (parsed g init) := by
  have hle : g.bytes.length ≤ (g.bytes ++ tail).length := by simp
  let f : WebSocketFragment := { init with fragment := some (g.bytes ++ tail) }
  have hbytes : f.fragment.getD [] ++ ([] : List Byte).drop 0 = g.header ++ (g.masked ++ tail) := by
    rw [List.drop_zero, List.append_nil, Option.getD_some, Frame.bytes, List.append_assoc]
  have hparse : parseOwnHeader f = known g f := by
    rw [parseOwnHeader, parseHeader_known (.inr rfl) hbytes]
    rfl
  have hmessage := messageLength_known hholds f
  have hfragment : (known g f).fragment = some (g.bytes ++ tail) := rfl
  rw [fragmentWithData, hparse, hmessage, if_pos hle, parseOwnContent, hfragment]
  dsimp only
  rw [parseContent_known hholds rfl]
  rfl

/-! ### Building a frame -/

/-- The form that `buildFragment` gives a length. -/
def shortest (n : Nat) : LengthForm :=
  if n ≤ 125 then .seven else if n ≤ 65535 then .sixteen else .sixtyFour

/-- The shortest form has room for the length. -/
theorem shortest_fits {n : Nat} (h : n < 2 ^ 64) : (shortest n).Fits n := by
  unfold shortest
  split
  · assumption
  · split
    · exact Nat.lt_succ_of_le ‹_›
    · exact h

/-- The frame that `buildFragment` writes. -/
def built (mask : BitVec 32) (opcode : BitVec 4) (fin : Bool) (payload : List Byte)
    (h : payload.length < 2 ^ 64) : Frame where
  fin
  rsv := 0
  opcode
  key := some mask
  form := shortest payload.length
  payload
  fits := shortest_fits h

theorem firstByte_eq (fin : Bool) (opcode : BitVec 4) :
    ((if fin = true then 0x80#8 else 0#8) ||| (BitVec.ofInt 8 opcode.toNat &&& 0xF) : Byte) =
      BitVec.ofBool fin ++ 0#3 ++ opcode := by
  revert fin opcode
  decide

theorem lengthByte_eq {n : Nat} (h : n ≤ 125) :
    0x80#8 ||| (BitVec.ofNat 8 n &&& 0xFF) = BitVec.ofBool true ++ BitVec.ofNat 7 n := by
  have hall : ∀ m : Fin 126, 0x80#8 ||| (BitVec.ofNat 8 m &&& 0xFF) =
      BitVec.ofBool true ++ BitVec.ofNat 7 m := by decide
  exact hall ⟨n, Nat.lt_succ_of_le h⟩

theorem lt_unsigned {n : Nat} (h : n < 2 ^ 31) : n < 2 ^ 64 := h.trans (by norm_num)

/-- What is built is a masked frame with its length in the shortest form. -/
theorem fragmentWithOpCode_fragment (mask : BitVec 32) (opcode : BitVec 4) (fin : Bool)
    (payload : Option (List Byte)) (h : (payload.getD []).length < 2 ^ 31) :
    (fragmentWithOpCode mask opcode.toNat fin payload).fragment =
      some (built mask opcode fin (payload.getD []) (lt_unsigned h)).bytes := by
  have hmask : maskData mask (payload.getD []) = Rfc6455.mask mask (payload.getD []) := maskData_eq h
  have hfirst := firstByte_eq fin opcode
  rw [fragmentWithOpCode, buildFragment]
  dsimp only
  rw [hmask, maskBytes_eq, hfirst]
  simp only [Frame.bytes, Frame.header, Frame.first, Frame.masked, keyField, built, shortest]
  by_cases h125 : (payload.getD []).length ≤ 125
  · rw [if_pos h125, if_pos h125, lengthByte_eq h125]
    simp [lengthField]
  · rw [if_neg h125, if_neg h125]
    by_cases h65535 : (payload.getD []).length ≤ 65535
    · rw [if_pos h65535, if_pos h65535]
      simp [lengthField]
    · rw [if_neg h65535, if_neg h65535]
      simp [lengthField]

/-- What is built is parsed to what it was built from. -/
theorem fragment_round_trip (mask : BitVec 32) (opcode : BitVec 4) (fin : Bool) (payload tail : List Byte)
    (h : payload.length + 14 < 2 ^ 31) : ∃ data f,
      (fragmentWithOpCode mask opcode.toNat fin (some payload)).fragment = some data ∧
      fragmentWithData (data ++ tail) = some f ∧ f.isValid = true ∧ f.isFinal = fin ∧
      f.opCode = opcode.toNat ∧ f.mask = mask ∧ f.payloadData = some payload := by
  have hlt : payload.length < 2 ^ 31 := by omega
  have hlt' := lt_unsigned hlt
  have hfragment : (fragmentWithOpCode mask opcode.toNat fin (some payload)).fragment =
      some (built mask opcode fin payload hlt').bytes :=
    fragmentWithOpCode_fragment mask opcode fin (some payload) hlt
  have hholds : Holds (built mask opcode fin payload hlt') := by
    have hheader := (built mask opcode fin payload hlt').length_header_le
    change _ + payload.length < 2 ^ 31
    omega
  exact ⟨_, _, hfragment, fragmentWithData_bytes hholds tail, isValid_parsed hholds init, rfl, rfl, rfl,
    rfl⟩

theorem fragment_round_trip_of_three : ∃ data f,
    (fragmentWithOpCode 0xdeadbeef (2#4).toNat true (some [1, 2, 3])).fragment = some data ∧
    fragmentWithData (data ++ [0]) = some f ∧ f.isValid = true ∧ f.isFinal = true ∧
    f.opCode = (2#4).toNat ∧ f.mask = 0xdeadbeef ∧ f.payloadData = some [1, 2, 3] :=
  fragment_round_trip 0xdeadbeef 2 true [1, 2, 3] [0] (by decide)

end WebSocketFragment

end Sogx
