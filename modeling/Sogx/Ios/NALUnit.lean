import Sogx.Lib.BitProgram
import Mathlib.Tactic.IntervalCases

/-!
`NALUnit.cpp`: reading the bits of a NAL unit.

A `NALUnit` walks over the bytes of one unit and drops the emulation prevention
bytes on its way; behind the end it reads zeros. `cursor` is where it stands in
the stream of the payload's bits.

* `GetBYTE_stream`, `GetBit_cursor`, `Skip_cursor`: one step of the reader,
  on the stream.
* `follows`: so every program of reads follows the stream.
-/

namespace Sogx

open Sogx.Lib Sogx.Lib.Bitstream

/-- `valid`: the unit never takes more bytes than there are. -/
structure NALUnit where
  m_pStart : List Byte
  m_cBytes : Int
  m_idx : Nat
  m_nBits : Nat
  m_byte : Byte
  m_cZeros : Nat
  valid : m_cBytes ≤ m_pStart.length

namespace NALUnit

/-- What keeps an operation from its end: a loop that is still running when the
fuel is used up, and a shift by the width of `int` or more. -/
inductive Stop where
  | running | wideShift
deriving DecidableEq, Repr

/-- `NALUnit(pStart, len)` over the bytes of an `NSData`, whose length becomes
an `int`. -/
def ofData (data : List Byte) : NALUnit where
  m_pStart := data
  m_cBytes := int data.length
  m_idx := 0
  m_nBits := 0
  m_byte := 0
  m_cZeros := 0
  valid := int_natCast_le data.length

def ResetBitstream (n : NALUnit) : NALUnit :=
  { n with m_idx := 0, m_nBits := 0, m_cZeros := 0 }

theorem ResetBitstream_ofData (data : List Byte) :
    (ofData data).ResetBitstream = ofData data := rfl

/-- `Type`; there is no start to a unit of no bytes. -/
def type (n : NALUnit) : Byte :=
  match n.m_pStart with
  | [] => 0
  | b :: _ => b &&& 0x1F#8

def GetBYTE (n : NALUnit) : Byte × NALUnit :=
  if n.m_cBytes ≤ n.m_idx then (0, n)
  else
    let b := n.m_pStart.getD n.m_idx 0
    let m_idx := n.m_idx + 1
    if b = 0 then
      let m_cZeros := n.m_cZeros + 1
      if m_idx < n.m_cBytes ∧ m_cZeros = 2 ∧ n.m_pStart.getD m_idx 0 = 3 then
        (b, { n with m_idx := m_idx + 1, m_cZeros := 0 })
      else (b, { n with m_idx := m_idx, m_cZeros := m_cZeros })
    else (b, { n with m_idx := m_idx, m_cZeros := 0 })

/-- `m_byte = GetBYTE(); m_nBits = 8;` -/
def loadByte (n : NALUnit) : NALUnit := { n.GetBYTE.2 with m_byte := n.GetBYTE.1, m_nBits := 8 }

def GetBit (n : NALUnit) : Bool × NALUnit :=
  let n := if n.m_nBits = 0 then n.loadByte else n
  let m_nBits := n.m_nBits - 1
  (n.m_byte.getLsbD m_nBits, { n with m_nBits := m_nBits })

/-- The loop of `Skip` over whole bytes. -/
def skipBytes : Nat → NALUnit → NALUnit
  | 0, n => n
  | k + 1, n => skipBytes k n.GetBYTE.2

def Skip (nBits : Nat) (n : NALUnit) : NALUnit :=
  if nBits < n.m_nBits then { n with m_nBits := n.m_nBits - nBits }
  else
    let nBits := nBits - n.m_nBits
    let n := skipBytes (nBits / 8) n
    let nBits := nBits % 8
    -- `m_nBits` keeps its value when no bits of another byte are skipped
    if nBits ≠ 0 then { n.loadByte with m_nBits := 8 - nBits } else n

/-- The loop of `GetWord`. -/
def getWord : Nat → Nat → NALUnit → Nat × NALUnit
  | 0, u, n => (u, n)
  | nBits + 1, u, n => getWord nBits (2 * u + n.GetBit.1.toNat) n.GetBit.2

def GetWord (nBits : Nat) (n : NALUnit) : Nat × NALUnit := getWord nBits 0 n

/-- The loop of `GetUE`. -/
def countZeros : Nat → Nat → NALUnit → Except Stop (Nat × NALUnit)
  | 0, _, _ => .error .running
  | fuel + 1, cZeros, n =>
    if n.GetBit.1 then .ok (cZeros, n.GetBit.2) else countZeros fuel (cZeros + 1) n.GetBit.2

def GetUE (fuel : Nat) (n : NALUnit) : Except Stop (Nat × NALUnit) := do
  let (cZeros, n) ← countZeros fuel 0 n
  if 32 ≤ cZeros then throw .wideShift
  let (word, n) := n.GetWord cZeros
  return (word + ((1#32 <<< cZeros) - 1#32).toNat, n)

def GetSE (fuel : Nat) (n : NALUnit) : Except Stop (Int × NALUnit) := do
  let (UE, n) ← n.GetUE fuel
  let bPositive := UE &&& 1 = 1
  let SE : Int := ((UE + 1) >>> 1 : Nat)
  return (if bPositive then SE else -SE, n)

/-! ### Where the reader stands -/

/-- The bytes that are still to be read. -/
def rest (n : NALUnit) : List Byte :=
  payload n.m_cZeros ((n.m_pStart.take n.m_cBytes.toNat).drop n.m_idx)

def cursor (n : NALUnit) : Cursor :=
  ⟨n.m_nBits, wordBits n.m_nBits n.m_byte.toNat ++ₛ streamOf n.rest⟩

theorem zeros_eq_byte : zeros = wordBits 8 (0#8).toNat ++ₛ zeros :=
  (replicate_append_zeros 8).symm

theorem drop_eq_cons {n : NALUnit} {k : Nat} (h : (k : Int) < n.m_cBytes) :
    (n.m_pStart.take n.m_cBytes.toNat).drop k =
      n.m_pStart.getD k 0 :: (n.m_pStart.take n.m_cBytes.toNat).drop (k + 1) := by
  have hvalid := n.valid
  have hlen : k < (n.m_pStart.take n.m_cBytes.toNat).length := by
    rw [List.length_take]
    omega
  have hget : k < n.m_pStart.length := by omega
  rw [List.drop_eq_getElem_cons hlen, List.getElem_take, List.getD_eq_getElem _ _ hget]

theorem drop_eq_nil {n : NALUnit} {k : Nat} (h : n.m_cBytes ≤ k) :
    (n.m_pStart.take n.m_cBytes.toNat).drop k = [] := by
  apply List.drop_eq_nil_of_le
  rw [List.length_take]
  omega

/-- What reading a byte does: behind the end nothing, else the next byte of the
payload is taken. -/
theorem GetBYTE_cases (n : NALUnit) :
    (n.GetBYTE = (0, n) ∧ n.rest = []) ∨
      ∃ b m_idx m_cZeros, n.GetBYTE = (b, { n with m_idx := m_idx, m_cZeros := m_cZeros }) ∧
        n.rest = b :: payload m_cZeros ((n.m_pStart.take n.m_cBytes.toNat).drop m_idx) := by
  by_cases hend : n.m_cBytes ≤ n.m_idx
  · refine .inl ⟨if_pos hend, ?_⟩
    rw [rest, drop_eq_nil hend]
    rfl
  · right
    rw [rest, drop_eq_cons (not_le.mp hend), payload_cons, GetBYTE, if_neg hend]
    by_cases hb : n.m_pStart.getD n.m_idx 0 = 0
    · have hafter : zerosAfter n.m_cZeros (n.m_pStart.getD n.m_idx 0) = n.m_cZeros + 1 := if_pos hb
      simp only [if_pos hb, hafter]
      by_cases hskip : ((n.m_idx + 1 : Nat) : Int) < n.m_cBytes ∧ n.m_cZeros + 1 = 2 ∧
          n.m_pStart.getD (n.m_idx + 1) 0 = 3
      · have hhead : ((n.m_pStart.take n.m_cBytes.toNat).drop (n.m_idx + 1)).head? = some 3 := by
          rw [drop_eq_cons hskip.1, hskip.2.2]
          rfl
        rw [if_pos hskip, if_pos ⟨hskip.2.1, hhead⟩, List.tail_drop]
        exact ⟨_, _, _, rfl, rfl⟩
      · rw [if_neg hskip, if_neg]
        · exact ⟨_, _, _, rfl, rfl⟩
        · rintro ⟨h2, hhead⟩
          apply hskip
          by_cases hin : ((n.m_idx + 1 : Nat) : Int) < n.m_cBytes
          · rw [drop_eq_cons hin] at hhead
            exact ⟨hin, h2, Option.some.inj hhead⟩
          · rw [drop_eq_nil (not_lt.mp hin)] at hhead
            cases hhead
    · have hafter : zerosAfter n.m_cZeros (n.m_pStart.getD n.m_idx 0) = 0 := if_neg hb
      have hzero : ¬ (0 = 2 ∧ ((n.m_pStart.take n.m_cBytes.toNat).drop (n.m_idx + 1)).head? =
          some (3 : Byte)) := fun h2 => by cases h2.1
      simp only [if_neg hb, hafter]
      rw [if_neg hzero]
      exact ⟨_, _, _, rfl, rfl⟩

/-- The stream begins with the byte that is taken, and goes on with what is left. -/
theorem GetBYTE_stream (n : NALUnit) :
    streamOf n.rest = wordBits 8 n.GetBYTE.1.toNat ++ₛ streamOf n.GetBYTE.2.rest := by
  rcases GetBYTE_cases n with ⟨hget, hrest⟩ | ⟨b, m_idx, m_cZeros, hget, hrest⟩
  · rw [hget, hrest]
    exact zeros_eq_byte
  · rw [hget, hrest, streamOf_cons]
    rfl

/-- Reading a byte leaves the bits of the byte begun alone. -/
theorem GetBYTE_frame (n : NALUnit) :
    n.GetBYTE.2.m_nBits = n.m_nBits ∧ n.GetBYTE.2.m_byte = n.m_byte := by
  rcases GetBYTE_cases n with ⟨hget, -⟩ | ⟨b, m_idx, m_cZeros, hget, -⟩
  · rw [hget]
    exact ⟨rfl, rfl⟩
  · rw [hget]
    exact ⟨rfl, rfl⟩

/-- One bit, on the stream. -/
theorem GetBit_cursor (n : NALUnit) :
    n.GetBit.1 = n.cursor.bits.head ∧ n.GetBit.2.cursor = n.cursor.after 1 := by
  cases h : n.m_nBits with
  | zero =>
    have hstream : n.cursor.bits = wordBits 8 n.GetBYTE.1.toNat ++ₛ streamOf n.GetBYTE.2.rest := by
      rw [cursor, h, wordBits, Stream'.nil_append_stream, GetBYTE_stream]
    have hget : n.GetBit = (n.GetBYTE.1.getLsbD 7, { n.loadByte with m_nBits := 7 }) := by
      rw [GetBit, if_pos h]
      rfl
    have hleft : n.cursor.left = 0 := h
    rw [Cursor.after, hleft, hstream, hget]
    exact ⟨rfl, rfl⟩
  | succ k =>
    have hget : n.GetBit = (n.m_byte.getLsbD k, { n with m_nBits := k }) := by
      rw [GetBit, if_neg (by omega), h]
      rfl
    rw [Cursor.after, cursor, h, hget]
    exact ⟨rfl, rfl⟩

/-- A word is the next bits, and the cursor goes behind them. -/
theorem getWord_cursor (k u : Nat) (n : NALUnit) :
    (getWord k u n).1 = u * 2 ^ k + wordOf (n.cursor.bits.take k) ∧
      (getWord k u n).2.cursor = n.cursor.after k := by
  induction k generalizing u n with
  | zero => simp [getWord, wordOf, Cursor.after]
  | succ k ih =>
    obtain ⟨hbit, hafter⟩ := GetBit_cursor n
    obtain ⟨hword, hcursor⟩ := ih (2 * u + n.GetBit.1.toNat) n.GetBit.2
    rw [hafter] at hword hcursor
    constructor
    · rw [getWord, hword, Stream'.take_succ, wordOf_cons, Stream'.length_take, hbit, pow_succ]
      have hbits : (n.cursor.after 1).bits = n.cursor.bits.tail := rfl
      rw [hbits]
      ring
    · rw [getWord, hcursor, ← Cursor.after_succ]

/-- A word, on the stream. -/
theorem GetWord_cursor (k : Nat) (n : NALUnit) :
    (n.GetWord k).1 = wordOf (n.cursor.bits.take k) ∧
      (n.GetWord k).2.cursor = n.cursor.after k := by
  have h := getWord_cursor k 0 n
  rw [Nat.zero_mul, Nat.zero_add] at h
  exact h

/-! ### Skipping -/

/-- How `Skip` moves. When the bits to skip end with a byte, the bits that were
left of the byte begun are not given up: they are read again. -/
def skip (nBits : Nat) (c : Cursor) : Cursor :=
  if nBits < c.left then ⟨c.left - nBits, c.bits.drop nBits⟩
  else if (nBits - c.left) % 8 = 0 then ⟨c.left, c.bits.take c.left ++ₛ c.bits.drop nBits⟩
  else ⟨8 - (nBits - c.left) % 8, c.bits.drop nBits⟩

theorem skip_mk (nBits left : Nat) (s : Bits) :
    skip nBits ⟨left, s⟩ =
      if nBits < left then ⟨left - nBits, s.drop nBits⟩
      else if (nBits - left) % 8 = 0 then ⟨left, s.take left ++ₛ s.drop nBits⟩
      else ⟨8 - (nBits - left) % 8, s.drop nBits⟩ := rfl

/-- A whole byte is skipped as such. -/
theorem skip_eight (s : Bits) : skip 8 ⟨0, s⟩ = ⟨0, s.drop 8⟩ := by
  rw [skip_mk, if_neg (Nat.not_lt_zero 8), if_pos rfl]
  rfl

theorem drop_wordBits {k n : Nat} (h : k ≤ n) (v : Nat) :
    (wordBits n v).drop k = wordBits (n - k) v := by
  induction k generalizing n with
  | zero => rfl
  | succ k ih =>
    cases n with
    | zero => omega
    | succ n => rw [wordBits, List.drop_succ_cons, ih (by omega), Nat.succ_sub_succ]

/-- Within a word in front, dropping bits makes the word narrower. -/
theorem drop_wordBits_append {k n : Nat} (h : k ≤ n) (v : Nat) (s : Bits) :
    (wordBits n v ++ₛ s).drop k = wordBits (n - k) v ++ₛ s := by
  rw [Stream'.drop_append_of_le_length (h := by rw [length_wordBits]; exact h), drop_wordBits h]

/-- Whole bytes are skipped by dropping their bits. -/
theorem skipBytes_stream (k : Nat) (n : NALUnit) :
    streamOf (skipBytes k n).rest = (streamOf n.rest).drop (8 * k) ∧
      (skipBytes k n).m_nBits = n.m_nBits ∧ (skipBytes k n).m_byte = n.m_byte := by
  induction k generalizing n with
  | zero => exact ⟨rfl, rfl, rfl⟩
  | succ k ih =>
    obtain ⟨hstream, hnBits, hbyte⟩ := ih n.GetBYTE.2
    obtain ⟨hframe, hframe'⟩ := GetBYTE_frame n
    have hdrop : (streamOf n.rest).drop 8 = streamOf n.GetBYTE.2.rest := by
      rw [GetBYTE_stream n]
      exact drop_append_of_length _ (length_wordBits 8 _)
    refine ⟨?_, hnBits.trans hframe, hbyte.trans hframe'⟩
    rw [skipBytes, hstream, ← hdrop, Stream'.drop_drop, Nat.mul_succ, Nat.add_comm]

theorem loadByte_stream (n : NALUnit) :
    wordBits 8 n.loadByte.m_byte.toNat ++ₛ streamOf n.loadByte.rest = streamOf n.rest :=
  (GetBYTE_stream n).symm

/-- What `Skip` does to the cursor. -/
theorem Skip_cursor (nBits : Nat) (n : NALUnit) :
    (n.Skip nBits).cursor = skip nBits n.cursor := by
  have hleft : n.cursor.left = n.m_nBits := rfl
  have hbits : n.cursor.bits = wordBits n.m_nBits n.m_byte.toNat ++ₛ streamOf n.rest := rfl
  rw [skip, hleft, hbits, Skip]
  by_cases hlt : nBits < n.m_nBits
  · rw [if_pos hlt, if_pos hlt, drop_wordBits_append hlt.le]
    rfl
  · obtain ⟨hstream, hnBits, hbyte⟩ := skipBytes_stream ((nBits - n.m_nBits) / 8) n
    have hdrop : (wordBits n.m_nBits n.m_byte.toNat ++ₛ streamOf n.rest).drop nBits =
        (streamOf n.rest).drop (nBits - n.m_nBits) := by
      have hsum : nBits = n.m_nBits + (nBits - n.m_nBits) := by omega
      rw [hsum, ← Stream'.drop_drop, drop_append_of_length _ (length_wordBits _ _),
        Nat.add_sub_cancel_left]
    have hdiv := Nat.div_add_mod (nBits - n.m_nBits) 8
    rw [if_neg hlt, if_neg hlt, hdrop, take_append_of_length _ (length_wordBits _ _)]
    by_cases hmod : (nBits - n.m_nBits) % 8 = 0
    · rw [if_pos hmod, if_neg (not_not.mpr hmod), cursor, hnBits, hbyte, hstream]
      rw [hmod, Nat.add_zero] at hdiv
      rw [hdiv]
    · rw [if_neg hmod, if_pos hmod, cursor]
      congr 1
      have hpart : (nBits - n.m_nBits) % 8 ≤ 8 := (Nat.mod_lt _ (by norm_num)).le
      change wordBits (8 - (nBits - n.m_nBits) % 8)
        (skipBytes ((nBits - n.m_nBits) / 8) n).loadByte.m_byte.toNat ++ₛ
          streamOf (skipBytes ((nBits - n.m_nBits) / 8) n).loadByte.rest = _
      rw [← drop_wordBits_append hpart, loadByte_stream, hstream, Stream'.drop_drop, hdiv]

/-! ### Codes -/

theorem base_toNat {k : Nat} (h : k < 32) : ((1#32 <<< k) - 1#32).toNat = 2 ^ k - 1 := by
  interval_cases k <;> rfl

/-- The loop of `GetUE` looks for the first one. -/
theorem countZeros_of_some {fuel k : Nat} (cZeros : Nat) {n : NALUnit}
    (h : findOne fuel n.cursor.bits = some k) :
    ∃ n', countZeros fuel cZeros n = .ok (cZeros + k, n') ∧ n'.cursor = n.cursor.after (k + 1) := by
  induction fuel generalizing cZeros k n with
  | zero => cases h
  | succ fuel ih =>
    obtain ⟨hbit, hafter⟩ := GetBit_cursor n
    rw [findOne] at h
    rw [countZeros, hbit]
    split at h
    · rename_i hone
      obtain rfl := Option.some.inj h
      rw [if_pos hone]
      exact ⟨_, rfl, hafter⟩
    · rename_i hzero
      obtain ⟨j, hj, rfl⟩ := Option.map_eq_some_iff.mp h
      have hnext : findOne fuel n.GetBit.2.cursor.bits = some j := by
        rw [hafter]
        exact hj
      obtain ⟨n', hcount, hcursor⟩ := ih (cZeros + 1) hnext
      rw [hafter, ← Cursor.after_succ] at hcursor
      rw [if_neg hzero, hcount, Nat.add_assoc, Nat.add_comm 1 j]
      exact ⟨n', rfl, hcursor⟩

/-- Without a set bit the zeros are counted for ever. -/
theorem countZeros_of_none {fuel cZeros : Nat} {n : NALUnit}
    (h : findOne fuel n.cursor.bits = none) : countZeros fuel cZeros n = .error .running := by
  induction fuel generalizing cZeros n with
  | zero => rfl
  | succ fuel ih =>
    obtain ⟨hbit, hafter⟩ := GetBit_cursor n
    rw [findOne] at h
    split at h
    · cases h
    · rename_i hzero
      rw [countZeros, hbit, if_neg hzero]
      apply ih
      rw [hafter]
      exact Option.map_eq_none_iff.mp h

/-- A code of fewer than 32 leading zeros is read as what it stands for. -/
theorem GetUE_of_findOne {fuel k : Nat} {n : NALUnit} (h : findOne fuel n.cursor.bits = some k)
    (hk : k < 32) :
    ∃ u n', n.GetUE fuel = .ok (u, n') ∧ n.cursor.ue = some (u, n'.cursor) := by
  obtain ⟨n', hcount, hcursor⟩ := countZeros_of_some 0 h
  obtain ⟨-, hzeros⟩ := findOne_eq_some.mp h
  have hue := Cursor.ue_of_findOne (findOne_eq_some.mpr ⟨hk, hzeros⟩)
  obtain ⟨hword, hafter⟩ := GetWord_cursor k n'
  rw [Nat.zero_add] at hcount
  refine ⟨(n'.GetWord k).1 + ((1#32 <<< k) - 1#32).toNat, (n'.GetWord k).2, ?_, ?_⟩
  · rw [GetUE, hcount]
    simp only [bind, Except.bind, if_neg (not_le.mpr hk)]
    rfl
  · rw [hue, hword, hafter, base_toNat hk, hcursor]

/-- With 32 zeros or more the shift is as wide as the word. -/
theorem GetUE_of_wide {fuel k : Nat} {n : NALUnit} (h : findOne fuel n.cursor.bits = some k)
    (hk : 32 ≤ k) : n.GetUE fuel = .error .wideShift := by
  obtain ⟨n', hcount, -⟩ := countZeros_of_some 0 h
  rw [Nat.zero_add] at hcount
  rw [GetUE, hcount]
  simp only [bind, Except.bind, if_pos hk]
  rfl

theorem GetUE_of_none {fuel : Nat} {n : NALUnit} (h : findOne fuel n.cursor.bits = none) :
    n.GetUE fuel = .error .running := by
  rw [GetUE, countZeros_of_none h]
  rfl

/-- A code that was read is the one in front, and the cursor goes behind it. -/
theorem GetUE_cursor {fuel u : Nat} {n n' : NALUnit} (h : n.GetUE fuel = .ok (u, n')) :
    n.cursor.ue = some (u, n'.cursor) := by
  cases hfind : findOne fuel n.cursor.bits with
  | none =>
    rw [GetUE_of_none hfind] at h
    cases h
  | some k =>
    by_cases hk : k < 32
    · obtain ⟨u', n'', hget, hue⟩ := GetUE_of_findOne hfind hk
      rw [hget] at h
      obtain ⟨rfl, rfl⟩ := Prod.mk.inj (Except.ok.inj h)
      exact hue
    · rw [GetUE_of_wide hfind (not_lt.mp hk)] at h
      cases h

/-- A code that is there is read with 32 turns. -/
theorem GetUE_total {n : NALUnit} (h : n.cursor.ue.isSome) : ∃ r, n.GetUE 32 = .ok r := by
  have hsome : (findOne 32 n.cursor.bits).isSome := by
    rw [findOne_isSome_iff, ← Cursor.ue_isSome_iff]
    exact h
  obtain ⟨k, hk⟩ := Option.isSome_iff_exists.mp hsome
  obtain ⟨u, n', hget, -⟩ := GetUE_of_findOne hk (findOne_eq_some.mp hk).1
  exact ⟨_, hget⟩

/-- The code of the reader numbers the signed numbers in the order of the standard. -/
theorem signed_eq (u : Nat) :
    signed u = if u &&& 1 = 1 then (((u + 1) >>> 1 : Nat) : Int) else -((u + 1) >>> 1 : Nat) := by
  rw [signed, Nat.and_one_is_mod, Nat.shiftRight_eq_div_pow, pow_one]

/-! ### Programs of reads -/

def reader : Program.Reader NALUnit Stop where
  bit := GetBit
  word := GetWord
  ue := fun fuel n => n.GetUE fuel
  se := fun fuel n => n.GetSE fuel
  skip := Skip

/-- The reader follows the cursor: each of its reads is that of the bits. -/
theorem follows : Program.Follows reader cursor skip where
  bit := GetBit_cursor
  word := GetWord_cursor
  ue_ok := fun _ _ _ _ h => GetUE_cursor h
  ue_total := fun _ h => GetUE_total h
  se := by
    intro fuel n
    change n.GetSE fuel = (n.GetUE fuel).map _
    rw [GetSE]
    cases n.GetUE fuel with
    | error e => rfl
    | ok r =>
      simp only [bind, Except.bind, Except.map, signed_eq]
      rfl
  skip := Skip_cursor

/-! ### Reading what was written -/

/-- A syntax element with its value. -/
inductive Element where
  | u (n v : Nat) (hn : n ≤ 32) (hv : v < 2 ^ n)
  | ue (v : Nat) (h : v ≤ 2 ^ 31 - 2)
  | se (v : Int) (h : |v| ≤ 2 ^ 30 - 1)

namespace Element

def bits : Element → List Bool
  | u n v _ _ => wordBits n v
  | ue v _ => ueBits v
  | se v _ => seBits v

def value : Element → Int
  | u _ v _ _ => v
  | ue v _ => v
  | se v _ => v

/-- The call that reads the element. -/
def read : Element → Program Int
  | u n _ _ _ => do return ((← Program.getWord n : Nat) : Int)
  | ue _ _ => do return ((← Program.getUE : Nat) : Int)
  | se _ _ => Program.getSE

/-- An element that stands in front is read. -/
theorem eval_read (e : Element) (p : Nat) (s : Bits) :
    Program.eval skip e.read (.behind p (e.bits ++ₛ s)) =
      some (e.value, .behind (p + e.bits.length) s) := by
  cases e with
  | u n v hn hv =>
    change Program.eval skip (Program.getWord n >>= fun v => pure (v : Int)) _ = _
    rw [Program.eval_bind, bits, Program.eval_getWord_append hv, length_wordBits]
    rfl
  | ue v h =>
    change Program.eval skip (Program.getUE >>= fun v => pure (v : Int)) _ = _
    rw [Program.eval_bind, bits, Program.eval_getUE_append (by omega)]
    rfl
  | se v h =>
    have hle := abs_le.mp h
    apply Program.eval_getSE_append
    unfold codeNum
    split
    · omega
    · omega

end Element

def readAll : List Element → Program (List Int)
  | [] => return []
  | e :: es => do
    let v ← e.read
    let vs ← readAll es
    return v :: vs

/-- The elements, written, closed with the stop bit and made safe for a byte
stream. -/
def written (es : List Element) : List Byte := escape 0 (rbsp (es.flatMap Element.bits))

/-- Elements that stand one behind the other are read, by induction on them. -/
theorem eval_readAll (es : List Element) (p : Nat) (s : Bits) :
    Program.eval skip (readAll es) (.behind p (es.flatMap Element.bits ++ₛ s)) =
      some (es.map Element.value, .behind (p + (es.flatMap Element.bits).length) s) := by
  induction es generalizing p with
  | nil => rfl
  | cons e es ih =>
    rw [readAll, Program.eval_bind, List.flatMap_cons, Stream'.append_append_stream, e.eval_read,
      Option.bind_some, Program.eval_bind, ih, List.length_append, ← Nat.add_assoc]
    rfl

/-- A fresh reader over fewer than 2^31 bytes stands before all of their
payload. -/
theorem cursor_ofData {data : List Byte} (h : data.length < 2 ^ 31) :
    (ofData data).cursor = .behind 0 (streamOf (payload 0 data)) := by
  have hlen : (int data.length).toNat = data.length := by
    rw [int_of_lt h, Int.toNat_natCast]
  have hrest : (ofData data).rest = payload 0 data := by
    change payload 0 ((data.take (int data.length).toNat).drop 0) = _
    rw [hlen, List.take_length, List.drop_zero]
  rw [cursor, hrest]
  rfl

/-- Below 2^31 bytes, reading gives back what was written. -/
theorem read_written (es : List Element) (h : (written es).length < 2 ^ 31) :
    ∃ n, (readAll es).run reader 32 (ofData (written es)) = .ok (es.map Element.value, n) := by
  have hcursor : (ofData (written es)).cursor =
      .behind 0 (es.flatMap Element.bits ++ₛ ([true] ++ₛ zeros)) := by
    rw [cursor_ofData h, written, payload_escape, rbsp, streamOf_pack, Stream'.append_append_stream]
  apply Program.run_of_eval follows
  rw [hcursor]
  exact eval_readAll es 0 _

/-- The payload of these holds `00 00 01`, which the bytes must not. -/
def fourElements : List Element :=
  [.u 8 0 (by decide) (by decide), .u 16 1 (by decide) (by decide), .ue 4 (by decide),
    .se (-1) (by decide)]

theorem read_written_of_four :
    written fourElements = [0, 0, 3, 1, 0x2b, 0x80] ∧
      ∃ n, (readAll fourElements).run reader 32 (ofData (written fourElements)) =
        .ok ([0, 1, 4, -1], n) :=
  have hwritten : written fourElements = [0, 0, 3, 1, 0x2b, 0x80] := by decide
  ⟨hwritten, read_written fourElements (by rw [hwritten]; decide)⟩

/-! Of 2^31 bytes or more, the `int` length makes an empty unit. -/

/-- From 2 GiB on the length is negative, and the reader sees zeros only. -/
theorem cursor_ofData_long {data : List Byte} (hlow : 2 ^ 31 ≤ data.length)
    (hhigh : data.length < 2 ^ 32) : (ofData data).cursor = .behind 0 zeros := by
  have hneg := int_neg hlow hhigh
  have hrest : (ofData data).rest = [] := by
    change payload 0 ((data.take (int data.length).toNat).drop 0) = _
    rw [Int.toNat_of_nonpos hneg.le]
    rfl
  rw [cursor, hrest]
  rfl

/-- As many bytes 01. -/
def onesElements (n : Nat) : List Element :=
  List.replicate n (.u 8 1 (by decide) (by decide))

theorem written_ones (n : Nat) : written (onesElements n) = List.replicate n 1 ++ [0x80] := by
  have hrbsp : rbsp ((onesElements n).flatMap Element.bits) = List.replicate n 1 ++ [0x80] := by
    unfold rbsp onesElements
    induction n with
    | zero => rfl
    | succ n ih =>
      rw [List.replicate_succ, List.flatMap_cons, List.append_assoc, pack_append rfl, ih]
      rfl
  rw [written, hrbsp]
  apply escape_of_ne_zero
  intro b hb
  rcases List.mem_append.mp hb with hone | hstop
  · rw [(List.mem_replicate.mp hone).2]
    decide
  · rw [List.mem_singleton.mp hstop]
    decide

/-- From 2^31 bytes on, not even the first element is read back. -/
theorem ones_not_read {n : Nat} (hlow : 2 ^ 31 ≤ n) (hhigh : n + 1 < 2 ^ 32) :
    ¬ ∃ fuel n', (readAll (onesElements n)).run reader fuel (ofData (written (onesElements n))) =
      .ok ((onesElements n).map Element.value, n') := by
  rintro ⟨fuel, n', hrun⟩
  have hlen : (written (onesElements n)).length = n + 1 := by
    rw [written_ones, List.length_append, List.length_replicate, List.length_singleton]
  have hcursor := cursor_ofData_long (hlow.trans (by omega)) (hlen.trans_lt hhigh)
  have heval := Program.eval_of_run follows hrun
  obtain ⟨m, rfl⟩ : ∃ m, n = m + 1 := ⟨n - 1, by omega⟩
  have hones : onesElements (m + 1) = .u 8 1 (by decide) (by decide) :: onesElements m := rfl
  rw [hcursor, hones, readAll, Program.eval_bind, List.map_cons] at heval
  obtain ⟨⟨v, c⟩, hfirst, hrest⟩ := Option.bind_eq_some_iff.mp heval
  rw [Program.eval_bind] at hrest
  obtain ⟨⟨vs, c'⟩, -, hlist⟩ := Option.bind_eq_some_iff.mp hrest
  obtain ⟨hvalue, -⟩ := List.cons.inj (Prod.mk.inj (Option.some.inj hlist)).1
  obtain ⟨hzero, -⟩ := Prod.mk.inj (Option.some.inj hfirst)
  rw [← hzero] at hvalue
  cases hvalue

/-- What was written with 2 GiB is not read back. -/
theorem long_list_not_read :
    ¬ ∃ fuel n', (readAll (onesElements (2 ^ 31))).run reader fuel
        (ofData (written (onesElements (2 ^ 31)))) =
      .ok ((onesElements (2 ^ 31)).map Element.value, n') :=
  ones_not_read le_rfl (by norm_num)

end NALUnit

end Sogx
