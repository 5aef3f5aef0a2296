import Mathlib.Data.BitVec
import Mathlib.Data.Nat.Bitwise
import Mathlib.Tactic.IntervalCases
import Mathlib.Tactic.Ring

/-!
Bytes, big-endian numbers of any width, and the 32-bit machine words in which
C, Objective-C and the JVM shift and mask them.

* `toBE w n` / `ofBE` are the abstract layer: naturals as `w` bytes, most
  significant first, with both round trips (`ofBE_toBE`, `toBE_ofBE`).
* The `byte_of_*` lemmas say that a masked and shifted 32-bit word gives one of
  those bytes, whichever right shift the language uses; `word_of_bytes` says
  that four shifted and summed bytes give the word of the number they encode.
* `int` is the conversion to a signed word of 32 bits. `int_of_lt`: below 2^31
  it changes nothing.
-/

namespace Sogx.Lib

abbrev Byte := BitVec 8

/-- The `w` big-endian bytes of `n`; bits above `8 * w` are dropped. -/
def toBE : Nat → Nat → List Byte
  | 0, _ => []
  | w + 1, n => BitVec.ofNat 8 (n / 256 ^ w) :: toBE w n

/-- The natural with the given big-endian bytes. -/
def ofBE : List Byte → Nat
  | [] => 0
  | b :: bs => b.toNat * 256 ^ bs.length + ofBE bs

@[simp] theorem length_toBE (w n : Nat) : (toBE w n).length = w := by
  induction w with
  | zero => rfl
  | succ w ih => simp [toBE, ih]

theorem ofBE_lt (bs : List Byte) : ofBE bs < 256 ^ bs.length := by
  induction bs with
  | nil => simp [ofBE]
  | cons b bs ih =>
    have hb : b.toNat < 256 := b.isLt
    have hmul : b.toNat * 256 ^ bs.length ≤ 255 * 256 ^ bs.length :=
      Nat.mul_le_mul_right _ (by omega)
    simp only [ofBE, List.length_cons, pow_succ]
    omega

/-- The bytes of a number are read as its lowest bytes. -/
theorem ofBE_toBE (w n : Nat) : ofBE (toBE w n) = n % 256 ^ w := by
  induction w with
  | zero => simp [toBE, ofBE, Nat.mod_one]
  | succ w ih =>
    have hbyte : (BitVec.ofNat 8 (n / 256 ^ w)).toNat = n / 256 ^ w % 256 :=
      BitVec.toNat_ofNat _ _
    rw [toBE, ofBE, hbyte, ih, length_toBE, pow_succ, Nat.mod_mul, Nat.mul_comm, Nat.add_comm]

theorem ofBE_toBE_of_lt {w n : Nat} (h : n < 256 ^ w) : ofBE (toBE w n) = n := by
  rw [ofBE_toBE, Nat.mod_eq_of_lt h]

/-- Bytes above the width do not matter to `toBE`. -/
theorem toBE_add_mul (w n k : Nat) : toBE w (k * 256 ^ w + n) = toBE w n := by
  induction w generalizing k with
  | zero => rfl
  | succ w ih =>
    have hsplit : k * 256 ^ (w + 1) + n = k * 256 * 256 ^ w + n := by ring
    have hdiv : (k * 256 * 256 ^ w + n) / 256 ^ w = n / 256 ^ w + k * 256 := by
      rw [Nat.add_comm, Nat.add_mul_div_right _ _ (Nat.pow_pos (by decide))]
    rw [toBE, toBE, hsplit, ih, hdiv]
    congr 1
    apply BitVec.eq_of_toNat_eq
    simp [Nat.add_mod]

/-- Bytes are those of their number. -/
theorem toBE_ofBE (bs : List Byte) : toBE bs.length (ofBE bs) = bs := by
  induction bs with
  | nil => rfl
  | cons b bs ih =>
    have hlt := ofBE_lt bs
    have htop : (b.toNat * 256 ^ bs.length + ofBE bs) / 256 ^ bs.length = b.toNat := by
      rw [Nat.add_comm, Nat.add_mul_div_right _ _ (Nat.pow_pos (by decide)),
        Nat.div_eq_of_lt hlt, Nat.zero_add]
    rw [List.length_cons, toBE, ofBE, htop, toBE_add_mul, ih]
    simp

/-- A four-byte number, spelled out. -/
theorem ofBE_four (b0 b1 b2 b3 : Byte) :
    ofBE [b0, b1, b2, b3] =
      b0.toNat * 2 ^ 24 + b1.toNat * 2 ^ 16 + b2.toNat * 2 ^ 8 + b3.toNat := by
  simp [ofBE]
  ring

/-! ### Taking a 32-bit word apart -/

theorem byte_of_shift (v : BitVec 32) (k : Nat) :
    (v >>> k).setWidth 8 = BitVec.ofNat 8 (v.toNat / 2 ^ k) := by
  apply BitVec.eq_of_toNat_eq
  simp [Nat.shiftRight_eq_div_pow]

section Masks

variable (v : BitVec 32)

/-- Masking a byte in place before the shift changes nothing. -/
theorem byte_of_masked {m : BitVec 32} {k : Nat} (hk : k ≤ 24) (hm : m = 0xff#32 <<< k) :
    ((v &&& m) >>> k).setWidth 8 = (v >>> k).setWidth 8 := by
  subst hm
  apply BitVec.eq_of_getLsbD_eq
  intro i hi
  have hbit : (0xff#32)[i] = true := by interval_cases i <;> simp
  have hlt : k + i < 32 := by omega
  simp [hi, hlt, hbit]

/-- The arithmetic shift of a signed word gives the same byte: the copied sign
bits are cut off with the upper bytes. -/
theorem byte_of_signed_masked {m : BitVec 32} {k : Nat} (hk : k ≤ 24) (hm : m = 0xff#32 <<< k) :
    ((v &&& m).sshiftRight k).setWidth 8 = (v >>> k).setWidth 8 := by
  rw [← byte_of_masked v hk hm]
  apply BitVec.eq_of_getLsbD_eq
  intro i hi
  have hlt : k + i < 32 := by omega
  have hi' : i < 32 := by omega
  simp [hi, BitVec.getElem_sshiftRight, hlt, hi']

/-- The four bytes of a word are its big-endian encoding. -/
theorem bytes_of_word :
    [(v >>> 24).setWidth 8, (v >>> 16).setWidth 8, (v >>> 8).setWidth 8, (v >>> 0).setWidth 8] =
      toBE 4 v.toNat := by
  simp only [byte_of_shift, toBE]
  norm_num

end Masks

/-! ### Putting a 32-bit word together -/

theorem mask_byte (b : Byte) : b.setWidth 32 &&& 0x000000ff#32 = b.setWidth 32 := by
  revert b
  decide

/-- Masking undoes the sign extension of a JVM `Byte`. -/
theorem mask_signed_byte (b : Byte) : b.signExtend 32 &&& 0x000000ff#32 = b.setWidth 32 := by
  revert b
  decide

/-- Four bytes put together by shifts are their number. -/
theorem word_of_bytes (b0 b1 b2 b3 : Byte) :
    (b0.setWidth 32 <<< 24) + (b1.setWidth 32 <<< 16) + (b2.setWidth 32 <<< 8) +
      b3.setWidth 32 = BitVec.ofNat 32 (ofBE [b0, b1, b2, b3]) := by
  rw [ofBE_four]
  apply BitVec.eq_of_toNat_eq
  simp [Nat.shiftLeft_eq]

/-- A length below 2^31 survives the trip through a signed 32-bit integer. -/
theorem toInt_ofNat_of_lt {n : Nat} (h : n < 2 ^ 31) : (BitVec.ofNat 32 n).toInt = n := by
  have hnat : (BitVec.ofNat 32 n).toNat = n := by
    rw [BitVec.toNat_ofNat, Nat.mod_eq_of_lt (by omega)]
  rw [BitVec.toInt_eq_toNat_of_lt (by omega), hnat]

/-- From 2^31 on it comes out negative. -/
theorem toInt_ofNat_neg {n : Nat} (h : 2 ^ 31 ≤ n) (h' : n < 2 ^ 32) :
    (BitVec.ofNat 32 n).toInt < 0 := by
  have hnat : (BitVec.ofNat 32 n).toNat = n := by
    rw [BitVec.toNat_ofNat, Nat.mod_eq_of_lt h']
  rw [BitVec.toInt_eq_toNat_cond, hnat, if_neg (by omega)]
  omega

/-- A word that reads as a natural number is that number. -/
theorem eq_of_toInt_ofNat {n m : Nat} (hn : n < 2 ^ 32) (h : (BitVec.ofNat 32 n).toInt = m) :
    n = m := by
  rcases Nat.lt_or_ge n (2 ^ 31) with hlt | hge
  · rw [toInt_ofNat_of_lt hlt] at h
    exact Int.ofNat_inj.mp h
  · have hneg := toInt_ofNat_neg hge hn
    omega

/-! ### The conversion to a signed word -/

/-- The conversion to a C `int`, which wraps. -/
def int (n : Int) : Int := (BitVec.ofInt 32 n).toInt

/-- A length never becomes larger. -/
theorem int_natCast_le (n : Nat) : int n ≤ n := by
  rw [int, BitVec.toInt_ofInt, Int.bmod_def]
  split
  · omega
  · omega

/-- What an `int` can hold is not changed. -/
theorem int_of_range {n : Int} (hlow : -2 ^ 31 ≤ n) (hhigh : n < 2 ^ 31) : int n = n := by
  rw [int, BitVec.toInt_ofInt]
  exact Int.bmod_eq_of_le (by omega) (by omega)

/-- A length that an `int` can hold is not changed. -/
theorem int_of_lt {n : Nat} (h : n < 2 ^ 31) : int n = n :=
  int_of_range (by omega) (by omega)

/-- A length of 2^31 or more becomes negative. -/
theorem int_neg {n : Nat} (hlow : 2 ^ 31 ≤ n) (hhigh : n < 2 ^ 32) : int n < 0 := by
  rw [int, BitVec.toInt_ofInt, Int.bmod_def]
  split
  · omega
  · omega

end Sogx.Lib
