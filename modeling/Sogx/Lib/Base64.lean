import Mathlib.Data.List.Basic
import Sogx.Lib.Bytes

/-!
Base64 as RFC 4648 has it, with the alphabet of section 4.

Three bytes are one number of four digits. A last group of one or two bytes is
filled up with zero bits to whole digits and with pads to four characters, and
those bits have to be zero for `decode`.

* `length_encode`, `encode_padded`: the form of what `encode` writes.
* `decode_encode`, `encode_injective`: nothing is lost.
-/

namespace Sogx.Lib.Base64

open Sogx.Lib

def alphabet : List Char :=
  "ABCDEFGHIJKLMNOPQRSTUVWXYZabcdefghijklmnopqrstuvwxyz0123456789+/".toList

def pad : Char := '='

def digit (n : Nat) : Char := alphabet.getD n pad

def value? (c : Char) : Option Nat := alphabet.idxOf? c

/-- The last `k` digits of `v`, most significant first. -/
def digits : Nat → Nat → List Char
  | 0, _ => []
  | k + 1, v => digit (v / 64 ^ k % 64) :: digits k v

/-- The number `n` with further digits behind it. -/
def number : Nat → List Char → Option Nat
  | n, [] => some n
  | n, c :: cs => (value? c).bind fun d => number (64 * n + d) cs

def encode : List Byte → List Char
  | [] => []
  | [a] => digits 2 (ofBE [a] * 2 ^ 4) ++ [pad, pad]
  | [a, b] => digits 3 (ofBE [a, b] * 2 ^ 2) ++ [pad]
  | a :: b :: c :: rest => digits 4 (ofBE [a, b, c]) ++ encode rest

/-- The bytes of a last group without its pads. -/
def decodeLast (width : Nat) (cs : List Char) : Option (List Byte) :=
  (number 0 cs).bind fun v =>
    let fill := 2 ^ (6 * cs.length - 8 * width)
    if v % fill = 0 then some (toBE width (v / fill)) else none

def decode : List Char → Option (List Byte)
  | [] => some []
  | a :: b :: c :: d :: rest =>
    if d = pad ∧ rest = [] then
      if c = pad then decodeLast 1 [a, b] else decodeLast 2 [a, b, c]
    else (number 0 [a, b, c, d]).bind fun v => (decode rest).map (toBE 3 v ++ ·)
  | _ => none

/-! ### Digits -/

theorem value_digit {n : Nat} (h : n < 64) : value? (digit n) = some n := by
  have hall : ∀ m : Fin 64, value? (digit m) = some m.val := by decide +kernel
  exact hall ⟨n, h⟩

theorem digit_mem {n : Nat} (h : n < 64) : digit n ∈ alphabet := by
  have hlength : alphabet.length = 64 := by decide
  rw [digit, List.getD_eq_getElem _ _ (by omega)]
  exact List.getElem_mem _

theorem pad_notMem : pad ∉ alphabet := by decide

theorem digit_ne_pad {n : Nat} (h : n < 64) : digit n ≠ pad :=
  fun heq => pad_notMem (heq ▸ digit_mem h)

theorem length_digits (k v : Nat) : (digits k v).length = k := by
  induction k with
  | zero => rfl
  | succ k ih => rw [digits, List.length_cons, ih]

theorem digits_mem {k v : Nat} : ∀ c ∈ digits k v, c ∈ alphabet := by
  induction k with
  | zero =>
    intro c hc
    cases hc
  | succ k ih =>
    intro c hc
    rcases List.mem_cons.mp hc with rfl | hc
    · exact digit_mem (Nat.mod_lt _ (by decide))
    · exact ih c hc

/-- The digits of a number are read as its lowest `k` places, behind what was read
before. -/
theorem number_digits (n k v : Nat) : number n (digits k v) = some (n * 64 ^ k + v % 64 ^ k) := by
  induction k generalizing n with
  | zero => simp [digits, number, Nat.mod_one]
  | succ k ih =>
    have hmod : v % 64 ^ (k + 1) = v % 64 ^ k + 64 ^ k * (v / 64 ^ k % 64) := by
      rw [pow_succ, Nat.mod_mul]
    rw [digits, number, value_digit (Nat.mod_lt _ (by decide)), Option.bind_some, ih, hmod]
    congr 1
    ring

theorem number_digits_of_lt {k v : Nat} (h : v < 64 ^ k) : number 0 (digits k v) = some v := by
  rw [number_digits, Nat.zero_mul, Nat.zero_add, Nat.mod_eq_of_lt h]

/-! ### The form of the code -/

/-- Each group of three bytes, also the last one, takes four characters. -/
theorem length_encode (bs : List Byte) : (encode bs).length = 4 * ((bs.length + 2) / 3) := by
  fun_induction encode bs with
  | case1 => rfl
  | case2 a => simp [length_digits]
  | case3 a b => simp [length_digits]
  | case4 a b c rest ih =>
    rw [List.length_append, length_digits, ih]
    simp only [List.length_cons]
    omega

/-- Pads stand only at the end, and there are at most two. -/
theorem encode_padded (bs : List Byte) :
    ∃ body k, encode bs = body ++ List.replicate k pad ∧ k ≤ 2 ∧ ∀ c ∈ body, c ∈ alphabet := by
  fun_induction encode bs with
  | case1 =>
    refine ⟨[], 0, rfl, by decide, ?_⟩
    intro c hc
    cases hc
  | case2 a => exact ⟨_, 2, rfl, Nat.le_refl 2, digits_mem⟩
  | case3 a b => exact ⟨_, 1, rfl, Nat.le_succ 1, digits_mem⟩
  | case4 a b c rest ih =>
    obtain ⟨body, k, hbody, hk, hmem⟩ := ih
    refine ⟨digits 4 (ofBE [a, b, c]) ++ body, k, ?_, hk, ?_⟩
    · rw [hbody, List.append_assoc]
    · intro d hd
      rcases List.mem_append.mp hd with hd | hd
      · exact digits_mem d hd
      · exact hmem d hd

/-- A code consists of digits and pads. -/
theorem mem_encode {bs : List Byte} {c : Char} (h : c ∈ encode bs) : c ∈ alphabet ∨ c = pad := by
  obtain ⟨body, k, hbody, -, hmem⟩ := encode_padded bs
  rw [hbody] at h
  rcases List.mem_append.mp h with h | h
  · exact .inl (hmem c h)
  · exact .inr (List.eq_of_mem_replicate h)

/-! ### Decoding -/

/-- The last group is read although its number was shifted to whole digits. -/
theorem decodeLast_digits {width k v : Nat}
    (hlt : v * 2 ^ (6 * k - 8 * width) < 64 ^ k) :
    decodeLast width (digits k (v * 2 ^ (6 * k - 8 * width))) = some (toBE width v) := by
  have hpos : 0 < 2 ^ (6 * k - 8 * width) := Nat.two_pow_pos _
  rw [decodeLast, number_digits_of_lt hlt, length_digits, Option.bind_some]
  simp only [Nat.mul_mod_left, if_true, Nat.mul_div_cancel _ hpos]

/-- A whole group in front is read as its three bytes. -/
theorem decode_digits {v : Nat} (hv : v < 2 ^ 24) (rest : List Char) :
    decode (digits 4 v ++ rest) = (decode rest).map (toBE 3 v ++ ·) := by
  have hnumber : number 0 (digits 4 v) = some v := number_digits_of_lt (by omega)
  have hlast : digit (v / 64 ^ 0 % 64) ≠ pad := digit_ne_pad (Nat.mod_lt _ (by decide))
  simp only [digits, List.cons_append, List.nil_append] at hnumber ⊢
  rw [decode, if_neg (fun h => hlast h.1), hnumber, Option.bind_some]

/-- What was encoded is decoded, by groups of three bytes and a last one that is shorter. -/
theorem decode_encode (bs : List Byte) : decode (encode bs) = some bs := by
  fun_induction encode bs with
  | case1 => rfl
  | case2 a =>
    have hlt : ofBE [a] < 256 ^ 1 := ofBE_lt [a]
    have hlast : decodeLast 1 (digits 2 (ofBE [a] * 2 ^ 4)) = some (toBE 1 (ofBE [a])) :=
      decodeLast_digits (k := 2) (by omega)
    simp only [digits, List.cons_append, List.nil_append] at hlast ⊢
    rw [decode, if_pos ⟨rfl, rfl⟩, if_pos rfl, hlast]
    exact congrArg some (toBE_ofBE [a])
  | case3 a b =>
    have hlt : ofBE [a, b] < 256 ^ 2 := ofBE_lt [a, b]
    have hlast : decodeLast 2 (digits 3 (ofBE [a, b] * 2 ^ 2)) = some (toBE 2 (ofBE [a, b])) :=
      decodeLast_digits (k := 3) (by omega)
    have hthird : digit (ofBE [a, b] * 2 ^ 2 / 64 ^ 0 % 64) ≠ pad :=
      digit_ne_pad (Nat.mod_lt _ (by decide))
    simp only [digits, List.cons_append, List.nil_append] at hlast ⊢
    rw [decode, if_pos ⟨rfl, rfl⟩, if_neg hthird, hlast]
    exact congrArg some (toBE_ofBE [a, b])
  | case4 a b c rest ih =>
    have hlt : ofBE [a, b, c] < 2 ^ 24 := by simpa using ofBE_lt [a, b, c]
    rw [decode_digits hlt, ih, Option.map_some]
    exact congrArg (fun group => some (group ++ rest)) (toBE_ofBE [a, b, c])

theorem encode_injective : Function.Injective encode := by
  intro bs bs' h
  have hdecode := congrArg decode h
  rw [decode_encode, decode_encode] at hdecode
  exact Option.some.inj hdecode

end Sogx.Lib.Base64
